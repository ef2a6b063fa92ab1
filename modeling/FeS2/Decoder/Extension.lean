import FeS2.Decoder.DivisionUops
import FeS2.Decoder.MemOperand

/-!
The extensions `movzx`, `movsx` and `movsxd`. From a register they are a mask or a move, from
memory a load that extends. The fields of a mask's control word are six bits and are cut to what
numbers the bits of the size, where a field as wide as the size comes out as zero.
-/

namespace FeS2.Decoder

/-- The opcodes `0x1b6`, `0x1b7`, `0x63`, `0x1be` and `0x1bf`. -/
inductive ExtOp
  | movzxb
  | movzxw
  | movsxd
  | movsxb
  | movsxw
  deriving DecidableEq

namespace ExtOp

def zeroext : ExtOp → Bool
  | .movzxb | .movzxw => true
  | .movsxd | .movsxb | .movsxw => false

def rasize : ExtOp → Size
  | .movzxb | .movsxb => .w8
  | .movzxw | .movsxw => .w16
  | .movsxd => .w32

theorem zeroext_rasize {op : ExtOp} (h : op.zeroext = true) : op.rasize.bits ≤ 16 := by
  cases op with
  | movzxb | movzxw => decide
  | movsxd | movsxb | movsxw => cases h

end ExtOp

/-- Without a REX prefix a byte may be the second of its register. -/
inductive ExtOperand : Size → Type
  | reg {size : Size} (r : Gpr) : ExtOperand size
  | high (r : HighByte) : ExtOperand .w8
  | mem {size : Size} (a : MemOperand) : ExtOperand size

structure ExtInsn where
  op : ExtOp
  opsizePrefix : Bool
  mode64 : Bool
  rd : Gpr
  ra : ExtOperand op.rasize

/-! The uops -/

section
variable (rd : Gpr) (rdsize rasize : Size) (zeroext : Bool)

/-- `MaskControlInfo(0, (1 << rasize) * 8, 0)`. -/
def extendInfo : MaskControlInfo :=
  { ms := 0, mc := BitVec.ofNat 6 ((1 <<< rasize.sizeshift) * 8), ds := 0 }

def extractHigh (r : HighByte) : TransOp :=
  { opcode := .maskb, rd := .temp0, ra := .zero, rb := .gpr r.archReg, rc := .imm, size := .w64,
    rcimm := MaskControlInfo.data { ms := 0, mc := 8, ds := 8 } }

def extendReg (rareg : Reg) : TransOp :=
  if zeroext ∧ 2 ≤ rdsize.sizeshift then
    { opcode := .mov, rd := .gpr rd, ra := .zero, rb := rareg, rc := .zero, size := rasize }
  else
    { opcode := .maskb, rd := .gpr rd, ra := if rdsize.sizeshift < 2 then .gpr rd else .zero,
      rb := rareg, rc := .imm, size := rdsize, rcimm := (extendInfo rasize).data,
      cond := if zeroext then .no else .c }

/-- The load of the operand, and what follows it. -/
def extendMem (c : DecodeContext) (a : MemOperand) : List TransOp :=
  let opcode : Opcode := if zeroext then .ld else .ldx
  if 2 ≤ rdsize.sizeshift then
    a.load c rasize opcode (.gpr rd) ::
      if rdsize = .w32 ∧ zeroext = false then
        [{ opcode := .mov, rd := .gpr rd, ra := .zero, rb := .gpr rd, rc := .zero, size := .w32 }]
      else []
  else
    [a.load c rasize opcode .temp0,
      { opcode := .mov, rd := .gpr rd, ra := .gpr rd, rb := .temp0, rc := .zero, size := rdsize }]

def signextRegOrMem (c : DecodeContext) : {rasize : Size} → ExtOperand rasize → List TransOp
  | rasize, .reg r => [extendReg rd rdsize rasize zeroext (.gpr r)]
  | _, .high r => [extractHigh r, extendReg rd rdsize .w8 zeroext .temp0]
  | rasize, .mem a => (a.addressGenerate c rasize).1 ++ extendMem rd rdsize rasize zeroext c a

/-! The instruction -/

/-- The value extended: of a memory operand, what is where the uops of its address lead. -/
def ExtOperand.source (c : DecodeContext) (left : Nat → Leftover) (m : Machine) :
    {rasize : Size} → ExtOperand rasize → Option W64
  | _, .reg r => some (m.data (.gpr r))
  | _, .high r => some (m.data (.gpr r.archReg) >>> 8)
  | rasize, .mem a =>
      (runUops (fun k => left (k + (extendMem rd rdsize rasize zeroext c a).length)) c.rip
          (a.addressGenerate c rasize).1 m).map fun r =>
        r.1.load (r.1.data (a.addressGenerate c rasize).2.1 + (a.addressGenerate c rasize).2.2)
          rasize

def ExtOperand.IsMem : {size : Size} → ExtOperand size → Prop
  | _, .reg _ => False
  | _, .high _ => False
  | _, .mem _ => True

/-- The low bits of the value, extended. -/
def extended (x : W64) : W64 :=
  if zeroext then ((x.setWidth rasize.bits).setWidth rdsize.bits).setWidth 64
  else ((x.setWidth rasize.bits).signExtend rdsize.bits).setWidth 64

/-- The uops run to their end and leave the extended value, in two bytes of the register, in all
of it, or in its low half with zeros above. -/
def ExtOperand.Extends (c : DecodeContext) (left : Nat → Leftover) (m : Machine) {rasize : Size}
    (ra : ExtOperand rasize) : Prop :=
  ∃ x m', ra.source rd rdsize zeroext c left m = some x ∧
    runUops left c.rip (signextRegOrMem rd rdsize zeroext c ra) m = some (m', c.rip) ∧
    m'.data (.gpr rd) =
      x86Merge rdsize (m.data (.gpr rd)) (extended rdsize rasize zeroext x)

end

namespace ExtInsn

/-- The size of a register in `v_mode`. -/
def rdsize (i : ExtInsn) : Size :=
  if i.mode64 then .w64 else if ¬i.opsizePrefix then .w32 else .w16

def uops (i : ExtInsn) (c : DecodeContext) : List TransOp :=
  signextRegOrMem i.rd i.rdsize i.op.zeroext c i.ra

def Extends (i : ExtInsn) (c : DecodeContext) (left : Nat → Leftover) (m : Machine) : Prop :=
  i.ra.Extends i.rd i.rdsize i.op.zeroext c left m

end ExtInsn

/-! The masks -/

theorem Size.rotr_zero (size : Size) (r : W64) :
    size.rotr r 0 = (r.setWidth size.bits).setWidth 64 := by
  rw [Size.rotr]
  congr 1
  apply BitVec.eq_of_getLsbD_eq
  intro i hi
  rw [BitVec.getLsbD_rotateRight, Nat.zero_mod, decide_eq_true (by omega : i < size.bits - 0),
    cond_true, Nat.zero_add]

theorem getLsbD_bitmask (l i : Nat) (hl : l ≤ 64) (hi : i < 64) :
    (bitmask l).getLsbD i = decide (i < l) := by
  have hmask : bitmask l = (BitVec.allOnes l).setWidth 64 := by
    apply BitVec.eq_of_toNat_eq
    rw [BitVec.toNat_setWidth, BitVec.toNat_allOnes]
    unfold bitmask
    by_cases hword : l = 64
    · rw [hword]
      rfl
    · have hpow : 2 ^ l < 2 ^ 64 := Nat.pow_lt_pow_right (by decide) (by omega)
      have hpos := Nat.two_pow_pos l
      rw [if_neg hword, BitVec.toNat_sub, BitVec.toNat_shiftLeft]
      change (2 ^ 64 - 1 + (1 <<< l) % 2 ^ 64) % 2 ^ 64 = _
      rw [Nat.one_shiftLeft, Nat.mod_eq_of_lt hpow]
      omega
  rw [hmask, BitVec.getLsbD_setWidth, BitVec.getLsbD_allOnes, decide_eq_true hi, Bool.true_and]

/-- What is left of the fields: the width comes through only below the size. -/
theorem extendInfo_fields (rdsize rasize : Size) :
    ((rdsize.maskControl (extendInfo rasize).data).extractLsb' 0 6).toNat = 0 ∧
      ((rdsize.maskControl (extendInfo rasize).data).extractLsb' 6 6).toNat =
        (if rasize.bits < rdsize.bits then rasize.bits else 0) ∧
      ((rdsize.maskControl (extendInfo rasize).data).extractLsb' 12 6).toNat = 0 := by
  cases rdsize <;> cases rasize <;> decide

theorem expOpMask_extendInfo (undefined : W64) (rdsize rasize : Size) (cond : Cond) (ra rb : W64) :
    expOpMask undefined rdsize cond ra rb (extendInfo rasize).data =
      let mc := if rasize.bits < rdsize.bits then rasize.bits else 0
      let m := ((bitmask mc).setWidth rdsize.bits).setWidth 64
      let rd := (ra &&& ~~~m) ||| ((rb.setWidth rdsize.bits).setWidth 64 &&& m)
      match cond with
      | .no => rd &&& bitmask mc
      | .c => if mc = 0 then undefined else signext64 rd mc
      | _ => rd := by
  have ⟨hms, hmc, hds⟩ := extendInfo_fields rdsize rasize
  cases cond <;> simp only [expOpMask, hms, hmc, hds, Size.rotr_zero, Nat.zero_add]

theorem getLsbD_signext64 (x : W64) (n i : Nat) (hpos : 0 < n) (hn : n ≤ 64) (hi : i < 64) :
    (signext64 x n).getLsbD i = if i < n then x.getLsbD i else x.getLsbD (n - 1) := by
  rw [signext64, BitVec.getLsbD_sshiftRight, BitVec.msb_eq_getLsbD_last]
  simp only [BitVec.getLsbD_shiftLeft]
  by_cases hin : i < n
  · have h1 : 64 - n + i < 64 := by omega
    have h3 : 64 - n + i - (64 - n) = i := by omega
    simp [h1, h3, hi, hin]
  · have h1 : ¬ 64 - n + i < 64 := by omega
    have h3 : 64 - 1 - (64 - n) = n - 1 := by omega
    have h4 : ¬ 64 - 1 < 64 - n := by omega
    rw [if_neg hin]
    simp only [h1, h3, h4, if_false, decide_false, Bool.not_false, Bool.and_true]
    simp [hi]

section
variable {rdsize rasize : Size}

/-- Below the size of the destination, the mask takes the bits of the source. -/
theorem getLsbD_taken (ra rb : W64) {mc i : Nat} (hi : i < mc) (hmc : mc < rdsize.bits) :
    ((ra &&& ~~~((bitmask mc).setWidth rdsize.bits).setWidth 64) |||
        ((rb.setWidth rdsize.bits).setWidth 64 &&&
          ((bitmask mc).setWidth rdsize.bits).setWidth 64)).getLsbD i = rb.getLsbD i := by
  have hle := rdsize.bits_le
  rw [getLsbD_mix _ _ _ (by omega), BitVec.getLsbD_setWidth, BitVec.getLsbD_setWidth,
    getLsbD_bitmask _ _ (by omega) (by omega), BitVec.getLsbD_setWidth, BitVec.getLsbD_setWidth,
    decide_eq_true (by omega : i < 64), decide_eq_true (by omega : i < rdsize.bits),
    decide_eq_true hi]
  simp

theorem expOpMask_zero (undefined ra rb : W64) (h : rasize.bits < rdsize.bits) :
    (expOpMask undefined rdsize .no ra rb (extendInfo rasize).data).setWidth rdsize.bits =
      (rb.setWidth rasize.bits).setWidth rdsize.bits := by
  have hle := rdsize.bits_le
  rw [expOpMask_extendInfo, if_pos h]
  apply BitVec.eq_of_getLsbD_eq
  intro i hi
  dsimp only
  rw [BitVec.getLsbD_setWidth, BitVec.getLsbD_and, getLsbD_bitmask _ _ (by omega) (by omega),
    BitVec.getLsbD_setWidth, BitVec.getLsbD_setWidth, decide_eq_true hi, Bool.true_and,
    Bool.true_and]
  by_cases hmc : i < rasize.bits
  · rw [getLsbD_taken ra rb hmc h, Bool.and_comm]
  · rw [decide_eq_false hmc, Bool.and_false, Bool.false_and]

theorem expOpMask_sign (undefined ra rb : W64) (h : rasize.bits < rdsize.bits) :
    (expOpMask undefined rdsize .c ra rb (extendInfo rasize).data).setWidth rdsize.bits =
      (rb.setWidth rasize.bits).signExtend rdsize.bits := by
  have hle := rdsize.bits_le
  have hpos := rasize.bits_pos
  rw [expOpMask_extendInfo, if_pos h]
  apply BitVec.eq_of_getLsbD_eq
  intro i hi
  dsimp only
  rw [if_neg (by omega), BitVec.getLsbD_setWidth, decide_eq_true hi, Bool.true_and,
    getLsbD_signext64 _ _ _ hpos (by omega) (by omega), BitVec.getLsbD_signExtend,
    decide_eq_true hi, Bool.true_and, BitVec.msb_eq_getLsbD_last, BitVec.getLsbD_setWidth,
    BitVec.getLsbD_setWidth]
  by_cases hmc : i < rasize.bits
  · rw [if_pos hmc, if_pos hmc, getLsbD_taken ra rb hmc h, decide_eq_true hmc, Bool.true_and]
  · rw [if_neg hmc, if_neg hmc, getLsbD_taken ra rb (by omega) h, decide_eq_true (by omega),
      Bool.true_and]

/-- A width that does not come through takes nothing of the source. -/
theorem expOpMask_wide (undefined ra rb : W64) (zeroext : Bool) (h : rdsize.bits ≤ rasize.bits) :
    expOpMask undefined rdsize (if zeroext then .no else .c) ra rb (extendInfo rasize).data =
      if zeroext then 0 else undefined := by
  rw [expOpMask_extendInfo, if_neg (by omega)]
  have hmask : bitmask 0 = 0 := rfl
  cases zeroext with
  | true =>
    dsimp only [if_true]
    rw [hmask]
    exact BitVec.and_zero
  | false => rfl

end

/-! The values -/

section
variable {rdsize rasize : Size} (zeroext : Bool) (x : W64)

theorem extended_setWidth (rdsize rasize : Size) :
    (extended rdsize rasize zeroext x).setWidth rdsize.bits =
      if zeroext then (x.setWidth rasize.bits).setWidth rdsize.bits
      else (x.setWidth rasize.bits).signExtend rdsize.bits := by
  have hle := rdsize.bits_le
  unfold extended
  cases zeroext with
  | true => simp only [if_true, BitVec.setWidth_setWidth_of_le _ hle, BitVec.setWidth_eq]
  | false =>
    simp only [Bool.false_eq_true, if_false, BitVec.setWidth_setWidth_of_le _ hle,
      BitVec.setWidth_eq]

theorem extended_bit (rdsize rasize : Size) (zeroext : Bool) (x : W64) :
    ((extended rdsize rasize zeroext x).setWidth rdsize.bits).getLsbD 0 = x.getLsbD 0 := by
  have hrd := rdsize.bits_pos
  have hra := rasize.bits_pos
  rw [extended_setWidth]
  cases zeroext with
  | true =>
    rw [if_pos rfl, BitVec.getLsbD_setWidth, BitVec.getLsbD_setWidth, decide_eq_true hrd,
      decide_eq_true hra, Bool.true_and, Bool.true_and]
  | false =>
    rw [if_neg (by decide), BitVec.getLsbD_signExtend, if_pos hra, BitVec.getLsbD_setWidth,
      decide_eq_true hrd, decide_eq_true hra, Bool.true_and, Bool.true_and]

theorem Size.whole_bits {size : Size} (h : 2 ≤ size.sizeshift) : 32 ≤ size.bits := by
  cases size with
  | w8 => cases h
  | w16 => exact absurd h (by decide)
  | w32 | w64 => decide

/-- Four bytes and eight are not merged. -/
theorem x86Merge_whole (h : 2 ≤ rdsize.sizeshift) (rd rd' x : W64) :
    x86Merge rdsize rd x = x86Merge rdsize rd' x := by
  cases rdsize with
  | w8 => cases h
  | w16 => exact absurd h (by decide)
  | w32 => rfl
  | w64 => rfl

theorem x86Merge_self (size : Size) (rd x : W64) :
    x86Merge size rd ((x.setWidth size.bits).setWidth 64) = x86Merge size rd x := by
  apply x86Merge_congr
  rw [BitVec.setWidth_setWidth_of_le _ size.bits_le, BitVec.setWidth_eq]

/-- A value put into zeros. -/
theorem x86Merge_zero (size : Size) (x : W64) :
    x86Merge size 0 x = (x.setWidth size.bits).setWidth 64 := by
  cases size with
  | w8 =>
    apply BitVec.eq_of_getLsbD_eq
    intro i hi
    rw [x86Merge, BitVec.getLsbD_append]
    by_cases hbit : i < 8
    · simp [hbit, Size.bits, hi]
    · simp [hbit, Size.bits]
  | w16 =>
    apply BitVec.eq_of_getLsbD_eq
    intro i hi
    rw [x86Merge, BitVec.getLsbD_append]
    by_cases hbit : i < 16
    · simp [hbit, Size.bits, hi]
    · simp [hbit, Size.bits]
  | w32 => rfl
  | w64 => rfl

/-- In a register that is written whole, the extension with zeros does not depend on its size. -/
theorem x86Merge_extended (h : 2 ≤ rdsize.sizeshift) (hlt : rasize.bits < rdsize.bits) (rd : W64) :
    x86Merge rdsize rd (extended rdsize rasize true x) = x86Merge rasize 0 x := by
  have hle := rdsize.bits_le
  rw [x86Merge_whole h rd 0, x86Merge_zero, x86Merge_zero, extended_setWidth, if_pos rfl]
  apply BitVec.eq_of_toNat_eq
  have hpow : 2 ^ rasize.bits ≤ 2 ^ rdsize.bits := Nat.pow_le_pow_right (by decide) (by omega)
  have hx : x.toNat % 2 ^ rasize.bits < 2 ^ rasize.bits := Nat.mod_lt _ (Nat.two_pow_pos _)
  simp only [BitVec.toNat_setWidth]
  rw [Nat.mod_eq_of_lt (by omega : x.toNat % 2 ^ rasize.bits < 2 ^ rdsize.bits)]

end

/-! The registers -/

section
variable {left : Nat → Leftover} (next : W64) (m : Machine) (rd : Gpr) {rdsize rasize : Size}
  {zeroext : Bool} {rareg : Reg}

variable {m rd} in
theorem runUops_single {t : TransOp} {x : W64} {f : Flags}
    (h : t.exec (left 0) m = some (.result x f)) (hrd : t.rd = .gpr rd) :
    ∃ m', runUops left next [t] m = some (m', next) ∧ m'.data (.gpr rd) = x := by
  refine ⟨t.write (left 0) x f m, ?_, ?_⟩
  · simp only [runUops, List.length_nil, h]
  · rw [TransOp.write_data (by rw [hrd]; rintro ⟨⟩) rfl, hrd, if_pos rfl]

/-- The mask, whatever becomes of its fields. -/
theorem exec_extendReg (rasize : Size) (himm : rareg ≠ .imm)
    (h : ¬(zeroext = true ∧ 2 ≤ rdsize.sizeshift))
    (l : Leftover) : ∃ f, (extendReg rd rdsize rasize zeroext rareg).exec l m =
      some (.result (x86Merge rdsize (m.data (.gpr rd))
        (expOpMask l.result rdsize (if zeroext then .no else .c)
          (m.data (if rdsize.sizeshift < 2 then .gpr rd else .zero)) (m.data rareg)
          (extendInfo rasize).data)) f) := by
  have hmerge : ∀ x, x86Merge rdsize (m.data (if rdsize.sizeshift < 2 then .gpr rd else .zero)) x =
      x86Merge rdsize (m.data (.gpr rd)) x := by
    intro x
    by_cases hsmall : rdsize.sizeshift < 2
    · rw [if_pos hsmall]
    · exact x86Merge_whole (by omega) _ _ _
  unfold extendReg
  rw [if_neg h, TransOp.exec]
  dsimp only
  rw [hmerge, TransOp.readRb, if_neg himm, TransOp.readRc, if_pos rfl]
  exact ⟨_, rfl⟩

theorem exec_extendReg_move (himm : rareg ≠ .imm) (hlt : rasize.bits < rdsize.bits)
    (hzero : zeroext = true) (hwhole : 2 ≤ rdsize.sizeshift) (l : Leftover) :
    ∃ f, (extendReg rd rdsize rasize zeroext rareg).exec l m =
      some (.result (x86Merge rdsize (m.data (.gpr rd))
        (extended rdsize rasize zeroext (m.data rareg))) f) := by
  refine ⟨.clear, ?_⟩
  unfold extendReg
  rw [if_pos ⟨hzero, hwhole⟩, hzero, x86Merge_extended _ hwhole hlt, TransOp.exec]
  dsimp only
  rw [TransOp.aluop]
  dsimp only
  rw [TransOp.readRb, if_neg himm, x86Merge_self]
  rfl

/-- A source narrower than the destination is extended. -/
theorem runUops_extendReg (left : Nat → Leftover) (zeroext : Bool) (rareg : Reg)
    (himm : rareg ≠ .imm) (hlt : rasize.bits < rdsize.bits) :
    ∃ m', runUops left next [extendReg rd rdsize rasize zeroext rareg] m = some (m', next) ∧
      m'.data (.gpr rd) =
        x86Merge rdsize (m.data (.gpr rd)) (extended rdsize rasize zeroext (m.data rareg)) := by
  have hrd : (extendReg rd rdsize rasize zeroext rareg).rd = .gpr rd := by
    unfold extendReg
    split <;> rfl
  by_cases hmove : zeroext = true ∧ 2 ≤ rdsize.sizeshift
  · have ⟨f, hexec⟩ := exec_extendReg_move m rd himm hlt hmove.1 hmove.2 (left 0)
    exact runUops_single next hexec hrd
  · have ⟨f, hexec⟩ := exec_extendReg m rd rasize himm hmove (left 0)
    have ⟨m', hrun, hdata⟩ := runUops_single next hexec hrd
    refine ⟨m', hrun, hdata.trans (x86Merge_congr _ ?_)⟩
    rw [extended_setWidth]
    cases zeroext with
    | true => exact expOpMask_zero _ _ _ hlt
    | false => exact expOpMask_sign _ _ _ hlt

/-- What a load brings to the register it writes. -/
def loaded (rasize : Size) (zeroext : Bool) (x : W64) : W64 :=
  if zeroext then x else signext64 x rasize.bits

theorem loaded_setWidth (rdsize : Size) (zeroext : Bool) {x : W64}
    (hx : (x.setWidth rasize.bits).setWidth 64 = x) :
    (loaded rasize zeroext x).setWidth rdsize.bits =
      (extended rdsize rasize zeroext x).setWidth rdsize.bits := by
  have hle := rdsize.bits_le
  have hra := rasize.bits_le
  have hpos := rasize.bits_pos
  rw [extended_setWidth]
  unfold loaded
  cases zeroext with
  | true =>
    simp only [if_true]
    rw [← BitVec.setWidth_setWidth_of_le (x.setWidth rasize.bits) hle, hx]
  | false =>
    simp only [Bool.false_eq_true, if_false]
    apply BitVec.eq_of_getLsbD_eq
    intro i hi
    rw [BitVec.getLsbD_setWidth, getLsbD_signext64 _ _ _ hpos hra (by omega),
      BitVec.getLsbD_signExtend, BitVec.msb_eq_getLsbD_last, BitVec.getLsbD_setWidth,
      BitVec.getLsbD_setWidth, decide_eq_true hi, Bool.true_and, Bool.true_and]
    by_cases hin : i < rasize.bits
    · rw [if_pos hin, if_pos hin, decide_eq_true hin, Bool.true_and]
    · rw [if_neg hin, if_neg hin, decide_eq_true (by omega), Bool.true_and]

variable {m} in
theorem exec_load (c : DecodeContext) (rasize : Size) (zeroext : Bool) (a : MemOperand)
    (destreg : Reg) (l : Leftover) :
    (a.load c rasize (if zeroext then .ld else .ldx) destreg).exec l m =
      some (.result (loaded rasize zeroext
        (m.load (m.data (a.addressGenerate c rasize).2.1 + (a.addressGenerate c rasize).2.2)
          rasize)) .clear) := by
  cases zeroext with
  | true => rfl
  | false => rfl

variable (left) in
theorem runUops_move (ra rb : Reg) (hrb : rb ≠ .imm) (size : Size) :
    ∃ m', runUops left next
        [{ opcode := .mov, rd := .gpr rd, ra := ra, rb := rb, rc := .zero, size := size }] m =
          some (m', next) ∧
      m'.data (.gpr rd) = x86Merge size (m.data ra) (m.data rb) := by
  refine runUops_single next (f := .clear) ?_ rfl
  rw [TransOp.exec]
  dsimp only
  rw [TransOp.aluop]
  dsimp only
  rw [TransOp.readRb, if_neg hrb, x86Merge_self]

variable (left) in
/-- After its address, the operand is loaded, extended and merged. -/
theorem runUops_extendMem (c : DecodeContext) (a : MemOperand)
    (hsmall : rdsize = .w32 → zeroext = true → rasize.bits ≤ 32) {x : W64}
    (hx : m.load (m.data (a.addressGenerate c rasize).2.1 + (a.addressGenerate c rasize).2.2)
      rasize = x) :
    ∃ m', runUops left next (extendMem rd rdsize rasize zeroext c a) m = some (m', next) ∧
      m'.data (.gpr rd) =
        x86Merge rdsize (m.data (.gpr rd)) (extended rdsize rasize zeroext x) := by
  have hload : (x.setWidth rasize.bits).setWidth 64 = x := by
    rw [← hx]
    exact m.load_setWidth _ _
  have hmerge : x86Merge rdsize (m.data (.gpr rd)) (extended rdsize rasize zeroext x) =
      x86Merge rdsize (m.data (.gpr rd)) (loaded rasize zeroext x) :=
    x86Merge_congr _ (loaded_setWidth rdsize zeroext hload).symm
  rw [hmerge]
  have hexec : ∀ dest l, (a.load c rasize (if zeroext then .ld else .ldx) dest).exec l m =
      some (.result (loaded rasize zeroext x) .clear) := by
    intro dest l
    rw [exec_load, hx]
  have hfirst : ∀ dest ts, dest ≠ .zero → dest.isFlag = false →
      ∃ m1, m.Sets dest (loaded rasize zeroext x) m1 ∧
        runUops left next (a.load c rasize (if zeroext then .ld else .ldx) dest :: ts) m =
          runUops left next ts m1 :=
    fun dest ts hzero hflag =>
      ⟨_, TransOp.write_sets (t := a.load c rasize _ dest) hzero hflag,
        runUops_result (hexec dest _)⟩
  unfold extendMem
  dsimp only
  by_cases hwhole : 2 ≤ rdsize.sizeshift
  · rw [if_pos hwhole]
    by_cases hword : rdsize = .w32 ∧ zeroext = false
    · -- after a sign extension the upper half of the register is cleared
      rw [if_pos hword]
      have ⟨m1, hsets, hrun1⟩ := hfirst (.gpr rd)
        [{ opcode := .mov, rd := .gpr rd, ra := .zero, rb := .gpr rd, rc := .zero, size := .w32 }]
        (by rintro ⟨⟩) rfl
      have ⟨m', hrun, hdata⟩ :=
        runUops_move left next m1 rd .zero (.gpr rd) (by rintro ⟨⟩) .w32
      refine ⟨m', hrun1.trans hrun, ?_⟩
      rw [hdata, hsets.data, hword.1]
      rfl
    · rw [if_neg hword]
      have ⟨m', hrun, hdata⟩ := runUops_single next (hexec (.gpr rd) (left 0)) rfl
      refine ⟨m', hrun, hdata.trans ?_⟩
      cases rdsize with
      | w8 => cases hwhole
      | w16 => exact absurd hwhole (by decide)
      | w64 => rfl
      | w32 =>
        cases zeroext with
        | false => exact absurd ⟨rfl, rfl⟩ hword
        | true =>
          have hbits := hsmall rfl rfl
          change x = (x.setWidth 32).setWidth 64
          rw [← hload, BitVec.setWidth_setWidth_of_le _ (by decide : 32 ≤ 64)]
          apply BitVec.eq_of_toNat_eq
          have hpow : 2 ^ rasize.bits ≤ 2 ^ 32 := Nat.pow_le_pow_right (by decide) hbits
          have hlt : x.toNat % 2 ^ rasize.bits < 2 ^ rasize.bits :=
            Nat.mod_lt _ (Nat.two_pow_pos _)
          simp only [BitVec.toNat_setWidth]
          rw [Nat.mod_eq_of_lt (by omega : x.toNat % 2 ^ rasize.bits < 2 ^ 32)]
  · rw [if_neg hwhole]
    have ⟨m1, hsets, hrun1⟩ := hfirst .temp0
      [{ opcode := .mov, rd := .gpr rd, ra := .gpr rd, rb := .temp0, rc := .zero, size := rdsize }]
      (by rintro ⟨⟩) rfl
    have ⟨m', hrun, hdata⟩ :=
      runUops_move left next m1 rd (.gpr rd) .temp0 (by rintro ⟨⟩) rdsize
    refine ⟨m', hrun1.trans hrun, ?_⟩
    rw [hdata, hsets.data, hsets.other (.gpr rd) rfl (by rintro ⟨⟩)]

end

/-- Another one is not looked at. -/
theorem runUops_extendReg_wide (next : W64) (m : Machine) (rd : Gpr) (left : Nat → Leftover)
    (zeroext : Bool) (rareg : Reg) {rdsize rasize : Size} (himm : rareg ≠ .imm)
    (hwide : rdsize.bits ≤ rasize.bits) (hmask : ¬(zeroext = true ∧ 2 ≤ rdsize.sizeshift)) :
    ∃ m', runUops left next [extendReg rd rdsize rasize zeroext rareg] m = some (m', next) ∧
      m'.data (.gpr rd) =
        x86Merge rdsize (m.data (.gpr rd)) (if zeroext then 0 else (left 0).result) := by
  have hrd : (extendReg rd rdsize rasize zeroext rareg).rd = .gpr rd := by
    unfold extendReg
    split <;> rfl
  have ⟨f, hexec⟩ := exec_extendReg m rd rasize himm hmask (left 0)
  rw [expOpMask_wide _ _ _ _ hwide] at hexec
  exact runUops_single next hexec hrd

theorem runUops_extractHigh (left : Nat → Leftover) (next : W64) (m : Machine) (r : HighByte)
    (ts : List TransOp) :
    ∃ m1, m.Sets .temp0 (mask 0 (m.data (.gpr r.archReg))
        (MaskControlInfo.data { ms := 0, mc := 8, ds := 8 })) m1 ∧
      runUops left next (extractHigh r :: ts) m = runUops left next ts m1 := by
  have hexec : ∃ f, (extractHigh r).exec (left ts.length) m =
      some (.result (mask 0 (m.data (.gpr r.archReg))
        (MaskControlInfo.data { ms := 0, mc := 8, ds := 8 })) f) := by
    rw [TransOp.exec, extractHigh]
    dsimp only
    rw [TransOp.readRb, if_neg (by rintro ⟨⟩), TransOp.readRc, if_pos rfl, expOpMask_word]
    exact ⟨_, rfl⟩
  obtain ⟨f, hexec⟩ := hexec
  exact ⟨_, TransOp.write_sets (t := extractHigh r) (by rintro ⟨⟩) rfl, runUops_result hexec⟩

/-- The mask brings the second byte down. -/
theorem mask_extractHigh (x : W64) :
    (mask 0 x (MaskControlInfo.data { ms := 0, mc := 8, ds := 8 })).setWidth 8 =
      (x >>> 8).setWidth 8 := by
  have hmask : mask 0 x (MaskControlInfo.data { ms := 0, mc := 8, ds := 8 }) =
      (0 &&& ~~~0xFF) ||| (x.rotateRight 8 &&& 0xFF) := rfl
  have hbyte : ∀ i < 8, (0xFF : W64).getLsbD i = true := by decide
  rw [hmask]
  apply BitVec.eq_of_getLsbD_eq
  intro i hi
  rw [BitVec.getLsbD_setWidth, BitVec.getLsbD_setWidth, getLsbD_mix _ _ _ (by omega), hbyte i hi,
    if_pos rfl, BitVec.getLsbD_rotateRight, BitVec.getLsbD_ushiftRight,
    decide_eq_true (by omega : i < 64 - 8 % 64), cond_true]

theorem extended_congr (rdsize rasize : Size) (zeroext : Bool) {x y : W64}
    (h : x.setWidth rasize.bits = y.setWidth rasize.bits) :
    extended rdsize rasize zeroext x = extended rdsize rasize zeroext y := by
  rw [extended, h]
  rfl

namespace ExtOperand
variable (rd : Gpr) {rdsize rasize : Size} {zeroext : Bool} (c : DecodeContext)
  (left : Nat → Leftover) (m : Machine)

/-- From memory the source may have any size. -/
theorem extends_mem (a : MemOperand)
    (hsmall : rdsize = .w32 → zeroext = true → rasize.bits ≤ 32) :
    (ExtOperand.mem a : ExtOperand rasize).Extends rd rdsize zeroext c left m := by
  have ⟨m1, hpre, hall, hsame⟩ := runUops_addresses
    (MemOperand.addressGenerate_addresses c rasize a) (extendMem rd rdsize rasize zeroext c a)
    left c.rip c.rip m
  have ⟨m', hrun, hdata⟩ := runUops_extendMem left c.rip m1 rd c a hsmall rfl
  refine ⟨m1.load (m1.data (a.addressGenerate c rasize).2.1 + (a.addressGenerate c rasize).2.2)
    rasize, m', ?_, hall.trans hrun, ?_⟩
  · rw [source, hpre]
    rfl
  · rw [hdata, hsame.data _ rfl (by rintro ⟨⟩) (by rintro ⟨⟩)]

theorem extends_reg (r : Gpr) (h : rasize.bits < rdsize.bits) :
    (ExtOperand.reg r : ExtOperand rasize).Extends rd rdsize zeroext c left m := by
  have ⟨m', hrun, hdata⟩ := runUops_extendReg c.rip m rd left zeroext (.gpr r) (by rintro ⟨⟩) h
  exact ⟨m.data (.gpr r), m', rfl, hrun, hdata⟩

theorem extends_high (r : HighByte) (h : Size.w8.bits < rdsize.bits) :
    (ExtOperand.high r).Extends rd rdsize zeroext c left m := by
  have ⟨m1, hsets, hrun1⟩ := runUops_extractHigh left c.rip m r
    [extendReg rd rdsize .w8 zeroext .temp0]
  have ⟨m', hrun, hdata⟩ := runUops_extendReg c.rip m1 rd left zeroext .temp0 (by rintro ⟨⟩) h
  refine ⟨m.data (.gpr r.archReg) >>> 8, m', rfl, hrun1.trans hrun, ?_⟩
  rw [hdata, hsets.data, hsets.other _ rfl (by rintro ⟨⟩)]
  congr 1
  exact extended_congr _ _ _ (mask_extractHigh _)

/-- Every register is one, and nothing was left over. -/
def ones : Machine where
  regs _ := 1
  flags _ := .clear
  memory _ := 0

def nothingLeft : Nat → Leftover := fun _ => { carry := false, result := 0, flags := .clear }

/-- Where the source is not narrower, its value does not matter. -/
theorem not_extends_reg (r : Gpr) (hwide : rdsize.bits ≤ rasize.bits)
    (hmask : ¬(zeroext = true ∧ 2 ≤ rdsize.sizeshift)) :
    ¬(ExtOperand.reg r : ExtOperand rasize).Extends rd rdsize zeroext c nothingLeft ones := by
  rintro ⟨x, m', hx, hrun, hdata⟩
  have ⟨m1, hrun1, hdata1⟩ := runUops_extendReg_wide c.rip ones rd nothingLeft zeroext (.gpr r)
    (by rintro ⟨⟩) hwide hmask
  have hsame : m' = m1 := congrArg Prod.fst (Option.some.inj (hrun.symm.trans hrun1))
  have hone : x = 1 := (Option.some.inj hx).symm
  have hzero : (if zeroext then 0 else (nothingLeft 0).result) = 0 := by
    cases zeroext <;> rfl
  rw [← hsame, hdata, hzero, hone] at hdata1
  have hlow := congrArg (BitVec.setWidth rdsize.bits) hdata1
  rw [x86Merge_setWidth, x86Merge_setWidth] at hlow
  have hbit := extended_bit rdsize rasize zeroext 1
  rw [hlow] at hbit
  simp at hbit

end ExtOperand

namespace ExtInsn

theorem rdsize_bits (i : ExtInsn) : 16 ≤ i.rdsize.bits := by
  unfold rdsize
  split
  · decide
  · split
    · decide
    · decide

/-- What a register source needs: to be narrower than the destination. -/
def Narrower (i : ExtInsn) : Prop := i.ra.IsMem ∨ i.op.rasize.bits < i.rdsize.bits

end ExtInsn

theorem ExtOperand.extends_of_narrower {rdsize rasize : Size} (zeroext : Bool)
    (ra : ExtOperand rasize) (rd : Gpr) (c : DecodeContext) (left : Nat → Leftover) (m : Machine)
    (hsmall : zeroext = true → rasize.bits ≤ 32)
    (h : ra.IsMem ∨ rasize.bits < rdsize.bits) : ra.Extends rd rdsize zeroext c left m := by
  cases ra with
  | mem a => exact extends_mem rd c left m a fun _ => hsmall
  | reg r =>
    cases h with
    | inl hmem => cases hmem
    | inr hlt => exact extends_reg rd c left m r hlt
  | high r =>
    cases h with
    | inl hmem => cases hmem
    | inr hlt => exact extends_high rd c left m r hlt

/-- The others fail, whatever registers they name. -/
theorem ExtOperand.narrower_of_extends {rdsize rasize : Size} (zeroext : Bool)
    (ra : ExtOperand rasize) (rd : Gpr) (c : DecodeContext) (hrd : 16 ≤ rdsize.bits)
    (hmask : rdsize.bits ≤ rasize.bits → ¬(zeroext = true ∧ 2 ≤ rdsize.sizeshift))
    (h : ra.Extends rd rdsize zeroext c nothingLeft ones) :
    ra.IsMem ∨ rasize.bits < rdsize.bits := by
  cases ra with
  | mem a => exact .inl trivial
  | high r =>
    right
    change 8 < rdsize.bits
    omega
  | reg r =>
    right
    apply Nat.lt_of_not_le
    intro hwide
    exact not_extends_reg rd c r hwide (hmask hwide) h

namespace ExtInsn

/-- An extension is right for every value and every state exactly when its source is in memory or
is narrower than its destination. -/
theorem extends_iff (i : ExtInsn) :
    (∀ c left m, i.Extends c left m) ↔ i.Narrower := by
  constructor
  · intro h
    apply ExtOperand.narrower_of_extends i.op.zeroext i.ra i.rd { rip := 0, segmentBase := none }
      i.rdsize_bits _ (h _ _ _)
    intro hwide hmove
    have hra := ExtOp.zeroext_rasize hmove.1
    have hrd := Size.whole_bits hmove.2
    omega
  · intro h c left m
    apply ExtOperand.extends_of_narrower _ _ _ _ _ _ _ h
    cases i.op <;> decide

/-- `movzx ax, cx`: the two bytes of the destination are cleared. -/
theorem movzx_clears_word :
    ¬∀ (i : ExtInsn) c left m, i.Extends c left m := by
  intro h
  exact ExtOperand.not_extends_reg .rax { rip := 0, segmentBase := none } .rcx (by decide)
    (by decide)
    (h { op := .movzxw, opsizePrefix := true, mode64 := false, rd := .rax, ra := .reg .rcx }
      { rip := 0, segmentBase := none } ExtOperand.nothingLeft ExtOperand.ones)

end ExtInsn
end FeS2.Decoder
