import FeS2.Decoder.Uops

/-!
The uops of a load from a memory operand: those of its address, and the load. The immediate of a
load is a multiple of its size, and of 32 bits then; another one is added before.
-/

namespace FeS2.Decoder

inductive MemBase
  | zero
  | rip
  | gpr (r : Gpr)
  deriving DecidableEq

structure MemOperand where
  basereg : MemBase
  indexreg : Option Gpr
  offset : W64
  scale : Nat
  deriving DecidableEq

/-- What the decoder knows of the x86 op: where the next one is, and, with a segment prefix, where
in the context the base of the segment is. -/
structure DecodeContext where
  rip : W64
  segmentBase : Option W64
  deriving DecidableEq

namespace MemBase

/-- Relative to the instruction pointer, the base is in the offset. -/
def archReg : MemBase → Reg
  | .zero => .zero
  | .rip => .zero
  | .gpr r => .gpr r

end MemBase

def addImm (rd ra : Reg) (imm : W64) : TransOp :=
  { opcode := .add, rd := rd, ra := ra, rb := .imm, rc := .zero, size := .w64, rbimm := imm }

/-- The uops that add the base of the segment, and where the sum is. -/
def biasBySegreg (c : DecodeContext) (basereg : Reg) : List TransOp × Reg :=
  match c.segmentBase with
  | some varoffs =>
      ([{ opcode := .ld, rd := .temp6, ra := .ctx, rb := .imm, rc := .zero, size := .w64,
          rbimm := varoffs, internal := true },
        { opcode := .add, rd := .temp6, ra := .temp6, rb := basereg, rc := .zero, size := .w64 }],
        .temp6)
  | none => ([], basereg)

namespace MemOperand

def immIsNotEncodable (a : MemOperand) (size : Size) : Bool :=
  a.offset &&& bitmask size.sizeshift ≠ 0 ∨
    ¬(-2147483648 ≤ (a.offset.sshiftRight size.sizeshift).toInt ∧
      (a.offset.sshiftRight size.sizeshift).toInt ≤ 2147483647)

/-- The uops of the address, the base of the load and its immediate. -/
def addressGenerate (c : DecodeContext) (size : Size) (a : MemOperand) :
    List TransOp × Reg × W64 :=
  let bias := biasBySegreg c a.basereg.archReg
  if a.basereg = .rip then
    (bias.1 ++ [addImm .temp8 bias.2 (c.rip + a.offset)], .temp8, 0)
  else
    let large := a.immIsNotEncodable size
    let extra := if large then [addImm .temp8 bias.2 a.offset] else []
    let base := if large then .temp8 else bias.2
    let offset := if large then 0 else a.offset
    match a.indexreg with
    | none => (bias.1 ++ extra, base, offset)
    | some indexreg =>
      let adda (basereg : Reg) : TransOp :=
        { opcode := .adda, rd := .temp8, ra := basereg, rb := .zero, rc := .gpr indexreg,
          size := .w64, extshift := a.scale }
      if a.offset = 0 then
        if a.scale ≠ 0 then (bias.1 ++ [adda bias.2], .temp8, 0)
        else
          (bias.1 ++
            [{ opcode := .add, rd := .temp8, ra := bias.2, rb := .gpr indexreg, rc := .zero,
               size := .w64 }], .temp8, 0)
      else (bias.1 ++ extra ++ [adda base], .temp8, offset)

def load (c : DecodeContext) (size : Size) (a : MemOperand) (opcode : Opcode) (destreg : Reg) :
    TransOp :=
  { opcode := opcode, rd := destreg, ra := (a.addressGenerate c size).2.1, rb := .imm, rc := .zero,
    size := size, rbimm := (a.addressGenerate c size).2.2 }

/-- `operand_load`. -/
def operandLoad (c : DecodeContext) (size : Size) (a : MemOperand) (opcode : Opcode)
    (destreg : Reg) : List TransOp :=
  (a.addressGenerate c size).1 ++ [a.load c size opcode destreg]

end MemOperand

/-- A uop of an address: it computes, and it writes `temp6` or `temp8`. -/
structure TransOp.Addresses (t : TransOp) : Prop where
  opcode : t.opcode = .add ∨ t.opcode = .adda ∨ t.opcode = .ld
  rd : t.rd = .temp6 ∨ t.rd = .temp8

theorem TransOp.Addresses.exec {t : TransOp} (h : t.Addresses) (left : Leftover) (m : Machine) :
    ∃ x f, t.exec left m = some (.result x f) := by
  cases h.opcode with
  | inl hop => exact ⟨_, _, by rw [TransOp.exec, hop]; rfl⟩
  | inr hop =>
    cases hop with
    | inl hop => exact ⟨_, _, by rw [TransOp.exec, hop]; rfl⟩
    | inr hop => exact ⟨_, _, by rw [TransOp.exec, hop]⟩

/-- The registers but `temp6` and `temp8`, and memory, stay. -/
structure Machine.SameBut (m m' : Machine) : Prop where
  data : ∀ r, r.isFlag = false → r ≠ .temp6 → r ≠ .temp8 → m'.data r = m.data r
  memory : m'.memory = m.memory

/-- The uops of an address run through to what follows them. -/
theorem runUops_addresses {ts : List TransOp} (h : ∀ t ∈ ts, t.Addresses) (us : List TransOp)
    (left : Nat → Leftover) (next rip : W64) (m : Machine) :
    ∃ m', runUops (fun k => left (k + us.length)) next ts m = some (m', next) ∧
      runUops left rip (ts ++ us) m = runUops left rip us m' ∧ m.SameBut m' := by
  induction ts generalizing m with
  | nil => exact ⟨m, rfl, by rw [List.nil_append], ⟨fun _ _ _ _ => rfl, rfl⟩⟩
  | cons t ts ih =>
    have ht := h t List.mem_cons_self
    have ⟨x, f, hexec⟩ := ht.exec (left (ts.length + us.length)) m
    have hzero : t.rd ≠ .zero := by
      cases ht.rd with
      | inl hrd => rw [hrd]; decide
      | inr hrd => rw [hrd]; decide
    have ⟨m', hpre, hall, hsame⟩ := ih (fun s hs => h s (List.mem_cons_of_mem t hs))
      (t.write (left (ts.length + us.length)) x f m)
    have hexec' : t.exec (left (ts ++ us).length) m = some (.result x f) := by
      rw [List.length_append]
      exact hexec
    refine ⟨m', ?_, ?_, ?_, ?_⟩
    · simp only [runUops, hexec]
      exact hpre
    · rw [List.cons_append, runUops_result hexec', List.length_append]
      exact hall
    · intro r hflag h6 h8
      have hne : r ≠ t.rd := by
        cases ht.rd with
        | inl hrd => rw [hrd]; exact h6
        | inr hrd => rw [hrd]; exact h8
      rw [hsame.data r hflag h6 h8, TransOp.write_data hzero hflag, if_neg hne]
    · rw [hsame.memory, TransOp.write_memory]

namespace MemOperand

theorem biasBySegreg_addresses {c : DecodeContext} {basereg : Reg} :
    ∀ t ∈ (biasBySegreg c basereg).1, t.Addresses := by
  unfold biasBySegreg
  cases c.segmentBase with
  | none => simp
  | some varoffs =>
    intro t ht
    simp only [List.mem_cons, List.not_mem_nil, or_false] at ht
    cases ht with
    | inl ht => rw [ht]; exact ⟨.inr (.inr rfl), .inl rfl⟩
    | inr ht => rw [ht]; exact ⟨.inl rfl, .inl rfl⟩

theorem addressGenerate_addresses (c : DecodeContext) (size : Size) (a : MemOperand) :
    ∀ t ∈ (a.addressGenerate c size).1, t.Addresses := by
  intro t ht
  have hbias : t ∈ (biasBySegreg c a.basereg.archReg).1 → t.Addresses :=
    biasBySegreg_addresses t
  have hadd : ∀ (ra : Reg) (imm : W64), (addImm .temp8 ra imm).Addresses :=
    fun _ _ => ⟨.inl rfl, .inr rfl⟩
  unfold addressGenerate at ht
  dsimp only at ht
  have hextra : ∀ (large : Bool) (ra : Reg) (imm : W64),
      t ∈ (if large then [addImm .temp8 ra imm] else []) → t.Addresses := by
    intro large ra imm h
    cases large with
    | false => cases h
    | true =>
      rw [if_pos rfl, List.mem_singleton] at h
      rw [h]
      exact hadd ra imm
  split at ht
  · cases List.mem_append.mp ht with
    | inl h => exact hbias h
    | inr h => rw [List.mem_singleton.mp h]; exact hadd _ _
  · cases hindex : a.indexreg with
    | none =>
      rw [hindex] at ht
      cases List.mem_append.mp ht with
      | inl h => exact hbias h
      | inr h => exact hextra _ _ _ h
    | some indexreg =>
      rw [hindex] at ht
      dsimp only at ht
      split at ht
      · split at ht
        · cases List.mem_append.mp ht with
          | inl h => exact hbias h
          | inr h => rw [List.mem_singleton.mp h]; exact ⟨.inr (.inl rfl), .inr rfl⟩
        · cases List.mem_append.mp ht with
          | inl h => exact hbias h
          | inr h => rw [List.mem_singleton.mp h]; exact ⟨.inl rfl, .inr rfl⟩
      · cases List.mem_append.mp ht with
        | inl h =>
          cases List.mem_append.mp h with
          | inl h => exact hbias h
          | inr h => exact hextra _ _ _ h
        | inr h => rw [List.mem_singleton.mp h]; exact ⟨.inr (.inl rfl), .inr rfl⟩

end MemOperand

theorem readBytes_lt (memory : W64 → BitVec 8) (addr : W64) (n : Nat) (hn : n ≤ 8) :
    (Machine.readBytes memory addr n).toNat < 2 ^ (8 * n) := by
  induction n generalizing addr with
  | zero => exact Nat.zero_lt_one
  | succ n ih =>
    have hrest := ih (addr + 1) (by omega)
    have hbyte := (memory addr).isLt
    have hpow : 2 ^ (8 * (n + 1)) = 2 ^ (8 * n) * 2 ^ 8 := by
      rw [← Nat.pow_add]
      congr 1
    rw [Machine.readBytes, BitVec.toNat_or]
    apply Nat.or_lt_two_pow
    · rw [BitVec.toNat_shiftLeft, Nat.shiftLeft_eq]
      apply Nat.lt_of_le_of_lt (Nat.mod_le _ _)
      rw [hpow]
      exact Nat.mul_lt_mul_of_pos_right hrest (by decide)
    · rw [BitVec.toNat_setWidth, hpow]
      apply Nat.lt_of_le_of_lt (Nat.mod_le _ _)
      exact Nat.lt_of_lt_of_le hbyte (Nat.le_mul_of_pos_left _ (Nat.two_pow_pos _))

theorem Size.bits_eq (size : Size) : size.bits = 8 * size.bytes := by cases size <;> rfl

/-- A load brings the bytes of its size and zeros. -/
theorem Machine.load_setWidth (m : Machine) (addr : W64) (size : Size) :
    ((m.load addr size).setWidth size.bits).setWidth 64 = m.load addr size := by
  have hbytes : size.bytes ≤ 8 := by cases size <;> decide
  have hlt := readBytes_lt m.memory addr size.bytes hbytes
  rw [← size.bits_eq] at hlt
  apply BitVec.eq_of_toNat_eq
  rw [BitVec.toNat_setWidth, BitVec.toNat_setWidth, Machine.load, Nat.mod_eq_of_lt hlt,
    Nat.mod_eq_of_lt (BitVec.isLt _)]

end FeS2.Decoder
