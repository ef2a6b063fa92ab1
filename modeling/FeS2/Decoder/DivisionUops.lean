import FeS2.Decoder.Uops
import FeS2.Decoder.DivisionResults

/-!
`div` and `idiv`. The operand is read again by each of the two divide uops, and always from the
low end of its register; the byte form hands over the low byte of the accumulator only.
-/

namespace FeS2.Decoder

inductive HighByte
  | ah
  | ch
  | dh
  | bh
  deriving DecidableEq

/-- `arch_pseudo_reg_to_arch_reg`. -/
def HighByte.archReg : HighByte → Gpr
  | .ah => .rax
  | .ch => .rcx
  | .dh => .rdx
  | .bh => .rbx

/-- What is divided by; a memory operand has been loaded. -/
inductive DivOperand : Size → Type
  | reg {size : Size} (r : Gpr) : DivOperand size
  | high (r : HighByte) : DivOperand .w8
  | mem {size : Size} : DivOperand size

def DivOperand.srcreg {size : Size} : DivOperand size → Reg
  | .reg r => .gpr r
  | .high r => .gpr r.archReg
  | .mem => .temp4

/-! The decoder -/

def remainderop (signed : Bool) : DivOp := if signed then .divr else .divru

def quotientop (signed : Bool) : DivOp := if signed then .divq else .divqu

def divideOp (op : DivOp) (rd srcreg rc : Reg) (size : Size) : TransOp :=
  { opcode := .div op, rd := rd, ra := .gpr .rax, rb := srcreg, rc := rc, size := size }

/-- `OP_maskb` of part of a register. -/
def maskInto (rd rb : Reg) (info : MaskControlInfo) : TransOp :=
  { opcode := .maskb, rd := rd, ra := rd, rb := rb, rc := .imm, size := .w64, rcimm := info.data }

def saveRdx : TransOp :=
  { opcode := .mov, rd := .temp0, ra := .zero, rb := .gpr .rdx, rc := .zero, size := .w64 }

def divUops (signed : Bool) (size : Size) (srcreg : Reg) : List TransOp :=
  if size = .w8 then
    [divideOp (remainderop signed) .temp1 srcreg .zero size,
      divideOp (quotientop signed) (.gpr .rax) srcreg .zero size,
      maskInto (.gpr .rax) .temp1 { ms := 56, mc := 8, ds := 56 }]
  else
    [saveRdx,
      divideOp (remainderop signed) (if size = .w16 then .temp1 else .gpr .rdx) srcreg .temp0 size,
      divideOp (quotientop signed) (.gpr .rax) srcreg .temp0 size] ++
        if size = .w16 then [maskInto (.gpr .rdx) .temp1 { ms := 0, mc := 16, ds := 0 }] else []

/-! The instruction -/

section
variable (signed : Bool) {size : Size} (src : DivOperand size) (m : Machine)

def DivOperand.read : {size : Size} → DivOperand size → Machine → BitVec size.bits
  | _, .reg r, m => (m.data (.gpr r)).setWidth _
  | _, .high r, m => (m.data (.gpr r.archReg)).extractLsb' 8 8
  | _, .mem, m => (m.data .temp4).setWidth _

def divisor : Int := value signed (src.read m)

/-- `ax`, or the pair of registers. -/
def dividend (size : Size) : Int :=
  if size = .w8 then value signed ((m.data (.gpr .rax)).setWidth 16)
  else uopDividend signed size (m.data (.gpr .rax)) (m.data (.gpr .rdx))

def quotientOut (size : Size) : Int := value signed ((m.data (.gpr .rax)).setWidth size.bits)

def remainderOut (size : Size) : Int :=
  if size = .w8 then value signed ((m.data (.gpr .rax)).extractLsb' 8 8)
  else value signed ((m.data (.gpr .rdx)).setWidth size.bits)

structure Divides (n d q r : Int) : Prop where
  equation : n = q * d + r
  small : r.natAbs < d.natAbs
  sign : r = 0 ∨ r.sign = n.sign

def Representable (size : Size) (q : Int) : Prop :=
  if signed then -2 ^ (size.bits - 1) ≤ q ∧ q < 2 ^ (size.bits - 1) else 0 ≤ q ∧ q < 2 ^ size.bits

/-- Whatever the uops find left over, they run to their end and leave the division's result. -/
def DividesRight : Prop :=
  ∀ left next, ∃ m', runUops left next (divUops signed size src.srcreg) m = some (m', next) ∧
    Divides (dividend signed m size) (divisor signed src m) (quotientOut signed m' size)
      (remainderOut signed m' size)

end

/-! The masks -/

theorem getLsbD_mix (ra x m : W64) {i : Nat} (hi : i < 64) :
    ((ra &&& ~~~m) ||| (x &&& m)).getLsbD i = if m.getLsbD i then x.getLsbD i else ra.getLsbD i := by
  rw [BitVec.getLsbD_or, BitVec.getLsbD_and, BitVec.getLsbD_and, BitVec.getLsbD_not,
    decide_eq_true hi]
  cases m.getLsbD i <;> simp

theorem mask_high (ra rb : W64) :
    (mask ra rb (MaskControlInfo.data { ms := 56, mc := 8, ds := 56 })).setWidth 8 = ra.setWidth 8 ∧
      (mask ra rb (MaskControlInfo.data { ms := 56, mc := 8, ds := 56 })).extractLsb' 8 8 =
        rb.setWidth 8 := by
  have hmask : mask ra rb (MaskControlInfo.data { ms := 56, mc := 8, ds := 56 }) =
      (ra &&& ~~~0xFF00) ||| (rb.rotateRight 56 &&& 0xFF00) := rfl
  have hlow : ∀ i < 8, (0xFF00 : W64).getLsbD i = false := by decide
  have hhigh : ∀ i < 8, (0xFF00 : W64).getLsbD (8 + i) = true := by decide
  rw [hmask]
  constructor
  · apply BitVec.eq_of_getLsbD_eq
    intro i hi
    rw [BitVec.getLsbD_setWidth, BitVec.getLsbD_setWidth, getLsbD_mix _ _ _ (by omega), hlow i hi,
      if_neg (by decide)]
  · apply BitVec.eq_of_getLsbD_eq
    intro i hi
    rw [BitVec.getLsbD_extractLsb', BitVec.getLsbD_setWidth, getLsbD_mix _ _ _ (by omega),
      hhigh i hi, if_pos rfl, BitVec.getLsbD_rotateRight]
    have hturn : ¬ 8 + i < 64 - 56 % 64 := by omega
    have hword : 8 + i < 64 := by omega
    have hback : 8 + i - (64 - 56 % 64) = i := by omega
    rw [decide_eq_false hturn, decide_eq_true hword, hback, cond_false, Bool.true_and]

theorem mask_word (ra rb : W64) :
    (mask ra rb (MaskControlInfo.data { ms := 0, mc := 16, ds := 0 })).setWidth 16 =
      rb.setWidth 16 := by
  have hmask : mask ra rb (MaskControlInfo.data { ms := 0, mc := 16, ds := 0 }) =
      (ra &&& ~~~0xFFFF) ||| (rb.rotateRight 0 &&& 0xFFFF) := rfl
  have hword : ∀ i < 16, (0xFFFF : W64).getLsbD i = true := by decide
  rw [hmask]
  apply BitVec.eq_of_getLsbD_eq
  intro i hi
  rw [BitVec.getLsbD_setWidth, BitVec.getLsbD_setWidth, getLsbD_mix _ _ _ (by omega), hword i hi,
    if_pos rfl, BitVec.getLsbD_rotateRight]
  have hturn : i < 64 - 0 % 64 := by omega
  have hplace : 0 % 64 + i = i := by omega
  rw [decide_eq_true hturn, hplace, cond_true]

/-! The uops on a machine -/

section
variable (left : Nat → Leftover) (next : W64) {m : Machine} (ts : List TransOp) {k : Nat} (rd : Reg)

theorem runUops_divideOp {op : DivOp} {srcreg rc : Reg} {size : Size} {x : W64}
    (hlen : ts.length = k) (hsrc : srcreg ≠ .imm) (hrc : rc ≠ .imm) (hrd : rd ≠ .zero)
    (hflag : rd.isFlag = false)
    (heval : op.eval size (left k).result (m.data (.gpr .rax)) (m.data srcreg) (m.data rc) =
      some x) :
    ∃ m', m.Sets rd x m' ∧
      runUops left next (divideOp op rd srcreg rc size :: ts) m = runUops left next ts m' := by
  subst hlen
  refine ⟨_, TransOp.write_sets (t := divideOp op rd srcreg rc size) hrd hflag,
    runUops_result (f := .clear) ?_⟩
  rw [TransOp.exec, divideOp]
  dsimp only
  rw [TransOp.readRb, if_neg hsrc, TransOp.readRc, if_neg hrc, heval]
  rfl

theorem runUops_maskInto (rb : Reg) (info : MaskControlInfo) (hrb : rb ≠ .imm) (hrd : rd ≠ .zero)
    (hflag : rd.isFlag = false) :
    ∃ m', m.Sets rd (mask (m.data rd) (m.data rb) info.data) m' ∧
      runUops left next (maskInto rd rb info :: ts) m = runUops left next ts m' := by
  have hexec : ∃ flags, (maskInto rd rb info).exec (left ts.length) m =
      some (.result (mask (m.data rd) (m.data rb) info.data) flags) := by
    rw [TransOp.exec, maskInto]
    dsimp only
    rw [TransOp.readRb, if_neg hrb, TransOp.readRc, if_pos rfl, expOpMask_word]
    exact ⟨_, rfl⟩
  obtain ⟨flags, hexec⟩ := hexec
  exact ⟨_, TransOp.write_sets (t := maskInto rd rb info) hrd hflag, runUops_result hexec⟩

theorem runUops_saveRdx :
    ∃ m', m.Sets .temp0 (m.data (.gpr .rdx)) m' ∧
      runUops left next (saveRdx :: ts) m = runUops left next ts m' := by
  refine ⟨_, TransOp.write_sets (t := saveRdx) (by decide) rfl, runUops_result (f := .clear) ?_⟩
  rw [TransOp.exec, saveRdx]
  dsimp only
  rw [TransOp.aluop, TransOp.readRb, if_neg (by decide)]
  have hword : ∀ x : W64, (x.setWidth Size.w64.bits).setWidth 64 = x := BitVec.setWidth_eq
  exact congrArg (fun x => some (Outcome.result x _)) (hword _)

end

theorem DivOperand.srcreg_ne {size : Size} (src : DivOperand size) :
    src.srcreg ≠ .imm ∧ src.srcreg ≠ .temp0 ∧ src.srcreg ≠ .temp1 ∧ src.srcreg.isFlag = false := by
  cases src <;>
    exact ⟨by simp [srcreg], by simp [srcreg], by simp [srcreg], rfl⟩

section
variable (left : Nat → Leftover) (next : W64) {signed : Bool} {size : Size}
  (src : DivOperand size) (m : Machine) {r q : W64}

/-- The byte form: the high byte of the accumulator is never read. -/
theorem run_bytes (src : DivOperand .w8)
    (hr : (remainderop signed).eval .w8 (left 2).result (m.data (.gpr .rax)) (m.data src.srcreg) 0 =
      some r)
    (hq : (quotientop signed).eval .w8 (left 1).result (m.data (.gpr .rax)) (m.data src.srcreg) 0 =
      some q) :
    ∃ m', runUops left next (divUops signed .w8 src.srcreg) m = some (m', next) ∧
      quotientOut signed m' .w8 = value signed (q.setWidth 8) ∧
      remainderOut signed m' .w8 = value signed (r.setWidth 8) := by
  obtain ⟨himm, _, htemp1, hflag⟩ := src.srcreg_ne
  obtain ⟨m1, hm1, hrun1⟩ := runUops_divideOp left next
    [divideOp (quotientop signed) (.gpr .rax) src.srcreg .zero .w8,
      maskInto (.gpr .rax) .temp1 { ms := 56, mc := 8, ds := 56 }] .temp1 (k := 2) rfl himm
      (by decide : Reg.zero ≠ .imm) (by decide) rfl hr
  rw [← hm1.other _ rfl (by decide), ← hm1.other _ hflag htemp1] at hq
  obtain ⟨m2, hm2, hrun2⟩ := runUops_divideOp left next
    [maskInto (.gpr .rax) .temp1 { ms := 56, mc := 8, ds := 56 }] (.gpr .rax) (k := 1) rfl himm
      (by decide : Reg.zero ≠ .imm) (by decide) rfl hq
  obtain ⟨m3, hm3, hrun3⟩ := runUops_maskInto left next (m := m2) []
    (.gpr .rax) .temp1 { ms := 56, mc := 8, ds := 56 } (by decide) (by decide) rfl
  rw [hm2.data, hm2.other _ rfl (by decide), hm1.data] at hm3
  refine ⟨m3, hrun1.trans (hrun2.trans hrun3), ?_, ?_⟩
  · rw [quotientOut, hm3.data]
    exact congrArg (value signed) (mask_high q r).1
  · rw [remainderOut, if_pos rfl, hm3.data]
    exact congrArg (value signed) (mask_high q r).2

theorem run_words (src : DivOperand .w16)
    (hr : (remainderop signed).eval .w16 (left 2).result (m.data (.gpr .rax)) (m.data src.srcreg)
      (m.data (.gpr .rdx)) = some r)
    (hq : (quotientop signed).eval .w16 (left 1).result (m.data (.gpr .rax)) (m.data src.srcreg)
      (m.data (.gpr .rdx)) = some q) :
    ∃ m', runUops left next (divUops signed .w16 src.srcreg) m = some (m', next) ∧
      quotientOut signed m' .w16 = value signed (q.setWidth 16) ∧
      remainderOut signed m' .w16 = value signed (r.setWidth 16) := by
  obtain ⟨himm, htemp0, htemp1, hflag⟩ := src.srcreg_ne
  obtain ⟨m1, hm1, hrun1⟩ := runUops_saveRdx left next (m := m)
    [divideOp (remainderop signed) .temp1 src.srcreg .temp0 .w16,
      divideOp (quotientop signed) (.gpr .rax) src.srcreg .temp0 .w16,
      maskInto (.gpr .rdx) .temp1 { ms := 0, mc := 16, ds := 0 }]
  rw [← hm1.data, ← hm1.other _ rfl (by decide : Reg.gpr .rax ≠ _),
    ← hm1.other _ hflag htemp0] at hr hq
  obtain ⟨m2, hm2, hrun2⟩ := runUops_divideOp left next
    [divideOp (quotientop signed) (.gpr .rax) src.srcreg .temp0 .w16,
      maskInto (.gpr .rdx) .temp1 { ms := 0, mc := 16, ds := 0 }] .temp1 (k := 2) rfl himm
      (by decide : Reg.temp0 ≠ .imm) (by decide) rfl hr
  rw [← hm2.other _ rfl (by decide : Reg.temp0 ≠ _),
    ← hm2.other _ rfl (by decide : Reg.gpr .rax ≠ _), ← hm2.other _ hflag htemp1] at hq
  obtain ⟨m3, hm3, hrun3⟩ := runUops_divideOp left next
    [maskInto (.gpr .rdx) .temp1 { ms := 0, mc := 16, ds := 0 }] (.gpr .rax) (k := 1) rfl himm
      (by decide : Reg.temp0 ≠ .imm) (by decide) rfl hq
  obtain ⟨m4, hm4, hrun4⟩ := runUops_maskInto left next (m := m3) []
    (.gpr .rdx) .temp1 { ms := 0, mc := 16, ds := 0 } (by decide) (by decide) rfl
  refine ⟨m4, hrun1.trans (hrun2.trans (hrun3.trans hrun4)), ?_, ?_⟩
  · rw [quotientOut, hm4.other _ rfl (by decide), hm3.data]
    rfl
  · rw [remainderOut, if_neg (by decide), hm4.data, hm3.other .temp1 rfl (by decide), hm2.data]
    exact congrArg (value signed) (mask_word _ r)

/-- From four bytes on the remainder is in its place before the quotient uop reads the operand. -/
theorem run_wide (hwide : size ≠ .w8 ∧ size ≠ .w16)
    (hr : (remainderop signed).eval size (left 1).result (m.data (.gpr .rax)) (m.data src.srcreg)
      (m.data (.gpr .rdx)) = some r)
    (hq : (quotientop signed).eval size (left 0).result (m.data (.gpr .rax))
      (if src.srcreg = .gpr .rdx then r else m.data src.srcreg) (m.data (.gpr .rdx)) = some q) :
    ∃ m', runUops left next (divUops signed size src.srcreg) m = some (m', next) ∧
      quotientOut signed m' size = value signed (q.setWidth size.bits) ∧
      remainderOut signed m' size = value signed (r.setWidth size.bits) := by
  obtain ⟨himm, htemp0, _, hflag⟩ := src.srcreg_ne
  obtain ⟨m1, hm1, hrun1⟩ := runUops_saveRdx left next (m := m)
    [divideOp (remainderop signed) (.gpr .rdx) src.srcreg .temp0 size,
      divideOp (quotientop signed) (.gpr .rax) src.srcreg .temp0 size]
  rw [← hm1.data, ← hm1.other _ rfl (by decide : Reg.gpr .rax ≠ _),
    ← hm1.other _ hflag htemp0] at hr hq
  obtain ⟨m2, hm2, hrun2⟩ := runUops_divideOp left next
    [divideOp (quotientop signed) (.gpr .rax) src.srcreg .temp0 size] (.gpr .rdx) (k := 1) rfl himm
      (by decide : Reg.temp0 ≠ .imm) (by decide) rfl hr
  have hsrc : m2.data src.srcreg =
      if src.srcreg = .gpr .rdx then r else m1.data src.srcreg := by
    split
    · rename_i heq
      rw [heq, hm2.data]
    · rename_i hne
      exact hm2.other _ hflag hne
  rw [← hsrc, ← hm2.other _ rfl (by decide : Reg.temp0 ≠ _),
    ← hm2.other _ rfl (by decide : Reg.gpr .rax ≠ _)] at hq
  obtain ⟨m3, hm3, hrun3⟩ := runUops_divideOp left next
    [] (.gpr .rax) (k := 0) rfl himm (by decide : Reg.temp0 ≠ .imm) (by decide) rfl hq
  have huops : divUops signed size src.srcreg =
      [saveRdx, divideOp (remainderop signed) (.gpr .rdx) src.srcreg .temp0 size,
        divideOp (quotientop signed) (.gpr .rax) src.srcreg .temp0 size] := by
    rw [divUops, if_neg hwide.1, if_neg hwide.2, if_neg hwide.2]
    rfl
  rw [huops]
  refine ⟨m3, hrun1.trans (hrun2.trans hrun3), ?_, ?_⟩
  · rw [quotientOut, hm3.data]
  · rw [remainderOut, if_neg hwide.1, hm3.other _ rfl (by decide), hm2.data]

end
end FeS2.Decoder
