import FeS2.Decoder.Expansion

/-!
The x86 addressing forms. The decoder takes from the bytes what x86 says, and the uops add it up on
whole words, where x86 cuts the sum to 32 bits in 32-bit mode or with an address-size prefix.
-/

namespace FeS2.Decoder

/-- What x86 adds up. -/
structure X86Address where
  ripRelative : Bool
  base : Option Gpr
  index : Option Gpr
  scale : Nat
  disp : W64

namespace X86Address
variable (f : X86Address) (next : W64) (m : Machine)

/-- Base, index, displacement and, where there is no base, perhaps the address of the next op. -/
def sum : W64 :=
  (if f.ripRelative then next else 0) + (f.base.map fun r => m.data (.gpr r)).getD 0 +
    (f.index.map fun r => m.data (.gpr r) * BitVec.ofNat 64 (2 ^ f.scale)).getD 0 + f.disp

/-- The effective address. -/
def effective (truncated : Bool) : W64 :=
  if truncated then ((f.sum next m).setWidth 32).setWidth 64 else f.sum next m

end X86Address

/-- The little-endian number of some bytes. -/
def littleEndian : List Byte → Nat
  | [] => 0
  | b :: bytes => b.toNat + 256 * littleEndian bytes

def signedBytes (bytes : List Byte) : W64 :=
  (BitVec.ofNat (8 * bytes.length) (littleEndian bytes)).signExtend 64

/-- The register with a number of three bits and one of the REX byte. -/
def x86Reg (n : Nat) (rexBit : Bool) : Gpr := reg64 (n + if rexBit then 8 else 0)

namespace InsnHead
variable (h : InsnHead)

/-- The form that the bytes behind the ModRM byte complete, and what follows it. -/
def x86Address (bytes : List Byte) : Option (X86Address × List Byte) :=
  let hasSib := decide (h.modrm.rm = 4)
  let sib := if hasSib then (bytes.headD 0).toNat else 0
  let sibSize := if hasSib then 1 else 0
  let baseNumber := if hasSib then sib % 8 else h.modrm.rm
  let noBase := decide (h.modrm.mod = 0 ∧ baseNumber = 5)
  let dispSize :=
    if h.modrm.mod = 1 then 1 else if h.modrm.mod = 2 ∨ noBase = true then 4 else 0
  let indexNumber := sib / 8 % 8
  if bytes.length < sibSize + dispSize then none
  else some
    ({ ripRelative := noBase && !hasSib && h.use64
       base := if noBase then none else some (x86Reg baseNumber h.rex.extbase)
       index :=
         if hasSib = false ∨ indexNumber = 4 ∧ h.rex.extindex = false then none
         else some (x86Reg indexNumber h.rex.extindex)
       scale := if hasSib then sib / 64 else 0
       disp := signedBytes ((bytes.drop sibSize).take dispSize) },
      bytes.drop (sibSize + dispSize))

end InsnHead

/-- The decoder's operand of a form. -/
def X86Address.operand (f : X86Address) : MemOperand where
  basereg := if f.ripRelative then .rip else (f.base.map MemBase.gpr).getD .zero
  indexreg := f.index
  offset := f.disp
  scale := f.scale

/-! The bytes -/

theorem littleEndian_append (xs ys : List Byte) :
    littleEndian (xs ++ ys) = littleEndian xs + 2 ^ (8 * xs.length) * littleEndian ys := by
  induction xs with
  | nil => rw [List.nil_append, littleEndian, List.length_nil]; omega
  | cons b xs ih =>
      have hpow : 2 ^ (8 * (b :: xs).length) = 256 * 2 ^ (8 * xs.length) := by
        rw [List.length_cons, Nat.mul_add, Nat.pow_add, Nat.mul_comm]
      rw [List.cons_append, littleEndian, littleEndian, ih, hpow, Nat.mul_add, Nat.mul_assoc,
        Nat.add_assoc]

theorem littleEndian_lt (bytes : List Byte) : littleEndian bytes < 2 ^ (8 * bytes.length) := by
  induction bytes with
  | nil => exact Nat.one_pos
  | cons b bytes ih =>
      have hb := b.isLt
      have hpow : 2 ^ (8 * (b :: bytes).length) = 256 * 2 ^ (8 * bytes.length) := by
        rw [List.length_cons, Nat.mul_add, Nat.pow_add, Nat.mul_comm]
      rw [littleEndian, hpow]
      omega

namespace Fetch

/-- It takes `n` bytes, the lowest first. -/
def Reads {w : Nat} (n : Nat) (f : Fetch (BitVec w)) : Prop :=
  w = 8 * n ∧ ∀ bytes, f bytes =
    if bytes.length < n then none
    else some (BitVec.ofNat w (littleEndian (bytes.take n)), bytes.drop n)

theorem reads_fetch1 : Reads 1 fetch1 := by
  refine ⟨rfl, fun bytes => ?_⟩
  cases bytes with
  | nil => rfl
  | cons b bytes =>
      rw [fetch1, if_neg (by rw [List.length_cons]; omega)]
      change _ = some (BitVec.ofNat 8 (b.toNat + 256 * 0), bytes)
      rw [Nat.mul_zero, Nat.add_zero, BitVec.ofNat_toNat, BitVec.setWidth_eq]

theorem Reads.append {w n : Nat} {f : Fetch (BitVec w)} (h : Reads n f) :
    Reads (n + n) (do
      let lo ← f
      let hi ← f
      return hi ++ lo) := by
  obtain ⟨hw, hf⟩ := h
  refine ⟨by omega, fun bytes => ?_⟩
  change ((f bytes).bind fun r => (f r.2).bind fun r' => some (r'.1 ++ r.1, r'.2)) = _
  rw [hf bytes]
  by_cases hlt : bytes.length < n
  · rw [if_pos hlt, if_pos (by omega)]
    rfl
  · rw [if_neg hlt, Option.bind_some]
    dsimp only
    rw [hf (bytes.drop n), List.length_drop]
    by_cases hlt' : bytes.length < n + n
    · rw [if_pos (by omega), if_pos hlt']
      rfl
    · rw [if_neg (by omega), if_neg hlt', Option.bind_some, List.drop_drop]
      have htake : bytes.take (n + n) = bytes.take n ++ (bytes.drop n).take n := List.take_add
      have hlen : (bytes.take n).length = n := by rw [List.length_take]; omega
      have hlen' : ((bytes.drop n).take n).length = n := by
        rw [List.length_take, List.length_drop]; omega
      have hlo := littleEndian_lt (bytes.take n)
      have hhi := littleEndian_lt ((bytes.drop n).take n)
      rw [hlen, ← hw] at hlo
      rw [hlen', ← hw] at hhi
      rw [htake, littleEndian_append, hlen, ← hw]
      refine congrArg (fun x => some (x, _)) (BitVec.eq_of_toNat_eq ?_)
      rw [BitVec.toNat_append, BitVec.toNat_ofNat, BitVec.toNat_ofNat, BitVec.toNat_ofNat,
        Nat.mod_eq_of_lt hlo, Nat.mod_eq_of_lt hhi, ← Nat.shiftLeft_add_eq_or_of_lt hlo,
        Nat.shiftLeft_eq, Nat.pow_add, Nat.mod_eq_of_lt]
      · rw [Nat.mul_comm, Nat.add_comm]
      · calc
          littleEndian (bytes.take n) + 2 ^ w * littleEndian ((bytes.drop n).take n)
            < 2 ^ w + 2 ^ w * littleEndian ((bytes.drop n).take n) := Nat.add_lt_add_right hlo _
          _ = 2 ^ w * (littleEndian ((bytes.drop n).take n) + 1) := by rw [Nat.mul_succ,
            Nat.add_comm]
          _ ≤ 2 ^ w * 2 ^ w := Nat.mul_le_mul_left _ hhi

theorem reads_fetch2 : Reads 2 fetch2 := reads_fetch1.append

theorem reads_fetch4 : Reads 4 fetch4 := reads_fetch2.append

theorem reads_fetch8 : Reads 8 fetch8 := reads_fetch4.append

theorem Reads.signed {w n : Nat} {f : Fetch (BitVec w)} (h : Reads n f) (bytes : List Byte) :
    ((f bytes).bind fun r => some (r.1.signExtend 64, r.2)) = if bytes.length < n then none
      else some (signedBytes (bytes.take n), bytes.drop n) := by
  obtain ⟨rfl, hf⟩ := h
  rw [hf bytes]
  by_cases hlt : bytes.length < n
  · rw [if_pos hlt, if_pos hlt]
    rfl
  · have hlen : (bytes.take n).length = n := by rw [List.length_take]; omega
    rw [if_neg hlt, if_neg hlt, signedBytes, hlen]
    rfl

theorem signed_eq (size : Size) (bytes : List Byte) :
    signed size bytes = if bytes.length < size.bytes then none
      else some (signedBytes (bytes.take size.bytes), bytes.drop size.bytes) := by
  cases size with
  | w8 => exact reads_fetch1.signed bytes
  | w16 => exact reads_fetch2.signed bytes
  | w32 => exact reads_fetch4.signed bytes
  | w64 =>
      refine Eq.trans ?_ (reads_fetch8.signed bytes)
      rw [signed]
      cases fetch8 bytes with
      | none => rfl
      | some r => exact congrArg (fun x => some (x, r.2)) (BitVec.signExtend_eq r.1).symm

end Fetch

/-! The tables -/

theorem rexextbaseAndBaseToBasereg_eq (extbase : Bool) (base : Nat) :
    rexextbaseAndBaseToBasereg extbase base =
      if base = 5 then none else some (x86Reg base extbase) := by
  unfold rexextbaseAndBaseToBasereg
  split
  · rfl
  · next hne => rw [if_neg hne]; rfl

theorem rexextbaseAndModToBasereg_eq (extbase : Bool) (mod : Nat) :
    rexextbaseAndModToBasereg extbase mod =
      if mod = 0 then .zero else .gpr (x86Reg 5 extbase) := by
  cases extbase <;> rfl

theorem x86Reg_five (extbase : Bool) : (if extbase then Gpr.r13 else .rbp) = x86Reg 5 extbase := by
  cases extbase <;> rfl

theorem modAndRexextbaseAndRmToBaseregX8664_eq (mod : Nat) (extbase : Bool) (rm : Nat) :
    modAndRexextbaseAndRmToBaseregX8664 mod extbase rm =
      if rm = 4 then none
      else some (if mod = 0 ∧ rm = 5 then .rip else .gpr (x86Reg rm extbase)) := by
  unfold modAndRexextbaseAndRmToBaseregX8664
  split
  · rfl
  · rw [x86Reg_five]
    simp
  · next h4 h5 =>
    have hor : ¬(mod = 0 ∧ rm = 5) := fun hboth => h5 hboth.2
    rw [if_neg h4, if_neg hor]
    rfl

theorem modAndRmToBaseregX86_eq (mod rm : Nat) :
    modAndRmToBaseregX86 mod rm =
      if rm = 4 then none
      else some (if mod = 0 ∧ rm = 5 then .zero else .gpr (x86Reg rm false)) := by
  unfold modAndRmToBaseregX86
  split
  · rfl
  · rw [← x86Reg_five]
    simp
  · next h4 h5 =>
    have hor : ¬(mod = 0 ∧ rm = 5) := fun hboth => h5 hboth.2
    rw [if_neg h4, if_neg hor]
    rfl

namespace InsnHead
variable (h : InsnHead)

/-- Outside 64-bit mode the registers are those with no REX byte. -/
theorem basereg_eq :
    (if h.use64 then
        modAndRexextbaseAndRmToBaseregX8664 h.modrm.mod h.rex.extbase h.modrm.rm
      else modAndRmToBaseregX86 h.modrm.mod h.modrm.rm) =
      if h.modrm.rm = 4 then none
      else some (if h.modrm.mod = 0 ∧ h.modrm.rm = 5 then if h.use64 then .rip else .zero
        else .gpr (x86Reg h.modrm.rm h.rex.extbase)) := by
  cases huse : h.use64 with
  | true => exact modAndRexextbaseAndRmToBaseregX8664_eq _ _ _
  | false =>
      have hrex : h.rex.extbase = false := by rw [rex, huse]; rfl
      rw [hrex]
      exact modAndRmToBaseregX86_eq _ _

theorem mod_cases (hmem : h.modrm.mod ≠ 3) :
    h.modrm.mod = 0 ∨ h.modrm.mod = 1 ∨ h.modrm.mod = 2 := by
  have hlt := h.modrm.mod_lt
  omega

/-- The displacement comes last. -/
theorem displacement_eq (size : Size) (rest : List Byte) (k : Nat) (form : W64 → X86Address) :
    ((Fetch.signed size rest).bind fun r => some ((form r.1).operand, r.2)) =
      Option.map (fun r => (r.1.operand, r.2))
        (if rest.length + k < size.bytes + k then none
        else some (form (signedBytes (rest.take size.bytes)), rest.drop size.bytes)) := by
  rw [Fetch.signed_eq]
  by_cases hlt : rest.length < size.bytes
  · rw [if_pos hlt, if_pos (Nat.add_lt_add_right hlt k)]
    rfl
  · rw [if_neg hlt, if_neg fun hle => hlt (Nat.lt_of_add_lt_add_right hle)]
    rfl

/-- With a SIB byte. -/
theorem eformMem_sib (hmem : h.modrm.mod ≠ 3) (hsib : h.modrm.rm = 4) (b : Byte)
    (rest : List Byte) :
    h.eformMem (b :: rest) =
      (h.x86Address (b :: rest)).map fun r => (r.1.operand, r.2) := by
  have hbyte := b.isLt
  have hscale : bits b.toNat 6 2 = b.toNat / 64 := by
    unfold bits
    omega
  have hindex : bits b.toNat 3 3 = b.toNat / 8 % 8 := rfl
  have hbase : bits b.toNat 0 3 = b.toNat % 8 := by
    rw [bits, Nat.pow_zero, Nat.div_one]
    rfl
  let form (base : Option Gpr) (disp : W64) : X86Address :=
    { ripRelative := false
      base := base
      index :=
        if b.toNat / 8 % 8 = 4 ∧ h.rex.extindex = false then none
        else some (x86Reg (b.toNat / 8 % 8) h.rex.extindex)
      scale := b.toNat / 64
      disp := disp }
  unfold eformMem x86Address
  dsimp only
  rw [h.basereg_eq]
  rcases h.mod_cases hmem with hm | hm | hm
  · by_cases hfive : b.toNat % 8 = 5
    · simp [hsib, hm, modAndRmToImmsize, Fetch.fetch1, Fetch.bind_apply,
        rexextbaseAndBaseToBasereg_eq, rexextbaseAndModToBasereg_eq, hscale, hindex, hbase, hfive]
      exact displacement_eq .w32 rest 1 (form none)
    · simp [hsib, hm, modAndRmToImmsize, Fetch.fetch1, Fetch.bind_apply, Fetch.pure_apply,
        rexextbaseAndBaseToBasereg_eq, hscale, hindex, hbase, hfive]
      rfl
  · by_cases hfive : b.toNat % 8 = 5
    · simp [hsib, hm, modAndRmToImmsize, Fetch.fetch1, Fetch.bind_apply, Fetch.pure_apply,
        rexextbaseAndBaseToBasereg_eq, rexextbaseAndModToBasereg_eq, hscale, hindex, hbase, hfive]
      refine (displacement_eq .w8 rest 1 (form (some (x86Reg 5 h.rex.extbase)))).trans ?_
      simp [form, signedBytes, Size.bytes]
    · simp [hsib, hm, modAndRmToImmsize, Fetch.fetch1, Fetch.bind_apply, Fetch.pure_apply,
        rexextbaseAndBaseToBasereg_eq, hscale, hindex, hbase, hfive]
      refine (displacement_eq .w8 rest 1 (form (some (x86Reg (b.toNat % 8) h.rex.extbase)))).trans ?_
      simp [form, signedBytes, Size.bytes]
  · by_cases hfive : b.toNat % 8 = 5
    · simp [hsib, hm, modAndRmToImmsize, Fetch.fetch1, Fetch.bind_apply, Fetch.pure_apply,
        rexextbaseAndBaseToBasereg_eq, rexextbaseAndModToBasereg_eq, hscale, hindex, hbase, hfive]
      exact displacement_eq .w32 rest 1 (form (some (x86Reg 5 h.rex.extbase)))
    · simp [hsib, hm, modAndRmToImmsize, Fetch.fetch1, Fetch.bind_apply, Fetch.pure_apply,
        rexextbaseAndBaseToBasereg_eq, hscale, hindex, hbase, hfive]
      exact displacement_eq .w32 rest 1 (form (some (x86Reg (b.toNat % 8) h.rex.extbase)))

/-- With none. -/
theorem eformMem_noSib (hmem : h.modrm.mod ≠ 3) (hsib : h.modrm.rm ≠ 4) (bytes : List Byte) :
    h.eformMem bytes = (h.x86Address bytes).map fun r => (r.1.operand, r.2) := by
  let form (base : Option Gpr) (disp : W64) : X86Address :=
    { ripRelative := false, base := base, index := none, scale := 0, disp := disp }
  unfold eformMem x86Address
  dsimp only
  rw [h.basereg_eq]
  rcases h.mod_cases hmem with hm | hm | hm
  · by_cases hfive : h.modrm.rm = 5
    · cases huse : h.use64 with
      | true =>
          simp [hm, modAndRmToImmsize, Fetch.bind_apply, Fetch.pure_apply, hfive]
          exact displacement_eq .w32 bytes 0 fun disp =>
            { ripRelative := true, base := none, index := none, scale := 0, disp := disp }
      | false =>
          simp [hm, modAndRmToImmsize, Fetch.bind_apply, Fetch.pure_apply, hfive]
          exact displacement_eq .w32 bytes 0 (form none)
    · simp [hsib, hm, modAndRmToImmsize, Fetch.bind_apply, Fetch.pure_apply, hfive]
      rfl
  · simp [hsib, hm, modAndRmToImmsize, Fetch.bind_apply, Fetch.pure_apply]
    refine (displacement_eq .w8 bytes 0 (form (some (x86Reg h.modrm.rm h.rex.extbase)))).trans ?_
    simp [form, signedBytes, Size.bytes]
  · simp [hsib, hm, modAndRmToImmsize, Fetch.bind_apply, Fetch.pure_apply]
    exact displacement_eq .w32 bytes 0 (form (some (x86Reg h.modrm.rm h.rex.extbase)))

/-- The decoder takes the form that x86 says, and the bytes of the form. -/
theorem eformMem_eq (hmem : h.modrm.mod ≠ 3) (bytes : List Byte) :
    h.eformMem bytes = (h.x86Address bytes).map fun r => (r.1.operand, r.2) := by
  by_cases hsib : h.modrm.rm = 4
  · cases bytes with
    | nil =>
        unfold eformMem x86Address
        dsimp only
        rw [h.basereg_eq]
        simp [hsib, Fetch.fetch1, Fetch.bind_apply]
    | cons b rest => exact h.eformMem_sib hmem hsib b rest
  · exact h.eformMem_noSib hmem hsib bytes

end InsnHead

/-! The sums -/

theorem shiftLeft_eq_mul (x : W64) (n : Nat) : x <<< n = x * BitVec.ofNat 64 (2 ^ n) := by
  apply BitVec.eq_of_toNat_eq
  rw [BitVec.toNat_shiftLeft, Nat.shiftLeft_eq, BitVec.toNat_mul, BitVec.toNat_ofNat,
    Nat.mul_mod_mod]

namespace X86Address
variable (f : X86Address) (m : Machine)

/-- Relative to the instruction pointer there is neither a base nor an index. -/
def WellFormed : Prop := f.ripRelative = true → f.base = none ∧ f.index = none

theorem operand_basereg : f.operand.basereg = .rip ↔ f.ripRelative = true := by
  unfold operand
  cases f.ripRelative with
  | true => exact iff_of_true rfl rfl
  | false => cases f.base <;> simp

theorem operand_wellFormed (h : f.WellFormed) : f.operand.WellFormed := by
  intro hrip
  exact (h (f.operand_basereg.mp hrip)).2

theorem operand_sum (h : f.WellFormed) (c : DecodeContext) :
    f.operand.sum c m = f.sum c.rip m := by
  have hindex : f.operand.index m =
      (f.index.map fun r => m.data (.gpr r) * BitVec.ofNat 64 (2 ^ f.scale)).getD 0 := by
    unfold MemOperand.index operand
    cases f.index with
    | none => rfl
    | some r => exact shiftLeft_eq_mul _ _
  rw [MemOperand.sum, sum, hindex]
  unfold operand
  cases hrel : f.ripRelative with
  | true =>
      have hbase := (h hrel).1
      rw [hbase]
      change c.rip + _ + f.disp = c.rip + 0 + _ + f.disp
      grind
  | false =>
      cases f.base with
      | none => rfl
      | some r =>
          change m.data (.gpr r) + _ + f.disp = 0 + m.data (.gpr r) + _ + f.disp
          grind

end X86Address

namespace InsnHead
variable (h : InsnHead)

theorem x86Address_wellFormed {bytes rest : List Byte} {f : X86Address}
    (hf : h.x86Address bytes = some (f, rest)) : f.WellFormed := by
  unfold x86Address at hf
  dsimp only at hf
  rw [Option.ite_none_left_eq_some] at hf
  obtain ⟨-, hform⟩ := hf
  cases hform
  intro hrip
  rw [Bool.and_eq_true, Bool.and_eq_true, Bool.not_eq_true'] at hrip
  exact ⟨if_pos hrip.1.1, if_pos (.inl hrip.1.2)⟩

end InsnHead

/-! Cut sums -/

theorem add_ofNat_eq_self (x : W64) {k : Nat} (hk : k < 2 ^ 32) :
    x + BitVec.ofNat 64 k = x ↔ k = 0 := by
  constructor
  · intro heq
    have hnat := congrArg BitVec.toNat heq
    have hx := x.isLt
    rw [BitVec.toNat_add, BitVec.toNat_ofNat] at hnat
    omega
  · rintro rfl
    exact BitVec.add_zero x

/-- With the carries a sum of whole words is the one cut to 32 bits. -/
theorem add_ofNat_eq_truncated (x : W64) {k : Nat} (hk : k < 2 ^ 32) :
    x + BitVec.ofNat 64 k = (x.setWidth 32).setWidth 64 ↔ k = 0 ∧ x.toNat < 2 ^ 32 := by
  have hx := x.isLt
  constructor
  · intro heq
    have hnat := congrArg BitVec.toNat heq
    rw [BitVec.toNat_add, BitVec.toNat_ofNat, BitVec.toNat_setWidth, BitVec.toNat_setWidth] at hnat
    omega
  · rintro ⟨rfl, hlt⟩
    apply BitVec.eq_of_toNat_eq
    rw [BitVec.toNat_add, BitVec.toNat_ofNat, BitVec.toNat_setWidth, BitVec.toNat_setWidth]
    omega

/-- The lower bits are off by the carries. -/
theorem setWidth_add_ofNat (x : W64) {n k : Nat} (hn : n ≤ 64) (hk : k < 2 ^ n) :
    (x + BitVec.ofNat 64 k).setWidth n = x.setWidth n ↔ k = 0 := by
  constructor
  · intro heq
    rw [BitVec.setWidth_add _ _ hn] at heq
    have hzero : (BitVec.ofNat 64 k).setWidth n = 0 := BitVec.add_right_eq_self.mp heq
    have hnat : (BitVec.ofNat 64 k).toNat % 2 ^ n = 0 :=
      (BitVec.toNat_setWidth n _).symm.trans (congrArg BitVec.toNat hzero)
    have hpow : 2 ^ n ≤ 2 ^ 64 := Nat.pow_le_pow_right Nat.two_pos hn
    rw [BitVec.toNat_ofNat, Nat.mod_mod_of_dvd _ (Nat.pow_dvd_pow 2 hn),
      Nat.mod_eq_of_lt hk] at hnat
    exact hnat
  · rintro rfl
    exact congrArg (BitVec.setWidth n) (BitVec.add_zero x)

/-- Two words are the same when their parts are. -/
theorem x86Merge_word_eq (rd rd' x x' : W64) :
    x86Merge .w16 rd x = x86Merge .w16 rd' x' ↔
      x.setWidth 16 = x'.setWidth 16 ∧ rd.extractLsb' 16 48 = rd'.extractLsb' 16 48 := by
  constructor
  · intro heq
    constructor
    · exact (x86Merge_setWidth .w16 rd x).symm.trans
        ((congrArg (BitVec.setWidth 16) heq).trans (x86Merge_setWidth .w16 rd' x'))
    · have hpart : ∀ r y : W64, (x86Merge .w16 r y).extractLsb' 16 48 = r.extractLsb' 16 48 :=
        fun _ _ => BitVec.extractLsb'_append_eq_left
      rw [← hpart rd x, heq, hpart]
  · rintro ⟨hlow, hhigh⟩
    rw [x86Merge, x86Merge, hlow, hhigh]

theorem x86Merge_word_self (x : W64) : x86Merge .w16 x x = x := by
  ext i hi
  rw [x86Merge, BitVec.getElem_append]
  split
  · rw [BitVec.getElem_setWidth, BitVec.getLsbD_eq_getElem]
  · rw [BitVec.getElem_extractLsb', Nat.add_sub_cancel' (by omega), BitVec.getLsbD_eq_getElem]

/-! The number of carries -/

theorem biasBySegreg_length (c : DecodeContext) (basereg : Reg) :
    (biasBySegreg c basereg).1.length ≤ 2 := by
  unfold biasBySegreg
  split
  · exact Nat.le_refl 2
  · exact Nat.zero_le 2

theorem extra_length (large : Bool) (t : TransOp) :
    (if large then [t] else []).length ≤ 1 := by
  cases large with
  | false => exact Nat.zero_le 1
  | true => exact Nat.le_refl 1

theorem carries_lt (left : Nat → Leftover) {ts : List TransOp} (h : ts.length ≤ 5) :
    carries left [] ts < 2 ^ 16 :=
  Nat.lt_of_le_of_lt ((carries_le left [] ts).trans h) (by decide)

namespace MemOperand

theorem addressRest_length (c : DecodeContext) (size : Size) (ra : Reg) (a : MemOperand) :
    (a.addressRest c size ra).length ≤ 2 := by
  have hextra := extra_length (a.immIsNotEncodable size) (addImm .temp8 ra a.offset)
  unfold addressRest
  split
  · exact Nat.le_succ 1
  · cases a.indexreg with
    | none => exact Nat.le_succ_of_le hextra
    | some indexreg =>
        dsimp only
        split
        · split
          · exact Nat.le_succ 1
          · exact Nat.le_succ 1
        · rw [List.length_append]
          exact Nat.add_le_add_right hextra 1

theorem addressOnlyRest_length (c : DecodeContext) (a : MemOperand) (size : Size)
    (destreg basereg : Reg) : (a.addressOnlyRest c size destreg basereg).length ≤ 3 := by
  have hextra := extra_length (decide (a.offset &&& bitmask size.sizeshift ≠ 0))
    (addImm .temp8 basereg a.offset)
  unfold addressOnlyRest
  split
  · exact Nat.le_add_left 1 2
  · cases a.indexreg with
    | none =>
        dsimp only
        rw [List.length_append]
        exact (Nat.add_le_add_right hextra 1).trans (Nat.le_succ 2)
    | some indexreg =>
        dsimp only
        split
        · split
          · exact Nat.le_add_left 1 2
          · exact Nat.le_add_left 1 2
        · rw [List.length_append]
          exact Nat.add_le_add_right hextra 2

theorem addressOnly_length (c : DecodeContext) (a : MemOperand) (forceSegBias : Bool)
    (size : Size) (destreg : Reg) : (a.addressOnly c forceSegBias size destreg).length ≤ 5 := by
  have hbias : (a.biasIf c forceSegBias).1.length ≤ 2 := by
    unfold biasIf
    split
    · exact biasBySegreg_length c _
    · exact Nat.zero_le 2
  rw [addressOnly, List.length_append]
  exact Nat.add_le_add hbias (a.addressOnlyRest_length c size destreg _)

end MemOperand

/-! The uses of an operand -/

namespace MemOperand

/-- The uops of an access before the load or the store, its base and its immediate. A cracked one
adds them up, and its lower half is there. -/
def access (a : MemOperand) (c : DecodeContext) (splitMemops : Bool) (size : Size) :
    List TransOp × Reg × W64 :=
  let (ts, base, imm) := a.addressGenerate c size
  if splitMemops then (ts ++ [addImm .temp9 base imm], .temp9, 0) else (ts, base, imm)

theorem runs_access (c : DecodeContext) (left : Nat → Leftover) (m : Machine) {a : MemOperand}
    (h : a.WellFormed) (splitMemops : Bool) (size : Size) :
    ∃ m', m'.data (a.access c splitMemops size).2.1 + (a.access c splitMemops size).2.2 =
        c.segment m + a.sum c m +
          BitVec.ofNat 64 (carries left [] (a.access c splitMemops size).1) ∧
      Runs left [] (a.access c splitMemops size).1 m m' := by
  cases splitMemops with
  | false =>
      have ⟨m', _, hdata, hrun⟩ := runs_addressGenerate c left [] m h size
      exact ⟨m', hdata, hrun⟩
  | true =>
      let ag := addImm .temp9 (a.addressGenerate c size).2.1 (a.addressGenerate c size).2.2
      have ⟨m1, _, hdata, hrun⟩ := runs_addressGenerate c left [ag] m h size
      have ⟨m', hsum, hrun'⟩ := runs_add left [] m1 (t := ag) rfl rfl rfl
        (by rintro ⟨⟩) rfl
      refine ⟨m', ?_, hrun.append hrun'⟩
      have hag : m'.data .temp9 = m1.data (a.addressGenerate c size).2.1 +
          (a.addressGenerate c size).2.2 + BitVec.ofNat 64 (carries left [] [ag]) := hsum.data
      change m'.data .temp9 + 0 =
        _ + BitVec.ofNat 64 (carries left [] ((a.addressGenerate c size).1 ++ [ag]))
      rw [hag, hdata, carries_append, BitVec.ofNat_add]
      grind

theorem addressGenerate_length (a : MemOperand) (c : DecodeContext) (size : Size) :
    (a.addressGenerate c size).1.length ≤ 4 := by
  rw [addressGenerate_uops, List.length_append]
  exact Nat.add_le_add (biasBySegreg_length c _) (a.addressRest_length c size _)

theorem access_length (a : MemOperand) (c : DecodeContext) (splitMemops : Bool) (size : Size) :
    (a.access c splitMemops size).1.length ≤ 5 := by
  have hgenerate := a.addressGenerate_length c size
  cases splitMemops with
  | false => exact Nat.le_succ_of_le hgenerate
  | true =>
      change ((a.addressGenerate c size).1 ++ [_]).length ≤ 5
      rw [List.length_append]
      exact Nat.add_le_add_right hgenerate 1

end MemOperand

/-- What a memory operand is for. -/
inductive AddressUse
  | access (size : Size)
  | lea (rd : Gpr)

theorem InsnHead.vSize_ne (h : InsnHead) : h.vSize ≠ .w8 := by
  unfold vSize
  split
  · rintro ⟨⟩
  · split <;> rintro ⟨⟩

/-- Addresses have 32 bits. -/
def InsnHead.truncates (h : InsnHead) : Bool := !h.use64 || h.addrsizePrefix

namespace AddressUse
variable (d : TraceDecoder) (h : InsnHead) (left : Nat → Leftover) (m : Machine)

def uops (a : MemOperand) : AddressUse → List TransOp
  | .access size => (a.access (h.context d) d.splitUnalignedMemops size).1
  | .lea rd => a.addressOnly (h.context d) false h.vSize (.gpr rd)

/-- What x86 says of the machine behind the uops. -/
def Right (a : MemOperand) (f : X86Address) (m' : Machine) : AddressUse → Prop
  | .access size =>
      m'.data (a.access (h.context d) d.splitUnalignedMemops size).2.1 +
          (a.access (h.context d) d.splitUnalignedMemops size).2.2 =
        (h.context d).segment m + f.effective d.rip m h.truncates
  | .lea rd =>
      m'.data (.gpr rd) = x86Merge h.vSize (m.data (.gpr rd)) (f.effective d.rip m h.truncates)

/-- The upper bits that the last uop of a `lea` of sixteen bits keeps. -/
def kept (f : X86Address) : W64 :=
  if f.ripRelative then f.sum d.rip m
  else m.data f.operand.basereg.archReg + f.operand.addedBefore m .w16

/-- No uop finds the host's carry flag set, a sum that x86 cuts has no more bits than that, and
`lea` keeps the upper bits of its own register. -/
def Fits (f : X86Address) (use : AddressUse) : Prop :=
  carries left [] (use.uops d h f.operand) = 0 ∧
    match use with
    | .access _ => h.truncates = true → (f.sum d.rip m).toNat < 2 ^ 32
    | .lea rd =>
      match h.vSize with
      | .w64 => h.truncates = true → (f.sum d.rip m).toNat < 2 ^ 32
      | .w32 => f.ripRelative = true → (f.sum d.rip m).toNat < 2 ^ 32
      | _ => (m.data (.gpr rd)).extractLsb' 16 48 = (kept d m f).extractLsb' 16 48

/-- The lower bits are not cut. -/
theorem effective_setWidth (f : X86Address) (next : W64) (truncated : Bool) {n : Nat}
    (hn : n ≤ 32) :
    (f.effective next m truncated).setWidth n = (f.sum next m).setWidth n := by
  unfold X86Address.effective
  split
  · rw [BitVec.setWidth_setWidth_of_le _ (hn.trans (by decide)),
      BitVec.setWidth_setWidth_of_le _ hn]
  · rfl

/-- Carries and missed cuts alone make a whole word wrong. -/
theorem add_ofNat_eq_effective (f : X86Address) (next : W64) (truncated : Bool) {k : Nat}
    (hk : k < 2 ^ 16) :
    f.sum next m + BitVec.ofNat 64 k = f.effective next m truncated ↔
      k = 0 ∧ (truncated = true → (f.sum next m).toNat < 2 ^ 32) := by
  unfold X86Address.effective
  have hk32 : k < 2 ^ 32 := hk.trans (by decide)
  cases truncated with
  | false =>
      rw [if_neg (by simp), add_ofNat_eq_self _ hk32]
      simp
  | true =>
      rw [if_pos rfl, add_ofNat_eq_truncated _ hk32]
      simp

/-- A run is unique. -/
theorem exists_run_iff {ts : List TransOp} {m1 : Machine} (hrun : Runs left [] ts m m1)
    (p : Machine → Prop) :
    (∃ m', runUops left d.rip ts m = some (m', d.rip) ∧ p m') ↔ p m1 := by
  have hend : runUops left d.rip ts m = some (m1, d.rip) := by
    have h := hrun d.rip
    rw [List.append_nil] at h
    exact h
  constructor
  · rintro ⟨m', hsome, hp⟩
    rw [hend] at hsome
    cases hsome
    exact hp
  · exact fun hp => ⟨m1, hend, hp⟩

/-- An access is right when its address is not cut. -/
theorem access_right_iff {f : X86Address} (hwell : f.WellFormed) (size : Size) :
    (∃ m', runUops left d.rip ((AddressUse.access size).uops d h f.operand) m = some (m', d.rip) ∧
        (AddressUse.access size).Right d h m f.operand f m') ↔
      (AddressUse.access size).Fits d h left m f := by
  have ⟨m1, hdata, hrun⟩ := MemOperand.runs_access (h.context d) left m
    (f.operand_wellFormed hwell) d.splitUnalignedMemops size
  have hk := carries_lt left (f.operand.access_length (h.context d)
    d.splitUnalignedMemops size)
  rw [f.operand_sum m hwell (h.context d), BitVec.add_assoc] at hdata
  rw [uops, exists_run_iff d left m hrun, Right, hdata, BitVec.add_right_inj]
  exact add_ofNat_eq_effective m f d.rip h.truncates hk

theorem zeroExtended_eq_iff (x y : W64) :
    x86Merge .w32 0 x = x86Merge .w32 0 y ↔ x.setWidth 32 = y.setWidth 32 := by
  constructor
  · intro heq
    exact (x86Merge_setWidth .w32 0 x).symm.trans
      ((congrArg (BitVec.setWidth 32) heq).trans (x86Merge_setWidth .w32 0 y))
  · exact congrArg (BitVec.setWidth 64)

/-- What a `lea` leaves whose last uop merges at its size. -/
theorem lea_merged_iff (f : X86Address) (next kept old : W64) (truncated : Bool) {j k : Nat}
    (hj : j ≤ k) (hk : k < 2 ^ 16) :
    (x86Merge .w64 kept (f.sum next m + BitVec.ofNat 64 k) =
        x86Merge .w64 old (f.effective next m truncated) ↔
      k = 0 ∧ (truncated = true → (f.sum next m).toNat < 2 ^ 32)) ∧
    (x86Merge .w32 kept (f.sum next m + BitVec.ofNat 64 k) =
        x86Merge .w32 old (f.effective next m truncated) ↔ k = 0) ∧
    (x86Merge .w16 (kept + BitVec.ofNat 64 j) (f.sum next m + BitVec.ofNat 64 k) =
        x86Merge .w16 old (f.effective next m truncated) ↔
      k = 0 ∧ old.extractLsb' 16 48 = kept.extractLsb' 16 48) := by
  refine ⟨add_ofNat_eq_effective m f next truncated hk, ?_, ?_⟩
  · refine (zeroExtended_eq_iff _ _).trans ?_
    rw [effective_setWidth m f next truncated (Nat.le_refl 32)]
    exact setWidth_add_ofNat _ (by decide) (hk.trans (by decide))
  · rw [x86Merge_word_eq, effective_setWidth m f next truncated (by decide),
      setWidth_add_ofNat _ (by decide) hk]
    constructor
    · rintro ⟨rfl, hkept⟩
      cases Nat.le_zero.mp hj
      rw [BitVec.add_zero] at hkept
      exact ⟨rfl, hkept.symm⟩
    · rintro ⟨rfl, hkept⟩
      cases Nat.le_zero.mp hj
      rw [BitVec.add_zero]
      exact ⟨rfl, hkept.symm⟩

/-- What a `lea` leaves whose last uop adds on whole words. -/
theorem lea_whole_iff (f : X86Address) (next old : W64) (truncated : Bool) {k : Nat}
    (hk : k < 2 ^ 16) :
    (f.sum next m + BitVec.ofNat 64 k = x86Merge .w64 old (f.effective next m truncated) ↔
      k = 0 ∧ (truncated = true → (f.sum next m).toNat < 2 ^ 32)) ∧
    (f.sum next m + BitVec.ofNat 64 k = x86Merge .w32 old (f.effective next m truncated) ↔
      k = 0 ∧ (f.sum next m).toNat < 2 ^ 32) ∧
    (f.sum next m + BitVec.ofNat 64 k = x86Merge .w16 old (f.effective next m truncated) ↔
      k = 0 ∧ old.extractLsb' 16 48 = (f.sum next m).extractLsb' 16 48) := by
  refine ⟨add_ofNat_eq_effective m f next truncated hk, ?_, ?_⟩
  · rw [x86Merge, effective_setWidth m f next truncated (Nat.le_refl 32)]
    exact add_ofNat_eq_truncated _ (hk.trans (by decide))
  · have hmerged := (lea_merged_iff m f next (f.sum next m) old truncated (Nat.le_refl k) hk).2.2
    rw [x86Merge_word_self] at hmerged
    exact hmerged

/-- `lea` leaves what it should. -/
theorem lea_right_iff {f : X86Address} (hwell : f.WellFormed) (rd : Gpr) :
    (∃ m', runUops left d.rip ((AddressUse.lea rd).uops d h f.operand) m = some (m', d.rip) ∧
        (AddressUse.lea rd).Right d h m f.operand f m') ↔
      (AddressUse.lea rd).Fits d h left m f := by
  have ⟨m1, _, _, hdata, hrun⟩ := runs_addressOnly (h.context d) left [] m (.gpr rd)
    (f.operand_wellFormed hwell) false h.vSize (by rintro ⟨⟩) rfl
  have hj := carriesBefore_le left [] (f.operand.addressOnly (h.context d) false h.vSize (.gpr rd))
  have hk := carries_lt left (f.operand.addressOnly_length (h.context d) false h.vSize
    (.gpr rd))
  rw [uops, exists_run_iff d left m hrun, Right, hdata, Fits, uops, MemOperand.addressOnlyValue,
    f.operand_sum m hwell (h.context d)]
  generalize carries left [] (f.operand.addressOnly (h.context d) false h.vSize (.gpr rd)) = k
    at hj hk
  generalize carriesBefore left []
    (f.operand.addressOnly (h.context d) false h.vSize (.gpr rd)) = j at hj
  change _ = _ ↔ k = 0 ∧ _
  have hzero : ∀ x : W64, 0 + x = x := BitVec.zero_add
  rw [if_neg Bool.false_ne_true, hzero, hzero]
  have hwhole := lea_whole_iff m f d.rip (m.data (.gpr rd)) h.truncates hk
  have hmerged := fun added => lea_merged_iff m f d.rip (m.data f.operand.basereg.archReg + added)
    (m.data (.gpr rd)) h.truncates hj hk
  cases hrel : f.ripRelative with
  | true =>
      rw [if_pos (f.operand_basereg.mpr hrel), kept, if_pos hrel]
      cases hsize : h.vSize with
      | w64 => exact hwhole.1
      | w32 => exact hwhole.2.1.trans (by simp)
      | w16 => exact hwhole.2.2
      | w8 => exact absurd hsize h.vSize_ne
  | false =>
      have hrip : f.operand.basereg ≠ .rip := fun hrip => by
        rw [f.operand_basereg.mp hrip] at hrel
        cases hrel
      rw [if_neg hrip, kept, hrel, if_neg Bool.false_ne_true]
      cases hsize : h.vSize with
      | w64 => exact (hmerged 0).1
      | w32 => exact (hmerged 0).2.1.trans (by simp)
      | w16 => exact (hmerged _).2.2
      | w8 => exact absurd hsize h.vSize_ne

end AddressUse

namespace InsnHead
variable (d : TraceDecoder) (h : InsnHead) (left : Nat → Leftover) (m : Machine)

/-- The decoder takes the bytes of the operand, and its uops make of it what x86 says. -/
def AddressRight (use : AddressUse) (bytes : List Byte) : Prop :=
  match h.eformMem bytes, h.x86Address bytes with
  | none, none => True
  | some (a, rest), some (f, rest') =>
      rest = rest' ∧ ∃ m', runUops left d.rip (use.uops d h a) m = some (m', d.rip) ∧
        use.Right d h m a f m'
  | _, _ => False

/-- The address is right exactly when nothing is carried and no cut is missed. -/
theorem addressRight_iff (hmem : h.modrm.mod ≠ 3) (use : AddressUse) (bytes : List Byte) :
    h.AddressRight d left m use bytes ↔
      ∀ f rest, h.x86Address bytes = some (f, rest) → use.Fits d h left m f := by
  rw [AddressRight, h.eformMem_eq hmem]
  cases hform : h.x86Address bytes with
  | none => exact iff_of_true trivial fun _ _ hsome => by cases hsome
  | some r =>
      obtain ⟨f, rest⟩ := r
      have hwell := h.x86Address_wellFormed hform
      have hright : (∃ m', runUops left d.rip (use.uops d h f.operand) m = some (m', d.rip) ∧
          use.Right d h m f.operand f m') ↔ use.Fits d h left m f := by
        cases use with
        | access size => exact AddressUse.access_right_iff d h left m hwell size
        | lea rd => exact AddressUse.lea_right_iff d h left m hwell rd
      constructor
      · rintro ⟨-, hrun⟩ f' rest' heq
        cases heq
        exact hright.mp hrun
      · intro hfits
        exact ⟨rfl, hright.mpr (hfits f rest rfl)⟩

/-- `8a /r`, a load of a byte, with a ModRM byte and no prefix. -/
def loadByte (use64 : Bool) (modrm : Byte) : InsnHead where
  use64 := use64
  prefixes := {}
  opsizePrefix := false
  addrsizePrefix := false
  op := 0x8a
  modrm := ModRMByte.ofByte modrm

end InsnHead

def TraceDecoder.plain (use64 : Bool) : TraceDecoder where
  use64 := use64
  dirflag := false
  splitUnalignedMemops := false
  lastFlagsUpdateWasAtomic := true
  segmentOffset := fun _ => 0
  rip := 0x1000

def Machine.zeros : Machine where
  regs := fun _ => 0
  flags := fun _ => .clear
  memory := fun _ => 0

def Leftover.quiet : Leftover where
  carry := false
  result := 0
  flags := .clear

namespace InsnHead

theorem addressRight_base : (loadByte true 0).AddressRight (.plain true) (fun _ => .quiet) .zeros
    (.access .w8) [] := by
  refine (addressRight_iff _ _ _ _ (by decide) _ _).mpr fun f rest hform => ?_
  cases hform
  exact ⟨rfl, fun htrunc => by cases htrunc⟩

/-- In 32-bit mode `[eax - 1]` is the last address of 64 bits where `eax` is zero. -/
theorem addressRight_wraps : ¬(loadByte false 0x40).AddressRight (.plain false)
    (fun _ => .quiet) .zeros (.access .w8) [0xff] := by
  rintro ⟨-, m', hrun, hright⟩
  cases hrun
  have hwrapped : (0xffffffffffffffff : W64) = 0xffffffff := hright
  exact absurd hwrapped (by decide)

end InsnHead
end FeS2.Decoder
