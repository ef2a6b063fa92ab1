import FeS2.Decoder.DivisionUops

/-!
When `div` and `idiv` leave quotient and remainder. The word form always does. The wider signed
forms do but for `rdx` as their operand; the byte form does where the byte it divides is worth
the whole dividend, and for the high end of a register only by coincidence.
-/

namespace FeS2.Decoder
variable {signed : Bool} {size : Size}

/-- The three conditions leave one quotient and one remainder. -/
theorem divides_iff {n d q r : Int} (hne : d ≠ 0) :
    Divides n d q r ↔ q = n.tdiv d ∧ r = n.tmod d := by
  constructor
  · intro h
    have heq := h.equation
    have hsmall := h.small
    have hsign := h.sign
    rw [Int.mul_comm] at heq
    by_cases hn : 0 ≤ n
    · have hr : 0 ≤ r := by
        by_contra hneg
        have hrsign := Int.sign_eq_neg_one_of_neg (Int.not_le.mp hneg)
        have hnsign : n.sign = -1 := hrsign ▸ (hsign.resolve_left (by omega)).symm
        exact absurd (Int.neg_of_sign_eq_neg_one hnsign) (Int.not_lt.mpr hn)
      have hunique := (Int.tdiv_tmod_unique (a := n) (q := q) (r := r) hn hne).mpr
        ⟨by omega, hr, by omega⟩
      exact ⟨hunique.1.symm, hunique.2.symm⟩
    · have hr : r ≤ 0 := by
        by_contra hpos
        have hrsign := Int.sign_eq_one_of_pos (Int.not_le.mp hpos)
        have hnsign : n.sign = 1 := hrsign ▸ (hsign.resolve_left (by omega)).symm
        exact hn (Int.pos_of_sign_eq_one hnsign).le
      have hunique := (Int.tdiv_tmod_unique' (a := n) (q := q) (r := r) (by omega) hne).mpr
        ⟨by omega, by omega, hr⟩
      exact ⟨hunique.1.symm, hunique.2.symm⟩
  · rintro ⟨rfl, rfl⟩
    refine ⟨(Int.tdiv_mul_add_tmod n d).symm, ?_, ?_⟩
    · rw [Int.natAbs_tmod]
      exact Nat.mod_lt _ (Int.natAbs_pos.mpr hne)
    · rw [Int.sign_tmod]
      by_cases hdvd : d ∣ n
      · exact .inl (Int.tmod_eq_zero_of_dvd hdvd)
      · exact .inr (if_neg hdvd)

theorem x86Merge_low (ra : W64) (y : BitVec size.bits) :
    (x86Merge size ra (y.setWidth 64)).setWidth size.bits = y := by
  rw [x86Merge_setWidth, BitVec.setWidth_setWidth_of_le _ size.bits_le, BitVec.setWidth_eq]

/-! Values that fit -/

theorem Representable.value_eq {q : Int} (h : Representable signed size q) :
    value signed (BitVec.ofInt size.bits q) = q := by
  have hpos := size.bits_pos
  cases signed with
  | false =>
      obtain ⟨hlo, hhi⟩ := h
      have hnat : ((BitVec.ofInt size.bits q).toNat : Int) = q % (2 ^ size.bits : Nat) := by
        rw [BitVec.toNat_ofInt, Int.toNat_of_nonneg (Int.emod_nonneg _ (by positivity))]
      have hcast : ((2 ^ size.bits : Nat) : Int) = 2 ^ size.bits := by push_cast; rfl
      exact hnat.trans (Int.emod_eq_of_lt hlo (hcast ▸ hhi))
  | true =>
      obtain ⟨hlo, hhi⟩ := h
      exact BitVec.toInt_ofInt_eq_self hpos hlo hhi

theorem Representable.natAbs_lt {q : Int} (h : Representable signed size q) :
    q.natAbs < 2 ^ size.bits := by
  have hcast : ((2 ^ size.bits : Nat) : Int) = 2 ^ size.bits := Nat.cast_pow 2 _
  cases signed with
  | false =>
      obtain ⟨hlo, hhi⟩ := h
      omega
  | true =>
      obtain ⟨hlo, hhi⟩ := h
      have htwo : (2 : Int) ^ size.bits = 2 * 2 ^ (size.bits - 1) := by
        rw [← pow_succ', Nat.sub_add_cancel (size.bits_pos)]
      have hpos : (0 : Int) < 2 ^ (size.bits - 1) := by positivity
      omega

theorem Representable.fits {n d : Int} (hne : d ≠ 0) (h : Representable signed size (n.tdiv d)) :
    n.natAbs < d.natAbs * 2 ^ size.bits := by
  have hsmall := h.natAbs_lt
  rw [Int.natAbs_tdiv] at hsmall
  rw [Nat.mul_comm]
  exact (Nat.div_lt_iff_lt_mul (Int.natAbs_pos.mpr hne)).mp hsmall

theorem value_tmod (signed : Bool) {n : Int} (y : BitVec size.bits) (hne : value signed y ≠ 0)
    (hn : signed = false → 0 ≤ n) :
    value signed (BitVec.ofInt size.bits (n.tmod (value signed y))) = n.tmod (value signed y) := by
  apply Representable.value_eq
  have hsmall : (n.tmod (value signed y)).natAbs < (value signed y).natAbs := by
    rw [Int.natAbs_tmod]
    exact Nat.mod_lt _ (Int.natAbs_pos.mpr hne)
  cases signed with
  | false =>
      have hnonneg := Int.tmod_nonneg (value false y) (hn rfl)
      have hy : value false y = (y.toNat : Int) := rfl
      have hlt := y.isLt
      have hcast : ((2 ^ size.bits : Nat) : Int) = 2 ^ size.bits := Nat.cast_pow 2 _
      exact ⟨hnonneg, by omega⟩
  | true =>
      have hlo : -2 ^ (size.bits - 1) ≤ value true y := BitVec.le_toInt y
      have hhi : value true y < 2 ^ (size.bits - 1) := BitVec.toInt_lt
      exact ⟨by omega, by omega⟩

/-! The two uops -/

/-- What the uops divide by: the low end of the register, whatever the operand. -/
def uopDivisor (signed : Bool) (src : DivOperand size) (m : Machine) : Int :=
  value signed ((m.data src.srcreg).setWidth size.bits)

section
variable {n d : Int}

theorem remainder_eval (left ra : W64) {rb : W64} (rc : W64) (hn : uopDividend signed size ra rc = n)
    (hd : value signed (rb.setWidth size.bits) = d) (hne : d ≠ 0)
    (hfits : n.natAbs < d.natAbs * 2 ^ size.bits) :
    ∃ x, (remainderop signed).eval size left ra rb rc = some x ∧
      x.setWidth size.bits = BitVec.ofInt size.bits (n.tmod d) := by
  have hop : (remainderop signed).signed = signed := by cases signed <;> rfl
  have hresult : (remainderop signed).result (BitVec.ofInt size.bits (n.tdiv d))
      (BitVec.ofInt size.bits (n.tmod d)) = BitVec.ofInt size.bits (n.tmod d) := by
    cases signed <;> rfl
  refine ⟨_, DivOp.eval_spec left (hop.symm ▸ hn) (hop.symm ▸ hd) hne hfits, ?_⟩
  rw [x86Merge_low, hresult]

theorem quotient_eval (left ra : W64) {rb : W64} (rc : W64) (hn : uopDividend signed size ra rc = n)
    (hd : value signed (rb.setWidth size.bits) = d) (hne : d ≠ 0)
    (hfits : n.natAbs < d.natAbs * 2 ^ size.bits) :
    ∃ x, (quotientop signed).eval size left ra rb rc = some x ∧
      x.setWidth size.bits = BitVec.ofInt size.bits (n.tdiv d) := by
  have hop : (quotientop signed).signed = signed := by cases signed <;> rfl
  have hresult : (quotientop signed).result (BitVec.ofInt size.bits (n.tdiv d))
      (BitVec.ofInt size.bits (n.tmod d)) = BitVec.ofInt size.bits (n.tdiv d) := by
    cases signed <;> rfl
  refine ⟨_, DivOp.eval_spec left (hop.symm ▸ hn) (hop.symm ▸ hd) hne hfits, ?_⟩
  rw [x86Merge_low, hresult]

theorem zero_eval (op : DivOp) (left ra : W64) {rb : W64} (rc : W64) (hd : value signed (rb.setWidth size.bits) = 0) :
    ∃ x, op.eval size left ra rb rc = some x ∧ x.setWidth size.bits = left.setWidth size.bits := by
  have hzero : rb.setWidth size.bits = 0 := by
    cases signed with
    | false => exact BitVec.eq_of_toNat_eq (Int.ofNat_inj.mp hd)
    | true => exact BitVec.eq_of_toInt_eq (hd.trans BitVec.toInt_zero.symm)
  exact ⟨_, op.eval_zero left ra rc hzero, x86Merge_low ra _⟩

end

/-! Runs of the uops -/

section
variable {src : DivOperand size} {m : Machine}

theorem right_iff {left : Nat → Leftover} {next : W64} {q r : Int}
    (hrun : ∃ m', runUops left next (divUops signed size src.srcreg) m = some (m', next) ∧
      quotientOut signed m' size = q ∧ remainderOut signed m' size = r) :
    (∃ m', runUops left next (divUops signed size src.srcreg) m = some (m', next) ∧
      Divides (dividend signed m size) (divisor signed src m) (quotientOut signed m' size)
        (remainderOut signed m' size)) ↔
      Divides (dividend signed m size) (divisor signed src m) q r := by
  obtain ⟨m', hrun, rfl, rfl⟩ := hrun
  constructor
  · rintro ⟨m'', hrun', h⟩
    rw [hrun] at hrun'
    cases hrun'
    exact h
  · intro h
    exact ⟨m', hrun, h⟩

/-- Every uop finds the same word left over. -/
def leaves (x : W64) : Nat → Leftover := fun _ => { carry := false, result := x, flags := .clear }

/-- A quotient that is whatever was left over is not always the right one. -/
theorem not_right_of_leftover (hne : divisor signed src m ≠ 0)
    (hrun : ∀ x, ∃ m' r, runUops (leaves x) 0 (divUops signed size src.srcreg) m = some (m', 0) ∧
      quotientOut signed m' size = value signed (x.setWidth size.bits) ∧
        remainderOut signed m' size = r) : ¬ DividesRight signed src m := by
  intro hright
  have hquotient : ∀ x : W64, value signed (x.setWidth size.bits) =
      (dividend signed m size).tdiv (divisor signed src m) := by
    intro x
    obtain ⟨m', r, hrun, hq, hr⟩ := hrun x
    exact ((divides_iff hne).mp ((right_iff ⟨m', hrun, hq, hr⟩).mp (hright (leaves x) 0))).1
  have hdiffer : value signed ((0 : W64).setWidth size.bits) ≠
      value signed ((1 : W64).setWidth size.bits) := by
    cases signed <;> cases size <;> decide
  exact hdiffer ((hquotient 0).trans (hquotient 1).symm)

/-! Two, four and eight bytes -/

theorem divisor_eq (hsize : size ≠ .w8) : divisor signed src m = uopDivisor signed src m := by
  cases src with
  | reg r => rfl
  | high r => exact absurd rfl hsize
  | mem => rfl

theorem dividend_eq (signed : Bool) (m : Machine) (hsize : size ≠ .w8) : dividend signed m size =
    uopDividend signed size (m.data (.gpr .rax)) (m.data (.gpr .rdx)) := if_neg hsize

theorem dividend_nonneg (m : Machine) (size : Size) (h : signed = false) :
    0 ≤ dividend signed m size := by
  subst h
  rw [dividend, uopDividend]
  split
  · exact Int.natCast_nonneg _
  · exact Int.add_nonneg (Int.mul_nonneg (Int.natCast_nonneg _) (by positivity))
      (Int.natCast_nonneg _)

theorem right_of_pair (hsize : size ≠ .w8) (hrdx : size = .w16 ∨ src.srcreg ≠ .gpr .rdx)
    (hne : divisor signed src m ≠ 0)
    (hrep : Representable signed size ((dividend signed m size).tdiv (divisor signed src m))) :
    DividesRight signed src m := by
  intro left next
  have hn := (dividend_eq signed m hsize).symm
  have hd : value signed ((m.data src.srcreg).setWidth size.bits) = divisor signed src m :=
    (divisor_eq hsize).symm
  have hfits := hrep.fits hne
  have hremainder := value_tmod signed _ (hd.symm ▸ hne) (dividend_nonneg m size)
  rw [hd] at hremainder
  have hout := (divides_iff hne).mpr ⟨hrep.value_eq, hremainder⟩
  by_cases hword : size = .w16
  · subst hword
    obtain ⟨r, hr, hrlow⟩ := remainder_eval (left 2).result _ _ hn hd hne hfits
    obtain ⟨q, hq, hqlow⟩ := quotient_eval (left 1).result _ _ hn hd hne hfits
    obtain ⟨m', hrun, hquot, hrem⟩ := run_words left next m src hr hq
    exact (right_iff ⟨m', hrun, hquot.trans (congrArg (value signed) hqlow),
      hrem.trans (congrArg (value signed) hrlow)⟩).mpr hout
  · have hsrc : src.srcreg ≠ .gpr .rdx := hrdx.resolve_left hword
    obtain ⟨r, hr, hrlow⟩ := remainder_eval (left 1).result _ _ hn hd hne hfits
    obtain ⟨q, hq, hqlow⟩ := quotient_eval (left 0).result _ _ hn hd hne hfits
    obtain ⟨m', hrun, hquot, hrem⟩ := run_wide left next src m ⟨hsize, hword⟩ hr
      (by rwa [if_neg hsrc])
    exact (right_iff ⟨m', hrun, hquot.trans (congrArg (value signed) hqlow),
      hrem.trans (congrArg (value signed) hrlow)⟩).mpr hout

/-- Divided by its upper half a pair leaves more than a half, unless that is negative. -/
theorem le_tdiv_by_high {high : Int} (low b : Nat) (hpos : 0 < high) :
    2 ^ b ≤ (high * 2 ^ b + low).tdiv high := by
  have hpair : high * 2 ^ b ≤ high * 2 ^ b + low := by omega
  have hnonneg : 0 ≤ high * 2 ^ b := Int.mul_nonneg hpos.le (by positivity)
  rw [Int.tdiv_eq_ediv_of_nonneg (by omega)]
  refine Int.le_ediv_of_mul_le hpos ?_
  rwa [Int.mul_comm]

theorem eq_neg_one_of_high {high : Int} {low b : Nat} (hb : 0 < b) (hlow : (low : Int) < 2 ^ b)
    (hne : high ≠ 0) (hlt : (high * 2 ^ b + low).tdiv high < 2 ^ (b - 1)) : high = -1 := by
  have htwo : (2 : Int) ^ b = 2 * 2 ^ (b - 1) := by rw [← pow_succ', Nat.sub_add_cancel hb]
  have hword : (0 : Int) < 2 ^ (b - 1) := by positivity
  have hneg : high < 0 := by
    by_contra hpos
    have hle := le_tdiv_by_high low b (by omega : 0 < high)
    omega
  rw [← Int.neg_tdiv_neg, Int.tdiv_eq_ediv_of_nonneg (by nlinarith),
    Int.ediv_lt_iff_lt_mul (by omega)] at hlt
  rw [htwo] at hlt hlow
  by_contra hone
  have hdouble := Int.mul_le_mul_of_nonneg_left (by omega : 2 ≤ -high) hword.le
  linarith

/-- The quotient uop divides by the remainder, which is zero. -/
theorem not_right_of_rdx (hsize : size ≠ .w8 ∧ size ≠ .w16) (hsigned : signed = true)
    (hsrc : src.srcreg = .gpr .rdx) (hne : divisor signed src m ≠ 0)
    (hrep : Representable signed size ((dividend signed m size).tdiv (divisor signed src m))) :
    ¬ DividesRight signed src m := by
  apply not_right_of_leftover hne
  intro x
  have hn := (dividend_eq signed m hsize.1).symm
  have hd : value signed ((m.data src.srcreg).setWidth size.bits) = divisor signed src m :=
    (divisor_eq hsize.1).symm
  have hhigh : uopDivisor signed src m = value signed ((m.data (.gpr .rdx)).setWidth size.bits) := by
    rw [uopDivisor, hsrc]
  have hone : divisor signed src m = -1 := by
    have hlt := hrep
    rw [dividend_eq _ _ hsize.1, uopDividend, if_neg hsize.1, divisor_eq hsize.1, hhigh,
      hsigned] at hlt
    rw [divisor_eq hsize.1, hhigh] at hne ⊢
    rw [hsigned] at hne ⊢
    exact eq_neg_one_of_high (size.bits_pos) (by exact_mod_cast BitVec.isLt _) hne hlt.2
  obtain ⟨r, hr, hrlow⟩ := remainder_eval x _ _ hn hd hne (hrep.fits hne)
  have hzero : value signed (r.setWidth size.bits) = 0 := by
    rw [hrlow, hone, Int.tmod_neg, Int.tmod_one]
    cases signed <;> cases size <;> rfl
  obtain ⟨q, hq, hqlow⟩ := zero_eval (quotientop signed) x (m.data (.gpr .rax))
    (m.data (.gpr .rdx)) hzero
  obtain ⟨m', hrun, hquot, hrem⟩ := run_wide (leaves x) 0 src m hsize hr (by rwa [if_pos hsrc])
  exact ⟨m', _, hrun, hquot.trans (congrArg (value signed) hqlow), hrem⟩

/-- Unsigned, no quotient by the upper half of the pair fits. -/
theorem not_representable_by_rdx (hsize : size ≠ .w8) (hsigned : signed = false)
    (hsrc : src.srcreg = .gpr .rdx) (hne : divisor signed src m ≠ 0) :
    ¬ Representable signed size ((dividend signed m size).tdiv (divisor signed src m)) := by
  subst hsigned
  have hhigh : uopDivisor false src m = value false ((m.data (.gpr .rdx)).setWidth size.bits) := by
    rw [uopDivisor, hsrc]
  rw [divisor_eq hsize, hhigh] at hne ⊢
  rw [dividend_eq _ _ hsize, uopDividend, if_neg hsize]
  intro hrep
  have hnonneg : 0 ≤ value false ((m.data (.gpr .rdx)).setWidth size.bits) := Int.natCast_nonneg _
  have hle := le_tdiv_by_high ((m.data (.gpr .rax)).setWidth size.bits).toNat size.bits
    (lt_of_le_of_ne hnonneg hne.symm)
  exact absurd hrep.2 (Int.not_lt.mpr hle)

/-! Single bytes -/

/-- The byte that the uops divide. -/
def byteDividend (signed : Bool) (m : Machine) : Int :=
  value signed ((m.data (.gpr .rax)).setWidth 8)

theorem natAbs_byteDividend (signed : Bool) (m : Machine) :
    (byteDividend signed m).natAbs < 2 ^ 8 := by
  rw [byteDividend]
  generalize (m.data (.gpr .rax)).setWidth 8 = x
  cases signed with
  | false =>
      have hlt := x.isLt
      have hvalue : value false x = (x.toNat : Int) := rfl
      omega
  | true =>
      have hlo := BitVec.le_toInt x
      have hhi := BitVec.toInt_lt (x := x)
      have hvalue : value true x = x.toInt := rfl
      omega

theorem right_bytes_iff {src : DivOperand .w8} (hne : divisor signed src m ≠ 0) :
    DividesRight signed src m ↔ uopDivisor signed src m ≠ 0 ∧
      value signed (BitVec.ofInt 8 ((byteDividend signed m).tdiv (uopDivisor signed src m))) =
        (dividend signed m .w8).tdiv (divisor signed src m) ∧
      (byteDividend signed m).tmod (uopDivisor signed src m) =
        (dividend signed m .w8).tmod (divisor signed src m) := by
  by_cases hzero : uopDivisor signed src m = 0
  · refine iff_of_false (not_right_of_leftover hne fun x => ?_) fun h => h.1 hzero
    obtain ⟨r, hr, hrlow⟩ := zero_eval (remainderop signed) x (m.data (.gpr .rax)) 0 hzero
    obtain ⟨q, hq, hqlow⟩ := zero_eval (quotientop signed) x (m.data (.gpr .rax)) 0 hzero
    obtain ⟨m', hrun, hquot, hrem⟩ := run_bytes (leaves x) 0 m src hr hq
    exact ⟨m', _, hrun, hquot.trans (congrArg (value signed) hqlow), hrem⟩
  · have hfits : (byteDividend signed m).natAbs < (uopDivisor signed src m).natAbs * 2 ^ 8 := by
      have hbyte := natAbs_byteDividend signed m
      have hle := Nat.mul_le_mul_right (2 ^ 8) (Int.natAbs_pos.mpr hzero)
      omega
    have hremainder := value_tmod signed (n := byteDividend signed m)
      ((m.data src.srcreg).setWidth Size.w8.bits) hzero (by
        rintro rfl
        exact Int.natCast_nonneg _)
    have hleft : ∀ left next, (∃ m', runUops left next (divUops signed .w8 src.srcreg) m =
        some (m', next) ∧ Divides (dividend signed m .w8) (divisor signed src m)
          (quotientOut signed m' .w8) (remainderOut signed m' .w8)) ↔
        Divides (dividend signed m .w8) (divisor signed src m)
          (value signed (BitVec.ofInt 8 ((byteDividend signed m).tdiv (uopDivisor signed src m))))
          ((byteDividend signed m).tmod (uopDivisor signed src m)) := by
      intro left next
      obtain ⟨r, hr, hrlow⟩ := remainder_eval (left 2).result (m.data (.gpr .rax)) 0
        (rfl : uopDividend signed .w8 _ 0 = byteDividend signed m) (rfl : _ = uopDivisor signed src m) hzero hfits
      obtain ⟨q, hq, hqlow⟩ := quotient_eval (left 1).result (m.data (.gpr .rax)) 0
        (rfl : uopDividend signed .w8 _ 0 = byteDividend signed m) (rfl : _ = uopDivisor signed src m) hzero hfits
      obtain ⟨m', hrun, hquot, hrem⟩ := run_bytes left next m src hr hq
      exact right_iff ⟨m', hrun, hquot.trans (congrArg (value signed) hqlow),
        (hrem.trans (congrArg (value signed) hrlow)).trans hremainder⟩
    have hright : DividesRight signed src m ↔ Divides (dividend signed m .w8) (divisor signed src m)
        (value signed (BitVec.ofInt 8 ((byteDividend signed m).tdiv (uopDivisor signed src m))))
        ((byteDividend signed m).tmod (uopDivisor signed src m)) :=
      ⟨fun h => (hleft (leaves 0) 0).mp (h _ _), fun h left next => (hleft left next).mpr h⟩
    rw [hright, divides_iff hne]
    exact (and_iff_right hzero).symm

/-- The byte stands for all of `ax`, or its quotient by -1 for the one that is off by a byte. -/
def LowByteDivided (signed : Bool) {size : Size} (src : DivOperand size) (m : Machine) : Prop :=
  dividend signed m .w8 = byteDividend signed m ∨
    signed = true ∧ dividend signed m .w8 = 128 ∧ divisor signed src m = -1

/-- The byte divided by the low end of the register happens to give the same. -/
def HighByteAgrees (signed : Bool) {size : Size} (src : DivOperand size) (m : Machine) : Prop :=
  uopDivisor signed src m ≠ 0 ∧
    (256 : Int) ∣ (byteDividend signed m).tdiv (uopDivisor signed src m) -
      (dividend signed m .w8).tdiv (divisor signed src m) ∧
    (byteDividend signed m).tmod (uopDivisor signed src m) =
      (dividend signed m .w8).tmod (divisor signed src m)

theorem value_ofInt_eq_iff {x q : Int} (hrep : Representable signed .w8 q) :
    value signed (BitVec.ofInt 8 x) = q ↔ (256 : Int) ∣ x - q := by
  have hvalue : value signed (BitVec.ofInt 8 q) = q := hrep.value_eq
  have hnat : ∀ z : Int, ((BitVec.ofInt 8 z).toNat : Int) = z % 256 := by
    intro z
    rw [BitVec.toNat_ofInt, Int.toNat_of_nonneg (Int.emod_nonneg _ (by decide))]
    rfl
  constructor
  · intro heq
    have hsame : BitVec.ofInt 8 x = BitVec.ofInt 8 q := by
      cases signed with
      | false => exact BitVec.eq_of_toNat_eq (Int.ofNat_inj.mp (heq.trans hvalue.symm))
      | true => exact BitVec.eq_of_toInt_eq (heq.trans hvalue.symm)
    have hx := hnat x
    rw [hsame, hnat q] at hx
    omega
  · intro hdvd
    have hsame : BitVec.ofInt 8 x = BitVec.ofInt 8 q := by
      have hx := hnat x
      have hq := hnat q
      exact BitVec.eq_of_toNat_eq (by omega)
    rw [hsame, hvalue]

theorem byteDividend_of_128 (h : dividend true m .w8 = 128) : byteDividend true m = -128 := by
  have hax : (m.data (.gpr .rax)).setWidth 16 = 128#16 := BitVec.eq_of_toInt_eq h
  have hal : (m.data (.gpr .rax)).setWidth 8 = ((m.data (.gpr .rax)).setWidth 16).setWidth 8 :=
    (BitVec.setWidth_setWidth_of_le _ (by decide)).symm
  rw [byteDividend, hal, hax]
  decide

theorem low_byte_iff {src : DivOperand .w8} (hne : divisor signed src m ≠ 0)
    (hrep : Representable signed .w8 ((dividend signed m .w8).tdiv (divisor signed src m))) :
    (value signed (BitVec.ofInt 8 ((byteDividend signed m).tdiv (divisor signed src m))) =
        (dividend signed m .w8).tdiv (divisor signed src m) ∧
      (byteDividend signed m).tmod (divisor signed src m) =
        (dividend signed m .w8).tmod (divisor signed src m)) ↔ LowByteDivided signed src m := by
  rw [value_ofInt_eq_iff hrep]
  constructor
  · rintro ⟨hdvd, hmod⟩
    have hn := Int.tdiv_mul_add_tmod (dividend signed m .w8) (divisor signed src m)
    have hb := Int.tdiv_mul_add_tmod (byteDividend signed m) (divisor signed src m)
    have hsmall := Int.natAbs_tdiv_le_natAbs (byteDividend signed m) (divisor signed src m)
    by_cases hquotient : (byteDividend signed m).tdiv (divisor signed src m) =
        (dividend signed m .w8).tdiv (divisor signed src m)
    · left
      rw [← hn, ← hb, hquotient, hmod]
    · right
      cases signed with
      | false =>
          have hlo : 0 ≤ (byteDividend false m).tdiv (divisor false src m) :=
            Int.tdiv_nonneg (Int.natCast_nonneg _) (Int.natCast_nonneg _)
          have hbyte := natAbs_byteDividend false m
          have hword : (dividend false m .w8).tdiv (divisor false src m) < 2 ^ 8 := hrep.2
          have hnonneg : 0 ≤ (dividend false m .w8).tdiv (divisor false src m) := hrep.1
          omega
      | true =>
          have hlo : -2 ^ 7 ≤ byteDividend true m := BitVec.le_toInt _
          have hhi : byteDividend true m < 2 ^ 7 := BitVec.toInt_lt
          have hqlo : -2 ^ 7 ≤ (dividend true m .w8).tdiv (divisor true src m) := hrep.1
          have hqhi : (dividend true m .w8).tdiv (divisor true src m) < 2 ^ 7 := hrep.2
          have hmin : byteDividend true m = -128 := by omega
          have hone : divisor true src m = -1 := by
            have hquot : (byteDividend true m).tdiv (divisor true src m) = 128 := by omega
            have hrem : ((byteDividend true m).tmod (divisor true src m)).natAbs <
                (divisor true src m).natAbs := by
              rw [Int.natAbs_tmod]
              exact Nat.mod_lt _ (Int.natAbs_pos.mpr hne)
            rw [hquot, hmin] at hb
            rw [hmin] at hrem
            omega
          refine ⟨rfl, ?_, hone⟩
          have hopposite : ∀ x : Int, x.tdiv (-1) = -x := fun x => by
            rw [Int.tdiv_neg, Int.tdiv_one]
          rw [hone, hopposite] at hqlo hqhi
          rw [hone, hopposite, hopposite, hmin] at hdvd hquotient
          omega
  · rintro (heq | ⟨rfl, hn, hd⟩)
    · rw [heq]
      exact ⟨⟨0, by omega⟩, rfl⟩
    · rw [byteDividend_of_128 hn, hn, hd]
      decide

/-! All forms -/

def DivOperand.isHigh : {size : Size} → DivOperand size → Bool
  | _, .high _ => true
  | _, _ => false

/-- When the uops leave the results of the division. -/
def DividesWhen (signed : Bool) (src : DivOperand size) (m : Machine) : Prop :=
  if size = .w8 then
    if src.isHigh then HighByteAgrees signed src m else LowByteDivided signed src m
  else ¬ (signed = true ∧ src.srcreg = .gpr .rdx ∧ size ≠ .w16)

theorem divisor_low {src : DivOperand .w8} (h : src.isHigh = false) :
    divisor signed src m = uopDivisor signed src m := by
  cases src with
  | reg r => rfl
  | high r => cases h
  | mem => rfl

theorem divides_right_iff (signed : Bool) (src : DivOperand size) (m : Machine)
    (hne : divisor signed src m ≠ 0)
    (hrep : Representable signed size ((dividend signed m size).tdiv (divisor signed src m))) :
    DividesRight signed src m ↔ DividesWhen signed src m := by
  rw [DividesWhen]
  by_cases hsize : size = .w8
  · subst hsize
    rw [if_pos rfl, right_bytes_iff hne]
    cases hhigh : src.isHigh with
    | true =>
        rw [if_pos rfl, HighByteAgrees, value_ofInt_eq_iff hrep]
    | false =>
        rw [if_neg (by decide), ← low_byte_iff hne hrep, divisor_low hhigh]
        exact and_iff_right (divisor_low hhigh ▸ hne)
  · rw [if_neg hsize]
    by_cases hrdx : size = .w16 ∨ src.srcreg ≠ .gpr .rdx
    · refine iff_of_true (right_of_pair hsize hrdx hne hrep) fun h => ?_
      exact hrdx.elim h.2.2 fun hsrc => hsrc h.2.1
    · have hsrc : src.srcreg = .gpr .rdx := not_not.mp fun h => hrdx (.inr h)
      have hword : size ≠ .w16 := fun h => hrdx (.inl h)
      cases hsigned : signed with
      | true =>
          subst hsigned
          exact iff_of_false (not_right_of_rdx ⟨hsize, hword⟩ rfl hsrc hne hrep)
            fun h => h ⟨rfl, hsrc, hword⟩
      | false =>
          subst hsigned
          exact absurd hrep (not_representable_by_rdx hsize rfl hsrc hne)

/-- A machine that differs from an empty one in the accumulator and the counter. -/
def withOperands (rax rcx : W64) : Machine where
  regs := fun r => if r = .gpr .rax then rax else if r = .gpr .rcx then rcx else 0
  flags := fun _ => .clear
  memory := fun _ => 0

/-- Seven by two, in four bytes. -/
theorem divides_right_seven_by_two :
    DividesRight false (.reg .rcx : DivOperand .w32) (withOperands 7 2) :=
  (divides_right_iff false (.reg .rcx) (withOperands 7 2) (by decide)
    ⟨by decide, by decide⟩).mpr (by
      rw [DividesWhen, if_neg (by decide)]
      exact fun h => absurd h.1 (by decide))

/-- 256 by two, in a byte: the quotient 128 fits, and the uops leave zero. -/
theorem byte_division_drops_ah : ¬ ∀ (signed : Bool) (size : Size) (src : DivOperand size)
    (m : Machine), divisor signed src m ≠ 0 →
      Representable signed size ((dividend signed m size).tdiv (divisor signed src m)) →
        DividesRight signed src m := by
  intro h
  have hright := h false .w8 (.reg .rcx) (withOperands 256 2) (by decide) ⟨by decide, by decide⟩
  have hquotient := ((right_bytes_iff (by decide)).mp hright).2.1
  exact absurd hquotient (by decide)

end
end FeS2.Decoder
