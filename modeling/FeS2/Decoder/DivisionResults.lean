import FeS2.Decoder.HostDivision
import FeS2.Decoder.LongDivision

/-!
What the divide uops compute: quotient and remainder of what they take for the dividend and
the divisor, cut to the size. For single bytes the dividend is a byte.
-/

namespace FeS2.Decoder
variable {n : Nat}

/-- A register value as a division of this kind reads it. -/
def value (signed : Bool) (x : BitVec n) : Int := if signed then x.toInt else x.toNat

/-- The dividend of a uop. -/
def uopDividend (signed : Bool) (size : Size) (ra rc : W64) : Int :=
  if size = .w8 then value signed (ra.setWidth 8)
  else value signed (rc.setWidth size.bits) * 2 ^ size.bits + (ra.setWidth size.bits).toNat

theorem setWidth_eq_ofInt (x : W64) (hn : n ≤ 64) : x.setWidth n = BitVec.ofInt n x.toInt := by
  rw [← BitVec.signExtend_eq_setWidth_of_le x hn]
  rfl

/-! Up to four bytes -/

theorem dividendU_toNat (ra rc : BitVec n) (hn : 2 * n ≤ 64) :
    (dividendU ra rc).toNat = if n = 8 then ra.toNat else rc.toNat * 2 ^ n + ra.toNat := by
  have hra := ra.isLt
  have hrc := rc.isLt
  have hword : 2 ^ n ≤ 2 ^ 64 := Nat.pow_le_pow_right (by decide) (by omega)
  have hpair : rc.toNat * 2 ^ n + ra.toNat < 2 ^ 64 := by
    have hsq : 2 ^ n * 2 ^ n ≤ 2 ^ 64 := by
      rw [← Nat.pow_add]
      exact Nat.pow_le_pow_right (by decide) (by omega)
    have hstep : (rc.toNat + 1) * 2 ^ n ≤ 2 ^ n * 2 ^ n := Nat.mul_le_mul_right _ hrc
    rw [Nat.succ_mul] at hstep
    omega
  rw [dividendU]
  split
  · rw [BitVec.toNat_setWidth, Nat.mod_eq_of_lt (by omega)]
  · rw [BitVec.toNat_add, BitVec.toNat_shiftLeft, BitVec.toNat_setWidth, BitVec.toNat_setWidth,
      Nat.shiftLeft_eq, Nat.mod_eq_of_lt (by omega : rc.toNat < 2 ^ 64),
      Nat.mod_eq_of_lt (by omega : ra.toNat < 2 ^ 64),
      Nat.mod_eq_of_lt (by omega : rc.toNat * 2 ^ n < 2 ^ 64), Nat.mod_eq_of_lt hpair]

theorem divopU_spec {result : BitVec n → BitVec n → BitVec n} (rd ra : BitVec n) {rb : BitVec n}
    (rc : BitVec n) (hn : n ≤ 64) (hne : rb.toNat ≠ 0) :
    divopU result rd ra rb rc =
      some (result (BitVec.ofInt n (((dividendU ra rc).toNat : Int).tdiv rb.toNat))
        (BitVec.ofInt n (((dividendU ra rc).toNat : Int).tmod rb.toNat))) := by
  have hword : 2 ^ n ≤ 2 ^ 64 := Nat.pow_le_pow_right (by decide) hn
  have hrb := rb.isLt
  have hdivisor : (rb.setWidth 64).toNat = rb.toNat := by
    rw [BitVec.toNat_setWidth, Nat.mod_eq_of_lt (by omega)]
  have hguard : (rb.setWidth 64 : W64) ≠ 0 := by
    intro hzero
    rw [hzero] at hdivisor
    exact hne hdivisor.symm
  have hquotient : (dividendU ra rc / rb.setWidth 64).setWidth n =
      BitVec.ofInt n (((dividendU ra rc).toNat : Int).tdiv rb.toNat) := by
    rw [← BitVec.ofNat_toNat, BitVec.toNat_udiv, hdivisor, ← BitVec.ofInt_natCast]
    rfl
  have hremainder : (dividendU ra rc % rb.setWidth 64).setWidth n =
      BitVec.ofInt n (((dividendU ra rc).toNat : Int).tmod rb.toNat) := by
    rw [← BitVec.ofNat_toNat, BitVec.toNat_umod, hdivisor, ← BitVec.ofInt_natCast]
    rfl
  rw [divopU]
  dsimp only
  rw [if_pos hguard, hostDiv, if_neg hguard, Option.map_some, hquotient, hremainder]

/-- The guard lets every divisor but zero through. -/
theorem signExtend_ne_bitmask (x : BitVec n) (hpos : 0 < n) (hn : n < 64) :
    x.signExtend 64 ≠ bitmask n := by
  intro heq
  have hpow : 2 * 2 ^ n ≤ 2 ^ 64 := by
    rw [← Nat.pow_succ']
    exact Nat.pow_le_pow_right (by decide) (by omega)
  have htwo : 2 ^ 1 ≤ 2 ^ n := Nat.pow_le_pow_right (by decide) hpos
  have hmask : (bitmask n).toNat = 2 ^ n - 1 := by
    have hone : (1 : W64).toNat = 1 := rfl
    rw [bitmask, if_neg (by omega), BitVec.toNat_sub, BitVec.toNat_shiftLeft, Nat.shiftLeft_eq,
      hone]
    omega
  have hint := BitVec.toInt_eq_toNat_cond (bitmask n)
  rw [hmask, if_pos (by omega), ← heq, BitVec.toInt_signExtend_of_le hn.le] at hint
  have hlt := BitVec.two_mul_toInt_lt (x := x)
  have hcast : ((2 ^ n : Nat) : Int) = 2 ^ n := Nat.cast_pow 2 n
  omega

theorem divopS_spec {result : BitVec n → BitVec n → BitVec n} (rd : BitVec n) {ra rb rc : BitVec n}
    (hpos : 0 < n) (hn : 2 * n ≤ 64) (hne : rb.toInt ≠ 0)
    (htrap : ¬ ((dividendS ra rc).toInt = -2 ^ 63 ∧ rb.toInt = -1)) :
    divopS result rd ra rb rc =
      some (result (BitVec.ofInt n ((dividendS ra rc).toInt.tdiv rb.toInt))
        (BitVec.ofInt n ((dividendS ra rc).toInt.tmod rb.toInt))) := by
  have hdivisor : (rb.signExtend 64).toInt = rb.toInt := BitVec.toInt_signExtend_of_le (by omega)
  have hmin : (BitVec.intMin 64).toInt = -2 ^ 63 := by decide
  have hone : (-1 : W64).toInt = -1 := rfl
  have hzero : rb.signExtend 64 ≠ 0 := by
    intro hzero
    rw [hzero] at hdivisor
    exact hne hdivisor.symm
  have hsafe : ¬ (dividendS ra rc = BitVec.intMin 64 ∧ rb.signExtend 64 = -1) := by
    rintro ⟨hdividend, hminus⟩
    rw [hminus] at hdivisor
    exact htrap ⟨by rw [hdividend, hmin], hdivisor.symm.trans hone⟩
  have hquotient : ((dividendS ra rc).sdiv (rb.signExtend 64)).setWidth n =
      BitVec.ofInt n ((dividendS ra rc).toInt.tdiv rb.toInt) := by
    rw [setWidth_eq_ofInt _ (by omega), BitVec.toInt_sdiv_of_ne_or_ne _ _
      (not_and_or.mp hsafe), hdivisor]
  have hremainder : ((dividendS ra rc).srem (rb.signExtend 64)).setWidth n =
      BitVec.ofInt n ((dividendS ra rc).toInt.tmod rb.toInt) := by
    rw [setWidth_eq_ofInt _ (by omega), BitVec.toInt_srem, hdivisor]
  have hguard := signExtend_ne_bitmask rb hpos (by omega)
  rw [divopS]
  dsimp only
  rw [signext64_eq rb hpos (by omega), if_pos ⟨hzero, fun h => hguard h.2⟩, hostIdiv,
    if_neg (not_or.mpr ⟨hzero, hsafe⟩), Option.map_some, hquotient, hremainder]

/-! Eight bytes -/

theorem divopU64_spec {result : W64 → W64 → W64} (rd : W64) {ra rb rc : W64} (hne : rb.toNat ≠ 0)
    (hfits : rc.toNat * 2 ^ 64 + ra.toNat < rb.toNat * 2 ^ 64) :
    divopU64 result rd ra rb rc =
      result (BitVec.ofInt 64 (((rc.toNat * 2 ^ 64 + ra.toNat : Nat) : Int).tdiv rb.toNat))
        (BitVec.ofInt 64 (((rc.toNat * 2 ^ 64 + ra.toNat : Nat) : Int).tmod rb.toNat)) := by
  have hguard : rb ≠ 0 := fun h => hne (congrArg BitVec.toNat h)
  have hdiv := longDiv_spec { lo := ra, hi := rc } (Nat.pos_of_ne_zero hne) hfits
  rw [W128.toNat] at hdiv
  dsimp only at hdiv
  rw [divopU64, if_pos hguard]
  dsimp only
  congr 1
  · rw [← Int.ofNat_tdiv, BitVec.ofInt_natCast, ← hdiv.1, BitVec.ofNat_toNat, BitVec.setWidth_eq]
  · rw [← Int.ofNat_tmod, BitVec.ofInt_natCast, ← hdiv.2, BitVec.ofNat_toNat, BitVec.setWidth_eq]

theorem divopS64_spec {result : W64 → W64 → W64} (rd : W64) {ra rb rc : W64} (hne : rb.toInt ≠ 0)
    (hfits : (rc.toInt * 2 ^ 64 + ra.toNat).natAbs < rb.toInt.natAbs * 2 ^ 64) :
    divopS64 result rd ra rb rc =
      result (BitVec.ofInt 64 ((rc.toInt * 2 ^ 64 + ra.toNat).tdiv rb.toInt))
        (BitVec.ofInt 64 ((rc.toInt * 2 ^ 64 + ra.toNat).tmod rb.toInt)) := by
  have hzero : rb ≠ 0 := fun h => hne (congrArg BitVec.toInt h)
  have hguard : ¬ (rb = -1 ∧ rc = 0x8000000000000000 ∧ ra = 0) := by
    rintro ⟨rfl, rfl, rfl⟩
    exact absurd hfits (by decide)
  have hdiv := longIdiv_spec { lo := ra, hi := rc } rb hfits
  rw [W128.toInt] at hdiv
  dsimp only at hdiv
  rw [divopS64, if_pos ⟨hzero, hguard⟩]
  dsimp only
  rw [hdiv.1, hdiv.2]

/-! The uops -/

namespace DivOp

/-- Where the quotient is no larger than twice the size allows, the results are those of the
division, cut to the size. -/
theorem eval_spec {op : DivOp} {size : Size} (result : W64) {ra rb rc : W64} {dividend d : Int}
    (hn : uopDividend op.signed size ra rc = dividend)
    (hd : value op.signed (rb.setWidth size.bits) = d) (hne : d ≠ 0)
    (hfits : dividend.natAbs < d.natAbs * 2 ^ size.bits) :
    op.eval size result ra rb rc =
      some (x86Merge size ra ((op.result (BitVec.ofInt size.bits (dividend.tdiv d))
        (BitVec.ofInt size.bits (dividend.tmod d))).setWidth 64)) := by
  subst hn hd
  by_cases hsize : size = .w64
  · subst hsize
    have hmerge : ∀ x : BitVec 64, x86Merge .w64 ra (x.setWidth 64) = x := BitVec.setWidth_eq
    cases hsigned : op.signed with
    | false =>
        rw [hsigned] at hne hfits
        have hrun : op.eval .w64 result ra rb rc = some (divopU64 op.result result ra rb rc) := by
          rw [eval, hsigned]
          rfl
        have hdividend : uopDividend false .w64 ra rc = (rc.toNat * 2 ^ 64 + ra.toNat : Nat) := by
          simp [uopDividend, value, Size.bits]
        have hdivisor : value false (rb.setWidth Size.w64.bits) = rb.toNat := by
          simp [value, Size.bits]
        rw [hdividend, hdivisor] at hfits
        rw [hdivisor] at hne
        rw [hrun, hdividend, hdivisor, divopU64_spec result (by omega) (by exact_mod_cast hfits)]
        exact congrArg some (hmerge _).symm
    | true =>
        rw [hsigned] at hne hfits
        have hrun : op.eval .w64 result ra rb rc = some (divopS64 op.result result ra rb rc) := by
          rw [eval, hsigned]
          rfl
        have hdividend : uopDividend true .w64 ra rc = rc.toInt * 2 ^ 64 + ra.toNat := by
          simp [uopDividend, value, Size.bits]
        have hdivisor : value true (rb.setWidth Size.w64.bits) = rb.toInt := by
          simp [value, Size.bits]
        rw [hdividend, hdivisor] at hfits
        rw [hdivisor] at hne
        rw [hrun, hdividend, hdivisor, divopS64_spec result hne hfits]
        exact congrArg some (hmerge _).symm
  · have hpos : 0 < size.bits := by cases size <;> decide
    have hbits : 2 * size.bits ≤ 64 := by cases size <;> first | decide | contradiction
    rw [eval_narrow _ _ _ _ _ hsize]
    cases hsigned : op.signed with
    | false =>
        rw [hsigned] at hne
        have hdividend : ((dividendU (ra.setWidth size.bits) (rc.setWidth size.bits)).toNat : Int) =
            uopDividend false size ra rc := by
          rw [dividendU_toNat _ _ hbits, uopDividend]
          cases size <;> simp [value, Size.bits]
        have hdivisor : (rb.setWidth size.bits).toNat ≠ 0 := fun h => hne (congrArg Int.ofNat h)
        rw [if_neg (by decide), divopU_spec _ _ _ (by omega) hdivisor, hdividend]
        rfl
    | true =>
        rw [hsigned] at hne hfits
        have hdividend : (dividendS (ra.setWidth size.bits) (rc.setWidth size.bits)).toInt =
            uopDividend true size ra rc := by
          rw [toInt_dividendS _ _ hpos hbits, uopDividend]
          cases size <;> simp [value, Size.bits]
        rw [if_pos rfl, divopS_spec _ hpos hbits hne, hdividend]
        · rfl
        · rintro ⟨hmin, hone⟩
          have hword : 2 ^ size.bits ≤ 2 ^ 32 := Nat.pow_le_pow_right (by decide) (by omega)
          have hvalue : value true (rb.setWidth size.bits) = -1 := hone
          rw [hvalue, ← hdividend, hmin, Int.natAbs_neg, Int.natAbs_neg, Int.natAbs_one,
            Nat.one_mul] at hfits
          omega

/-- The guards keep a zero divisor from the division. -/
theorem eval_zero (op : DivOp) {size : Size} (result ra : W64) {rb : W64} (rc : W64)
    (hzero : rb.setWidth size.bits = 0) :
    op.eval size result ra rb rc =
      some (x86Merge size ra ((result.setWidth size.bits).setWidth 64)) := by
  by_cases hsize : size = .w64
  · subst hsize
    have hrb : rb = 0 := (BitVec.setWidth_eq rb).symm.trans hzero
    have hS : divopS64 op.result result ra rb rc = result := by
      rw [divopS64, if_neg fun h => h.1 hrb]
    have hU : divopU64 op.result result ra rb rc = result := by
      rw [divopU64, if_neg fun h => h hrb]
    have heval : op.eval .w64 result ra rb rc = some result := by
      rw [eval, hS, hU, ite_self]
    rw [heval]
    exact congrArg some (BitVec.setWidth_eq result).symm
  · have hpos : 0 < size.bits := by cases size <;> decide
    have hbits : size.bits ≤ 64 := by cases size <;> decide
    have hS : divopS op.result (result.setWidth size.bits) (ra.setWidth size.bits) 0
        (rc.setWidth size.bits) = some (result.setWidth size.bits) := by
      rw [divopS]
      dsimp only
      have hextend : (0 : BitVec size.bits).signExtend 64 = 0 := by
        rw [BitVec.signExtend, BitVec.ofNat_eq_ofNat, BitVec.toInt_zero]
        rfl
      rw [signext64_eq _ hpos hbits, hextend, if_neg fun h => h.1 rfl]
    have hU : divopU op.result (result.setWidth size.bits) (ra.setWidth size.bits) 0
        (rc.setWidth size.bits) = some (result.setWidth size.bits) := by
      rw [divopU]
      dsimp only
      rw [if_neg fun h => h (by simp)]
    rw [eval_narrow _ _ _ _ _ hsize, hzero, hS, hU, ite_self]
    rfl

end DivOp
end FeS2.Decoder
