import Mathlib.Tactic.Linarith
import Mathlib.Tactic.Ring
import FeS2.Decoder.Division

/-!
The division of a pair of words by a word. The divisor is moved left until it is larger
than the dividend, and then back one bit at a time. Where the quotient fits into a word it
is never moved out of the pair.
-/

namespace FeS2.Decoder

def W128.toNat (a : W128) : Nat := a.hi.toNat * 2 ^ 64 + a.lo.toNat

theorem longShl_toNat {a : W128} (h : a.toNat < 2 ^ 127) : (longShl a).toNat = 2 * a.toNat := by
  have hlo := a.lo.isLt
  rw [W128.toNat] at h
  have hcarry : a.lo.toNat / 2 ^ 63 < 2 ^ 1 := by omega
  have hor := Nat.two_pow_add_eq_or_of_lt hcarry (a.hi.toNat)
  have hhi : ((a.hi <<< 1) ||| (a.lo >>> 63)).toNat = 2 * a.hi.toNat + a.lo.toNat / 2 ^ 63 := by
    rw [BitVec.toNat_or, BitVec.toNat_shiftLeft, BitVec.toNat_ushiftRight, Nat.shiftLeft_eq,
      Nat.shiftRight_eq_div_pow, Nat.mod_eq_of_lt (by omega), Nat.mul_comm]
    exact hor.symm
  have hlo' : (a.lo <<< 1).toNat = 2 * a.lo.toNat % 2 ^ 64 := by
    rw [BitVec.toNat_shiftLeft, Nat.shiftLeft_eq, Nat.mul_comm]
  rw [W128.toNat, W128.toNat, longShl]
  dsimp only
  rw [hhi, hlo']
  omega

theorem longShl_succ_toNat {a : W128} (h : a.toNat < 2 ^ 127) :
    W128.toNat { longShl a with lo := (longShl a).lo + 1 } = 2 * a.toNat + 1 := by
  have hshl := longShl_toNat h
  have heven : ((longShl a).lo + 1).toNat = (longShl a).lo.toNat + 1 := by
    rw [longShl]
    bv_omega
  rw [W128.toNat] at hshl ⊢
  dsimp only
  rw [heven]
  omega

theorem longShr_toNat (a : W128) : (longShr a).toNat = a.toNat / 2 := by
  have hlo := a.lo.isLt
  have hhalf : a.lo.toNat / 2 < 2 ^ 63 := by omega
  have hor := Nat.two_pow_add_eq_or_of_lt hhalf (a.hi.toNat % 2)
  have hlo' : ((a.lo >>> 1) ||| (a.hi <<< 63)).toNat = 2 ^ 63 * (a.hi.toNat % 2) + a.lo.toNat / 2 := by
    rw [BitVec.toNat_or, BitVec.toNat_shiftLeft, BitVec.toNat_ushiftRight, Nat.shiftLeft_eq,
      Nat.shiftRight_eq_div_pow, Nat.or_comm, hor]
    congr 1
    omega
  have hhi : (a.hi >>> 1).toNat = a.hi.toNat / 2 := by
    rw [BitVec.toNat_ushiftRight, Nat.shiftRight_eq_div_pow]
  rw [W128.toNat, W128.toNat, longShr]
  dsimp only
  rw [hhi, hlo']
  omega

theorem longLe_iff (a b : W128) : longLe a b = true ↔ a.toNat ≤ b.toNat := by
  have ha := a.lo.isLt
  have hb := b.lo.isLt
  rw [W128.toNat, W128.toNat, longLe]
  split
  · rename_i heq
    rw [heq, decide_eq_true_iff, BitVec.le_def]
    omega
  · rename_i hne
    rw [decide_eq_true_iff, BitVec.le_def]
    have hne' : a.hi.toNat ≠ b.hi.toNat := fun h => hne (BitVec.eq_of_toNat_eq h)
    omega

theorem sub_toNat (a b : W64) :
    (a - b).toNat = if b.toNat ≤ a.toNat then a.toNat - b.toNat else a.toNat + 2 ^ 64 - b.toNat := by
  split <;> bv_omega

/-- The borrow is seen as long as the subtracted pair is not in the upper half. -/
theorem longSub_spec (a : W128) {b : W128} (hb : b.toNat < 2 ^ 127) :
    ((longSub a b).2 = true ↔ a.toNat < b.toNat) ∧
      (b.toNat ≤ a.toNat → (longSub a b).1.toNat = a.toNat - b.toNat) := by
  have halo := a.lo.isLt
  have hblo := b.lo.isLt
  have hlo := sub_toNat a.lo b.lo
  rw [W128.toNat] at hb
  have hcarry : (b.hi + if a.lo < a.lo - b.lo then 1 else 0).toNat =
      b.hi.toNat + if a.lo.toNat < b.lo.toNat then 1 else 0 := by
    have hone : (1 : W64).toNat = 1 := rfl
    have hiff : a.lo < a.lo - b.lo ↔ a.lo.toNat < b.lo.toNat := by
      rw [BitVec.lt_def, hlo]
      split <;> omega
    rw [BitVec.toNat_add]
    by_cases hlt : a.lo.toNat < b.lo.toNat
    · rw [if_pos (hiff.mpr hlt), if_pos hlt, hone]
      omega
    · rw [if_neg (hiff.not.mpr hlt), if_neg hlt]
      exact Nat.mod_eq_of_lt b.hi.isLt
  have hhi := sub_toNat a.hi (b.hi + if a.lo < a.lo - b.lo then 1 else 0)
  rw [hcarry] at hhi
  rw [W128.toNat, W128.toNat, W128.toNat, longSub]
  dsimp only
  rw [decide_eq_true_iff, BitVec.lt_def, hlo, hhi]
  have hahi := a.hi.isLt
  constructor
  · split <;> split <;> omega
  · intro hle
    by_cases hlt : a.lo.toNat < b.lo.toNat
    · rw [if_pos hlt, if_pos (by omega), if_neg (by omega)]
      omega
    · rw [if_neg hlt, if_pos (by omega), if_pos (by omega)]
      omega

/-! The loops -/

/-- The divisor comes to stand above the dividend, at most a word further left. -/
theorem longAlign_spec {acc : W128} {divisor : Nat} (hacc : acc.toNat < divisor * 2 ^ 64)
    (hdivisor : divisor < 2 ^ 64) {left n : Nat} {d : W128} (hd : d.toNat = divisor * 2 ^ n)
    (hn : n ≤ 64) (hleft : 64 < n + left) :
    (longAlign acc left d n).2 ≤ 64 ∧
      (longAlign acc left d n).1.toNat = divisor * 2 ^ (longAlign acc left d n).2 ∧
        acc.toNat < divisor * 2 ^ (longAlign acc left d n).2 := by
  induction left generalizing n d with
  | zero => omega
  | succ left ih =>
      rw [longAlign]
      by_cases hle : d.toNat ≤ acc.toNat
      · rw [if_pos ((longLe_iff d acc).mpr hle)]
        rw [hd] at hle
        have hpow : 2 ^ n < 2 ^ 64 := Nat.lt_of_mul_lt_mul_left (hle.trans_lt hacc)
        have hlt : n < 64 := (Nat.pow_lt_pow_iff_right (by decide : 1 < 2)).mp hpow
        have hsmall : divisor * 2 ^ n < 2 ^ 127 := by
          have htop : divisor * 2 ^ n < 2 ^ 64 * 2 ^ n := Nat.mul_lt_mul_of_pos_right hdivisor (Nat.two_pow_pos n)
          have hmax : 2 ^ 64 * 2 ^ n ≤ 2 ^ 127 := by
            rw [← Nat.pow_add]
            exact Nat.pow_le_pow_right (by decide) (by omega)
          omega
        refine ih ?_ hlt (by omega)
        rw [longShl_toNat (hd ▸ hsmall), hd, Nat.pow_succ, Nat.mul_left_comm, Nat.mul_comm 2]
      · rw [if_neg fun h => hle ((longLe_iff d acc).mp h)]
        exact ⟨hn, hd, hd ▸ Nat.lt_of_not_le hle⟩

/-- One turn of the second loop takes one bit of the quotient. -/
theorem longSteps_spec {divisor n : Nat} {d acc q : W128} (hd : d.toNat = divisor * 2 ^ n)
    (hdivisor : 0 < divisor) (hn : n ≤ 64) (hword : divisor < 2 ^ 64)
    (hacc : acc.toNat < divisor * 2 ^ n) (hq : (q.toNat + 1) * 2 ^ n ≤ 2 ^ 64) :
    (longSteps n d acc q).1.toNat = q.toNat * 2 ^ n + acc.toNat / divisor ∧
      (longSteps n d acc q).2.toNat = acc.toNat % divisor := by
  induction n generalizing d acc q with
  | zero =>
      have hrun : longSteps 0 d acc q = (q, acc) := rfl
      rw [Nat.pow_zero, Nat.mul_one] at hacc
      rw [hrun, Nat.div_eq_of_lt hacc, Nat.mod_eq_of_lt hacc]
      exact ⟨by rw [Nat.pow_zero, Nat.mul_one, Nat.add_zero], rfl⟩
  | succ n ih =>
      have hrun : longSteps (n + 1) d acc q =
          if (longSub acc (longShr d)).2 then longSteps n (longShr d) acc (longShl q)
          else longSteps n (longShr d) (longSub acc (longShr d)).1
            { longShl q with lo := (longShl q).lo + 1 } := rfl
      have hpow : 2 ^ (n + 1) = 2 * 2 ^ n := by rw [Nat.pow_succ, Nat.mul_comm]
      have hbound : 2 ^ n ≤ 2 ^ 63 := Nat.pow_le_pow_right (by decide) (by omega)
      have hd' : (longShr d).toNat = divisor * 2 ^ n := by
        rw [longShr_toNat, hd, hpow, Nat.mul_left_comm]
        omega
      have hq' : q.toNat < 2 ^ 63 := by
        have hone : (q.toNat + 1) * (2 * 1) ≤ (q.toNat + 1) * (2 * 2 ^ n) :=
          Nat.mul_le_mul_left _ (Nat.mul_le_mul_left 2 (Nat.two_pow_pos n))
        rw [hpow] at hq
        omega
      have hshl := longShl_toNat (a := q) (by omega)
      have hincr := longShl_succ_toNat (a := q) (by omega)
      rw [hpow] at hq hacc
      rw [Nat.mul_left_comm] at hacc
      have hsub := longSub_spec acc (b := longShr d) (by
        rw [hd']
        have htop : divisor * 2 ^ n < 2 ^ 64 * 2 ^ n :=
          Nat.mul_lt_mul_of_pos_right hword (Nat.two_pow_pos n)
        omega)
      rw [hd'] at hsub
      have hfirst : (2 * q.toNat + 1) * 2 ^ n ≤ (2 * q.toNat + 1 + 1) * 2 ^ n :=
        Nat.mul_le_mul_right _ (Nat.le_succ _)
      have hdouble : (2 * q.toNat + 1 + 1) * 2 ^ n = (q.toNat + 1) * (2 * 2 ^ n) := by ring
      have hexpand : (2 * q.toNat + 1) * 2 ^ n = q.toNat * (2 * 2 ^ n) + 2 ^ n := by ring
      rw [hrun, hpow]
      by_cases hlt : acc.toNat < divisor * 2 ^ n
      · rw [if_pos (hsub.1.mpr hlt)]
        have hrest := ih hd' (by omega) hlt (by rw [hshl]; omega)
        rw [hrest.1, hrest.2, hshl]
        exact ⟨by rw [Nat.mul_assoc, Nat.mul_left_comm], rfl⟩
      · rw [if_neg (hsub.1.not.mpr hlt)]
        have hle := Nat.le_of_not_lt hlt
        have hrest := ih hd' (by omega)
          (by rw [hsub.2 hle]; omega) (by rw [hincr]; omega)
        have hquot : 2 ^ n ≤ acc.toNat / divisor := (Nat.le_div_iff_mul_le hdivisor).mpr (Nat.mul_comm _ _ ▸ hle)
        rw [hrest.1, hrest.2, hsub.2 hle, hincr, Nat.sub_mul_div, Nat.sub_mul_mod hle]
        exact ⟨by omega, rfl⟩

/-- A quotient that fits into a word is the quotient. -/
theorem longDiv_spec (dividend : W128) {divisor : W64} (hpos : 0 < divisor.toNat)
    (hfits : dividend.toNat < divisor.toNat * 2 ^ 64) :
    (longDiv dividend divisor).1.lo.toNat = dividend.toNat / divisor.toNat ∧
      (longDiv dividend divisor).2.toNat = dividend.toNat % divisor.toNat := by
  have hstart : W128.toNat { lo := divisor, hi := 0 } = divisor.toNat * 2 ^ 0 := by
    have hhi : (0 : W64).toNat = 0 := rfl
    rw [W128.toNat]
    dsimp only
    rw [hhi, Nat.zero_mul, Nat.zero_add, Nat.pow_zero, Nat.mul_one]
  have hzero : W128.toNat { lo := 0, hi := 0 } = 0 := by decide
  have halign := longAlign_spec hfits divisor.isLt hstart (Nat.zero_le _) (by decide : 64 < 0 + 128)
  have hsteps := longSteps_spec (q := { lo := 0, hi := 0 }) halign.2.1 hpos halign.1 divisor.isLt
    halign.2.2 (by
      rw [hzero, Nat.zero_add, Nat.one_mul]
      exact Nat.pow_le_pow_right (by decide) halign.1)
  have hrun : longDiv dividend divisor =
      ((longSteps (longAlign dividend 128 { lo := divisor, hi := 0 } 0).2
        (longAlign dividend 128 { lo := divisor, hi := 0 } 0).1 dividend { lo := 0, hi := 0 }).1,
        (longSteps (longAlign dividend 128 { lo := divisor, hi := 0 } 0).2
          (longAlign dividend 128 { lo := divisor, hi := 0 } 0).1 dividend
            { lo := 0, hi := 0 }).2.lo) := rfl
  have hquotient : dividend.toNat / divisor.toNat < 2 ^ 64 :=
    Nat.div_lt_of_lt_mul hfits
  have hremainder := (Nat.mod_lt dividend.toNat hpos).trans divisor.isLt
  rw [hzero, Nat.zero_mul, Nat.zero_add] at hsteps
  rw [W128.toNat] at hsteps
  rw [hrun]
  dsimp only
  refine ⟨by omega, ?_⟩
  have hacc := hsteps.2
  rw [W128.toNat] at hacc
  omega

/-! The signs -/

def W128.toInt (a : W128) : Int := a.hi.toInt * 2 ^ 64 + a.lo.toNat

theorem longNeg_toNat (a : W128) : (longNeg a).toNat = (2 ^ 128 - a.toNat) % 2 ^ 128 := by
  have hlo := a.lo.isLt
  have hhi := a.hi.isLt
  rw [W128.toNat, W128.toNat, longNeg]
  dsimp only
  by_cases hzero : a.lo = 0
  · have hlt : a.lo < a.lo - 1 := by rw [hzero]; decide
    rw [if_pos hlt, hzero]
    bv_omega
  · have hlt : ¬ a.lo < a.lo - 1 := by bv_omega
    rw [if_neg hlt]
    bv_omega

/-- The pair is read with the sign of its upper word. -/
theorem W128.toInt_eq (a : W128) :
    a.toInt = if a.hi.slt 0 then -((longNeg a).toNat : Int) else (a.toNat : Int) := by
  have heq := BitVec.toInt_eq_toNat_cond a.hi
  have hlo := a.lo.isLt
  have hword := a.hi.isLt
  have hzero : (0 : W64).toInt = 0 := rfl
  rw [longNeg_toNat, W128.toNat, W128.toInt, BitVec.slt_eq_decide, hzero]
  by_cases hneg : a.hi.toInt < 0
  · rw [if_pos (decide_eq_true hneg)]
    split at heq <;> omega
  · rw [if_neg (by simpa using hneg)]
    split at heq <;> omega

theorem toInt_eq (d : W64) :
    d.toInt = if d.slt 0 then -((-d).toNat : Int) else (d.toNat : Int) := by
  have heq := BitVec.toInt_eq_toNat_cond d
  have hword := d.isLt
  have hzero : (0 : W64).toInt = 0 := rfl
  rw [BitVec.toNat_neg, BitVec.slt_eq_decide, hzero]
  by_cases hneg : d.toInt < 0
  · rw [if_pos (decide_eq_true hneg)]
    split at heq <;> omega
  · rw [if_neg (by simpa using hneg)]
    split at heq <;> omega

theorem signed_tdiv (s t : Bool) (a b : Nat) :
    (if s then -(a : Int) else a).tdiv (if t then -(b : Int) else b) =
      if s ^^ t then -((a / b : Nat) : Int) else (a / b : Nat) := by
  cases s <;> cases t <;> simp

theorem signed_tmod (s t : Bool) (a b : Nat) :
    (if s then -(a : Int) else a).tmod (if t then -(b : Int) else b) =
      if s then -((a % b : Nat) : Int) else (a % b : Nat) := by
  cases s <;> cases t <;> simp [Int.tmod_eq_emod_of_nonneg]

/-- Quotient and remainder of the magnitudes get their signs back. -/
theorem longIdiv_spec (dividend : W128) (divisor : W64)
    (hfits : dividend.toInt.natAbs < divisor.toInt.natAbs * 2 ^ 64) :
    (longIdiv dividend divisor).1.lo = BitVec.ofInt 64 (dividend.toInt.tdiv divisor.toInt) ∧
      (longIdiv dividend divisor).2 = BitVec.ofInt 64 (dividend.toInt.tmod divisor.toInt) := by
  have hdividend := dividend.toInt_eq
  have hdivisor := toInt_eq divisor
  rw [longIdiv]
  dsimp only
  generalize dividend.hi.slt 0 = s at hdividend ⊢
  generalize divisor.slt 0 = t at hdivisor ⊢
  have hn : dividend.toInt = if s then -((if s then longNeg dividend else dividend).toNat : Int)
      else (if s then longNeg dividend else dividend).toNat := by
    rw [hdividend]
    cases s <;> simp only [reduceIte, Bool.false_eq_true]
  have hd : divisor.toInt = if t then -((if t then -divisor else divisor).toNat : Int)
      else (if t then -divisor else divisor).toNat := by
    rw [hdivisor]
    cases t <;> simp only [reduceIte, Bool.false_eq_true]
  generalize (if s then longNeg dividend else dividend) = n at hn ⊢
  generalize (if t then -divisor else divisor) = d at hd ⊢
  have hnabs : dividend.toInt.natAbs = n.toNat := by
    rw [hn]
    cases s <;> simp
  have hdabs : divisor.toInt.natAbs = d.toNat := by
    rw [hd]
    cases t <;> simp
  rw [hnabs, hdabs] at hfits
  have hdiv := longDiv_spec n (by omega) hfits
  generalize longDiv n d = r at hdiv ⊢
  have hquotient : r.1.lo = BitVec.ofInt 64 (n.toNat / d.toNat : Nat) := by
    rw [← hdiv.1, BitVec.ofInt_natCast, BitVec.ofNat_toNat, BitVec.setWidth_eq]
  have hremainder : r.2 = BitVec.ofInt 64 (n.toNat % d.toNat : Nat) := by
    rw [← hdiv.2, BitVec.ofInt_natCast, BitVec.ofNat_toNat, BitVec.setWidth_eq]
  rw [hn, hd, signed_tdiv, signed_tmod]
  constructor
  · cases s ^^ t with
    | false => exact hquotient
    | true =>
        rw [if_pos rfl, if_pos rfl, BitVec.ofInt_neg, ← hquotient]
        rfl
  · cases s with
    | false => exact hremainder
    | true => rw [if_pos rfl, if_pos rfl, BitVec.ofInt_neg, ← hremainder]

end FeS2.Decoder
