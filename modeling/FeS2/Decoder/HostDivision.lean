import Mathlib.Tactic.Linarith
import Mathlib.Tactic.Positivity
import FeS2.Decoder.Division

/-!
The divisions done on the host. Their operands are the x86 ones as long as two of them fit
into a word. The guard of the signed ones compares the sign-extended divisor with a mask
that is not extended, so the one pair of operands it is for gets past it.
-/

namespace FeS2.Decoder
variable {n : Nat}

theorem signext64_eq (x : BitVec n) (hpos : 0 < n) (hn : n ≤ 64) :
    signext64 (x.setWidth 64) n = x.signExtend 64 := by
  apply BitVec.eq_of_getLsbD_eq
  intro i hi
  rw [signext64, BitVec.getLsbD_sshiftRight, BitVec.getLsbD_signExtend, BitVec.msb_eq_getLsbD_last,
    BitVec.msb_eq_getLsbD_last]
  simp only [BitVec.getLsbD_shiftLeft, BitVec.getLsbD_setWidth]
  by_cases hin : i < n
  · have h1 : 64 - n + i < 64 := by omega
    have h2 : ¬ 64 - n + i < 64 - n := by omega
    have h3 : 64 - n + i - (64 - n) = i := by omega
    simp [h1, h3, hi, hin]
  · have h1 : ¬ 64 - n + i < 64 := by omega
    have h2 : ¬ 64 - 1 < 64 - n := by omega
    have h3 : 64 - 1 - (64 - n) = n - 1 := by omega
    simp [h1, h3, hi, hin]
    rw [decide_eq_false (by omega : ¬ 64 ≤ i), decide_eq_false (by omega : ¬ 63 < 64 - n),
      decide_eq_true (by omega : n - 1 < 64)]
    rfl

theorem toInt_dividend (ra rc : BitVec n) (hpos : 0 < n) (hn : 2 * n ≤ 64) :
    ((rc.signExtend 64 <<< n) + ra.setWidth 64).toInt = rc.toInt * 2 ^ n + ra.toNat := by
  have hra := ra.isLt
  have hlo := BitVec.le_toInt rc
  have hhi := BitVec.toInt_lt (x := rc)
  have htwo : (BitVec.twoPow 64 n).toInt = 2 ^ n := by
    rw [BitVec.toInt_twoPow, if_neg (by omega), if_neg (by omega)]
  rw [BitVec.shiftLeft_eq_mul_twoPow, BitVec.toInt_add, BitVec.toInt_mul,
    BitVec.toInt_signExtend_of_le (by omega : n ≤ 64), htwo, BitVec.toInt_setWidth]
  simp only [Int.bmod_add_bmod, Int.add_bmod_bmod]
  obtain ⟨m, rfl⟩ := Nat.exists_eq_add_one_of_ne_zero (Nat.pos_iff_ne_zero.mp hpos)
  have hsq : (2 : Int) ^ m * 2 ^ (m + 1) ≤ 2 ^ 63 := by
    rw [← pow_add]
    exact pow_le_pow_right₀ (by decide) (by omega)
  rw [Nat.add_sub_cancel] at hlo hhi
  have hra' : (ra.toNat : Int) < 2 ^ (m + 1) := by exact_mod_cast hra
  have hstep : (2 : Int) ^ (m + 1) > 0 := by positivity
  refine Int.bmod_eq_of_le ?_ ?_
  · have := Int.mul_le_mul_of_nonneg_right hlo hstep.le
    rw [Int.neg_mul] at this
    omega
  · have := Int.mul_le_mul_of_nonneg_right (Int.le_sub_one_of_lt hhi) hstep.le
    rw [Int.sub_mul] at this
    omega

theorem toInt_dividendS (ra rc : BitVec n) (hpos : 0 < n) (hn : 2 * n ≤ 64) :
    (dividendS ra rc).toInt = if n = 8 then ra.toInt else rc.toInt * 2 ^ n + ra.toNat := by
  rw [dividendS]
  split
  · rename_i heq
    subst heq
    rw [signext64_eq ra (by decide) (by decide), BitVec.toInt_signExtend_of_le (by decide)]
  · rw [signext64_eq rc hpos (by omega), toInt_dividend ra rc hpos hn]

theorem bitmask_ne (hn : n < 64) : bitmask n ≠ -1 := by
  intro heq
  rw [bitmask, if_neg (by omega)] at heq
  have hzero : ∀ x : W64, -1 = x - 1 → x = 0 := fun x hx => by bv_omega
  have hone : (1 : W64) <<< n = 0 := hzero _ heq.symm
  have hpow : 2 ^ n < 2 ^ 64 := Nat.pow_lt_pow_right (by decide) hn
  have hnat := congrArg BitVec.toNat hone
  rw [BitVec.toNat_shiftLeft, Nat.shiftLeft_eq] at hnat
  have hbase : (1 : W64).toNat = 1 := rfl
  rw [hbase, Nat.one_mul, Nat.mod_eq_of_lt hpow] at hnat
  exact absurd hnat (Nat.two_pow_pos n).ne'

theorem signExtend_eq_neg_one (x : BitVec n) (hn : n ≤ 64) :
    x.signExtend 64 = -1 ↔ x.toInt = -1 := by
  rw [← BitVec.toInt_inj, BitVec.toInt_signExtend_of_le hn]
  exact Iff.rfl

/-- The guard of the signed divisions is of no use. -/
theorem divopS_eq_none {result : BitVec n → BitVec n → BitVec n} (rd ra rb rc : BitVec n)
    (hpos : 0 < n) (hn : 2 * n ≤ 64) :
    divopS result rd ra rb rc = none ↔ dividendS ra rc = BitVec.intMin 64 ∧ rb.toInt = -1 := by
  have hdivisor := signext64_eq rb hpos (by omega)
  rw [← signExtend_eq_neg_one rb (by omega), divopS]
  dsimp only
  rw [hdivisor]
  constructor
  · intro hnone
    split at hnone
    · rename_i hguard
      rw [Option.map_eq_none_iff, hostIdiv, ite_eq_left_iff] at hnone
      by_contra hnot
      exact absurd (hnone fun h => h.elim hguard.1 hnot) (by simp)
    · cases hnone
  · rintro ⟨hdividend, hone⟩
    have hmask : rb.signExtend 64 ≠ bitmask n := fun heq => bitmask_ne (by omega) (heq ▸ hone)
    rw [if_pos ⟨by rw [hone]; decide, fun h => hmask h.2⟩, Option.map_eq_none_iff, hostIdiv,
      if_pos (.inr ⟨hdividend, hone⟩)]

theorem divopU_isSome {result : BitVec n → BitVec n → BitVec n} (rd ra rb rc : BitVec n) :
    (divopU result rd ra rb rc).isSome := by
  rw [divopU]
  dsimp only
  split
  · rename_i hne
    rw [Option.isSome_map, hostDiv, if_neg hne]
    rfl
  · rfl

namespace DivOp

theorem toInt_eq_min_iff (ra rc : BitVec 32) :
    rc.toInt * 2 ^ 32 + ra.toNat = -2 ^ 63 ↔ rc = BitVec.intMin 32 ∧ ra = 0 := by
  have hlo := BitVec.le_toInt rc
  have hra := ra.isLt
  rw [← BitVec.toInt_inj, ← BitVec.toNat_inj]
  have hmin : (BitVec.intMin 32).toInt = -2 ^ 31 := by decide
  have hzero : (0 : BitVec 32).toNat = 0 := rfl
  rw [hmin, hzero]
  omega

theorem eval_narrow (op : DivOp) {size : Size} (rd ra rb rc : W64) (hsize : size ≠ .w64) :
    op.eval size rd ra rb rc = (if op.signed
      then divopS op.result (rd.setWidth size.bits) (ra.setWidth size.bits) (rb.setWidth size.bits)
        (rc.setWidth size.bits)
      else divopU op.result (rd.setWidth size.bits) (ra.setWidth size.bits) (rb.setWidth size.bits)
        (rc.setWidth size.bits)).map fun rt => x86Merge size ra (rt.setWidth 64) := by
  cases size <;> first | rfl | contradiction

/-- A signed division traps when its dividend is the most negative word and its divisor -1. -/
theorem eval_isSome {op : DivOp} {size : Size} (rd ra rb rc : W64) (hsize : size ≠ .w64) :
    (op.eval size rd ra rb rc).isSome ↔ ¬ (op.signed ∧
      (dividendS (ra.setWidth size.bits) (rc.setWidth size.bits)).toInt = -2 ^ 63 ∧
        (rb.setWidth size.bits).toInt = -1) := by
  have hpos : 0 < size.bits := by cases size <;> decide
  have hbits : 2 * size.bits ≤ 64 := by cases size <;> first | decide | contradiction
  have hmin : (BitVec.intMin 64).toInt = -2 ^ 63 := by decide
  rw [eval_narrow _ _ _ _ _ hsize, Option.isSome_map]
  by_cases hsigned : op.signed
  · rw [if_pos hsigned, Option.isSome_iff_ne_none, Ne, divopS_eq_none _ _ _ _ hpos hbits,
      ← BitVec.toInt_inj, hmin]
    simp [hsigned]
  · rw [if_neg hsigned]
    exact iff_of_true (divopU_isSome _ _ _ _) fun h => hsigned h.1

/-- Only the signed four-byte division of the most negative dividend by -1 traps. -/
theorem traps_iff (op : DivOp) (size : Size) (rd ra rb rc : W64) :
    (op.eval size rd ra rb rc).isSome ↔
      ¬ (size = .w32 ∧ op.signed ∧ rc.setWidth 32 = BitVec.intMin 32 ∧
        ra.setWidth 32 = (0 : BitVec 32) ∧ rb.setWidth 32 = (-1 : BitVec 32)) := by
  have hone : ∀ x : BitVec 32, x.toInt = -1 ↔ x = -1 := fun x => by
    rw [← BitVec.toInt_inj]
    exact Iff.rfl
  cases size with
  | w64 => exact iff_of_true rfl fun h => by cases h.1
  | w8 =>
      rw [eval_isSome _ _ _ _ (by decide), toInt_dividendS _ _ (by decide) (by decide),
        if_pos (by decide)]
      refine iff_of_true (fun h => ?_) fun h => by cases h.1
      have hlo := BitVec.le_toInt (ra.setWidth 8)
      have hdividend : (ra.setWidth 8).toInt = -2 ^ 63 := h.2.1
      omega
  | w16 =>
      rw [eval_isSome _ _ _ _ (by decide), toInt_dividendS _ _ (by decide) (by decide),
        if_neg (by decide)]
      refine iff_of_true (fun h => ?_) fun h => by cases h.1
      have hlo := BitVec.le_toInt (rc.setWidth 16)
      have hdividend : (rc.setWidth 16).toInt * 2 ^ 16 + (ra.setWidth 16).toNat = -2 ^ 63 := h.2.1
      omega
  | w32 =>
      rw [eval_isSome _ _ _ _ (by decide), toInt_dividendS _ _ (by decide) (by decide),
        if_neg (by decide), ← hone]
      have hmin := toInt_eq_min_iff (ra.setWidth 32) (rc.setWidth 32)
      refine not_congr ⟨fun h => ?_, fun h => ?_⟩
      · obtain ⟨hrc, hra⟩ := hmin.mp h.2.1
        exact ⟨rfl, h.1, hrc, hra, h.2.2⟩
      · exact ⟨h.2.1, hmin.mpr ⟨h.2.2.1, h.2.2.2.1⟩, h.2.2.2.2⟩

/-- The guard does not see the pair it is for. -/
theorem divr_traps : DivOp.divr.eval .w32 0 0 0xFFFFFFFF 0x80000000 = none := by decide

end DivOp
end FeS2.Decoder
