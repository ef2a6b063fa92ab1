import FeS2.Decoder.Extension

/-!
Masks whose control word is computed. Each of its fields is cut to what numbers the bits of the
size; on an operand of the size the mask puts `mc` bits of the other one from `ms` on.
-/

namespace FeS2.Decoder

theorem getLsbD_turned {n : Nat} (x : BitVec n) (r : Nat) {i : Nat} (hi : i < n) :
    (x.rotateRight r).getLsbD i = x.getLsbD ((i + r) % n) := by
  have hr : r % n < n := Nat.mod_lt _ (by omega)
  have hsum : (i + r) % n = (i + r % n) % n := by rw [Nat.add_mod_mod]
  rw [BitVec.getLsbD_rotateRight, hsum]
  by_cases hlow : i < n - r % n
  · have hsmall : (i + r % n) % n = r % n + i :=
      (Nat.mod_eq_of_lt (by omega)).trans (Nat.add_comm _ _)
    rw [decide_eq_true hlow, cond_true, hsmall]
  · have hwrap : (i + r % n) % n = i - (n - r % n) := by
      rw [Nat.mod_eq_sub_mod (by omega : n ≤ i + r % n), Nat.mod_eq_of_lt (by omega)]
      omega
    rw [decide_eq_false hlow, cond_false, decide_eq_true hi, Bool.true_and, hwrap]

/-! Fields -/

/-- One of the fields `[ms, mc, ds]` of a control word. -/
def controlField (rc : W64) (j : Nat) : Nat := (rc.extractLsb' (6 * j) 6).toNat

theorem Size.sizeshift_bits (size : Size) : 2 ^ (3 + size.sizeshift) = size.bits := by
  cases size <;> rfl

theorem controlField_cut (size : Size) (rc : W64) {j : Nat} (hj : j < 3) :
    controlField (size.maskControl rc) j = controlField rc j % size.bits := by
  have hbits : ∀ mask : W64, mask.extractLsb' (6 * j) 6 = BitVec.ofNat 6 (size.bits - 1) →
      controlField (rc &&& mask) j = controlField rc j % size.bits := by
    intro mask hmask
    have hand : (rc &&& mask).extractLsb' (6 * j) 6 =
        rc.extractLsb' (6 * j) 6 &&& mask.extractLsb' (6 * j) 6 := by
      apply BitVec.eq_of_getLsbD_eq
      intro i hi
      simp only [BitVec.getLsbD_extractLsb', BitVec.getLsbD_and, hi, decide_true, Bool.true_and]
    have hle := size.bits_le
    have hpos := size.bits_pos
    rw [controlField, controlField, hand, hmask, BitVec.toNat_and, BitVec.toNat_ofNat,
      Nat.mod_eq_of_lt (a := size.bits - 1) (by omega), ← size.sizeshift_bits,
      Nat.and_two_pow_sub_one_eq_mod]
  refine hbits _ ?_
  have hj' : j = 0 ∨ j = 1 ∨ j = 2 := by omega
  rcases hj' with rfl | rfl | rfl
  · cases size <;> rfl
  · cases size <;> rfl
  · cases size <;> rfl

/-! The mask on an operand -/

/-- The bits `ms` to `ms + mc` of `y` are those of `x`, turned by `ds`. -/
def joined {n : Nat} (ms mc ds : Nat) (y x : BitVec n) : BitVec n :=
  let m := ((bitmask mc).setWidth n).rotateRight ms
  (y &&& ~~~m) ||| (x.rotateRight ds &&& m)

theorem getLsbD_joined {n ms mc ds : Nat} (hn : n ≤ 64) (hmc : mc ≤ 64) (y x : BitVec n) {i : Nat}
    (hi : i < n) : (joined ms mc ds y x).getLsbD i =
      if (i + ms) % n < mc then x.getLsbD ((i + ds) % n) else y.getLsbD i := by
  have hlt : (i + ms) % n < n := Nat.mod_lt _ (by omega)
  have hm : (((bitmask mc).setWidth n).rotateRight ms).getLsbD i = decide ((i + ms) % n < mc) := by
    rw [getLsbD_turned _ _ hi, BitVec.getLsbD_setWidth, getLsbD_bitmask mc _ hmc (by omega),
      decide_eq_true hlt, Bool.true_and]
  unfold joined
  dsimp only
  rw [BitVec.getLsbD_or, BitVec.getLsbD_and, BitVec.getLsbD_and, BitVec.getLsbD_not, hm,
    getLsbD_turned _ _ hi, decide_eq_true hi]
  by_cases h : (i + ms) % n < mc
  · simp [h]
  · simp [h]

/-- With neither extension. -/
theorem expOpMask_joined (undefined : W64) (size : Size) (ra rb rc : W64) :
    (expOpMask undefined size .o ra rb rc).setWidth size.bits =
      joined (controlField rc 0 % size.bits) (controlField rc 1 % size.bits)
        (controlField rc 2 % size.bits) (ra.setWidth size.bits) (rb.setWidth size.bits) := by
  have hle := size.bits_le
  rw [← controlField_cut size rc (by decide), ← controlField_cut size rc (by decide),
    ← controlField_cut size rc (by decide)]
  have hrotr : ∀ (r : W64) k, (size.rotr r k).setWidth size.bits =
      (r.setWidth size.bits).rotateRight k := by
    intro r k
    rw [Size.rotr, BitVec.setWidth_setWidth_of_le _ hle, BitVec.setWidth_eq]
  have hnot : ∀ r : W64, (~~~r).setWidth size.bits = ~~~(r.setWidth size.bits) := by
    intro r
    exact BitVec.setWidth_not hle
  unfold expOpMask joined controlField
  dsimp only
  rw [BitVec.setWidth_or, BitVec.setWidth_and, BitVec.setWidth_and, hnot, hrotr, hrotr]

/-! Fields put together -/

/-- A field that a mask on whole words puts from bit `s` on. -/
theorem getLsbD_putField (ra rb : W64) {s i : Nat} (hs : s = 6 ∨ s = 12) (hi : i < 64) :
    (mask ra rb (MaskControlInfo.data
      { ms := BitVec.ofNat 6 (64 - s), mc := 6, ds := BitVec.ofNat 6 (64 - s) })).getLsbD i =
      if s ≤ i ∧ i < s + 6 then rb.getLsbD (i - s) else ra.getLsbD i := by
  have hbits : ∀ m : W64, (∀ k < 64, m.getLsbD k = decide (s ≤ k ∧ k < s + 6)) →
      ((ra &&& ~~~m) ||| (rb.rotateRight (64 - s) &&& m)).getLsbD i =
        if s ≤ i ∧ i < s + 6 then rb.getLsbD (i - s) else ra.getLsbD i := by
    intro m hm
    rw [getLsbD_mix _ _ _ hi, hm i hi, getLsbD_turned _ _ hi]
    by_cases hin : s ≤ i ∧ i < s + 6
    · have hwrap : (i + (64 - s)) % 64 = i - s := by omega
      rw [if_pos (decide_eq_true hin), if_pos hin, hwrap]
    · rw [if_neg (by simpa using hin), if_neg hin]
  cases hs with
  | inl hs =>
      subst hs
      exact hbits 0xFC0 (by decide)
  | inr hs =>
      subst hs
      exact hbits 0x3F000 (by decide)

end FeS2.Decoder
