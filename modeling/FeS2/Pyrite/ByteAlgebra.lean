import Mathlib.Algebra.Group.Nat.Defs
import FeS2.Pyrite.DoubleWord

/-!
Doublewords as partial maps from addresses to bytes: what `overlay` and
`writeValue` make of two maps, when `overlapMatches` holds, and what each
operation leaves of the mask. An overlay may reach past the end of the operand it
is laid on, as far as the word of that operand goes.
-/

namespace FeS2.Pyrite.DoubleWord

/-- `overlaps` with the sums of the machine, which wrap. -/
def overlapsW64 (dw other : DoubleWord) : Bool :=
  if other.address ≤ dw.address then (other.address + other.size) % 2 ^ 64 > dw.address
  else (dw.address + dw.size) % 2 ^ 64 > other.address

/-- `setAddress` for a word that has bytes already: their mask stays. -/
def setAddressOf (address size : Nat) (dw : DoubleWord) : DoubleWord × Nat :=
  let (fresh, overflow) := setAddress address size
  ({ fresh with bytemask := dw.bytemask }, overflow)

/-- The value has no bits outside of the mask. -/
def Masked (dw : DoubleWord) : Prop := dw.value &&& MASKS dw.bytemask = dw.value

instance (dw : DoubleWord) : Decidable dw.Masked := inferInstanceAs (Decidable (_ = _))

/-- An operand with its value: the mask is that of its size. -/
structure Valid (dw : DoubleWord) : Prop where
  size_le : dw.size ≤ 8
  fits : dw.address + dw.size < 2 ^ 64
  masked : dw.Masked
  full : dw.Full

/-- The address is one that the word of an operand can hold. -/
def InWord (dw : DoubleWord) (a : Nat) : Prop := dw.address ≤ a ∧ a < dw.address + 8

instance (dw : DoubleWord) (a : Nat) : Decidable (dw.InWord a) :=
  inferInstanceAs (Decidable (_ ∧ _))

/-- The two maps say the same of each address they share. -/
def Agree (dw other : DoubleWord) : Prop :=
  ∀ a x y, dw.byteAt a = some x → other.byteAt a = some y → x = y

theorem overlapsW64_eq {dw other : DoubleWord} (h : dw.address + dw.size < 2 ^ 64)
    (h' : other.address + other.size < 2 ^ 64) : dw.overlapsW64 other = dw.overlaps other := by
  unfold overlapsW64 overlaps
  rw [Nat.mod_eq_of_lt h, Nat.mod_eq_of_lt h']

/-! Words by their bytes -/

theorem eq_of_bytes {v w : BitVec 64} (h : ∀ i < 8, byte v i = byte w i) : v = w := by
  apply BitVec.eq_of_getLsbD_eq
  intro j hj
  have hbyte := congrArg (fun b => BitVec.getLsbD b (j % 8)) (h (j / 8) (by omega))
  simp only [getLsbD_byte _ _ (Nat.mod_lt j (by decide))] at hbyte
  rwa [show 8 * (j / 8) + j % 8 = j by omega] at hbyte

theorem byte_and_MASKS (v : BitVec 64) (m : BitVec 8) {i : Nat} (hi : i < 8) :
    byte (v &&& MASKS m) i = if m.getLsbD i then byte v i else 0 := by
  split
  · rename_i hm
    exact byte_mask v m hi hm
  · rename_i hm
    apply BitVec.eq_of_getLsbD_eq
    intro j hj
    rw [getLsbD_byte _ _ hj, BitVec.getLsbD_and, getLsbD_MASKS_byte m hi hj,
      Bool.eq_false_iff.mpr hm, Bool.and_false]
    exact BitVec.getLsbD_zero.symm

theorem masked_iff {dw : DoubleWord} :
    dw.Masked ↔ ∀ i < 8, dw.bytemask.getLsbD i = false → byte dw.value i = 0 := by
  constructor
  · intro h i hi hm
    rw [← h, byte_and_MASKS _ _ hi, if_neg (by rw [hm]; decide)]
  · intro h
    apply eq_of_bytes
    intro i hi
    rw [byte_and_MASKS _ _ hi]
    split
    · rfl
    · rename_i hm
      exact (h i hi (Bool.eq_false_iff.mpr hm)).symm

/-- Bytes of two words at one address lie in both operands, so these overlap. -/
theorem overlaps_of_byteAt {dw other : DoubleWord} (hdw : dw.Full) (hother : other.Full) {a : Nat}
    (h : (dw.byteAt a).isSome) (h' : (other.byteAt a).isSome) : dw.overlaps other := by
  rw [hdw.byteAt] at h
  rw [hother.byteAt] at h'
  refine overlaps_of_covers (a := a) ?_ ?_
  · by_contra hc
    rw [if_neg hc] at h
    cases h
  · by_contra hc
    rw [if_neg hc] at h'
    cases h'

/-- What a word says lies in its eight bytes. -/
theorem inWord_of_byteAt {dw : DoubleWord} {a : Nat} (h : (dw.byteAt a).isSome) : dw.InWord a := by
  unfold byteAt at h
  split at h
  · rename_i hm
    have hi := lt_of_getLsbD hm.2
    exact ⟨hm.1, by omega⟩
  · cases h

/-! The operations -/

/-- The map of `target` under the bytes of an overlapping word, as far as its own word goes. -/
theorem byteAt_overlay (dw target : DoubleWord) (a : Nat) :
    (dw.overlay target).byteAt a =
      if dw.overlaps target ∧ target.InWord a then (dw.byteAt a).or (target.byteAt a)
      else target.byteAt a := by
  by_cases hov : dw.overlaps target
  · by_cases hin : target.InWord a
    · rw [if_pos ⟨hov, hin⟩]
      exact overlay_byteAt hov hin.1 hin.2
    · rw [if_neg fun h => hin h.2]
      have hframe : ¬ (dw.overlay target).InWord a := by
        unfold InWord
        rw [(overlay_frame dw target).1]
        exact hin
      have hnone : ∀ w : DoubleWord, ¬ w.InWord a → w.byteAt a = none := by
        intro w hw
        by_contra hs
        exact hw (inWord_of_byteAt (Option.isSome_iff_ne_none.mpr hs))
      rw [hnone _ hframe, hnone _ hin]
  · rw [if_neg fun h => hov h.1]
    simp only [overlay, hov, Bool.false_eq_true, if_false]

/-- Writing changes bytes that are there, to those of the word written. -/
theorem byteAt_writeValue {dw target : DoubleWord} (hdw : dw.Full) (ht : target.Full) (a : Nat) :
    (dw.writeValue target).byteAt a = (target.byteAt a).map fun old => (dw.byteAt a).getD old := by
  cases hold : target.byteAt a with
  | none =>
      have hmask := (writeValue_frame dw target).2.2
      have haddr := (writeValue_frame dw target).1
      unfold byteAt at hold ⊢
      rw [haddr, hmask]
      split at hold
      · cases hold
      · rename_i hm
        rw [if_neg hm]
        rfl
  | some old =>
      by_cases hov : dw.overlaps target
      · rw [writeValue_byteAt hov (by rw [hold]; rfl), hold]
        cases dw.byteAt a <;> rfl
      · have hnone : dw.byteAt a = none := by
          by_contra hs
          exact hov (overlaps_of_byteAt hdw ht (Option.isSome_iff_ne_none.mpr hs) (by rw [hold]; rfl))
        simp only [writeValue, hov, Bool.false_eq_true, if_false, hold, hnone, Option.map_some,
          Option.getD_none]

theorem overlapMatches_iff {dw other : DoubleWord} (hdw : dw.Full) (hother : other.Full) :
    dw.overlapMatches other ↔ dw.Agree other := by
  by_cases hov : dw.overlaps other
  · constructor
    · intro h a x y hx hy
      exact overlapMatches_byteAt h hov hx hy
    · intro h
      simp only [overlapMatches, hov, Bool.not_true, Bool.false_eq_true, if_false,
        decide_eq_true_eq]
      apply eq_of_bytes
      intro i hi
      rw [byte_and_MASKS _ _ hi, BitVec.getLsbD_and]
      split
      · rename_i hm
        obtain ⟨hs, ho⟩ := Bool.and_eq_true_iff.mp hm
        simp only [writeShifted] at hs
        -- the byte both have, at the address it has in the second word
        have hx := @shifted_byteAt dw other (other.address + i) (by omega) (by omega)
        have hy := @byteAt_eq other (other.address + i) (by omega)
        rw [Nat.add_sub_cancel_left] at hx hy
        rw [if_pos hs] at hx
        rw [if_pos ho] at hy
        have hbyte : byte (dw.writeShifted 0 (dw.shiftTo other)).1 i = byte other.value i := by
          rw [← h _ _ _ hx hy]
          simp only [writeShifted, byte_mix _ _ _ hi]
          rw [if_pos hs]
        apply BitVec.eq_of_getLsbD_eq
        intro j hj
        have hbit := congrArg (fun b => BitVec.getLsbD b j) hbyte
        simp only [getLsbD_byte _ _ hj] at hbit
        rw [getLsbD_byte _ _ hj, BitVec.getLsbD_xor, hbit, Bool.xor_self]
        simp [byte]
      · simp [byte]
  · constructor
    · intro _ a x y hx hy
      exact absurd (overlaps_of_byteAt hdw hother (by rw [hx]; rfl) (by rw [hy]; rfl)) hov
    · intro _
      simp only [overlapMatches, hov, Bool.not_false, if_true]

/-- All bytes of the operand are in the other word, which starts no later. -/
theorem covers_iff {dw other : DoubleWord} (hov : dw.overlaps other)
    (hle : other.address ≤ dw.address) (hsize : dw.size ≤ 8) :
    dw.covers other ↔ ∀ a, dw.Covers a → (other.byteAt a).isSome := by
  have hbyte : ∀ i, (other.byteAt (dw.address + i)).isSome =
      other.bytemask.getLsbD (dw.address - other.address + i) := by
    intro i
    rw [byteAt_eq (Nat.le_trans hle (Nat.le_add_right _ i)),
      show dw.address + i - other.address = dw.address - other.address + i by omega]
    split
    · rename_i hm
      rw [hm]
      rfl
    · rename_i hm
      rw [Bool.eq_false_iff.mpr hm]
      rfl
  have hlt : ¬ dw.address < other.address := by omega
  simp only [covers, hov, Bool.not_true, Bool.false_eq_true, if_false, hlt, decide_eq_true_eq]
  constructor
  · rintro h a ⟨h1, h2⟩
    have hbit := congrArg (fun m => BitVec.getLsbD m (a - dw.address)) h
    simp only [BitVec.getLsbD_and, BitVec.getLsbD_ushiftRight, getLsbD_sizeMask hsize,
      show a - dw.address < dw.size by omega, decide_true, Bool.and_true] at hbit
    rw [show a = dw.address + (a - dw.address) by omega, hbyte, hbit]
  · intro h
    apply BitVec.eq_of_getLsbD_eq
    intro i _
    rw [BitVec.getLsbD_and, BitVec.getLsbD_ushiftRight, getLsbD_sizeMask hsize]
    by_cases hi : i < dw.size
    · rw [← hbyte, h _ ⟨by omega, by omega⟩, Bool.true_and]
    · rw [decide_eq_false hi, Bool.and_false]

theorem masked_overlay {dw target : DoubleWord} (ht : target.Masked) :
    (dw.overlay target).Masked := by
  by_cases hov : dw.overlaps target
  · rw [masked_iff] at ht ⊢
    intro i hi hm
    simp only [overlay, hov, if_true, writeShifted, BitVec.getLsbD_or] at hm ⊢
    obtain ⟨hm, hs⟩ := Bool.or_eq_false_iff.mp hm
    rw [byte_mix _ _ _ hi, if_neg (by rw [hs]; decide)]
    exact ht i hi hm
  · simp only [overlay, hov, Bool.false_eq_true, if_false]
    exact ht

theorem masked_writeValue {dw target : DoubleWord} (ht : target.Masked) :
    (dw.writeValue target).Masked := by
  by_cases hov : dw.overlaps target
  · rw [masked_iff]
    intro i hi hm
    simp only [writeValue, hov, if_true] at hm ⊢
    rw [byte_and_MASKS _ _ hi, if_neg (by rw [hm]; decide)]
  · simp only [writeValue, hov, Bool.false_eq_true, if_false]
    exact ht

theorem writeValue_valid {dw target : DoubleWord} (ht : target.Valid) :
    (dw.writeValue target).Valid := by
  obtain ⟨haddr, hsize, hmask⟩ := writeValue_frame dw target
  refine ⟨?_, ?_, masked_writeValue ht.masked, ?_⟩
  · rw [hsize]
    exact ht.size_le
  · rw [haddr, hsize]
    exact ht.fits
  · intro i
    rw [hmask, hsize]
    exact ht.full i

/-- An overlay keeps the mask of the size exactly if it does not reach past the operand. -/
theorem full_overlay_iff {dw target : DoubleWord} (hdw : dw.Full) (ht : target.Valid)
    (hov : dw.overlaps target) :
    (dw.overlay target).Full ↔
      target.size = 8 ∨ dw.address + dw.size ≤ target.address + target.size := by
  have hsize := ht.size_le
  have hshift : ∀ i < 8, (dw.shiftedBytemask (dw.shiftTo target)).getLsbD i =
      (dw.byteAt (target.address + i)).isSome := by
    intro i hi
    rw [@shifted_byteAt dw target (target.address + i) (by omega) (by omega),
      Nat.add_sub_cancel_left]
    split
    · rename_i hm
      rw [hm]
      rfl
    · rename_i hm
      rw [Bool.eq_false_iff.mpr hm]
      rfl
  have hcover : ∀ i, (dw.byteAt (target.address + i)).isSome ↔ dw.Covers (target.address + i) := by
    intro i
    rw [hdw.byteAt]
    split
    · rename_i hc
      exact iff_of_true rfl hc
    · rename_i hc
      exact iff_of_false (by decide) hc
  have hstart : dw.address < target.address + target.size := by
    unfold overlaps at hov
    split at hov
    · exact of_decide_eq_true hov
    · omega
  have hmask : ∀ i, (dw.overlay target).bytemask.getLsbD i =
      (target.bytemask.getLsbD i || (dw.shiftedBytemask (dw.shiftTo target)).getLsbD i) := by
    intro i
    simp only [overlay, hov, if_true, writeShifted, BitVec.getLsbD_or]
  constructor
  · intro h
    -- the first byte past the operand
    by_contra hc
    obtain ⟨h8, hend⟩ := not_or.mp hc
    have hlt : target.size < 8 := by omega
    have hi := h target.size
    rw [hmask, ht.full, hshift _ hlt, (hcover _).mpr ⟨by omega, by omega⟩,
      (overlay_frame dw target).2] at hi
    simp at hi
  · intro h i
    rw [hmask, ht.full, (overlay_frame dw target).2]
    by_cases hi : i < target.size
    · simp [hi]
    · rw [decide_eq_false hi, Bool.false_or]
      by_cases h8 : i < 8
      · rw [hshift _ h8, Bool.eq_false_iff]
        intro hs
        have hc := (hcover i).mp hs
        unfold Covers at hc
        omega
      · exact BitVec.getLsbD_of_ge _ _ (by omega)

theorem setValue_valid {dw dw' : DoubleWord} {v : BitVec 64} (hle : dw.size ≤ 8)
    (hfits : dw.address + dw.size < 2 ^ 64) (h : dw.setValue v = some dw') : dw'.Valid := by
  simp only [setValue] at h
  split at h
  · cases h
  · obtain rfl := Option.some.inj h
    refine ⟨hle, hfits, ?_, getLsbD_sizeMask hle⟩
    rw [masked_iff]
    intro i hi hm
    rw [byte_and_MASKS _ _ hi, if_neg (by rw [hm]; decide)]

theorem setAddressOf_masked (address size : Nat) (dw : DoubleWord) :
    (dw.setAddressOf address size).1.Masked ∧
      (dw.setAddressOf address size).1.bytemask = dw.bytemask := by
  refine ⟨?_, rfl⟩
  have hzero : (dw.setAddressOf address size).1.value = 0 := by
    simp only [setAddressOf, setAddress]
    split <;> rfl
  unfold Masked
  rw [hzero]
  exact BitVec.zero_and

/-- The operations on two operands with their values, as operations on their maps. -/
theorem byte_map_algebra {dw target : DoubleWord} (hdw : dw.Valid) (ht : target.Valid) :
    dw.overlapsW64 target = dw.overlaps target ∧
    (∀ a, (dw.overlay target).byteAt a =
      if dw.overlaps target ∧ target.InWord a then (dw.byteAt a).or (target.byteAt a)
      else target.byteAt a) ∧
    (∀ a, (dw.writeValue target).byteAt a =
      (target.byteAt a).map fun old => (dw.byteAt a).getD old) ∧
    (dw.overlapMatches target ↔ dw.Agree target) ∧
    (dw.overlay target).Masked ∧
    ((dw.overlay target).Full ↔ (dw.overlaps target →
      target.size = 8 ∨ dw.address + dw.size ≤ target.address + target.size)) ∧
    (dw.writeValue target).Valid ∧
    (∀ v dw', ({ dw with bytemask := 0 } : DoubleWord).setValue v = some dw' → dw'.Valid) ∧
    (∀ address size, (dw.setAddressOf address size).1.Masked) := by
  refine ⟨overlapsW64_eq hdw.fits ht.fits, byteAt_overlay dw target,
    byteAt_writeValue hdw.full ht.full, overlapMatches_iff hdw.full ht.full,
    masked_overlay ht.masked, ?_, writeValue_valid ht,
    fun v dw' h => @setValue_valid { dw with bytemask := 0 } _ _ hdw.size_le hdw.fits h,
    fun address size => (setAddressOf_masked address size dw).1⟩
  by_cases hov : dw.overlaps target
  · rw [full_overlay_iff hdw.full ht hov]
    exact ⟨fun h _ => h, fun h => h hov⟩
  · have hsame : dw.overlay target = target := by
      simp only [overlay, hov, Bool.false_eq_true, if_false]
    rw [hsame]
    exact iff_of_true ht.full fun h => absurd h hov

/-- An operand of `size` bytes at address 0. -/
def sample (value : BitVec 64) (size : Nat) : DoubleWord :=
  { value := value, size := size, bytemask := BitVec.ofNat 8 ((1 <<< size) - 1) }

theorem sample_valid {value : BitVec 64} {size : Nat} (hle : size ≤ 8)
    (hm : (sample value size).Masked) : (sample value size).Valid :=
  ⟨hle, by simp only [sample]; omega, hm, getLsbD_sizeMask hle⟩

theorem byte_map_algebra_halfWord :
    (sample 0x2211 2).overlapsW64 (sample 0x44332200 4) =
      (sample 0x2211 2).overlaps (sample 0x44332200 4) ∧
    ((sample 0x2211 2).writeValue (sample 0x44332200 4)).byteAt 1 =
      ((sample 0x44332200 4).byteAt 1).map fun old => ((sample 0x2211 2).byteAt 1).getD old := by
  have hhalf : (sample 0x2211 2).Valid := sample_valid (by decide) (by decide)
  have hword : (sample 0x44332200 4).Valid := sample_valid (by decide) (by decide)
  have h := byte_map_algebra hhalf hword
  exact ⟨h.1, h.2.2.1 1⟩

/-- The last eight bytes of the address space. -/
def topWord : DoubleWord := { address := 2 ^ 64 - 8, size := 8, bytemask := 0xff }

/-- A full word over half of one: bytes that the half word does not have, and a mask that is
not that of its size. At the top of the address space a word does not overlap itself. -/
theorem overlay_outgrows :
    (sample 0x8877665544332211 8).Valid ∧ (sample 0 4).Valid ∧ ¬ (sample 0 4).Covers 4 ∧
      ((sample 0x8877665544332211 8).overlay (sample 0 4)).byteAt 4 = some 0x55 ∧
      ¬ ((sample 0x8877665544332211 8).overlay (sample 0 4)).Full ∧
      topWord.overlapsW64 topWord = false := by
  refine ⟨sample_valid (by decide) (by decide), sample_valid (by decide) (by decide), by decide,
    by decide, fun h => ?_, by decide⟩
  exact absurd (h 4) (by decide)

end FeS2.Pyrite.DoubleWord
