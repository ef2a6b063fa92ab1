import Mathlib.Data.Nat.Basic

/-!
Up to eight bytes of memory that do not cross a cache block. The value is one
machine word, its bytes selected by a bit mask; `byteAt` is what the word says
about one address. Addresses are physical ones, far below `2 ^ 64`, so their
sums do not wrap and natural numbers stand for them.
-/

namespace FeS2.Pyrite

/-- Bytes of a block: `1 << getMemoryBlockBits()`. -/
def blockBytes : Nat := 64

/-- Eight bytes, the least significant first. -/
def ofBytes (b : Nat → BitVec 8) : BitVec 64 :=
  b 7 ++ b 6 ++ b 5 ++ b 4 ++ b 3 ++ b 2 ++ b 1 ++ b 0

/-- The table of all byte masks: bit `i` of the index selects byte `i`. -/
def MASKS (bytemask : BitVec 8) : BitVec 64 :=
  ofBytes fun i => if bytemask.getLsbD i then 0xff else 0

structure DoubleWord where
  value : BitVec 64 := 0
  address : Nat := 0
  size : Nat := 0
  bytemask : BitVec 8 := 0
  deriving DecidableEq

namespace DoubleWord

def alignedAddr (dw : DoubleWord) : Nat := dw.address - dw.address % blockBytes

/-- The word, and the number of bytes past the end of the block. -/
def setAddress (address size : Nat) : DoubleWord × Nat :=
  let overflow := (address + size) % blockBytes
  if overflow < size then ({ address := address, size := size - overflow }, overflow)
  else ({ address := address, size := size }, 0)

def setValue (value : BitVec 64) (dw : DoubleWord) : Option DoubleWord :=
  let bytemask : BitVec 8 := BitVec.ofNat 8 ((1 <<< dw.size) - 1)
  if dw.bytemask ≠ 0 ∨ bytemask = 0 then none
  else some { dw with value := value &&& MASKS bytemask, bytemask := bytemask }

def overlaps (dw other : DoubleWord) : Bool :=
  if other.address ≤ dw.address then other.address + other.size > dw.address
  else dw.address + dw.size > other.address

def shiftedValue (dw : DoubleWord) (shiftAmt : Int) : BitVec 64 :=
  if shiftAmt < 0 then dw.value <<< ((-shiftAmt).toNat * 8)
  else dw.value >>> (shiftAmt.toNat * 8)

def shiftedBytemask (dw : DoubleWord) (shiftAmt : Int) : BitVec 8 :=
  if shiftAmt < 0 then dw.bytemask <<< (-shiftAmt).toNat else dw.bytemask >>> shiftAmt.toNat

/-- The private `writeValue`: the new word and the mask of the bytes written. -/
def writeShifted (dw : DoubleWord) (target : BitVec 64) (shiftAmt : Int) :
    BitVec 64 × BitVec 8 :=
  let shiftedMask := MASKS (dw.shiftedBytemask shiftAmt)
  ((target &&& ~~~shiftedMask) ||| (dw.shiftedValue shiftAmt &&& shiftedMask),
    dw.shiftedBytemask shiftAmt)

def shiftTo (dw target : DoubleWord) : Int := (target.address : Int) - dw.address

def writeValue (dw target : DoubleWord) : DoubleWord :=
  if dw.overlaps target then
    { target with
      value := (dw.writeShifted target.value (dw.shiftTo target)).1 &&& MASKS target.bytemask }
  else target

def overlay (dw target : DoubleWord) : DoubleWord :=
  if dw.overlaps target then
    let written := dw.writeShifted target.value (dw.shiftTo target)
    { target with value := written.1, bytemask := target.bytemask ||| written.2 }
  else target

def overlapMatches (dw other : DoubleWord) : Bool :=
  if !dw.overlaps other then true
  else
    -- the word written into is not initialized in the source; the mask hides what it held
    let written := dw.writeShifted 0 (dw.shiftTo other)
    let overlap := written.2 &&& other.bytemask
    ((written.1 ^^^ other.value) &&& MASKS overlap) = 0

/-- True if the specified word covers this one. -/
def covers (dw other : DoubleWord) : Bool :=
  if !dw.overlaps other then false
  else if dw.address < other.address then false
  else
    let desiredMask : BitVec 8 := BitVec.ofNat 8 ((1 <<< dw.size) - 1)
    ((other.bytemask >>> (dw.address - other.address)) &&& desiredMask) = desiredMask

/-! Bytes -/

def byte (v : BitVec 64) (i : Nat) : BitVec 8 := v.extractLsb' (8 * i) 8

/-- What the word holds for address `a`. -/
def byteAt (dw : DoubleWord) (a : Nat) : Option (BitVec 8) :=
  if dw.address ≤ a ∧ dw.bytemask.getLsbD (a - dw.address) then
    some (byte dw.value (a - dw.address))
  else none

/-- The address is one of the operand's own. -/
def Covers (dw : DoubleWord) (a : Nat) : Prop := dw.address ≤ a ∧ a < dw.address + dw.size

instance (dw : DoubleWord) (a : Nat) : Decidable (dw.Covers a) :=
  inferInstanceAs (Decidable (_ ∧ _))

theorem byte_ofBytes (b : Nat → BitVec 8) {i : Nat} (hi : i < 8) : byte (ofBytes b) i = b i := by
  apply BitVec.eq_of_getLsbD_eq
  intro j hj
  simp only [byte, ofBytes, BitVec.getLsbD_extractLsb', hj, decide_true, Bool.true_and,
    BitVec.getLsbD_append]
  obtain rfl | rfl | rfl | rfl | rfl | rfl | rfl | rfl :
      i = 0 ∨ i = 1 ∨ i = 2 ∨ i = 3 ∨ i = 4 ∨ i = 5 ∨ i = 6 ∨ i = 7 := by omega
  all_goals grind

theorem getLsbD_byte (v : BitVec 64) (i : Nat) {j : Nat} (hj : j < 8) :
    (byte v i).getLsbD j = v.getLsbD (8 * i + j) := by
  simp only [byte, BitVec.getLsbD_extractLsb', hj, decide_true, Bool.true_and]

theorem byte_ext {v w : BitVec 64} {i : Nat}
    (h : ∀ j < 8, v.getLsbD (8 * i + j) = w.getLsbD (8 * i + j)) : byte v i = byte w i := by
  apply BitVec.eq_of_getLsbD_eq
  intro j hj
  simp only [byte, BitVec.getLsbD_extractLsb', hj, decide_true, Bool.true_and]
  exact h j hj

theorem byte_shiftRight (v : BitVec 64) (i k : Nat) : byte (v >>> (k * 8)) i = byte v (i + k) := by
  apply BitVec.eq_of_getLsbD_eq
  intro j hj
  simp only [byte, BitVec.getLsbD_extractLsb', BitVec.getLsbD_ushiftRight]
  congr 2
  omega

theorem byte_shiftLeft (v : BitVec 64) {i k : Nat} (hi : i < 8) (hk : k ≤ i) :
    byte (v <<< (k * 8)) i = byte v (i - k) := by
  apply BitVec.eq_of_getLsbD_eq
  intro j hj
  have hlt : 8 * i + j < 64 := by omega
  have hge : ¬ 8 * i + j < k * 8 := by omega
  simp only [byte, BitVec.getLsbD_extractLsb', BitVec.getLsbD_shiftLeft, hlt, hge, decide_true,
    decide_false, Bool.true_and, Bool.not_false]
  congr 2
  omega

theorem getLsbD_MASKS_byte (m : BitVec 8) {i j : Nat} (hi : i < 8) (hj : j < 8) :
    (MASKS m).getLsbD (8 * i + j) = m.getLsbD i := by
  have hones : (0xff : BitVec 8).getLsbD j = true := by
    rw [show (0xff : BitVec 8) = BitVec.allOnes 8 from rfl, BitVec.getLsbD_allOnes]
    exact decide_eq_true hj
  rw [← getLsbD_byte _ _ hj, MASKS, byte_ofBytes _ hi]
  split
  · rename_i hm
    rw [hm, hones]
  · rename_i hm
    rw [Bool.eq_false_iff.mpr hm]
    exact BitVec.getLsbD_zero

/-- The two values are mixed byte by byte. -/
theorem byte_mix (t v : BitVec 64) (m : BitVec 8) {i : Nat} (hi : i < 8) :
    byte ((t &&& ~~~MASKS m) ||| (v &&& MASKS m)) i
      = if m.getLsbD i then byte v i else byte t i := by
  split
  · rename_i hm
    apply byte_ext
    intro j hj
    have hlt : 8 * i + j < 64 := by omega
    simp only [BitVec.getLsbD_or, BitVec.getLsbD_and, BitVec.getLsbD_not,
      getLsbD_MASKS_byte m hi hj, hm, Bool.not_true, Bool.and_false, Bool.and_true,
      Bool.false_or]
  · rename_i hm
    apply byte_ext
    intro j hj
    have hlt : 8 * i + j < 64 := by omega
    simp only [BitVec.getLsbD_or, BitVec.getLsbD_and, BitVec.getLsbD_not,
      getLsbD_MASKS_byte m hi hj, Bool.eq_false_iff.mpr hm, hlt, decide_true, Bool.not_false,
      Bool.and_self, Bool.and_true, Bool.and_false, Bool.or_false]

theorem byte_mask (v : BitVec 64) (m : BitVec 8) {i : Nat} (hi : i < 8) (hm : m.getLsbD i) :
    byte (v &&& MASKS m) i = byte v i := by
  apply byte_ext
  intro j hj
  simp only [BitVec.getLsbD_and, getLsbD_MASKS_byte m hi hj, hm, Bool.and_true]

theorem lt_of_getLsbD {m : BitVec 8} {i : Nat} (h : m.getLsbD i) : i < 8 :=
  BitVec.lt_of_getLsbD h

/-- Shifting into the frame of `target` keeps what the word says of each address. -/
theorem shifted_byteAt {dw target : DoubleWord} {a : Nat} (h : target.address ≤ a)
    (ha : a < target.address + 8) :
    dw.byteAt a = if (dw.shiftedBytemask (dw.shiftTo target)).getLsbD (a - target.address) then
      some (byte (dw.shiftedValue (dw.shiftTo target)) (a - target.address)) else none := by
  unfold byteAt shiftedBytemask shiftedValue shiftTo
  by_cases hneg : (target.address : Int) - dw.address < 0
  · obtain ⟨k, hk⟩ : ∃ k : Nat, dw.address = target.address + k := ⟨dw.address - target.address,
      by omega⟩
    have hto : (-((target.address : Int) - dw.address)).toNat = k := by omega
    simp only [hneg, if_true, hto, BitVec.getLsbD_shiftLeft]
    by_cases hle : dw.address ≤ a
    · have hidx : a - target.address - k = a - dw.address := by omega
      have hlt : a - target.address < 8 := by omega
      have hge : ¬ a - target.address < k := by omega
      rw [byte_shiftLeft _ hlt (by omega), hidx]
      simp [hle, hlt, hge]
    · have hlt : a - target.address < k := by omega
      simp [hle, hlt]
  · obtain ⟨k, hk⟩ : ∃ k : Nat, target.address = dw.address + k := ⟨target.address - dw.address,
      by omega⟩
    have hto : ((target.address : Int) - dw.address).toNat = k := by omega
    have hle : dw.address ≤ a := by omega
    have hidx : a - target.address + k = a - dw.address := by omega
    simp only [hneg, if_false, hto, BitVec.getLsbD_ushiftRight, byte_shiftRight, hle, true_and]
    rw [Nat.add_comm k, hidx]

theorem overlay_frame (dw target : DoubleWord) :
    (dw.overlay target).address = target.address ∧ (dw.overlay target).size = target.size := by
  unfold overlay
  split <;> exact ⟨rfl, rfl⟩

theorem byteAt_eq {dw : DoubleWord} {a : Nat} (h : dw.address ≤ a) :
    dw.byteAt a = if dw.bytemask.getLsbD (a - dw.address) then
      some (byte dw.value (a - dw.address)) else none := by
  simp only [byteAt, h, true_and]

/-- Inside the frame of `target` an overlapping word wins. -/
theorem overlay_byteAt {dw target : DoubleWord} {a : Nat} (hov : dw.overlaps target)
    (h : target.address ≤ a) (ha : a < target.address + 8) :
    (dw.overlay target).byteAt a = (dw.byteAt a).or (target.byteAt a) := by
  have hi : a - target.address < 8 := by omega
  have hdw : dw.byteAt a = _ := shifted_byteAt h ha
  have hframe : (dw.overlay target).address ≤ a := by rw [(overlay_frame dw target).1]; exact h
  rw [hdw, byteAt_eq h, byteAt_eq hframe]
  simp only [overlay, hov, if_true, writeShifted, BitVec.getLsbD_or, byte_mix _ _ _ hi]
  by_cases hm : (dw.shiftedBytemask (dw.shiftTo target)).getLsbD (a - target.address)
  · simp only [hm, Bool.or_true, if_true, Option.some_or]
  · simp only [Bool.eq_false_iff.mpr hm, Bool.or_false, Bool.false_eq_true, if_false,
      Option.none_or]

theorem writeValue_frame (dw target : DoubleWord) :
    (dw.writeValue target).address = target.address ∧
      (dw.writeValue target).size = target.size ∧
      (dw.writeValue target).bytemask = target.bytemask := by
  unfold writeValue
  split <;> exact ⟨rfl, rfl, rfl⟩

/-- Writing replaces bytes that the target has already. -/
theorem writeValue_byteAt {dw target : DoubleWord} {a : Nat} (hov : dw.overlaps target)
    (h : (target.byteAt a).isSome) :
    (dw.writeValue target).byteAt a = (dw.byteAt a).or (target.byteAt a) := by
  obtain ⟨hle, hm'⟩ : target.address ≤ a ∧ target.bytemask.getLsbD (a - target.address) := by
    unfold byteAt at h
    split at h
    · assumption
    · cases h
  have hi := lt_of_getLsbD hm'
  have hdw : dw.byteAt a = _ := shifted_byteAt hle (by omega)
  have hframe : (dw.writeValue target).address ≤ a := by
    rw [(writeValue_frame dw target).1]; exact hle
  rw [hdw, byteAt_eq hle, byteAt_eq hframe]
  simp only [writeValue, hov, if_true, writeShifted, hm', byte_mask _ _ hi hm',
    byte_mix _ _ _ hi]
  by_cases hm : (dw.shiftedBytemask (dw.shiftTo target)).getLsbD (a - target.address)
  · simp only [hm, if_true, Option.or_some, Option.getD_some]
  · simp only [Bool.eq_false_iff.mpr hm, Bool.false_eq_true, if_false, Option.none_or]

theorem overlapMatches_byteAt {dw other : DoubleWord} (h : dw.overlapMatches other)
    (hov : dw.overlaps other) {a : Nat} {x y : BitVec 8} (hx : dw.byteAt a = some x)
    (hy : other.byteAt a = some y) : x = y := by
  have hcov : other.address ≤ a ∧ other.bytemask.getLsbD (a - other.address) := by
    unfold byteAt at hy
    split at hy
    · assumption
    · cases hy
  have hi := lt_of_getLsbD hcov.2
  have hyv : byte other.value (a - other.address) = y := by
    simpa [byteAt, hcov] using hy
  rw [@shifted_byteAt dw other a hcov.1 (by omega)] at hx
  split at hx
  · rename_i hm
    obtain rfl := Option.some.inj hx
    rw [← hyv]
    simp only [overlapMatches, hov, Bool.not_true, Bool.false_eq_true, if_false,
      decide_eq_true_eq] at h
    have hbyte : byte (dw.writeShifted 0 (dw.shiftTo other)).1 (a - other.address)
        = byte (dw.shiftedValue (dw.shiftTo other)) (a - other.address) := by
      simp only [writeShifted, byte_mix _ _ _ hi, hm, if_true]
    rw [← hbyte]
    apply byte_ext
    intro j hj
    have hbit := congrArg (fun v => BitVec.getLsbD v (8 * (a - other.address) + j)) h
    simp only [BitVec.getLsbD_and, BitVec.getLsbD_xor, getLsbD_MASKS_byte _ hi hj, writeShifted,
      hm, hcov.2, Bool.and_self, Bool.and_true] at hbit
    simpa [writeShifted] using hbit
  · cases hx

/-! Operands: inside one block, with all of their bytes or with none. -/

structure InBlock (dw : DoubleWord) : Prop where
  size_le : dw.size ≤ 8
  fits : dw.address % blockBytes + dw.size ≤ blockBytes

def Full (dw : DoubleWord) : Prop := ∀ i, dw.bytemask.getLsbD i = decide (i < dw.size)

theorem Full.byteAt {dw : DoubleWord} (h : dw.Full) (a : Nat) :
    dw.byteAt a = if dw.Covers a then some (byte dw.value (a - dw.address)) else none := by
  unfold DoubleWord.byteAt Covers
  rw [h]
  refine if_congr ?_ rfl rfl
  rw [decide_eq_true_eq]
  omega

theorem byteAt_of_empty {dw : DoubleWord} (h : dw.bytemask = 0) (a : Nat) :
    dw.byteAt a = none := by
  simp [DoubleWord.byteAt, h]

theorem overlaps_of_covers {dw other : DoubleWord} {a : Nat} (h : dw.Covers a)
    (h' : other.Covers a) : dw.overlaps other := by
  obtain ⟨h1, h2⟩ := h
  obtain ⟨h3, h4⟩ := h'
  unfold overlaps
  split
  · exact decide_eq_true (by omega)
  · exact decide_eq_true (by omega)

/-- All addresses of an operand are in its block. -/
theorem InBlock.alignedAddr_eq {dw : DoubleWord} (h : dw.InBlock) {a : Nat} (ha : dw.Covers a) :
    dw.alignedAddr = a - a % blockBytes := by
  have hfits := h.fits
  obtain ⟨h1, h2⟩ := ha
  unfold alignedAddr
  unfold blockBytes at *
  omega

theorem getLsbD_sizeMask {n : Nat} (h : n ≤ 8) (i : Nat) :
    (BitVec.ofNat 8 ((1 <<< n) - 1)).getLsbD i = decide (i < n) := by
  rw [BitVec.getLsbD_ofNat, Nat.one_shiftLeft, Nat.testBit_two_pow_sub_one]
  by_cases hi : i < n
  · have hlt : i < 8 := by omega
    simp [hi, hlt]
  · simp [hi]

theorem sizeMask_ne_zero {n : Nat} (hpos : n ≠ 0) (h : n ≤ 8) : BitVec.ofNat 8 ((1 <<< n) - 1) ≠ 0 := by
  intro hz
  have h0 := getLsbD_sizeMask h 0
  rw [hz] at h0
  simp [Nat.pos_of_ne_zero hpos] at h0

/-- An operand that has no bytes yet covers nothing. -/
theorem covers_of_empty {dw other : DoubleWord} (hempty : other.bytemask = 0)
    (hpos : dw.size ≠ 0) (hle : dw.size ≤ 8) : dw.covers other = false := by
  unfold covers
  split
  · rfl
  · split
    · rfl
    · rw [hempty]
      simpa using (sizeMask_ne_zero hpos hle).symm

theorem setValue_spec {dw : DoubleWord} (v : BitVec 64) (hempty : dw.bytemask = 0)
    (hpos : dw.size ≠ 0) (hle : dw.size ≤ 8) :
    ∃ dw', dw.setValue v = some dw' ∧ dw'.address = dw.address ∧ dw'.size = dw.size ∧
      dw'.Full ∧ ∀ a, dw.Covers a → dw'.byteAt a = some (byte v (a - dw.address)) := by
  have hbit := getLsbD_sizeMask hle
  have hne := sizeMask_ne_zero hpos hle
  have hguard : ¬ (dw.bytemask ≠ 0 ∨ BitVec.ofNat 8 ((1 <<< dw.size) - 1) = 0) := by
    rintro (h | h)
    · exact h hempty
    · exact hne h
  obtain ⟨dw', hdw'⟩ : ∃ dw' : DoubleWord, dw' = { dw with
      value := v &&& MASKS (BitVec.ofNat 8 ((1 <<< dw.size) - 1))
      bytemask := BitVec.ofNat 8 ((1 <<< dw.size) - 1) } := ⟨_, rfl⟩
  have hfull : dw'.Full := by
    rw [hdw']
    exact hbit
  refine ⟨dw', by simp only [setValue, if_neg hguard, hdw'], by rw [hdw'], by rw [hdw'], hfull, ?_⟩
  rintro a ⟨h1, h2⟩
  have hi : a - dw.address < dw.size := by omega
  have hbyte : byte (v &&& MASKS (BitVec.ofNat 8 ((1 <<< dw.size) - 1))) (a - dw.address)
      = byte v (a - dw.address) :=
    byte_mask _ _ (by omega) (by rw [hbit]; exact decide_eq_true hi)
  rw [hfull.byteAt, hdw', if_pos ⟨h1, h2⟩]
  exact congrArg some hbyte

theorem setAddress_inBlock {address size : Nat} (h : size ≤ 8) :
    (setAddress address size).1.InBlock ∧ (setAddress address size).1.bytemask = 0 := by
  by_cases hover : (address + size) % blockBytes < size
  · simp only [setAddress, if_pos hover]
    unfold blockBytes at hover
    exact ⟨⟨by simp only; omega, by simp only [blockBytes]; omega⟩, trivial⟩
  · simp only [setAddress, if_neg hover]
    unfold blockBytes at hover
    exact ⟨⟨h, by simp only [blockBytes]; omega⟩, trivial⟩

end DoubleWord
end FeS2.Pyrite
