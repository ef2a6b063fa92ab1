import Mathlib.Tactic.Ring
import FeS2.Library.MixedRadix
import FeS2.DRAMSim.BankAgreement

/-!
The six address mappings. Each takes the fields off the lower end of the address in its
own order.
-/

namespace FeS2.DRAMSim.MemoryController
variable {c : SystemConfiguration}

/-- Shifting a field out and in again and comparing leaves the field. -/
theorem takeField_eq {width : Nat} (h : width ≤ 32) (address : Nat) :
    takeField width address = (address % 2 ^ width, address / 2 ^ width) := by
  have hxor : address ^^^ (address >>> width <<< width) = address % 2 ^ width := by
    refine Nat.eq_of_testBit_eq fun i => ?_
    rw [Nat.testBit_xor, Nat.testBit_shiftLeft, Nat.testBit_shiftRight,
      Nat.testBit_mod_two_pow]
    by_cases hi : width ≤ i
    · simp [hi, Nat.not_lt.mpr hi]
    · simp [hi, Nat.not_le.mp hi]
  have hlt : address % 2 ^ width < 2 ^ 32 :=
    Nat.lt_of_lt_of_le (Nat.mod_lt _ (Nat.two_pow_pos width))
      (Nat.pow_le_pow_right (by decide) h)
  simp only [takeField]
  rw [hxor, Nat.mod_eq_of_lt hlt, Nat.shiftRight_eq_div_pow]

theorem dramsimLog2_two_pow (k : Nat) : dramsimLog2 (2 ^ k) = k := by
  unfold dramsimLog2
  rw [Nat.log_pow (by decide), if_neg (Nat.lt_irrefl _)]

/-- Every address has its rank and its bank. -/
theorem addressMapping_lt (hc : c.Valid) (address : Nat) :
    (addressMapping c address).1 < c.numRanks ∧ (addressMapping c address).2.1 < c.numBanks := by
  obtain ⟨k, hk, hranks⟩ := hc.ranks
  obtain ⟨l, hl, hbanks⟩ := hc.banks
  have hrank (a : Nat) : (takeField k a).1 < 2 ^ k := by
    rw [takeField_eq (Nat.le_of_lt hk)]
    exact Nat.mod_lt _ (Nat.two_pow_pos k)
  have hbank (a : Nat) : (takeField l a).1 < 2 ^ l := by
    rw [takeField_eq (Nat.le_of_lt hl)]
    exact Nat.mod_lt _ (Nat.two_pow_pos l)
  unfold addressMapping
  rw [hranks, hbanks, dramsimLog2_two_pow, dramsimLog2_two_pow]
  cases c.addressMappingScheme <;> exact ⟨hrank _, hbank _⟩

/-! The fields of an address -/

/-- The sizes that an address is split by. -/
structure Sized (c : SystemConfiguration) : Prop where
  rows : ∃ k ≤ 32, c.numRows = 2 ^ k
  cols : ∃ k ≤ 32, c.numCols = 2 ^ k
  line : ∃ k, c.cacheLineSize = 2 ^ k

theorem sized_ddr2 : Sized .DDR2_micron_16M_8b_x8_sg3E :=
  ⟨⟨14, by decide, rfl⟩, ⟨10, by decide, rfl⟩, ⟨3, rfl⟩⟩

/-- Rank, bank, row and column in the order of a scheme, lowest first. -/
def fieldOrder (scheme : AddressMappingScheme) (fields : Nat × Nat × Nat × Nat) : List Nat :=
  let (rank, bank, row, column) := fields
  match scheme with
  | .Scheme1 => [bank, column, row, rank]
  | .Scheme2 => [rank, bank, column, row]
  | .Scheme3 => [row, column, bank, rank]
  | .Scheme4 => [column, row, bank, rank]
  | .Scheme5 => [bank, rank, column, row]
  | .Scheme6 => [column, rank, bank, row]

theorem fieldOrder_injective (scheme : AddressMappingScheme) :
    Function.Injective (fieldOrder scheme) := by
  rintro ⟨rank, bank, row, column⟩ ⟨rank', bank', row', column'⟩ h
  cases scheme <;> simp only [fieldOrder, List.cons.injEq, Prod.mk.injEq] at h ⊢ <;> tauto

def sizes (c : SystemConfiguration) : List Nat :=
  fieldOrder c.addressMappingScheme (c.numRanks, c.numBanks, c.numRows, c.numCols)

theorem prod_sizes : (sizes c).prod = c.numRanks * c.numBanks * c.numRows * c.numCols := by
  unfold sizes fieldOrder
  cases c.addressMappingScheme <;> simp only [List.prod_cons, List.prod_nil] <;> ring

/-- What the shifts and comparisons do: the fields are the digits of the line. -/
theorem split_sizes (hc : c.Valid) (hs : Sized c) (address : Nat) :
    MixedRadix.split (sizes c) (address / c.cacheLineSize) =
      fieldOrder c.addressMappingScheme (addressMapping c address) := by
  obtain ⟨k, hk, hranks⟩ := hc.ranks
  obtain ⟨l, hl, hbanks⟩ := hc.banks
  obtain ⟨m, hm, hrows⟩ := hs.rows
  obtain ⟨n, hn, hcols⟩ := hs.cols
  obtain ⟨o, hline⟩ := hs.line
  unfold sizes addressMapping
  simp only [hranks, hbanks, hrows, hcols, hline, dramsimLog2_two_pow,
    takeField_eq (Nat.le_of_lt hk), takeField_eq (Nat.le_of_lt hl), takeField_eq hm,
    takeField_eq hn, Nat.shiftRight_eq_div_pow]
  cases c.addressMappingScheme <;> rfl

theorem sizes_bound {rank bank row column : Nat} (hrank : rank < c.numRanks)
    (hbank : bank < c.numBanks) (hrow : row < c.numRows) (hcolumn : column < c.numCols) :
    List.Forall₂ (· < ·) (fieldOrder c.addressMappingScheme (rank, bank, row, column))
      (sizes c) := by
  unfold sizes fieldOrder
  cases c.addressMappingScheme <;>
    simp only [List.forall₂_cons, List.forall₂_nil_left_iff, hrank, hbank, hrow, hcolumn, and_self]

/-- In every scheme each place of the memory has one line of the address space below its
capacity, wherever in the line an address lies. -/
theorem addressMapping_bijective (hc : c.Valid) (hs : Sized c) {rank bank row column : Nat}
    (hrank : rank < c.numRanks) (hbank : bank < c.numBanks) (hrow : row < c.numRows)
    (hcolumn : column < c.numCols) :
    ∃! line, line < c.numRanks * c.numBanks * c.numRows * c.numCols ∧
      ∀ offset < c.cacheLineSize,
        addressMapping c (line * c.cacheLineSize + offset) = (rank, bank, row, column) := by
  obtain ⟨o, hline⟩ := hs.line
  have hpos : 0 < c.cacheLineSize := by
    rw [hline]
    exact Nat.two_pow_pos o
  have hfields := sizes_bound hrank hbank hrow hcolumn
  have hdiv (line offset : Nat) (hoffset : offset < c.cacheLineSize) :
      (line * c.cacheLineSize + offset) / c.cacheLineSize = line := by
    rw [Nat.add_comm, Nat.add_mul_div_right _ _ hpos, Nat.div_eq_of_lt hoffset, Nat.zero_add]
  refine ⟨MixedRadix.join (sizes c)
    (fieldOrder c.addressMappingScheme (rank, bank, row, column)), ⟨?_, ?_⟩, ?_⟩
  · rw [← prod_sizes]
    exact MixedRadix.join_lt hfields
  · intro offset hoffset
    apply fieldOrder_injective c.addressMappingScheme
    rw [← split_sizes hc hs, hdiv _ _ hoffset]
    exact MixedRadix.split_join hfields
  · rintro line ⟨hlt, hmaps⟩
    have hsplit := split_sizes hc hs (line * c.cacheLineSize + 0)
    rw [hmaps 0 hpos, hdiv line 0 hpos] at hsplit
    rw [← hsplit]
    exact (MixedRadix.join_split (prod_sizes ▸ hlt)).symm

theorem addressMapping_bijective_ddr2 :
    ∃! line, line < 2 * 8 * 16384 * 1024 ∧ ∀ offset < 8,
      addressMapping .DDR2_micron_16M_8b_x8_sg3E (line * 8 + offset) = (1, 5, 12345, 678) :=
  addressMapping_bijective SystemConfiguration.valid_ddr2 sized_ddr2 (by decide) (by decide)
    (by decide) (by decide)

end FeS2.DRAMSim.MemoryController
