import Mathlib.Data.Multiset.Count
import Mathlib.Data.Multiset.AddSub
import Mathlib.Algebra.Order.Group.Multiset
import Mathlib.Tactic.Abel

/-!
Reference counting against a ledger. `Balanced count free known L` says that the
counters agree with the multiset `L` of all references held anywhere, and that
the free list holds exactly the known names that nobody refers to, each once.
The rules follow the operations of a counter file: retain a held name, release
a reference, take a name off the free list, adopt a name of its own making.
-/

namespace RefCount
universe u
variable {α : Type u} [DecidableEq α]

structure Balanced (count : α → Int) (free : List α) (known : α → Prop)
    (L : Multiset α) : Prop where
  count_eq : ∀ a, count a = L.count a
  free_iff : ∀ a, a ∈ free ↔ known a ∧ a ∉ L
  nodup : free.Nodup
  known_of_mem : ∀ a ∈ L, known a

variable {count : α → Int} {free : List α} {known : α → Prop} {L : Multiset α} {a : α}

theorem Balanced.count_pos (h : Balanced count free known L) (ha : a ∈ L) : 0 < count a := by
  rw [h.count_eq]
  exact_mod_cast Multiset.count_pos.mpr ha

theorem Balanced.free_iff_count (h : Balanced count free known L) :
    a ∈ free ↔ known a ∧ count a = 0 := by
  rw [h.free_iff, h.count_eq]
  simp only [Int.natCast_eq_zero, Multiset.count_eq_zero]

theorem Balanced.not_free (h : Balanced count free known L) (ha : a ∈ L) : a ∉ free :=
  fun hf => ((h.free_iff a).mp hf).2 ha

private theorem count_add_one (h : ∀ b, count b = L.count b) (b : α) :
    Function.update count a (count a + 1) b = ({a} + L).count b := by
  rw [Multiset.singleton_add]
  by_cases hb : b = a
  · subst hb
    simp [h]
  · simp [hb, h]

theorem Balanced.retain (h : Balanced count free known L) (ha : a ∈ L) :
    Balanced (Function.update count a (count a + 1)) free known ({a} + L) where
  count_eq := count_add_one h.count_eq
  free_iff b := by
    rw [h.free_iff, Multiset.singleton_add, Multiset.mem_cons]
    constructor
    · rintro ⟨hk, hL⟩
      refine ⟨hk, ?_⟩
      rintro (rfl | hb)
      · exact hL ha
      · exact hL hb
    · rintro ⟨hk, hL⟩
      exact ⟨hk, fun hb => hL (Or.inr hb)⟩
  nodup := h.nodup
  known_of_mem b hb := by
    rw [Multiset.singleton_add, Multiset.mem_cons] at hb
    rcases hb with rfl | hb
    · exact h.known_of_mem b ha
    · exact h.known_of_mem b hb

theorem Balanced.release (h : Balanced count free known ({a} + L)) :
    Balanced (Function.update count a (count a - 1))
      (if count a - 1 = 0 then a :: free else free) known L := by
  have hcount : ∀ b, Function.update count a (count a - 1) b = L.count b := by
    intro b
    by_cases hb : b = a
    · subst hb
      simp [h.count_eq]
    · simp [hb, h.count_eq]
  have hlast : count a - 1 = 0 ↔ a ∉ L := by
    have := hcount a
    rw [Function.update_self] at this
    rw [this]
    simp only [Int.natCast_eq_zero, Multiset.count_eq_zero]
  have hmem : a ∈ ({a} + L : Multiset α) := by simp
  refine ⟨hcount, ?_, ?_, ?_⟩
  · intro b
    have hfree := h.free_iff b
    rw [Multiset.singleton_add, Multiset.mem_cons] at hfree
    by_cases hb : b = a
    · subst hb
      split
      · rename_i hz
        simp [hlast.mp hz, h.known_of_mem b hmem]
      · rename_i hz
        simp [h.not_free hmem, not_not.mp (hlast.not.mp hz)]
    · split <;> simp [hb, hfree]
  · split
    · exact List.nodup_cons.mpr ⟨h.not_free hmem, h.nodup⟩
    · exact h.nodup
  · intro b hb
    exact h.known_of_mem b (by simp [hb])

/-- A name taken off the free list is unknown until it is adopted. -/
theorem Balanced.take (h : Balanced count (a :: free) known L) :
    Balanced count free (fun b => known b ∧ b ≠ a) L where
  count_eq := h.count_eq
  free_iff b := by
    have hfree := h.free_iff b
    have hnot : a ∉ free := (List.nodup_cons.mp h.nodup).1
    rw [List.mem_cons] at hfree
    by_cases hb : b = a
    · subst hb
      simp [hnot]
    · simp only [hb, false_or, ne_eq, not_false_eq_true, and_true] at hfree ⊢
      exact hfree
  nodup := (List.nodup_cons.mp h.nodup).2
  known_of_mem b hb := by
    refine ⟨h.known_of_mem b hb, ?_⟩
    rintro rfl
    exact ((h.free_iff b).mp List.mem_cons_self).2 hb

theorem Balanced.adopt (h : Balanced count free known L) (ha : ¬ known a) :
    Balanced (Function.update count a (count a + 1)) free (fun b => known b ∨ b = a)
      ({a} + L) where
  count_eq := count_add_one h.count_eq
  free_iff b := by
    rw [h.free_iff, Multiset.singleton_add, Multiset.mem_cons]
    constructor
    · rintro ⟨hk, hL⟩
      refine ⟨Or.inl hk, ?_⟩
      rintro (rfl | hb)
      · exact ha hk
      · exact hL hb
    · rintro ⟨hk | rfl, hL⟩
      · exact ⟨hk, fun hb => hL (Or.inr hb)⟩
      · exact absurd (Or.inl rfl) hL
  nodup := h.nodup
  known_of_mem b hb := by
    rw [Multiset.singleton_add, Multiset.mem_cons] at hb
    rcases hb with rfl | hb
    · exact Or.inr rfl
    · exact Or.inl (h.known_of_mem b hb)

theorem Balanced.congr {known' : α → Prop} {L' : Multiset α}
    (h : Balanced count free known L) (hk : ∀ b, known b ↔ known' b) (hL : L = L') :
    Balanced count free known' L' := by
  subst hL
  exact ⟨h.count_eq, fun b => by rw [h.free_iff, hk], h.nodup,
    fun b hb => (hk b).mp (h.known_of_mem b hb)⟩

theorem balanced_empty (count : α → Int) (h : ∀ a, count a = 0) :
    Balanced count [] (fun _ => False) 0 :=
  ⟨by simpa using h, by simp, List.nodup_nil, by simp⟩

end RefCount
