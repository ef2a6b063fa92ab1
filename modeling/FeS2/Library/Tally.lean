import Mathlib.Algebra.BigOperators.Group.Finset.Basic
import Mathlib.Algebra.BigOperators.Group.Multiset.Basic
import Mathlib.Algebra.Order.BigOperators.Group.Finset
import Mathlib.Data.Fintype.Basic

/-!
A quantity that is spread over nodes and over messages in flight. A step changes one
node and sends or receives some messages, so the sums are compared there only.
-/

namespace Tally
universe u v
variable {M : Type u} {ι : Type v} {σ : Type u}

/-- What the messages of a network weigh. -/
def weight (f : M → ℕ) (net : Multiset M) : ℕ := (net.map f).sum

variable {f : M → ℕ} {net net' : Multiset M} {m : M}

@[simp] theorem weight_zero : weight f 0 = 0 := rfl

@[simp] theorem weight_cons : weight f (m ::ₘ net) = f m + weight f net := by
  simp [weight]

@[simp] theorem weight_add : weight f (net + net') = weight f net + weight f net' := by
  simp [weight]

theorem le_weight (hm : m ∈ net) : f m ≤ weight f net := by
  obtain ⟨net, rfl⟩ := Multiset.exists_cons_of_mem hm
  rw [weight_cons]
  omega

theorem exists_of_weight (h : weight f net ≠ 0) : ∃ m ∈ net, f m ≠ 0 := by
  induction net using Multiset.induction_on with
  | empty => exact absurd rfl h
  | cons m net ih =>
      by_cases hm : f m = 0
      · rw [weight_cons, hm, Nat.zero_add] at h
        obtain ⟨m', hmem, hm'⟩ := ih h
        exact ⟨m', Multiset.mem_cons_of_mem hmem, hm'⟩
      · exact ⟨m, Multiset.mem_cons_self m net, hm⟩

/-- The parts of two sums that agree but for one. -/
theorem sum_agree {κ : Type v} [DecidableEq κ] {s : Finset κ} {g g' : κ → ℕ} {i : κ} (hi : i ∈ s)
    (h : ∀ j ∈ s, j ≠ i → g' j = g j) : ∑ j ∈ s, g' j + g i = ∑ j ∈ s, g j + g' i := by
  have h1 := Finset.add_sum_erase s g' hi
  have h2 := Finset.add_sum_erase s g hi
  have h3 : ∑ j ∈ s.erase i, g' j = ∑ j ∈ s.erase i, g j :=
    Finset.sum_congr rfl fun j hj => h j (Finset.mem_of_mem_erase hj) (Finset.ne_of_mem_erase hj)
  omega

variable [Fintype ι] [DecidableEq ι]

/-- What the nodes weigh after a change of one of them. -/
theorem sum_update (g : σ → ℕ) (s : ι → σ) (i : ι) (x : σ) :
    ∑ j, g (Function.update s i x j) + g (s i) = ∑ j, g (s j) + g x := by
  have h1 := Finset.add_sum_erase Finset.univ (fun j => g (Function.update s i x j))
    (Finset.mem_univ i)
  have h2 := Finset.add_sum_erase Finset.univ (fun j => g (s j)) (Finset.mem_univ i)
  have h3 : ∑ j ∈ Finset.univ.erase i, g (Function.update s i x j) =
      ∑ j ∈ Finset.univ.erase i, g (s j) :=
    Finset.sum_congr rfl fun j hj => by rw [Function.update_of_ne (Finset.ne_of_mem_erase hj)]
  simp only [Function.update_self] at h1
  omega

theorem le_sum (g : σ → ℕ) (s : ι → σ) (i : ι) : g (s i) ≤ ∑ j, g (s j) := by
  have h := Finset.add_sum_erase Finset.univ (fun j => g (s j)) (Finset.mem_univ i)
  omega

theorem add_le_sum (g : σ → ℕ) (s : ι → σ) {i j : ι} (hij : i ≠ j) :
    g (s i) + g (s j) ≤ ∑ k, g (s k) := by
  have h := Finset.add_sum_erase Finset.univ (fun j => g (s j)) (Finset.mem_univ i)
  have h' := Finset.add_sum_erase (Finset.univ.erase i) (fun j => g (s j))
    (Finset.mem_erase.mpr ⟨hij.symm, Finset.mem_univ j⟩)
  omega

end Tally
