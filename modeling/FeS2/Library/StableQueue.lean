import Mathlib.Data.List.Nodup
import Mathlib.Order.Lattice

/-!
Queues in the order of a key, with equal keys as they arrived. An arrival belongs behind the
elements whose key is not greater than its own, and elements may leave from anywhere.
-/

namespace StableQueue
universe u v
variable {α : Type u} {β : Type v} [LinearOrder β] {key : α → β}

/-- The queue `xs` holds `arrivals`, which are in the order of their arrival. -/
structure Stable (key : α → β) (arrivals xs : List α) : Prop where
  sorted : xs.Pairwise fun x y => key x ≤ key y
  filter : ∀ k, xs.filter (fun x => key x = k) = arrivals.filter fun x => key x = k

namespace Stable
variable {arrivals xs as bs : List α} {w : α}

theorem nil (key : α → β) : Stable key ([] : List α) [] := ⟨.nil, fun _ => rfl⟩

theorem mem_iff (h : Stable key arrivals xs) {x : α} : x ∈ xs ↔ x ∈ arrivals := by
  have hmem : ∀ l : List α, x ∈ l ↔ x ∈ l.filter fun y => key y = key x := by
    intro l
    rw [List.mem_filter, decide_eq_true rfl, and_iff_left rfl]
  rw [hmem xs, hmem arrivals, h.filter]

/-- An arrival, put behind what is not greater and before what is. -/
theorem arrive (h : Stable key arrivals (as ++ bs)) (has : ∀ x ∈ as, key x ≤ key w)
    (hbs : ∀ x ∈ bs, key w < key x) : Stable key (arrivals ++ [w]) (as ++ w :: bs) where
  sorted := by
    have hsorted := List.pairwise_append.mp h.sorted
    refine List.pairwise_append.mpr ⟨hsorted.1, List.pairwise_cons.mpr
      ⟨fun x hx => le_of_lt (hbs x hx), hsorted.2.1⟩, fun x hx y hy => ?_⟩
    cases List.mem_cons.mp hy with
    | inl heq => exact heq ▸ has x hx
    | inr hy => exact hsorted.2.2 x hx y hy
  filter k := by
    have hold := h.filter k
    rw [List.filter_append] at hold
    by_cases hk : key w = k
    · -- nothing behind the arrival has its key
      have hnone : bs.filter (fun x => key x = k) = [] := by
        rw [List.filter_eq_nil_iff]
        intro x hx
        rw [decide_eq_true_iff]
        exact fun heq => ne_of_lt (hbs x hx) (hk.trans heq.symm)
      have hw : ∀ l : List α, (w :: l).filter (fun x => key x = k) =
          w :: l.filter fun x => key x = k := fun l => List.filter_cons_of_pos (decide_eq_true hk)
      rw [hnone, List.append_nil] at hold
      rw [List.filter_append, List.filter_append, hw, hw, hnone, hold, List.filter_nil]
    · have hw : ∀ l : List α, (w :: l).filter (fun x => key x = k) =
          l.filter fun x => key x = k := fun l =>
        List.filter_cons_of_neg fun hdec => hk (of_decide_eq_true hdec)
      rw [List.filter_append, List.filter_append, hw, hw, hold, List.filter_nil, List.append_nil]

theorem leave (h : Stable key arrivals xs) (p : α → Bool) :
    Stable key (arrivals.filter p) (xs.filter p) where
  sorted := h.sorted.sublist List.filter_sublist
  filter k := by
    have hswap : ∀ l : List α, (l.filter p).filter (fun x => key x = k) =
        (l.filter fun x => key x = k).filter p := by
      intro l
      rw [List.filter_filter, List.filter_filter]
      exact List.filter_congr fun x _ => Bool.and_comm _ _
    rw [hswap, hswap, h.filter]

/-- With one key for all, the queue is in the order of arrival. -/
theorem eq_of_const (h : Stable key arrivals xs) {k : β} (hk : ∀ x, key x = k) :
    xs = arrivals := by
  have hall : ∀ l : List α, l.filter (fun x => key x = k) = l := by
    intro l
    rw [List.filter_eq_self]
    exact fun x _ => decide_eq_true (hk x)
  have hfilter := h.filter k
  rwa [hall, hall] at hfilter

end Stable
end StableQueue
