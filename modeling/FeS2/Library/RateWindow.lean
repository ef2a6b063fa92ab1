import Mathlib.Data.List.Basic

/-!
A limit on how often something may happen. Each time opens a window of one length, and
the windows are kept as countdowns, oldest first, of which a step closes at most one. If
it only happens while fewer than `limit` windows are open, any `limit + 1` of the times
lie at least one window apart.
-/

namespace RateWindow
variable {len limit now : Nat} {times windows : List Nat}

/-- A step of the countdowns. -/
def close (windows : List Nat) : List Nat :=
  match windows.map (· - 1) with
  | 0 :: rest => rest
  | waiting => waiting

/-- Before the step `now`, the windows are those that the last times have opened. -/
structure Open (len now : Nat) (times windows : List Nat) : Prop where
  sorted : times.Pairwise (· < ·)
  windows : ∃ old recent, times = old ++ recent ∧
    windows = recent.map (fun t => t + len + 1 - now) ∧ (∀ t ∈ old, t + len < now) ∧
      ∀ t ∈ recent, now ≤ t + len

/-- Of any `limit + 1` times, the last is a window behind the first. -/
def Far (limit len : Nat) (times : List Nat) : Prop :=
  ∀ i t t', times[i]? = some t → times[i + limit]? = some t' → t + len ≤ t'

theorem Open.nil : Open len now [] [] :=
  ⟨List.Pairwise.nil, [], [], rfl, rfl, fun _ h => (nomatch h), fun _ h => (nomatch h)⟩

theorem Far.nil : Far limit len [] := fun _ _ _ h => nomatch h

theorem Open.pos (h : Open len now times windows) : ∀ w ∈ windows, 0 < w := by
  obtain ⟨_, old, recent, _, rfl, _, hrecent⟩ := h
  intro w hw
  obtain ⟨t, ht, rfl⟩ := List.mem_map.mp hw
  have hle := hrecent t ht
  omega

theorem Open.close (h : Open len now times windows) :
    Open len (now + 1) times (close windows) := by
  obtain ⟨hsorted, old, recent, rfl, rfl, hold, hrecent⟩ := h
  have hless (l : List Nat) : (l.map fun t => t + len + 1 - now).map (· - 1) =
      l.map fun t => t + len + 1 - (now + 1) := by
    rw [List.map_map]
    exact List.map_congr_left fun t _ => by simp only [Function.comp_apply]; omega
  unfold RateWindow.close
  rw [hless]
  refine ⟨hsorted, ?_⟩
  cases recent with
  | nil => exact ⟨old, [], rfl, rfl, fun t ht => Nat.lt_succ_of_lt (hold t ht),
      fun _ h => nomatch h⟩
  | cons t rest =>
      have hfirst := hrecent t (List.mem_cons_self ..)
      have hlater : ∀ t' ∈ rest, t < t' :=
        (List.pairwise_cons.mp (List.pairwise_append.mp hsorted).2.1).1
      have hrest : ∀ t' ∈ rest, now + 1 ≤ t' + len := by
        intro t' ht'
        have hlt := hlater t' ht'
        omega
      by_cases hdue : t + len = now
      · refine ⟨old ++ [t], rest, by simp, ?_, ?_, hrest⟩
        · rw [List.map_cons, hdue, Nat.sub_self]
          rfl
        · intro t' ht'
          rcases List.mem_append.mp ht' with ht' | ht'
          · exact Nat.lt_succ_of_lt (hold t' ht')
          · rw [List.mem_singleton.mp ht']
            omega
      · refine ⟨old, t :: rest, rfl, ?_, fun t' ht' => Nat.lt_succ_of_lt (hold t' ht'), ?_⟩
        · rw [List.map_cons]
          split
          · rename_i hzero
            have hzero := (List.cons.inj hzero).1
            omega
          · rfl
        · intro t' ht'
          rcases List.mem_cons.mp ht' with rfl | ht'
          · omega
          · exact hrest t' ht'

theorem Open.push (h : Open len (now + 1) times windows) (hpast : ∀ t ∈ times, t < now)
    (hlen : 0 < len) : Open len (now + 1) (times ++ [now]) (windows ++ [len]) := by
  obtain ⟨hsorted, old, recent, rfl, rfl, hold, hrecent⟩ := h
  refine ⟨List.pairwise_append.mpr ⟨hsorted, List.pairwise_singleton _ _, ?_⟩,
    old, recent ++ [now], by simp, ?_, hold, ?_⟩
  · intro t ht t' ht'
    rw [List.mem_singleton.mp ht']
    exact hpast t ht
  · rw [List.map_append, List.map_singleton]
    have hnow : now + len + 1 - (now + 1) = len := by omega
    rw [hnow]
  · intro t ht
    rcases List.mem_append.mp ht with ht | ht
    · exact hrecent t ht
    · rw [List.mem_singleton.mp ht]
      omega

/-- With a window to spare, the times stay apart. -/
theorem Far.push (hfar : Far limit len times) (h : Open len (now + 1) times windows)
    (hroom : windows.length < limit) : Far limit len (times ++ [now]) := by
  obtain ⟨_, old, recent, rfl, rfl, hold, _⟩ := h
  rw [List.length_map] at hroom
  intro i t t' hi hi'
  by_cases hlast : i + limit < (old ++ recent).length
  · rw [List.getElem?_append_left hlast] at hi'
    rw [List.getElem?_append_left (by omega)] at hi
    exact hfar i t t' hi hi'
  · have hlt : i < old.length := by
      have hbound := (List.getElem?_eq_some_iff.mp hi').1
      simp only [List.length_append, List.length_singleton] at hbound hlast
      omega
    have hend : i + limit = (old ++ recent).length := by
      have hbound := (List.getElem?_eq_some_iff.mp hi').1
      simp only [List.length_append, List.length_singleton] at hbound hlast ⊢
      omega
    rw [hend, List.getElem?_concat_length] at hi'
    rw [List.append_assoc, List.getElem?_append_left hlt] at hi
    rw [← Option.some.inj hi']
    exact Nat.le_of_lt_succ (hold t (List.mem_of_getElem? hi))

end RateWindow
