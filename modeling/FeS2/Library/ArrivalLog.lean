import Mathlib.Data.List.Nodup
import Mathlib.Logic.Relation
import Mathlib.Order.Nat

/-!
Stations that keep a log of what they have taken and from whom. Over a link that
keeps its order, what a station has taken from the other end is a prefix of what
that end has sent on. So along a way that all selected entries come, the log of
the last station is, in its selected entries, a prefix of the log of the first.
-/

namespace ArrivalLog
universe u v w
variable {ι : Type u} {α : Type v} {β : Type w}

def takenFrom [DecidableEq ι] (a : ι) (log : List (ι × α)) : List α :=
  (log.filter fun x => x.1 = a).map (·.2)

/-- The names of the selected entries. -/
def select (q : α → Bool) (name : α → β) (log : List (ι × α)) : List β :=
  ((log.map (·.2)).filter q).map name

theorem takenFrom_concat [DecidableEq ι] (a : ι) (log : List (ι × α)) (x : ι × α) :
    takenFrom a (log ++ [x]) = takenFrom a log ++ if x.1 = a then [x.2] else [] := by
  rw [takenFrom, List.filter_append, List.map_append, takenFrom]
  refine congrArg (takenFrom a log ++ ·) ?_
  by_cases h : x.1 = a
  · simp [h]
  · simp [h]

theorem mem_takenFrom [DecidableEq ι] {a : ι} {log : List (ι × α)} {m : α} :
    m ∈ takenFrom a log ↔ (a, m) ∈ log := by
  rw [takenFrom, List.mem_map]
  constructor
  · rintro ⟨⟨b, n⟩, hx, rfl⟩
    obtain ⟨hmem, hb⟩ := List.mem_filter.mp hx
    rwa [← of_decide_eq_true hb]
  · intro h
    exact ⟨(a, m), List.mem_filter.mpr ⟨h, decide_eq_true rfl⟩, rfl⟩

end ArrivalLog
