import Mathlib.Data.List.Basic

/-!
A delay line: values enter at the end, move one place towards the front with each
shift, and may all be rewritten where they are at any time. A value at the front is
the one that entered as many shifts ago as the line is long, with what the rewrites
since then have made of it.
-/

namespace DelayLine
universe u
variable {α : Type u}

inductive Move (α : Type u)
  | shift (a : α)
  | rewrite (f : α → α)

def Move.isShift : Move α → Bool
  | .shift _ => true
  | .rewrite _ => false

def step (cells : List α) : Move α → List α
  | .shift a => cells.tail ++ [a]
  | .rewrite f => cells.map f

def Move.apply (a : α) : Move α → α
  | .shift _ => a
  | .rewrite f => f a

/-- What the moves make of a value in the cells. -/
def rewritten (a : α) (moves : List (Move α)) : α := moves.foldl Move.apply a

theorem length_run {cells : List α} (moves : List (Move α)) (h : 0 < cells.length) :
    (moves.foldl step cells).length = cells.length := by
  induction moves generalizing cells with
  | nil => rfl
  | cons move moves ih =>
      have hstep : (step cells move).length = cells.length := by
        cases move with
        | shift a =>
            rw [step, List.length_append, List.length_tail, List.length_singleton]
            omega
        | rewrite f => exact List.length_map f
      rw [List.foldl_cons, ih (by omega), hstep]

/-- A value moves towards the front with the shifts. -/
theorem getElem?_run {cells : List α} {moves : List (Move α)} {i : Nat}
    (h : i + moves.countP Move.isShift < cells.length) :
    (moves.foldl step cells)[i]? =
      (cells[i + moves.countP Move.isShift]?).map (rewritten · moves) := by
  induction moves generalizing cells with
  | nil => simp [rewritten]
  | cons move moves ih =>
      cases move with
      | shift a =>
          rw [List.countP_cons_of_pos rfl] at h ⊢
          have htail : i + moves.countP Move.isShift < cells.tail.length := by
            rw [List.length_tail]
            omega
          rw [List.foldl_cons, step, ih (by rw [List.length_append]; omega),
            List.getElem?_append_left htail, List.getElem?_tail, Nat.add_assoc]
          rfl
      | rewrite f =>
          rw [List.countP_cons_of_neg (by simp [Move.isShift])] at h ⊢
          rw [List.foldl_cons, step, ih (by rwa [List.length_map]), List.getElem?_map,
            Option.map_map]
          rfl

/-- The place of a value that has entered. -/
theorem getElem?_run_shift {cells : List α} {before after : List (Move α)} {a : α} {i : Nat}
    (h : i + after.countP Move.isShift + 1 = cells.length) :
    ((before ++ .shift a :: after).foldl step cells)[i]? = some (rewritten a after) := by
  have hlength := length_run before (by omega : 0 < cells.length)
  have hlast : i + after.countP Move.isShift = (before.foldl step cells).tail.length := by
    rw [List.length_tail, hlength]
    omega
  rw [List.foldl_append, List.foldl_cons, step,
    getElem?_run (by rw [List.length_append, ← hlast]; exact Nat.lt_succ_self _), hlast,
    List.getElem?_concat_length]
  rfl

end DelayLine
