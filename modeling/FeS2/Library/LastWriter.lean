import Mathlib.Data.List.Perm.Basic
import Mathlib.Data.List.Pairwise
import Mathlib.Data.List.Range
import Mathlib.Order.Basic

/-!
The last writer before a position. Positions are natural numbers from `lo` on,
`w q` is what position `q` writes, if it writes. `lastWrite w lo n` is the value
of the youngest writer among the first `n` positions. A sorted list of positions
is the filter of a range, so a search along the list is a recursion on positions.
-/

namespace LastWriter
universe u
variable {β : Type u}

def lastWrite (w : Nat → Option β) (lo : Nat) : Nat → Option β
  | 0 => none
  | n + 1 => (w (lo + n)).or (lastWrite w lo n)

@[simp] theorem lastWrite_zero (w : Nat → Option β) (lo : Nat) : lastWrite w lo 0 = none := rfl

theorem lastWrite_succ (w : Nat → Option β) (lo n : Nat) :
    lastWrite w lo (n + 1) = (w (lo + n)).or (lastWrite w lo n) := rfl

theorem lastWrite_add (w : Nat → Option β) (lo k n : Nat) :
    lastWrite w lo (k + n) = (lastWrite w (lo + k) n).or (lastWrite w lo k) := by
  induction n with
  | zero => rfl
  | succ n ih => rw [← Nat.add_assoc, lastWrite_succ, ih, lastWrite_succ, Option.or_assoc,
      Nat.add_assoc]

theorem lastWrite_cons (w : Nat → Option β) (lo n : Nat) :
    lastWrite w lo (n + 1) = (lastWrite w (lo + 1) n).or (w lo) := by
  rw [Nat.add_comm n 1, lastWrite_add, lastWrite_succ, lastWrite_zero, Option.or_none]
  rfl

theorem lastWrite_congr {w w' : Nat → Option β} {lo n : Nat}
    (h : ∀ q, lo ≤ q → q < lo + n → w q = w' q) : lastWrite w lo n = lastWrite w' lo n := by
  induction n with
  | zero => rfl
  | succ n ih =>
      rw [lastWrite_succ, lastWrite_succ, h (lo + n) (by omega) (by omega),
        ih fun q hlo hq => h q hlo (by omega)]

/-- There is a last writer, or nobody writes. -/
theorem lastWrite_cases (w : Nat → Option β) (lo n : Nat) :
    (∃ q b, (lo ≤ q ∧ q < lo + n) ∧ w q = some b ∧ (∀ p, q < p → p < lo + n → w p = none) ∧
        lastWrite w lo n = some b) ∨
      ((∀ q, lo ≤ q → q < lo + n → w q = none) ∧ lastWrite w lo n = none) := by
  induction n with
  | zero => exact Or.inr ⟨fun q hlo hq => absurd hq (not_lt.mpr hlo), rfl⟩
  | succ n ih =>
      cases hw : w (lo + n) with
      | some b =>
          refine Or.inl ⟨lo + n, b, ⟨by omega, by omega⟩, hw, fun p hp hp' => by omega, ?_⟩
          rw [lastWrite_succ, hw, Option.some_or]
      | none =>
          have hlast : lastWrite w lo (n + 1) = lastWrite w lo n := by
            rw [lastWrite_succ, hw, Option.none_or]
          rw [hlast]
          rcases ih with ⟨q, b, hq, hb, hnone, heq⟩ | ⟨hnone, heq⟩
          · refine Or.inl ⟨q, b, ⟨hq.1, by omega⟩, hb, fun p hp hp' => ?_, heq⟩
            rcases Nat.lt_or_eq_of_le (Nat.le_of_lt_succ hp') with hlt | rfl
            · exact hnone p hp hlt
            · exact hw
          · refine Or.inr ⟨fun p hp hp' => ?_, heq⟩
            rcases Nat.lt_or_eq_of_le (Nat.le_of_lt_succ hp') with hlt | rfl
            · exact hnone p hp hlt
            · exact hw

/-- Two strictly increasing lists of the same members are equal. -/
theorem eq_of_mem_iff {l l' : List Nat} (hl : l.Pairwise (· < ·)) (hl' : l'.Pairwise (· < ·))
    (h : ∀ q, q ∈ l ↔ q ∈ l') : l = l' := by
  have hperm : l.Perm l' :=
    (List.perm_ext_iff_of_nodup (hl.imp fun h => ne_of_lt h) (hl'.imp fun h => ne_of_lt h)).mpr h
  exact hperm.eq_of_pairwise (fun a b _ _ hab hba => absurd hab (not_lt_of_gt hba)) hl hl'

theorem pairwise_filter_range' (p : Nat → Bool) (lo n : Nat) :
    ((List.range' lo n).filter p).Pairwise (· < ·) :=
  List.Pairwise.filter p List.pairwise_lt_range'

theorem mem_filter_range' {p : Nat → Bool} {lo n q : Nat} :
    q ∈ (List.range' lo n).filter p ↔ (lo ≤ q ∧ q < lo + n) ∧ p q := by
  rw [List.mem_filter, List.mem_range'_1]

/-- Up to a member, a sorted list has the smaller members. -/
theorem mem_takeWhile_ne {l : List Nat} (hl : l.Pairwise (· < ·)) {x q : Nat} (hx : x ∈ l) :
    q ∈ l.takeWhile (· ≠ x) ↔ q ∈ l ∧ q < x := by
  induction l with
  | nil => cases hx
  | cons y l ih =>
      obtain ⟨hy, hl⟩ := List.pairwise_cons.mp hl
      by_cases hyx : y = x
      · subst hyx
        rw [List.takeWhile_cons_of_neg (by simp)]
        simp only [List.not_mem_nil, List.mem_cons, false_iff, not_and, not_lt]
        rintro (rfl | hq)
        · exact le_rfl
        · exact (hy q hq).le
      · have hx' : x ∈ l := (List.mem_cons.mp hx).resolve_left (Ne.symm hyx)
        rw [List.takeWhile_cons_of_pos (by simpa using hyx), List.mem_cons, List.mem_cons,
          ih hl hx']
        constructor
        · rintro (rfl | ⟨hq, hlt⟩)
          · exact ⟨Or.inl rfl, hy x hx'⟩
          · exact ⟨Or.inr hq, hlt⟩
        · rintro ⟨rfl | hq, hlt⟩
          · exact Or.inl rfl
          · exact Or.inr ⟨hq, hlt⟩

/-- From a member on, a sorted list has the members that are not smaller. -/
theorem mem_dropWhile_ne {l : List Nat} (hl : l.Pairwise (· < ·)) {x q : Nat} (hx : x ∈ l) :
    q ∈ l.dropWhile (· ≠ x) ↔ q ∈ l ∧ x ≤ q := by
  induction l with
  | nil => cases hx
  | cons y l ih =>
      obtain ⟨hy, hl⟩ := List.pairwise_cons.mp hl
      by_cases hyx : y = x
      · subst hyx
        rw [List.dropWhile_cons_of_neg (by simp)]
        refine ⟨fun hq => ⟨hq, ?_⟩, And.left⟩
        rcases List.mem_cons.mp hq with rfl | hq
        · exact le_rfl
        · exact (hy q hq).le
      · have hx' : x ∈ l := (List.mem_cons.mp hx).resolve_left (Ne.symm hyx)
        rw [List.dropWhile_cons_of_pos (by simpa using hyx), ih hl hx', List.mem_cons]
        constructor
        · rintro ⟨hq, hle⟩
          exact ⟨Or.inr hq, hle⟩
        · rintro ⟨rfl | hq, hle⟩
          · exact absurd (hy x hx') (not_lt_of_ge hle)
          · exact ⟨hq, hle⟩

end LastWriter
