import Mathlib.Algebra.BigOperators.Group.List.Basic

/-!
Numbers in mixed radix, lowest digit first: splitting a number into digits and joining
digits to a number undo each other.
-/

namespace MixedRadix
variable {bases digits : List Nat} {n : Nat}

def split : List Nat → Nat → List Nat
  | [], _ => []
  | base :: bases, n => n % base :: split bases (n / base)

def join : List Nat → List Nat → Nat
  | base :: bases, digit :: digits => digit + base * join bases digits
  | _, _ => 0

theorem join_split (h : n < bases.prod) : join bases (split bases n) = n := by
  induction bases generalizing n with
  | nil => exact (Nat.lt_one_iff.mp h).symm
  | cons base bases ih =>
      rw [List.prod_cons] at h
      rw [split, join, ih (Nat.div_lt_of_lt_mul h)]
      exact Nat.mod_add_div n base

theorem split_join (h : List.Forall₂ (· < ·) digits bases) :
    split bases (join bases digits) = digits := by
  induction h with
  | nil => rfl
  | @cons digit base digits bases hdigit hrest ih =>
      have hpos : 0 < base := Nat.zero_lt_of_lt hdigit
      rw [join, split, Nat.add_mul_mod_self_left, Nat.mod_eq_of_lt hdigit,
        Nat.add_mul_div_left _ _ hpos, Nat.div_eq_of_lt hdigit, Nat.zero_add, ih]

theorem join_lt (h : List.Forall₂ (· < ·) digits bases) : join bases digits < bases.prod := by
  induction h with
  | nil => exact Nat.zero_lt_one
  | @cons digit base digits bases hdigit hrest ih =>
      rw [join, List.prod_cons]
      calc digit + base * join bases digits
          < base + base * join bases digits := Nat.add_lt_add_right hdigit _
        _ = base * (join bases digits + 1) := by rw [Nat.mul_add, Nat.mul_one, Nat.add_comm]
        _ ≤ base * bases.prod := Nat.mul_le_mul_left base ih

end MixedRadix
