import Mathlib.Order.Basic

/-!
Round robin over `m` participants: the one after the last is the first. How far ahead a
participant is falls by one with each turn that is not its own.
-/

namespace RoundRobin

def next (m i : Nat) : Nat := if m ≤ i + 1 then 0 else i + 1

/-- How many turns come before that of `v`, when it is the turn of `i`. -/
def ahead (m i v : Nat) : Nat := if i ≤ v then v - i else v + m - i

theorem next_lt {m : Nat} (hm : 0 < m) (i : Nat) : next m i < m := by
  rw [next]
  split
  · exact hm
  · omega

theorem ahead_self (m i : Nat) : ahead m i i = 0 := by
  rw [ahead, if_pos (Nat.le_refl i), Nat.sub_self]

theorem ahead_lt {m i v : Nat} (hv : v < m) : ahead m i v < m := by
  rw [ahead]
  split
  · omega
  · omega

theorem ahead_next {m i v : Nat} (hv : v < m) (hi : i < m) (hne : i ≠ v) :
    ahead m (next m i) v + 1 = ahead m i v := by
  rw [ahead, ahead, next]
  split
  · rw [if_pos (Nat.zero_le v)]
    split
    · omega
    · omega
  · split
    · rw [if_pos (by omega)]
      omega
    · rw [if_neg (by omega)]
      omega

/-- A participant whose turn is over waits for all the others. -/
theorem ahead_next_self {m i : Nat} (hi : i < m) : ahead m (next m i) i + 1 = m := by
  rw [ahead, next]
  split
  · rw [if_pos (Nat.zero_le i)]
    omega
  · rw [if_neg (by omega)]
    omega

/-- Two counters, of which the higher one goes on when the lower one starts again, are one
counter over their product. -/
theorem next_pair {m n low high : Nat} (hlow : low < m) (hhigh : high < n) :
    (if low + 1 = m then (if high + 1 = n then 0 else (high + 1) * m) else high * m + (low + 1)) =
      next (m * n) (high * m + low) := by
  have hle : (high + 1) * m ≤ m * n := by
    rw [Nat.mul_comm m n]
    exact Nat.mul_le_mul_right m hhigh
  rw [Nat.succ_mul] at hle ⊢
  rw [next]
  by_cases hm : low + 1 = m
  · rw [if_pos hm]
    by_cases hn : high + 1 = n
    · have heq : high * m + m = m * n := by rw [← Nat.succ_mul, ← hn, Nat.mul_comm]
      rw [if_pos hn, if_pos (by omega)]
    · have hlt : high * m + m < m * n := by
        rw [← Nat.succ_mul, Nat.mul_comm m n]
        exact Nat.mul_lt_mul_of_pos_right (by omega) (by omega)
      rw [if_neg hn, if_neg (by omega)]
      omega
  · rw [if_neg hm, if_neg (by omega)]
    omega

theorem pair_injective {m low low' high high' : Nat} (hlow : low < m) (hlow' : low' < m)
    (h : high * m + low = high' * m + low') : low = low' ∧ high = high' := by
  have hpos : 0 < m := Nat.zero_lt_of_lt hlow
  have hmod := congrArg (· % m) h
  have hdiv := congrArg (· / m) h
  simp only [Nat.mul_add_mod_self_right, Nat.mod_eq_of_lt hlow, Nat.mod_eq_of_lt hlow'] at hmod
  simp only [Nat.mul_comm _ m, Nat.mul_add_div hpos, Nat.div_eq_of_lt hlow,
    Nat.div_eq_of_lt hlow', Nat.add_zero] at hdiv
  exact ⟨hmod, hdiv⟩

end RoundRobin
