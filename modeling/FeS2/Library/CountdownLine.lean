import Mathlib.Data.List.Basic

/-!
A line of values that wait for a bus, each with a countdown. A value whose countdown is
over takes the bus and holds it for `gap` cycles. If the countdowns lie `gap` apart, the
bus is free whenever a value takes it, and no two of them are over at once.
-/

namespace CountdownLine
universe u
variable {α : Type u} {gap busy n T bound bound' : Nat} {line : List (α × Nat)} {a : α}

/-- The value that leaves the line in a cycle, and what the cycle makes of the line. -/
def tick (line : List (α × Nat)) : Option α × List (α × Nat) :=
  match line.map fun e => (e.1, e.2 - 1) with
  | (a, 0) :: rest => (some a, rest)
  | waiting => (none, waiting)

/-- The bus is held for `busy` more cycles, and for none if it is free. -/
structure Clear (gap busy : Nat) (line : List (α × Nat)) : Prop where
  pos : ∀ e ∈ line, 0 < e.2
  spaced : line.Pairwise fun e f => e.2 + gap ≤ f.2
  free : ∀ e ∈ line, busy ≤ e.2

/-- What is on the bus and on the line at time `T` has left the bus at time `bound`. -/
structure Before (gap busy : Nat) (line : List (α × Nat)) (T bound : Nat) : Prop where
  bus : 0 < busy → T + busy ≤ bound
  line : ∀ e ∈ line, T + e.2 + gap ≤ bound

theorem Clear.nil : Clear gap busy ([] : List (α × Nat)) where
  pos _ h := nomatch h
  spaced := List.Pairwise.nil
  free _ h := nomatch h

theorem Before.nil : Before gap 0 ([] : List (α × Nat)) T bound where
  bus h := absurd h (Nat.lt_irrefl 0)
  line _ h := nomatch h

theorem Before.mono (h : Before gap busy line T bound) (hbound : bound ≤ bound') :
    Before gap busy line T bound' :=
  ⟨fun hbusy => Nat.le_trans (h.bus hbusy) hbound, fun e he => Nat.le_trans (h.line e he) hbound⟩

theorem Clear.of_append {line' : List (α × Nat)} (h : Clear gap busy (line ++ line')) :
    Clear gap busy line where
  pos e he := h.pos e (List.mem_append_left _ he)
  spaced := (List.pairwise_append.mp h.spaced).1
  free e he := h.free e (List.mem_append_left _ he)

/-- A value joins the line when all others are off the bus before it is due. -/
theorem Clear.push (h : Clear gap busy line) (hb : Before gap busy line T bound) (hn : 0 < n)
    (hbound : bound ≤ T + n) : Clear gap busy (line ++ [(a, n)]) where
  pos e he := by
    rcases List.mem_append.mp he with he | he
    · exact h.pos e he
    · rw [List.mem_singleton.mp he]
      exact hn
  spaced := by
    refine List.pairwise_append.mpr ⟨h.spaced, List.pairwise_singleton _ _, ?_⟩
    intro e he f hf
    rw [List.mem_singleton.mp hf]
    have hline := hb.line e he
    omega
  free e he := by
    rcases List.mem_append.mp he with he | he
    · exact h.free e he
    · rw [List.mem_singleton.mp he]
      rcases Nat.eq_zero_or_pos busy with hzero | hbusy
      · omega
      · have hbus := hb.bus hbusy
        omega

theorem Before.push (hb : Before gap busy line T bound) (hbound : bound ≤ bound')
    (hn : T + n + gap ≤ bound') : Before gap busy (line ++ [(a, n)]) T bound' where
  bus hbusy := Nat.le_trans (hb.bus hbusy) hbound
  line e he := by
    rcases List.mem_append.mp he with he | he
    · exact Nat.le_trans (hb.line e he) hbound
    · rw [List.mem_singleton.mp he]
      exact hn

theorem Before.of_limit (hline : ∀ e ∈ line, e.2 ≤ n) (hbusy : busy ≤ gap)
    (hbound : T + n + gap ≤ bound) : Before gap busy line T bound where
  bus _ := by omega
  line e he := by
    have hle := hline e he
    omega

/-! A cycle -/

theorem tick_cons_one {rest : List (α × Nat)} :
    tick ((a, 1) :: rest) = (some a, rest.map fun e => (e.1, e.2 - 1)) := rfl

theorem tick_of_ne (hpos : ∀ e ∈ line, 0 < e.2) (h : ∀ e ∈ line.head?, e.2 ≠ 1) :
    tick line = (none, line.map fun e => (e.1, e.2 - 1)) := by
  cases line with
  | nil => rfl
  | cons e rest =>
      have hne : e.2 - 1 ≠ 0 := by
        have hhead := h e rfl
        have hlt := hpos e (List.mem_cons_self ..)
        omega
      unfold tick
      rw [List.map_cons]
      split
      · rename_i heq
        exact absurd (congrArg Prod.snd (List.cons.inj heq).1) hne
      · rfl

/-- Either the first value is due, or none is. -/
theorem due_or_not (line : List (α × Nat)) :
    (∃ a rest, line = (a, 1) :: rest) ∨ ∀ e ∈ line.head?, e.2 ≠ 1 := by
  cases line with
  | nil => exact .inr fun e he => nomatch he
  | cons e rest =>
      obtain ⟨a, n⟩ := e
      by_cases hn : n = 1
      · subst hn
        exact .inl ⟨a, rest, rfl⟩
      · refine .inr fun e he => ?_
        rw [← Option.some.inj he]
        exact hn

/-- The values keep their order. -/
theorem tick_values (hpos : ∀ e ∈ line, 0 < e.2) :
    (tick line).1.toList ++ (tick line).2.map Prod.fst = line.map Prod.fst := by
  rcases due_or_not line with ⟨a, rest, rfl⟩ | h
  · rw [tick_cons_one]
    simp [Function.comp_def]
  · rw [tick_of_ne hpos h]
    simp [Function.comp_def]

/-- A value that joins the line a cycle early has one more to wait. -/
theorem tick_append (hpos : ∀ e ∈ line, 0 < e.2) (hn : 0 < n) :
    tick (line ++ [(a, n + 1)]) = ((tick line).1, (tick line).2 ++ [(a, n)]) := by
  have hne : n + 1 ≠ 1 := by omega
  rcases due_or_not line with ⟨a', rest, rfl⟩ | h
  · rw [tick_cons_one, List.cons_append, tick_cons_one, List.map_append]
    rfl
  · rw [tick_of_ne hpos h, tick_of_ne, List.map_append]
    · rfl
    · intro e he
      rcases List.mem_append.mp he with he | he
      · exact hpos e he
      · rw [List.mem_singleton.mp he]
        exact Nat.succ_pos n
    · cases line with
      | nil =>
          intro e he
          rw [← Option.some.inj he]
          exact hne
      | cons e rest => exact h

/-- How long the bus is held after a cycle. -/
def busyAfter (gap busy : Nat) (line : List (α × Nat)) : Nat :=
  match (tick line).1 with
  | some _ => gap
  | none => busy - 1

theorem Clear.tick (h : Clear gap busy line) (hgap : 0 < gap) :
    Clear gap (busyAfter gap busy line) (tick line).2 := by
  rcases due_or_not line with ⟨a, rest, rfl⟩ | hne
  · rw [busyAfter, tick_cons_one]
    obtain ⟨hfirst, hrest⟩ := List.pairwise_cons.mp h.spaced
    refine ⟨?_, ?_, ?_⟩
    · intro e he
      obtain ⟨f, hf, rfl⟩ := List.mem_map.mp he
      have hle := hfirst f hf
      simp only
      omega
    · refine List.pairwise_map.mpr (hrest.imp_of_mem ?_)
      intro e f he hf hle
      have he := hfirst e he
      have hf := hfirst f hf
      simp only
      omega
    · intro e he
      obtain ⟨f, hf, rfl⟩ := List.mem_map.mp he
      have hle := hfirst f hf
      simp only
      omega
  · rw [busyAfter, tick_of_ne h.pos hne]
    have hge (e : α × Nat) (he : e ∈ line) : 2 ≤ e.2 := by
      cases line with
      | nil => cases he
      | cons e' rest =>
          obtain ⟨hfirst, hrest⟩ := List.pairwise_cons.mp h.spaced
          have hpos := h.pos e' (List.mem_cons_self ..)
          rcases List.mem_cons.mp he with rfl | he
          · have := hne e rfl
            omega
          · have := hfirst e he
            omega
    refine ⟨?_, ?_, ?_⟩
    · intro e he
      obtain ⟨f, hf, rfl⟩ := List.mem_map.mp he
      have hle := hge f hf
      simp only
      omega
    · refine List.pairwise_map.mpr (h.spaced.imp_of_mem ?_)
      intro e f he hf hle
      have he := hge e he
      simp only
      omega
    · intro e he
      obtain ⟨f, hf, rfl⟩ := List.mem_map.mp he
      have hle := h.free f hf
      simp only
      omega

theorem busyAfter_le (h : busy ≤ gap) : busyAfter gap busy line ≤ gap := by
  unfold busyAfter
  split
  · exact Nat.le_refl gap
  · omega

/-- The bus is free in time for the value that leaves the line. -/
theorem Clear.free_of_due (h : Clear gap busy line) (hdue : (CountdownLine.tick line).1 = some a) :
    busy ≤ 1 := by
  rcases due_or_not line with ⟨a, rest, rfl⟩ | hne
  · exact h.free _ (List.mem_cons_self ..)
  · rw [tick_of_ne h.pos hne] at hdue
    cases hdue

theorem Before.tick (hb : Before gap busy line T bound) (hpos : ∀ e ∈ line, 0 < e.2) :
    Before gap (busyAfter gap busy line) (tick line).2 (T + 1) bound := by
  have hrest (rest : List (α × Nat)) (hmem : ∀ e ∈ rest, e ∈ line) :
      ∀ e ∈ rest.map fun e => (e.1, e.2 - 1), T + 1 + e.2 + gap ≤ bound := by
    intro e he
    obtain ⟨f, hf, rfl⟩ := List.mem_map.mp he
    have hle := hb.line f (hmem f hf)
    have hlt := hpos f (hmem f hf)
    simp only
    omega
  rcases due_or_not line with ⟨a, rest, rfl⟩ | hne
  · rw [busyAfter, tick_cons_one]
    exact ⟨fun _ => hb.line _ (List.mem_cons_self ..),
      hrest rest fun e he => List.mem_cons_of_mem _ he⟩
  · rw [busyAfter, tick_of_ne hpos hne]
    refine ⟨?_, hrest line fun e he => he⟩
    change 0 < busy - 1 → T + 1 + (busy - 1) ≤ bound
    intro hbusy
    have hbus := hb.bus (by omega)
    omega

theorem mem_tick {e : α × Nat} (hpos : ∀ e ∈ line, 0 < e.2) (he : e ∈ (tick line).2) :
    (e.1, e.2 + 1) ∈ line := by
  have hmem (rest : List (α × Nat)) (hrest : ∀ e ∈ rest, e ∈ line)
      (he : e ∈ rest.map fun e => (e.1, e.2 - 1)) : (e.1, e.2 + 1) ∈ line := by
    obtain ⟨f, hf, rfl⟩ := List.mem_map.mp he
    rw [Nat.sub_add_cancel (hpos f (hrest f hf))]
    exact hrest f hf
  rcases due_or_not line with ⟨a, rest, rfl⟩ | h
  · exact hmem rest (fun e he => List.mem_cons_of_mem _ he) he
  · rw [tick_of_ne hpos h] at he
    exact hmem line (fun e he => he) he

end CountdownLine
