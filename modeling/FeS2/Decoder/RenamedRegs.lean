import FeS2.Decoder.Uops

/-!
The registers behind their names. A uop gets a new physical register for its result, with a flags
word of its own; the names of the flags are mapped to it one by one, those that the uop sets.
-/

namespace FeS2.Decoder

/-- The physical registers from `free` on are not in use. -/
structure RenamedMachine where
  map : Reg → Nat
  values : Nat → W64
  flags : Nat → Flags
  free : Nat
  mapped : ∀ r, map r < free
  memory : W64 → BitVec 8
  context : W64 → W64

namespace RenamedMachine

/-- What a uop reads through the names. -/
def machine (s : RenamedMachine) : Machine where
  regs r := s.values (s.map r)
  flags r := s.flags (s.map r)
  memory := s.memory
  context := s.context

theorem remapped (s : RenamedMachine) (t : TransOp) (r : Reg) :
    (if t.writes r then s.free else s.map r) < s.free + 1 := by
  split
  · exact Nat.lt_succ_self _
  · exact Nat.lt_succ_of_lt (s.mapped r)

/-- The destination of a uop, and the flags that it sets for the user, are renamed. -/
def write (left : Leftover) (t : TransOp) (data : W64) (flags : Flags) (s : RenamedMachine) :
    RenamedMachine :=
  if t.rd = .zero then s
  else
    { map := fun r => if t.writes r then s.free else s.map r
      values := fun p => if p = s.free then data else s.values p
      flags := fun p =>
        if p = s.free then if t.setflags = .none then left.flags else flags else s.flags p
      free := s.free + 1
      mapped := s.remapped t
      memory := s.memory
      context := s.context }

theorem write_machine (left : Leftover) (t : TransOp) (data : W64) (flags : Flags)
    (s : RenamedMachine) :
    (s.write left t data flags).machine = t.write left data flags s.machine := by
  rw [write, TransOp.write]
  by_cases hzero : t.rd = .zero
  · rw [if_pos hzero, if_pos hzero]
  · rw [if_neg hzero, if_neg hzero]
    have hold : ∀ r, s.map r ≠ s.free := fun r => Nat.ne_of_lt (s.mapped r)
    have hread : ∀ {α : Type} (new : α) (old : Nat → α) (r : Reg),
        (fun p => if p = s.free then new else old p)
            (if t.writes r then s.free else s.map r) =
          if t.writes r then new else old (s.map r) := by
      intro α new old r
      cases t.writes r with
      | true => exact if_pos rfl
      | false => exact if_neg (hold r)
    rw [machine, machine]
    congr 1
    · funext r
      exact hread data s.values r
    · funext r
      exact hread _ s.flags r

/-- The uops of an x86 op on the physical registers. -/
def run (left : Nat → Leftover) (next : W64) : List TransOp → RenamedMachine →
    Option (RenamedMachine × W64)
  | [], s => some (s, next)
  | t :: ts, s =>
      match t.exec (left ts.length) s.machine with
      | none => none
      | some (.result data flags) => run left next ts (s.write (left ts.length) t data flags)
      | some (.stored memory) => run left next ts { s with memory := memory }
      | some (.branched rip) => some (s, rip)
      | some (.checkFailed data) =>
          some (s.write (left ts.length) t data .clear, (ts.getLastD t).ripseq)

/-- Through the names, the run is that of the uops. -/
theorem run_machine (left : Nat → Leftover) (next : W64) (ts : List TransOp)
    (s : RenamedMachine) :
    (s.run left next ts).map (fun r => (r.1.machine, r.2)) = runUops left next ts s.machine := by
  induction ts generalizing s with
  | nil => rfl
  | cons t ts ih =>
      rw [run, runUops]
      cases t.exec (left ts.length) s.machine with
      | none => rfl
      | some outcome =>
          cases outcome with
          | result data flags =>
              dsimp only
              rw [ih, write_machine]
          | stored memory => exact ih { s with memory := memory }
          | branched rip => rfl
          | checkFailed data =>
              dsimp only
              rw [Option.map_some, write_machine]

end RenamedMachine
end FeS2.Decoder
