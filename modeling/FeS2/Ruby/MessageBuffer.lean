import Mathlib.Data.List.Sort
import Mathlib.Data.List.TakeWhile
import Mathlib.Order.Nat

/-!
The message buffer: a heap of messages in the order of their arrival times. With
strict fifo a message is refused that would come before the last one, so the
heap is a queue.
-/

namespace FeS2.Ruby

structure MessageBufferNode (α : Type) where
  m_time : Nat
  m_msg_counter : Nat
  m_msgptr : α

def NodeLessThenEq {α : Type} (n1 n2 : MessageBufferNode α) : Prop :=
  n1.m_time < n2.m_time ∨ n1.m_time = n2.m_time ∧ n1.m_msg_counter ≤ n2.m_msg_counter

instance {α : Type} : DecidableRel (NodeLessThenEq (α := α)) := fun n1 n2 =>
  inferInstanceAs (Decidable (n1.m_time < n2.m_time ∨
    n1.m_time = n2.m_time ∧ n1.m_msg_counter ≤ n2.m_msg_counter))

/-- `m_prio_heap` is in the order in which the heap gives its nodes out. -/
structure MessageBuffer (α : Type) where
  m_prio_heap : List (MessageBufferNode α) := []
  m_msg_counter : Nat := 0
  m_last_arrival_time : Nat := 0
  m_strict_fifo : Bool
  m_max_size : Option Nat := none

inductive BufferFault
  | delta
  | fifo
  deriving DecidableEq

namespace MessageBuffer
variable {α : Type} {b b' : MessageBuffer α} {msg : α} {now delta : Nat} {random : Option Nat}

def isReady (now : Nat) (b : MessageBuffer α) : Bool :=
  match b.m_prio_heap with
  | [] => false
  | node :: _ => node.m_time ≤ now

def areNSlotsAvailable (n : Nat) (b : MessageBuffer α) : Bool :=
  match b.m_max_size with
  | none => true
  | some size => b.m_prio_heap.length + n ≤ size

/-- The last arrival time as `enqueue` finds it; `random` is the time that is drawn when
times are randomized. -/
def lastArrival (now : Nat) (random : Option Nat) (b : MessageBuffer α) : Nat :=
  if random.isSome ∧ b.m_strict_fifo then max b.m_last_arrival_time now
  else b.m_last_arrival_time

def arrivalTime (now delta : Nat) (random : Option Nat) (b : MessageBuffer α) : Nat :=
  match random with
  | none => now + delta
  | some time => (if b.m_strict_fifo then b.lastArrival now random else now) + time

def enqueue (now delta : Nat) (random : Option Nat) (msg : α) (b : MessageBuffer α) :
    Except BufferFault (MessageBuffer α) :=
  let arrival := b.arrivalTime now delta random
  if delta = 0 ∨ arrival ≤ now then .error .delta
  else if b.m_strict_fifo ∧ arrival < b.lastArrival now random then .error .fifo
  else .ok
    { b with
      m_prio_heap := b.m_prio_heap.orderedInsert NodeLessThenEq
        { m_time := arrival, m_msg_counter := b.m_msg_counter + 1, m_msgptr := msg }
      m_msg_counter := b.m_msg_counter + 1
      m_last_arrival_time := arrival }

def pop (b : MessageBuffer α) : MessageBuffer α := { b with m_prio_heap := b.m_prio_heap.tail }

def contents (b : MessageBuffer α) : List α := b.m_prio_heap.map (·.m_msgptr)

/-- Strict fifo, and nothing in the heap is later than the last arrival. -/
structure Fifo (b : MessageBuffer α) : Prop where
  strict : b.m_strict_fifo = true
  bound : ∀ n ∈ b.m_prio_heap,
    n.m_time ≤ b.m_last_arrival_time ∧ n.m_msg_counter ≤ b.m_msg_counter

theorem Fifo.pop (h : b.Fifo) : b.pop.Fifo :=
  ⟨h.strict, fun n hn => h.bound n (List.mem_of_mem_tail hn)⟩

theorem contents_pop (b : MessageBuffer α) : b.pop.contents = b.contents.tail :=
  List.map_tail

theorem le_lastArrival : b.m_last_arrival_time ≤ b.lastArrival now random := by
  rw [lastArrival]
  split
  · exact Nat.le_max_left _ _
  · exact Nat.le_refl _

/-- A queue takes a message at its end. -/
theorem Fifo.enqueue (h : b.Fifo) (henq : b.enqueue now delta random msg = .ok b') :
    b'.Fifo ∧ b'.contents = b.contents ++ [msg] := by
  rw [MessageBuffer.enqueue] at henq
  generalize b.arrivalTime now delta random = arrival at henq
  split at henq
  · cases henq
  · split at henq
    · cases henq
    · rename_i hfifo
      have hlater : b.m_last_arrival_time ≤ arrival :=
        le_lastArrival.trans (Nat.le_of_not_lt fun hlt => hfifo ⟨h.strict, hlt⟩)
      cases henq
      -- the new node comes after all others
      have hafter : ∀ n ∈ b.m_prio_heap, ¬NodeLessThenEq
          { m_time := arrival, m_msg_counter := b.m_msg_counter + 1, m_msgptr := msg } n := by
        intro n hn hless
        obtain ⟨htime, hcounter⟩ := h.bound n hn
        rcases hless with hlt | ⟨-, hlt⟩
        · exact absurd hlt (by dsimp only; omega)
        · exact absurd hlt (by dsimp only; omega)
      have hinsert : b.m_prio_heap.orderedInsert NodeLessThenEq
          { m_time := arrival, m_msg_counter := b.m_msg_counter + 1, m_msgptr := msg } =
          b.m_prio_heap ++
            [{ m_time := arrival, m_msg_counter := b.m_msg_counter + 1, m_msgptr := msg }] := by
        rw [List.orderedInsert_eq_take_drop, List.takeWhile_eq_self_iff.mpr (by simpa using hafter),
          List.dropWhile_eq_nil_iff.mpr (by simpa using hafter)]
      refine ⟨⟨h.strict, fun n hn => ?_⟩, ?_⟩
      · dsimp only at hn ⊢
        rw [hinsert] at hn
        rcases List.mem_append.mp hn with hn | hn
        · obtain ⟨htime, hcounter⟩ := h.bound n hn
          omega
        · rw [List.mem_singleton.mp hn]
          exact ⟨Nat.le_refl _, Nat.le_refl _⟩
      · rw [contents, hinsert, List.map_append]
        rfl

end MessageBuffer
end FeS2.Ruby
