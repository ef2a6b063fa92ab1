import FeS2.Common.PrioHeap
import FeS2.Library.EventSystem

/-!
The message buffer on its heap. Messages of one arrival time are told apart by the counter of the
buffer, an `int` that wraps around. A strict-fifo buffer is a queue as long as the counter does
not wrap between two messages of one arrival time that are in it together.
-/

namespace FeS2.Ruby
open FeS2.Common EventSystem

structure HeapNode (α : Type) where
  m_time : Nat
  m_msg_counter : BitVec 32
  m_msgptr : α

namespace HeapNode
variable {α : Type}

/-- `node_less_then_eq`, but for the assertion that the counters of one time are different. -/
def LessThenEq (n1 n2 : HeapNode α) : Prop :=
  if n1.m_time = n2.m_time then n1.m_msg_counter.toInt ≤ n2.m_msg_counter.toInt
  else n1.m_time ≤ n2.m_time

instance : DecidableRel (LessThenEq (α := α)) := fun n1 n2 =>
  inferInstanceAs (Decidable (if n1.m_time = n2.m_time then
    n1.m_msg_counter.toInt ≤ n2.m_msg_counter.toInt else n1.m_time ≤ n2.m_time))

theorem lessThenEq_iff {n1 n2 : HeapNode α} : n1.LessThenEq n2 ↔
    n1.m_time < n2.m_time ∨
      n1.m_time = n2.m_time ∧ n1.m_msg_counter.toInt ≤ n2.m_msg_counter.toInt := by
  rw [LessThenEq]
  split
  · omega
  · omega

instance : Std.Total (LessThenEq (α := α)) where
  total n1 n2 := by
    rw [lessThenEq_iff, lessThenEq_iff]
    omega

instance : IsTrans (HeapNode α) LessThenEq where
  trans n1 n2 n3 h h' := by
    rw [lessThenEq_iff] at h h' ⊢
    omega

/-- The node comes first, and no assertion fails on the two. -/
def Before (n1 n2 : HeapNode α) : Prop :=
  n1.m_time < n2.m_time ∨
    n1.m_time = n2.m_time ∧ n1.m_msg_counter.toInt < n2.m_msg_counter.toInt

theorem Before.not_le {n1 n2 : HeapNode α} (h : n1.Before n2) : ¬ n2.LessThenEq n1 := by
  rw [Before] at h
  rw [lessThenEq_iff]
  omega

end HeapNode

structure HeapBuffer (α : Type) where
  m_prio_heap : PrioHeap (HeapNode α)
  m_msg_counter : BitVec 32
  m_size : Int
  m_strict_fifo : Bool
  m_last_arrival_time : Nat

namespace HeapBuffer
variable {α : Type}

def isReady (now : Nat) (b : HeapBuffer α) : Bool :=
  0 < b.m_prio_heap.size && b.m_prio_heap.peekMin.m_time ≤ now

/-- The last arrival time as `enqueue` finds it; `random` is the time that is drawn when times
are randomized. -/
def lastArrival (now : Nat) (random : Option Nat) (b : HeapBuffer α) : Nat :=
  if random.isSome ∧ b.m_strict_fifo ∧ b.m_last_arrival_time < now then now
  else b.m_last_arrival_time

def arrivalTime (now delta : Nat) (random : Option Nat) (b : HeapBuffer α) : Nat :=
  match random with
  | none => now + delta
  | some time => (if b.m_strict_fifo then b.lastArrival now random else now) + time

/-- The node of a message. -/
def node (now delta : Nat) (random : Option Nat) (msg : α) (b : HeapBuffer α) : HeapNode α :=
  { m_time := b.arrivalTime now delta random, m_msg_counter := b.m_msg_counter + 1,
    m_msgptr := msg }

/-- `none` is an assertion or an error. -/
def enqueue (now delta : Nat) (random : Option Nat) (msg : α) (b : HeapBuffer α) :
    Option (HeapBuffer α) :=
  let arrival_time := b.arrivalTime now delta random
  if delta = 0 ∨ arrival_time ≤ now then none
  else if b.m_strict_fifo ∧ arrival_time < b.lastArrival now random then none
  else some
    { b with
      m_prio_heap := b.m_prio_heap.insert HeapNode.LessThenEq (b.node now delta random msg)
      m_msg_counter := b.m_msg_counter + 1
      m_size := b.m_size + 1
      m_last_arrival_time := arrival_time }

/-- The message at the head and the buffer without it. -/
def dequeue (now : Nat) (b : HeapBuffer α) : Option (HeapNode α × HeapBuffer α) :=
  if b.isReady now then
    let (node, heap) := b.m_prio_heap.extractMin HeapNode.LessThenEq
    some (node, { b with m_prio_heap := heap, m_size := b.m_size - 1 })
  else none

end HeapBuffer

/-- A buffer in the course of time, with all nodes that were enqueued, and all that were dequeued
with the time they were. -/
structure BufferLog (α : Type) where
  now : Nat
  buffer : HeapBuffer α
  entered : List (HeapNode α)
  left : List (Nat × HeapNode α)

namespace BufferLog
variable {α : Type}

inductive Event (α : Type)
  | tick (cycles : Nat)
  | enqueue (delta : Nat) (random : Option Nat) (msg : α)
  | dequeue

def step (s : BufferLog α) : Event α → Option (BufferLog α)
  | .tick cycles => some { s with now := s.now + cycles }
  | .enqueue delta random msg =>
      (s.buffer.enqueue s.now delta random msg).map fun b =>
        { s with buffer := b, entered := s.entered ++ [s.buffer.node s.now delta random msg] }
  | .dequeue =>
      (s.buffer.dequeue s.now).map fun r =>
        { s with buffer := r.2, left := s.left ++ [(s.now, r.1)] }

/-- An ordered buffer that nothing has been put into. -/
def init [Inhabited α] : BufferLog α where
  now := 1
  buffer :=
    { m_prio_heap := { m_heap := fun _ => ⟨0, 0, default⟩, m_current_size := 0 }
      m_msg_counter := 0, m_size := 0, m_strict_fifo := true, m_last_arrival_time := 0 }
  entered := []
  left := []

/-- Messages leave in the order they entered, each once and no earlier than it arrives; those
that have not left are in the buffer, which is ready when one of them has arrived. -/
structure Fifo (s : BufferLog α) : Prop where
  order : s.left.map (·.2) <+: s.entered
  kept : s.buffer.m_prio_heap.contents = s.entered.drop s.left.length
  early : ∀ x ∈ s.left, x.2.m_time ≤ x.1
  ready : s.buffer.isReady s.now = true ↔ ∃ n ∈ s.buffer.m_prio_heap.contents, n.m_time ≤ s.now

/-- The counter has not wrapped since the messages entered that are in the buffer and arrive at
the same time as the new one. -/
def Unwrapped (s : BufferLog α) : Event α → Prop
  | .enqueue delta random _ => ∀ n ∈ s.buffer.m_prio_heap.contents,
      n.m_time = s.buffer.arrivalTime s.now delta random →
        n.m_msg_counter.toInt < (s.buffer.m_msg_counter + 1).toInt
  | _ => True

/-- The buffer is a queue. -/
structure Queued (s : BufferLog α) : Prop where
  strict : s.buffer.m_strict_fifo = true
  ordered : s.buffer.m_prio_heap.Ordered HeapNode.LessThenEq
  queue : ∃ q : List (HeapNode α), s.buffer.m_prio_heap.contents = q ∧
    s.entered = s.left.map (·.2) ++ q ∧ q.Pairwise HeapNode.Before ∧
    ∀ n ∈ q, n.m_time ≤ s.buffer.m_last_arrival_time
  early : ∀ x ∈ s.left, x.2.m_time ≤ x.1

theorem queued_init [Inhabited α] : (init : BufferLog α).Queued where
  strict := rfl
  ordered := fun _ hj hn => absurd (Nat.lt_of_lt_of_le hj hn) (Nat.not_lt_zero 1)
  queue := ⟨[], rfl, rfl, List.Pairwise.nil, fun _ hn => absurd hn List.not_mem_nil⟩
  early := fun _ hx => absurd hx List.not_mem_nil

theorem Queued.fifo {s : BufferLog α} (h : s.Queued) : s.Fifo := by
  obtain ⟨q, hq, hentered, -, -⟩ := h.queue
  have hdrop : s.entered.drop s.left.length = q := by
    rw [hentered, List.drop_left' (List.length_map _)]
  refine ⟨hentered ▸ List.prefix_append _ _, hq.trans (congrArg _ hdrop.symm), h.early, ?_⟩
  rw [HeapBuffer.isReady, Bool.and_eq_true, decide_eq_true_iff, decide_eq_true_iff]
  constructor
  · rintro ⟨hsize, htime⟩
    exact ⟨_, PrioHeap.peekMin_mem hsize, htime⟩
  · rintro ⟨n, hn, htime⟩
    have hmin := HeapNode.lessThenEq_iff.mp (h.ordered.peekMin_le n hn)
    refine ⟨?_, by omega⟩
    rw [← PrioHeap.card_contents]
    exact Multiset.card_pos_iff_exists_mem.mpr ⟨n, hn⟩

theorem Queued.enqueue {s s' : BufferLog α} (h : s.Queued) {delta : Nat} {random : Option Nat}
    {msg : α} (hwrap : s.Unwrapped (.enqueue delta random msg))
    (hstep : s.step (.enqueue delta random msg) = some s') : s'.Queued := by
  obtain ⟨q, hq, hentered, hsorted, hlast⟩ := h.queue
  rw [step, Option.map_eq_some_iff] at hstep
  obtain ⟨b, henq, rfl⟩ := hstep
  rw [HeapBuffer.enqueue] at henq
  split at henq
  · cases henq
  · split at henq
    · cases henq
    · rename_i hfifo
      have hlater : s.buffer.m_last_arrival_time ≤ s.buffer.arrivalTime s.now delta random := by
        have hnot := not_and.mp hfifo h.strict
        have hle : s.buffer.m_last_arrival_time ≤ s.buffer.lastArrival s.now random := by
          rw [HeapBuffer.lastArrival]
          split
          · omega
          · exact Nat.le_refl _
        omega
      cases henq
      refine ⟨h.strict, h.ordered.insert _, ?_, h.early⟩
      refine ⟨q ++ [s.buffer.node s.now delta random msg], ?_, ?_, ?_, ?_⟩
      · have hinsert := PrioHeap.insert_contents HeapNode.LessThenEq
          (s.buffer.node s.now delta random msg) s.buffer.m_prio_heap
        rw [hq, Multiset.cons_coe] at hinsert
        exact hinsert.trans (Multiset.coe_eq_coe.mpr (List.perm_append_singleton _ _).symm)
      · rw [hentered, List.append_assoc]
      · refine List.pairwise_append.mpr ⟨hsorted, List.pairwise_singleton _ _, ?_⟩
        intro n hn n' hn'
        rw [List.mem_singleton.mp hn']
        have hle := (hlast n hn).trans hlater
        by_cases heq : n.m_time = s.buffer.arrivalTime s.now delta random
        · exact .inr ⟨heq, hwrap n (hq ▸ hn) heq⟩
        · exact .inl (Nat.lt_of_le_of_ne hle heq)
      · intro n hn
        cases List.mem_append.mp hn with
        | inl hold => exact (hlast n hold).trans hlater
        | inr hnew =>
            rw [List.mem_singleton.mp hnew]
            exact Nat.le_refl _

/-- The node at the head of the heap is the oldest. -/
theorem Queued.head {s : BufferLog α} (h : s.Queued) (hsize : 0 < s.buffer.m_prio_heap.size) :
    ∃ q : List (HeapNode α), s.buffer.m_prio_heap.contents =
        (s.buffer.m_prio_heap.peekMin :: q : List (HeapNode α)) ∧
      s.entered = s.left.map (·.2) ++ s.buffer.m_prio_heap.peekMin :: q ∧
      q.Pairwise HeapNode.Before ∧ ∀ n ∈ q, n.m_time ≤ s.buffer.m_last_arrival_time := by
  obtain ⟨q, hq, hentered, hsorted, hlast⟩ := h.queue
  have hmem := PrioHeap.peekMin_mem hsize
  have hmin := h.ordered.peekMin_le
  rw [hq] at hmem hmin
  cases q with
  | nil => cases hmem
  | cons n q =>
      obtain ⟨hbefore, hsorted⟩ := List.pairwise_cons.mp hsorted
      have hhead : s.buffer.m_prio_heap.peekMin = n := by
        cases List.mem_cons.mp hmem with
        | inl heq => exact heq
        | inr hin => exact absurd (hmin n List.mem_cons_self) (hbefore _ hin).not_le
      rw [hhead]
      exact ⟨q, hq, hentered, hsorted, fun x hx => hlast x (List.mem_cons_of_mem n hx)⟩

theorem Queued.dequeue {s s' : BufferLog α} (h : s.Queued) (hstep : s.step .dequeue = some s') :
    s'.Queued := by
  rw [step, Option.map_eq_some_iff] at hstep
  obtain ⟨r, hdeq, rfl⟩ := hstep
  rw [HeapBuffer.dequeue] at hdeq
  split at hdeq
  · rename_i hready
    rw [HeapBuffer.isReady, Bool.and_eq_true, decide_eq_true_iff, decide_eq_true_iff] at hready
    obtain ⟨q, hq, hentered, hsorted, hlast⟩ := h.head hready.1
    have hrest := PrioHeap.extractMin_contents HeapNode.LessThenEq hready.1
    cases hdeq
    refine ⟨h.strict, h.ordered.extractMin, ⟨q, ?_, ?_, hsorted, hlast⟩, ?_⟩
    · rw [hq, ← Multiset.cons_coe] at hrest
      exact ((Multiset.cons_inj_right _).mp hrest).symm
    · rw [hentered, List.map_append, List.append_assoc]
      rfl
    · intro x hx
      cases List.mem_append.mp hx with
      | inl hold => exact h.early x hold
      | inr hnew =>
          rw [List.mem_singleton.mp hnew]
          exact hready.2
  · cases hdeq

theorem Queued.step {s s' : BufferLog α} (h : s.Queued) (e : Event α) (hwrap : s.Unwrapped e)
    (hstep : s.step e = some s') : s'.Queued := by
  cases e with
  | tick cycles =>
      cases hstep
      exact ⟨h.strict, h.ordered, h.queue, h.early⟩
  | enqueue delta random msg => exact h.enqueue hwrap hstep
  | dequeue => exact h.dequeue hstep

/-! Runs in which the counter does not wrap -/

def Event.enqueues : Event α → Bool
  | .enqueue _ _ _ => true
  | _ => false

/-- The counter is the number of messages, and no message in the buffer has a later one. -/
structure Counted (s : BufferLog α) : Prop where
  counter : s.buffer.m_msg_counter = BitVec.ofNat 32 s.entered.length
  below : ∀ n ∈ s.buffer.m_prio_heap.contents, n.m_msg_counter.toNat ≤ s.entered.length

theorem Counted.enqueue {s s' : BufferLog α} (h : s.Counted) {delta : Nat} {random : Option Nat}
    {msg : α} (hstep : s.step (.enqueue delta random msg) = some s') :
    s'.Counted ∧ s'.entered.length = s.entered.length + 1 := by
  rw [step, Option.map_eq_some_iff] at hstep
  obtain ⟨b, henq, rfl⟩ := hstep
  have hlength : (s.entered ++ [s.buffer.node s.now delta random msg]).length =
      s.entered.length + 1 := by rw [List.length_append, List.length_singleton]
  have hcounter : s.buffer.m_msg_counter + 1 = BitVec.ofNat 32 (s.entered.length + 1) :=
    (congrArg (· + 1) h.counter).trans (BitVec.ofNat_add _ 1).symm
  rw [HeapBuffer.enqueue] at henq
  split at henq
  · cases henq
  · split at henq
    · cases henq
    · cases henq
      refine ⟨⟨hlength ▸ hcounter, fun n hn => ?_⟩, hlength⟩
      dsimp only at hn ⊢
      rw [PrioHeap.insert_contents, Multiset.mem_cons] at hn
      rw [hlength]
      cases hn with
      | inl hnew =>
          rw [hnew, HeapBuffer.node, hcounter, BitVec.toNat_ofNat]
          exact Nat.mod_le _ _
      | inr hold => exact (h.below n hold).trans (Nat.le_succ _)

theorem Counted.dequeue {s s' : BufferLog α} (h : s.Counted) (hstep : s.step .dequeue = some s') :
    s'.Counted ∧ s'.entered.length = s.entered.length := by
  rw [step, Option.map_eq_some_iff] at hstep
  obtain ⟨r, hdeq, rfl⟩ := hstep
  rw [HeapBuffer.dequeue] at hdeq
  split at hdeq
  · rename_i hready
    rw [HeapBuffer.isReady, Bool.and_eq_true, decide_eq_true_iff] at hready
    have hrest := PrioHeap.extractMin_contents HeapNode.LessThenEq hready.1
    cases hdeq
    exact ⟨⟨h.counter, fun n hn => h.below n (hrest ▸ Multiset.mem_cons_of_mem hn)⟩, rfl⟩
  · cases hdeq

theorem Counted.unwrapped {s : BufferLog α} (h : s.Counted) {delta : Nat} {random : Option Nat}
    {msg : α} (hshort : s.entered.length + 1 < 2147483648) :
    s.Unwrapped (.enqueue delta random msg) := by
  intro n hn _
  have hbelow := h.below n hn
  have hnew : (s.buffer.m_msg_counter + 1).toNat = s.entered.length + 1 := by
    rw [h.counter, BitVec.toNat_add, BitVec.toNat_ofNat]
    simp
    omega
  rw [BitVec.toInt_eq_toNat_of_lt (by omega), BitVec.toInt_eq_toNat_of_lt (by omega)]
  omega

theorem Counted.along {s : BufferLog α} (h : s.Counted) (es : List (Event α))
    (hshort : s.entered.length + es.countP Event.enqueues < 2147483648) :
    Along step Unwrapped s es := by
  induction es generalizing s with
  | nil => trivial
  | cons e es ih =>
      cases e with
      | tick cycles =>
          refine ⟨trivial, fun s' hstep => ?_⟩
          cases hstep
          exact ih ⟨h.counter, h.below⟩ hshort
      | enqueue delta random msg =>
          rw [List.countP_cons_of_pos rfl] at hshort
          refine ⟨h.unwrapped (by omega), fun s' hstep => ?_⟩
          obtain ⟨hcounted, hlength⟩ := h.enqueue hstep
          exact ih hcounted (by omega)
      | dequeue =>
          rw [List.countP_cons_of_neg (by simp [Event.enqueues])] at hshort
          refine ⟨trivial, fun s' hstep => ?_⟩
          obtain ⟨hcounted, hlength⟩ := h.dequeue hstep
          exact ih hcounted (by omega)

/-- The counter does not wrap in a run of fewer than `2^31` messages. -/
theorem unwrapped_of_short [Inhabited α] (es : List (Event α))
    (hshort : es.countP Event.enqueues < 2147483648) : Along step Unwrapped init es :=
  Counted.along ⟨rfl, fun _ hn => absurd hn (Multiset.notMem_zero _)⟩ es
    (by rw [init, List.length_nil, Nat.zero_add]; exact hshort)

/-- A strict-fifo buffer is a queue throughout every run in which the counter does not wrap
between two messages of one arrival time. -/
theorem fifo_throughout [Inhabited α] (es : List (Event α))
    (hwrap : Along step Unwrapped init es) : Throughout step Fifo init es :=
  hwrap.throughout (fun _ h => h.fifo) (fun _ e _ h hC hstep => h.step e hC hstep) queued_init

/-- A message that is dequeued as it arrives. -/
def pass : List (Event Bool) := [.enqueue 1 none false, .tick 1, .dequeue]

theorem fifo_pass : Throughout step Fifo init pass :=
  fifo_throughout pass (unwrapped_of_short pass (by decide))

/-! A run in which the counter wraps -/

/-- An empty buffer after `n` messages. -/
structure Idle (n : Nat) (s : BufferLog Bool) : Prop where
  queued : s.Queued
  size : s.buffer.m_prio_heap.size = 0
  counter : s.buffer.m_msg_counter = BitVec.ofNat 32 n
  last : s.buffer.m_last_arrival_time ≤ s.now
  all_left : s.entered = s.left.map (·.2)

/-- What `enqueue` makes of a buffer with nothing later than this cycle. -/
def enqueued (s : BufferLog Bool) (msg : Bool) : BufferLog Bool :=
  let node := s.buffer.node s.now 1 none msg
  { s with
    buffer :=
      { s.buffer with
        m_prio_heap := s.buffer.m_prio_heap.insert HeapNode.LessThenEq node
        m_msg_counter := s.buffer.m_msg_counter + 1
        m_size := s.buffer.m_size + 1
        m_last_arrival_time := s.now + 1 }
    entered := s.entered ++ [node] }

theorem step_enqueue {s : BufferLog Bool} (msg : Bool)
    (hlast : s.buffer.m_last_arrival_time ≤ s.now + 1) :
    s.step (.enqueue 1 none msg) = some (s.enqueued msg) := by
  rw [step, HeapBuffer.enqueue, HeapBuffer.arrivalTime, HeapBuffer.lastArrival,
    if_neg (by omega), if_neg (by simp; omega)]
  rfl

theorem Idle.empty {n : Nat} {s : BufferLog Bool} (h : s.Idle n) :
    s.buffer.m_prio_heap.contents = 0 :=
  Multiset.card_eq_zero.mp ((PrioHeap.card_contents _).trans h.size)

theorem Queued.all_left {s : BufferLog Bool} (h : s.Queued)
    (hsize : s.buffer.m_prio_heap.size = 0) : s.entered = s.left.map (·.2) := by
  obtain ⟨q, hq, hentered, -⟩ := h.queue
  have hcard : q.length = 0 := by
    rw [← Multiset.coe_card, ← hq, PrioHeap.card_contents, hsize]
  rw [hentered, List.length_eq_zero_iff.mp hcard, List.append_nil]

theorem step_dequeue {s : BufferLog Bool} (hready : s.buffer.isReady s.now = true) :
    s.step .dequeue = some
      { s with
        buffer :=
          { s.buffer with
            m_prio_heap := (s.buffer.m_prio_heap.extractMin HeapNode.LessThenEq).2
            m_size := s.buffer.m_size - 1 }
        left := s.left ++ [(s.now, s.buffer.m_prio_heap.peekMin)] } := by
  rw [step, HeapBuffer.dequeue, if_pos hready]
  rfl

theorem Idle.pass {n : Nat} {s : BufferLog Bool} (h : s.Idle n) :
    ∃ s', run step s pass = some s' ∧ s'.Idle (n + 1) := by
  have henq := step_enqueue false (h.last.trans (Nat.le_succ _))
  have hqueued : (s.enqueued false).Queued :=
    h.queued.enqueue (fun n hn => by rw [h.empty] at hn; cases hn) henq
  have hcontents : (s.enqueued false).buffer.m_prio_heap.contents =
      {s.buffer.node s.now 1 none false} := by
    refine (PrioHeap.insert_contents HeapNode.LessThenEq _ _).trans ?_
    rw [h.empty]
    rfl
  have hsize : (s.enqueued false).buffer.m_prio_heap.size = 1 := by
    rw [← PrioHeap.card_contents, hcontents, Multiset.card_singleton]
  have hhead : (s.enqueued false).buffer.m_prio_heap.peekMin = s.buffer.node s.now 1 none false := by
    have hmem := PrioHeap.peekMin_mem (hsize ▸ Nat.one_pos)
    rw [hcontents] at hmem
    exact Multiset.mem_singleton.mp hmem
  have htick : Queued { s.enqueued false with now := s.now + 1 } :=
    hqueued.step (.tick 1) trivial rfl
  have hready : (s.enqueued false).buffer.isReady (s.now + 1) = true := by
    rw [HeapBuffer.isReady, hsize, hhead]
    exact decide_eq_true (Nat.le_refl (s.now + 1))
  have hdeq := step_dequeue (s := { s.enqueued false with now := s.now + 1 }) hready
  refine ⟨_, run_cons_eq_some.mpr ⟨_, henq, run_cons_eq_some.mpr ⟨_, rfl,
    run_cons_eq_some.mpr ⟨_, hdeq, rfl⟩⟩⟩, ?_⟩
  have hdone := htick.dequeue hdeq
  have hnone : ((s.enqueued false).buffer.m_prio_heap.extractMin HeapNode.LessThenEq).2.size = 0 :=
    congrArg (· - 1) hsize
  refine ⟨hdone, hnone, ?_, Nat.le_refl (s.now + 1), hdone.all_left hnone⟩
  exact (congrArg (· + 1) h.counter).trans (BitVec.ofNat_add n 1).symm

theorem idle_init : (init : BufferLog Bool).Idle 0 where
  queued := queued_init
  size := rfl
  counter := rfl
  last := Nat.zero_le 1
  all_left := rfl

theorem run_passes (n : Nat) :
    ∃ s, run step init (List.replicate n pass).flatten = some s ∧ s.Idle n := by
  induction n with
  | zero => exact ⟨init, rfl, idle_init⟩
  | succ n ih =>
      obtain ⟨s, hrun, hidle⟩ := ih
      obtain ⟨s', hpass, hidle'⟩ := hidle.pass
      refine ⟨s', ?_, hidle'⟩
      rw [List.replicate_succ', List.flatten_append, run_append, hrun, List.flatten_singleton]
      exact hpass

/-- The second of two messages that enter in one cycle as the counter wraps is at the head. -/
theorem head_after_wrap {s : BufferLog Bool} (h : s.Idle 2147483646) :
    ((s.enqueued true).enqueued false).buffer.m_prio_heap.peekMin =
      (s.enqueued true).buffer.node s.now 1 none false := by
  have hcontents : ((s.enqueued true).enqueued false).buffer.m_prio_heap.contents =
      {(s.enqueued true).buffer.node s.now 1 none false, s.buffer.node s.now 1 none true} := by
    refine (PrioHeap.insert_contents HeapNode.LessThenEq _ _).trans (congrArg _ ?_)
    refine (PrioHeap.insert_contents HeapNode.LessThenEq _ _).trans ?_
    rw [h.empty]
    rfl
  have hordered : ((s.enqueued true).enqueued false).buffer.m_prio_heap.Ordered
      HeapNode.LessThenEq := (h.queued.ordered.insert _).insert _
  have hsize : 0 < ((s.enqueued true).enqueued false).buffer.m_prio_heap.size := Nat.succ_pos _
  have hmem := PrioHeap.peekMin_mem hsize
  have hmin := hordered.peekMin_le
  rw [hcontents] at hmem hmin
  cases Multiset.mem_cons.mp hmem with
  | inl hsecond => exact hsecond
  | inr hfirst =>
      have hle := hmin _ (Multiset.mem_cons_self _ _)
      rw [Multiset.mem_singleton.mp hfirst, HeapNode.lessThenEq_iff] at hle
      have hcounter : s.buffer.m_msg_counter = 2147483646 := h.counter
      have hwrap : ¬ (s.buffer.m_msg_counter + 1).toInt ≤
          (s.buffer.m_msg_counter + 1 + 1).toInt := by
        rw [hcounter]
        decide
      cases hle with
      | inl hlt => exact absurd hlt (Nat.lt_irrefl (s.now + 1))
      | inr heq => exact absurd heq.2 hwrap

theorem wrapped_overtakes : ¬ ∀ es, Throughout step Fifo (init : BufferLog Bool) es := by
  intro h
  obtain ⟨s, hrun, hidle⟩ := run_passes 2147483646
  have htrue := step_enqueue true (hidle.last.trans (Nat.le_succ _))
  have hfalse := step_enqueue (s := s.enqueued true) false (Nat.le_refl (s.now + 1))
  have hhead := head_after_wrap hidle
  have hready : ((s.enqueued true).enqueued false).buffer.isReady (s.now + 1) = true := by
    rw [HeapBuffer.isReady, hhead, Bool.and_eq_true]
    exact ⟨decide_eq_true (Nat.succ_pos _), decide_eq_true (Nat.le_refl (s.now + 1))⟩
  have hdeq := step_dequeue (s := { (s.enqueued true).enqueued false with now := s.now + 1 }) hready
  have hlast := h ((List.replicate 2147483646 pass).flatten ++
    [.enqueue 1 none true, .enqueue 1 none false, .tick 1, .dequeue]) _ List.prefix_rfl _ (by
      rw [run_append, hrun]
      exact run_cons_eq_some.mpr ⟨_, htrue, run_cons_eq_some.mpr ⟨_, hfalse,
        run_cons_eq_some.mpr ⟨_, rfl, run_cons_eq_some.mpr ⟨_, hdeq, rfl⟩⟩⟩⟩)
  have horder : s.left.map (·.2) ++ [(s.enqueued true).buffer.node s.now 1 none false] <+:
      s.left.map (·.2) ++ [s.buffer.node s.now 1 none true,
        (s.enqueued true).buffer.node s.now 1 none false] := by
    have hentered : ((s.enqueued true).enqueued false).entered =
        s.left.map (·.2) ++ [s.buffer.node s.now 1 none true,
          (s.enqueued true).buffer.node s.now 1 none false] := by
      rw [← hidle.all_left]
      exact List.append_assoc _ _ _
    have hprefix := hlast.order
    dsimp only at hprefix
    rw [hhead, hentered, List.map_append] at hprefix
    exact hprefix
  have hsame := (List.cons_prefix_cons.mp ((List.prefix_append_right_inj _).mp horder)).1
  exact absurd (congrArg HeapNode.m_msgptr hsame) Bool.false_ne_true

end BufferLog
end FeS2.Ruby
