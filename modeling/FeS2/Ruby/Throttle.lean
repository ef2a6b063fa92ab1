import FeS2.Library.RoundRobin
import FeS2.Ruby.MessageHeap

/-!
The throttle at the end of a link. In a cycle it spends at most the bandwidth of the link. A
message goes on when its first unit is paid for, and what is left of its size is paid for in the
cycles after that. The virtual networks take turns.
-/

namespace FeS2.Ruby
open FeS2.Common EventSystem

namespace HeapBuffer
variable {α : Type}

/-- `m_max_size` is `none` where the source has -1. -/
def areNSlotsAvailable (n : Nat) (m_max_size : Option Nat) (b : HeapBuffer α) : Bool :=
  match m_max_size with
  | none => true
  | some size => b.m_size + n ≤ size

def Ordered (b : HeapBuffer α) : Prop := b.m_prio_heap.Ordered HeapNode.LessThenEq

/-- A message has arrived. -/
def Arrived (now : Nat) (b : HeapBuffer α) : Prop :=
  ∃ n ∈ b.m_prio_heap.contents, n.m_time ≤ now

theorem Ordered.isReady_iff {b : HeapBuffer α} (h : b.Ordered) {now : Nat} :
    b.isReady now = true ↔ b.Arrived now := by
  rw [isReady, Bool.and_eq_true, decide_eq_true_iff, decide_eq_true_iff]
  constructor
  · rintro ⟨hsize, htime⟩
    exact ⟨_, PrioHeap.peekMin_mem hsize, htime⟩
  · rintro ⟨n, hn, htime⟩
    have hmin := HeapNode.lessThenEq_iff.mp (h.peekMin_le n hn)
    refine ⟨?_, by omega⟩
    rw [← PrioHeap.card_contents]
    exact Multiset.card_pos_iff_exists_mem.mpr ⟨n, hn⟩

/-- What an enqueue does to the heap. -/
theorem enqueue_spec {b b' : HeapBuffer α} {now delta : Nat} {random : Option Nat} {msg : α}
    (h : b.enqueue now delta random msg = some b') :
    b'.m_prio_heap.contents = b.node now delta random msg ::ₘ b.m_prio_heap.contents ∧
      (b.Ordered → b'.Ordered) ∧ now < b.arrivalTime now delta random ∧
      b'.m_size = b.m_size + 1 := by
  rw [enqueue] at h
  split at h
  · cases h
  · split at h
    · cases h
    · cases h
      exact ⟨PrioHeap.insert_contents _ _ _, fun hord => PrioHeap.Ordered.insert hord _, by omega,
        rfl⟩

/-- What a dequeue does to the heap. -/
theorem dequeue_spec {b b' : HeapBuffer α} {now : Nat} {node : HeapNode α}
    (h : b.dequeue now = some (node, b')) :
    b.m_prio_heap.contents = node ::ₘ b'.m_prio_heap.contents ∧
      (b.Ordered → b'.Ordered ∧ ∀ n ∈ b.m_prio_heap.contents, node.LessThenEq n) ∧
      node.m_time ≤ now ∧ b.m_prio_heap.size = b'.m_prio_heap.size + 1 := by
  rw [dequeue] at h
  split at h
  · rename_i hready
    rw [isReady, Bool.and_eq_true, decide_eq_true_iff, decide_eq_true_iff] at hready
    have hsize : b.m_prio_heap.size =
        (b.m_prio_heap.extractMin HeapNode.LessThenEq).2.size + 1 :=
      (Nat.succ_pred_eq_of_pos hready.1).symm
    cases h
    exact ⟨PrioHeap.extractMin_contents _ hready.1,
      fun hord => ⟨PrioHeap.Ordered.extractMin hord, PrioHeap.Ordered.peekMin_le hord⟩, hready.2,
      hsize⟩
  · cases h

theorem dequeue_eq_none {b : HeapBuffer α} {now : Nat} :
    b.dequeue now = none ↔ b.isReady now = false := by
  rw [dequeue]
  split
  · rename_i hready
    exact iff_of_false (Option.some_ne_none _) (by rw [hready]; exact Bool.noConfusion)
  · rename_i hready
    exact iff_of_true rfl (Bool.not_eq_true _ ▸ hready)

end HeapBuffer

/-- `m_max_size` are the capacities of the output buffers, and `random` what is drawn there for
the messages of a virtual network. -/
structure ThrottleParams (α : Type) where
  m_vnets : Nat
  getLinkBandwidth : Nat
  m_link_latency : Nat
  network_message_to_size : α → Nat
  m_max_size : Nat → Option Nat
  m_strict_fifo : Nat → Bool
  random : Nat → Nat → Option Nat
  bandwidth_pos : 0 < getLinkBandwidth

/-- From `moved` on the fields are not in the code: the messages that were moved, the bandwidth
that was charged for them, and how often the loop was run for a virtual network. -/
structure Throttle (α : Type) where
  m_in : Nat → HeapBuffer α
  m_out : Nat → HeapBuffer α
  m_units_remaining : Nat → Nat
  m_last_vnet : Nat
  moved : Nat → List (HeapNode α)
  charged : Nat
  served : Nat → Nat

namespace Throttle
variable {α : Type}

def init [Inhabited α] (p : ThrottleParams α) : Throttle α where
  m_in v :=
    { m_prio_heap := PrioHeap.mk (fun _ => ⟨0, 0, default⟩) 0, m_msg_counter := 0, m_size := 0
      m_strict_fifo := p.m_strict_fifo v, m_last_arrival_time := 0 }
  m_out v :=
    { m_prio_heap := PrioHeap.mk (fun _ => ⟨0, 0, default⟩) 0, m_msg_counter := 0, m_size := 0
      m_strict_fifo := p.m_strict_fifo v, m_last_arrival_time := 0 }
  m_units_remaining _ := 0
  m_last_vnet := 0
  moved _ := []
  charged := 0
  served _ := 0

/-- The condition of the loop, but for the output buffer. -/
def Waiting (now v : Nat) (s : Throttle α) : Prop :=
  (s.m_in v).isReady now = true ∨ 0 < s.m_units_remaining v

instance (now v : Nat) (s : Throttle α) : Decidable (s.Waiting now v) :=
  inferInstanceAs (Decidable ((s.m_in v).isReady now = true ∨ 0 < s.m_units_remaining v))

/-- A message is moved, if the one before it is paid for and it is there. -/
def moveNext (p : ThrottleParams α) (now v : Nat) (s : Throttle α) : Option (Throttle α) :=
  if s.m_units_remaining v = 0 then
    match (s.m_in v).dequeue now with
    | none => some s
    | some (node, b) =>
        ((s.m_out v).enqueue now p.m_link_latency (p.random v (s.moved v).length)
          node.m_msgptr).map fun out =>
            { s with
              m_in := Function.update s.m_in v b
              m_out := Function.update s.m_out v out
              m_units_remaining :=
                Function.update s.m_units_remaining v (p.network_message_to_size node.m_msgptr)
              moved := Function.update s.moved v (s.moved v ++ [node]) }
  else some s

/-- The bandwidth that is spent on the message. -/
def charge (v bw_remaining : Nat) (s : Throttle α) : Throttle α :=
  { s with
    m_units_remaining :=
      Function.update s.m_units_remaining v (s.m_units_remaining v - bw_remaining)
    charged := s.charged + min (s.m_units_remaining v) bw_remaining
    served := Function.update s.served v (s.served v + 1) }

/-- What `moveNext` does where it does something. -/
theorem moveNext_cases {p : ThrottleParams α} {now v : Nat} {s s' : Throttle α}
    (h : s.moveNext p now v = some s') :
    s' = s ∧ (0 < s.m_units_remaining v ∨ (s.m_in v).isReady now = false) ∨
      s.m_units_remaining v = 0 ∧ ∃ node b out, (s.m_in v).dequeue now = some (node, b) ∧
        (s.m_out v).enqueue now p.m_link_latency (p.random v (s.moved v).length)
          node.m_msgptr = some out ∧
        s' = { s with
          m_in := Function.update s.m_in v b
          m_out := Function.update s.m_out v out
          m_units_remaining :=
            Function.update s.m_units_remaining v (p.network_message_to_size node.m_msgptr)
          moved := Function.update s.moved v (s.moved v ++ [node]) } := by
  rw [moveNext] at h
  split at h
  · rename_i hzero
    split at h
    · rename_i hnone
      cases h
      exact .inl ⟨rfl, .inr (HeapBuffer.dequeue_eq_none.mp hnone)⟩
    · rename_i node b hdeq
      rw [Option.map_eq_some_iff] at h
      obtain ⟨out, hout, rfl⟩ := h
      exact .inr ⟨hzero, node, b, out, hdeq, hout, rfl⟩
  · cases h
    exact .inl ⟨rfl, .inl (by omega)⟩

/-- The loop for one virtual network, with the bandwidth that is left. -/
def transfer (p : ThrottleParams α) (now v bw_remaining : Nat) (s : Throttle α) :
    Option (Nat × Throttle α) :=
  if _ : 0 < bw_remaining ∧ s.Waiting now v ∧
      (s.m_out v).areNSlotsAvailable 1 (p.m_max_size v) then
    match _ : s.moveNext p now v with
    | none => none
    | some s' =>
        transfer p now v (bw_remaining - s'.m_units_remaining v) (s'.charge v bw_remaining)
  else some (bw_remaining, s)
termination_by bw_remaining + (s.m_in v).m_prio_heap.size
decreasing_by
  rename_i hloop hnext
  simp only [charge]
  obtain ⟨hbw, hwaiting, -⟩ := hloop
  obtain ⟨rfl, hidle⟩ | ⟨-, node, b, out, hdeq, -, rfl⟩ := moveNext_cases hnext
  · rcases hwaiting with hready | hunits
    · rcases hidle with hunits | hnot
      · omega
      · rw [hready] at hnot
        cases hnot
    · omega
  · have hsize := (HeapBuffer.dequeue_spec hdeq).2.2.2
    simp only [Function.update_self]
    omega

/-- The virtual network that comes next takes its turn. -/
def rotate (p : ThrottleParams α) (s : Throttle α) : Throttle α :=
  { s with m_last_vnet := RoundRobin.next p.m_vnets s.m_last_vnet }

/-- The loop over the virtual networks, which goes on where it left off. -/
def visit (p : ThrottleParams α) (now : Nat) :
    Nat → Nat → Throttle α → Option (Nat × Throttle α)
  | 0, bw_remaining, s => some (bw_remaining, s)
  | counter + 1, bw_remaining, s =>
      if bw_remaining = 0 then some (bw_remaining, s)
      else
        (transfer p now s.m_last_vnet bw_remaining (s.rotate p)).bind fun r =>
          visit p now counter r.1 r.2

/-- The bandwidth that is left, and the throttle after it. `none` is a failed assertion. -/
def wakeup (p : ThrottleParams α) (now : Nat) (s : Throttle α) : Option (Nat × Throttle α) :=
  visit p now p.m_vnets p.getLinkBandwidth s

/-! Rules for the two loops -/

section
variable {p : ThrottleParams α} {now : Nat}

/-- An invariant of the loop for one virtual network. -/
theorem transfer_invariant {v : Nat} {I : Nat → Throttle α → Prop}
    (preserved : ∀ bw s s', 0 < bw → s.Waiting now v →
      (s.m_out v).areNSlotsAvailable 1 (p.m_max_size v) = true → s.moveNext p now v = some s' →
      I bw s → I (bw - s'.m_units_remaining v) (s'.charge v bw))
    {bw bw' : Nat} {s s' : Throttle α} (hs : I bw s)
    (h : transfer p now v bw s = some (bw', s')) :
    I bw' s' ∧ ¬ (0 < bw' ∧ s'.Waiting now v ∧
      (s'.m_out v).areNSlotsAvailable 1 (p.m_max_size v) = true) := by
  induction bw, s using transfer.induct p now v with
  | case1 bw s hloop hnone =>
      rw [transfer, dif_pos hloop] at h
      split at h
      · cases h
      · rename_i hsome
        rw [hnone] at hsome
        cases hsome
  | case2 bw s hloop s1 hnext ih =>
      rw [transfer, dif_pos hloop] at h
      split at h
      · cases h
      · rename_i s2 hsome
        cases hnext.symm.trans hsome
        exact ih (preserved bw s s1 hloop.1 hloop.2.1 hloop.2.2 hnext hs) h
  | case3 bw s hloop =>
      rw [transfer, dif_neg hloop] at h
      cases h
      exact ⟨hs, hloop⟩

/-- An invariant of the loop over the virtual networks. -/
theorem visit_invariant {I : Nat → Throttle α → Prop}
    (preserved : ∀ bw s bw' s', 0 < bw → I bw s →
      transfer p now s.m_last_vnet bw (s.rotate p) = some (bw', s') → I bw' s')
    {n bw bw' : Nat} {s s' : Throttle α} (hs : I bw s)
    (h : visit p now n bw s = some (bw', s')) : I bw' s' := by
  induction n generalizing bw s with
  | zero =>
      cases h
      exact hs
  | succ n ih =>
      rw [visit] at h
      split at h
      · cases h
        exact hs
      · rename_i hbw
        rw [Option.bind_eq_some_iff] at h
        obtain ⟨r, hr, hrest⟩ := h
        exact ih (preserved bw s r.1 r.2 (by omega) hs hr) hrest

end

end Throttle
end FeS2.Ruby
