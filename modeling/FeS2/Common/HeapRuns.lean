import FeS2.Common.PrioHeap
import FeS2.Library.EventSystem

/-!
Runs of the heap. Whatever is inserted and extracted, and in whatever order, the heap is a
priority queue: an extraction takes a least element, and what was inserted has either been
extracted or is in the heap.
-/

namespace FeS2.Common
open EventSystem

/-- A heap with the elements that were inserted and those that were extracted. -/
structure HeapLog (α : Type) where
  heap : PrioHeap α
  inserted : Multiset α
  extracted : Multiset α

namespace HeapLog
variable {α : Type}

inductive Event (α : Type)
  | insert (key : α)
  | extractMin

def init [Inhabited α] : HeapLog α := { heap := PrioHeap.init, inserted := 0, extracted := 0 }

section
variable (node_less_then_eq : α → α → Prop) [DecidableRel node_less_then_eq]

/-- `none` is the assertion of `extractMin` that there is an element. -/
def step (s : HeapLog α) : Event α → Option (HeapLog α)
  | .insert key =>
      some
        { s with
          heap := s.heap.insert node_less_then_eq key
          inserted := key ::ₘ s.inserted }
  | .extractMin =>
      if 0 < s.heap.size then
        some
          { s with
            heap := (s.heap.extractMin node_less_then_eq).2
            extracted := (s.heap.extractMin node_less_then_eq).1 ::ₘ s.extracted }
      else none

/-- Heap order; every element is in its place or gone; an extraction takes one element, and one
that is before all others. -/
structure PriorityQueue (s : HeapLog α) : Prop where
  ordered : s.heap.Ordered node_less_then_eq
  kept : s.inserted = s.extracted + s.heap.contents
  taken : 0 < s.heap.size → s.heap.contents =
    (s.heap.extractMin node_less_then_eq).1 ::ₘ (s.heap.extractMin node_less_then_eq).2.contents
  least : ∀ x ∈ s.heap.contents, node_less_then_eq (s.heap.extractMin node_less_then_eq).1 x

end

section
variable {le : α → α → Prop} [DecidableRel le] [Std.Total le] [IsTrans α le]

/-- What an extraction takes follows from the order of the heap. -/
theorem priorityQueue_of_ordered {s : HeapLog α} (hord : s.heap.Ordered le)
    (hkept : s.inserted = s.extracted + s.heap.contents) : s.PriorityQueue le where
  ordered := hord
  kept := hkept
  taken := PrioHeap.extractMin_contents le
  least := hord.peekMin_le

theorem priorityQueue_init [Inhabited α] : (init : HeapLog α).PriorityQueue le :=
  priorityQueue_of_ordered PrioHeap.init_ordered rfl

theorem PriorityQueue.step {s s' : HeapLog α} (h : s.PriorityQueue le) (e : Event α)
    (hstep : s.step le e = some s') : s'.PriorityQueue le := by
  cases e with
  | insert key =>
      cases hstep
      refine priorityQueue_of_ordered (h.ordered.insert key) ?_
      calc key ::ₘ s.inserted = key ::ₘ (s.extracted + s.heap.contents) := congrArg _ h.kept
        _ = s.extracted + key ::ₘ s.heap.contents := (Multiset.add_cons key _ _).symm
        _ = _ := congrArg _ (PrioHeap.insert_contents le key s.heap).symm
  | extractMin =>
      rw [HeapLog.step] at hstep
      split at hstep
      · rename_i hsize
        cases hstep
        refine priorityQueue_of_ordered h.ordered.extractMin ?_
        rw [Multiset.cons_add, ← Multiset.add_cons, ← h.taken hsize]
        exact h.kept
      · cases hstep

theorem priority_queue_throughout [Inhabited α] (es : List (Event α)) :
    Throughout (step le) (PriorityQueue le) init es :=
  (along_true _ _ es).throughout (fun _ h => h) (fun _ e _ h _ hstep => h.step e hstep)
    priorityQueue_init

end

/-- Two equal keys and a smaller one. -/
theorem priority_queue_of_three : Throughout (step (· ≤ · : Nat → Nat → Prop))
    (PriorityQueue (· ≤ ·)) init [.insert 4, .insert 4, .insert 2, .extractMin, .extractMin] :=
  priority_queue_throughout _

end HeapLog
end FeS2.Common
