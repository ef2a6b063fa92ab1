import Mathlib.Algebra.Group.Nat.Defs
import FeS2.Library.EventSystem
import FeS2.Pyrite.Predictor

/-!
The return address stack: a linked list over a circular buffer. A pop leaves the
entry where it is, and a squash brings back only the two pointers. The index -1 of
the code is `none` here.
-/

namespace FeS2.Pyrite

structure RasState where
  nextFree : Nat := 0
  topOfStack : Option Nat := none

structure ReturnAddressStack where
  speculative : RasState := {}
  committed : RasState := {}
  inflights : SquashableMap RasState := {}
  table : List Waddr
  nextTopOfStack : List (Option Nat)

namespace ReturnAddressStack

def init (size : Nat) : ReturnAddressStack :=
  { table := List.replicate size 0, nextTopOfStack := List.replicate size none }

def rasIncrement (index : Nat) (r : ReturnAddressStack) : Nat :=
  (index + 1) &&& (r.table.length - 1)

def push (qPtr : Nat) (returnTargetRip : Waddr) (r : ReturnAddressStack) : ReturnAddressStack :=
  let nextFree := r.speculative.nextFree
  let speculative := { nextFree := r.rasIncrement nextFree, topOfStack := some nextFree }
  { r with
    table := r.table.set nextFree returnTargetRip
    nextTopOfStack := r.nextTopOfStack.set nextFree r.speculative.topOfStack
    speculative := speculative
    inflights := r.inflights.insert qPtr speculative }

/-- The link of an entry, unless a younger prediction has overwritten what it leads to. -/
def next (tos : Nat) (r : ReturnAddressStack) : Option Nat :=
  match r.nextTopOfStack.getD tos none with
  | none => none
  | some nextTos =>
      let nextFreeGtTos := decide (r.speculative.nextFree > tos)
      let nextFreeGtNextTos := decide (r.speculative.nextFree > nextTos)
      let tosGtNextTos := decide (tos > nextTos)
      if (nextFreeGtTos ^^ nextFreeGtNextTos) ^^ tosGtNextTos then some nextTos else none

def pop (qPtr : Nat) (r : ReturnAddressStack) : Waddr × ReturnAddressStack :=
  let r := { r with inflights := r.inflights.insert qPtr r.speculative }
  match r.speculative.topOfStack with
  | none => (0, r)
  | some tos =>
      let speculative := { r.speculative with topOfStack := r.next tos }
      (r.table.getD tos 0, { r with
        speculative := speculative
        inflights := r.inflights.insert qPtr speculative })

def squash (firstBad : Nat) (r : ReturnAddressStack) : ReturnAddressStack :=
  let inflights := r.inflights.squash firstBad
  { r with
    inflights := inflights
    speculative := (inflights.entries.getLast?.map (·.2)).getD r.committed }

def commit (qPtr : Nat) (r : ReturnAddressStack) : Option ReturnAddressStack :=
  (r.inflights.find? qPtr).bind fun committed =>
    (r.inflights.commit qPtr).map fun inflights =>
      { r with committed := committed, inflights := inflights }

/-! Predictions -/

inductive Op
  | push (qPtr : Nat) (returnTargetRip : Waddr)
  | pop (qPtr : Nat)

def Op.qPtr : Op → Nat
  | .push qPtr _ | .pop qPtr => qPtr

def Op.isPush : Op → Bool
  | .push _ _ => true
  | .pop _ => false

def perform (r : ReturnAddressStack) : Op → ReturnAddressStack
  | .push qPtr returnTargetRip => r.push qPtr returnTargetRip
  | .pop qPtr => (r.pop qPtr).2

/-- What the pops of a sequence return. -/
def answers (r : ReturnAddressStack) : List Op → List Waddr
  | [] => []
  | .push qPtr returnTargetRip :: ops => answers (r.push qPtr returnTargetRip) ops
  | .pop qPtr :: ops => (r.pop qPtr).1 :: answers (r.pop qPtr).2 ops

/-- The slots that the pushes of a sequence write. -/
def writes (r : ReturnAddressStack) : List Op → List Nat
  | [] => []
  | .push qPtr returnTargetRip :: ops =>
      r.speculative.nextFree :: writes (r.push qPtr returnTargetRip) ops
  | .pop qPtr :: ops => writes (r.pop qPtr).2 ops

/-! Runs -/

inductive Event
  | predict (op : Op)
  | squash (firstBad : Nat)
  | commit (qPtr : Nat)

/-- Branches are fetched in the order of the queue. -/
def step (r : ReturnAddressStack) : Event → Option ReturnAddressStack
  | .predict op =>
      if r.inflights.entries.all fun e => e.1 < op.qPtr then some (r.perform op) else none
  | .squash firstBad => some (r.squash firstBad)
  | .commit qPtr => r.commit qPtr

end ReturnAddressStack
end FeS2.Pyrite
