import FeS2.Library.Agenda
import FeS2.Library.LinkedRing

/-!
The event queue. Waiters are linked into intrusive rings: one for the waiters of each
event, one for the pool of free events. The events themselves are in a list with null
ends, sorted by cycle, where an insertion walks backwards from the tail. The waiters of
an event are woken one at a time, and between two of them the queue may be used.
-/

namespace FeS2.Pyrite.Events
open EventSystem LinkedRing

abbrev Tick := BitVec 64

abbrev Waiter := Nat

/-- The objects with waiter links: an `Event` is a wait list, and so is the pool. -/
inductive Node
  | pool
  | event (e : Nat)
  | waiter (w : Waiter)
  deriving DecidableEq

structure EventsQueue where
  links : Links Node
  nextEvent : Nat → Option Nat
  prevEvent : Nat → Option Nat
  cycleOf : Nat → Tick
  head : Option Nat
  tail : Option Nat
  currentCycle : Tick
  /-- How many events the pool's allocator has made. -/
  allocated : Nat
  /-- The event whose waiters `doCycle` is waking up. -/
  draining : Option Nat

def insertWaiter (list waiter : Node) (l : Links Node) : Option (Links Node) :=
  if l.Alone waiter then
    let l := (l.setNext waiter list).setPrev waiter (l.prev list)
    if l.next (l.prev list) = list then
      some ((l.setNext (l.prev list) waiter).setPrev list waiter)
    else none
  else none

namespace EventsQueue

def init : EventsQueue where
  links := { next := id, prev := id }
  nextEvent _ := none
  prevEvent _ := none
  cycleOf _ := 0
  head := none
  tail := none
  currentCycle := 0
  allocated := 0
  draining := none

def setNextEvent (q : EventsQueue) (e : Nat) (n : Option Nat) : EventsQueue :=
  { q with nextEvent := Function.update q.nextEvent e n }

def setPrevEvent (q : EventsQueue) (e : Nat) (n : Option Nat) : EventsQueue :=
  { q with prevEvent := Function.update q.prevEvent e n }

def setCycle (q : EventsQueue) (e : Nat) (c : Tick) : EventsQueue :=
  { q with cycleOf := Function.update q.cycleOf e c }

/-- `WaiterFreeList::get`. -/
def poolGet (q : EventsQueue) : Option (Nat × EventsQueue) :=
  if q.links.Alone .pool then
    some (q.allocated, { q with allocated := q.allocated + 1 })
  else
    match q.links.prev .pool with
    | .event e => some (e, { q with links := q.links.detach (.event e) })
    | _ => none

inductive Spot
  | at (e : Nat)
  | after (trav : Option Nat)

/-- Where the walk from `trav` back to the head stops. -/
def findSpot (q : EventsQueue) (c : Tick) : Nat → Option Nat → Option Spot
  | 0, _ => none
  | _ + 1, none => some (.after none)
  | fuel + 1, some e =>
      if c ≤ q.cycleOf e then
        if q.cycleOf e = c then some (.at e) else q.findSpot c fuel (q.prevEvent e)
      else some (.after (some e))

def linkEvent (q : EventsQueue) (e : Nat) (trav : Option Nat) : EventsQueue :=
  let q := q.setPrevEvent e trav
  let q := match trav with
    | some t => (q.setNextEvent e (q.nextEvent t)).setNextEvent t (some e)
    | none => { q.setNextEvent e q.head with head := some e }
  match q.nextEvent e with
  | none => { q with tail := some e }
  | some n => q.setPrevEvent n (some e)

def insertAbsolute (q : EventsQueue) (w : Waiter) (c : Tick) : Option EventsQueue :=
  if q.currentCycle < c then
    match q.findSpot c (q.allocated + 1) q.tail with
    | none => none
    | some (.at e) =>
        (insertWaiter (.event e) (.waiter w) q.links).map fun l => { q with links := l }
    | some (.after trav) =>
        q.poolGet.bind fun (e, q) =>
          let q := q.setCycle e c
          (insertWaiter (.event e) (.waiter w) q.links).map fun l =>
            { q with links := l }.linkEvent e trav
  else none

def insert (q : EventsQueue) (w : Waiter) (delta : Tick) : Option EventsQueue :=
  q.insertAbsolute w (q.currentCycle + delta)

/-- `doCycle` up to the first wake-up. -/
def doCycle (q : EventsQueue) : Option EventsQueue :=
  let q := { q with currentCycle := q.currentCycle + 1 }
  match q.head with
  | none => some q
  | some temp =>
      if q.currentCycle ≤ q.cycleOf temp then
        if q.cycleOf temp = q.currentCycle then
          let q := { q with head := q.nextEvent temp, draining := some temp }
          match q.head with
          | some h => some (q.setPrevEvent h none)
          | none => some { q with tail := none }
        else some q
      else none

def detach (q : EventsQueue) (w : Waiter) : EventsQueue :=
  { q with links := q.links.detach (.waiter w) }

/-- One turn of `wakeupAll`. -/
def wakeNext (q : EventsQueue) (w : Waiter) : Option EventsQueue :=
  match q.draining with
  | none => none
  | some e =>
      if ¬ q.links.Alone (.event e) ∧ q.links.next (.event e) = .waiter w then
        some (q.detach w)
      else none

/-- The end of `doCycle`: the event goes back to the pool. -/
def finish (q : EventsQueue) : Option EventsQueue :=
  match q.draining with
  | none => none
  | some e =>
      if q.links.Alone (.event e) then
        let q := ((q.setPrevEvent e none).setNextEvent e none).setCycle e 0
        (insertWaiter .pool (.event e) q.links).map fun l =>
          { q with links := l, draining := none }
      else none

inductive Action
  | insert (w : Waiter) (delta : Tick)
  | detach (w : Waiter)
  | doCycle
  | wakeup (w : Waiter)
  | finish
  deriving DecidableEq

def step (q : EventsQueue) : Action → Option EventsQueue
  | .insert w delta => if delta = 0 then none else q.insert w delta
  | .detach w => some (q.detach w)
  | .doCycle => if q.draining = none then q.doCycle else none
  | .wakeup w => q.wakeNext w
  | .finish => q.finish

/-! What the queue is for -/

/-- The events as one ring whose head stands for the null pointers. -/
def spine (q : EventsQueue) : Links (Option Nat) where
  next := fun
    | none => q.head
    | some e => q.nextEvent e
  prev := fun
    | none => q.tail
    | some e => q.prevEvent e

/-- The list of events is strictly increasing in cycle. -/
def Increasing (q : EventsQueue) : Prop :=
  ∃ events : List Nat, IsRing q.spine none (events.map some) ∧
    events.Pairwise fun e e' => q.cycleOf e < q.cycleOf e'

/-- The assertion of `doCycle` does not fail, and once begun it can go on to its end. -/
structure CanCycle (q : EventsQueue) : Prop where
  begin : q.draining = none → (q.step .doCycle).isSome
  proceed : q.draining ≠ none → (q.step .finish).isSome ∨ ∃ w, (q.step (.wakeup w)).isSome

def act? : Action → Option (Agenda.Act Waiter)
  | .insert w delta => some (.insert w delta.toNat)
  | .detach w => some (.remove w)
  | .doCycle => some .tick
  | .wakeup w => some (.deliver w)
  | .finish => none

def history (actions : List Action) : List (Agenda.Act Waiter) := actions.filterMap act?

end EventsQueue
end FeS2.Pyrite.Events
