import FeS2.Library.EventSystem
import FeS2.Library.LinkedRing
import FeS2.Library.StableQueue

/-!
Wait lists. A waiter has the links of the list that it is in, and the list is itself a node of its
ring. `wakeupAll` takes one waiter off after the other; what a wake-up does to the lists comes
between two of them, a `wakeupAll` of its own included.
-/

namespace FeS2.Pyrite.Waiting
open EventSystem LinkedRing StableQueue

abbrev Waiter := Nat

inductive ListId
  | waitList (n : Nat)
  | orderedWaitList (n : Nat)
  deriving DecidableEq

/-- What has waiter links. -/
inductive Node
  | list (l : ListId)
  | waiter (w : Waiter)
  deriving DecidableEq

/-! The operations -/

/-- `WaitList::insertWaiter`. -/
def insertWaiter (list waiter : Node) (l : Links Node) : Option (Links Node) :=
  if l.Alone waiter then
    let l := (l.setNext waiter list).setPrev waiter (l.prev list)
    if l.next (l.prev list) = list then
      some ((l.setNext (l.prev list) waiter).setPrev list waiter)
    else none
  else none

/-- `Waiter::insert`, behind `p`. -/
def insert (p waiter : Node) (l : Links Node) : Option (Links Node) :=
  let l := (l.setNext waiter (l.next p)).setPrev waiter p
  if l.prev (l.next waiter) = p then
    some ((l.setNext p waiter).setPrev (l.next waiter) waiter)
  else none

section
variable (priority : Waiter → BitVec 64)

/-- A list has the priority of the base class. -/
def priorityOf : Node → BitVec 64
  | .list _ => 0
  | .waiter w => priority w

/-- Where the walk from `wtrav` back to the list stops. -/
def findSpot (list waiter : Node) (l : Links Node) : Nat → Node → Option Node
  | 0, _ => none
  | fuel + 1, wtrav =>
      if wtrav = list then some list
      else if priorityOf priority wtrav ≤ priorityOf priority waiter then some wtrav
      else findSpot list waiter l fuel (l.prev wtrav)

/-- `OrderedWaitList::insertWaiter`. -/
def insertOrdered (fuel : Nat) (list waiter : Node) (l : Links Node) : Option (Links Node) :=
  if l.Alone waiter then
    if l.Alone list then insertWaiter list waiter l
    else
      (findSpot priority list waiter l fuel (l.prev list)).bind fun spot => insert spot waiter l
  else none

end

/-! Runs -/

structure WaitLists where
  links : Links Node
  /-- How many insertions there were; no list has more waiters. -/
  insertions : Nat
  /-- The lists whose waiters are being woken, the innermost one first. -/
  waking : List ListId

inductive Action
  | insert (l : ListId) (w : Waiter)
  | detach (w : Waiter)
  | wakeupAll (l : ListId)
  | wakeup (l : ListId) (w : Waiter)
  | finish
  deriving DecidableEq

namespace WaitLists

def init : WaitLists where
  links := { next := id, prev := id }
  insertions := 0
  waking := []

def detach (s : WaitLists) (w : Waiter) : WaitLists :=
  { s with links := s.links.detach (.waiter w) }

/-- One turn of the loop of `wakeupAll`. -/
def wakeNext (s : WaitLists) (l : ListId) (w : Waiter) : Option WaitLists :=
  if s.waking.head? = some l ∧ ¬ s.links.Alone (.list l) ∧ s.links.next (.list l) = .waiter w then
    some (s.detach w)
  else none

/-- A `wakeupAll` returns. -/
def finish (s : WaitLists) : Option WaitLists :=
  match s.waking with
  | [] => none
  | l :: rest => if s.links.Alone (.list l) then some { s with waking := rest } else none

def insertInto (priority : Waiter → BitVec 64) (s : WaitLists) (l : ListId) (w : Waiter) :
    Option WaitLists :=
  let links :=
    match l with
    | .waitList _ => insertWaiter (.list l) (.waiter w) s.links
    | .orderedWaitList _ =>
        insertOrdered priority (s.insertions + 1) (.list l) (.waiter w) s.links
  links.map fun links => { s with links := links, insertions := s.insertions + 1 }

def step (priority : Waiter → BitVec 64) (s : WaitLists) : Action → Option WaitLists
  | .insert l w => s.insertInto priority l w
  | .detach w => some (s.detach w)
  | .wakeupAll l => some { s with waking := l :: s.waking }
  | .wakeup l w => s.wakeNext l w
  | .finish => s.finish

end WaitLists

/-! What the lists are for -/

/-- The waiters of each list in the order of their arrival. -/
abbrev Arrivals := ListId → List Waiter

def arrive (arrivals : Arrivals) : Action → Arrivals
  | .insert l w => Function.update arrivals l (arrivals l ++ [w])
  | .detach w => fun l => (arrivals l).filter (· ≠ w)
  | .wakeupAll _ => arrivals
  | .wakeup l w => Function.update arrivals l ((arrivals l).filter (· ≠ w))
  | .finish => arrivals

def arrivals (history : List Action) : Arrivals := history.foldl arrive fun _ => []

/-- How often a waiter is detached while it is in the list. -/
def detached (l : ListId) (w : Waiter) (before : Arrivals) : List Action → Nat
  | [] => 0
  | a :: rest =>
      (if a = .detach w ∧ w ∈ before l then 1 else 0) + detached l w (arrive before a) rest

/-- Every `wakeupAll` that is called among the actions returns among them. -/
def Balanced : Nat → List Action → Prop
  | depth, [] => depth = 0
  | depth, .wakeupAll _ :: rest => Balanced (depth + 1) rest
  | 0, .finish :: _ => False
  | depth + 1, .finish :: rest => Balanced depth rest
  | depth, _ :: rest => Balanced depth rest

def wakesIn (l : ListId) : Action → Bool
  | .wakeup l' _ => l' = l
  | _ => false

def insertsIn (l : ListId) : Action → Bool
  | .insert l' _ => l' = l
  | _ => false

/-- Each waiter is in one list, and there once. -/
structure WaitLists.WellLinked (s : WaitLists) (contents : ListId → List Waiter) : Prop where
  ring : ∀ l, IsRing s.links (.list l) ((contents l).map .waiter)
  apart : ∀ l l', l ≠ l' → List.Disjoint (contents l) (contents l')
  alone : ∀ w, (∀ l, w ∉ contents l) → s.links.Alone (.waiter w)

/-- Sorted by priority, equal priorities as they arrived. -/
structure InOrder (priority : Waiter → BitVec 64) (before : Arrivals)
    (contents : ListId → List Waiter) : Prop where
  waitList : ∀ n, contents (.waitList n) = before (.waitList n)
  orderedWaitList : ∀ n, Stable (fun w => (priority w).toNat) (before (.orderedWaitList n))
    (contents (.orderedWaitList n))

/-- What a `wakeupAll` has done when it returns; `body` is what came between. -/
structure Drained (l : ListId) (before : Arrivals) (body : List Action) : Prop where
  empty : body.foldl arrive before l = []
  woken : ∀ w ∈ before l, body.count (.wakeup l w) + detached l w before body =
    1 + body.count (.insert l w)
  bounded : body.countP (wakesIn l) ≤ (before l).length + body.countP (insertsIn l)

end FeS2.Pyrite.Waiting
