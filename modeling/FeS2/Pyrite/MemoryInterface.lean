import Mathlib.Data.Multiset.AddSub
import Mathlib.Logic.Function.Basic
import FeS2.Library.EventSystem

/-!
The memory interfaces: misses of one line share one request to the cache, and
its requesters wait on the list of that line. Addresses are those of lines. The
cache may fill an outstanding request at any time and decides whether a new one
hits. A wait list that is being woken is drained waiter by waiter, with anything
in between. `history` is what the requesters see; the code does not keep it.
-/

namespace FeS2.Pyrite

inductive RequestType
  | REQUEST_READ
  | REQUEST_WRITE
  deriving DecidableEq, Repr

/-- A fill for a write also serves a read. -/
def RequestType.serves (fill asked : RequestType) : Bool :=
  asked = .REQUEST_READ || fill = .REQUEST_WRITE

/-- A requester, or a retry on its behalf; a prefetch has no requester. -/
inductive Waiter (L ρ : Type)
  | requester (r : ρ)
  | retry (addr : L) (type : RequestType) (requester : Option ρ)
  deriving DecidableEq

structure MissedLineWaitList (L ρ : Type) where
  requestType : RequestType
  waiters : List (Waiter L ρ) := []
  deriving DecidableEq

/-- `hit`: the request was served at once. -/
inductive Report (L ρ : Type)
  | request (r : ρ) (addr : L) (type : RequestType)
  | hit (r : ρ)
  | wakeup (r : ρ) (addr : L) (fill : RequestType)
  | squash (r : ρ)
  deriving DecidableEq

structure MemoryInterface (L ρ : Type) where
  requestedLines : L → Option (MissedLineWaitList L ρ) := fun _ => none
  outstanding : Multiset (L × RequestType) := 0
  draining : List (L × MissedLineWaitList L ρ) := []
  history : List (Report L ρ) := []

namespace Report
variable {L ρ : Type} [DecidableEq L] [DecidableEq ρ]

/-- Whom a report is about. -/
def about : Report L ρ → ρ
  | .request r _ _ => r
  | .hit r => r
  | .wakeup r _ _ => r
  | .squash r => r

/-- What a requester knows of itself: the request it waits for, if any. -/
def follow (r : ρ) (status : Option (L × RequestType)) :
    Report L ρ → Option (Option (L × RequestType))
  | .request r' addr type =>
      if r' = r then (if status = none then some (some (addr, type)) else none) else some status
  | .hit r' => if r' = r then (if status = none then none else some none) else some status
  | .wakeup r' addr fill =>
      if r' = r then
        match status with
        | some (addr', type) => if addr' = addr ∧ fill.serves type then some none else none
        | none => none
      else some status
  | .squash r' => if r' = r then some none else some status

end Report

namespace Waiter
variable {L ρ : Type} [DecidableEq ρ]

def requesters : List (Waiter L ρ) → List ρ
  | [] => []
  | .requester r :: ws => r :: requesters ws
  | .retry _ _ none :: ws => requesters ws
  | .retry _ _ (some r) :: ws => r :: requesters ws

/-- A requester unlinks itself from its list, or from the retry it waits with. -/
def detach (r : ρ) : List (Waiter L ρ) → List (Waiter L ρ)
  | [] => []
  | .requester r' :: ws => if r' = r then detach r ws else .requester r' :: detach r ws
  | .retry addr type req :: ws =>
      .retry addr type (if req = some r then none else req) :: detach r ws

end Waiter

namespace MissedLineWaitList
variable {L ρ : Type}

def insertWaiter (w : Waiter L ρ) (line : MissedLineWaitList L ρ) : MissedLineWaitList L ρ :=
  { line with waiters := line.waiters ++ [w] }

end MissedLineWaitList

namespace MemoryInterface
variable {L ρ : Type} [DecidableEq L] [DecidableEq ρ]

def setLine (addr : L) (line : Option (MissedLineWaitList L ρ)) (s : MemoryInterface L ρ) :
    MemoryInterface L ρ :=
  { s with requestedLines := Function.update s.requestedLines addr line }

def report (entry : Report L ρ) (s : MemoryInterface L ρ) : MemoryInterface L ρ :=
  { s with history := s.history ++ [entry] }

/-- There is nothing to do for an empty list. -/
def wakeupAll (addr : L) (line : MissedLineWaitList L ρ) (s : MemoryInterface L ρ) :
    MemoryInterface L ρ :=
  if line.waiters.isEmpty then s else { s with draining := (addr, line) :: s.draining }

def fillRequest (addr : L) (s : MemoryInterface L ρ) : MemoryInterface L ρ :=
  match s.requestedLines addr with
  | none => s
  | some line => (s.setLine addr none).wakeupAll addr line

/-- A miss to a line that has been requested. A write that finds a read retries
after it. -/
def coalesce (addr : L) (type : RequestType) (requester : Option ρ)
    (line : MissedLineWaitList L ρ) (s : MemoryInterface L ρ) : MemoryInterface L ρ :=
  if type = .REQUEST_WRITE ∧ line.requestType = .REQUEST_READ then
    s.setLine addr (some (line.insertWaiter (.retry addr type requester)))
  else
    match requester with
    | some r => s.setLine addr (some (line.insertWaiter (.requester r)))
    | none => s

/-- `makeRequest` of the sequencer, with its hit callback on a hit. -/
def makeRequest (addr : L) (type : RequestType) (hit : Bool) (s : MemoryInterface L ρ) :
    MemoryInterface L ρ :=
  if hit then s.fillRequest addr else { s with outstanding := (addr, type) ::ₘ s.outstanding }

/-- `RubyMemoryInterface::request`. -/
def request (addr : L) (type : RequestType) (requester : Option ρ) (hit : Bool)
    (s : MemoryInterface L ρ) : MemoryInterface L ρ :=
  match s.requestedLines addr with
  | some line => s.coalesce addr type requester line
  | none =>
      let s := (s.setLine addr (some { requestType := type })).makeRequest addr type hit
      match requester, s.requestedLines addr with
      | some r, some line => s.setLine addr (some (line.insertWaiter (.requester r)))
      | _, _ => s

/-- `SimpleMemoryInterface::request`; it hits without latency. -/
def simpleRequest (addr : L) (type : RequestType) (requester : Option ρ) (hit : Bool)
    (s : MemoryInterface L ρ) : MemoryInterface L ρ :=
  match s.requestedLines addr with
  | some line => s.coalesce addr type requester line
  | none =>
      if hit then s
      else
        let line : MissedLineWaitList L ρ := { requestType := type }
        let s := s.setLine addr (some (match requester with
          | some r => line.insertWaiter (.requester r)
          | none => line))
        { s with outstanding := (addr, type) ::ₘ s.outstanding }

/-- A request leaves its requester on the list of its line, if on any. -/
def waitsAt (addr : L) (r : ρ) (s : MemoryInterface L ρ) : Bool :=
  match s.requestedLines addr with
  | some line => r ∈ Waiter.requesters line.waiters
  | none => false

/-- A request of a uop, or a prefetch. -/
def access (addr : L) (type : RequestType) (requester : Option ρ) (hit : Bool)
    (s : MemoryInterface L ρ) : MemoryInterface L ρ :=
  match requester with
  | none => s.request addr type none hit
  | some r =>
      let s := (s.report (.request r addr type)).request addr type (some r) hit
      if s.waitsAt addr r then s else s.report (.hit r)

/-- `MemoryRequestRetry::wakeup`. -/
def retry (addr : L) (type : RequestType) (requester : Option ρ) (hit : Bool)
    (s : MemoryInterface L ρ) : MemoryInterface L ρ :=
  let s := s.request addr type requester hit
  match requester with
  | none => s
  | some r => if s.waitsAt addr r then s else s.report (.wakeup r addr type)

/-- The innermost loop of `wakeupAll` goes on. -/
def wakeNext (hit : Bool) (s : MemoryInterface L ρ) : Option (MemoryInterface L ρ) :=
  match s.draining with
  | [] => none
  | (addr, line) :: rest =>
      match line.waiters with
      | [] => some { s with draining := rest }
      | w :: ws =>
          let s := { s with draining := (addr, { line with waiters := ws }) :: rest }
          match w with
          | .requester r => some (s.report (.wakeup r addr line.requestType))
          | .retry addr type requester => some (s.retry addr type requester hit)

def fill (m : L × RequestType) (s : MemoryInterface L ρ) : Option (MemoryInterface L ρ) :=
  if m ∈ s.outstanding then
    some ({ s with outstanding := s.outstanding.erase m }.fillRequest m.1)
  else none

def squash (r : ρ) (s : MemoryInterface L ρ) : MemoryInterface L ρ :=
  { s with
    requestedLines := fun addr => (s.requestedLines addr).map fun line =>
      { line with waiters := Waiter.detach r line.waiters }
    draining := s.draining.map fun x => (x.1, { x.2 with waiters := Waiter.detach r x.2.waiters })
    history := s.history ++ [.squash r] }

inductive Event (L ρ : Type)
  | access (addr : L) (type : RequestType) (requester : Option ρ) (hit : Bool)
  | fill (m : L × RequestType)
  | wakeNext (hit : Bool)
  | squash (r : ρ)

/-- `none`: a requester was woken for nothing, without the permission it asked
for, or asked again while it waited. -/
def statusOf (r : ρ) (history : List (Report L ρ)) : Option (Option (L × RequestType)) :=
  history.foldlM (Report.follow r) none

/-- A uop that makes a request waits for none. -/
def step (s : MemoryInterface L ρ) : Event L ρ → Option (MemoryInterface L ρ)
  | .access addr type requester hit =>
      match requester with
      | none => some (s.access addr type none hit)
      | some r =>
          if statusOf r s.history = some none then some (s.access addr type (some r) hit)
          else none
  | .fill m => s.fill m
  | .wakeNext hit => s.wakeNext hit
  | .squash r => some (s.squash r)

end MemoryInterface
end FeS2.Pyrite
