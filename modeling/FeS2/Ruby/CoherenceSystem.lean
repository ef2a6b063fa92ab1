import Mathlib.Data.Multiset.AddSub
import Mathlib.Logic.Function.Basic
import FeS2.Library.EventSystem
import FeS2.Ruby.CacheController
import FeS2.Ruby.DirectoryController

/-!
The MOESI directory protocol: any number of caches, the directory, and the four
networks between them, for one block. Requests of the processors, the room other
blocks leave, and the order of deliveries are the events. A controller that
errs stops the system. `current`, the block after the stores completed so far,
and `reads`, the value of every load next to `current` at that time, are
histories that the code does not keep and never reads.
-/

namespace FeS2.Ruby

structure System (ι D : Type) where
  cache : ι → L1Cache D
  directory : Directory.Entry ι D
  requests : Multiset (RequestMsg ι D)
  forwards : Multiset (ι × RequestMsg ι D)
  responses : Multiset (ι × ResponseMsg ι D)
  unblocks : Multiset (ResponseMsg ι D)
  current : D
  reads : List (D × D)
  failed : Bool

namespace System
variable {ι D : Type} [DecidableEq ι] [DecidableEq D] [Inhabited D]

def init (memory : D) : System ι D :=
  { cache := fun _ => {}
    directory := { directoryState := .I, dataBlk := memory, sharers := ∅, owner := ∅ }
    requests := 0
    forwards := 0
    responses := 0
    unblocks := 0
    current := memory
    reads := []
    failed := false }

inductive Event (ι D : Type)
  | demand (i : ι) (type : CacheRequestType) (room : L1Cache.Room) (driver : D → D)
  | makeRoom (i : ι) (resources : Bool)
  | access (i : ι) (type : CacheRequestType) (driver : D → D)
  | trigger (i : ι) (driver : D → D)
  | forward (m : ι × RequestMsg ι D)
  | response (m : ι × ResponseMsg ι D)
  | request (m : RequestMsg ι D)
  | unblock (m : ResponseMsg ι D)

/-- The outcome of a transition of cache `i`; `pop` takes the message it was for. -/
def afterCache (i : ι) (pop : System ι D → System ι D) (s : System ι D) :
    Option (L1Cache.Context ι D) → System ι D
  | none => { s with failed := true }
  | some x =>
      let s := if x.popped then pop s else s
      { s with
        cache := Function.update s.cache i x.cache
        requests := (x.requests : Multiset _) + s.requests
        responses := (x.responses : Multiset _) + s.responses
        unblocks := (x.unblocks : Multiset _) + s.unblocks
        current := x.driver^[x.stores] s.current
        reads := s.reads ++ x.loads.map fun value => (value, s.current) }

def afterDirectory (pop : System ι D → System ι D) (s : System ι D) :
    Option (Directory.Context ι D) → System ι D
  | none => { s with failed := true }
  | some x =>
      let s := if x.popped then pop s else s
      { s with
        directory := x.entry
        forwards := x.forwards + s.forwards
        responses := x.responses + s.responses }

/-- An event of the mandatory queue; it stalls where it lacks resources. -/
def mandatory (i : ι) (event : L1Cache.Event) (resources : Bool) (driver : D → D)
    (s : System ι D) : System ι D :=
  match (s.cache i).getState with
  | none => { s with failed := true }
  | some state =>
      if L1Cache.needsResources state event && !resources then s
      else s.afterCache i id (L1Cache.doTransition event
        { id := i, driver := driver, inMsg := .mandatory, cache := s.cache i })

def demand (i : ι) (type : CacheRequestType) (room : L1Cache.Room) (driver : D → D)
    (s : System ι D) : System ι D :=
  match L1Cache.mandatoryQueue type room (s.cache i) with
  | none => s
  | some event => s.mandatory i event room.resources driver

def makeRoom (i : ι) (resources : Bool) (s : System ι D) : System ι D :=
  match L1Cache.makeRoom (s.cache i) with
  | none => s
  | some event => s.mandatory i event resources id

/-- A hit on the fast path of the sequencer. -/
def access (i : ι) (type : CacheRequestType) (driver : D → D) (s : System ι D) : System ι D :=
  let c := s.cache i
  match if type = .IFETCH then c.l1I else c.l1D with
  | none => s
  | some entry =>
      if type = .LD ∨ type = .IFETCH then
        { s with reads := s.reads ++ [(entry.dataBlk, s.current)] }
      else
        { s with
          cache := Function.update s.cache i
            { c with l1D := some { entry with dataBlk := driver entry.dataBlk } }
          current := driver s.current }

def trigger (i : ι) (driver : D → D) (s : System ι D) : System ι D :=
  s.afterCache i id (L1Cache.doTransition .All_acks
    { id := i, driver := driver, inMsg := .trigger, cache := s.cache i })

def forward (m : ι × RequestMsg ι D) (s : System ι D) : System ι D :=
  s.afterCache m.1 (fun s => { s with forwards := s.forwards.erase m })
    ((L1Cache.forwardToCache m.1 m.2).bind fun event => L1Cache.doTransition event
      { id := m.1, driver := id, inMsg := .forward m.2, cache := s.cache m.1 })

def response (m : ι × ResponseMsg ι D) (s : System ι D) : System ι D :=
  s.afterCache m.1 (fun s => { s with responses := s.responses.erase m })
    ((L1Cache.responseToCache m.2).bind fun event => L1Cache.doTransition event
      { id := m.1, driver := id, inMsg := .response m.2, cache := s.cache m.1 })

def request (m : RequestMsg ι D) (s : System ι D) : System ι D :=
  s.afterDirectory (fun s => { s with requests := s.requests.erase m })
    ((Directory.requestQueue s.directory m).bind fun event => Directory.doTransition event
      { inMsg := .request m, entry := s.directory })

def unblock (m : ResponseMsg ι D) (s : System ι D) : System ι D :=
  s.afterDirectory (fun s => { s with unblocks := s.unblocks.erase m })
    ((Directory.unblockNetwork m).bind fun event => Directory.doTransition event
      { inMsg := .unblock m, entry := s.directory })

def step (s : System ι D) (e : Event ι D) : Option (System ι D) :=
  if s.failed then none
  else
    match e with
    | .demand i type room driver => some (s.demand i type room driver)
    | .makeRoom i resources => some (s.makeRoom i resources)
    | .access i type driver =>
        if (s.cache i).tryCacheAccess type then some (s.access i type driver) else none
    | .trigger i driver =>
        if 0 < (s.cache i).triggerQueue then some (s.trigger i driver) else none
    | .forward m => if m ∈ s.forwards then some (s.forward m) else none
    | .response m => if m ∈ s.responses then some (s.response m) else none
    | .request m => if m ∈ s.requests then some (s.request m) else none
    | .unblock m => if m ∈ s.unblocks then some (s.unblock m) else none

end System
end FeS2.Ruby
