import FeS2.Ruby.CacheSets
import FeS2.Ruby.CacheView

/-!
The cache controller of the directory protocol with all its blocks. The tag arrays of its three
cache memories stand beside what the caches hold of each block. Whether there are a free TBE and a
free slot for a request is up to the environment, and does not change before something is sent.
-/

namespace FeS2.Ruby
open FeS2.Common

namespace L1Cache

deriving instance DecidableEq for Location

variable {D : Type}

def entry : Location → L1Cache D → Option (Entry D)
  | .l1I, c => c.l1I
  | .l1D, c => c.l1D
  | .l2, c => c.l2

end L1Cache

structure CacheGeometry where
  blockBits : Nat
  setBits : L1Cache.Location → Nat
  assoc : L1Cache.Location → Nat
  setBits_lt : ∀ l, setBits l < 31
  assoc_pos : ∀ l, 0 < assoc l

/-- `L1IcacheMemory`, `L1DcacheMemory` and `L2cacheMemory`. -/
abbrev CacheMemories := L1Cache.Location → CacheMemory

namespace CacheMemories
open L1Cache

def construct (g : CacheGeometry) : CacheMemories :=
  fun l => .construct g.blockBits (g.setBits l) (g.assoc l) (g.setBits_lt l)

def modify (l : Location) (f : CacheMemory → Option CacheMemory) (m : CacheMemories) :
    Option CacheMemories :=
  (f (m l)).map (Function.update m l)

/-- The assignment of an entry, tag, time and permission included. -/
def copy (source target : Location) (address : Address) (m : CacheMemories) :
    Option CacheMemories :=
  ((m source).lookup address).bind fun (cacheSet, loc) =>
    modify target (fun c => (c.lookup address).map fun (s, i) =>
      c.setEntry s i ((m source).m_cache cacheSet loc)) m

/-- `L1DcacheMemory.isTagPresent(address)` tells the caches of the first level apart. -/
def firstLevelOf (address : Address) (m : CacheMemories) : Option Location :=
  ((m .l1D).isTagPresent address).map fun present => if present then .l1D else .l1I

def allocateIfAbsent (time : Nat) (l : Location) (address : Address) (m : CacheMemories) :
    Option CacheMemories :=
  ((m l).isTagPresent address).bind fun present =>
    if present then some m else modify l (·.allocate time address) m

/-- What the actions do to the tag arrays. -/
def perform (time : Nat) (address : Address) (m : CacheMemories) :
    Action → Option CacheMemories
  | .kk_deallocateL1CacheBlock =>
      (firstLevelOf address m).bind fun l => modify l (·.deallocate address) m
  | .ii_allocateL1DCacheBlock => allocateIfAbsent time .l1D address m
  | .jj_allocateL1ICacheBlock => allocateIfAbsent time .l1I address m
  | .vv_allocateL2CacheBlock => modify .l2 (·.allocate time address) m
  | .pp_deallocateL2CacheBlock => modify .l2 (·.deallocate address) m
  | .ss_copyFromL1toL2 => (firstLevelOf address m).bind fun l => copy l .l2 address m
  | .tt_copyFromL2toL1 => (firstLevelOf address m).bind fun l => copy .l2 l address m
  | _ => some m

/-- Whether the three assertions of `getState` and `setState` hold. -/
def exclusive (address : Address) (m : CacheMemories) : Option Bool :=
  ((m .l1D).isTagPresent address).bind fun inL1D =>
    ((m .l1I).isTagPresent address).bind fun inL1I =>
      ((m .l2).isTagPresent address).map fun inL2 =>
        !(inL1D && inL1I) && !(inL1I && inL2) && !(inL1D && inL2)

def changePermission (permission : AccessPermission) (address : Address) (m : CacheMemories) :
    Option CacheMemories :=
  ((m .l2).isTagPresent address).bind fun inL2 =>
    if inL2 then modify .l2 (·.changePermission address permission) m
    else (firstLevelOf address m).bind fun l => modify l (·.changePermission address permission) m

def isCacheTagPresent (address : Address) (m : CacheMemories) : Option Bool :=
  ((m .l2).isTagPresent address).bind fun inL2 =>
    ((m .l1D).isTagPresent address).bind fun inL1D =>
      ((m .l1I).isTagPresent address).map fun inL1I => inL2 || inL1D || inL1I

/-- What `setState` does to the tag arrays. -/
def setState (state : State) (address : Address) (m : CacheMemories) : Option CacheMemories :=
  if exclusive address m = some true then
    (isCacheTagPresent address m).bind fun present =>
      if present then changePermission state.permission address m else some m
  else none

/-- What a transition does to the tag arrays. -/
def transition (time : Nat) (address : Address) (next : State × List Action) (m : CacheMemories) :
    Option CacheMemories :=
  (next.2.foldlM (perform time address) m).bind (setState next.1 address)

end CacheMemories

/-- `requests` has what was sent to the directories. -/
structure CacheLevels (ι D : Type) where
  id : ι
  memory : CacheMemories
  block : Address → L1Cache D := fun _ => {}
  time : Nat := 0
  requests : List (Address × RequestMsg ι D) := []

namespace CacheLevels
open L1Cache

/-- The addresses of messages are those of lines. -/
abbrev Line := { address : Address // address.IsLine }

inductive Event (ι D : Type)
  | mandatory (type : CacheRequestType) (address : Line) (slots : Bool) (driver : D → D)
  | access (type : CacheRequestType) (address : Line) (driver : D → D)
  | trigger (address : Line) (driver : D → D)
  | forward (address : Line) (m : RequestMsg ι D)
  | response (address : Line) (m : ResponseMsg ι D)
  | advance (cycles : Nat)

section
variable {ι D : Type}

def getState (address : Address) (s : CacheLevels ι D) : Option State :=
  if s.memory.exclusive address = some true then (s.block address).getState else none

/-- The fast path of the sequencer. -/
def access (type : CacheRequestType) (address : Address) (driver : D → D) (s : CacheLevels ι D) :
    Option (CacheLevels ι D) :=
  let l := if type = .IFETCH then .l1I else .l1D
  ((s.memory l).tryCacheAccess s.time address type).map fun (hit, c) =>
    { s with
      memory := Function.update s.memory l c
      block :=
        if hit ∧ (type = .ST ∨ type = .ATOMIC) then
          Function.update s.block address
            { s.block address with
              l1D := (s.block address).l1D.map fun e => { e with dataBlk := driver e.dataBlk } }
        else s.block }

variable [DecidableEq D] [Inhabited D]

def doTransition (event : L1Cache.Event) (inMsg : InMsg ι D) (driver : D → D) (address : Address)
    (s : CacheLevels ι D) : Option (CacheLevels ι D) :=
  (s.getState address).bind fun state =>
    (L1Cache.transition state event).bind fun next =>
      (s.memory.transition s.time address next).bind fun memory =>
        (L1Cache.doTransition event
          { id := s.id, driver := driver, inMsg := inMsg, cache := s.block address }).map fun x =>
            { s with
              memory := memory
              block := Function.update s.block address x.cache
              requests := s.requests ++ x.requests.map fun m => (address, m) }

/-- The rest of the code of the in-port runs if the transition has not what it needs. -/
def trigger (slots : Bool) (event : L1Cache.Event) (driver : D → D) (address : Address)
    (s : CacheLevels ι D) (rest : Option (CacheLevels ι D)) : Option (CacheLevels ι D) :=
  (s.getState address).bind fun state =>
    if needsResources state event && !slots then rest
    else s.doTransition event .mandatory driver address

/-- A block of the first level goes to the second, or makes another one leave it. -/
def makeRoom (slots : Bool) (driver : D → D) (address : Address) (s : CacheLevels ι D)
    (rest : Option (CacheLevels ι D)) : Option (CacheLevels ι D) :=
  ((s.memory .l2).cacheAvail address).bind fun avail =>
    if avail then s.trigger slots .L1_to_L2 driver address rest
    else ((s.memory .l2).cacheProbe address).bind fun victim =>
      s.trigger slots .L2_Replacement driver victim rest

/-- The in-port behind the check for the other cache of the first level. -/
def fetchLine (slots : Bool) (type : CacheRequestType) (right : Location) (driver : D → D)
    (address : Address) (s : CacheLevels ι D) : Option (CacheLevels ι D) :=
  let request := s.trigger slots (mandatoryRequestTypeToEvent type) driver address (some s)
  ((s.memory right).isTagPresent address).bind fun inRight =>
    if inRight then request
    else ((s.memory right).cacheAvail address).bind fun avail =>
      if avail then
        ((s.memory .l2).isTagPresent address).bind fun inL2 =>
          if inL2 then
            s.trigger slots (if right = .l1I then .L2_to_L1I else .L2_to_L1D) driver address
              (some s)
          else request
      else ((s.memory right).cacheProbe address).bind fun victim =>
        s.makeRoom slots driver victim (some s)

/-- `in_port(mandatoryQueue_in)` with a request at its head. -/
def mandatoryQueue (slots : Bool) (type : CacheRequestType) (driver : D → D) (address : Address)
    (s : CacheLevels ι D) : Option (CacheLevels ι D) :=
  let (right, wrong) := if type = .IFETCH then (.l1I, .l1D) else (.l1D, .l1I)
  ((s.memory wrong).isTagPresent address).bind fun inWrong =>
    if inWrong then
      s.makeRoom slots driver address (s.fetchLine slots type right driver address)
    else s.fetchLine slots type right driver address

def step [DecidableEq ι] (s : CacheLevels ι D) : Event ι D → Option (CacheLevels ι D)
  | .mandatory type address slots driver => s.mandatoryQueue slots type driver address
  | .access type address driver => s.access type address driver
  | .trigger address driver =>
      if 0 < (s.block address).triggerQueue then s.doTransition .All_acks .trigger driver address
      else none
  | .forward address m =>
      (forwardToCache s.id m).bind fun event =>
        s.doTransition event (.forward m) (fun d => d) address
  | .response address m =>
      (responseToCache m).bind fun event =>
        s.doTransition event (.response m) (fun d => d) address
  | .advance cycles => some { s with time := s.time + cycles }

end
end CacheLevels
end FeS2.Ruby
