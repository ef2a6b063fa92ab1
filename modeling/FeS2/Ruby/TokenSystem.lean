import FeS2.Ruby.TokenDirectory

/-!
The token protocol: any number of caches, the directory, and the networks between
them, for one block. Requests of the processors, the room other blocks leave, timeouts
and the order of deliveries are the events. An event without a transition and a failed
assertion stop the system.
-/

namespace FeS2.Ruby
namespace PersistentArbitration
variable {ι : Type} [DecidableEq ι]

/-- The head of a channel is applied to the table, and stays. -/
def receive (p : ι) (n : NodeID ι) (s : PersistentArbitration ι) :
    Option (Except Token.Failure (PersistentArbitration ι)) :=
  (s.channels p n).head?.map fun msg =>
    match msg.apply (s.tables n) with
    | none => .error .assertion
    | some table =>
        .ok (match n with
          | .cache q => (s.setTable n table).record q msg.record
          | .directory => s.setTable n table)

def pop (p : ι) (n : NodeID ι) (s : PersistentArbitration ι) : PersistentArbitration ι :=
  { s with
    channels := Function.update s.channels p
      (Function.update (s.channels p) n (s.channels p n).tail) }

end PersistentArbitration

namespace Token

structure System (ι D : Type) where
  arb : PersistentArbitration ι := {}
  cache : ι → L1Cache D := fun _ => {}
  directory : Directory ι D
  requests : Multiset (NodeID ι × RequestMsg ι) := 0
  responses : Multiset (NodeID ι × ResponseMsg ι D) := 0
  completions : Multiset (CompletionMsg ι) := 0
  failed : Option Failure := none

namespace System
variable {ι D : Type} [LinearOrder ι] [DecidableEq D] [Inhabited D]

def init (memory : D) : System ι D := { directory := { dataBlk := memory } }

inductive Event (ι D : Type)
  | demand (id : ι) (type : CacheRequestType) (room : CacheHierarchy.Room) (prediction : Finset ι)
      (driver : D → D)
  | makeRoom (id : ι)
  | access (id : ι) (type : CacheRequestType) (driver : D → D)
  | useTimeout (id : ι)
  | requestTimeout (id : ι) (prediction : Finset ι)
  | persistent (p : ι) (n : NodeID ι)
  | request (n : NodeID ι) (m : RequestMsg ι)
  | response (n : NodeID ι) (m : ResponseMsg ι D) (driver : D → D)
  | completion (m : CompletionMsg ι)

/-- The outcome of a transition of a cache; `pop` takes the message it was for. -/
def afterCache (pop : System ι D → System ι D) (s : System ι D) :
    Except Failure (L1Cache.Context ι D) → System ι D
  | .error failure => { s with failed := some failure }
  | .ok x =>
      let s := { s with
        arb := x.arb
        cache := Function.update s.cache x.id x.cache }
      let s := if x.popped then pop s else s
      { s with
        requests := x.requests + s.requests
        responses := x.responses + s.responses
        completions := x.completions + s.completions }

def afterDirectory (pop : System ι D → System ι D) (s : System ι D) :
    Except Failure (Directory.Context ι D) → System ι D
  | .error failure => { s with failed := some failure }
  | .ok x =>
      let s := { s with directory := x.entry }
      let s := if x.popped then pop s else s
      { s with
        requests := x.requests + s.requests
        responses := x.responses + s.responses }

/-- A transition of a cache that is under way. -/
def context (id : ι) (inMsg : L1Cache.InMsg ι D) (driver : D → D) (prediction : Finset ι)
    (s : System ι D) : L1Cache.Context ι D :=
  { id := id, driver := driver, prediction := prediction, inMsg := inMsg, arb := s.arb,
    cache := s.cache id }

def dirContext (inMsg : Directory.InMsg ι D) (s : System ι D) : Directory.Context ι D :=
  { inMsg := inMsg, table := s.arb.tables .directory, entry := s.directory }

def demand (cfg : Config) (id : ι) (type : CacheRequestType) (room : CacheHierarchy.Room)
    (prediction : Finset ι) (driver : D → D) (s : System ι D) : System ι D :=
  match (s.cache id).memories.mandatoryQueue type room with
  | none => s
  | some d => s.afterCache (fun s => s) (L1Cache.doTransition cfg (L1Cache.demandEvent d)
      (s.context id (.mandatory type) driver prediction))

/-- A request for another block is at the head of the mandatory queue. -/
def makeRoom (cfg : Config) (id : ι) (s : System ι D) : System ι D :=
  match (s.cache id).memories.makeRoom with
  | none => s
  | some d => s.afterCache (fun s => s) (L1Cache.doTransition cfg (L1Cache.demandEvent d)
      (s.context id .timer (fun data => data) ∅))

/-- A hit on the fast path of the sequencer: a store writes the entry in the data cache. -/
def access (id : ι) (type : CacheRequestType) (driver : D → D) (s : System ι D) :
    System ι D :=
  if type = .LD ∨ type = .IFETCH then s
  else
    let c := s.cache id
    { s with
      cache := Function.update s.cache id { c with
        memories.l1D := c.memories.l1D.map fun entry =>
          { entry with dataBlk := driver entry.dataBlk } } }

def useTimeout (cfg : Config) (id : ι) (s : System ι D) : System ι D :=
  s.afterCache (fun s => s) (L1Cache.doTransition cfg .Use_Timeout
    (s.context id .timer (fun data => data) ∅))

def requestTimeout (cfg : Config) (id : ι) (prediction : Finset ι) (s : System ι D) :
    System ι D :=
  s.afterCache (fun s => s) (L1Cache.doTransition cfg .Request_Timeout
    (s.context id .timer (fun data => data) prediction))

def persistent (cfg : Config) (p : ι) (n : NodeID ι) (s : System ι D) :
    Option (System ι D) :=
  (s.arb.receive p n).map fun
    | .error failure => { s with failed := some failure }
    | .ok arb =>
        let s := { s with arb := arb }
        let pop := fun s : System ι D => { s with arb := s.arb.pop p n }
        match n with
        | .cache id => s.afterCache pop (L1Cache.doTransition cfg
            (L1Cache.persistentNetwork id (arb.tables n))
            (s.context id (.persistent p) (fun data => data) ∅))
        | .directory => s.afterDirectory pop (Directory.doTransition
            (Directory.persistentNetwork (arb.tables n)) (s.dirContext (.persistent p)))

def request (cfg : Config) (n : NodeID ι) (m : RequestMsg ι) (s : System ι D) :
    System ι D :=
  let pop := fun s : System ι D => { s with requests := s.requests.erase (n, m) }
  match n with
  | .cache id => s.afterCache pop (L1Cache.requestNetwork id m >>= fun event =>
      L1Cache.doTransition cfg event (s.context id (.request m) (fun data => data) ∅))
  | .directory => s.afterDirectory pop
      (Directory.doTransition (Directory.requestNetwork m) (s.dirContext (.request m)))

def response (cfg : Config) (n : NodeID ι) (m : ResponseMsg ι D) (driver : D → D)
    (s : System ι D) : System ι D :=
  let pop := fun s : System ι D => { s with responses := s.responses.erase (n, m) }
  match n with
  | .cache id => s.afterCache pop (L1Cache.responseNetwork (s.cache id) m >>= fun event =>
      L1Cache.doTransition cfg event (s.context id (.response m) driver ∅))
  | .directory => s.afterDirectory pop
      (Directory.doTransition (Directory.responseNetwork m) (s.dirContext (.response m)))

def completion (m : CompletionMsg ι) (s : System ι D) : System ι D :=
  s.afterDirectory (fun s => { s with completions := s.completions.erase m })
    (Directory.doTransition (Directory.completionNetwork m) (s.dirContext (.completion m)))

def step (cfg : Config) (s : System ι D) (e : Event ι D) : Option (System ι D) :=
  if s.failed.isSome then none
  else
    match e with
    | .demand id type room prediction driver =>
        some (s.demand cfg id type room prediction driver)
    | .makeRoom id => some (s.makeRoom cfg id)
    | .access id type driver =>
        if L1Cache.tryCacheAccess type (s.cache id) then some (s.access id type driver) else none
    | .useTimeout id => if (s.cache id).useTimer then some (s.useTimeout cfg id) else none
    | .requestTimeout id prediction =>
        if s.arb.reissueTimer id then some (s.requestTimeout cfg id prediction) else none
    | .persistent p n => s.persistent cfg p n
    | .request n m => if (n, m) ∈ s.requests then some (s.request cfg n m) else none
    | .response n m driver =>
        if (n, m) ∈ s.responses then some (s.response cfg n m driver) else none
    | .completion m => if m ∈ s.completions then some (s.completion m) else none

end System
end Token
end FeS2.Ruby
