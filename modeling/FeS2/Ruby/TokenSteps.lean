import FeS2.Ruby.TokenSystem

/-!
The steps of the token protocol by what they do: a cache or the directory takes a
transition that something triggers, a store hits, or nothing happens to the block.
-/

namespace FeS2.Ruby
namespace Token

/-- The response that a transition answers. -/
def L1Cache.InMsg.carried {ι D : Type} (id : ι) :
    L1Cache.InMsg ι D → Multiset (NodeID ι × ResponseMsg ι D)
  | .response m => {(.cache id, m)}
  | _ => 0

def Directory.InMsg.carried {ι D : Type} :
    Directory.InMsg ι D → Multiset (NodeID ι × ResponseMsg ι D)
  | .response m => {(.directory, m)}
  | _ => 0

namespace System
variable {ι D : Type} [LinearOrder ι] [DecidableEq D] {cfg : Config} {s s' : System ι D} {id : ι}

/-- What triggers an event at a cache in a step, and what pops it. -/
inductive CacheTrigger (s : System ι D) (id : ι) :
    Event ι D → L1Cache.InMsg ι D → L1Cache.Event → (System ι D → System ι D) → Prop
  | demand {type room prediction driver d}
      (head : (s.cache id).memories.mandatoryQueue type room = some d) :
      CacheTrigger s id (.demand id type room prediction driver) (.mandatory type)
        (L1Cache.demandEvent d) fun s => s
  | makeRoom {d} (head : (s.cache id).memories.makeRoom = some d) :
      CacheTrigger s id (.makeRoom id) .timer (L1Cache.demandEvent d) fun s => s
  | useTimeout (set : (s.cache id).useTimer) :
      CacheTrigger s id (.useTimeout id) .timer .Use_Timeout fun s => s
  | requestTimeout {prediction} (set : s.arb.reissueTimer id) :
      CacheTrigger s id (.requestTimeout id prediction) .timer .Request_Timeout fun s => s
  | persistent {p} :
      CacheTrigger s id (.persistent p (.cache id)) (.persistent p)
        (L1Cache.persistentNetwork id (s.arb.tables (.cache id)))
        fun s => { s with arb := s.arb.pop p (.cache id) }
  | request {m event} (mem : (.cache id, m) ∈ s.requests)
      (head : L1Cache.requestNetwork id m = .ok event) :
      CacheTrigger s id (.request (.cache id) m) (.request m) event
        fun s => { s with requests := s.requests.erase (.cache id, m) }
  | response {m driver event} (mem : (.cache id, m) ∈ s.responses)
      (head : L1Cache.responseNetwork (s.cache id) m = .ok event) :
      CacheTrigger s id (.response (.cache id) m driver) (.response m) event
        fun s => { s with responses := s.responses.erase (.cache id, m) }

inductive DirTrigger (s : System ι D) :
    Event ι D → Directory.InMsg ι D → Directory.Event → (System ι D → System ι D) → Prop
  | persistent {p} :
      DirTrigger s (.persistent p .directory) (.persistent p)
        (Directory.persistentNetwork (s.arb.tables .directory))
        fun s => { s with arb := s.arb.pop p .directory }
  | request {m} (mem : (.directory, m) ∈ s.requests) :
      DirTrigger s (.request .directory m) (.request m) (Directory.requestNetwork m)
        fun s => { s with requests := s.requests.erase (.directory, m) }
  | response {m driver} (mem : (.directory, m) ∈ s.responses) :
      DirTrigger s (.response .directory m driver) (.response m) (Directory.responseNetwork m)
        fun s => { s with responses := s.responses.erase (.directory, m) }
  | completion {m} (mem : m ∈ s.completions) :
      DirTrigger s (.completion m) (.completion m) (Directory.completionNetwork m)
        fun s => { s with completions := s.completions.erase m }

/-- A persistent message is applied to the table of the node first. -/
inductive Heard (s : System ι D) (n : NodeID ι) : Event ι D → PersistentArbitration ι → Prop
  | nothing {e} (other : ∀ p, e ≠ .persistent p n) : Heard s n e s.arb
  | message {p arb} (head : s.arb.receive p n = some (.ok arb)) : Heard s n (.persistent p n) arb

variable [Inhabited D]

inductive Stepped (cfg : Config) (s : System ι D) (e : Event ι D) : System ι D → Prop
  | idle : Stepped cfg s e s
  | halt : Stepped cfg s e { s with failed := some .assertion }
  | stray {id m} (mem : (.cache id, m) ∈ s.responses) (type : m.type = .ACK_OWNER) :
      Stepped cfg s e { s with failed := some .invalidTransition }
  | access {id type driver} (store : type = .ST ∨ type = .ATOMIC)
      (hit : L1Cache.tryCacheAccess type (s.cache id)) : Stepped cfg s e (s.access id type driver)
  | cache {arb id inMsg event pop driver prediction} (heard : Heard s (.cache id) e arb)
      (trigger : CacheTrigger { s with arb := arb } id e inMsg event pop) :
      Stepped cfg s e (afterCache pop { s with arb := arb } (L1Cache.doTransition cfg event
        (context id inMsg driver prediction { s with arb := arb })))
  | directory {arb inMsg event pop} (heard : Heard s .directory e arb)
      (trigger : DirTrigger { s with arb := arb } e inMsg event pop) :
      Stepped cfg s e (afterDirectory pop { s with arb := arb } (Directory.doTransition event
        (dirContext inMsg { s with arb := arb })))

theorem stepped {e : Event ι D} (h : step cfg s e = some s') :
    s.failed = none ∧ Stepped cfg s e s' := by
  unfold step at h
  split at h
  · cases h
  next hrun =>
  refine ⟨by simpa using hrun, ?_⟩
  cases e with
  | demand id type room prediction driver =>
      obtain rfl := Option.some.inj h
      unfold demand
      split
      · exact .idle
      · next d hd => exact .cache (.nothing (by rintro _ ⟨⟩)) (.demand hd)
  | makeRoom id =>
      obtain rfl := Option.some.inj h
      unfold makeRoom
      split
      · exact .idle
      · next d hd => exact .cache (.nothing (by rintro _ ⟨⟩)) (.makeRoom hd)
  | access id type driver =>
      dsimp only at h
      split at h
      · next hit =>
          obtain rfl := Option.some.inj h
          by_cases hload : type = .LD ∨ type = .IFETCH
          · unfold access
            rw [if_pos hload]
            exact .idle
          · exact .access (by cases type <;> simp at hload ⊢) hit
      · cases h
  | useTimeout id =>
      dsimp only at h
      split at h
      · next hset =>
          obtain rfl := Option.some.inj h
          exact .cache (.nothing (by rintro _ ⟨⟩)) (.useTimeout hset)
      · cases h
  | requestTimeout id prediction =>
      dsimp only at h
      split at h
      · next hset =>
          obtain rfl := Option.some.inj h
          exact .cache (.nothing (by rintro _ ⟨⟩)) (.requestTimeout hset)
      · cases h
  | persistent p n =>
      obtain ⟨r, hr, rfl⟩ := Option.map_eq_some_iff.mp h
      cases r with
      | error failure =>
          obtain rfl : failure = .assertion := by
            obtain ⟨msg, -, hmsg⟩ := Option.map_eq_some_iff.mp hr
            split at hmsg
            · exact (Except.error.inj hmsg).symm
            · cases hmsg
          exact .halt
      | ok arb =>
          cases n with
          | cache id => exact .cache (.message hr) .persistent
          | directory => exact .directory (.message hr) .persistent
  | request n m =>
      dsimp only at h
      split at h
      · next hmem =>
          obtain rfl := Option.some.inj h
          cases n with
          | cache id =>
              unfold request
              dsimp only
              cases hev : L1Cache.requestNetwork id m with
              | error failure =>
                  obtain rfl : failure = .assertion := by
                    unfold L1Cache.requestNetwork at hev
                    split at hev
                    · exact (Except.error.inj hev).symm
                    · split at hev <;> cases hev
                  exact .halt
              | ok event => exact .cache (.nothing (by rintro _ ⟨⟩)) (.request hmem hev)
          | directory => exact .directory (.nothing (by rintro _ ⟨⟩)) (.request hmem)
      · cases h
  | response n m driver =>
      dsimp only at h
      split at h
      · next hmem =>
          obtain rfl := Option.some.inj h
          cases n with
          | cache id =>
              unfold response
              dsimp only
              cases hev : L1Cache.responseNetwork (s.cache id) m with
              | error failure =>
                  obtain ⟨rfl, htype⟩ : failure = .invalidTransition ∧ m.type = .ACK_OWNER := by
                    unfold L1Cache.responseNetwork at hev
                    split at hev <;> split at hev <;>
                      first | exact ⟨(Except.error.inj hev).symm, by assumption⟩ | cases hev
                  exact .stray hmem htype
              | ok event => exact .cache (.nothing (by rintro _ ⟨⟩)) (.response hmem hev)
          | directory => exact .directory (.nothing (by rintro _ ⟨⟩)) (.response hmem)
      · cases h
  | completion m =>
      dsimp only at h
      split at h
      · next hmem =>
          obtain rfl := Option.some.inj h
          exact .directory (.nothing (by rintro _ ⟨⟩)) (.completion hmem)
      · cases h

/-- What a transition of a cache leaves of the system. -/
structure CacheMoved (s s' : System ι D) (x' : L1Cache.Context ι D) (inMsg : L1Cache.InMsg ι D)
    (id : ι) : Prop where
  cache : s'.cache = Function.update s.cache id x'.cache
  directory : s'.directory = s.directory
  responses : ∃ rest, s.responses = inMsg.carried id + rest ∧ s'.responses = x'.responses + rest
  tables : s'.arb.tables = x'.arb.tables
  timers : s'.arb.reissueTimer = x'.arb.reissueTimer
  failed : s'.failed = s.failed

omit [Inhabited D] in
theorem cacheMoved {inMsg event} {pop : System ι D → System ι D} {x' : L1Cache.Context ι D}
    {e : Event ι D} (trigger : CacheTrigger s id e inMsg event pop) (hid : x'.id = id)
    (hpop : ∀ m, inMsg = .response m → x'.popped) :
    CacheMoved s (afterCache pop s (.ok x')) x' inMsg id := by
  subst hid
  unfold afterCache
  dsimp only
  cases trigger with
  | response mem _ =>
      rw [if_pos (hpop _ rfl)]
      exact ⟨rfl, rfl, ⟨_, (Multiset.cons_erase mem).symm, rfl⟩, rfl, rfl, rfl⟩
  | _ => split <;> exact ⟨rfl, rfl, ⟨_, (zero_add _).symm, rfl⟩, rfl, rfl, rfl⟩

structure DirMoved (s s' : System ι D) (x' : Directory.Context ι D) (inMsg : Directory.InMsg ι D) :
    Prop where
  cache : s'.cache = s.cache
  directory : s'.directory = x'.entry
  responses : ∃ rest, s.responses = inMsg.carried + rest ∧ s'.responses = x'.responses + rest
  tables : s'.arb.tables = s.arb.tables
  timers : s'.arb.reissueTimer = s.arb.reissueTimer
  failed : s'.failed = s.failed

omit [Inhabited D] in
theorem dirMoved {inMsg event} {pop : System ι D → System ι D} {x' : Directory.Context ι D}
    {e : Event ι D} (trigger : DirTrigger s e inMsg event pop) (hpop : ∀ m,
      inMsg = .response m → x'.popped) :
    DirMoved s (afterDirectory pop s (.ok x')) x' inMsg := by
  unfold afterDirectory
  dsimp only
  cases trigger with
  | response mem =>
      rw [if_pos (hpop _ rfl)]
      exact ⟨rfl, rfl, ⟨_, (Multiset.cons_erase mem).symm, rfl⟩, rfl, rfl, rfl⟩
  | _ => split <;> exact ⟨rfl, rfl, ⟨_, (zero_add _).symm, rfl⟩, rfl, rfl, rfl⟩

end System
end Token
end FeS2.Ruby
