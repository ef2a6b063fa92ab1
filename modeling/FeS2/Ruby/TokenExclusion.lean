import FeS2.Ruby.TokenConservation
import FeS2.Ruby.TokenSteps

/-!
Tokens in runs of the token protocol. They are conserved by every step, and a cache
may write the block with all of them and read it with one, so no other cache may read
what one may write.
-/

namespace FeS2.Ruby
namespace Token

namespace L1Cache
variable {state : State} {event : Event}

/-- A load hits in the states with a readable copy. -/
theorem readable_eq_load_hit :
    state.readable = (transition state .Load).any fun row => .h_load_hit ∈ row.2 := by
  cases state <;> decide

/-- A store hits in the states with all tokens. -/
theorem holdsAll_eq_store_hit :
    state.holdsAll = (transition state .Store).any fun row => .hh_store_hit ∈ row.2 := by
  cases state <;> decide

theorem readable_of_permission (h : state.permission ≠ .Invalid) : state.readable := by
  cases state <;> first | rfl | exact absurd rfl h

theorem holdsAll_of_permission (h : state.permission = .Read_Write) : state.holdsAll := by
  cases state <;> first | rfl | cases h

theorem readable_of_holdsAll (h : state.holdsAll) : state.readable := by
  cases state <;> first | rfl | cases h

end L1Cache

namespace System
variable {ι D : Type} [LinearOrder ι] [DecidableEq D] {cfg : Config} {s s' : System ι D}
  {id : ι} {memory : D} {e : Event ι D}

/-- Responses trigger the events that take tokens. -/
theorem CacheTrigger.response_iff {inMsg event} {pop : System ι D → System ι D}
    (h : CacheTrigger s id e inMsg event pop) : event.response ↔ ∃ m, inMsg = .response m := by
  cases h with
  | demand head | makeRoom head =>
      rename_i d
      refine ⟨fun h => ?_, fun ⟨_, h⟩ => (nomatch h)⟩
      rcases d with _ | _ | _ | _ | _
      · rename_i type
        cases type <;> cases h
      all_goals cases h
  | useTimeout | requestTimeout => exact ⟨fun h => (nomatch h), fun ⟨_, h⟩ => (nomatch h)⟩
  | persistent =>
      refine ⟨fun h => ?_, fun ⟨_, h⟩ => (nomatch h)⟩
      unfold L1Cache.persistentNetwork at h
      split at h
      · split at h
        · cases h
        · split at h <;> cases h
      · cases h
  | request mem head =>
      refine ⟨fun h => ?_, fun ⟨_, h⟩ => (nomatch h)⟩
      unfold L1Cache.requestNetwork at head
      split at head
      · cases head
      · split at head <;> obtain rfl := Except.ok.inj head <;> cases h
  | response mem head =>
      refine ⟨fun _ => ⟨_, rfl⟩, fun _ => ?_⟩
      unfold L1Cache.responseNetwork at head
      split at head <;> split at head <;> first | (obtain rfl := Except.ok.inj head; rfl) | cases head

theorem DirTrigger.response_iff {inMsg event} {pop : System ι D → System ι D}
    (h : DirTrigger s e inMsg event pop) : event.response ↔ ∃ m, inMsg = .response m := by
  cases h with
  | persistent =>
      refine ⟨fun h => ?_, fun ⟨_, h⟩ => (nomatch h)⟩
      unfold Directory.persistentNetwork at h
      split at h <;> cases h
  | request | completion =>
      rename_i m _
      refine ⟨fun h => ?_, fun ⟨_, h⟩ => (nomatch h)⟩
      simp only [Directory.requestNetwork, Directory.completionNetwork] at h
      split at h <;> cases h
  | response =>
      refine ⟨fun _ => ⟨_, rfl⟩, fun _ => ?_⟩
      unfold Directory.responseNetwork
      split <;> rfl

/-- What a transition adds to the balance of a cache, the response it answers carried. -/
theorem CacheTrigger.carried {inMsg event driver prediction} {pop : System ι D → System ι D}
    (h : CacheTrigger s id e inMsg event pop) :
    (if event.response then (context id inMsg driver prediction s).inTokens else 0) =
      flying (inMsg.carried id) := by
  split
  · next hr =>
      obtain ⟨m, rfl⟩ := h.response_iff.mp hr
      change m.tokens = flying ((.cache id, m) ::ₘ 0)
      rw [flying_cons, flying_zero, Nat.add_zero]
  · next hr =>
      cases inMsg with
      | response m => exact absurd (h.response_iff.mpr ⟨m, rfl⟩) hr
      | _ => rfl

theorem DirTrigger.carried {inMsg event} {pop : System ι D → System ι D}
    (h : DirTrigger s e inMsg event pop) :
    (if event.response then (dirContext inMsg s).inTokens else 0) = flying inMsg.carried := by
  split
  · next hr =>
      obtain ⟨m, rfl⟩ := h.response_iff.mp hr
      change m.tokens = flying ((.directory, m) ::ₘ 0)
      rw [flying_cons, flying_zero, Nat.add_zero]
  · next hr =>
      cases inMsg with
      | response m => exact absurd (h.response_iff.mpr ⟨m, rfl⟩) hr
      | _ => rfl

variable [Fintype ι]

structure Inv (s : System ι D) : Prop where
  ok : ∀ id, L1Cache.Ok (s.cache id)
  total : ∑ id, (s.cache id).getTokens + s.directory.tokens + flying s.responses = max_tokens

omit [LinearOrder ι] [DecidableEq D] in
theorem Inv.congr (h : Inv s) (hc : s'.cache = s.cache) (hd : s'.directory = s.directory)
    (hr : s'.responses = s.responses) : Inv s' :=
  ⟨hc ▸ h.ok, hc ▸ hd ▸ hr ▸ h.total⟩

omit [LinearOrder ι] [DecidableEq D] in
theorem inv_init [Inhabited D] : Inv (init memory : System ι D) := by
  refine ⟨fun _ => L1Cache.ok_blank, ?_⟩
  have h0 : ∑ id : ι, (((init memory : System ι D).cache id).getTokens) = 0 :=
    Finset.sum_eq_zero fun _ _ => rfl
  rw [h0]
  rfl

omit [DecidableEq D] in
/-- One cache changes, with the tokens it takes from the network or leaves there. -/
theorem Inv.update (h : Inv s) {c : L1Cache D} (hok : L1Cache.Ok c)
    (hc : s'.cache = Function.update s.cache id c) (hd : s'.directory = s.directory)
    (hsum : c.getTokens + flying s'.responses = (s.cache id).getTokens + flying s.responses) :
    Inv s' := by
  refine ⟨fun id' => ?_, ?_⟩
  · rw [hc]
    by_cases hid : id' = id
    · subst hid
      rw [Function.update_self]
      exact hok
    · rw [Function.update_of_ne hid]
      exact h.ok id'
  · have hup := Tally.sum_update L1Cache.getTokens s.cache id c
    have htotal := h.total
    rw [hc, hd]
    omega

omit [LinearOrder ι] [DecidableEq D] [Fintype ι] in
/-- A store hits an entry that may be written. -/
theorem tryCacheAccess_store {c : L1Cache D} (hok : L1Cache.Ok c) {type : CacheRequestType}
    (hstore : type = .ST ∨ type = .ATOMIC) (hit : L1Cache.tryCacheAccess type c) :
    c.memories.l1D.isSome ∧ ∃ e, c.getCacheEntry = some e ∧ e.permission = .Read_Write := by
  unfold L1Cache.tryCacheAccess at hit
  rw [if_neg (by rcases hstore with rfl | rfl <;> exact fun h => nomatch h)] at hit
  cases hl : c.memories.l1D with
  | none =>
      rw [hl] at hit
      cases hit
  | some e =>
      rw [hl] at hit
      refine ⟨rfl, e, CacheHierarchy.getCacheEntry_l1D hok.exclusive hl, ?_⟩
      rcases hstore with rfl | rfl <;> simpa using hit

omit [DecidableEq D] [Fintype ι] in
/-- A hit of a store writes the entry, and nothing else. -/
theorem access_eq (hok : L1Cache.Ok (s.cache id)) {type : CacheRequestType} {driver : D → D}
    (hstore : type = .ST ∨ type = .ATOMIC) (hit : L1Cache.tryCacheAccess type (s.cache id)) :
    s.access id type driver = { s with
      cache := Function.update s.cache id
        ((s.cache id).modifyEntry fun e => { e with dataBlk := driver e.dataBlk }) } := by
  unfold System.access
  rw [if_neg (by rcases hstore with rfl | rfl <;> exact fun h => by simp at h)]
  dsimp only
  rw [CacheHierarchy.map_l1D hok.exclusive (tryCacheAccess_store hok hstore hit).1]
  rfl

omit [DecidableEq D] in
/-- A hit of a store leaves the tokens where they are. -/
theorem Inv.access (h : Inv s) {type : CacheRequestType} (driver : D → D)
    (hstore : type = .ST ∨ type = .ATOMIC) (hit : L1Cache.tryCacheAccess type (s.cache id)) :
    Inv (s.access id type driver) := by
  have hok := h.ok id
  rw [access_eq hok hstore hit]
  refine h.update (c := (s.cache id).modifyEntry fun e => { e with dataBlk := driver e.dataBlk })
    ⟨?_, fun hnone e he => ?_, fun st hst => ?_, fun e he => ?_⟩ rfl rfl ?_
  · rw [L1Cache.exclusive_modifyEntry]
    exact hok.exclusive
  · rw [L1Cache.getCacheEntry_modifyEntry, Option.map_eq_some_iff] at he
    obtain ⟨e, he, rfl⟩ := he
    exact hok.idle hnone e he
  · obtain ⟨hbusy, e, he, hst'⟩ := hok.busy st hst
    exact ⟨hbusy, { e with dataBlk := driver e.dataBlk },
      by rw [L1Cache.getCacheEntry_modifyEntry, he]; rfl, hst'⟩
  · rw [L1Cache.getCacheEntry_modifyEntry, Option.map_eq_some_iff] at he
    obtain ⟨e, he, rfl⟩ := he
    have hfit := hok.fits e he
    exact ⟨hfit.permission, hfit.all, hfit.some, hfit.present⟩
  · congr 1
    unfold L1Cache.getTokens
    rw [L1Cache.getCacheEntry_modifyEntry, Option.map_map]
    rfl

variable [Inhabited D]

theorem Inv.step (h : Inv s) (hs : step cfg s e = some s') : Inv s' := by
  obtain ⟨-, hs⟩ := stepped hs
  cases hs with
  | idle => exact h
  | halt | stray => exact h.congr rfl rfl rfl
  | access store hit => exact h.access _ store hit
  | @cache arb id inMsg event pop driver prediction heard trigger =>
      cases ht : L1Cache.doTransition cfg event
          (context id inMsg driver prediction { s with arb := arb }) with
      | error failure => exact h.congr rfl rfl rfl
      | ok x' =>
          have hx := L1Cache.transited (h.ok id) ht
          have hm := cacheMoved trigger hx.id fun m hm =>
            hx.popped (trigger.response_iff.mpr ⟨m, hm⟩)
          have hb := hx.balance
          rw [trigger.carried] at hb
          obtain ⟨rest, hrest, hrest'⟩ := hm.responses
          have hr := congrArg flying hrest
          have hr' := congrArg flying hrest'
          rw [flying_add] at hr hr'
          refine h.update hx.ok hm.cache hm.directory ?_
          simp only [L1Cache.Context.balance, context, flying_zero] at hb
          dsimp only at hr hr' ⊢
          omega
  | @directory arb inMsg event pop heard trigger =>
      cases ht : Directory.doTransition event (dirContext inMsg { s with arb := arb }) with
      | error failure => exact h.congr rfl rfl rfl
      | ok x' =>
          have hx := Directory.transited ht
          have hm := dirMoved trigger fun m hm => hx.popped (trigger.response_iff.mpr ⟨m, hm⟩)
          have hb := hx.balance
          rw [trigger.carried] at hb
          obtain ⟨rest, hrest, hrest'⟩ := hm.responses
          have hr := congrArg flying hrest
          have hr' := congrArg flying hrest'
          rw [flying_add] at hr hr'
          have htotal := h.total
          refine ⟨fun id => by rw [hm.cache]; exact h.ok id, ?_⟩
          rw [hm.cache, hm.directory]
          simp only [Directory.Context.balance, dirContext, flying_zero] at hb
          dsimp only at hr hr' ⊢
          omega

theorem inv_of_reachable (h : EventSystem.Reachable (step cfg) (init memory) s) : Inv s :=
  EventSystem.reachable_invariant inv_init (fun _ _ _ hI he => hI.step he) h

omit [DecidableEq D] [Inhabited D] in
/-- The tokens that a state needs are there. -/
theorem Inv.state (h : Inv s) (id : ι) (table : PersistentTable ι) : ∃ state,
    (s.cache id).getState id table = .ok state ∧
      (state.holdsAll → (s.cache id).getTokens = max_tokens) ∧
      (state.readable → (s.cache id).getTokens ≥ 1) := by
  have hok := h.ok id
  obtain ⟨state, hstate⟩ : ∃ state, (s.cache id).getState id table = .ok state := by
    unfold L1Cache.getState
    rw [if_pos hok.exclusive]
    split
    · exact ⟨_, rfl⟩
    · exact ⟨_, rfl⟩
    · split <;> exact ⟨_, rfl⟩
  refine ⟨state, hstate, ?_⟩
  rcases hok.getState hstate with ⟨e, he, rfl⟩ | ⟨-, -, rfl | rfl⟩
  · rw [L1Cache.getTokens_some he]
    exact ⟨(hok.fits e he).all, (hok.fits e he).some⟩
  · exact ⟨fun h => (nomatch h), fun h => (nomatch h)⟩
  · exact ⟨fun h => (nomatch h), fun h => (nomatch h)⟩

/-- The state of a cache, as its controller sees it. -/
def Is (s : System ι D) (id : ι) (state : L1Cache.State) : Prop :=
  (s.cache id).getState id (s.arb.tables (.cache id)) = .ok state

instance {state : L1Cache.State} : Decidable (s.Is id state) :=
  match h : (s.cache id).getState id (s.arb.tables (.cache id)) with
  | .ok state' => decidable_of_iff (state' = state) (by simp [Is, h])
  | .error _ => isFalse (by simp [Is, h])

omit [DecidableEq D] [Inhabited D] in
/-- The fast path of the sequencer hits in readable states, and for a store with all tokens. -/
theorem Inv.tryCacheAccess (h : Inv s) {type : CacheRequestType} {state : L1Cache.State}
    (hs : s.Is id state) (hit : L1Cache.tryCacheAccess type (s.cache id)) :
    state.readable ∧ (type = .ST ∨ type = .ATOMIC → state.holdsAll) := by
  have hok := h.ok id
  obtain ⟨e, he, hperm⟩ : ∃ e, (s.cache id).getCacheEntry = some e ∧
      (e.permission = .Read_Write ∨ e.permission = .Read_Only ∧ (type = .LD ∨ type = .IFETCH)) := by
    unfold L1Cache.tryCacheAccess at hit
    split at hit
    · cases hit
    · next e he =>
        refine ⟨e, ?_, by simpa using hit⟩
        split at he
        · exact CacheHierarchy.getCacheEntry_l1I hok.exclusive he
        · exact CacheHierarchy.getCacheEntry_l1D hok.exclusive he
  obtain rfl : e.cacheState = state := by
    rcases hok.getState hs with ⟨e', he', hst⟩ | ⟨hnone, -, -⟩
    · exact Option.some.inj (he.symm.trans he') ▸ hst
    · cases he.symm.trans hnone
  rw [(hok.fits e he).permission] at hperm
  rcases hperm with hperm | ⟨hperm, htype⟩
  · have hall := L1Cache.holdsAll_of_permission hperm
    exact ⟨L1Cache.readable_of_holdsAll hall, fun _ => hall⟩
  · refine ⟨L1Cache.readable_of_permission (hperm ▸ fun h => nomatch h), ?_⟩
    rintro (rfl | rfl) <;> simp at htype

/-- Tokens are conserved, go with the states of the caches, and allow one writer. -/
theorem single_writer (h : EventSystem.Reachable (step cfg) (init memory) s) :
    ∑ id, (s.cache id).getTokens + s.directory.tokens + flying s.responses = max_tokens ∧
      (∀ id, ∃ state, s.Is id state ∧
        (state.holdsAll → (s.cache id).getTokens = max_tokens) ∧
        (state.readable → (s.cache id).getTokens ≥ 1)) ∧
      ∀ id id' state state', s.Is id state → s.Is id' state' → state.holdsAll →
        state'.readable → id' = id := by
  have hinv := inv_of_reachable h
  refine ⟨hinv.total, fun id => hinv.state id _, ?_⟩
  intro id id' state state' hs hs' hall hread
  by_contra hne
  obtain ⟨st, hst, hmax, -⟩ := hinv.state id _
  obtain rfl := Except.ok.inj (hst.symm.trans hs)
  obtain ⟨st', hst', -, hpos⟩ := hinv.state id' _
  obtain rfl := Except.ok.inj (hst'.symm.trans hs')
  have h1 := hmax hall
  have h2 := hpos hread
  have hle := Tally.add_le_sum L1Cache.getTokens s.cache hne
  have htotal := hinv.total
  omega

/-- A load misses in the first of two caches, and the directory answers with all tokens. -/
def loadMiss : List (Event (Bool) ℕ) :=
  [.demand false .LD { l1Avail := true, l2Avail := true, stalls := false } ∅ (fun data => data),
    .request .directory { type := .GETS, requestor := false, destination := {.directory} },
    .response (.cache false)
      { type := .DATA_OWNER, sender := .directory, tokens := 1024, dataBlk := 7, dirty := false
        messageSize := .Response_Data } (fun data => data)]

theorem single_writer_loadMiss : ∃ s : System (Bool) ℕ,
    EventSystem.run (step { tokenReissueThreshold := 2, tokenCompletionEnabled := true }) (init 7)
      loadMiss = some s ∧
    s.Is false .M_W ∧ ∀ state, s.Is true state → ¬ state.readable := by
  have hsome : (EventSystem.run
      (step { tokenReissueThreshold := 2, tokenCompletionEnabled := true }) (init 7)
      loadMiss).isSome := by decide +kernel
  obtain ⟨s, hs⟩ := Option.isSome_iff_exists.mp hsome
  have h0 : s.Is false .M_W := by
    have h : ((EventSystem.run
        (step { tokenReissueThreshold := 2, tokenCompletionEnabled := true }) (init 7)
        loadMiss).map fun s => decide (s.Is false .M_W)) = some true := by decide +kernel
    rw [hs] at h
    simpa using h
  refine ⟨s, hs, h0, fun state h1 hread => ?_⟩
  exact absurd ((single_writer ⟨loadMiss, hs⟩).2.2 false true _ _ h0 h1 rfl hread) (by decide)

end System
end Token
end FeS2.Ruby
