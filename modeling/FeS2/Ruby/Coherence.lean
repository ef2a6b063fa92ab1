import FeS2.Ruby.CoherenceRequests

/-!
The directory protocol is coherent: in every run a cache that may write is alone,
every load sees the last store, and no controller errs.
-/

namespace FeS2.Ruby
open L1Cache
namespace System
variable {ι D : Type} [DecidableEq ι] [DecidableEq D] [Inhabited D] {s : System ι D}
  {view : ι → View D} {t : Protocol.Txn ι D} {w : ι → Protocol.Role ι D} {i : ι} {v : View D}
  {driver : D → D}

def shown (view : ι → View D) (s : System ι D) : Protocol ι D :=
  { view := view
    directory := s.directory
    requests := s.requests
    forwards := s.forwards
    responses := s.responses
    unblocks := s.unblocks
    current := s.current }

/-- What holds of every reachable system. -/
def Coherent (s : System ι D) : Prop :=
  s.failed = false ∧ (∀ x ∈ s.reads, x.1 = x.2) ∧
    ∃ view t w, (∀ i, Shows (s.cache i) (view i)) ∧ Protocol.Inv t w (s.shown view)

omit [DecidableEq D] in
theorem init_coherent (memory : D) : (init memory : System ι D).Coherent := by
  have hrequests : Network.Carries (0 : Multiset (RequestMsg ι D)) fun m =>
      ∃ i : ι, (Protocol.Role.none : Protocol.Role ι D) = .request m := by
    refine Network.carries_zero.congr fun m => ⟨False.elim, ?_⟩
    rintro ⟨i, hi⟩
    cases hi
  have hresponses : Network.Carries (0 : Multiset (ι × ResponseMsg ι D)) fun x =>
      (∃ i : ι, (Protocol.Role.none : Protocol.Role ι D) = .released ∧
        x = (i, Protocol.wbAck i)) ∨ False := by
    refine Network.carries_zero.congr fun x => ⟨False.elim, ?_⟩
    rintro (⟨i, hi, -⟩ | hx)
    · cases hi
    · exact hx
  refine ⟨rfl, fun x hx => absurd hx List.not_mem_nil, fun _ => ⟨.NP, memory, 0, 0⟩, .idle,
    fun _ => .none, fun i => .absent memory, ⟨fun i hi => ?_, fun i hi => ?_⟩, rfl,
    fun i hi => hi.elim, fun i hi => hi.elim, fun i => .inl rfl,
    fun i => .blind (Finset.notMem_empty i) rfl, fun _ => rfl, hrequests, Network.carries_zero,
    hresponses, Network.carries_zero⟩
  · exact absurd hi (Finset.notMem_empty i)
  · exact absurd hi (Finset.notMem_empty i)

omit [DecidableEq D] in
/-- A cache has made a transition. -/
theorem Coherent.afterCache (s' : System ι D) {pop : System ι D → System ι D}
    {x : Option (L1Cache.Context ι D)} {effect : Effect ι D} (hfailed : s'.failed = false)
    (hreads : ∀ x ∈ s'.reads, x.1 = x.2) (hshows : ∀ j, Shows (s'.cache j) (view j))
    (hpop : (if effect.popped then pop s else s) = s') (hx : Yields x driver v effect)
    (hloads : ∀ d ∈ effect.loads, d = s'.current)
    (hinv : Protocol.Inv t w ((s'.shown view).after i v driver effect)) :
    (s.afterCache i pop x).Coherent := by
  obtain ⟨cache, inMsg, id, hcache, rfl⟩ := hx
  subst hpop
  refine ⟨hfailed, fun x hx => ?_, Function.update view i v, t, w, fun j => ?_, hinv⟩
  · rcases List.mem_append.mp hx with hx | hx
    · exact hreads x hx
    · obtain ⟨d, hd, rfl⟩ := List.mem_map.mp hx
      exact hloads d hd
  · by_cases hj : j = i
    · subst hj
      simpa [System.afterCache] using hcache
    · simpa [System.afterCache, hj] using hshows j

/-! The processor side -/

omit [DecidableEq ι] [DecidableEq D] in
theorem Demands.popped {v v' : View D} {effect : Effect ι D} (h : Demands i driver v v' effect) :
    effect.popped = false := by
  cases h <;> rfl

omit [DecidableEq D] [Inhabited D] in
theorem Shows.isTransient {c : L1Cache D} (h : Shows c v) (ht : 0 < v.trigger) :
    v.state.isTransient := by
  cases h with
  | transient instr d d' p n h => exact h
  | _ => exact absurd ht (Nat.lt_irrefl 0)

theorem Coherent.answers {event : L1Cache.Event} (hfailed : s.failed = false)
    (hreads : ∀ x ∈ s.reads, x.1 = x.2) (hshows : ∀ j, Shows (s.cache j) (view j))
    (hinv : Protocol.Inv t w (s.shown view))
    (hanswers : Answers i driver (s.cache i) (view i) event) :
    (s.afterCache i id (L1Cache.doTransition event
      { id := i, driver := driver, inMsg := .mandatory, cache := s.cache i })).Coherent := by
  obtain ⟨v', effect, hdemands, hyields⟩ := hanswers
  obtain ⟨hloads, w', hinv'⟩ := hinv.demand rfl hdemands
  refine Coherent.afterCache s hfailed hreads hshows ?_ hyields hloads hinv'
  rw [Demands.popped hdemands]
  rfl

theorem Coherent.mandatory {event : L1Cache.Event} {resources : Bool} (h : s.Coherent)
    (hevent : ∀ view, Shows (s.cache i) view →
      (needsResources view.state event && !resources) = false →
      Answers i driver (s.cache i) view event) :
    (s.mandatory i event resources driver).Coherent := by
  obtain ⟨hfailed, hreads, view, t, w, hshows, hinv⟩ := id h
  rw [System.mandatory, (hshows i).getState]
  dsimp only
  split
  · exact h
  · rename_i hres
    exact Coherent.answers hfailed hreads hshows hinv
      (hevent (view i) (hshows i) (Bool.eq_false_of_not_eq_true hres))

theorem Coherent.demand {type : CacheRequestType} {room : L1Cache.Room} (h : s.Coherent) :
    (s.demand i type room driver).Coherent := by
  rw [System.demand]
  split
  · exact h
  · rename_i event he
    exact h.mandatory fun view hview hres => hview.demand he hres

theorem Coherent.makeRoom {resources : Bool} (h : s.Coherent) :
    (s.makeRoom i resources).Coherent := by
  rw [System.makeRoom]
  split
  · exact h
  · rename_i event he
    exact h.mandatory fun view hview _ => hview.makeRoom he

omit [DecidableEq D] in
/-- A hit on the fast path. -/
theorem Coherent.access {type : CacheRequestType} (h : s.Coherent)
    (ht : (s.cache i).tryCacheAccess type) : (s.access i type driver).Coherent := by
  obtain ⟨hfailed, hreads, view, t, w, hshows, hinv⟩ := id h
  rw [System.access]
  split
  · exact h
  · rename_i entry he
    split
    · obtain ⟨hreadable, hdata⟩ := (hshows i).access_load ht he
      refine ⟨hfailed, fun x hx => ?_, view, t, w, hshows, hinv⟩
      rcases List.mem_append.mp hx with hx | hx
      · exact hreads x hx
      · rw [List.mem_singleton.mp hx]
        exact hdata.trans ((hinv.rights i).readable hreadable)
    · rename_i hstore
      rw [if_neg fun hi => hstore (.inr hi)] at he
      obtain ⟨hview, hshows'⟩ : view i = ⟨.MM, entry.dataBlk, 0, 0⟩ ∧
          Shows { s.cache i with l1D := some { entry with dataBlk := driver entry.dataBlk } }
            ⟨.MM, driver entry.dataBlk, 0, 0⟩ :=
        (hshows i).access_store ht hstore he
      have hview' : (s.shown view).view i = ⟨.MM, entry.dataBlk, 0, 0⟩ := hview
      have hrole := (hinv.node i).role_none (by rw [hview']; exact .inr rfl)
      have hinv' : Protocol.Inv t w ((s.shown view).after i ⟨.MM, driver entry.dataBlk, 0, 0⟩ driver
          { stores := 1 }) :=
        hinv.store hrole (by rw [hview']; rfl) rfl (by rw [hview'])
      rw [Protocol.after_store] at hinv'
      refine ⟨hfailed, hreads, Function.update view i ⟨.MM, driver entry.dataBlk, 0, 0⟩, t, w,
        fun j => ?_, hinv'⟩
      by_cases hj : j = i
      · subst hj
        simpa using hshows'
      · simpa [hj] using hshows j

/-- The acks are complete. -/
theorem Coherent.trigger (h : s.Coherent) (ht : 0 < (s.cache i).triggerQueue) :
    (s.trigger i driver).Coherent := by
  obtain ⟨hfailed, hreads, view, t, w, hshows, hinv⟩ := id h
  rw [(hshows i).triggerQueue] at ht
  obtain ⟨hst, hone, t', w', hinv'⟩ := hinv.all_acks (i := i)
    (v := ⟨.MM, driver (view i).data, 0, 0⟩) (Shows.isTransient (hshows i) ht) ht rfl rfl
  exact Coherent.afterCache s hfailed hreads hshows rfl ((hshows i).all_acks hst hone)
    (fun d hd => absurd hd List.not_mem_nil) hinv'

/-! Deliveries -/

/-- A forwarded request is answered with a response, or counted by the cache that sent it. -/
theorem forward_yields {m : RequestMsg ι D} (hshows : Shows (s.cache i) (view i))
    (hinv : Protocol.Inv t w (s.shown view)) (hm : (i, m) ∈ s.forwards) :
    ∃ event v effect t' w', forwardToCache i m = some event ∧
      Yields (L1Cache.doTransition event
        { id := i, driver := id, inMsg := .forward m, cache := s.cache i }) id v effect ∧
      Protocol.Inv t' w' (({ s.shown view with forwards := s.forwards.erase (i, m) } :
        Protocol ι D).after i v id effect) ∧
      ∃ responses, effect = { popped := true, responses := responses } ∧
        (responses = [] ∨ responses.length = 1 ∧ v.trigger = (view i).trigger) := by
  rcases Protocol.forwards_type (hinv.forwards.mem hm) with htype | htype | htype
  · obtain ⟨hst, t', hinv'⟩ := hinv.fwd_GETS id hm htype
    exact ⟨_, _, _, t', w, by rw [forwardToCache, htype], hshows.fwd_GETS hst, hinv', _, rfl,
      .inr ⟨rfl, rfl⟩⟩
  · by_cases hown : m.requestor = i
    · obtain ⟨hst, t', hinv'⟩ := hinv.own_GETX id hm htype hown
      refine ⟨_, _, _, t', w, ?_, hshows.own_GETX hst, hinv', [], rfl, .inl rfl⟩
      rw [forwardToCache, htype]
      exact if_pos hown
    · obtain ⟨hst, t', hinv'⟩ := hinv.fwd_GETX id hm htype hown
      refine ⟨_, _, _, t', w, ?_, hshows.fwd_GETX hst, hinv', _, rfl, .inr ⟨rfl, rfl⟩⟩
      rw [forwardToCache, htype]
      exact if_neg hown
  · obtain ⟨hst, t', hinv'⟩ := hinv.inv id hm htype
    exact ⟨_, _, _, t', w, by rw [forwardToCache, htype], hshows.inv hst, hinv', _, rfl,
      .inr ⟨rfl, rfl⟩⟩

theorem Coherent.forward {m : ι × RequestMsg ι D} (h : s.Coherent) (hm : m ∈ s.forwards) :
    (s.forward m).Coherent := by
  obtain ⟨hfailed, hreads, view, t, w, hshows, hinv⟩ := id h
  obtain ⟨event, v, effect, t', w', he, hyields, hinv', responses, rfl, -⟩ :=
    forward_yields (hshows m.1) hinv hm
  rw [System.forward, he]
  exact Coherent.afterCache { s with forwards := s.forwards.erase m } hfailed hreads hshows rfl
    hyields (fun d hd => absurd hd List.not_mem_nil) hinv'

/-- A response is counted, or ends what the cache waits for: a load reads the current block, and
the directory is told. -/
theorem response_yields {m : ResponseMsg ι D} (hshows : Shows (s.cache i) (view i))
    (hinv : Protocol.Inv t w (s.shown view)) (hm : (i, m) ∈ s.responses) :
    ∃ event v effect t' w', responseToCache m = some event ∧
      Yields (L1Cache.doTransition event
        { id := i, driver := id, inMsg := .response m, cache := s.cache i }) id v effect ∧
      Protocol.Inv t' w' (({ s.shown view with responses := s.responses.erase (i, m) } :
        Protocol ι D).after i v id effect) ∧
      ∃ unblocks loads, effect = { popped := true, unblocks := unblocks, loads := loads } ∧
        (∀ d ∈ loads, d = s.current) ∧
        (unblocks = [] ∨ unblocks.length = 1 ∧ v.trigger = 0) := by
  have hnone : ∀ d ∈ ([] : List D), d = s.current := fun d hd => absurd hd List.not_mem_nil
  rcases hinv.responses.mem hm with ⟨k, -, heq⟩ | hresp
  · obtain rfl := (Prod.mk.inj heq).2
    obtain ⟨hst, w', hinv'⟩ := hinv.writeback_Ack id hm rfl
    exact ⟨_, _, _, t, w', rfl, hshows.writeback_Ack hst, hinv', [], [], rfl, hnone, .inl rfl⟩
  · rcases Protocol.responses_cases hresp with ⟨r, m', rfl, heq⟩ | ⟨r, V, A, m', rfl, heq⟩ |
      ⟨r, V, A, stage, j, rfl, hj, heq⟩
    · obtain ⟨rfl, rfl⟩ := Prod.mk.inj heq
      obtain ⟨event, he⟩ : ∃ event, responseToCache m = some event := by
        rcases hinv.txn.2.2.2 with htype | ⟨-, htype | htype⟩
        · exact ⟨.Data, by rw [responseToCache, htype]⟩
        · exact ⟨.Exclusive_Data_Clean, by rw [responseToCache, htype]⟩
        · exact ⟨.Exclusive_Data_Dirty, by rw [responseToCache, htype]⟩
      obtain ⟨hdata, hst, htrigger, hcurrent, t', w', hinv'⟩ := hinv.fill id he
      refine ⟨event, _, _, t', w', he, hshows.fill hdata hst htrigger, hinv', _, _, rfl,
        fun d hd => ?_, .inr ⟨rfl, rfl⟩⟩
      rw [List.mem_singleton.mp hd]
      exact hcurrent
    · obtain ⟨rfl, rfl⟩ := Prod.mk.inj heq
      obtain ⟨hst, hinv'⟩ := hinv.data id
      rcases hinv.txn.2.2.2.2.2 with htype | htype
      · exact ⟨_, _, _, _, w, by rw [responseToCache, htype], hshows.data (.inl rfl) hst, hinv',
          [], [], rfl, hnone, .inl rfl⟩
      · exact ⟨_, _, _, _, w, by rw [responseToCache, htype], hshows.data (.inr rfl) hst, hinv',
          [], [], rfl, hnone, .inl rfl⟩
    · obtain ⟨rfl, rfl⟩ := Prod.mk.inj heq
      obtain ⟨hst, hinv'⟩ := hinv.ack id hj
      exact ⟨_, _, _, _, w, rfl, hshows.ack hst, hinv', [], [], rfl, hnone, .inl rfl⟩

theorem Coherent.response {m : ι × ResponseMsg ι D} (h : s.Coherent) (hm : m ∈ s.responses) :
    (s.response m).Coherent := by
  obtain ⟨hfailed, hreads, view, t, w, hshows, hinv⟩ := id h
  obtain ⟨event, v, effect, t', w', he, hyields, hinv', unblocks, loads, rfl, hloads, -⟩ :=
    response_yields (hshows m.1) hinv hm
  rw [System.response, he]
  exact Coherent.afterCache { s with responses := s.responses.erase m } hfailed hreads hshows rfl
    hyields hloads hinv'

/-! The directory -/

theorem Coherent.request {m : RequestMsg ι D} (h : s.Coherent) (hm : m ∈ s.requests) :
    (s.request m).Coherent := by
  obtain ⟨hfailed, hreads, view, t, w, hshows, hinv⟩ := id h
  obtain ⟨event, x, he, hx, t', w', hinv'⟩ := hinv.request hm
  rw [System.request, show Directory.requestQueue s.directory m = some event from he,
    Option.bind_some, show Directory.doTransition event
      { inMsg := .request m, entry := s.directory } = some x from hx]
  by_cases hpopped : x.popped
  · rw [if_pos hpopped] at hinv'
    simp only [System.afterDirectory, if_pos hpopped]
    exact ⟨hfailed, hreads, view, t', w', hshows, hinv'⟩
  · rw [if_neg hpopped] at hinv'
    simp only [System.afterDirectory, if_neg hpopped]
    exact ⟨hfailed, hreads, view, t', w', hshows, hinv'⟩

theorem Coherent.unblock {m : ResponseMsg ι D} (h : s.Coherent) (hm : m ∈ s.unblocks) :
    (s.unblock m).Coherent := by
  obtain ⟨hfailed, hreads, view, t, w, hshows, hinv⟩ := id h
  obtain ⟨event, x, he, hx, hpopped, -, -, hinv'⟩ := hinv.unblock hm
  rw [System.unblock, he, Option.bind_some, show Directory.doTransition event
      { inMsg := .unblock m, entry := s.directory } = some x from hx]
  simp only [System.afterDirectory, if_pos hpopped]
  exact ⟨hfailed, hreads, view, .idle, w, hshows, hinv'⟩

/-! Runs -/

theorem Coherent.step {s' : System ι D} {e : Event ι D} (h : s.Coherent)
    (he : s.step e = some s') : s'.Coherent := by
  simp only [System.step, h.1, Bool.false_eq_true, if_false] at he
  cases e with
  | demand i type room driver =>
      obtain rfl := Option.some.inj he
      exact h.demand
  | makeRoom i resources =>
      obtain rfl := Option.some.inj he
      exact h.makeRoom
  | access i type driver =>
      obtain ⟨ht, he⟩ := Option.ite_none_right_eq_some.mp he
      obtain rfl := Option.some.inj he
      exact h.access ht
  | trigger i driver =>
      obtain ⟨ht, he⟩ := Option.ite_none_right_eq_some.mp he
      obtain rfl := Option.some.inj he
      exact h.trigger ht
  | forward m =>
      obtain ⟨hm, he⟩ := Option.ite_none_right_eq_some.mp he
      obtain rfl := Option.some.inj he
      exact h.forward hm
  | response m =>
      obtain ⟨hm, he⟩ := Option.ite_none_right_eq_some.mp he
      obtain rfl := Option.some.inj he
      exact h.response hm
  | request m =>
      obtain ⟨hm, he⟩ := Option.ite_none_right_eq_some.mp he
      obtain rfl := Option.some.inj he
      exact h.request hm
  | unblock m =>
      obtain ⟨hm, he⟩ := Option.ite_none_right_eq_some.mp he
      obtain rfl := Option.some.inj he
      exact h.unblock hm

theorem reachable_coherent {memory : D} (h : EventSystem.Reachable step (init memory) s) :
    s.Coherent :=
  EventSystem.reachable_invariant (init_coherent memory) (fun _ _ _ h he => Coherent.step h he) h

/-! Coherence -/

/-- The cache may store: it is exclusive, or the acks of its upgrade are complete. -/
def Exclusive (c : L1Cache D) : Prop :=
  ∃ state, c.getState = some state ∧
    (state.isExclusive ∨ state = .OM ∧ 0 < c.triggerQueue)

/-- The processor could load the copy, through the controller or on the fast path. -/
def Readable (c : L1Cache D) : Prop :=
  (∃ state, c.getState = some state ∧ state.isReadable) ∨ ∃ type, c.tryCacheAccess type

theorem readable_or_triggered {state : State} {n : Nat} :
    (state.isExclusive ∨ state = .OM ∧ 0 < n) → state.isReadable := by
  rintro (hst | ⟨rfl, -⟩)
  · cases state <;> first | rfl | exact absurd hst Bool.false_ne_true
  · rfl

omit [DecidableEq D] [Inhabited D] in
theorem Shows.readable {c : L1Cache D} (h : Shows c v) (hc : Readable c) : v.state.isReadable := by
  rcases hc with ⟨state, hst, hreadable⟩ | ⟨type, ht⟩
  · rw [h.getState] at hst
    rwa [Option.some.inj hst]
  · cases he : if type = .IFETCH then c.l1I else c.l1D with
    | none =>
        rw [tryCacheAccess, he] at ht
        exact absurd ht Bool.false_ne_true
    | some entry => exact (h.access_load ht he).1

omit [DecidableEq D] in
/-- A cache that may store is alone. -/
theorem alone {p : Protocol ι D} (h : Protocol.Inv t w p)
    (hx : (p.view i).state.isExclusive ∨ (p.view i).state = .OM ∧ 0 < (p.view i).trigger) :
    t.holds p.directory i ∧ ∀ j, ¬ t.shares p.directory j := by
  rcases hx with hx | ⟨hst, htrigger⟩
  · obtain ⟨howner, hII⟩ := Protocol.exclusive_owner hx
    have hi := (h.rights i).holds howner hII
    exact ⟨hi, ((h.rights i).1 hi).alone hx⟩
  · obtain ⟨-, -, -, rfl⟩ := h.triggered (by rw [hst]; rfl) htrigger
    exact ⟨rfl, fun j => Finset.notMem_empty j⟩

/-- In every run, a cache that may store is the only one with a copy, every load is of the
value last stored, and no controller meets an event or an assertion it cannot take. -/
theorem directory_coherent (memory : D) {s : System ι D}
    (h : EventSystem.Reachable step (init memory) s) :
    (∀ i j, Exclusive (s.cache i) → j ≠ i →
      ¬ Exclusive (s.cache j) ∧ ¬ Readable (s.cache j)) ∧
    (∀ x ∈ s.reads, x.1 = x.2) ∧ s.failed = false := by
  obtain ⟨hfailed, hreads, view, t, w, hshows, hinv⟩ := reachable_coherent h
  refine ⟨fun i j hi hji => ?_, hreads, hfailed⟩
  have hexclusive : ∀ k, Exclusive (s.cache k) →
      (view k).state.isExclusive ∨ (view k).state = .OM ∧ 0 < (view k).trigger := by
    rintro k ⟨state, hst, hx⟩
    rw [(hshows k).getState] at hst
    rwa [(hshows k).triggerQueue, ← Option.some.inj hst] at hx
  obtain ⟨hhold, hnone⟩ := alone hinv (hexclusive i hi)
  have hblind : Protocol.isBlind (view j).state := by
    have hnot : ¬ t.holds (s.shown view).directory j := fun hj =>
      hji (Protocol.holds_unique hinv.sound hj hhold)
    rcases (hinv.rights j).2 hnot with hblind | ⟨-, hshares, -⟩
    · exact hblind
    · exact absurd hshares (hnone j)
  have hread := Protocol.not_readable hblind
  exact ⟨fun hj => hread (readable_or_triggered (hexclusive j hj)),
    fun hj => hread (Shows.readable (hshows j) hj)⟩

/-- A block that one cache has written goes to another one that loads it. -/
def handOver : List (Event Bool Nat) :=
  let room : L1Cache.Room :=
    { l1Avail := true, l2Avail := true, resources := true, otherNeeds := false }
  [.demand true .ST room (· + 1), .request (requestMsg .GETX true 0),
    .response (true,
      { type := .DATA_EXCLUSIVE_CLEAN, sender := .directory, dataBlk := 7, acks := 0 }),
    .trigger true (· + 1), .unblock (unblockMsg .UNBLOCK_EXCLUSIVE true),
    .demand false .LD room id, .request (requestMsg .GETS false 0),
    .forward (true, { type := .GETS, requestor := false, dataBlk := 0, acks := 0 }),
    .response (false, dataMsg .DATA_EXCLUSIVE_DIRTY true 8 0)]

theorem handOver_coherent : ∃ s : System Bool Nat,
    EventSystem.run step (init 7) handOver = some s ∧ s.reads = [(8, 8)] ∧
    (∀ i j, Exclusive (s.cache i) → j ≠ i →
      ¬ Exclusive (s.cache j) ∧ ¬ Readable (s.cache j)) ∧
    (∀ x ∈ s.reads, x.1 = x.2) ∧ s.failed = false :=
  ⟨_, rfl, rfl, directory_coherent 7 ⟨handOver, rfl⟩⟩

end System
end FeS2.Ruby
