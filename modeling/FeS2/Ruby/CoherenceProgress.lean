import FeS2.Library.Settling
import FeS2.Ruby.Coherence

/-!
The directory protocol never gets stuck: every delivery but that of a request lowers
a count, and when none is left the directory takes the next request. So all that is
under way comes to an end, and then the directory knows exactly who has the block.
-/

namespace FeS2.Ruby
open L1Cache
namespace System
variable {ι D : Type} [DecidableEq ι] [DecidableEq D] [Inhabited D] {s s' : System ι D}
  {view : ι → View D} {t : Protocol.Txn ι D} {w : ι → Protocol.Role ι D} {i : ι} {v : View D}
  {driver : D → D}

def Triggered (s : System ι D) : Prop := ∃ i, 0 < (s.cache i).triggerQueue

/-- A forwarded request causes at most a response or a trigger, these at most an unblock. -/
def messages (s : System ι D) : Nat :=
  4 * s.forwards.card + 3 * s.responses.card + s.unblocks.card

open Classical in
noncomputable def weight (s : System ι D) : Nat :=
  s.messages + if s.Triggered then 2 else 0

omit [DecidableEq ι] [DecidableEq D] [Inhabited D] in
theorem weight_lt {k : Nat} (h : s'.messages + k < s.messages)
    (htriggered : s'.Triggered → s.Triggered ∨ 2 ≤ k) : s'.weight < s.weight := by
  unfold weight
  by_cases hs' : s'.Triggered
  · rcases htriggered hs' with hs | hk
    · rw [if_pos hs', if_pos hs]
      omega
    · rw [if_pos hs']
      omega
  · rw [if_neg hs']
    omega

omit [DecidableEq D] [Inhabited D] in
/-- The system after a transition of a cache. -/
theorem afterCache_eq (pop : System ι D → System ι D) (s' : System ι D)
    {x : Option (L1Cache.Context ι D)} {effect : Effect ι D}
    (hpop : (if effect.popped then pop s else s) = s') (hx : Yields x driver v effect) :
    ∃ cache, Shows cache v ∧ s.afterCache i pop x =
      { s' with
        cache := Function.update s'.cache i cache
        requests := (effect.requests : Multiset _) + s'.requests
        responses := (effect.responses : Multiset _) + s'.responses
        unblocks := (effect.unblocks : Multiset _) + s'.unblocks
        current := driver^[effect.stores] s'.current
        reads := s'.reads ++ effect.loads.map fun value => (value, s'.current) } := by
  obtain ⟨cache, inMsg, id, hcache, rfl⟩ := hx
  subst hpop
  exact ⟨cache, hcache, rfl⟩

omit [DecidableEq D] [Inhabited D] in
theorem triggered_update {cache : L1Cache D} (hcache : Shows cache v)
    (hs : s'.cache = Function.update s.cache i cache) (h : s'.Triggered) :
    s.Triggered ∨ 0 < v.trigger := by
  obtain ⟨j, hj⟩ := h
  rw [hs] at hj
  by_cases hji : j = i
  · subst hji
    rw [Function.update_self, hcache.triggerQueue] at hj
    exact .inr hj
  · rw [Function.update_of_ne hji] at hj
    exact .inl ⟨j, hj⟩

/-! Each delivery lowers the weight -/

theorem Coherent.forward_lt {m : ι × RequestMsg ι D} (h : s.Coherent) (hm : m ∈ s.forwards) :
    (s.forward m).weight < s.weight ∧ (s.forward m).requests = s.requests := by
  obtain ⟨hfailed, hreads, view, t, w, hshows, hinv⟩ := id h
  obtain ⟨event, v, effect, t', w', he, hyields, hinv', responses, rfl, hresponses⟩ :=
    forward_yields (hshows m.1) hinv hm
  obtain ⟨cache, hcache, hs'⟩ := afterCache_eq (s := s) (i := m.1)
    (fun s => { s with forwards := s.forwards.erase m })
    { s with forwards := s.forwards.erase m } rfl hyields
  have hcard := Multiset.card_erase_add_one hm
  rw [System.forward, he, Option.bind_some, hs']
  refine ⟨?_, by simp⟩
  rcases hresponses with rfl | ⟨hone, htrigger⟩
  · refine weight_lt (k := 3) ?_ fun _ => .inr (by omega)
    simp only [messages, Multiset.coe_nil, Multiset.zero_add]
    omega
  · refine weight_lt (k := 0) ?_ fun ht => .inl ?_
    · simp only [messages, Multiset.coe_nil, Multiset.zero_add, Multiset.card_add,
        Multiset.coe_card, hone]
      omega
    · rcases triggered_update hcache rfl ht with ht | ht
      · exact ht
      · rw [htrigger] at ht
        exact ⟨m.1, (hshows m.1).triggerQueue ▸ ht⟩

theorem Coherent.response_lt {m : ι × ResponseMsg ι D} (h : s.Coherent) (hm : m ∈ s.responses) :
    (s.response m).weight < s.weight ∧ (s.response m).requests = s.requests := by
  obtain ⟨hfailed, hreads, view, t, w, hshows, hinv⟩ := id h
  obtain ⟨event, v, effect, t', w', he, hyields, hinv', unblocks, loads, rfl, -, hunblocks⟩ :=
    response_yields (hshows m.1) hinv hm
  obtain ⟨cache, hcache, hs'⟩ := afterCache_eq (s := s) (i := m.1)
    (fun s => { s with responses := s.responses.erase m })
    { s with responses := s.responses.erase m } rfl hyields
  have hcard := Multiset.card_erase_add_one hm
  rw [System.response, he, Option.bind_some, hs']
  refine ⟨?_, by simp⟩
  rcases hunblocks with rfl | ⟨hone, htrigger⟩
  · refine weight_lt (k := 2) ?_ fun _ => .inr (Nat.le_refl 2)
    simp only [messages, Multiset.coe_nil, Multiset.zero_add]
    omega
  · refine weight_lt (k := 1) ?_ fun ht => .inl ?_
    · simp only [messages, Multiset.coe_nil, Multiset.zero_add, Multiset.card_add,
        Multiset.coe_card, hone]
      omega
    · rcases triggered_update hcache rfl ht with ht | ht
      · exact ht
      · omega

theorem Coherent.trigger_lt (h : s.Coherent) (ht : 0 < (s.cache i).triggerQueue) :
    (s.trigger i driver).weight < s.weight ∧ (s.trigger i driver).requests = s.requests := by
  obtain ⟨hfailed, hreads, view, t, w, hshows, hinv⟩ := id h
  have hwriter : ∀ j, 0 < (s.cache j).triggerQueue →
      (view j).state = .OM ∧ (view j).trigger = 1 ∧ t = .write j ∅ ∅ .acks := by
    intro j hj
    rw [(hshows j).triggerQueue] at hj
    obtain ⟨hst, hone, -, heq⟩ := hinv.triggered (Shows.isTransient (hshows j) hj) hj
    exact ⟨hst, hone, heq⟩
  obtain ⟨hst, hone, heq⟩ := hwriter i ht
  obtain ⟨cache, hcache, hs'⟩ := afterCache_eq (s := s) (i := i) id s rfl
    ((hshows i).all_acks (i := i) hst hone)
  have hnot : ¬ (s.trigger i driver).Triggered := by
    rintro ⟨j, hj⟩
    rw [System.trigger, hs'] at hj
    dsimp only at hj
    by_cases hji : j = i
    · subst hji
      rw [Function.update_self, hcache.triggerQueue] at hj
      exact absurd hj (Nat.lt_irrefl 0)
    · rw [Function.update_of_ne hji] at hj
      obtain ⟨-, -, heq'⟩ := hwriter j hj
      rw [heq] at heq'
      injection heq' with hij
      exact hji hij.symm
  have hmessages : (s.trigger i driver).messages = s.messages + 1 := by
    rw [System.trigger, hs']
    simp only [messages, Multiset.coe_nil, Multiset.zero_add, Multiset.card_add,
      Multiset.coe_card, List.length_singleton]
    omega
  refine ⟨?_, ?_⟩
  · rw [weight, weight, if_neg hnot, if_pos ⟨i, ht⟩, hmessages]
    omega
  · rw [System.trigger, hs']
    exact Multiset.zero_add _

theorem Coherent.unblock_lt {m : ResponseMsg ι D} (h : s.Coherent) (hm : m ∈ s.unblocks) :
    (s.unblock m).weight < s.weight ∧ (s.unblock m).requests = s.requests := by
  obtain ⟨hfailed, hreads, view, t, w, hshows, hinv⟩ := id h
  obtain ⟨event, x, he, hx, hpopped, hforwards, hresponses, hinv'⟩ := hinv.unblock hm
  have hcard := Multiset.card_erase_add_one hm
  rw [System.unblock, he, Option.bind_some, show Directory.doTransition event
      { inMsg := .unblock m, entry := s.directory } = some x from hx]
  simp only [System.afterDirectory, if_pos hpopped, hforwards, hresponses]
  refine ⟨weight_lt (k := 0) ?_ .inl, trivial⟩
  simp only [messages, Multiset.zero_add]
  omega

/-! Progress -/

/-- A message on the networks between the parties, or a trigger, but not a request. -/
def Event.isDelivery : Event ι D → Bool
  | .trigger _ _ | .forward _ | .response _ | .unblock _ => true
  | _ => false

theorem delivery_lt {e : Event ι D} (h : s.Coherent) (he : e.isDelivery)
    (hstep : s.step e = some s') : s'.weight < s.weight ∧ s'.requests = s.requests := by
  simp only [System.step, h.1, Bool.false_eq_true, if_false] at hstep
  cases e with
  | trigger i driver =>
      obtain ⟨ht, hs'⟩ := Option.ite_none_right_eq_some.mp hstep
      obtain rfl := Option.some.inj hs'
      exact h.trigger_lt ht
  | forward m =>
      obtain ⟨hm, hs'⟩ := Option.ite_none_right_eq_some.mp hstep
      obtain rfl := Option.some.inj hs'
      exact h.forward_lt hm
  | response m =>
      obtain ⟨hm, hs'⟩ := Option.ite_none_right_eq_some.mp hstep
      obtain rfl := Option.some.inj hs'
      exact h.response_lt hm
  | unblock m =>
      obtain ⟨hm, hs'⟩ := Option.ite_none_right_eq_some.mp hstep
      obtain rfl := Option.some.inj hs'
      exact h.unblock_lt hm
  | _ => exact absurd he Bool.false_ne_true

omit [DecidableEq ι] [DecidableEq D] [Inhabited D] in
theorem weight_le (s : System ι D) : s.weight ≤ s.messages + 2 := by
  unfold weight
  split <;> omega

omit [DecidableEq D] in
/-- When nothing else is on the way, the directory is at rest. -/
theorem idle_of_quiet (hshows : ∀ i, Shows (s.cache i) (view i))
    (hinv : Protocol.Inv t w (s.shown view)) (hforwards : s.forwards = 0)
    (hresponses : s.responses = 0) (hunblocks : s.unblocks = 0) (htriggers : ¬ s.Triggered) :
    t = .idle := by
  have hforward : ∀ x, ¬ t.forwards s.directory x := fun x hx =>
    Multiset.notMem_zero x (hforwards ▸ (hinv.forwards.2 x).mpr hx)
  have hresponse : ∀ x, ¬ t.responses x := fun x hx =>
    Multiset.notMem_zero x (hresponses ▸ (hinv.responses.2 x).mpr (.inr hx))
  have hunblock : ∀ x, ¬ t.unblocks x := fun x hx =>
    Multiset.notMem_zero x (hunblocks ▸ (hinv.unblocks.2 x).mpr hx)
  cases t with
  | idle => rfl
  | read r stage =>
      cases stage with
      | forwarded =>
          obtain ⟨q, hq⟩ := hinv.txn.2.2
          exact absurd ⟨q, hq, rfl⟩ (hforward _)
      | data m => exact absurd rfl (hresponse (r, m))
      | done exclusive => exact absurd rfl (hunblock _)
  | write r V A stage =>
      cases stage with
      | forwarded =>
          obtain ⟨q, hq⟩ := hinv.txn.2.2.2
          exact absurd (.inl ⟨q, hq, rfl⟩) (hforward _)
      | data m => exact absurd (.inl rfl) (hresponse (r, m))
      | acks =>
          have hV : V = ∅ := Finset.eq_empty_of_forall_notMem fun j hj =>
            hforward _ ⟨j, hj, rfl⟩
          have hA : A = ∅ := Finset.eq_empty_of_forall_notMem fun j hj =>
            hresponse _ ⟨j, hj, rfl⟩
          have hnode := hinv.node r
          rw [hinv.writer r rfl] at hnode
          have htrigger := hnode.2.2.1
          rw [Protocol.Txn.triggers, if_pos ⟨hV, hA⟩] at htrigger
          refine absurd ⟨r, ?_⟩ htriggers
          rw [(hshows r).triggerQueue]
          exact htrigger ▸ Nat.one_pos
      | done => exact absurd rfl (hunblock _)

/-- Nothing is under way. -/
def Quiet (s : System ι D) : Prop :=
  s.requests = 0 ∧ s.forwards = 0 ∧ s.responses = 0 ∧ s.unblocks = 0 ∧ ¬ s.Triggered

/-- A message is taken off a network, or a trigger off its queue. -/
def Event.isNetwork : Event ι D → Bool
  | .request _ => true
  | e => e.isDelivery

theorem take_request {m : RequestMsg ι D} (hinv : Protocol.Inv .idle w (s.shown view))
    (hm : m ∈ s.requests) : (s.request m).requests = s.requests.erase m := by
  obtain ⟨event, x, w', t', he, hx, hpopped, hinv'⟩ := hinv.take hm
  rw [System.request, show Directory.requestQueue s.directory m = some event from he,
    Option.bind_some, show Directory.doTransition event
      { inMsg := .request m, entry := s.directory } = some x from hx]
  simp only [System.afterDirectory, if_pos hpopped]

/-- The count of the requests first, then the weight. -/
def Nearer (s' s : System ι D) : Prop :=
  Prod.Lex (· < ·) (· < ·) (s'.requests.card, s'.weight) (s.requests.card, s.weight)

omit [DecidableEq ι] [DecidableEq D] [Inhabited D] in
theorem nearer_wf : WellFounded (Nearer : System ι D → System ι D → Prop) :=
  InvImage.wf (fun s : System ι D => (s.requests.card, s.weight))
    (WellFounded.prod_lex Nat.lt_wfRel.wf Nat.lt_wfRel.wf)

theorem progress (h : s.Coherent) : s.Quiet ∨ ∃ (e : Event ι D) (s' : System ι D),
    e.isNetwork ∧ s.step e = some s' ∧ s'.Coherent ∧ Nearer s' s := by
  have hdelivery : ∀ {e : Event ι D} {s' : System ι D}, e.isDelivery → s.step e = some s' →
      ∃ (e : Event ι D) (s' : System ι D),
        e.isNetwork ∧ s.step e = some s' ∧ s'.Coherent ∧ Nearer s' s := by
    intro e s' he hstep
    obtain ⟨hlt, hrequests⟩ := delivery_lt h he hstep
    refine ⟨e, s', ?_, hstep, h.step hstep, ?_⟩
    · cases e <;> first | rfl | exact he
    · rw [Nearer, hrequests]
      exact .right _ hlt
  by_cases hforwards : s.forwards = 0
  swap
  · obtain ⟨m, hm⟩ := Multiset.exists_mem_of_ne_zero hforwards
    have hs' : s.step (.forward m) = some (s.forward m) := by simp [System.step, h.1, hm]
    exact .inr (hdelivery rfl hs')
  by_cases hresponses : s.responses = 0
  swap
  · obtain ⟨m, hm⟩ := Multiset.exists_mem_of_ne_zero hresponses
    have hs' : s.step (.response m) = some (s.response m) := by simp [System.step, h.1, hm]
    exact .inr (hdelivery rfl hs')
  by_cases hunblocks : s.unblocks = 0
  swap
  · obtain ⟨m, hm⟩ := Multiset.exists_mem_of_ne_zero hunblocks
    have hs' : s.step (.unblock m) = some (s.unblock m) := by simp [System.step, h.1, hm]
    exact .inr (hdelivery rfl hs')
  by_cases htriggers : s.Triggered
  · obtain ⟨i, ht⟩ := htriggers
    have hs' : s.step (.trigger i id) = some (s.trigger i id) := by simp [System.step, h.1, ht]
    exact .inr (hdelivery rfl hs')
  by_cases hrequests : s.requests = 0
  · exact .inl ⟨hrequests, hforwards, hresponses, hunblocks, htriggers⟩
  · obtain ⟨m, hm⟩ := Multiset.exists_mem_of_ne_zero hrequests
    obtain ⟨hfailed, hreads, view, t, w, hshows, hinv⟩ := id h
    obtain rfl := idle_of_quiet hshows hinv hforwards hresponses hunblocks htriggers
    have hs' : s.step (.request m) = some (s.request m) := by simp [System.step, h.1, hm]
    refine .inr ⟨.request m, _, rfl, hs', h.step hs', .left _ _ ?_⟩
    rw [take_request hinv hm]
    exact Multiset.card_erase_lt_of_mem hm

/-- From every reachable state, whatever is under way can be brought to an end by deliveries
alone. -/
theorem directory_drains (memory : D) {s : System ι D}
    (h : EventSystem.Reachable step (init memory) s) :
    ∃ es t, (∀ e ∈ es, Event.isNetwork e) ∧ EventSystem.run step s es = some t ∧ t.Quiet := by
  obtain ⟨es, t, hes, hrun, -, hquiet⟩ :=
    EventSystem.settles nearer_wf (fun s hs => progress hs) (reachable_coherent h)
  exact ⟨es, t, hes, hrun, hquiet⟩

theorem handOver_drains : ∃ s : System Bool Nat,
    EventSystem.run step (init 7) handOver = some s ∧ s.unblocks.card = 1 ∧
    ∃ es t, (∀ e ∈ es, Event.isNetwork e) ∧ EventSystem.run step s es = some t ∧ t.Quiet :=
  ⟨_, rfl, rfl, directory_drains 7 ⟨handOver, rfl⟩⟩

/-- However the messages are ordered, only so many can be delivered before the directory takes
another request. -/
theorem deliveries_end (memory : D) {s t : System ι D} {es : List (Event ι D)}
    (h : EventSystem.Reachable step (init memory) s) (hes : ∀ e ∈ es, Event.isDelivery e)
    (hrun : EventSystem.run step s es = some t) :
    es.length ≤ 4 * s.forwards.card + 3 * s.responses.card + s.unblocks.card + 2 := by
  have hlowers : ∀ (s : System ι D) (e : Event ι D) (s' : System ι D), s.Coherent →
      e.isDelivery → s.step e = some s' → s'.Coherent ∧ s'.weight < s.weight :=
    fun s e s' hs he hstep => ⟨hs.step hstep, (delivery_lt hs he hstep).1⟩
  exact (EventSystem.run_length_le hlowers (reachable_coherent h) hes hrun).trans (weight_le s)

def told : List (Event Bool Nat) := [.unblock (unblockMsg .UNBLOCK_EXCLUSIVE false)]

theorem handOver_ends : ∃ s t : System Bool Nat,
    EventSystem.run step (init 7) handOver = some s ∧ EventSystem.run step s told = some t ∧
    told.length ≤ 4 * s.forwards.card + 3 * s.responses.card + s.unblocks.card + 2 :=
  ⟨_, _, rfl, rfl, deliveries_end 7 ⟨handOver, rfl⟩ (by simp [told, Event.isDelivery]) rfl⟩

/-! What the directory knows -/

omit [DecidableEq D] [Inhabited D] in
theorem Shows.entry_data {c : L1Cache D} {entry : Entry D} (h : Shows c v)
    (he : c.getCacheEntry = some entry) : entry.dataBlk = v.data := by
  cases h with
  | absent d => cases he
  | stable loc d h => cases loc <;> cases he <;> rfl
  | transient instr d d' p n h => cases instr <;> cases he <;> rfl
  | writeback d => cases he

/-- Nothing is under way: the owner in the directory is the cache that owns the block, every
sharer is known, and the block as last stored is at the owner, or else in memory. -/
structure Settled (s : System ι D) : Prop where
  rests : ∀ i, ∃ state, (s.cache i).getState = some state ∧ (state = .NP ∨ state.isStable)
  owner : ∀ i, i ∈ s.directory.owner ↔
    ∃ state, (s.cache i).getState = some state ∧ state.isOwner
  alone : ∀ i j, i ∈ s.directory.owner → j ∈ s.directory.owner → i = j
  sharers : ∀ i, (s.cache i).getState = some .S → i ∈ s.directory.sharers
  copies : ∀ i entry state, (s.cache i).getCacheEntry = some entry →
    (s.cache i).getState = some state → state.isReadable → entry.dataBlk = s.current
  memory : s.directory.owner = ∅ → s.directory.dataBlk = s.current

theorem quiet_settled (memory : D) {s : System ι D}
    (h : EventSystem.Reachable step (init memory) s) (hquiet : s.Quiet) : s.Settled := by
  obtain ⟨hfailed, hreads, view, t, w, hshows, hinv⟩ := reachable_coherent h
  obtain ⟨hrequests, hforwards, hresponses, hunblocks, htriggers⟩ := hquiet
  obtain rfl := idle_of_quiet hshows hinv hforwards hresponses hunblocks htriggers
  have hrests : ∀ i, (view i).state = .NP ∨ (view i).state.isStable := by
    intro i
    have hnode := hinv.node i
    cases hw : w i with
    | none =>
        rw [hw] at hnode
        exact hnode
    | request m =>
        have hm : m ∈ s.requests := (hinv.requests.2 m).mpr ⟨i, hw⟩
        exact absurd hm (hrequests ▸ Multiset.notMem_zero m)
    | reader =>
        rw [hw] at hnode
        exact hnode.2.2.elim
    | writer =>
        rw [hw] at hnode
        exact hnode.2.2.2.elim
    | released =>
        have hm : (i, Protocol.wbAck i) ∈ s.responses :=
          (hinv.responses.2 _).mpr (.inl ⟨i, hw, rfl⟩)
        exact absurd hm (hresponses ▸ Multiset.notMem_zero _)
  have hII : ∀ i, (view i).state ≠ .II := fun i => (Protocol.rests_not_waiting (hrests i)).2.2
  refine ⟨fun i => ⟨_, (hshows i).getState, hrests i⟩, fun i => ?_, fun i j hi hj => ?_,
    fun i hi => ?_, fun i entry state he hst hread => ?_, hinv.memory⟩
  · constructor
    · exact fun hi => ⟨_, (hshows i).getState, ((hinv.rights i).1 hi).owner⟩
    · rintro ⟨state, hst, howner⟩
      rw [(hshows i).getState] at hst
      obtain rfl := Option.some.inj hst
      exact (hinv.rights i).holds howner (hII i)
  · exact Protocol.holds_unique (t := .idle) hinv.sound hi hj
  · rw [(hshows i).getState] at hi
    have hst : ((s.shown view).view i).state = .S := Option.some.inj hi
    have hnot := (hinv.rights i).not_holds (by rw [hst]; rfl)
    rcases (hinv.rights i).2 hnot with hblind | ⟨-, hshares, -⟩
    · rw [hst] at hblind
      cases hblind
    · exact hshares
  · rw [(hshows i).getState] at hst
    obtain rfl := Option.some.inj hst
    exact (Shows.entry_data (hshows i) he).trans ((hinv.rights i).readable hread)

theorem handOver_settled : ∃ s : System Bool Nat,
    EventSystem.run step (init 7) (handOver ++ told) = some s ∧ s.directory.owner = {false} ∧
    s.Settled := by
  refine ⟨_, rfl, rfl, quiet_settled 7 ⟨handOver ++ told, rfl⟩ ⟨rfl, rfl, rfl, rfl, ?_⟩⟩
  rintro ⟨i, hi⟩
  cases i <;> exact absurd hi (Nat.lt_irrefl 0)

end System
end FeS2.Ruby
