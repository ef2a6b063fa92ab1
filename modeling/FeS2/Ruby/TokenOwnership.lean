import FeS2.Ruby.TokenExclusion
import FeS2.Ruby.TokenHome

/-!
The owner token in runs of the token protocol. As long as no owner is left with one token
when it has to give one, or to keep one, the block has one owner, the assertions on tokens
hold, and every event has a transition. With one token left, the owner token is lost.
-/

namespace FeS2.Ruby
namespace Token

namespace L1Cache

/-- Where the table has no row. -/
def blocked (state : State) (event : Event) : Bool :=
  (state = .NP && (event = .L2_Replacement || event = .L1_to_L2 || event = .L2_to_L1D ||
    event = .L2_to_L1I)) ||
  (event = .Request_Timeout && !state.requesting) ||
  (event = .Use_Timeout && state ≠ .M_W && state ≠ .MM_W) ||
  (event.response && state.holdsAll) || (event.owner && state.owner) ||
  (event.all && !event.owner && !state.owner)

theorem blocked_of_transition {state : State} {event : Event} (h : transition state event = none) :
    blocked state event := by
  have hcells : State.list.all (fun state => Event.list.all fun event =>
      (transition state event).isSome || blocked state event) = true := by decide +kernel
  have hcell := List.all_eq_true.mp (List.all_eq_true.mp hcells state state.mem_list) event
    event.mem_list
  rwa [h, Option.isSome_none, Bool.false_or] at hcell

theorem response_of_all {event : Event} (h : event.all) : event.response := by
  cases event <;> first | rfl | cases h

theorem response_of_owner {event : Event} (h : event.owner) : event.response := by
  cases event <;> first | rfl | cases h

end L1Cache

namespace Directory

theorem blocked_of_transition {state : State} {event : Event} (h : transition state event = none) :
    state ≠ .L ∧ event = .Unlockdown ∨ state = .O ∧ event.owner := by
  revert h
  cases state <;> cases event <;> decide

end Directory

namespace System
variable {ι D : Type} [LinearOrder ι] [DecidableEq D] {cfg : Config} {s s' : System ι D}
  {id : ι} {memory : D} {e : Event ι D}

/-- An owner with one token is asked to share it, or to keep one for a starving reader. -/
def Short (s : System ι D) : Event ι D → Prop
  | .request (.cache id) m =>
      m.type = .GETS ∧ s.Is id .O ∧ (s.cache id).getTokens = 1
  | .persistent p (.cache id) =>
      ∃ arb, s.arb.receive p (.cache id) = some (.ok arb) ∧
        L1Cache.persistentNetwork id (arb.tables (.cache id)) = .Persistent_GETS ∧
        (s.Is id .O ∨ s.Is id .OM) ∧ (s.cache id).getTokens = 1
  | _ => False

variable [Fintype ι]

/-- The holders of the owner token. -/
def owners (s : System ι D) : ℕ :=
  ∑ id, L1Cache.owners (s.cache id) + Directory.owners s.directory + owning s.responses

structure Owned (s : System ι D) : Prop where
  inv : Inv s
  owner : s.owners = 1
  data : ∃ cur,
    (∀ id e, (s.cache id).getCacheEntry = some e → e.cacheState.readable →
      Current s.directory.dataBlk cur e.dataBlk e.dirty) ∧
    (∀ r ∈ s.responses, r.2.Good s.directory.dataBlk cur r.1) ∧
    (s.directory.directoryState = .O → s.directory.dataBlk = cur)
  written : ∀ id e, (s.cache id).getCacheEntry = some e → e.cacheState.written → e.dirty
  tokens : s.directory.directoryState = .O → s.directory.tokens ≥ 1
  timed : ∀ id, L1Cache.Timed (s.cache id) (s.arb.reissueTimer id)

/-- The directory is in L while its table has an entry. -/
def Locked (s : System ι D) : Prop :=
  s.directory.directoryState = .L ↔ (s.arb.tables .directory).isLocked

structure Sound (s : System ι D) : Prop where
  owned : Owned s
  failed : s.failed = none ∧ Locked s ∨ s.failed = some .assertion

omit [DecidableEq D] [Fintype ι] in
/-- The state of a cache is that of its entry, whatever its table says. -/
theorem is_of_getState {table : PersistentTable ι} {state : L1Cache.State}
    (hok : L1Cache.Ok (s.cache id)) (h : (s.cache id).getState id table = .ok state)
    (hread : state.readable) : s.Is id state := by
  obtain ⟨st, hst⟩ : ∃ st, s.Is id st := by
    unfold Is L1Cache.getState
    rw [if_pos hok.exclusive]
    split
    · exact ⟨_, rfl⟩
    · exact ⟨_, rfl⟩
    · split <;> exact ⟨_, rfl⟩
  rcases hok.getState h with ⟨e, he, hstate⟩ | ⟨-, -, rfl | rfl⟩
  · rcases hok.getState hst with ⟨e', he', hst'⟩ | ⟨hnone, -⟩
    · obtain rfl := Option.some.inj (he.symm.trans he')
      rw [← hstate, hst']
      exact hst
    · cases he.symm.trans hnone
  · cases hread
  · cases hread

/-! Triggers -/

omit [Fintype ι] in
theorem CacheTrigger.transient_gets {inMsg event} {pop : System ι D → System ι D}
    (h : CacheTrigger s id e inMsg event pop) (hev : event = .Transient_GETS) :
    ∃ m, e = .request (.cache id) m ∧ m.type = .GETS := by
  cases h with
  | demand | makeRoom =>
      rename_i d _
      rcases d with type | _ | _ | _ | _
      · cases type <;> cases hev
      all_goals cases hev
  | useTimeout | requestTimeout => cases hev
  | persistent =>
      unfold L1Cache.persistentNetwork at hev
      split at hev
      · split at hev
        · cases hev
        · split at hev <;> cases hev
      · cases hev
  | request mem head =>
      refine ⟨_, rfl, ?_⟩
      unfold L1Cache.requestNetwork at head
      subst hev
      split at head
      · cases head
      · split at head
        · cases head
        · assumption
  | response mem head =>
      unfold L1Cache.responseNetwork at head
      subst hev
      split at head <;> split at head <;> cases head

omit [Fintype ι] in
theorem CacheTrigger.persistent_gets {inMsg event} {pop : System ι D → System ι D}
    (h : CacheTrigger s id e inMsg event pop) (hev : event = .Persistent_GETS) :
    ∃ p, e = .persistent p (.cache id) ∧
      L1Cache.persistentNetwork id (s.arb.tables (.cache id)) = .Persistent_GETS := by
  cases h with
  | demand | makeRoom =>
      rename_i d _
      rcases d with type | _ | _ | _ | _
      · cases type <;> cases hev
      all_goals cases hev
  | useTimeout | requestTimeout => cases hev
  | persistent => exact ⟨_, rfl, hev⟩
  | request mem head =>
      unfold L1Cache.requestNetwork at head
      subst hev
      split at head
      · cases head
      · split at head <;> cases head
  | response mem head =>
      unfold L1Cache.responseNetwork at head
      subst hev
      split at head <;> split at head <;> cases head

omit [Fintype ι] in
/-- What the event of a response says of it. -/
theorem CacheTrigger.response_spec {inMsg event} {pop : System ι D → System ι D}
    {m : ResponseMsg ι D} (h : CacheTrigger s id e inMsg event pop) (hm : inMsg = .response m) :
    (.cache id, m) ∈ s.responses ∧ m.type ≠ .ACK_OWNER ∧ m.owner = event.owner ∧
      (event.data → m.type ≠ .ACK) ∧
      (event.all ↔ (s.cache id).getTokens + m.tokens = max_tokens) := by
  subst hm
  cases h with
  | response mem head =>
      refine ⟨mem, ?_⟩
      unfold L1Cache.responseNetwork at head
      unfold ResponseMsg.owner
      split at head
      · next hne =>
          split at head <;> rename_i ht <;> (try cases head) <;>
            rw [ht] <;> refine ⟨by decide, by decide, by decide, ?_⟩ <;>
            exact ⟨fun h => (nomatch h), fun h => absurd h hne⟩
      · next heq =>
          split at head <;> rename_i ht <;> (try cases head) <;>
            rw [ht] <;> refine ⟨by decide, by decide, by decide, ?_⟩ <;>
            exact ⟨fun _ => not_not.mp heq, fun _ => rfl⟩

/-- A cache takes a transition in a step that is not short. -/
theorem Owned.asked (h : Owned s) {arb : PersistentArbitration ι} {inMsg event} (driver prediction)
    {pop : System ι D → System ι D} {state : L1Cache.State} {cur : D}
    (heard : Heard s (.cache id) e arb)
    (trigger : CacheTrigger { s with arb := arb } id e inMsg event pop) (hshort : ¬ Short s e)
    (hstate : (s.cache id).getState id (arb.tables (.cache id)) = .ok state)
    (hentries : ∀ id e, (s.cache id).getCacheEntry = some e → e.cacheState.readable →
      Current s.directory.dataBlk cur e.dataBlk e.dirty)
    (hgood : ∀ r ∈ s.responses, r.2.Good s.directory.dataBlk cur r.1) :
    L1Cache.Asked (context id inMsg driver prediction { s with arb := arb }) state event
      s.directory.dataBlk cur := by
  have hok := h.inv.ok id
  obtain ⟨st, hst, hall, hsome⟩ := h.inv.state id (arb.tables (.cache id))
  obtain rfl := Except.ok.inj (hst.symm.trans hstate)
  have hentry : ∀ e, (s.cache id).getCacheEntry = some e → e.cacheState = st := by
    intro e he
    rcases hok.getState hst with ⟨e', he', rfl⟩ | ⟨hnone, -⟩
    · exact Option.some.inj (he.symm.trans he') ▸ rfl
    · cases he.symm.trans hnone
  refine ⟨fun hgives => ?_, hall, hsome, fun hread e he => ?_, fun hw e he => ?_,
    fun hr => trigger.response_iff.mp hr, fun m hm => ?_, fun hd m hm => ?_, fun hmax => ?_⟩
  · unfold L1Cache.gives at hgives
    rw [Bool.or_eq_true, Bool.and_eq_true, Bool.and_eq_true] at hgives
    have hread : st.readable := by
      rcases hgives with ⟨hO, -⟩ | ⟨hO, -⟩
      · rw [of_decide_eq_true hO]
        rfl
      · rcases Bool.or_eq_true_iff.mp hO with hO | hO <;> rw [of_decide_eq_true hO] <;> rfl
    have his := is_of_getState hok hst hread
    have hpos := hsome hread
    have hne : (s.cache id).getTokens ≠ 1 := by
      intro hone
      refine hshort ?_
      rcases hgives with ⟨hO, hev⟩ | ⟨hO, hev⟩
      · obtain ⟨m, rfl, htype⟩ := trigger.transient_gets (of_decide_eq_true hev)
        exact ⟨htype, of_decide_eq_true hO ▸ his, hone⟩
      · obtain ⟨p, rfl, hnet⟩ := trigger.persistent_gets (of_decide_eq_true hev)
        have hOM : s.Is id .O ∨ s.Is id .OM := by
          rcases Bool.or_eq_true_iff.mp hO with hO | hO
          · exact .inl (of_decide_eq_true hO ▸ his)
          · exact .inr (of_decide_eq_true hO ▸ his)
        cases heard with
        | nothing other => exact absurd rfl (other p)
        | message head => exact ⟨arb, head, hnet, hOM, hone⟩
    change (s.cache id).getTokens ≥ 2
    omega
  · exact hentries id e he (by rw [hentry e he]; exact hread)
  · exact h.written id e he (by rw [hentry e he]; exact hw)
  · obtain ⟨hmem, hne, howner, -, -⟩ := trigger.response_spec hm
    exact ⟨trigger.response_iff.mpr ⟨m, hm⟩, hne, hgood _ hmem, howner⟩
  · exact (trigger.response_spec hm).2.2.2.1 hd
  · obtain ⟨m, rfl⟩ := trigger.response_iff.mp (L1Cache.response_of_all hmax)
    exact (trigger.response_spec rfl).2.2.2.2.mp hmax

omit [LinearOrder ι] [DecidableEq D] in
theorem Owned.tokens_of_owners (h : Owned s) (hid : L1Cache.owners (s.cache id) ≠ 0) :
    (s.cache id).getTokens ≥ 1 := by
  unfold L1Cache.owners at hid
  split at hid
  · next e he =>
      rw [L1Cache.getTokens_some he]
      refine ((h.inv.ok id).fits e he).some ?_
      cases hst : e.cacheState <;> rw [hst] at hid <;> first | rfl | exact absurd rfl hid
  · exact absurd rfl hid

omit [DecidableEq D] in
/-- Someone has the owner token, and another token besides. -/
theorem Owned.tokens_elsewhere (h : Owned s) (id : ι)
    {carried rest : Multiset (NodeID ι × ResponseMsg ι D)}
    (hid : L1Cache.owners (s.cache id) = 0) (hrest : s.responses = carried + rest)
    (hc : owning carried = 0) :
    (s.cache id).getTokens + flying carried < max_tokens := by
  have htotal := h.inv.total
  have howner := h.owner
  unfold owners at howner
  rw [hrest, owning_add, hc] at howner
  rw [hrest, flying_add] at htotal
  have hcache := Tally.le_sum L1Cache.getTokens s.cache id
  by_cases hflying : owning rest = 0
  · by_cases hdir : Directory.owners s.directory = 0
    · obtain ⟨id', -, hid'⟩ := Finset.exists_ne_zero_of_sum_ne_zero
        (show ∑ id, L1Cache.owners (s.cache id) ≠ 0 by omega)
      have hne : id ≠ id' := fun heq => hid' (heq ▸ hid)
      have hpos := h.tokens_of_owners hid'
      have hboth := Tally.add_le_sum L1Cache.getTokens s.cache hne
      omega
    · have hO : s.directory.directoryState = .O := by
        unfold Directory.owners at hdir
        cases hst : s.directory.directoryState with
        | O => rfl
        | NO | L => rw [hst] at hdir; exact absurd rfl hdir
      have := h.tokens hO
      omega
  · obtain ⟨r, hr, -⟩ := Tally.exists_of_weight hflying
    obtain ⟨cur, -, hgood, -⟩ := h.data
    have hpos := (hgood r (by rw [hrest]; exact Multiset.mem_add.mpr (.inr hr))).tokens
    have hle : r.2.tokens ≤ flying rest := Tally.le_weight (f := fun r => r.2.tokens) hr
    omega

omit [Fintype ι] in
/-- What triggers the events that the table may have no row for. -/
theorem CacheTrigger.demand_present {inMsg event} {pop : System ι D → System ι D}
    (h : CacheTrigger s id e inMsg event pop)
    (hev : event = .L2_Replacement ∨ event = .L1_to_L2 ∨ event = .L2_to_L1D ∨ event = .L2_to_L1I) :
    ∃ e, (s.cache id).getCacheEntry = some e := by
  refine Option.isSome_iff_exists.mp (CacheHierarchy.getCacheEntry_isSome.trans ?_)
  cases h with
  | demand head =>
      refine CacheHierarchy.mandatoryQueue_present head fun type hd => ?_
      subst hd
      cases type <;> rcases hev with h | h | h | h <;> cases h
  | makeRoom head => exact CacheHierarchy.makeRoom_present head
  | useTimeout | requestTimeout => rcases hev with h | h | h | h <;> cases h
  | persistent =>
      unfold L1Cache.persistentNetwork at hev
      split at hev
      · split at hev
        · rcases hev with h | h | h | h <;> cases h
        · split at hev <;> rcases hev with h | h | h | h <;> cases h
      · rcases hev with h | h | h | h <;> cases h
  | request mem head =>
      unfold L1Cache.requestNetwork at head
      split at head
      · cases head
      · split at head <;> obtain rfl := Except.ok.inj head <;>
          rcases hev with h | h | h | h <;> cases h
  | response mem head =>
      unfold L1Cache.responseNetwork at head
      split at head <;> split at head <;> (try cases head) <;>
        rcases hev with h | h | h | h <;> cases h

omit [Fintype ι] in
theorem CacheTrigger.timeout {inMsg event} {pop : System ι D → System ι D}
    (h : CacheTrigger s id e inMsg event pop) :
    (event = .Request_Timeout → (∃ prediction, e = .requestTimeout id prediction) ∧
      s.arb.reissueTimer id) ∧
    (event = .Use_Timeout → (s.cache id).useTimer) := by
  cases h with
  | demand | makeRoom =>
      rename_i d _
      rcases d with type | _ | _ | _ | _
      · cases type <;> exact ⟨fun h => (nomatch h), fun h => (nomatch h)⟩
      all_goals exact ⟨fun h => (nomatch h), fun h => (nomatch h)⟩
  | useTimeout set => exact ⟨fun h => (nomatch h), fun _ => set⟩
  | requestTimeout set => exact ⟨fun _ => ⟨⟨_, rfl⟩, set⟩, fun h => (nomatch h)⟩
  | persistent =>
      unfold L1Cache.persistentNetwork
      split
      · split
        · exact ⟨fun h => (nomatch h), fun h => (nomatch h)⟩
        · split <;> exact ⟨fun h => (nomatch h), fun h => (nomatch h)⟩
      · exact ⟨fun h => (nomatch h), fun h => (nomatch h)⟩
  | request mem head =>
      unfold L1Cache.requestNetwork at head
      split at head
      · cases head
      · split at head <;> obtain rfl := Except.ok.inj head <;>
          exact ⟨fun h => (nomatch h), fun h => (nomatch h)⟩
  | response mem head =>
      unfold L1Cache.responseNetwork at head
      split at head <;> split at head <;> (try cases head) <;>
        exact ⟨fun h => (nomatch h), fun h => (nomatch h)⟩

/-- No event meets a state without a row for it. -/
theorem Owned.not_blocked (h : Owned s) {arb : PersistentArbitration ι} {inMsg event}
    {pop : System ι D → System ι D} {state : L1Cache.State} (heard : Heard s (.cache id) e arb)
    (trigger : CacheTrigger { s with arb := arb } id e inMsg event pop)
    (hstate : (s.cache id).getState id (arb.tables (.cache id)) = .ok state) :
    ¬ L1Cache.blocked state event := by
  have hok := h.inv.ok id
  have hentry : ∀ e, (s.cache id).getCacheEntry = some e → e.cacheState = state := by
    intro e he
    rcases hok.getState hstate with ⟨e', he', rfl⟩ | ⟨hnone, -⟩
    · exact Option.some.inj (he.symm.trans he') ▸ rfl
    · cases he.symm.trans hnone
  have howners := L1Cache.owners_of_getState hok hstate
  have htotal := h.inv.total
  have hle := Tally.le_sum L1Cache.getTokens s.cache id
  obtain ⟨cur, -, hgood, -⟩ := h.data
  intro hblocked
  unfold L1Cache.blocked at hblocked
  simp only [Bool.or_eq_true, Bool.and_eq_true, decide_eq_true_eq, Bool.not_eq_true'] at hblocked
  rcases hblocked with ((((⟨hNP, hev⟩ | ⟨hev, hreq⟩) | ⟨⟨hev, hM⟩, hMM⟩) | ⟨hresp, hall⟩) |
    ⟨hev, hown⟩) | ⟨⟨hmax, hev⟩, hown⟩
  · obtain ⟨e, he⟩ := trigger.demand_present (by
      rcases hev with ((h | h) | h) | h
      · exact .inl h
      · exact .inr (.inl h)
      · exact .inr (.inr (.inl h))
      · exact .inr (.inr (.inr h)))
    exact (hok.fits e he).present ((hentry e he).trans hNP)
  · obtain ⟨⟨prediction, rfl⟩, hset⟩ := trigger.timeout.1 hev
    cases heard with
    | nothing =>
        obtain ⟨e, he, hst⟩ := (h.timed id).reissue hset
        rw [hentry e he, hreq] at hst
        cases hst
  · obtain ⟨e, he, hst⟩ := (h.timed id).use (trigger.timeout.2 hev)
    rw [hentry e he] at hst
    exact hst.elim hM hMM
  · obtain ⟨m, rfl⟩ := trigger.response_iff.mp hresp
    obtain ⟨hmem, -⟩ := trigger.response_spec rfl
    have hpos := (hgood _ hmem).tokens
    have hfly : m.tokens ≤ flying s.responses := Tally.le_weight (f := fun r => r.2.tokens) hmem
    obtain ⟨st, hst, hmax, -⟩ := h.inv.state id (arb.tables (.cache id))
    obtain rfl := Except.ok.inj (hst.symm.trans hstate)
    have := hmax hall
    dsimp only at hpos
    omega
  · obtain ⟨m, rfl⟩ := trigger.response_iff.mp (L1Cache.response_of_owner hev)
    obtain ⟨hmem, -, howner, -⟩ := trigger.response_spec rfl
    have hfly : m.owner.toNat ≤ owning s.responses :=
      Tally.le_weight (f := fun r => r.2.owner.toNat) hmem
    have hcache := Tally.le_sum L1Cache.owners s.cache id
    have hone := h.owner
    unfold owners at hone
    rw [howner, hev] at hfly
    rw [howners, hown] at hcache
    simp only [Bool.toNat_true] at hfly hcache
    omega
  · obtain ⟨m, rfl⟩ := trigger.response_iff.mp (L1Cache.response_of_all hmax)
    obtain ⟨hmem, -, howner, -, hsum⟩ := trigger.response_spec rfl
    have hm : m.owner = false := by rw [howner, hev]
    have hlt := h.tokens_elsewhere id (by rw [howners, hown]; rfl)
      ((Multiset.cons_erase hmem).symm.trans (Multiset.singleton_add _ _).symm) (by
        change owning ((.cache id, m) ::ₘ 0) = 0
        rw [owning_cons, hm]
        rfl)
    have hflying : flying ({(.cache id, m)} : Multiset (NodeID ι × ResponseMsg ι D)) = m.tokens := by
      change flying ((.cache id, m) ::ₘ 0) = m.tokens
      rw [flying_cons, flying_zero, Nat.add_zero]
    have := hsum.mp hmax
    dsimp only at this
    omega

/-! Steps -/

omit [LinearOrder ι] [DecidableEq D] [Fintype ι] in
theorem inTokens_eq_flying (x : L1Cache.Context ι D) (id : ι) :
    x.inTokens = flying (x.inMsg.carried id) := by
  unfold L1Cache.Context.inTokens
  cases x.inMsg with
  | response m =>
      change m.tokens = flying ((.cache id, m) ::ₘ 0)
      rw [flying_cons, flying_zero, Nat.add_zero]
  | _ => rfl

omit [DecidableEq D] [Fintype ι] in
theorem Heard.frame {arb : PersistentArbitration ι} {n : NodeID ι} (h : Heard s n e arb) :
    arb.reissueTimer = s.arb.reissueTimer ∧ ∀ n', n' ≠ n → arb.tables n' = s.arb.tables n' := by
  cases h with
  | nothing other => exact ⟨rfl, fun _ _ => rfl⟩
  | message head =>
      obtain ⟨msg, -, hmsg⟩ := Option.map_eq_some_iff.mp head
      split at hmsg
      · cases hmsg
      · obtain rfl := Except.ok.inj hmsg
        cases n with
        | cache q => exact ⟨rfl, fun n' hn => Function.update_of_ne hn _ _⟩
        | directory => exact ⟨rfl, fun n' hn => Function.update_of_ne hn _ _⟩

omit [Fintype ι] in
/-- The owner token of a response, by its event. -/
theorem CacheTrigger.owning_carried {inMsg event} {pop : System ι D → System ι D}
    (h : CacheTrigger s id e inMsg event pop) : owning (inMsg.carried id) = event.owner.toNat := by
  by_cases hr : event.response
  · obtain ⟨m, rfl⟩ := h.response_iff.mp hr
    change owning ((.cache id, m) ::ₘ 0) = _
    rw [owning_cons, owning_zero, (h.response_spec rfl).2.2.1]
    rfl
  · have hown : event.owner = false := by
      by_contra hne
      exact hr (L1Cache.response_of_owner (Bool.eq_true_of_not_eq_false hne))
    rw [hown]
    cases inMsg with
    | response m => exact absurd (h.response_iff.mpr ⟨m, rfl⟩) hr
    | _ => rfl

omit [DecidableEq D] in
/-- With all tokens in one place, nobody else reads the block. -/
theorem Owned.alone (h : Owned s) {carried rest : Multiset (NodeID ι × ResponseMsg ι D)}
    (hrest : s.responses = carried + rest)
    (hall : (s.cache id).getTokens + flying carried = max_tokens) :
    (∀ id' ≠ id, ∀ e, (s.cache id').getCacheEntry = some e → ¬ e.cacheState.readable) ∧
      rest = 0 ∧ s.directory.directoryState ≠ .O := by
  have htotal := h.inv.total
  rw [hrest, flying_add] at htotal
  have hle := Tally.le_sum L1Cache.getTokens s.cache id
  refine ⟨fun id' hne e he hread => ?_, Multiset.eq_zero_of_forall_notMem fun r hr => ?_,
    fun hO => ?_⟩
  · have hpos := ((h.inv.ok id').fits e he).some hread
    have hboth := Tally.add_le_sum L1Cache.getTokens s.cache hne
    rw [L1Cache.getTokens_some he] at hboth
    omega
  · obtain ⟨cur, -, hgood, -⟩ := h.data
    have hpos := (hgood r (by rw [hrest]; exact Multiset.mem_add.mpr (.inr hr))).tokens
    have hfly : r.2.tokens ≤ flying rest := Tally.le_weight (f := fun r => r.2.tokens) hr
    omega
  · have := h.tokens hO
    omega

/-- A cache takes a transition. -/
theorem Owned.cache (h : Owned s) (hinv : Inv s') {inMsg event driver prediction}
    {arb : PersistentArbitration ι} {pop : System ι D → System ι D} {x' : L1Cache.Context ι D}
    {cur : D} (heard : Heard s (.cache id) e arb)
    (trigger : CacheTrigger { s with arb := arb } id e inMsg event pop)
    (hm : CacheMoved { s with arb := arb } s' x' inMsg id)
    (hx : L1Cache.Transited (context id inMsg driver prediction { s with arb := arb }) x' event)
    (hset : L1Cache.Settled (context id inMsg driver prediction { s with arb := arb }) x' event
      s.directory.dataBlk cur)
    (hentries : ∀ id e, (s.cache id).getCacheEntry = some e → e.cacheState.readable →
      Current s.directory.dataBlk cur e.dataBlk e.dirty)
    (hgood : ∀ r ∈ s.responses, r.2.Good s.directory.dataBlk cur r.1)
    (hhome : s.directory.directoryState = .O → s.directory.dataBlk = cur) : Owned s' := by
  obtain ⟨rest, hrest, hrest'⟩ := hm.responses
  obtain ⟨⟨cur', hcur, hsent, hentry⟩, howner, htimed⟩ := hset
  have hdir : s'.directory = s.directory := hm.directory
  have hcache : ∀ id', s'.cache id' = if id' = id then x'.cache else s.cache id' := by
    intro id'
    rw [hm.cache]
    exact Function.update_apply _ _ _ _
  have hcases : cur' = cur ∨
      (∀ id' ≠ id, ∀ e, (s.cache id').getCacheEntry = some e → ¬ e.cacheState.readable) ∧
        rest = 0 ∧ s.directory.directoryState ≠ .O := by
    rcases hcur with rfl | hall
    · exact .inl rfl
    · rw [inTokens_eq_flying _ id] at hall
      exact .inr (h.alone hrest hall)
  refine ⟨hinv, ?_, ⟨cur', fun id' e he hread => ?_, fun r hr => ?_, fun hO => ?_⟩,
    fun id' e he hw => ?_, fun hO => ?_, fun id' => ?_⟩
  · have hup := Tally.sum_update L1Cache.owners s.cache id x'.cache
    have hcarried := trigger.owning_carried
    have hone := h.owner
    have hr : s.responses = inMsg.carried id + rest := hrest
    unfold owners at hone ⊢
    rw [hr, owning_add, hcarried] at hone
    rw [hm.cache, hdir, hrest', owning_add]
    change L1Cache.owners x'.cache + owning x'.responses = L1Cache.owners (s.cache id) + _ at howner
    dsimp only
    omega
  · rw [hcache] at he
    rw [hdir]
    split at he
    · exact (hentry e he).1 hread
    · next hne =>
        rcases hcases with rfl | ⟨halone, -⟩
        · exact hentries id' e he hread
        · exact absurd hread (halone id' hne e he)
  · rw [hrest', Multiset.mem_add] at hr
    rw [hdir]
    rcases hr with hr | hr
    · exact hsent r hr
    · rcases hcases with rfl | ⟨-, rfl, -⟩
      · refine hgood r ?_
        have : s.responses = inMsg.carried id + rest := hrest
        rw [this]
        exact Multiset.mem_add.mpr (.inr hr)
      · exact absurd hr (Multiset.notMem_zero r)
  · rw [hdir] at hO ⊢
    rcases hcases with rfl | ⟨-, -, hne⟩
    · exact hhome hO
    · exact absurd hO hne
  · rw [hcache] at he
    split at he
    · exact (hentry e he).2 hw
    · exact h.written id' e he hw
  · rw [hdir] at hO ⊢
    exact h.tokens hO
  · rw [hcache, hm.timers]
    split
    · next heq =>
        rw [heq, ← hx.id.trans (show (context id inMsg driver prediction _).id = id from rfl)]
        exact htimed
    · next hne =>
        rw [hx.timers id' hne]
        change L1Cache.Timed (s.cache id') (arb.reissueTimer id')
        rw [heard.frame.1]
        exact h.timed id'

omit [Fintype ι] in
theorem DirTrigger.response_spec {inMsg event} {pop : System ι D → System ι D}
    {m : ResponseMsg ι D} (h : DirTrigger s e inMsg event pop) (hm : inMsg = .response m) :
    (.directory, m) ∈ s.responses ∧ event = Directory.responseNetwork m := by
  subst hm
  cases h with
  | response mem => exact ⟨mem, rfl⟩

omit [Fintype ι] in
theorem DirTrigger.owning_carried {inMsg event} {pop : System ι D → System ι D}
    (h : DirTrigger s e inMsg event pop) : owning inMsg.carried = event.owner.toNat := by
  by_cases hr : event.response
  · obtain ⟨m, rfl⟩ := h.response_iff.mp hr
    change owning ((.directory, m) ::ₘ 0) = _
    rw [owning_cons, owning_zero,
      (Directory.type_of_responseNetwork (h.response_spec rfl).2).2.2]
    rfl
  · have hown : event.owner = false := by
      cases event <;> first | rfl | exact absurd rfl hr
    rw [hown]
    cases inMsg with
    | response m => exact absurd (h.response_iff.mpr ⟨m, rfl⟩) hr
    | _ => rfl

theorem Owned.asked_directory (h : Owned s) {arb : PersistentArbitration ι} {inMsg event}
    {pop : System ι D → System ι D} {cur : D}
    (trigger : DirTrigger { s with arb := arb } e inMsg event pop)
    (hgood : ∀ r ∈ s.responses, r.2.Good s.directory.dataBlk cur r.1)
    (hhome : s.directory.directoryState = .O → s.directory.dataBlk = cur) :
    Directory.Asked (dirContext inMsg { s with arb := arb }) event cur := by
  refine ⟨h.tokens, hhome, fun hr => trigger.response_iff.mp hr, fun m hm => ?_⟩
  obtain ⟨hmem, hev⟩ := trigger.response_spec hm
  exact ⟨hgood _ hmem, hev⟩

/-- The directory takes a transition. -/
theorem Owned.directory (h : Owned s) (hinv : Inv s') {inMsg event}
    {arb : PersistentArbitration ι} {pop : System ι D → System ι D} {x' : Directory.Context ι D}
    {cur : D} (heard : Heard s .directory e arb)
    (trigger : DirTrigger { s with arb := arb } e inMsg event pop)
    (hm : DirMoved { s with arb := arb } s' x' inMsg)
    (hset : Directory.Settled (dirContext inMsg { s with arb := arb }) x' event cur)
    (hentries : ∀ id e, (s.cache id).getCacheEntry = some e → e.cacheState.readable →
      Current s.directory.dataBlk cur e.dataBlk e.dirty)
    (hgood : ∀ r ∈ s.responses, r.2.Good s.directory.dataBlk cur r.1) : Owned s' := by
  obtain ⟨rest, hrest, hrest'⟩ := hm.responses
  have hcache : s'.cache = s.cache := hm.cache
  have hr : s.responses = inMsg.carried + rest := hrest
  have hmem : x'.entry.dataBlk = s.directory.dataBlk ∨ x'.entry.dataBlk = cur := hset.memory
  refine ⟨hinv, ?_, ⟨cur, fun id e he hread => ?_, fun r hr' => ?_, ?_⟩,
    fun id e he hw => ?_, ?_, fun id => ?_⟩
  · have hcarried := trigger.owning_carried
    have howner := hset.owner
    have hone := h.owner
    unfold owners at hone ⊢
    rw [hr, owning_add, hcarried] at hone
    rw [hcache, hm.directory, hrest', owning_add]
    change Directory.owners x'.entry + _ = Directory.owners s.directory + _ at howner
    omega
  · rw [hcache] at he
    rw [hm.directory]
    exact (hentries id e he hread).update hmem
  · rw [hrest', Multiset.mem_add] at hr'
    rw [hm.directory]
    rcases hr' with hr' | hr'
    · exact hset.good r hr'
    · exact (hgood r (by rw [hr]; exact Multiset.mem_add.mpr (.inr hr'))).update hmem
  · rw [hm.directory]
    exact hset.current
  · rw [hcache] at he
    exact h.written id e he hw
  · rw [hm.directory]
    exact hset.tokens
  · rw [hcache, hm.timers]
    change L1Cache.Timed (s.cache id) (arb.reissueTimer id)
    rw [heard.frame.1]
    exact h.timed id

omit [DecidableEq D] [Fintype ι] in
/-- What has been heard is a lock, or there was one. -/
theorem Heard.locked {arb : PersistentArbitration ι} {p : ι}
    (h : Heard s .directory (.persistent p .directory) arb)
    (hno : (s.arb.tables .directory).isLocked = false) : (arb.tables .directory).isLocked := by
  cases h with
  | nothing other => exact absurd rfl (other p)
  | message head =>
      obtain ⟨msg, -, hmsg⟩ := Option.map_eq_some_iff.mp head
      have hnone : s.arb.tables .directory = none := by
        simpa [PersistentTable.isLocked] using hno
      split at hmsg
      · cases hmsg
      · next table htable =>
          obtain rfl := Except.ok.inj hmsg
          rw [hnone] at htable
          obtain ⟨type, requestor⟩ := msg
          have hsome : table.isSome := by
            cases type <;> simp only [PersistentMsg.apply, PersistentTable.persistentRequestLock,
              PersistentTable.persistentRequestUnlock, Option.some.injEq, reduceCtorEq] at htable
            all_goals exact htable ▸ rfl
          simpa [PersistentArbitration.setTable, PersistentTable.isLocked] using hsome

/-- No event meets a state of the directory without a row for it. -/
theorem Owned.directory_row (h : Owned s) (hlocked : Locked s) {arb : PersistentArbitration ι}
    {inMsg event} {pop : System ι D → System ι D} (heard : Heard s .directory e arb)
    (trigger : DirTrigger { s with arb := arb } e inMsg event pop) :
    Directory.transition s.directory.directoryState event ≠ none := by
  intro hnone
  rcases Directory.blocked_of_transition hnone with ⟨hL, hev⟩ | ⟨hO, hev⟩
  · have hno : (s.arb.tables .directory).isLocked = false :=
      Bool.eq_false_of_not_eq_true fun hl => hL (hlocked.mpr hl)
    cases trigger with
    | persistent =>
        have := heard.locked hno
        simp [Directory.persistentNetwork, this] at hev
    | request | completion =>
        simp only [Directory.requestNetwork, Directory.completionNetwork] at hev
        split at hev <;> cases hev
    | response =>
        unfold Directory.responseNetwork at hev
        split at hev <;> cases hev
  · have hr : event.response := by cases event <;> first | rfl | cases hev
    obtain ⟨m, rfl⟩ := trigger.response_iff.mp hr
    obtain ⟨hmem, hm⟩ := trigger.response_spec rfl
    have hone := h.owner
    have hfly : m.owner.toNat ≤ owning s.responses :=
      Tally.le_weight (f := fun r => r.2.owner.toNat) hmem
    rw [(Directory.type_of_responseNetwork hm).2.2, hev] at hfly
    unfold owners Directory.owners at hone
    rw [hO] at hone
    simp only [Directory.State.owner, Bool.toNat_true] at hone hfly
    omega

omit [Fintype ι] in
/-- The lock of the directory follows its table. -/
theorem locked_directory (hlocked : Locked s) {arb : PersistentArbitration ι}
    {inMsg event} {pop : System ι D → System ι D} {next : Directory.State}
    (heard : Heard s .directory e arb)
    (trigger : DirTrigger { s with arb := arb } e inMsg event pop)
    (hrelocks : Directory.relocks s.directory.directoryState event next) :
    next = .L ↔ (arb.tables .directory).isLocked := by
  have hsame : (∀ p, e ≠ .persistent p .directory) →
      ((s.directory.directoryState = .L) = (next = .L)) →
      (next = .L ↔ (arb.tables .directory).isLocked) := by
    intro hne heq
    rw [← heq]
    cases heard with
    | nothing => exact hlocked
    | @message p => exact absurd rfl (hne p)
  cases trigger with
  | persistent =>
      unfold Directory.persistentNetwork at hrelocks
      dsimp only at hrelocks
      split at hrelocks
      · next hl => exact ⟨fun _ => hl, fun _ => of_decide_eq_true hrelocks⟩
      · next hl => exact ⟨fun hL => absurd hL (of_decide_eq_true hrelocks), fun h => absurd h hl⟩
  | request | completion =>
      refine hsame (by rintro _ ⟨⟩) ?_
      simp only [Directory.requestNetwork, Directory.completionNetwork] at hrelocks
      split at hrelocks <;> exact of_decide_eq_true hrelocks
  | response =>
      refine hsame (by rintro _ ⟨⟩) ?_
      unfold Directory.responseNetwork at hrelocks
      split at hrelocks <;> exact of_decide_eq_true hrelocks

omit [DecidableEq D] in
/-- A store hits with all tokens there. -/
theorem Owned.access (h : Owned s) {type : CacheRequestType} {driver : D → D}
    (hstore : type = .ST ∨ type = .ATOMIC) (hit : L1Cache.tryCacheAccess type (s.cache id)) :
    Owned (s.access id type driver) := by
  have hok := h.inv.ok id
  obtain ⟨-, e, he, hperm⟩ := tryCacheAccess_store hok hstore hit
  have hfit := hok.fits e he
  rw [hfit.permission] at hperm
  have hall : (s.cache id).getTokens + flying (0 : Multiset (NodeID ι × ResponseMsg ι D)) = max_tokens := by
    rw [L1Cache.getTokens_some he, flying_zero]
    exact hfit.all (L1Cache.holdsAll_of_permission hperm)
  obtain ⟨halone, hnone, hdir⟩ := h.alone (zero_add s.responses).symm hall
  have hinv := h.inv.access driver hstore hit
  rw [access_eq hok hstore hit] at hinv ⊢
  have hcache : ∀ id', Function.update s.cache id
      ((s.cache id).modifyEntry fun e => { e with dataBlk := driver e.dataBlk }) id' =
      if id' = id then (s.cache id).modifyEntry fun e => { e with dataBlk := driver e.dataBlk }
      else s.cache id' := fun id' => Function.update_apply _ _ _ _
  have hentry : ((s.cache id).modifyEntry fun e => { e with dataBlk := driver e.dataBlk }).getCacheEntry =
      some { e with dataBlk := driver e.dataBlk } := by
    rw [L1Cache.getCacheEntry_modifyEntry, he]
    rfl
  have hdirty : e.dirty := h.written id e he (by
    cases hst : e.cacheState <;> rw [hst] at hperm <;> first | rfl | cases hperm)
  refine ⟨hinv, ?_, ⟨driver e.dataBlk, fun id' e' he' hread => ?_, fun r hr => ?_, fun hO => ?_⟩,
    fun id' e' he' hw => ?_, h.tokens, fun id' => ?_⟩
  · have hup := Tally.sum_update L1Cache.owners s.cache id
      ((s.cache id).modifyEntry fun e => { e with dataBlk := driver e.dataBlk })
    have hsame : L1Cache.owners
        ((s.cache id).modifyEntry fun e => { e with dataBlk := driver e.dataBlk }) =
        L1Cache.owners (s.cache id) := by
      unfold L1Cache.owners
      rw [hentry, he]
    have hone := h.owner
    unfold owners at hone ⊢
    dsimp only
    omega
  · dsimp only at he'
    rw [hcache] at he'
    split at he'
    · obtain rfl := Option.some.inj (hentry.symm.trans he')
      exact ⟨rfl, fun hd => absurd hdirty (by rw [hd]; exact Bool.false_ne_true)⟩
    · next hne => exact absurd hread (halone id' hne e' he')
  · dsimp only at hr
    rw [hnone] at hr
    exact absurd hr (Multiset.notMem_zero r)
  · exact absurd hO hdir
  · dsimp only at he'
    rw [hcache] at he'
    split at he'
    · obtain rfl := Option.some.inj (hentry.symm.trans he')
      exact hdirty
    · exact h.written id' e' he' hw
  · dsimp only
    rw [hcache]
    split
    · next heq =>
        subst heq
        have ht := h.timed id'
        refine ⟨fun hset => ?_, fun hset => ?_⟩
        · obtain ⟨e₀, he₀, hst⟩ := ht.reissue hset
          obtain rfl := Option.some.inj (he.symm.trans he₀)
          exact ⟨_, hentry, hst⟩
        · obtain ⟨e₀, he₀, hst⟩ := ht.use hset
          obtain rfl := Option.some.inj (he.symm.trans he₀)
          exact ⟨_, hentry, hst⟩
    · exact h.timed id'

omit [DecidableEq D] [LinearOrder ι] in
theorem Owned.failed (h : Owned s) {arb : PersistentArbitration ι} {failure : Option Failure}
    (harb : arb.reissueTimer = s.arb.reissueTimer) :
    Owned { s with arb := arb, failed := failure } :=
  ⟨h.inv.congr rfl rfl rfl, h.owner, h.data, h.written, h.tokens,
    fun id => by rw [harb]; exact h.timed id⟩

variable [Inhabited D]

theorem Sound.step (h : Sound s) (hshort : ¬ Short s e) (hs : step cfg s e = some s') : Sound s' := by
  have hinv := h.owned.inv.step hs
  obtain ⟨hrun, hs⟩ := stepped hs
  have hlocked : Locked s := by
    rcases h.failed with ⟨-, hl⟩ | hf
    · exact hl
    · cases hrun.symm.trans hf
  obtain ⟨cur, hentries, hgood, hhome⟩ := h.owned.data
  cases hs with
  | idle => exact h
  | halt => exact ⟨h.owned.failed rfl, .inr rfl⟩
  | @stray id m mem type => cases ((hgood _ mem).clean type).1
  | access store hit =>
      refine ⟨h.owned.access store hit, .inl ?_⟩
      rw [access_eq (h.owned.inv.ok _) store hit]
      exact ⟨hrun, hlocked⟩
  | @cache arb id inMsg event pop driver prediction heard trigger =>
      obtain ⟨state, hstate, -⟩ := h.owned.inv.state id (arb.tables (.cache id))
      have hx := h.owned.asked driver prediction heard trigger hshort
        hstate hentries hgood
      have hok := h.owned.inv.ok id
      cases ht : L1Cache.doTransition cfg event
          (context id inMsg driver prediction { s with arb := arb }) with
      | error failure =>
          refine ⟨h.owned.failed heard.frame.1, .inr ?_⟩
          rcases L1Cache.doTransition_error hok hstate hx rfl ht with rfl | ⟨-, hnone⟩
          · rfl
          · exact absurd (L1Cache.blocked_of_transition hnone)
              (h.owned.not_blocked heard trigger hstate)
      | ok x' =>
          rw [ht] at hinv
          have htr := L1Cache.transited hok ht
          have hm := cacheMoved trigger htr.id fun m hm =>
            htr.popped (trigger.response_iff.mpr ⟨m, hm⟩)
          refine ⟨h.owned.cache hinv heard trigger hm htr
            (L1Cache.settled hok hstate hx rfl ht) hentries hgood hhome, .inl ⟨hm.failed.trans hrun, ?_⟩⟩
          unfold Locked
          rw [hm.directory, hm.tables, htr.tables]
          change _ ↔ (arb.tables .directory).isLocked
          rw [heard.frame.2 .directory fun h => nomatch h]
          exact hlocked
  | @directory arb inMsg event pop heard trigger =>
      have hx := h.owned.asked_directory trigger hgood hhome
      cases ht : Directory.doTransition event (dirContext inMsg { s with arb := arb }) with
      | error failure =>
          refine ⟨h.owned.failed heard.frame.1, .inr ?_⟩
          rcases Directory.doTransition_error hx rfl ht with rfl | ⟨-, hnone⟩
          · rfl
          · exact absurd hnone (h.owned.directory_row hlocked heard trigger)
      | ok x' =>
          rw [ht] at hinv
          have htr := Directory.transited ht
          have hm := dirMoved trigger fun m hm => htr.popped (trigger.response_iff.mpr ⟨m, hm⟩)
          have hset := Directory.settled hx rfl ht
          refine ⟨h.owned.directory hinv heard trigger hm hset hentries hgood,
            .inl ⟨hm.failed.trans hrun, ?_⟩⟩
          unfold Locked
          rw [hm.directory, hm.tables]
          exact locked_directory hlocked heard trigger hset.locked

omit [LinearOrder ι] [DecidableEq D] in
theorem sound_init : Sound (init memory : System ι D) := by
  refine ⟨⟨inv_init, ?_, ⟨memory, fun _ _ h => (nomatch h), fun r hr => ?_, fun _ => rfl⟩,
    fun _ _ h => (nomatch h), fun _ => Nat.le_of_ble_eq_true rfl, fun _ => ⟨fun h => (nomatch h),
      fun h => (nomatch h)⟩⟩,
    .inl ⟨rfl, ⟨fun h => (nomatch h), fun h => (nomatch h)⟩⟩⟩
  · unfold owners
    have h0 : ∑ id : ι, L1Cache.owners ((init memory : System ι D).cache id) = 0 :=
      Finset.sum_eq_zero fun _ _ => rfl
    rw [h0]
    rfl
  · exact absurd hr (Multiset.notMem_zero r)

/-- Without a short step, one holder has the owner token, and neither an assertion on tokens
nor a missing transition stops a run. -/
theorem owner_kept (es : List (Event ι D))
    (h : EventSystem.Along (step cfg) (fun s e => ¬ Short s e) (init memory) es) :
    EventSystem.Throughout (step cfg)
      (fun s => s.owners = 1 ∧ s.failed ≠ some .tokenCount ∧ s.failed ≠ some .incomingMsg ∧
        s.failed ≠ some .invalidTransition) (init memory) es := by
  refine EventSystem.Along.throughout (I := Sound) (fun s hs => ⟨hs.owned.owner, ?_⟩)
    (fun s e s' hI hC he => hI.step hC he) sound_init h
  rcases hs.failed with ⟨hf, -⟩ | hf <;> rw [hf] <;> decide

instance : ∀ e, Decidable (Short s e)
  | .request (.cache id) m =>
      inferInstanceAs (Decidable (m.type = .GETS ∧ s.Is id .O ∧ (s.cache id).getTokens = 1))
  | .persistent p (.cache id) =>
      match h : s.arb.receive p (.cache id) with
      | some (.ok arb) =>
          decidable_of_iff (L1Cache.persistentNetwork id (arb.tables (.cache id)) = .Persistent_GETS ∧
            (s.Is id .O ∨ s.Is id .OM) ∧ (s.cache id).getTokens = 1)
            ⟨fun hs => ⟨arb, h, hs⟩, fun ⟨arb', h', hs⟩ => by
              obtain rfl := Except.ok.inj (Option.some.inj (h'.symm.trans h))
              exact hs⟩
      | some (.error _) => isFalse fun ⟨_, h', _⟩ => by cases h'.symm.trans h
      | none => isFalse fun ⟨_, h', _⟩ => by cases h'.symm.trans h
  | .request .directory _ | .persistent _ .directory | .demand _ _ _ _ _ | .makeRoom _
  | .access _ _ _ | .useTimeout _ | .requestTimeout _ _ | .response _ _ _ | .completion _ =>
      inferInstanceAs (Decidable False)

/-! An owner that shares its tokens one by one -/

section Exhausted

/-- What two nodes have. -/
def pair {α : Type} (a b : α) : Bool → α
  | false => a
  | true => b

@[simp] theorem update_pair_false {α : Type} (a b c : α) :
    Function.update (pair a b) false c = pair c b := by
  funext id
  cases id <;> rfl

@[simp] theorem update_pair_true {α : Type} (a b c : α) :
    Function.update (pair a b) true c = pair a c := by
  funext id
  cases id <;> rfl

theorem const_eq_pair {α : Type} (a : α) : (fun _ => a) = pair a a := by
  funext id
  cases id <;> rfl

def twoRequests : Config := { tokenReissueThreshold := 2, tokenCompletionEnabled := false }

def cleanEntry (permission : AccessPermission) (dataBlk : ℕ) (state : L1Cache.State) (tokens : ℕ) :
    L1Cache.Entry ℕ :=
  { permission := permission, dataBlk := dataBlk, cacheState := state, dirty := false
    tokens := tokens }

def holder (state : L1Cache.State) (tokens : ℕ) : L1Cache ℕ :=
  { memories.l1D := some (cleanEntry .Read_Only 7 state tokens) }

/-- The reader waits for data, has them, and is about to lose them. -/
def waiting : L1Cache ℕ :=
  { memories.l1D := some (cleanEntry .Invalid 0 .IS 0), tbeState := some .IS }

def reading : L1Cache ℕ := { memories.l1D := some (cleanEntry .Read_Only 7 .S 1) }

def leaving : L1Cache ℕ := { memories.l2 := some (cleanEntry .Read_Only 7 .S 1) }

def oneRequest : TokenTBE := { issueCount := 1, accessType := .Read }

variable {first : L1Cache ℕ}
  {requests : Multiset (NodeID Bool × RequestMsg Bool)}
  {responses : Multiset (NodeID Bool × ResponseMsg Bool ℕ)}

/-- The directory has given its tokens to the first cache; the second one loads. -/
def twoCaches (tbe : Option TokenTBE) (timer : Bool) (first second : L1Cache ℕ)
    (requests : Multiset (NodeID Bool × RequestMsg Bool))
    (responses : Multiset (NodeID Bool × ResponseMsg Bool ℕ)) : System Bool ℕ :=
  { arb := { tbes := pair none tbe, reissueTimer := pair false timer }
    cache := pair first second
    directory := { directoryState := .NO, dataBlk := 7, tokens := 0, pending := {false} }
    requests := requests, responses := responses }

def load : Event Bool ℕ :=
  .demand true .LD { l1Avail := true, l2Avail := true, stalls := false } {false} (fun data => data)

def gets : RequestMsg Bool :=
  { type := .GETS, requestor := true, destination := {.directory, .cache false} }

def shared : ResponseMsg Bool ℕ :=
  { type := .DATA_SHARED, sender := .cache false, tokens := 1, dataBlk := 7, dirty := false
    messageSize := .Response_Data }

def returned : ResponseMsg Bool ℕ :=
  { type := .ACK, sender := .cache true, tokens := 1, dataBlk := 0, dirty := false
    messageSize := .Writeback_Control }

theorem step_load : step twoRequests (twoCaches none false first {} requests responses) load =
    some (twoCaches (some oneRequest) true first waiting (gets.copies + requests)
      (0 + responses)) := by
  have h : step twoRequests (twoCaches none false first {} requests responses) load =
      some { twoCaches none false first {} (gets.copies + 0 + requests) (0 + responses) with
        arb := { twoCaches none false first {} 0 0 |>.arb with
          tbes := Function.update (Function.update (pair none none) true
            (some { issueCount := 0, accessType := .Read })) true (some oneRequest)
          reissueTimer := Function.update (pair false false) true true }
        cache := Function.update (pair first {}) true waiting } := rfl
  rw [h]
  simp only [update_pair_true, add_zero]
  rfl

/-- The owner's side of a load: one token less. -/
theorem doTransition_gets {state : L1Cache.State} {tokens : ℕ} {s : System Bool ℕ}
    (hs : state = .M ∨ state = .O) (hc : s.cache false = holder state (tokens + 2))
    (htable : s.arb.tables = fun _ => none) (htimer : s.arb.reissueTimer false = false)
    (htbe : s.arb.tbes false = none) (hk : tokens + 1 ≤ max_tokens) :
    L1Cache.doTransition twoRequests .Transient_GETS
        (context false (.request gets) (fun data => data) ∅ s) =
      .ok { context false (.request gets) (fun data => data) ∅ s with
        cache := holder .O (tokens + 1)
        popped := true
        responses := {(.cache true, shared)} } := by
  refine L1Cache.doTransition_eq_ok.mpr ⟨state, .O, [.d_sendDataWithToken, .m_popRequestQueue],
    { context false (.request gets) (fun data => data) ∅ s with
      cache := holder state (tokens + 1), popped := true, responses := {(.cache true, shared)} },
    holder .O (tokens + 1), ?_, ?_, ?_, ?_, rfl⟩
  · unfold context
    rw [hc]
    rcases hs with rfl | rfl <;> rfl
  · rcases hs with rfl | rfl <;> rfl
  · unfold context
    rw [hc]
    rcases hs with rfl | rfl <;> rfl
  · unfold L1Cache.setState
    rw [if_pos]
    · rcases hs with rfl | rfl <;> rfl
    · unfold context L1Cache.asserted L1Cache.timersAsserted L1Cache.tokensAsserted
      dsimp only
      rw [htable, htimer, htbe]
      rcases hs with rfl | rfl <;>
        simp [holder, cleanEntry, CacheHierarchy.exclusive, L1Cache.getCacheEntry,
          CacheHierarchy.getCacheEntry, PersistentTable.isLocked, hk]

theorem step_gets {state : L1Cache.State} {tokens : ℕ} (hs : state = .M ∨ state = .O)
    (hk : tokens + 1 ≤ max_tokens) (hm : (NodeID.cache false, gets) ∈ requests) :
    step twoRequests (twoCaches (some oneRequest) true (holder state (tokens + 2)) waiting requests
      responses) (.request (.cache false) gets) =
    some (twoCaches (some oneRequest) true (holder .O (tokens + 1)) waiting
      (0 + requests.erase (.cache false, gets)) ({(.cache true, shared)} + responses)) := by
  have h : ∀ s : System Bool ℕ, s.failed = none → (NodeID.cache false, gets) ∈ s.requests →
      step twoRequests s (.request (.cache false) gets) =
      some (afterCache (fun s => { s with requests := s.requests.erase (.cache false, gets) }) s
        (L1Cache.doTransition twoRequests .Transient_GETS
          (context false (.request gets) (fun data => data) ∅ s))) := by
    intro s hs hm
    unfold step
    rw [hs]
    exact if_pos hm
  rw [h _ rfl hm, doTransition_gets hs rfl rfl rfl rfl hk]
  simp only [afterCache, context, twoCaches, update_pair_false, if_pos]
  rfl

theorem step_shared (hm : (NodeID.cache true, shared) ∈ responses) :
    step twoRequests (twoCaches (some oneRequest) true first waiting requests responses)
      (.response (.cache true) shared (fun data => data)) =
    some (twoCaches none false first reading (0 + requests)
      (0 + responses.erase (.cache true, shared))) := by
  have h : step twoRequests (twoCaches (some oneRequest) true first waiting requests responses)
      (.response (.cache true) shared (fun data => data)) =
      if (NodeID.cache true, shared) ∈ responses then
        some { twoCaches (some oneRequest) true first waiting (0 + requests)
            (0 + responses.erase (.cache true, shared)) with
          arb := { twoCaches (some oneRequest) true first waiting 0 0 |>.arb with
            tbes := Function.update (pair none (some oneRequest)) true none
            reissueTimer := Function.update (pair false true) true false }
          cache := Function.update (pair first waiting) true reading }
      else none := rfl
  rw [h, if_pos hm]
  simp only [update_pair_true]
  rfl

theorem step_leave : step twoRequests (twoCaches none false first reading requests responses)
    (.makeRoom true) =
    some (twoCaches none false first leaving (0 + requests) (0 + responses)) := by
  have h : step twoRequests (twoCaches none false first reading requests responses)
      (.makeRoom true) =
      some { twoCaches none false first reading (0 + requests) (0 + responses) with
        cache := Function.update (pair first reading) true leaving } := rfl
  rw [h]
  simp only [update_pair_true]
  rfl

theorem step_left : step twoRequests (twoCaches none false first leaving requests responses)
    (.makeRoom true) =
    some (twoCaches none false first {} (0 + requests) ({(.directory, returned)} + responses)) := by
  have h : step twoRequests (twoCaches none false first leaving requests responses)
      (.makeRoom true) =
      some { twoCaches none false first leaving (0 + requests)
          ({(.directory, returned)} + responses) with
        cache := Function.update (pair first leaving) true {} } := rfl
  rw [h]
  simp only [update_pair_true]
  rfl

/-- The second cache loads the block, and loses it to another one. -/
def loadAndLeave : List (Event Bool ℕ) :=
  [load, .request (.cache false) gets, .response (.cache true) shared (fun data => data),
    .makeRoom true,
    .makeRoom true]

theorem run_loadAndLeave {state : L1Cache.State} (hs : state = .M ∨ state = .O) (tokens : ℕ)
    (hk : tokens + 1 ≤ max_tokens) (requests responses) : ∃ requests' responses',
    EventSystem.run (step twoRequests)
      (twoCaches none false (holder state (tokens + 2)) {} requests responses) loadAndLeave =
    some (twoCaches none false (holder .O (tokens + 1)) {} requests' responses') := by
  have hgets : (NodeID.cache false, gets) ∈ gets.copies + requests :=
    Multiset.mem_add.mpr (.inl (by decide))
  have hshared : (NodeID.cache true, shared) ∈ {(NodeID.cache true, shared)} + (0 + responses) :=
    Multiset.mem_add.mpr (.inl (by decide))
  unfold loadAndLeave
  simp only [EventSystem.run_cons, step_load, Option.bind_some, step_gets hs hk hgets,
    step_shared hshared, step_leave, step_left, EventSystem.run_nil]
  exact ⟨_, _, rfl⟩

/-- The first cache gets the block, with all tokens. -/
def firstLoad : List (Event Bool ℕ) := loadMiss ++ [.useTimeout false]

theorem run_firstLoad : EventSystem.run (step twoRequests) (init 7) firstLoad =
    some (twoCaches none false (holder .M 1024) {} 0 0) := by
  have h : EventSystem.run (step twoRequests) (init 7) firstLoad =
      some { twoCaches none false {} {} 0 0 with
        arb := { twoCaches none false {} {} 0 0 |>.arb with
          tbes := Function.update (Function.update (Function.update (fun _ => none) false
            (some { issueCount := 0, accessType := .Read })) false (some oneRequest)) false none
          reissueTimer := Function.update (Function.update (fun _ => false) false true) false false }
        cache := Function.update (Function.update (Function.update (fun _ => {}) false waiting) false
          { memories.l1D := some (cleanEntry .Read_Only 7 .M_W 1024), tbeState := some .M_W
            useTimer := true }) false (holder .M 1024) } := rfl
  rw [h]
  simp only [const_eq_pair, update_pair_false]
  rfl

/-- After so many loads the owner has one token less for each. -/
theorem run_loads (n : ℕ) (hn : n ≤ 1022) : ∃ es requests responses,
    EventSystem.run (step twoRequests) (init 7) es =
      some (twoCaches none false (holder .O (1023 - n)) {} requests responses) := by
  induction n with
  | zero =>
      obtain ⟨requests, responses, h⟩ := run_loadAndLeave (.inl rfl) 1022 (by decide) 0 0
      refine ⟨firstLoad ++ loadAndLeave, requests, responses, ?_⟩
      rw [EventSystem.run_append, run_firstLoad]
      exact h
  | succ n ih =>
      obtain ⟨es, requests, responses, h⟩ := ih (by omega)
      obtain ⟨requests', responses', h'⟩ := run_loadAndLeave (.inr rfl) (1021 - n)
        (by unfold max_tokens; omega) requests responses
      rw [show 1021 - n + 2 = 1023 - n by omega] at h'
      refine ⟨es ++ loadAndLeave, requests', responses', ?_⟩
      rw [EventSystem.run_append, h, show 1023 - (n + 1) = 1021 - n + 1 by omega]
      exact h'

/-- With one token left, the owner fails the assertion on the next load. -/
theorem owner_exhausted : ∃ es, ∃ s : System Bool ℕ,
    EventSystem.run (step twoRequests) (init 7) es = some s ∧ s.failed = some .tokenCount := by
  obtain ⟨es, requests, responses, h⟩ := run_loads 1022 (by decide)
  have hgets : (NodeID.cache false, gets) ∈ gets.copies + requests :=
    Multiset.mem_add.mpr (.inl (by decide))
  have hlast : step twoRequests (twoCaches (some oneRequest) true (holder .O 1) waiting
      (gets.copies + requests) (0 + responses)) (.request (.cache false) gets) =
      if (NodeID.cache false, gets) ∈ gets.copies + requests then
        some { twoCaches (some oneRequest) true (holder .O 1) waiting (gets.copies + requests)
          (0 + responses) with failed := some .tokenCount }
      else none := rfl
  rw [if_pos hgets] at hlast
  refine ⟨es ++ [load, .request (.cache false) gets],
    { twoCaches (some oneRequest) true (holder .O 1) waiting (gets.copies + requests)
      (0 + responses) with failed := some .tokenCount }, ?_, rfl⟩
  rw [EventSystem.run_append, h, Option.bind_some, EventSystem.run_cons, step_load,
    Option.bind_some, EventSystem.run_cons, hlast, Option.bind_some, EventSystem.run_nil]

/-- The owner of all tokens shares one. -/
theorem owner_kept_load : EventSystem.Throughout (step twoRequests)
    (fun s => s.owners = 1 ∧ s.failed ≠ some .tokenCount ∧ s.failed ≠ some .incomingMsg ∧
      s.failed ≠ some .invalidTransition) (init 7) (firstLoad ++ loadAndLeave) :=
  owner_kept _ (by decide +kernel)

end Exhausted

end System
end Token
end FeS2.Ruby
