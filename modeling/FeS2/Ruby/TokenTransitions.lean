import FeS2.Ruby.TokenActions

/-!
Transitions of the token cache: facts of the table, checked row by row, and what a
list of actions does by the kinds of its actions. Only three lists move the block
between the memories, and only two take it out of them.
-/

namespace FeS2.Ruby
namespace Token
namespace L1Cache

/-! The table -/

def State.list : List State :=
  [.NP, .I, .S, .O, .M, .MM, .M_W, .MM_W, .IM, .SM, .OM, .IS, .I_L, .S_L, .IM_L, .SM_L, .IS_L]

def Event.list : List Event :=
  [.Load, .Ifetch, .Store, .L2_Replacement, .L1_to_L2, .L2_to_L1D, .L2_to_L1I, .Data_Shared,
    .Data_Shared_All_Tokens, .Data_Owner, .Data_Owner_All_Tokens, .Ack, .Ack_All_Tokens,
    .Transient_GETX, .Transient_GETS, .Persistent_GETX, .Persistent_GETS, .Own_Lock_or_Unlock,
    .Request_Timeout, .Use_Timeout]

/-- A check of every row. -/
def everyRow (check : State → Event → State → List Action → Bool) : Bool :=
  State.list.all fun state => Event.list.all fun event =>
    match transition state event with
    | some (next, actions) => check state event next actions
    | none => true

theorem State.mem_list (state : State) : state ∈ State.list := by cases state <;> decide

theorem Event.mem_list (event : Event) : event ∈ Event.list := by cases event <;> decide

theorem row_of_everyRow (check : State → Event → State → List Action → Bool)
    (h : everyRow check = true) {state next : State} {event : Event} {actions : List Action}
    (ht : transition state event = some (next, actions)) :
    check state event next actions = true := by
  have h := List.all_eq_true.mp (List.all_eq_true.mp h state state.mem_list) event event.mem_list
  rwa [ht] at h

/-- With all tokens. -/
def State.holdsAll : State → Bool
  | .M | .MM | .M_W | .MM_W => true
  | _ => false

/-- With a copy that loads hit. -/
def State.readable : State → Bool
  | .S | .O | .M | .MM | .M_W | .MM_W | .SM | .OM | .S_L | .SM_L => true
  | _ => false

/-- With a TBE. -/
def State.busy : State → Bool
  | .IM | .SM | .OM | .IS | .IM_L | .SM_L | .IS_L | .M_W | .MM_W => true
  | _ => false

/-- An event of the response network. -/
def Event.response : Event → Bool
  | .Data_Shared | .Data_Shared_All_Tokens | .Data_Owner | .Data_Owner_All_Tokens | .Ack
  | .Ack_All_Tokens => true
  | _ => false

/-- What a response brings goes to the cache or back into the network. -/
def Kind.takes : Kind → Bool
  | .bounce | .gain => true
  | _ => false

/-- What is known of the entry in the course of a transition. -/
structure Track where
  present : Bool
  absent : Bool
  positive : Bool
  deriving DecidableEq

def Track.start (state : State) : Track :=
  { present := state ≠ .NP && state ≠ .I_L, absent := state = .NP, positive := state.readable }

def Track.step (t : Track) : Kind → Track
  | .allocate => { present := true, absent := false, positive := t.present && t.positive }
  | .ack | .own => { t with positive := false }
  | .ackBut | .ownBut | .share | .gain => { t with positive := true }
  | _ => t

def Track.after (state : State) (actions : List Action) : Track :=
  actions.foldl (fun t a => t.step a.kind) (.start state)

/-- Whether there is a TBE after an action. -/
def tbeAfter (busy : Bool) (actions : List Action) : Bool :=
  actions.foldl (fun b a => (a.tbe (if b then some .I else none)).isSome) busy

def moves : List (List Action) :=
  [[.vv_allocateL2CacheBlock, .ss_copyFromL1toL2, .gg_deallocateL1CacheBlock],
    [.ii_allocateL1DCacheBlock, .tt_copyFromL2toL1, .rr_deallocateL2CacheBlock],
    [.pp_allocateL1ICacheBlock, .tt_copyFromL2toL1, .rr_deallocateL2CacheBlock]]

/-- A list of actions moves the block, replaces it, or does neither. -/
inductive Shape (state : State) : State → List Action → Prop
  | plain {next actions} (kinds : ∀ a ∈ actions, a.kind ≠ .move) : Shape state next actions
  | move {actions} (mem : actions ∈ moves) (present : state ≠ .NP) : Shape state state actions
  | replace {a} (kind : a.kind = .ack ∨ a.kind = .own) (idle : ¬ state.busy) :
      Shape state .I [a, .rr_deallocateL2CacheBlock]

def isShape (state next : State) (actions : List Action) : Bool :=
  (actions.all fun a => a.kind ≠ .move) ||
  (actions ∈ moves && next = state && state ≠ .NP) ||
  (next = .I && !state.busy &&
    match actions with
    | [a, .rr_deallocateL2CacheBlock] => a.kind = .ack || a.kind = .own
    | _ => false)

theorem shape_of_transition {state next : State} {event : Event} {actions : List Action}
    (h : transition state event = some (next, actions)) : Shape state next actions := by
  have hrow : isShape state next actions = true :=
    row_of_everyRow (fun state _ next actions => isShape state next actions) (by decide +kernel) h
  simp only [isShape, Bool.or_eq_true, Bool.and_eq_true, List.all_eq_true,
    decide_eq_true_eq] at hrow
  rcases hrow with (hkinds | ⟨⟨hmem, rfl⟩, hpresent⟩) | ⟨⟨rfl, hidle⟩, hlist⟩
  · exact .plain hkinds
  · exact .move hmem hpresent
  · split at hlist
    · exact .replace (by simpa using hlist) (by simpa using hidle)
    · cases hlist

/-! States -/

variable {ι D : Type} [LinearOrder ι] {c c' : L1Cache D} {id : ι} {table : PersistentTable ι} {state : State}
  {arb : PersistentArbitration ι} {threshold : ℕ}

structure Entry.Fits (e : Entry D) : Prop where
  permission : e.permission = e.cacheState.permission
  all : e.cacheState.holdsAll → e.tokens = max_tokens
  some : e.cacheState.readable → e.tokens ≥ 1
  present : e.cacheState ≠ .NP

structure Ok (c : L1Cache D) : Prop where
  exclusive : c.memories.exclusive
  idle : c.tbeState = none → ∀ e, c.getCacheEntry = some e → ¬ e.cacheState.busy
  busy : ∀ state, c.tbeState = some state →
    state.busy ∧ ∃ e, c.getCacheEntry = some e ∧ e.cacheState = state
  fits : ∀ e, c.getCacheEntry = some e → e.Fits

omit [LinearOrder ι] in
theorem ok_blank : Ok ({} : L1Cache D) :=
  ⟨rfl, fun _ _ h => (nomatch h), fun _ h => (nomatch h), fun _ h => (nomatch h)⟩

/-- A cache is in the state of its entry, or has none. -/
theorem Ok.getState (hok : Ok c) (h : c.getState id table = .ok state) :
    (∃ e, c.getCacheEntry = some e ∧ e.cacheState = state) ∨
      c.getCacheEntry = none ∧ c.tbeState = none ∧ (state = .NP ∨ state = .I_L) := by
  unfold L1Cache.getState at h
  rw [if_pos hok.exclusive] at h
  cases ht : c.tbeState with
  | some st =>
      rw [ht] at h
      obtain rfl := Except.ok.inj h
      exact .inl (hok.busy _ ht).2
  | none =>
      cases he : c.getCacheEntry with
      | some e =>
          rw [ht, he] at h
          exact .inl ⟨e, rfl, Except.ok.inj h⟩
      | none =>
          rw [ht, he] at h
          refine .inr ⟨rfl, rfl, ?_⟩
          dsimp only at h
          split at h
          · exact .inr (Except.ok.inj h).symm
          · exact .inl (Except.ok.inj h).symm

/-- A TBE goes with the states that have one. -/
theorem Ok.tbe_isSome (hok : Ok c) (h : c.getState id table = .ok state) :
    c.tbeState.isSome = state.busy := by
  cases ht : c.tbeState with
  | some st =>
      unfold L1Cache.getState at h
      rw [if_pos hok.exclusive, ht] at h
      obtain rfl := Except.ok.inj h
      exact (hok.busy _ ht).1.symm
  | none =>
      rcases hok.getState h with ⟨e, he, rfl⟩ | ⟨-, -, rfl | rfl⟩
      · exact (Bool.eq_false_of_not_eq_true (hok.idle ht e he)).symm
      · rfl
      · rfl

/-- What passes the assertions of `setState`. -/
structure Assigned (c c' : L1Cache D) (state : State) : Prop where
  exclusive : c.memories.exclusive
  after : c'.memories.exclusive
  entry : c'.getCacheEntry =
    c.getCacheEntry.map fun e => { e with cacheState := state, permission := state.permission }
  tbeState : c'.tbeState = c.tbeState.map fun _ => state
  useTimer : c'.useTimer = c.useTimer

theorem assigned_of_setState (h : setState threshold id arb state c = .ok c') :
    Assigned c c' state := by
  unfold setState at h
  split at h
  · next hok =>
      obtain rfl := Except.ok.inj h
      unfold asserted at hok
      simp only [Bool.and_eq_true] at hok
      have hx := hok.1.1.1
      exact ⟨hx, exclusive_modifyEntry.trans hx, getCacheEntry_modifyEntry, rfl, rfl⟩
  · cases h

/-- The tokens that go with a state. -/
theorem tokens_of_asserted {tokens : ℕ} (h : tokensAsserted id table state tokens = true) :
    (state.holdsAll → tokens = max_tokens) ∧
      (state.readable → state ≠ .O → state ≠ .OM → tokens ≥ 1) := by
  unfold tokensAsserted max_tokens at h
  unfold max_tokens
  cases state <;> simp only [State.holdsAll, State.readable, false_imp_iff, forall_const, ne_eq,
    not_true_eq_false, reduceCtorEq, not_false_eq_true, and_self, Bool.false_eq_true, true_and] <;> simp at h <;> omega

theorem tokens_of_setState (h : setState threshold id arb state c = .ok c') {e : Entry D}
    (he : c.getCacheEntry = some e) :
    (state.holdsAll → e.tokens = max_tokens) ∧
      (state.readable → state ≠ .O → state ≠ .OM → e.tokens ≥ 1) := by
  unfold setState at h
  split at h
  · next hok =>
      unfold asserted at hok
      simp only [Bool.and_eq_true] at hok
      have htok := hok.2
      rw [he] at htok
      exact tokens_of_asserted htok
  · cases h

/-! Lists of actions -/

variable [DecidableEq D] [Inhabited D] {cfg : Config} {x x' y : Context ι D} {actions : List Action}

theorem run_exclusive (hk : ∀ a ∈ actions, a.kind ≠ .move)
    (h : actions.foldlM (Action.perform cfg) x = .ok y) (hy : y.cache.memories.exclusive) :
    x.cache.memories.exclusive := by
  induction actions generalizing x with
  | nil => exact ExceptRun.foldlM_nil_ok.mp h ▸ hy
  | cons a actions ih =>
      obtain ⟨x', ha, hrest⟩ := ExceptRun.foldlM_cons_ok.mp h
      have hx' := ih (fun a ha => hk a (List.mem_cons_of_mem _ ha)) hrest
      by_cases hka : a.kind = .allocate
      · exact (perform_allocate hka ha hx').1
      · exact (perform_frame ha).exclusive (hk a List.mem_cons_self) hka ▸ hx'

/-- The invariant rule for the actions of a transition that leaves the block where it is. -/
theorem run_plain {I : List Action → Context ι D → Prop}
    (preserved : ∀ a actions x x', I (a :: actions) x → Frame x x' a → Effect x x' a.kind →
      I actions x')
    (hk : ∀ a ∈ actions, a.kind ≠ .move) (h : actions.foldlM (Action.perform cfg) x = .ok y)
    (hy : y.cache.memories.exclusive) (hI : I actions x) : I [] y := by
  induction actions generalizing x with
  | nil => exact ExceptRun.foldlM_nil_ok.mp h ▸ hI
  | cons a actions ih =>
      obtain ⟨x', ha, hrest⟩ := ExceptRun.foldlM_cons_ok.mp h
      have hk' := fun a ha => hk a (List.mem_cons_of_mem _ ha)
      have hx' := run_exclusive hk' hrest hy
      exact ih hk' hrest (preserved a actions x x' hI (perform_frame ha) (perform_effect ha hx'))

/-- The block moves, and nothing else happens. -/
structure Moved (x y : Context ι D) : Prop where
  entry : y.cache.getCacheEntry = x.cache.getCacheEntry
  exclusive : y.cache.memories.exclusive
  rest : ∃ memories, y = { x with cache.memories := memories }

theorem run_move (hx : x.cache.memories.exclusive) (hm : actions ∈ moves)
    (h : actions.foldlM (Action.perform cfg) x = .ok y) : Moved x y := by
  simp only [moves, List.mem_cons, List.not_mem_nil, or_false] at hm
  rcases hm with rfl | rfl | rfl
  · simp only [ExceptRun.foldlM_cons_ok, ExceptRun.foldlM_nil_ok, Action.perform,
      setMemories_eq_ok] at h
    obtain ⟨_, ⟨c1, h1, rfl⟩, _, ⟨c2, h2, rfl⟩, _, ⟨c3, h3, rfl⟩, rfl⟩ := h
    dsimp only at h2 h3
    obtain ⟨he, hent⟩ : c3.exclusive ∧ c3.getCacheEntry = x.cache.memories.getCacheEntry :=
      CacheHierarchy.moveToL2_spec hx (by rw [h1]; simp [h2, h3])
    exact ⟨hent, he, _, rfl⟩
  · simp only [ExceptRun.foldlM_cons_ok, ExceptRun.foldlM_nil_ok, Action.perform,
      setMemories_eq_ok, Except.ok.injEq] at h
    obtain ⟨_, rfl, _, ⟨c2, h2, rfl⟩, _, ⟨c3, h3, rfl⟩, rfl⟩ := h
    dsimp only at h2 h3
    obtain ⟨he, hent⟩ : c3.exclusive ∧ c3.getCacheEntry = x.cache.memories.getCacheEntry :=
      CacheHierarchy.moveToL1D_spec hx (by rw [h2]; exact h3)
    exact ⟨hent, he, _, rfl⟩
  · simp only [ExceptRun.foldlM_cons_ok, ExceptRun.foldlM_nil_ok, Action.perform,
      setMemories_eq_ok, Except.ok.injEq] at h
    obtain ⟨_, rfl, _, ⟨c2, h2, rfl⟩, _, ⟨c3, h3, rfl⟩, rfl⟩ := h
    dsimp only at h2 h3
    obtain ⟨he, hent⟩ : c3.exclusive ∧ c3.getCacheEntry = x.cache.memories.getCacheEntry :=
      CacheHierarchy.moveToL1I_spec hx (by rw [h2]; exact h3)
    exact ⟨hent, he, _, rfl⟩

/-- The block is gone, after its tokens were sent. -/
structure Replaced (a : Action) (x z y : Context ι D) : Prop where
  frame : Frame x z a
  effect : Effect x z a.kind
  entry : y.cache.getCacheEntry = none
  exclusive : y.cache.memories.exclusive
  rest : ∃ memories, y = { z with cache.memories := memories }

theorem run_replace {a : Action} (hx : x.cache.memories.exclusive)
    (hk : a.kind = .ack ∨ a.kind = .own)
    (h : [a, .rr_deallocateL2CacheBlock].foldlM (Action.perform cfg) x = .ok y) :
    ∃ z, Replaced a x z y := by
  obtain ⟨z, hz, h⟩ := ExceptRun.foldlM_cons_ok.mp h
  obtain ⟨_, hrr, h⟩ := ExceptRun.foldlM_cons_ok.mp h
  obtain rfl := ExceptRun.foldlM_nil_ok.mp h
  have hf := perform_frame hz
  have hzx : z.cache.memories.exclusive := by
    rw [hf.exclusive (by rcases hk with hk | hk <;> rw [hk] <;> exact fun h => nomatch h)
      (by rcases hk with hk | hk <;> rw [hk] <;> exact fun h => nomatch h)]
    exact hx
  simp only [Action.perform, setMemories_eq_ok] at hrr
  obtain ⟨c, hc, rfl⟩ := hrr
  obtain ⟨h1, h2⟩ := CacheHierarchy.deallocateL2_spec hzx hc
  exact ⟨z, hf, perform_effect hz hzx, h2, h1, _, rfl⟩

/-- The course of a transition. -/
theorem doTransition_eq_ok {event : Event} : doTransition cfg event x = .ok x' ↔
    ∃ state next actions y c', x.cache.getState x.id (x.arb.tables (.cache x.id)) = .ok state ∧
      transition state event = some (next, actions) ∧
      actions.foldlM (Action.perform cfg) x = .ok y ∧
      y.cache.setState cfg.tokenReissueThreshold y.id y.arb next = .ok c' ∧
      { y with cache := c' } = x' := by
  unfold doTransition
  rw [ExceptRun.bind_eq_ok]
  constructor
  · rintro ⟨state, hstate, h⟩
    split at h
    · cases h
    · next next actions ht =>
        obtain ⟨y, hy, h⟩ := ExceptRun.bind_eq_ok.mp h
        obtain ⟨c', hc', h⟩ := ExceptRun.bind_eq_ok.mp h
        exact ⟨state, next, actions, y, c', hstate, ht, hy, hc', Except.ok.inj h⟩
  · rintro ⟨state, next, actions, y, c', hstate, ht, hy, hc', rfl⟩
    refine ⟨state, hstate, ?_⟩
    rw [ht]
    exact ExceptRun.bind_eq_ok.mpr ⟨y, hy, ExceptRun.bind_eq_ok.mpr ⟨c', hc', rfl⟩⟩

end L1Cache
end Token
end FeS2.Ruby
