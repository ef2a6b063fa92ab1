import FeS2.Library.Tally
import FeS2.Ruby.TokenMemory
import FeS2.Ruby.TokenTransitions

/-!
Tokens are conserved. What the caches and the directory hold and what the responses in
flight carry adds up to all tokens, in every reachable state; and a cache has the tokens
that go with its state.
-/

namespace FeS2.Ruby
namespace Token

/-- The tokens that responses carry. -/
def flying {ι D : Type} (responses : Multiset (NodeID ι × ResponseMsg ι D)) : ℕ :=
  Tally.weight (fun r => r.2.tokens) responses

variable {ι D : Type}

@[simp] theorem flying_zero : flying (0 : Multiset (NodeID ι × ResponseMsg ι D)) = 0 := rfl

@[simp] theorem flying_cons (r : NodeID ι × ResponseMsg ι D)
    (responses : Multiset (NodeID ι × ResponseMsg ι D)) :
    flying (r ::ₘ responses) = r.2.tokens + flying responses := by
  simp [flying]

@[simp] theorem flying_add (responses responses' : Multiset (NodeID ι × ResponseMsg ι D)) :
    flying (responses + responses') = flying responses + flying responses' := by
  simp [flying]

/-! Caches -/

namespace L1Cache
variable {cfg : Config} {x x' y z : Context ι D} {actions rest : List Action} {a : Action}
  {state next : State} {event : Event} {c : L1Cache D}

def Context.inTokens (x : Context ι D) : ℕ :=
  match x.inMsg with
  | .response m => m.tokens
  | _ => 0

/-- What a cache holds and has sent. -/
def Context.balance (x : Context ι D) : ℕ := x.cache.getTokens + flying x.responses

def taken (actions : List Action) : ℕ := actions.countP fun a => a.kind.takes

theorem taken_cons : taken (a :: rest) = taken rest + if a.kind.takes then 1 else 0 := by
  unfold taken
  exact List.countP_cons

structure Track.Sound (t : Track) (c : L1Cache D) : Prop where
  present : t.present → c.getCacheEntry ≠ none
  absent : t.absent → c.getCacheEntry = none
  positive : t.positive → ∀ e, c.getCacheEntry = some e → e.tokens ≥ 1

theorem getTokens_some {e : Entry D} (h : c.getCacheEntry = some e) : c.getTokens = e.tokens := by
  unfold getTokens
  rw [h]
  rfl

theorem getTokens_none (h : c.getCacheEntry = none) : c.getTokens = 0 := by
  unfold getTokens
  rw [h]
  rfl

theorem getTokens_congr {c' : L1Cache D} (h : c'.getCacheEntry = c.getCacheEntry) :
    c'.getTokens = c.getTokens := by
  unfold getTokens
  rw [h]

theorem Sent.balance {entry : Entry D} {tokens : ℕ} {dest : NodeID ι} {m : ResponseMsg ι D}
    (h : Sent x x' entry tokens dest m) : x'.balance = x.balance := by
  unfold Context.balance
  rw [getTokens_some h.before, getTokens_some h.after, h.sent, flying_cons]
  have := h.tokens
  dsimp only
  omega

theorem Still.balance (h : Still x x') : x'.balance = x.balance := by
  unfold Context.balance
  rw [getTokens_congr h.entry, h.responses]

theorem Track.Sound.congr {t : Track} {c' : L1Cache D} (h : t.Sound c)
    (he : c'.getCacheEntry = c.getCacheEntry) : t.Sound c' :=
  ⟨he ▸ h.present, he ▸ h.absent, he ▸ h.positive⟩

/-- A present entry with so many tokens. -/
theorem Track.Sound.sound_some {t : Track} {e e' : Entry D} (h : t.Sound c)
    {c' : L1Cache D} (he : c.getCacheEntry = some e) (he' : c'.getCacheEntry = some e')
    {positive : Bool} (hp : positive → e'.tokens ≥ 1) :
    ({ t with positive := positive } : Track).Sound c' := by
  refine ⟨fun _ hn => ?_, fun ha => ?_, fun hp' e₁ he₁ => ?_⟩
  · rw [he'] at hn
    cases hn
  · have hn := h.absent ha
    rw [he] at hn
    cases hn
  · rw [he'] at he₁
    obtain rfl := Option.some.inj he₁
    exact hp hp'

variable [Inhabited D]

/-- An action keeps the tokens, but for those that it takes from the message. -/
theorem Effect.balance {k : Kind} (hk : k ≠ .move) (h : Effect x x' k) :
    x'.balance = x.balance + (if k.takes then 1 else 0) * x.inTokens := by
  cases k with
  | quiet => simpa [Kind.takes] using Still.balance h
  | allocate =>
      obtain ⟨he, hr⟩ := h
      unfold Context.balance
      rw [hr, getTokens_some he]
      cases hc : x.cache.getCacheEntry with
      | none => simp [Kind.takes, getTokens_none hc, Entry.blank]
      | some e => simp [Kind.takes, getTokens_some hc]
  | ack | ackBut =>
      obtain ⟨entry, -, ⟨-, h⟩ | ⟨dest, m, h, -⟩⟩ := h
      · simpa [Kind.takes] using h.balance
      · simpa [Kind.takes] using h.balance
  | share =>
      obtain ⟨entry, dest, m, tokens, h, -⟩ := h
      simpa [Kind.takes] using h.balance
  | own =>
      obtain ⟨entry, dest, m, h, -⟩ := h
      simpa [Kind.takes] using h.balance
  | ownBut =>
      obtain ⟨entry, -, ⟨-, h⟩ | ⟨dest, m, h, -⟩⟩ := h
      · simpa [Kind.takes] using h.balance
      · simpa [Kind.takes] using h.balance
  | bounce =>
      obtain ⟨m, dest, sender, hm, he, hr⟩ := h
      unfold Context.balance Context.inTokens
      rw [getTokens_congr he, hr, flying_cons, hm]
      simp only [Kind.takes, if_pos]
      omega
  | gain =>
      obtain ⟨m, entry, hm, -, h⟩ := h
      unfold Context.balance Context.inTokens
      rw [getTokens_some h.before, getTokens_some h.after, h.responses, hm]
      simp only [Kind.takes, if_pos]
      omega
  | write =>
      obtain ⟨m, entry, -, h⟩ := h
      unfold Context.balance
      rw [getTokens_some h.before, getTokens_some h.after, h.responses]
      simp [Kind.takes]
  | store =>
      obtain ⟨entry, h⟩ := h
      unfold Context.balance
      rw [getTokens_some h.before, getTokens_some h.after, h.responses]
      simp [Kind.takes]
  | move => exact absurd rfl hk

/-- What is known of the entry stays known. -/
theorem Effect.sound {k : Kind} {t : Track} (hk : k ≠ .move) (h : Effect x x' k)
    (ht : t.Sound x.cache) : (t.step k).Sound x'.cache := by
  cases k with
  | quiet => exact ht.congr h.entry
  | allocate =>
      obtain ⟨he, -⟩ := h
      refine ⟨fun _ hn => ?_, fun ha => (nomatch ha), fun hp e he' => ?_⟩
      · rw [he] at hn
        cases hn
      · obtain ⟨hp, hpos⟩ := Bool.and_eq_true_iff.mp hp
        obtain ⟨e₀, he₀⟩ := Option.ne_none_iff_exists'.mp (ht.present hp)
        rw [he, he₀] at he'
        obtain rfl := Option.some.inj he'
        exact ht.positive hpos _ he₀
  | ack =>
      obtain ⟨entry, he, ⟨-, h⟩ | ⟨dest, m, h, -⟩⟩ := h
      · exact ht.sound_some he (h.entry.trans he) fun h => nomatch h
      · exact ht.sound_some he h.after fun h => nomatch h
  | ackBut =>
      obtain ⟨entry, he, ⟨h1, h⟩ | ⟨dest, m, h, -⟩⟩ := h
      · exact ht.sound_some he (h.entry.trans he) fun _ => Nat.le_of_eq h1.symm
      · exact ht.sound_some he h.after fun _ => Nat.le_refl 1
  | share =>
      obtain ⟨entry, dest, m, tokens, h, -, -, h1, -⟩ := h
      exact ht.sound_some h.before h.after fun _ => h1
  | own =>
      obtain ⟨entry, dest, m, h, -⟩ := h
      exact ht.sound_some h.before h.after fun h => nomatch h
  | ownBut =>
      obtain ⟨entry, he, ⟨h1, h⟩ | ⟨dest, m, h, -⟩⟩ := h
      · exact ht.sound_some he (h.entry.trans he) fun _ => Nat.le_of_eq h1.symm
      · exact ht.sound_some he h.after fun _ => Nat.le_refl 1
  | bounce =>
      obtain ⟨m, dest, sender, -, he, -⟩ := h
      exact ht.congr he
  | gain =>
      obtain ⟨m, entry, -, hne, h⟩ := h
      exact ht.sound_some h.before h.after fun _ => by dsimp only; omega
  | write =>
      obtain ⟨m, entry, -, h⟩ := h
      exact ht.sound_some h.before h.after fun hp => ht.positive hp entry h.before
  | store =>
      obtain ⟨entry, h⟩ := h
      exact ht.sound_some h.before h.after fun hp => ht.positive hp entry h.before
  | move => exact absurd rfl hk

/-- In the course of a transition, with the actions in `rest` to come. -/
structure Going (x : Context ι D) (state : State) (actions rest : List Action) (z : Context ι D) :
    Prop where
  id : z.id = x.id
  inMsg : z.inMsg = x.inMsg
  tables : z.arb.tables .directory = x.arb.tables .directory
  timers : ∀ id, id ≠ x.id → z.arb.reissueTimer id = x.arb.reissueTimer id
  balance : z.balance + taken rest * x.inTokens = x.balance + taken actions * x.inTokens
  track : ∃ t : Track, t.Sound z.cache ∧
    rest.foldl (fun t a => t.step a.kind) t = .after state actions
  popped : (rest.any Action.pops || z.popped) = (actions.any Action.pops || x.popped)
  tbe : rest.foldl Action.tbe z.cache.tbeState = actions.foldl Action.tbe x.cache.tbeState

theorem Going.step [LinearOrder ι] (h : Going x state actions (a :: rest) z)
    (hk : a.kind ≠ .move) (hf : Frame z x' a) (he : Effect z x' a.kind) :
    Going x state actions rest x' := by
  obtain ⟨t, ht, hfold⟩ := h.track
  refine ⟨hf.id.trans h.id, hf.inMsg.trans h.inMsg, hf.tables.trans h.tables,
    fun id hid => (hf.timers id (h.id.symm ▸ hid)).trans (h.timers id hid), ?_,
    ⟨_, he.sound hk ht, hfold⟩, ?_, ?_⟩
  · have hb := h.balance
    have hin : z.inTokens = x.inTokens := by
      unfold Context.inTokens
      rw [h.inMsg]
    rw [taken_cons, Nat.add_mul] at hb
    rw [he.balance hk, hin]
    omega
  · rw [← h.popped, hf.popped, List.any_cons, ← Bool.or_assoc, Bool.or_comm (rest.any _)]
  · rw [← h.tbe, hf.tbeState, List.foldl_cons]

variable [LinearOrder ι] [DecidableEq D]

omit [Inhabited D] [DecidableEq D] in
theorem sound_start (hok : Ok c) {id : ι} {table : PersistentTable ι}
    (h : c.getState id table = .ok state) : (Track.start state).Sound c := by
  rcases hok.getState h with ⟨e, he, rfl⟩ | ⟨hnone, -, hst⟩
  · refine ⟨fun _ => he ▸ Option.some_ne_none e, fun ha => ?_, fun hp e' he' => ?_⟩
    · exact absurd (of_decide_eq_true ha) (hok.fits e he).present
    · obtain rfl := Option.some.inj (he.symm.trans he')
      exact (hok.fits e he).some hp
  · refine ⟨fun hp => ?_, fun _ => hnone, fun _ e he => ?_⟩
    · rcases hst with rfl | rfl <;> cases hp
    · rw [hnone] at he
      cases he

/-- Where the block stays, a transition runs its list of actions. -/
theorem run_going (hok : Ok x.cache) {table : PersistentTable ι}
    (hstate : x.cache.getState x.id table = .ok state) (hk : ∀ a ∈ actions, a.kind ≠ .move)
    (h : actions.foldlM (Action.perform cfg) x = .ok y) (hy : y.cache.memories.exclusive) :
    Going x state actions [] y := by
  have hstart : Going x state actions actions x :=
    ⟨rfl, rfl, rfl, fun _ _ => rfl, rfl, ⟨_, sound_start hok hstate, rfl⟩, rfl, rfl⟩
  have hrun := run_plain
    (I := fun rest z => (∀ a ∈ rest, a.kind ≠ .move) ∧ Going x state actions rest z)
    (fun a rest z z' hI hf he => ⟨fun a ha => hI.1 a (List.mem_cons_of_mem _ ha),
      hI.2.step (hI.1 a List.mem_cons_self) hf he⟩) hk h hy ⟨hk, hstart⟩
  exact hrun.2

/-! Rows -/

theorem tbeAfter_isSome (actions : List Action) (tbe : Option State) :
    (actions.foldl Action.tbe tbe).isSome = tbeAfter tbe.isSome actions := by
  unfold tbeAfter
  induction actions generalizing tbe with
  | nil => rfl
  | cons a actions ih =>
      rw [List.foldl_cons, List.foldl_cons, ih]
      congr 1
      cases a <;> cases tbe <;> rfl

/-- What every row says of the TBE, of the responses, and of what is known at its end. -/
def rowOk (state : State) (event : Event) (next : State) (actions : List Action) : Bool :=
  tbeAfter state.busy actions = next.busy &&
  taken actions = (if event.response then 1 else 0) &&
  (!event.response || actions.any Action.pops) &&
  ((actions.any fun a => a.kind = .move) ||
    (!next.busy || (Track.after state actions).present) &&
    (next ≠ .NP || (Track.after state actions).absent) &&
    ((next ≠ .O && next ≠ .OM) || (Track.after state actions).positive))

theorem rows_ok : everyRow rowOk = true := by decide +kernel

omit [Inhabited D] [DecidableEq D] in
/-- A transition that leaves the block where it is, and the tokens that go with its state. -/
theorem ok_of_going {c' : L1Cache D} {threshold : ℕ} (hok : Ok x.cache)
    (hstate : x.cache.getState x.id (x.arb.tables (.cache x.id)) = .ok state)
    (ht : transition state event = some (next, actions)) (hk : ∀ a ∈ actions, a.kind ≠ .move)
    (hgo : Going x state actions [] y) (hset : y.cache.setState threshold y.id y.arb next = .ok c') :
    Ok c' := by
  have hrow := row_of_everyRow rowOk rows_ok ht
  have hmove : (actions.any fun a => decide (a.kind = .move)) = false := by
    rw [List.any_eq_false]
    intro a ha
    simpa using hk a ha
  simp only [rowOk, hmove, Bool.false_or, Bool.and_eq_true, Bool.or_eq_true, decide_eq_true_eq,
    Bool.not_eq_true', ne_eq] at hrow
  obtain ⟨⟨⟨htbe, -⟩, -⟩, ⟨hpresent, habsent⟩, hpositive⟩ := hrow
  obtain ⟨t, hsound, rfl⟩ := hgo.track
  have hassign := assigned_of_setState hset
  have hbusy : y.cache.tbeState.isSome = next.busy := by
    rw [← htbe, ← hok.tbe_isSome hstate, ← tbeAfter_isSome, ← hgo.tbe]
    rfl
  refine ⟨hassign.after, fun hnone e he => ?_, fun st hst => ?_, fun e he => ?_⟩
  · rw [hassign.tbeState, Option.map_eq_none_iff] at hnone
    rw [hassign.entry, Option.map_eq_some_iff] at he
    obtain ⟨e, -, rfl⟩ := he
    rw [← hbusy, hnone]
    exact fun h => nomatch h
  · rw [hassign.tbeState, Option.map_eq_some_iff] at hst
    obtain ⟨_, hst, rfl⟩ := hst
    rw [hst] at hbusy
    have hb : next.busy = true := hbusy.symm
    obtain ⟨e, he⟩ := Option.ne_none_iff_exists'.mp
      (hsound.present (hpresent.resolve_left (by rw [hb]; exact fun h => nomatch h)))
    exact ⟨hb, _, by rw [hassign.entry, he]; rfl, rfl⟩
  · rw [hassign.entry, Option.map_eq_some_iff] at he
    obtain ⟨e, he, rfl⟩ := he
    obtain ⟨hall, hsome⟩ := tokens_of_setState hset he
    refine ⟨rfl, hall, fun hread => ?_, fun hnp => ?_⟩
    · by_cases hO : next = .O ∨ next = .OM
      · refine hsound.positive (hpositive.resolve_left fun hne => ?_) e he
        rcases hO with hO | hO
        · exact hne.1 hO
        · exact hne.2 hO
      · exact hsome hread (fun h => hO (.inl h)) (fun h => hO (.inr h))
    · have hn := hsound.absent (habsent.resolve_left fun hne => hne hnp)
      rw [he] at hn
      cases hn

omit [Inhabited D] [DecidableEq D] in
/-- A block that has moved between the memories. -/
theorem ok_of_move {c' : L1Cache D} {threshold : ℕ} (hok : Ok x.cache)
    (hstate : x.cache.getState x.id (x.arb.tables (.cache x.id)) = .ok state)
    (hm : Moved x y) (hset : y.cache.setState threshold y.id y.arb state = .ok c') : Ok c' := by
  have hassign := assigned_of_setState hset
  have htbe := hok.tbe_isSome hstate
  obtain ⟨memories, hrest⟩ := hm.rest
  have hytbe : y.cache.tbeState = x.cache.tbeState := by rw [hrest]
  rw [← hytbe] at htbe
  have hentry : ∀ e, c'.getCacheEntry = some e → ∃ e₀, x.cache.getCacheEntry = some e₀ ∧
      e₀.cacheState = state ∧
      e = { e₀ with cacheState := state, permission := state.permission } := by
    intro e he
    rw [hassign.entry, hm.entry, Option.map_eq_some_iff] at he
    obtain ⟨e₀, he₀, rfl⟩ := he
    rcases hok.getState hstate with ⟨e₁, he₁, hst⟩ | ⟨hnone, -, -⟩
    · obtain rfl := Option.some.inj (he₀.symm.trans he₁)
      exact ⟨e₀, he₀, hst, rfl⟩
    · rw [hnone] at he₀
      cases he₀
  refine ⟨hassign.after, fun hnone e he => ?_, fun st hst => ?_, fun e he => ?_⟩
  · rw [hassign.tbeState, Option.map_eq_none_iff] at hnone
    obtain ⟨e₀, -, -, rfl⟩ := hentry e he
    rw [hnone] at htbe
    exact fun h => Bool.false_ne_true (htbe.trans h)
  · rw [hassign.tbeState, Option.map_eq_some_iff] at hst
    obtain ⟨st₀, hst₀, rfl⟩ := hst
    rw [hst₀] at htbe
    obtain ⟨-, e, he, -⟩ := hok.busy st₀ (hytbe ▸ hst₀)
    exact ⟨htbe.symm, _, by rw [hassign.entry, hm.entry, he]; rfl, rfl⟩
  · obtain ⟨e₀, he₀, hst, rfl⟩ := hentry e he
    have hfit := hok.fits e₀ he₀
    subst hst
    exact ⟨rfl, hfit.all, hfit.some, hfit.present⟩

omit [DecidableEq D] in
/-- A block that has been replaced. -/
theorem ok_of_replace {c' : L1Cache D} {threshold : ℕ} (hok : Ok x.cache)
    (hstate : x.cache.getState x.id (x.arb.tables (.cache x.id)) = .ok state)
    (hidle : ¬ state.busy) (hk : a.kind = .ack ∨ a.kind = .own) (hr : Replaced a x z y)
    (hset : y.cache.setState threshold y.id y.arb .I = .ok c') : Ok c' := by
  have hassign := assigned_of_setState hset
  obtain ⟨memories, hrest⟩ := hr.rest
  have htbe : y.cache.tbeState = none := by
    have hx := hok.tbe_isSome hstate
    rw [Bool.eq_false_of_not_eq_true hidle, Option.isSome_eq_false_iff,
      Option.isNone_iff_eq_none] at hx
    rw [hrest]
    dsimp only
    rw [hr.frame.tbeState, hx]
    cases a <;> first | rfl | simp [Action.kind] at hk
  have hnone : c'.getCacheEntry = none := by rw [hassign.entry, hr.entry]; rfl
  refine ⟨hassign.after, fun _ e he => ?_, fun st hst => ?_, fun e he => ?_⟩
  · rw [hnone] at he
    cases he
  · rw [hassign.tbeState, htbe] at hst
    cases hst
  · rw [hnone] at he
    cases he

/-- What a transition does to the tokens. -/
structure Transited (x x' : Context ι D) (event : Event) : Prop where
  ok : Ok x'.cache
  id : x'.id = x.id
  tables : x'.arb.tables .directory = x.arb.tables .directory
  timers : ∀ id, id ≠ x.id → x'.arb.reissueTimer id = x.arb.reissueTimer id
  balance : x'.balance = x.balance + if event.response then x.inTokens else 0
  popped : event.response → x'.popped

omit [Inhabited D] [LinearOrder ι] [DecidableEq D] in
theorem balance_assigned {c' : L1Cache D} (h : Assigned y.cache c' next) :
    ({ y with cache := c' } : Context ι D).balance = y.balance := by
  unfold Context.balance
  dsimp only
  cases he : y.cache.getCacheEntry with
  | none => rw [getTokens_none he, getTokens_none (by rw [h.entry, he]; rfl)]
  | some e =>
      rw [getTokens_some he,
        getTokens_some (e := { e with cacheState := next, permission := next.permission })
          (by rw [h.entry, he]; rfl)]

omit [LinearOrder ι] [DecidableEq D] in
/-- A block that is replaced has sent all its tokens. -/
theorem tokens_of_collected (hk : a.kind = .ack ∨ a.kind = .own) (h : Effect x z a.kind) :
    z.cache.getTokens = 0 ∧ z.balance = x.balance := by
  rcases hk with hk | hk <;> rw [hk] at h
  · obtain ⟨entry, he, ⟨h0, h⟩ | ⟨dest, m, h, -⟩⟩ := h
    · exact ⟨(getTokens_some (h.entry.trans he)).trans h0, h.balance⟩
    · exact ⟨getTokens_some h.after, h.balance⟩
  · obtain ⟨entry, dest, m, h, -⟩ := h
    exact ⟨getTokens_some h.after, h.balance⟩

theorem transited (hok : Ok x.cache) (h : doTransition cfg event x = .ok x') :
    Transited x x' event := by
  obtain ⟨state, next, actions, y, c', hstate, ht, hrun, hset, rfl⟩ := doTransition_eq_ok.mp h
  have hrow := row_of_everyRow rowOk rows_ok ht
  simp only [rowOk, Bool.and_eq_true, decide_eq_true_eq] at hrow
  obtain ⟨⟨⟨-, htaken⟩, hpops⟩, -⟩ := hrow
  have hassign := assigned_of_setState hset
  cases shape_of_transition ht with
  | plain hk =>
      have hgo := run_going hok hstate hk hrun hassign.exclusive
      refine ⟨ok_of_going hok hstate ht hk hgo hset, hgo.id, hgo.tables, hgo.timers, ?_,
        fun hr => ?_⟩
      · have hb := hgo.balance
        rw [balance_assigned hassign]
        rw [htaken] at hb
        cases hr : event.response
        · simpa [taken, hr] using hb
        · simpa [taken, hr] using hb
      · have hpop := hgo.popped
        rw [hr, Bool.not_true, Bool.false_or] at hpops
        rw [hpops] at hpop
        simpa using hpop
  | move hmem hpresent =>
      have hm := run_move hok.exclusive hmem hrun
      have hnot : event.response = false := by
        by_contra hr
        rw [Bool.not_eq_false] at hr
        rw [hr] at htaken
        simp only [moves, List.mem_cons, List.not_mem_nil, or_false] at hmem
        rcases hmem with rfl | rfl | rfl <;> cases htaken
      obtain ⟨memories, hrest⟩ := hm.rest
      refine ⟨ok_of_move hok hstate hm hset, by rw [hrest], by rw [hrest],
        fun _ _ => by rw [hrest], ?_,
        fun hr => absurd hr (by rw [hnot]; exact Bool.false_ne_true)⟩
      rw [balance_assigned hassign, hnot]
      unfold Context.balance
      rw [getTokens_congr hm.entry, show y.responses = x.responses by rw [hrest]]
      rfl
  | @replace a hk hidle =>
      obtain ⟨z, hr⟩ := run_replace hok.exclusive hk hrun
      have hnot : event.response = false := by
        by_contra hresp
        rw [Bool.not_eq_false] at hresp
        rw [hresp] at htaken
        unfold taken at htaken
        rcases hk with hk | hk <;> rw [List.countP_cons, hk] at htaken <;> cases htaken
      obtain ⟨memories, hrest⟩ := hr.rest
      obtain ⟨hzero, hbal⟩ := tokens_of_collected hk hr.effect
      refine ⟨ok_of_replace hok hstate hidle hk hr hset, by rw [hrest]; exact hr.frame.id,
        by rw [hrest]; exact hr.frame.tables, by rw [hrest]; exact hr.frame.timers, ?_,
        fun hresp => absurd hresp (by rw [hnot]; exact Bool.false_ne_true)⟩
      rw [balance_assigned hassign, hnot]
      unfold Context.balance at hbal ⊢
      rw [getTokens_none hr.entry, show y.responses = z.responses by rw [hrest]]
      rw [hzero] at hbal
      exact hbal

end L1Cache
/-! The directory -/

namespace Directory
variable [LinearOrder ι] {x x' y : Context ι D} {a : Action} {event : Event}

def Context.inTokens (x : Context ι D) : ℕ :=
  match x.inMsg with
  | .response m => m.tokens
  | _ => 0

def Context.balance (x : Context ι D) : ℕ := x.entry.tokens + flying x.responses

/-- What a response brings goes to the memory or back into the network. -/
def Kind.takes : Kind → Bool
  | .gain | .bounce | .reassociate => true
  | _ => false

def taken (actions : List Action) : ℕ := actions.countP fun a => a.kind.takes

def Event.response : Event → Bool
  | .Data_Owner | .Data_Shared | .Ack | .Ack_Owner => true
  | _ => false

def rowOk (_ : State) (event : Event) (_ : State) (actions : List Action) : Bool :=
  taken actions = (if event.response then 1 else 0) &&
  (!event.response || actions.any Action.pops)

theorem rows_ok : everyRow rowOk = true := by decide +kernel

variable [DecidableEq D] [Inhabited D]

theorem Effect.balance {k : Kind} (h : Effect x x' k) :
    x'.balance = x.balance + (if k.takes then 1 else 0) * x.inTokens := by
  unfold Context.balance Context.inTokens
  cases k with
  | quiet =>
      rw [h.tokens, h.responses]
      simp [Kind.takes]
  | send =>
      rcases h with ⟨-, h⟩ | ⟨-, dest, h⟩
      · rw [h.tokens, h.responses]
        simp [Kind.takes]
      · rw [h.tokens, h.responses, flying_cons]
        simp [Kind.takes, ack]
  | sendData =>
      obtain ⟨-, dest, h⟩ := h
      rw [h.tokens, h.responses, flying_cons]
      simp [Kind.takes, data]
  | gain =>
      obtain ⟨m, hm, -, ht, -, hr⟩ := h
      rw [ht, hr, hm]
      simp only [Kind.takes, if_pos]
      omega
  | write =>
      obtain ⟨m, -, ht, -, hr⟩ := h
      rw [ht, hr]
      simp [Kind.takes]
  | check =>
      obtain ⟨m, -, -, h⟩ := h
      rw [h.tokens, h.responses]
      simp [Kind.takes]
  | bounce =>
      obtain ⟨m, dest, hm, h⟩ := h
      rw [h.tokens, h.responses, flying_cons, hm]
      simp only [Kind.takes, if_pos]
      omega
  | reassociate =>
      obtain ⟨m, dest, hm, -, h⟩ := h
      rw [h.tokens, h.responses, flying_cons, hm]
      simp only [Kind.takes, if_pos, reassociated]
      omega

/-- What a transition does to the tokens. -/
structure Transited (x x' : Context ι D) (event : Event) : Prop where
  balance : x'.balance = x.balance + if event.response then x.inTokens else 0
  popped : event.response → x'.popped

theorem transited (h : doTransition event x = .ok x') : Transited x x' event := by
  obtain ⟨next, actions, y, entry, ht, hrun, hset, rfl⟩ := doTransition_eq_ok.mp h
  have hrow := row_of_everyRow rowOk rows_ok ht
  simp only [rowOk, Bool.and_eq_true, decide_eq_true_eq] at hrow
  obtain ⟨htaken, hpops⟩ := hrow
  have hgo : y.inMsg = x.inMsg ∧ y.balance + taken [] * x.inTokens =
      x.balance + taken actions * x.inTokens ∧
      ([].any Action.pops || y.popped) = (actions.any Action.pops || x.popped) := by
    refine run_rule (I := fun rest z => z.inMsg = x.inMsg ∧ z.balance + taken rest * x.inTokens =
      x.balance + taken actions * x.inTokens ∧
      (rest.any Action.pops || z.popped) = (actions.any Action.pops || x.popped))
      (fun a rest z z' hI hf he => ⟨hf.inMsg.trans hI.1, ?_, ?_⟩) hrun ⟨rfl, rfl, rfl⟩
    · have hin : z.inTokens = x.inTokens := by
        unfold Context.inTokens
        rw [hI.1]
      have hb := hI.2.1
      rw [show taken (a :: rest) = taken rest + if a.kind.takes then 1 else 0 from
        List.countP_cons, Nat.add_mul] at hb
      rw [he.balance, hin]
      omega
    · rw [← hI.2.2, hf.popped, List.any_cons, ← Bool.or_assoc, Bool.or_comm (rest.any _)]
  obtain ⟨-, hb, hpop⟩ := hgo
  obtain ⟨rfl, -⟩ := setState_eq_ok hset
  refine ⟨?_, fun hr => ?_⟩
  · change y.balance = _
    rw [htaken] at hb
    cases hr : event.response
    · simpa [taken, hr] using hb
    · simpa [taken, hr] using hb
  · rw [hr, Bool.not_true, Bool.false_or] at hpops
    rw [hpops] at hpop
    simpa using hpop

end Directory
end Token
end FeS2.Ruby
