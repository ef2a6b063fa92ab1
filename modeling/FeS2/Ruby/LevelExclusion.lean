import FeS2.Library.EventSystem
import FeS2.Ruby.LevelDemands

/-!
Each block is in one cache at most. The invariant is that the tag arrays hold the blocks where
their entries are; it is kept by every trigger of the in-ports, by those that are refused too, and
so every run of the controller keeps the blocks apart and finds what it looks for.
-/

namespace FeS2.Ruby
open FeS2.Common

namespace CacheLevels
open L1Cache
variable {ι D : Type}

def initial (g : CacheGeometry) (id : ι) : CacheLevels ι D :=
  { id := id, memory := .construct g }

def held (s : CacheLevels ι D) : Location → Address → Bool := fun l a => (s.block a).heldBy l

structure Invariant (s : CacheLevels ι D) : Prop where
  block : ∀ a, Held (s.block a)
  memory : s.memory.Files s.held

/-- What was sent to the directory of a block. -/
def sentFor (a : Address) (sent : List (Address × RequestMsg ι D)) : List (RequestMsg ι D) :=
  (sent.filter fun m => decide (m.1 = a)).map Prod.snd

/-- What happens from `s` to `s'` loses no block. -/
def Follows (s s' : CacheLevels ι D) : Prop :=
  ∃ sent, s'.requests = s.requests ++ sent ∧ ∀ a, Keeps (s.block a) (s'.block a) (sentFor a sent)

/-- The code of an in-port gets through, and keeps the invariant. -/
def Done (s : CacheLevels ι D) (result : Option (CacheLevels ι D)) : Prop :=
  ∃ s', result = some s' ∧ s'.Invariant ∧ Follows s s'

/-- The caches that have room for a block. -/
def room (a : Address) (s : CacheLevels ι D) : Location → Bool :=
  fun l => decide ((s.memory l).cacheAvail a = some true)

/-- What the code of the in-ports relies on. -/
structure Sound [DecidableEq D] [Inhabited D] [DecidableEq ι] (s : CacheLevels ι D) : Prop where
  /-- The assertions of `getState` and `setState`. -/
  exclusive : ∀ a : Line, s.memory.exclusive a = some true
  tags : ∀ (a : Line) l, (s.memory l).isTagPresent a = some ((s.block a).heldBy l)
  mandatoryQueue : ∀ slots type driver (a : Line),
    (s.mandatoryQueue slots type driver a).isSome = true
  access : ∀ type driver (a : Line), (s.access type a driver).isSome = true
  /-- Messages and triggers fail by what they say only, never by where the block is. -/
  remote : ∀ (event : L1Cache.Event) inMsg driver (a : Line), event.isRemote = true →
    (L1Cache.doTransition event
      { id := s.id, driver := driver, inMsg := inMsg, cache := s.block a }).isSome = true →
    (s.doTransition event inMsg driver a).isSome = true
  /-- No step loses a block. -/
  follows : ∀ e s', s.step e = some s' → Follows s s'

theorem initial_invariant (g : CacheGeometry) (id : ι) :
    (initial g id : CacheLevels ι D).Invariant := by
  refine ⟨fun a => .absent 0, fun l => ?_⟩
  have hfiles := CacheMemory.construct_files g.blockBits (g.setBits l) (g.assoc l) (g.setBits_lt l)
    (g.assoc_pos l)
  have hnone : (initial g id : CacheLevels ι D).held l = fun _ => false := by
    funext a
    cases l <;> rfl
  rw [hnone]
  exact hfiles

theorem sentFor_map (a b : Address) (sent : List (RequestMsg ι D)) :
    sentFor b (sent.map fun m => (a, m)) = if a = b then sent else [] := by
  unfold sentFor
  induction sent with
  | nil => split <;> rfl
  | cons m sent ih =>
    rw [List.map_cons, List.filter_cons]
    split at ih
    · next hab =>
      rw [if_pos (decide_eq_true hab), List.map_cons, ih, if_pos hab]
    · next hab =>
      rw [if_neg (by simpa using hab), ih, if_neg hab]

namespace Invariant
variable {s : CacheLevels ι D} {a : Address}

theorem files (h : s.Invariant) (a : Address) :
    s.memory.Files (CacheMemories.place s.held a (s.block a).heldBy) := by
  have hself : CacheMemories.place s.held a (s.block a).heldBy = s.held :=
    CacheMemories.place_self s.held a
  rw [hself]
  exact h.memory

theorem present (h : s.Invariant) (ha : a.IsLine) (l : Location) :
    (s.memory l).isTagPresent a = some ((s.block a).heldBy l) :=
  (h.files a).present ha l

theorem exclusive (h : s.Invariant) (ha : a.IsLine) : s.memory.exclusive a = some true :=
  (h.files a).exclusive ha fun _ _ => (h.block a).one

theorem getState (h : s.Invariant) (ha : a.IsLine) : s.getState a = (s.block a).getState := by
  unfold CacheLevels.getState
  rw [if_pos (h.exclusive ha)]

theorem done_self (h : s.Invariant) : Done s (some s) :=
  ⟨s, rfl, h, [], (List.append_nil _).symm, fun a => keeps_inPlace (h.block a) rfl _⟩

theorem room_self (l : Location) (hr : s.room a l = true) :
    (s.memory l).cacheAvail a = some true := of_decide_eq_true hr

variable [DecidableEq D] [Inhabited D] {driver : D → D}

/-- A transition that serves the block keeps the invariant. -/
theorem doTransition (h : s.Invariant) (ha : a.IsLine) {event : L1Cache.Event}
    {inMsg : InMsg ι D}
    (hserves : Serves s.id driver inMsg (s.block a) event (s.room a)) :
    Done s (s.doTransition event inMsg driver a) := by
  have ⟨state, next, q, x, hstate, hnext, hq, hx, hheld, hkeeps⟩ := hserves
  have hplace : x.cache.heldBy = q := doTransition_place hx hstate hnext hq
  have hone : ∀ l k, q l = true → q k = true → l = k := by
    intro l k hl hk
    rw [← hplace] at hl hk
    exact hheld.one hl hk
  have ⟨m, hm, hfiles⟩ := (h.files a).foldlM ha room_self hq s.time
  have ⟨m', hm', hfiles'⟩ := hfiles.setState ha hone next.1
  have htransition : s.memory.transition s.time a next = some m' := by
    unfold CacheMemories.transition
    rw [hm]
    exact hm'
  let s' : CacheLevels ι D :=
    { s with
      memory := m'
      block := Function.update s.block a x.cache
      requests := s.requests ++ x.requests.map fun m => (a, m) }
  have hs' : s.doTransition event inMsg driver a = some s' := by
    unfold CacheLevels.doTransition
    rw [h.getState ha, hstate, Option.bind_some, hnext, Option.bind_some, htransition,
      Option.bind_some, hx]
    rfl
  have hself : s'.block a = x.cache := Function.update_self a x.cache s.block
  have hother : ∀ b, b ≠ a → s'.block b = s.block b :=
    fun b hb => Function.update_of_ne hb x.cache s.block
  have hheld' : s'.held = CacheMemories.place s.held a q := by
    funext l b
    unfold CacheLevels.held CacheMemories.place
    by_cases hb : b = a
    · rw [hb, hself, Function.update_self, hplace]
    · rw [hother b hb, Function.update_of_ne hb]
  refine ⟨s', hs', ⟨?_, hheld' ▸ hfiles'⟩, _, rfl, ?_⟩
  · intro b
    by_cases hb : b = a
    · rw [hb, hself]
      exact hheld
    · rw [hother b hb]
      exact h.block b
  · intro b
    rw [sentFor_map]
    by_cases hb : b = a
    · rw [if_pos hb.symm, hb, hself]
      exact hkeeps
    · rw [if_neg fun hab => hb hab.symm, hother b hb]
      exact keeps_inPlace (h.block b) rfl _

/-- What the transition needs, it needs only when it is not refused. -/
theorem trigger (h : s.Invariant) (ha : a.IsLine) {slots : Bool} {event : L1Cache.Event}
    {rest : Option (CacheLevels ι D)}
    (hserves : ∀ state, (s.block a).getState = some state →
      (needsResources state event && !slots) = false →
        Serves s.id driver .mandatory (s.block a) event (s.room a))
    (hrest : slots = false → Done s rest) :
    Done s (s.trigger slots event driver a rest) := by
  have ⟨state, hstate⟩ := (h.block a).getState
  unfold CacheLevels.trigger
  rw [h.getState ha, hstate, Option.bind_some]
  split
  · next hstall => exact hrest ((Bool.not_eq_true' _).mp (Bool.and_eq_true_iff.mp hstall).2)
  · next hgo => exact h.doTransition ha (hserves state hstate (eq_false_of_ne_true hgo))

/-- A block of the first level makes room for another one. -/
theorem makeRoom (h : s.Invariant) (ha : a.IsLine) {slots : Bool}
    {rest : Option (CacheLevels ι D)}
    (hin : (s.block a).heldBy .l1D = true ∨ (s.block a).heldBy .l1I = true)
    (hrest : slots = false → Done s rest) : Done s (s.makeRoom slots driver a rest) := by
  have ⟨avail, havail⟩ := CacheMemory.Files.cacheAvail (s.memory .l2) ha
  unfold CacheLevels.makeRoom
  rw [havail, Option.bind_some]
  cases avail with
  | true => exact h.trigger ha (fun _ _ _ => (h.block a).l1_to_L2 hin (decide_eq_true havail)) hrest
  | false =>
    have ⟨victim, hvictim, hheld⟩ := (h.memory .l2).cacheProbe havail
    have hline := (h.memory .l2).line hheld
    rw [if_neg Bool.false_ne_true, hvictim, Option.bind_some]
    exact h.trigger hline (fun _ _ _ => (h.block victim).l2_Replacement hheld) hrest

/-- The block is in the right cache, or has room there, and it is in the wrong cache only when
there are no free slots. -/
theorem request (h : s.Invariant) (ha : a.IsLine) {slots : Bool} {type : CacheRequestType}
    {right wrong : Location}
    (hcaches : (right, wrong) = if type = .IFETCH then (.l1I, .l1D) else (.l1D, .l1I))
    (h2 : (s.block a).heldBy .l2 = false)
    (hright : (s.block a).heldBy right = true ∨ s.room a right = true)
    (hwrong : (s.block a).heldBy wrong = true → slots = false) :
    Done s (s.trigger slots (mandatoryRequestTypeToEvent type) driver a (some s)) := by
  refine h.trigger ha (fun state hstate hgo => ?_) fun _ => h.done_self
  have hneeds : (s.block a).heldBy wrong = false ∨ ∀ state', (s.block a).getState = some state' →
      needsResources state' (mandatoryRequestTypeToEvent type) = false := by
    cases hw : (s.block a).heldBy wrong with
    | false => exact .inl rfl
    | true =>
      refine .inr fun state' hstate' => ?_
      rw [hstate] at hstate'
      rw [hwrong hw, Bool.not_false, Bool.and_true] at hgo
      exact Option.some.inj hstate' ▸ hgo
  cases type with
  | LD =>
    cases hcaches
    exact (h.block a).load false h2 hright hneeds
  | IFETCH =>
    cases hcaches
    exact (h.block a).load true h2 hright hneeds
  | ST | ATOMIC =>
    cases hcaches
    exact (h.block a).store h2 hright hneeds

theorem fetchLine (h : s.Invariant) (ha : a.IsLine) {slots : Bool} {type : CacheRequestType}
    {right wrong : Location}
    (hcaches : (right, wrong) = if type = .IFETCH then (.l1I, .l1D) else (.l1D, .l1I))
    (hwrong : (s.block a).heldBy wrong = true → slots = false) :
    Done s (s.fetchLine slots type right driver a) := by
  have hlevel : right = .l1D ∨ right = .l1I := by
    split at hcaches <;> cases hcaches
    · exact .inr rfl
    · exact .inl rfl
  unfold CacheLevels.fetchLine
  dsimp only
  rw [h.present ha, Option.bind_some]
  cases hin : (s.block a).heldBy right with
  | true =>
    have h2 : (s.block a).heldBy .l2 = false := by
      by_contra h2
      have heq := (h.block a).one hin (eq_true_of_ne_false h2)
      cases hlevel with
      | inl hD => cases hD.symm.trans heq
      | inr hI => cases hI.symm.trans heq
    exact h.request ha hcaches h2 (.inl hin) hwrong
  | false =>
    have ⟨avail, havail⟩ := CacheMemory.Files.cacheAvail (s.memory right) ha
    rw [if_neg Bool.false_ne_true, havail, Option.bind_some]
    cases avail with
    | false =>
      have ⟨victim, hvictim, hheld⟩ := (h.memory right).cacheProbe havail
      have hline := (h.memory right).line hheld
      rw [if_neg Bool.false_ne_true, hvictim, Option.bind_some]
      refine h.makeRoom hline ?_ fun _ => h.done_self
      cases hlevel with
      | inl hD => exact .inl (hD ▸ hheld)
      | inr hI => exact .inr (hI ▸ hheld)
    | true =>
      have hroom : s.room a right = true := decide_eq_true havail
      rw [if_pos rfl, h.present ha, Option.bind_some]
      cases h2 : (s.block a).heldBy .l2 with
      | false => exact h.request ha hcaches h2 (.inr hroom) hwrong
      | true =>
        refine h.trigger ha (fun _ _ _ => ?_) fun _ => h.done_self
        cases hlevel with
        | inl hD =>
          rw [hD] at hroom ⊢
          exact (h.block a).l2_to_L1D h2 hroom
        | inr hI =>
          rw [hI] at hroom ⊢
          exact (h.block a).l2_to_L1I h2 hroom

/-- A request at the head of the mandatory queue is served, or made room for, or waits. -/
theorem mandatoryQueue (h : s.Invariant) (ha : a.IsLine) (slots : Bool) (type : CacheRequestType) :
    Done s (s.mandatoryQueue slots type driver a) := by
  unfold CacheLevels.mandatoryQueue
  split
  next right wrong hcaches =>
  have hlevel : wrong = .l1D ∨ wrong = .l1I := by
    split at hcaches <;> cases hcaches
    · exact .inl rfl
    · exact .inr rfl
  rw [h.present ha, Option.bind_some]
  cases hin : (s.block a).heldBy wrong with
  | false =>
    refine h.fetchLine ha hcaches.symm fun hw => ?_
    rw [hin] at hw
    cases hw
  | true =>
    refine h.makeRoom ha ?_ fun hslots => h.fetchLine ha hcaches.symm fun _ => hslots
    cases hlevel with
    | inl hD => exact .inl (hD ▸ hin)
    | inr hI => exact .inr (hI ▸ hin)

omit [DecidableEq D] [Inhabited D] in
theorem access (h : s.Invariant) (ha : a.IsLine) (type : CacheRequestType) :
    Done s (s.access type a driver) := by
  unfold CacheLevels.access
  dsimp only
  generalize (if type = .IFETCH then Location.l1I else .l1D) = l
  have ⟨hit, c, hc, hfiles⟩ := (h.memory l).tryCacheAccess ha s.time type
  rw [hc, Option.map_some]
  refine ⟨_, rfl, ?_⟩
  generalize hblock : (if hit = true ∧ (type = .ST ∨ type = .ATOMIC) then
    Function.update s.block a
      { s.block a with
        l1D := (s.block a).l1D.map fun e => { e with dataBlk := driver e.dataBlk } }
    else s.block) = block
  have hkept : ∀ b, Held (block b) ∧ (block b).heldBy = (s.block b).heldBy := by
    intro b
    rw [← hblock]
    split
    · by_cases hb : b = a
      · rw [hb, Function.update_self]
        exact ⟨(h.block a).write driver, heldBy_write _ driver⟩
      · rw [Function.update_of_ne hb]
        exact ⟨h.block b, rfl⟩
    · exact ⟨h.block b, rfl⟩
  have hheld : (fun k b => (block b).heldBy k) = s.held := by
    funext k b
    exact congrFun (hkept b).2 k
  have hmemory : CacheMemories.Files (Function.update s.memory l c)
      fun k b => (block b).heldBy k := by
    rw [hheld]
    intro k
    by_cases hk : k = l
    · rw [hk, Function.update_self]
      exact hfiles
    · rw [Function.update_of_ne hk]
      exact h.memory k
  exact ⟨⟨fun b => (hkept b).1, hmemory⟩, [], (List.append_nil _).symm,
    fun b => keeps_inPlace (h.block b) (hkept b).2 _⟩

theorem remote (h : s.Invariant) (ha : a.IsLine) {event : L1Cache.Event}
    (he : event.isRemote = true) {inMsg : InMsg ι D}
    (hx : (L1Cache.doTransition event
      { id := s.id, driver := driver, inMsg := inMsg, cache := s.block a }).isSome = true) :
    Done s (s.doTransition event inMsg driver a) := by
  have ⟨x, hx⟩ := Option.isSome_iff_exists.mp hx
  exact h.doTransition ha ((h.block a).remote he hx _)

/-- A transition that does not fail is one of the cache. -/
theorem doTransition_isSome {event : L1Cache.Event}
    {inMsg : InMsg ι D} {s' : CacheLevels ι D}
    (hs : s.doTransition event inMsg driver a = some s') :
    (L1Cache.doTransition event
      { id := s.id, driver := driver, inMsg := inMsg, cache := s.block a }).isSome = true := by
  have ⟨state, hstate, hs⟩ := Option.bind_eq_some_iff.mp hs
  have ⟨next, hnext, hs⟩ := Option.bind_eq_some_iff.mp hs
  have ⟨m, _, hs⟩ := Option.bind_eq_some_iff.mp hs
  have ⟨x, hx, _⟩ := Option.map_eq_some_iff.mp hs
  exact Option.isSome_iff_exists.mpr ⟨x, hx⟩

theorem step [DecidableEq ι] (h : s.Invariant) {e : Event ι D} {s' : CacheLevels ι D}
    (hs : s.step e = some s') : s'.Invariant ∧ Follows s s' := by
  have hdone : ∀ {result}, Done s result → result = some s' → s'.Invariant ∧ Follows s s' := by
    intro result hdone heq
    have ⟨t, ht, hkept⟩ := hdone
    rw [heq] at ht
    exact Option.some.inj ht ▸ hkept
  have hremote : ∀ {event inMsg driver} (a : Line), event.isRemote = true →
      s.doTransition event inMsg driver a = some s' → s'.Invariant ∧ Follows s s' :=
    fun a he heq => hdone (h.remote a.2 he (doTransition_isSome heq)) heq
  cases e with
  | mandatory type address slots driver =>
    exact hdone (h.mandatoryQueue address.2 slots type) hs
  | access type address driver => exact hdone (h.access address.2 type) hs
  | trigger address driver =>
    unfold CacheLevels.step at hs
    dsimp only at hs
    split at hs
    · exact hremote address rfl hs
    · cases hs
  | forward address m =>
    have ⟨event, hevent, hs⟩ := Option.bind_eq_some_iff.mp hs
    exact hremote address (forwardToCache_isRemote hevent) hs
  | response address m =>
    have ⟨event, hevent, hs⟩ := Option.bind_eq_some_iff.mp hs
    exact hremote address (responseToCache_isRemote hevent) hs
  | advance cycles =>
    cases hs
    exact ⟨⟨h.block, h.memory⟩, [], (List.append_nil _).symm,
      fun a => keeps_inPlace (h.block a) rfl _⟩

theorem sound [DecidableEq ι] (h : s.Invariant) : s.Sound := by
  have hdone : ∀ {result}, Done s result → result.isSome = true := by
    intro result hdone
    have ⟨t, ht, _⟩ := hdone
    rw [ht]
    rfl
  exact
    { exclusive := fun a => h.exclusive a.2
      tags := fun a l => h.present a.2 l
      mandatoryQueue := fun slots type driver a => hdone (h.mandatoryQueue a.2 slots type)
      access := fun type driver a => hdone (h.access a.2 type)
      remote := fun event inMsg driver a he hx => hdone (h.remote a.2 he hx)
      follows := fun e s' hs => (h.step hs).2 }

end Invariant

theorem kept_apart_throughout [DecidableEq D] [Inhabited D] [DecidableEq ι] (g : CacheGeometry)
    (id : ι) (events : List (Event ι D)) :
    EventSystem.Throughout step Sound (initial g id) events :=
  (EventSystem.along_true step (initial g id) events).throughout (fun _ h => h.sound)
    (fun _ _ _ h _ hs => (h.step hs).1) (initial_invariant g id)

end CacheLevels
end FeS2.Ruby
