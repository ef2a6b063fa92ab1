import FeS2.Ruby.CacheLevels

/-!
What the operations on a tag array do to the set of the blocks it holds, and what the actions of
the controller do to the three of them.
-/

namespace FeS2.Ruby
open FeS2.Common

namespace CacheMemory

/-- The array has ways, and holds these blocks. -/
def Files (c : CacheMemory) (held : Address → Bool) : Prop :=
  0 < c.m_cache_assoc ∧
    ∃ time lastUse, (CacheRun.mk c time lastUse).Tracks ∧ ∀ b, (lastUse b).isSome = held b

theorem construct_files (blockBits numSetBits cacheAssoc : Nat) (h : numSetBits < 31)
    (hassoc : 0 < cacheAssoc) :
    (construct blockBits numSetBits cacheAssoc h).Files fun _ => false :=
  ⟨hassoc, 0, fun _ => none, CacheRun.init_tracks _ fun _ _ hp => hp rfl, fun _ => rfl⟩

namespace Files
variable {c : CacheMemory} {held : Address → Bool} {a : Address}

theorem line (h : c.Files held) (ha : held a = true) : a.IsLine := by
  have ⟨_, _, _, ht, hheld⟩ := h
  have ⟨cacheSet, i, hi⟩ := ht.found a ((hheld a).trans ha)
  have hset := (ht.entry cacheSet i a hi).1
  unfold addressToCacheSet at hset
  split at hset
  · next hline => exact hline
  · cases hset

theorem isTagPresent (h : c.Files held) (ha : a.IsLine) : c.isTagPresent a = some (held a) := by
  have ⟨_, _, _, ht, hheld⟩ := h
  rw [← hheld a]
  exact ht.isTagPresent ha

theorem lookup (h : c.Files held) (ha : held a = true) : ∃ cacheSet i,
    c.lookup a = some (cacheSet, i) ∧ c.Holds cacheSet i a := by
  have ⟨_, _, _, ht, hheld⟩ := h
  have hsome := ht.lookup_isSome (h.line ha)
  rw [hheld a, ha] at hsome
  have ⟨(cacheSet, i), hl⟩ := Option.isSome_iff_exists.mp hsome
  exact ⟨cacheSet, i, hl, (lookup_eq_some hl).2⟩

theorem cacheAvail (c : CacheMemory) (ha : a.IsLine) : ∃ avail, c.cacheAvail a = some avail := by
  have ⟨cacheSet, hset⟩ := c.addressToCacheSet_isSome ha
  unfold CacheMemory.cacheAvail
  rw [hset]
  exact ⟨_, rfl⟩

/-- A full set gives up one of the blocks it holds. -/
theorem cacheProbe (h : c.Files held) (havail : c.cacheAvail a = some false) :
    ∃ victim, c.cacheProbe a = some victim ∧ held victim = true := by
  have ⟨hassoc, _, _, ht, hheld⟩ := h
  have ⟨victim, hv⟩ := Option.isSome_iff_exists.mp (cacheProbe_isSome havail hassoc)
  have ⟨t, _, hlast, _⟩ := ht.cacheProbe hv
  exact ⟨victim, hv, (hheld victim).symm.trans (congrArg Option.isSome hlast)⟩

theorem allocate (h : c.Files held) (ha : a.IsLine) (habsent : held a = false)
    (havail : c.cacheAvail a = some true) (time : Nat) :
    ∃ c', c.allocate time a = some c' ∧ c'.Files (Function.update held a true) := by
  have hpresent := h.isTagPresent ha
  have ⟨hassoc, t₀, lastUse, ht, hheld⟩ := h
  have ⟨cacheSet, hset⟩ := c.addressToCacheSet_isSome ha
  have ⟨c', hc'⟩ : ∃ c', c.allocate time a = some c' := by
    rw [habsent] at hpresent
    unfold CacheMemory.allocate
    rw [if_pos ⟨hpresent, havail⟩, hset, Option.bind_some]
    -- the way that makes room is free, for the block is not there
    have ⟨i, hi, hway⟩ : ∃ i ∈ List.range c.m_cache_assoc,
        (c.m_cache cacheSet i).Permission = .NotPresent := by
      unfold CacheMemory.cacheAvail at havail
      rw [hset, Option.map_some, Option.some_inj, List.any_eq_true] at havail
      have ⟨i, hi, hway⟩ := havail
      refine ⟨i, hi, ?_⟩
      cases of_decide_eq_true hway with
      | inl htag =>
        by_contra hp
        have hlast := (ht.entry cacheSet i a ⟨List.mem_range.mp hi, htag, hp⟩).2
        have hsome := (hheld a).symm.trans (congrArg Option.isSome hlast)
        rw [habsent] at hsome
        cases hsome
      | inr hfree => exact hfree
    have hfound : ((List.range c.m_cache_assoc).find? fun i =>
        decide ((c.m_cache cacheSet i).Permission = .NotPresent)).isSome := by
      rw [List.find?_isSome]
      exact ⟨i, hi, decide_eq_true hway⟩
    have ⟨j, hj⟩ := Option.isSome_iff_exists.mp hfound
    exact ⟨_, by rw [hj]; rfl⟩
  have ht' : (CacheRun.mk c time lastUse).Tracks := ⟨ht.entry, ht.unique, ht.found⟩
  have hassoc' : c'.m_cache_assoc = c.m_cache_assoc := by
    unfold CacheMemory.allocate at hc'
    rw [if_pos ⟨habsent ▸ hpresent, havail⟩, hset, Option.bind_some] at hc'
    have ⟨_, _, he⟩ := Option.map_eq_some_iff.mp hc'
    rw [← he]
    rfl
  refine ⟨c', hc', hassoc'.symm ▸ hassoc, time, _, ht'.allocate hc', ?_⟩
  intro b
  unfold CacheRun.use
  rw [Function.update_apply]
  split
  · rfl
  · exact hheld b

theorem deallocate (h : c.Files held) (ha : held a = true) :
    ∃ c', c.deallocate a = some c' ∧ c'.Files (Function.update held a false) := by
  have ⟨cacheSet, i, hl, _⟩ := h.lookup ha
  have ⟨hassoc, time, lastUse, ht, hheld⟩ := h
  have hc' : c.deallocate a =
      some (c.setEntry cacheSet i { c.m_cache cacheSet i with Permission := .NotPresent }) := by
    unfold CacheMemory.deallocate
    rw [hl]
    rfl
  refine ⟨_, hc', hassoc, time, _, ht.deallocate hc', ?_⟩
  intro b
  rw [Function.update_apply]
  split
  · rfl
  · exact hheld b

/-- The way of a block is given new contents. -/
theorem setEntry (h : c.Files held) {cacheSet i : Nat} (hl : c.lookup a = some (cacheSet, i))
    (e : CacheEntry) (htag : e.Address = a) (hpresent : e.Permission ≠ .NotPresent) :
    (c.setEntry cacheSet i e).Files held := by
  have ⟨hassoc, time, lastUse, ht, hheld⟩ := h
  have hway := (lookup_eq_some hl).2
  refine ⟨hassoc, time, _, ht.touch hl (htag.trans hway.2.1.symm) hpresent, ?_⟩
  intro b
  dsimp only
  split
  · next hb =>
    rw [hb]
    exact ((hheld a).symm.trans (congrArg Option.isSome (ht.entry cacheSet i a hway).2)).symm
  · exact hheld b

theorem changePermission (h : c.Files held) (ha : held a = true) {permission : AccessPermission}
    (hp : permission ≠ .NotPresent) :
    ∃ c', c.changePermission a permission = some c' ∧ c'.Files held := by
  have ⟨cacheSet, i, hl, hway⟩ := h.lookup ha
  have hassert : permission = .Read_Write ∨ permission = .Read_Only ∨ permission = .Invalid := by
    cases permission with
    | NotPresent => exact absurd rfl hp
    | _ => simp
  refine ⟨_, ?_, h.setEntry hl { c.m_cache cacheSet i with Permission := permission } hway.2.1 hp⟩
  unfold CacheMemory.changePermission
  rw [if_pos hassert, hl]
  rfl

theorem tryCacheAccess (h : c.Files held) (ha : a.IsLine) (time : Nat) (type : CacheRequestType) :
    ∃ hit c', c.tryCacheAccess time a type = some (hit, c') ∧ c'.Files held := by
  have ⟨hassoc, t₀, lastUse, ht, hheld⟩ := h
  have ht' : (CacheRun.mk c time lastUse).Tracks := ⟨ht.entry, ht.unique, ht.found⟩
  have ⟨cacheSet, hset⟩ := c.addressToCacheSet_isSome ha
  have ⟨r, hr⟩ : ∃ r, c.tryCacheAccess time a type = some r := by
    unfold CacheMemory.tryCacheAccess
    rw [hset]
    exact ⟨_, rfl⟩
  have hassoc' : r.2.m_cache_assoc = c.m_cache_assoc := by
    unfold CacheMemory.tryCacheAccess at hr
    rw [hset, Option.map_some] at hr
    have hr := Option.some.inj hr
    rw [← hr]
    split
    · rfl
    · dsimp only
      split
      · rfl
      · split <;> rfl
  refine ⟨r.1, r.2, hr, hassoc'.symm ▸ hassoc, time, _, ht'.tryCacheAccess hr, ?_⟩
  intro b
  dsimp only
  split
  · next hused =>
    unfold CacheRun.use
    split
    · next hb =>
      rw [hb, ← hheld a, hused]
      rfl
    · exact hheld b
  · exact hheld b

end Files
end CacheMemory

namespace CacheMemories
open L1Cache

def Files (m : CacheMemories) (held : Location → Address → Bool) : Prop := ∀ l, (m l).Files (held l)

/-- The other blocks are held where they are, and this one at these places. -/
def place (held : Location → Address → Bool) (a : Address) (places : Location → Bool) :
    Location → Address → Bool :=
  fun l => Function.update (held l) a (places l)

theorem place_self (held : Location → Address → Bool) (a : Address) :
    place held a (fun l => held l a) = held := by
  funext l
  exact Function.update_eq_self a (held l)

theorem place_at {held : Location → Address → Bool} {places : Location → Bool} {l : Location}
    (a : Address) (hl : places l = true) : place held a places l a = true := by
  rw [place, Function.update_self, hl]

namespace Files
variable {m : CacheMemories} {held : Location → Address → Bool} {a : Address}
  {places : Location → Bool}

theorem present (h : m.Files (place held a places)) (ha : a.IsLine) (l : Location) :
    (m l).isTagPresent a = some (places l) := by
  have hl := (h l).isTagPresent ha
  rwa [place, Function.update_self] at hl

theorem modify (h : m.Files (place held a places)) {l : Location} {b : Bool}
    {f : CacheMemory → Option CacheMemory}
    (hf : ∃ c, f (m l) = some c ∧ c.Files (Function.update (place held a places l) a b)) :
    ∃ m', CacheMemories.modify l f m = some m' ∧
      m'.Files (place held a (Function.update places l b)) := by
  have ⟨c, hc, hfiles⟩ := hf
  refine ⟨Function.update m l c, ?_, ?_⟩
  · unfold CacheMemories.modify
    rw [hc]
    rfl
  · intro k
    by_cases hk : k = l
    · rw [hk, Function.update_self, place, Function.update_self]
      rwa [place, Function.update_idem] at hfiles
    · rw [Function.update_of_ne hk, place, Function.update_of_ne hk]
      exact h k

theorem modify_same (h : m.Files (place held a places)) {l : Location}
    {f : CacheMemory → Option CacheMemory}
    (hf : ∃ c, f (m l) = some c ∧ c.Files (place held a places l)) :
    ∃ m', CacheMemories.modify l f m = some m' ∧ m'.Files (place held a places) := by
  have ⟨c, hc, hfiles⟩ := hf
  have hupdate : Function.update (place held a places l) a (places l) = place held a places l := by
    rw [place, Function.update_idem]
  have hm := h.modify (b := places l) ⟨c, hc, hupdate.symm ▸ hfiles⟩
  rwa [Function.update_eq_self] at hm

theorem firstLevelOf (h : m.Files (place held a places)) (ha : a.IsLine) :
    CacheMemories.firstLevelOf a m = some (if places .l1D then .l1D else .l1I) := by
  unfold CacheMemories.firstLevelOf
  rw [h.present ha]
  rfl

theorem allocate (h : m.Files (place held a places)) (ha : a.IsLine) {l : Location}
    (habsent : places l = false) (havail : (m l).cacheAvail a = some true) (time : Nat) :
    ∃ m', CacheMemories.modify l (·.allocate time a) m = some m' ∧
      m'.Files (place held a (Function.update places l true)) := by
  refine h.modify ((h l).allocate ha ?_ havail time)
  rw [place, Function.update_self, habsent]

theorem deallocate (h : m.Files (place held a places)) {l : Location} (hl : places l = true) :
    ∃ m', CacheMemories.modify l (·.deallocate a) m = some m' ∧
      m'.Files (place held a (Function.update places l false)) :=
  h.modify ((h l).deallocate (place_at a hl))

theorem copy (h : m.Files (place held a places)) {source target : Location}
    (hs : places source = true) (ht : places target = true) :
    ∃ m', CacheMemories.copy source target a m = some m' ∧ m'.Files (place held a places) := by
  have ⟨cacheSet, i, hl, hway⟩ := (h source).lookup (place_at a hs)
  have ⟨s, j, hl', _⟩ := (h target).lookup (place_at a ht)
  unfold CacheMemories.copy
  rw [hl, Option.bind_some]
  refine h.modify_same ⟨_, ?_, (h target).setEntry hl' _ hway.2.1 hway.2.2⟩
  rw [hl']
  rfl

theorem exclusive (h : m.Files (place held a places)) (ha : a.IsLine)
    (hone : ∀ l k, places l = true → places k = true → l = k) :
    CacheMemories.exclusive a m = some true := by
  unfold CacheMemories.exclusive
  rw [h.present ha, h.present ha, h.present ha]
  cases hD : places .l1D with
  | true =>
    cases hI : places .l1I with
    | true => cases hone _ _ hD hI
    | false =>
      cases h2 : places .l2 with
      | true => cases hone _ _ hD h2
      | false => rfl
  | false =>
    cases hI : places .l1I with
    | true =>
      cases h2 : places .l2 with
      | true => cases hone _ _ hI h2
      | false => rfl
    | false => rfl

theorem setState (h : m.Files (place held a places)) (ha : a.IsLine)
    (hone : ∀ l k, places l = true → places k = true → l = k) (state : State) :
    ∃ m', CacheMemories.setState state a m = some m' ∧ m'.Files (place held a places) := by
  have hperm : state.permission ≠ .NotPresent := by
    cases state <;> (intro hp; cases hp)
  have hchange : ∀ l, places l = true → ∃ m',
      CacheMemories.modify l (·.changePermission a state.permission) m = some m' ∧
        m'.Files (place held a places) := fun l hl =>
    h.modify_same ((h l).changePermission (place_at a hl) hperm)
  unfold CacheMemories.setState CacheMemories.isCacheTagPresent CacheMemories.changePermission
  rw [if_pos (h.exclusive ha hone), h.present ha, h.present ha, h.present ha, h.firstLevelOf ha]
  simp only [Option.bind_some, Option.map_some]
  cases h2 : places .l2 with
  | true => exact hchange _ h2
  | false =>
    cases hD : places .l1D with
    | true => exact hchange _ hD
    | false =>
      cases hI : places .l1I with
      | true => exact hchange _ hI
      | false => exact ⟨m, rfl, h⟩

end Files
end CacheMemories

/-! The actions -/

namespace L1Cache
variable {ι D : Type}

def heldBy (c : L1Cache D) (l : Location) : Bool := (c.entry l).isSome

def firstLevelIn (q : Location → Bool) : Location := if q .l1D then .l1D else .l1I

/-- Where an action leaves the block, if it finds it as it has to and there is room. -/
def Action.place (room q : Location → Bool) : Action → Option (Location → Bool)
  | .kk_deallocateL1CacheBlock =>
      if q (firstLevelIn q) then some (Function.update q (firstLevelIn q) false) else none
  | .ii_allocateL1DCacheBlock =>
      if q .l1D then some q
      else if room .l1D then some (Function.update q .l1D true) else none
  | .jj_allocateL1ICacheBlock =>
      if q .l1I then some q
      else if room .l1I then some (Function.update q .l1I true) else none
  | .vv_allocateL2CacheBlock =>
      if !q .l2 && room .l2 then some (Function.update q .l2 true) else none
  | .pp_deallocateL2CacheBlock => if q .l2 then some (Function.update q .l2 false) else none
  | .ss_copyFromL1toL2 | .tt_copyFromL2toL1 =>
      if q .l2 && q (firstLevelIn q) then some q else none
  | _ => some q

/-- Only the first action needs room. -/
def placeAll (room : Location → Bool) : List Action → (Location → Bool) → Option (Location → Bool)
  | [], q => some q
  | action :: actions, q => (action.place room q).bind (placeAll (fun _ => false) actions)

/-- The actions that leave the tag arrays alone. -/
def Action.stays : Action → Bool
  | .kk_deallocateL1CacheBlock | .ii_allocateL1DCacheBlock | .jj_allocateL1ICacheBlock
  | .vv_allocateL2CacheBlock | .pp_deallocateL2CacheBlock | .ss_copyFromL1toL2
  | .tt_copyFromL2toL1 => false
  | _ => true

def Action.leavesTBE : Action → Bool → Bool
  | .i_allocateTBE, _ => true
  | .s_deallocateTBE, _ => false
  | _, tbe => tbe

def leavesTBE (actions : List Action) (tbe : Bool) : Bool :=
  actions.foldl (fun tbe action => action.leavesTBE tbe) tbe

theorem heldBy_setCacheEntry (f : Entry D → Entry D) (c : L1Cache D) :
    (c.setCacheEntry f).heldBy = c.heldBy := by
  funext l
  unfold setCacheEntry
  split
  · cases l <;> simp [heldBy, entry]
  · split
    · cases l <;> simp [heldBy, entry]
    · cases l <;> simp [heldBy, entry]

theorem setCacheEntry_tbe (f : Entry D → Entry D) (c : L1Cache D) :
    (c.setCacheEntry f).tbe = c.tbe := by
  unfold setCacheEntry
  split
  · rfl
  · split <;> rfl

theorem heldBy_setState {state : State} {c c' : L1Cache D} (h : c.setState state = some c') :
    c'.heldBy = c.heldBy := by
  unfold setState at h
  split at h
  · cases h
    rw [heldBy_setCacheEntry]
    funext l
    cases l <;> rfl
  · cases h

variable [DecidableEq D] [Inhabited D]

theorem perform_stays {x x' : Context ι D} {action : Action} (hstays : action.stays = true)
    (h : action.perform x = some x') : x'.cache.heldBy = x.cache.heldBy ∧
      x'.cache.tbe.isSome = action.leavesTBE x.cache.tbe.isSome := by
  have hset : ∀ f : Entry D → Entry D, (x.cache.setCacheEntry f).heldBy = x.cache.heldBy ∧
      (x.cache.setCacheEntry f).tbe.isSome = x.cache.tbe.isSome := fun f =>
    ⟨heldBy_setCacheEntry f x.cache, congrArg Option.isSome (setCacheEntry_tbe f x.cache)⟩
  have htbe : ∀ (tbe : Option (TBE D)) n,
      ({ x.cache with tbe := tbe, triggerQueue := n } : L1Cache D).heldBy = x.cache.heldBy := by
    intro tbe n
    funext l
    cases l <;> rfl
  cases action with
  | kk_deallocateL1CacheBlock | ii_allocateL1DCacheBlock | jj_allocateL1ICacheBlock
  | vv_allocateL2CacheBlock | pp_deallocateL2CacheBlock | ss_copyFromL1toL2
  | tt_copyFromL2toL1 => cases hstays
  | v_writeDataToCacheVerify =>
    have ⟨_, _, h⟩ := Option.bind_eq_some_iff.mp h
    have ⟨_, _, h⟩ := Option.bind_eq_some_iff.mp h
    split at h
    · cases h
      exact hset _
    · cases h
  | u_writeDataToCache =>
    have ⟨_, _, h⟩ := Option.bind_eq_some_iff.mp h
    have ⟨_, _, h⟩ := Option.map_eq_some_iff.mp h
    rw [← h]
    exact hset _
  | hh_store_hit =>
    have ⟨_, _, h⟩ := Option.map_eq_some_iff.mp h
    rw [← h]
    exact hset _
  | m_decrementNumberOfMessages | mm_decrementNumberOfMessages =>
    have ⟨_, _, h⟩ := Option.bind_eq_some_iff.mp h
    have ⟨_, ht, h⟩ := Option.map_eq_some_iff.mp h
    rw [← h]
    exact ⟨htbe _ _, (congrArg Option.isSome ht).symm⟩
  | e_sendData | ee_sendDataExclusive | q_sendDataFromTBEToCache =>
    have ⟨_, _, h⟩ := Option.bind_eq_some_iff.mp h
    have ⟨_, _, h⟩ := Option.map_eq_some_iff.mp h
    rw [← h]
    exact ⟨rfl, rfl⟩
  | i_allocateTBE | s_deallocateTBE | o_checkForCompletion =>
    have ⟨_, _, h⟩ := Option.map_eq_some_iff.mp h
    rw [← h]
    exact ⟨htbe _ _, rfl⟩
  | d_issueCleanPUT | dd_issueDirtyPUT | f_sendAck | h_load_hit =>
    have ⟨_, _, h⟩ := Option.map_eq_some_iff.mp h
    cases h
    exact ⟨rfl, rfl⟩
  | j_popTriggerQueue =>
    cases h
    exact ⟨htbe _ _, rfl⟩
  | _ =>
    cases h
    exact ⟨rfl, rfl⟩

theorem foldlM_stays {x x' : Context ι D} {actions : List Action}
    (hstays : ∀ action ∈ actions, action.stays = true)
    (h : actions.foldlM Action.perform x = some x') : x'.cache.heldBy = x.cache.heldBy ∧
      x'.cache.tbe.isSome = leavesTBE actions x.cache.tbe.isSome := by
  induction actions generalizing x with
  | nil =>
    cases h
    exact ⟨rfl, rfl⟩
  | cons action actions ih =>
    rw [List.foldlM_cons] at h
    have ⟨y, hy, h⟩ := Option.bind_eq_some_iff.mp h
    have ⟨hheld, htbe⟩ := perform_stays (hstays action (.head _)) hy
    have ⟨hheld', htbe'⟩ := ih (fun b hb => hstays b (.tail _ hb)) h
    refine ⟨hheld'.trans hheld, htbe'.trans ?_⟩
    rw [htbe]
    rfl

theorem place_stays {action : Action} (h : action.stays = true) (room q : Location → Bool) :
    action.place room q = some q := by
  cases action <;> first | rfl | cases h

theorem placeAll_stays {actions : List Action} (h : ∀ action ∈ actions, action.stays = true)
    (room q : Location → Bool) : placeAll room actions q = some q := by
  induction actions generalizing room with
  | nil => rfl
  | cons action actions ih =>
    unfold placeAll
    rw [place_stays (h action (.head _)), Option.bind_some]
    exact ih (fun b hb => h b (.tail _ hb)) _

section
variable {x x' : Context ι D}

theorem kk_held (h : Action.perform x .kk_deallocateL1CacheBlock = some x') :
    x'.cache.heldBy =
      Function.update x.cache.heldBy (firstLevelIn x.cache.heldBy) false := by
  obtain ⟨id, driver, inMsg, ⟨l1I, l1D, l2, tbe, n⟩, popped, requests, responses, unblocks, loads,
    stores⟩ := x
  cases l1D with
  | some e =>
    cases h
    funext l
    cases l <;> rfl
  | none =>
    cases l1I with
    | some e =>
      cases h
      funext l
      cases l <;> rfl
    | none => cases h

theorem ii_held (h : Action.perform x .ii_allocateL1DCacheBlock = some x') :
    x'.cache.heldBy = Function.update x.cache.heldBy .l1D true := by
  obtain ⟨id, driver, inMsg, ⟨l1I, l1D, l2, tbe, n⟩, popped, requests, responses, unblocks, loads,
    stores⟩ := x
  cases l1D <;> cases h <;> (funext l; cases l <;> rfl)

theorem jj_held (h : Action.perform x .jj_allocateL1ICacheBlock = some x') :
    x'.cache.heldBy = Function.update x.cache.heldBy .l1I true := by
  obtain ⟨id, driver, inMsg, ⟨l1I, l1D, l2, tbe, n⟩, popped, requests, responses, unblocks, loads,
    stores⟩ := x
  cases l1I <;> cases h <;> (funext l; cases l <;> rfl)

theorem vv_held (h : Action.perform x .vv_allocateL2CacheBlock = some x') :
    x'.cache.heldBy = Function.update x.cache.heldBy .l2 true := by
  obtain ⟨id, driver, inMsg, ⟨l1I, l1D, l2, tbe, n⟩, popped, requests, responses, unblocks, loads,
    stores⟩ := x
  cases l2 <;> cases h
  funext l
  cases l <;> rfl

theorem pp_held (h : Action.perform x .pp_deallocateL2CacheBlock = some x') :
    x'.cache.heldBy = Function.update x.cache.heldBy .l2 false := by
  obtain ⟨id, driver, inMsg, ⟨l1I, l1D, l2, tbe, n⟩, popped, requests, responses, unblocks, loads,
    stores⟩ := x
  cases l2 <;> cases h
  funext l
  cases l <;> rfl

/-- A copy goes where the block has an entry. -/
theorem ss_held (h : Action.perform x .ss_copyFromL1toL2 = some x')
    (h2 : x.cache.heldBy .l2 = true) : x'.cache.heldBy = x.cache.heldBy := by
  obtain ⟨id, driver, inMsg, ⟨l1I, l1D, l2, tbe, n⟩, popped, requests, responses, unblocks, loads,
    stores⟩ := x
  cases l2 with
  | none => cases h2
  | some e₂ => cases l1D <;> cases l1I <;> cases h <;> (funext l; cases l <;> rfl)

theorem tt_held (h : Action.perform x .tt_copyFromL2toL1 = some x')
    (h1 : x.cache.heldBy (firstLevelIn x.cache.heldBy) = true) :
    x'.cache.heldBy = x.cache.heldBy := by
  obtain ⟨id, driver, inMsg, ⟨l1I, l1D, l2, tbe, n⟩, popped, requests, responses, unblocks, loads,
    stores⟩ := x
  cases l1D with
  | some e =>
    cases l2 <;> cases h
    funext l
    cases l <;> rfl
  | none =>
    cases l1I with
    | some e =>
      cases l2 <;> cases h
      funext l
      cases l <;> rfl
    | none => cases h1

theorem perform_place {action : Action} {room q : Location → Bool}
    (h : action.perform x = some x') (hq : action.place room x.cache.heldBy = some q) :
    x'.cache.heldBy = q := by
  cases hstays : action.stays with
  | true =>
    rw [place_stays hstays] at hq
    exact (perform_stays hstays h).1.trans (Option.some.inj hq)
  | false =>
    unfold Action.place at hq
    cases action with
    | kk_deallocateL1CacheBlock =>
      dsimp only at hq
      split at hq <;> cases hq
      exact kk_held h
    | ii_allocateL1DCacheBlock =>
      dsimp only at hq
      split at hq
      · next hin =>
        cases hq
        rw [ii_held h, ← hin, Function.update_eq_self]
      · split at hq <;> cases hq
        exact ii_held h
    | jj_allocateL1ICacheBlock =>
      dsimp only at hq
      split at hq
      · next hin =>
        cases hq
        rw [jj_held h, ← hin, Function.update_eq_self]
      · split at hq <;> cases hq
        exact jj_held h
    | vv_allocateL2CacheBlock =>
      dsimp only at hq
      split at hq <;> cases hq
      exact vv_held h
    | pp_deallocateL2CacheBlock =>
      dsimp only at hq
      split at hq <;> cases hq
      exact pp_held h
    | ss_copyFromL1toL2 =>
      dsimp only at hq
      split at hq
      · next hin =>
        cases hq
        exact ss_held h (Bool.and_eq_true_iff.mp hin).1
      · cases hq
    | tt_copyFromL2toL1 =>
      dsimp only at hq
      split at hq
      · next hin =>
        cases hq
        exact tt_held h (Bool.and_eq_true_iff.mp hin).2
      · cases hq
    | _ => cases hstays

theorem foldlM_place {actions : List Action} {room q : Location → Bool}
    (h : actions.foldlM Action.perform x = some x')
    (hq : placeAll room actions x.cache.heldBy = some q) : x'.cache.heldBy = q := by
  induction actions generalizing x room with
  | nil =>
    cases h
    exact Option.some.inj hq
  | cons action actions ih =>
    rw [List.foldlM_cons] at h
    have ⟨y, hy, h⟩ := Option.bind_eq_some_iff.mp h
    have ⟨q', hq', hq⟩ := Option.bind_eq_some_iff.mp hq
    rw [← perform_place hy hq'] at hq
    exact ih h hq

theorem doTransition_place {event : Event} {state : State} {next : State × List Action}
    {room q : Location → Bool} (hx : doTransition event x = some x')
    (hstate : x.cache.getState = some state) (hnext : transition state event = some next)
    (hq : placeAll room next.2 x.cache.heldBy = some q) : x'.cache.heldBy = q := by
  unfold doTransition at hx
  rw [hstate, Option.bind_some, hnext, Option.bind_some] at hx
  have ⟨y, hy, hx⟩ := Option.bind_eq_some_iff.mp hx
  have ⟨c, hc, hx⟩ := Option.map_eq_some_iff.mp hx
  rw [← hx]
  exact (heldBy_setState hc).trans (foldlM_place hy hq)

end
end L1Cache

namespace CacheMemories
open L1Cache
variable {m : CacheMemories} {held : Location → Address → Bool} {a : Address}
  {places room q : Location → Bool}

/-- An action that finds the block as it has to succeeds. -/
theorem Files.perform (h : m.Files (place held a places)) (ha : a.IsLine) {action : Action}
    (hroom : ∀ l, room l = true → (m l).cacheAvail a = some true)
    (hq : action.place room places = some q) (time : Nat) :
    ∃ m', m.perform time a action = some m' ∧ m'.Files (place held a q) := by
  have hfirst : CacheMemories.firstLevelOf a m = some (firstLevelIn places) := h.firstLevelOf ha
  have hnew : ∀ l, places l = false → room l = true → ∃ m',
      allocateIfAbsent time l a m = some m' ∧
        m'.Files (place held a (Function.update places l true)) := by
    intro l habsent hr
    unfold allocateIfAbsent
    rw [h.present ha, Option.bind_some, habsent]
    exact h.allocate ha habsent (hroom l hr) time
  have hthere : ∀ l, places l = true → ∃ m', allocateIfAbsent time l a m = some m' ∧
      m'.Files (place held a places) := by
    intro l hl
    unfold allocateIfAbsent
    rw [h.present ha, Option.bind_some, if_pos hl]
    exact ⟨m, rfl, h⟩
  cases hstays : action.stays with
  | true =>
    rw [place_stays hstays] at hq
    cases hq
    refine ⟨m, ?_, h⟩
    cases action <;> first | rfl | cases hstays
  | false =>
    unfold Action.place at hq
    unfold CacheMemories.perform
    cases action with
    | kk_deallocateL1CacheBlock =>
      dsimp only at hq ⊢
      split at hq
      · next hin =>
        cases hq
        rw [hfirst, Option.bind_some]
        exact h.deallocate hin
      · cases hq
    | ii_allocateL1DCacheBlock =>
      dsimp only at hq ⊢
      split at hq
      · next hin =>
        cases hq
        exact hthere _ hin
      · next hout =>
        split at hq
        · next hr =>
          cases hq
          exact hnew _ (eq_false_of_ne_true hout) hr
        · cases hq
    | jj_allocateL1ICacheBlock =>
      dsimp only at hq ⊢
      split at hq
      · next hin =>
        cases hq
        exact hthere _ hin
      · next hout =>
        split at hq
        · next hr =>
          cases hq
          exact hnew _ (eq_false_of_ne_true hout) hr
        · cases hq
    | vv_allocateL2CacheBlock =>
      dsimp only at hq ⊢
      split at hq
      · next hin =>
        cases hq
        have ⟨hout, hr⟩ := Bool.and_eq_true_iff.mp hin
        exact h.allocate ha ((Bool.not_eq_true' _).mp hout) (hroom _ hr) time
      · cases hq
    | pp_deallocateL2CacheBlock =>
      dsimp only at hq ⊢
      split at hq
      · next hin =>
        cases hq
        exact h.deallocate hin
      · cases hq
    | ss_copyFromL1toL2 =>
      dsimp only at hq ⊢
      split at hq
      · next hin =>
        cases hq
        have ⟨h2, h1⟩ := Bool.and_eq_true_iff.mp hin
        rw [hfirst, Option.bind_some]
        exact h.copy h1 h2
      · cases hq
    | tt_copyFromL2toL1 =>
      dsimp only at hq ⊢
      split at hq
      · next hin =>
        cases hq
        have ⟨h2, h1⟩ := Bool.and_eq_true_iff.mp hin
        rw [hfirst, Option.bind_some]
        exact h.copy h2 h1
      · cases hq
    | _ => cases hstays

theorem Files.foldlM (h : m.Files (place held a places)) (ha : a.IsLine) {actions : List Action}
    (hroom : ∀ l, room l = true → (m l).cacheAvail a = some true)
    (hq : placeAll room actions places = some q) (time : Nat) :
    ∃ m', actions.foldlM (CacheMemories.perform time a) m = some m' ∧
      m'.Files (place held a q) := by
  induction actions generalizing m places room with
  | nil =>
    cases hq
    exact ⟨m, rfl, h⟩
  | cons action actions ih =>
    have ⟨q', hq', hq⟩ := Option.bind_eq_some_iff.mp hq
    have ⟨m', hm', hfiles⟩ := h.perform ha hroom hq' time
    rw [List.foldlM_cons, hm']
    refine ih hfiles ?_ hq
    rintro l ⟨⟩

end CacheMemories
end FeS2.Ruby
