import FeS2.Ruby.CacheMemory

/-!
What holds of the sets of a cache in every run: a set has a block once and no more blocks than
ways, the searches find the blocks in use, and the victim of a full set is the one used longest
ago.
-/

namespace FeS2.Ruby
open FeS2.Common EventSystem

theorem CacheMemory.cacheProbe_isSome {c : CacheMemory} {a : Address}
    (havail : c.cacheAvail a = some false) (hassoc : 0 < c.m_cache_assoc) :
    (c.cacheProbe a).isSome := by
  cases hset : c.addressToCacheSet a with
  | none =>
    unfold cacheAvail at havail
    simp [hset] at havail
  | some cacheSet =>
    have hfull := (cacheAvail_eq_false hset).mp havail
    have hways : ∀ i ∈ List.range c.m_cache_assoc, c.Present cacheSet i :=
      fun i hi => (hfull i (List.mem_range.mp hi)).2
    have ⟨k, hk⟩ := probeLoop_isSome 0 hways
    unfold cacheProbe
    rw [if_pos ⟨havail, hassoc⟩, hset, Option.bind_some, hk]
    rfl

namespace CacheRun
namespace Tracks
variable {s s' : CacheRun} {a : Address} {cacheSet i : Nat}

theorem lastUse_isSome (h : s.Tracks) (hset : s.cache.addressToCacheSet a = some cacheSet) :
    (s.lastUse a).isSome = (s.cache.findTagInSet cacheSet a).isSome := by
  rw [Bool.eq_iff_iff]
  constructor
  · intro ha
    have ⟨t, j, hj⟩ := h.found a ha
    have ht := (h.entry t j a hj).1
    rw [hset] at ht
    rw [Option.some.inj ht]
    exact CacheMemory.findTagInSet_isSome hj
  · intro hf
    have ⟨j, hj⟩ := Option.isSome_iff_exists.mp hf
    rw [(h.entry cacheSet j a (CacheMemory.findTagInSet_eq_some hj)).2]
    rfl

theorem allocate (h : s.Tracks) {c : CacheMemory} (hc : s.cache.allocate s.time a = some c) :
    Tracks { s with cache := c, lastUse := s.use a } := by
  unfold CacheMemory.allocate at hc
  split at hc
  · rename_i hassert
    have ⟨hpresent, _⟩ := hassert
    cases hset : s.cache.addressToCacheSet a with
    | none => simp [hset] at hc
    | some t =>
      simp only [hset, Option.bind_some, Option.map_eq_some_iff] at hc
      have ⟨j, hj, hc'⟩ := hc
      have hfree : (s.cache.m_cache t j).Permission = .NotPresent := by
        simpa using List.find?_some hj
      have hlt := List.mem_range.mp (List.mem_of_find?_eq_some hj)
      have habsent : s.cache.findTagInSet t a = none := by
        unfold CacheMemory.isTagPresent at hpresent
        simpa [hset] using hpresent
      rw [← hc']
      apply h.put hset hlt
      · intro b hb
        exact absurd hfree hb.2.2
      · intro k hk
        have hsome := CacheMemory.findTagInSet_isSome hk
        rw [habsent] at hsome
        cases hsome
      · rfl
      · intro hperm
        cases hperm
  · cases hc

theorem deallocate (h : s.Tracks) {c : CacheMemory} (hc : s.cache.deallocate a = some c) :
    Tracks
      { s with cache := c, lastUse := fun b => if b = a then none else s.lastUse b } := by
  unfold CacheMemory.deallocate at hc
  rw [Option.map_eq_some_iff] at hc
  have ⟨(t, j), hl, hc'⟩ := hc
  rw [← hc']
  exact h.drop hl rfl

theorem changePermission (h : s.Tracks) {c : CacheMemory} {new_perm : AccessPermission}
    (hc : s.cache.changePermission a new_perm = some c) : Tracks { s with cache := c } := by
  unfold CacheMemory.changePermission at hc
  split at hc
  · rename_i hassert
    rw [Option.map_eq_some_iff] at hc
    have ⟨(t, j), hl, hc'⟩ := hc
    have hperm : new_perm ≠ .NotPresent := by
      intro hn
      rw [hn] at hassert
      simp at hassert
    have hsame : (fun b => if b = a then some (s.cache.m_cache t j).LastRef else s.lastUse b) =
        s.lastUse := by
      funext b
      by_cases hb : b = a
      · rw [if_pos hb, hb, (h.entry t j a (CacheMemory.lookup_eq_some hl).2).2]
      · rw [if_neg hb]
    have hput := h.touch hl
      (e := { s.cache.m_cache t j with Permission := new_perm }) rfl hperm
    simp only [hsame] at hput
    rw [← hc']
    exact hput
  · cases hc

theorem refresh (h : s.Tracks) (hl : s.cache.lookup a = some (cacheSet, i)) :
    Tracks
      { s with
        cache := s.cache.setEntry cacheSet i
          { s.cache.m_cache cacheSet i with LastRef := s.time }
        lastUse := s.use a } :=
  h.touch hl rfl (CacheMemory.lookup_eq_some hl).2.2.2

theorem setMRU (h : s.Tracks) {c : CacheMemory} (hc : s.cache.setMRU s.time a = some c) :
    Tracks { s with cache := c, lastUse := s.use a } := by
  unfold CacheMemory.setMRU at hc
  rw [Option.map_eq_some_iff] at hc
  have ⟨(t, j), hl, hc'⟩ := hc
  rw [← hc']
  exact h.refresh hl

theorem tryCacheAccess (h : s.Tracks) {type : CacheRequestType} {r : Bool × CacheMemory}
    (hr : s.cache.tryCacheAccess s.time a type = some r) :
    Tracks
      { s with
        cache := r.2
        lastUse := if (s.lastUse a).isSome then s.use a else s.lastUse } := by
  unfold CacheMemory.tryCacheAccess at hr
  cases hset : s.cache.addressToCacheSet a with
  | none => simp [hset] at hr
  | some t =>
    rw [h.lastUse_isSome hset]
    simp only [hset, Option.map_some, Option.some.injEq] at hr
    cases hf : s.cache.findTagInSet t a with
    | none =>
      simp only [hf] at hr
      rw [← hr]
      exact h
    | some j =>
      simp only [hf] at hr
      have hl : s.cache.lookup a = some (t, j) := by
        unfold CacheMemory.lookup
        rw [hset, Option.bind_some, hf]
        rfl
      have hcache : r.2 = s.cache.setEntry t j { s.cache.m_cache t j with LastRef := s.time } := by
        rw [← hr]
        split
        · rfl
        · split
          · rfl
          · rfl
      rw [hcache]
      exact h.refresh hl

theorem step (h : s.Tracks) {op : CacheOp} (hs : s.step op = some s') : s'.Tracks := by
  cases op with
  | advance cycles =>
    rw [← Option.some.inj hs]
    exact { entry := h.entry, unique := h.unique, found := h.found }
  | allocate address =>
    have ⟨c, hc, hs'⟩ := Option.map_eq_some_iff.mp hs
    rw [← hs']
    exact h.allocate hc
  | deallocate address =>
    have ⟨c, hc, hs'⟩ := Option.map_eq_some_iff.mp hs
    rw [← hs']
    exact h.deallocate hc
  | changePermission address new_perm =>
    have ⟨c, hc, hs'⟩ := Option.map_eq_some_iff.mp hs
    rw [← hs']
    exact h.changePermission hc
  | setMRU address =>
    have ⟨c, hc, hs'⟩ := Option.map_eq_some_iff.mp hs
    rw [← hs']
    exact h.setMRU hc
  | tryCacheAccess address type =>
    have ⟨r, hr, hs'⟩ := Option.map_eq_some_iff.mp hs
    rw [← hs']
    exact h.tryCacheAccess hr

/-! What follows for a state. -/

theorem isTagPresent (h : s.Tracks) (ha : a.IsLine) :
    s.cache.isTagPresent a = some (s.lastUse a).isSome := by
  have ⟨t, ht⟩ := s.cache.addressToCacheSet_isSome ha
  unfold CacheMemory.isTagPresent
  rw [ht, h.lastUse_isSome ht]
  rfl

theorem lookup_isSome (h : s.Tracks) (ha : a.IsLine) :
    (s.cache.lookup a).isSome = (s.lastUse a).isSome := by
  have ⟨t, ht⟩ := s.cache.addressToCacheSet_isSome ha
  unfold CacheMemory.lookup
  rw [ht, h.lastUse_isSome ht]
  simp

/-- Each block of a set has a way of its own. -/
theorem blocks_le_assoc (h : s.Tracks) {blocks : List Address} (hnodup : blocks.Nodup)
    (hblocks : ∀ b ∈ blocks,
      s.cache.addressToCacheSet b = some cacheSet ∧ (s.lastUse b).isSome) :
    blocks.length ≤ s.cache.m_cache_assoc := by
  have hway : ∀ b ∈ blocks,
      s.cache.Holds cacheSet ((s.cache.findTagInSet cacheSet b).getD 0) b := by
    intro b hb
    have ⟨hset, hlast⟩ := hblocks b hb
    rw [h.lastUse_isSome hset] at hlast
    have ⟨j, hj⟩ := Option.isSome_iff_exists.mp hlast
    rw [hj]
    exact CacheMemory.findTagInSet_eq_some hj
  have hmap : (blocks.map fun b => (s.cache.findTagInSet cacheSet b).getD 0).Nodup := by
    apply hnodup.map_on
    intro b hb c hc heq
    have hb' := (hway b hb).2.1
    rw [heq, (hway c hc).2.1] at hb'
    exact hb'.symm
  have hsub : (blocks.map fun b => (s.cache.findTagInSet cacheSet b).getD 0) ⊆
      List.range s.cache.m_cache_assoc := by
    intro j hj
    have ⟨b, hb, hbj⟩ := List.mem_map.mp hj
    rw [← hbj]
    exact List.mem_range.mpr (hway b hb).1
  have hlen := (List.subperm_of_subset hmap hsub).length_le
  rw [List.length_map, List.length_range] at hlen
  exact hlen

/-- That there is no room means that the set is full and the block is not in it. -/
theorem cacheAvail_eq_false (h : s.Tracks)
    (hset : s.cache.addressToCacheSet a = some cacheSet) :
    s.cache.cacheAvail a = some false ↔
      s.lastUse a = none ∧ ∀ i, i < s.cache.m_cache_assoc → s.cache.Present cacheSet i := by
  rw [CacheMemory.cacheAvail_eq_false hset]
  constructor
  · intro hall
    refine ⟨?_, fun j hj => (hall j hj).2⟩
    rw [← Option.not_isSome_iff_eq_none]
    intro ha
    have ⟨t, j, hj⟩ := h.found a ha
    have ht := (h.entry t j a hj).1
    rw [hset] at ht
    have ht' : cacheSet = t := Option.some.inj ht
    rw [← ht'] at hj
    exact (hall j hj.1).1 hj.2.1
  · intro ⟨hnone, hall⟩ j hj
    refine ⟨?_, hall j hj⟩
    intro htag
    have hlast := (h.entry cacheSet j a ⟨hj, htag, hall j hj⟩).2
    rw [hnone] at hlast
    cases hlast

theorem cacheProbe (h : s.Tracks) {v : Address} (hv : s.cache.cacheProbe a = some v) :
    ∃ t, s.cache.addressToCacheSet v = s.cache.addressToCacheSet a ∧ s.lastUse v = some t ∧
      ∀ b u, s.cache.addressToCacheSet b = s.cache.addressToCacheSet a →
        s.lastUse b = some u → t ≤ u := by
  unfold CacheMemory.cacheProbe at hv
  split at hv
  · rename_i hassert
    have ⟨havail, hassoc⟩ := hassert
    cases hset : s.cache.addressToCacheSet a with
    | none => simp [hset] at hv
    | some cacheSet =>
      simp only [hset, Option.bind_some, Option.map_eq_some_iff] at hv
      have ⟨k, hk, hkv⟩ := hv
      have ⟨hmem, _, hmin⟩ := CacheMemory.probeLoop_min hk
      have hfull := ((CacheMemory.cacheAvail_eq_false hset).mp havail)
      have hlt : k < s.cache.m_cache_assoc := by
        cases hmem with
        | inl h0 => rw [h0]; exact hassoc
        | inr h0 => exact List.mem_range.mp h0
      have ⟨hvset, hvlast⟩ := h.entry cacheSet k v ⟨hlt, hkv, (hfull k hlt).2⟩
      refine ⟨_, hvset, hvlast, ?_⟩
      intro b u hbset hblast
      have hsome : (s.lastUse b).isSome := by rw [hblast]; rfl
      have ⟨t, j, hj⟩ := h.found b hsome
      have ⟨hjset, hjlast⟩ := h.entry t j b hj
      rw [hbset] at hjset
      rw [hblast] at hjlast
      rw [Option.some.inj hjlast, ← Option.some.inj hjset]
      exact hmin j (List.mem_range.mpr hj.1)
  · cases hv

end Tracks

/-- What a cache promises in a state, `lastUse` telling the blocks in use. -/
structure Sound (s : CacheRun) : Prop where
  one_entry : ∀ cacheSet i j a,
    s.cache.Holds cacheSet i a → s.cache.Holds cacheSet j a → i = j
  at_most_assoc : ∀ cacheSet (blocks : List Address), blocks.Nodup →
    (∀ b ∈ blocks, s.cache.addressToCacheSet b = some cacheSet ∧ (s.lastUse b).isSome) →
      blocks.length ≤ s.cache.m_cache_assoc
  present : ∀ a, a.IsLine → s.cache.isTagPresent a = some (s.lastUse a).isSome
  looked_up : ∀ a, a.IsLine → (s.cache.lookup a).isSome = (s.lastUse a).isSome
  found : ∀ a cacheSet i, s.cache.lookup a = some (cacheSet, i) →
    s.cache.addressToCacheSet a = some cacheSet ∧ s.cache.Holds cacheSet i a
  full : ∀ a cacheSet, s.cache.addressToCacheSet a = some cacheSet →
    (s.cache.cacheAvail a = some false ↔
      s.lastUse a = none ∧ ∀ i, i < s.cache.m_cache_assoc → s.cache.Present cacheSet i)
  probed : ∀ a, s.cache.cacheAvail a = some false → 0 < s.cache.m_cache_assoc →
    (s.cache.cacheProbe a).isSome
  victim : ∀ a v, s.cache.cacheProbe a = some v →
    ∃ t, s.cache.addressToCacheSet v = s.cache.addressToCacheSet a ∧ s.lastUse v = some t ∧
      ∀ b u, s.cache.addressToCacheSet b = s.cache.addressToCacheSet a →
        s.lastUse b = some u → t ≤ u

theorem Tracks.sound {s : CacheRun} (h : s.Tracks) : s.Sound where
  one_entry := h.unique
  at_most_assoc _ _ hnodup hblocks := h.blocks_le_assoc hnodup hblocks
  present _ ha := h.isTagPresent ha
  looked_up _ ha := h.lookup_isSome ha
  found _ _ _ hl := CacheMemory.lookup_eq_some hl
  full _ _ hset := h.cacheAvail_eq_false hset
  probed _ havail hassoc := CacheMemory.cacheProbe_isSome havail hassoc
  victim _ _ hv := h.cacheProbe hv

/-- Every state of every run is sound. -/
theorem cache_sound (blockBits numSetBits cacheAssoc : Nat) (h : numSetBits < 31)
    (ops : List CacheOp) :
    Throughout step Sound (init (.construct blockBits numSetBits cacheAssoc h)) ops := by
  intro before _ s hs
  apply Tracks.sound
  apply run_invariant (I := Tracks) _ _ (along_true _ _ _) hs
  · intro s op s' hi _ hstep
    exact hi.step hstep
  · apply init_tracks
    intro cacheSet i hi
    exact hi rfl

/-- A block comes in the way of a freed one, and the block beside it has waited longest. -/
theorem cache_sound_twoWays :
    Throughout step Sound (init (.construct 6 8 2 (by decide)))
      [.allocate ⟨0⟩, .advance 1, .allocate ⟨0x4000⟩, .deallocate ⟨0⟩, .allocate ⟨0x8000⟩,
        .advance 1, .setMRU ⟨0x8000⟩] :=
  cache_sound 6 8 2 (by decide) _

end CacheRun
end FeS2.Ruby
