import FeS2.Pyrite.RegisterAccounting

/-!
A squash takes the window back to an earlier point. The map and the counts are
those of that point; the free list has in addition the registers that the
squashed uops made the physical file grow by.
-/

namespace FeS2.Pyrite
open RefCount DynamicInst EventSystem

namespace RegisterState

def Event.isRename : Event → Bool
  | .rename => true
  | _ => false

/-- Nothing retires, is squashed or reset. -/
def Event.goesOn : Event → Bool
  | .fetch _ => true
  | .rename => true
  | .complete _ => true
  | _ => false

/-- `s'` has `n` uops more than `s`, and no older one has left. -/
structure Since (s s' : RegisterState) (n : Nat) : Prop where
  window : ∃ young old, s'.renamed = young ++ old ∧ young.length = n ∧
    RenamesAll s.frontEndMap young s'.frontEndMap ∧ heldAll old = heldAll s.renamed
  retireMap : s'.retireMap = s.retireMap
  size_le : s.physicalFile.size ≤ s'.physicalFile.size

theorem Since.refl (s : RegisterState) : Since s s 0 :=
  ⟨⟨[], s.renamed, rfl, rfl, rfl, rfl⟩, rfl, le_rfl⟩

theorem Since.rename {s s' s'' : RegisterState} {n : Nat} (h : Since s s' n)
    (hs' : Accounted s') (hr : s'.rename = some s'') : Since s s'' (n + 1) := by
  obtain ⟨⟨young, old, hus, hlen, hwin, hold⟩, hret, hsize⟩ := h
  obtain ⟨u, hu, hren, _, _, hfol, hret'⟩ := rename_spec hs'.accounts hr
  refine ⟨⟨u :: young, old, ?_, by simp [hlen], ⟨_, hwin, hren⟩, hold⟩, hret'.trans hret,
    hsize.trans hfol.size_le⟩
  rw [hu, hus, List.cons_append]

theorem Since.complete {s s' s'' : RegisterState} {n i : Nat} (h : Since s s' n)
    (hs' : Accounted s') (hc : s'.complete i = some s'') : Since s s'' n := by
  obtain ⟨⟨young, old, hus, hlen, hwin, hold⟩, hret, hsize⟩ := h
  obtain ⟨u, hu, hu', hfe, hret', _, _, hsize'⟩ := complete_spec hs'.accounts hs'.idle hc
  rw [hus] at hu hu'
  rw [List.getElem?_append] at hu
  refine ⟨?_, hret'.trans hret, hsize.trans hsize'.le⟩
  rw [hu', hfe, List.set_append]
  split at hu
  · rename_i hi
    rw [if_pos hi]
    exact ⟨_, old, rfl, by simp [hlen], hwin.complete hu, hold⟩
  · rename_i hi
    rw [if_neg hi]
    exact ⟨young, _, rfl, hlen, hwin, by rw [heldAll_complete hu, hold]⟩

theorem Since.step {s s' s'' : RegisterState} {n : Nat} {e : Event} (h : Since s s' n)
    (hs' : Accounted s') (hgo : e.goesOn) (he : s'.step e = some s'') :
    Since s s'' (n + if e.isRename then 1 else 0) := by
  cases e with
  | fetch op =>
      obtain rfl := Option.some.inj he
      exact ⟨h.window, h.retireMap, h.size_le⟩
  | rename => exact h.rename hs' he
  | complete i => exact h.complete hs' he
  | retire => cases hgo
  | flushPipeline n => cases hgo
  | replay n => cases hgo
  | reset is64bit numXmm => cases hgo

theorem Since.run {s s' s'' : RegisterState} {n : Nat} {es : List Event} (h : Since s s' n)
    (hs' : Accounted s') (hgo : ∀ e ∈ es, e.goesOn)
    (hes : EventSystem.run RegisterState.step s' es = some s'') :
    Since s s'' (n + es.countP Event.isRename) ∧ Accounted s'' := by
  induction es generalizing s' n with
  | nil =>
      obtain rfl := Option.some.inj hes
      exact ⟨h, hs'⟩
  | cons e es ih =>
      obtain ⟨s1, he, hrest⟩ := run_cons_eq_some.mp hes
      obtain ⟨hgo1, hgo2⟩ := List.forall_mem_cons.mp hgo
      have hnext := ih (h.step hs' hgo1 he) (hs'.step he) hgo2 hrest
      rw [List.countP_cons, add_comm (List.countP _ _), ← add_assoc]
      exact hnext

/-- A squash of all uops renamed since, seen from the two accounts. -/
theorem Since.squash {s s' : RegisterState} {n : Nat} (h : Since s s' n) (hs : Accounted s)
    (hs' : Accounted s') :
    ∃ s'', squash n s' = some s'' ∧ s''.frontEndMap = s.frontEndMap ∧
      s''.physicalFile.refCounts = s.physicalFile.refCounts ∧
      ∀ p, p ∈ s''.physicalFile.freeList ↔ p ∈ s.physicalFile.freeList ∨
        (s.physicalFile.size ≤ p ∧ p < s''.physicalFile.size) := by
  obtain ⟨⟨young, old, hus, hlen, hwin, hold⟩, hret, hsize⟩ := h
  have hlive : ∀ u ∈ young, u.Live := fun u hu => hs'.live u (by rw [hus]; simp [hu])
  have hb := hs'.accounts.of_eq
    (show _ = heldAll young + (mapRefs s.retireMap + heldAll s.renamed) by
      rw [hret, hus, heldAll_append, hold]
      abel)
  obtain ⟨pf, hsq, hacc, hfol⟩ := squash_spec hus hwin hlive hb
  rw [hlen] at hsq
  have hcount : pf.refCounts = s.physicalFile.refCounts := by
    funext p
    rw [hs.accounts.count_eq, hacc.count_eq]
  refine ⟨_, hsq, rfl, hcount, fun p => ?_⟩
  have hgrow : (s.physicalFile.size : Int) ≤ pf.size :=
    Int.ofNat_le.mpr (hsize.trans hfol.size_le)
  have hnew : (s.physicalFile.size : Int) ≤ p → s.physicalFile.refCounts p = 0 := by
    intro hp
    rw [hs.accounts.count_eq, Int.natCast_eq_zero, Multiset.count_eq_zero]
    intro hmem
    exact absurd (hs.accounts.known_of_mem p hmem).2 (not_lt.mpr hp)
  simp only
  rw [hacc.free_iff_count, hs.accounts.free_iff_count, hcount]
  simp only [PhysicalFile.Known]
  constructor
  · rintro ⟨⟨h0, hlt⟩, hzero⟩
    by_cases hp : p < s.physicalFile.size
    · exact Or.inl ⟨⟨h0, hp⟩, hzero⟩
    · exact Or.inr ⟨not_lt.mp hp, hlt⟩
  · rintro (⟨⟨h0, hlt⟩, hzero⟩ | ⟨hge, hlt⟩)
    · exact ⟨⟨h0, lt_of_lt_of_le hlt hgrow⟩, hzero⟩
    · exact ⟨⟨le_trans (Int.natCast_nonneg _) hge, hlt⟩, hnew hge⟩

/-- Squashing what was renamed since a state, by a flush or by a replay, gives
back its front-end map, its counts and its free registers but for new ones; and
an empty window leaves the two maps equal. -/
theorem squash_precise {s : RegisterState} (hs : Reachable step {} s) :
    (∀ es s', (∀ e ∈ es, e.goesOn) → run step s es = some s' →
      ∀ e, e = .flushPipeline (es.countP Event.isRename) ∨
        e = .replay (es.countP Event.isRename) →
      ∃ s'', s'.step e = some s'' ∧ s''.frontEndMap = s.frontEndMap ∧
        s''.physicalFile.refCounts = s.physicalFile.refCounts ∧
        ∀ p, p ∈ s''.physicalFile.freeList ↔ p ∈ s.physicalFile.freeList ∨
          (s.physicalFile.size ≤ p ∧ p < s''.physicalFile.size)) ∧
    (s.renamed = [] → s.frontEndMap = s.retireMap) := by
  have hacc := accounted_of_reachable hs
  refine ⟨fun es s' hgo hes e he => ?_, fun hempty => ?_⟩
  · obtain ⟨hsince, hacc'⟩ := (Since.refl s).run hacc hgo hes
    rw [zero_add] at hsince
    obtain ⟨s'', hsq, hfe, hcount, hfree⟩ := hsince.squash hacc hacc'
    rcases he with rfl | rfl
    · exact ⟨{ s'' with fetched := [] }, by simp [RegisterState.step, flushPipeline, hsq],
        hfe, hcount, hfree⟩
    · exact ⟨{ s'' with fetched :=
          ((s'.renamed.take (es.countP Event.isRename)).reverse.map (·.transOp)) ++ s'.fetched },
        by simp [RegisterState.step, replay, hsq], hfe, hcount, hfree⟩
  · have hwin := hacc.window
    rw [hempty] at hwin
    exact hwin

theorem squash_precise_sample :
    ∃ s s' s'', run step {} [.reset false 0] = some s ∧
      run step s [.fetch sampleOp, .rename] = some s' ∧
      s'.step (.flushPipeline 1) = some s'' ∧ s''.frontEndMap = s.frontEndMap := by
  obtain ⟨s, hs⟩ := Option.isSome_iff_exists.mp
    (show (run step {} [.reset false 0]).isSome by decide +kernel)
  obtain ⟨s', hs'⟩ : ∃ s', run step s [.fetch sampleOp, .rename] = some s' := by
    have hrun := run_append step {} [.reset false 0] [.fetch sampleOp, .rename]
    rw [hs, Option.bind_some] at hrun
    rw [← hrun]
    exact Option.isSome_iff_exists.mp (by decide +kernel)
  obtain ⟨s'', hstep, hfe, _⟩ := (squash_precise ⟨_, hs⟩).1 [.fetch sampleOp, .rename] s'
    (by decide) hs' (.flushPipeline 1) (Or.inl rfl)
  exact ⟨s, s', s'', hs, hs', hstep, hfe⟩

/-- The free list before a renaming and after its squash: the renaming took a
register that did not exist before. -/
theorem squash_frees_new_register :
    ¬ ∀ s s' s'', Reachable step {} s → run step s [.fetch sampleOp, .rename] = some s' →
      s'.step (.flushPipeline 1) = some s'' →
        ∀ p, p ∈ s''.physicalFile.freeList ↔ p ∈ s.physicalFile.freeList := by
  intro h
  obtain ⟨s, hs, hfree⟩ := Option.map_eq_some_iff.mp (show (run step {} [.reset false 0]).map
    (·.physicalFile.freeList) = some [] by decide +kernel)
  obtain ⟨s'', hs'', hfree''⟩ := Option.map_eq_some_iff.mp (show (run step {}
    [.reset false 0, .fetch sampleOp, .rename, .flushPipeline 1]).map
    (·.physicalFile.freeList) = some [26] by decide +kernel)
  obtain ⟨s1, h1, hrest⟩ := run_cons_eq_some.mp hs''
  obtain rfl : s1 = s := by
    rw [run_cons, h1, Option.bind_some, run_nil] at hs
    exact Option.some.inj hs
  rw [show [Event.fetch sampleOp, .rename, .flushPipeline 1]
    = [.fetch sampleOp, .rename] ++ [.flushPipeline 1] from rfl, run_append] at hrest
  obtain ⟨s', hs', hflush⟩ := Option.bind_eq_some_iff.mp hrest
  obtain ⟨s2, h2, hs2⟩ := run_cons_eq_some.mp hflush
  obtain rfl := Option.some.inj hs2
  have hmem := (h s1 s' s2 ⟨_, hs⟩ hs' h2 26).mp (by rw [hfree'']; exact List.mem_singleton_self _)
  rw [hfree] at hmem
  cases hmem

end RegisterState
end FeS2.Pyrite
