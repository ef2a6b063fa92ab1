import FeS2.Pyrite.QueueInvariant

/-!
Most steps read no value: the loads that have read are those of before, with
what they had, and every mark inside the window stays.
-/

namespace FeS2.Pyrite
namespace LoadStoreWindow

/-- Nothing is read, and every mark before the window's end is kept. -/
structure Quiet (s s' : LoadStoreWindow) : Prop where
  qTail : s'.qTail = s.qTail
  qRetire : s'.qRetire ≤ s.qRetire
  checked : ∀ j, s'.qRetire ≤ j → j < s'.qRename → s.qRetire ≤ j
  memory : s'.memory = s.memory
  told : s'.told = s.told
  retired : s'.retired = s.retired
  read : ∀ j, j < s'.qRename → (s'.inst j).HasRead → j < s.qRename ∧ (s.inst j).HasRead ∧
    (s'.inst j).memOperand = (s.inst j).memOperand ∧ (s'.inst j).readAt = (s.inst j).readAt ∧
    (s'.inst j).exposed = (s.inst j).exposed
  ordering : ∀ f, f < s'.qRename → (s.inst f).loadOrderingViolation →
    (s'.inst f).loadOrderingViolation
  consistency : ∀ f, f < s'.qRename → (s.inst f).loadConsistencyViolation →
    (s'.inst f).loadConsistencyViolation

section
variable {s s' : LoadStoreWindow} {u : MemInst} {q : Nat}

/-- A uop with all of its marks, which has read exactly if it had read before. -/
theorem quiet_setInst (hread : u.HasRead → (s.inst q).HasRead ∧ u.memOperand = (s.inst q).memOperand ∧
      u.readAt = (s.inst q).readAt ∧ u.exposed = (s.inst q).exposed)
    (hord : (s.inst q).loadOrderingViolation → u.loadOrderingViolation)
    (hcons : (s.inst q).loadConsistencyViolation → u.loadConsistencyViolation) :
    Quiet s (s.setInst q u) where
  qTail := rfl
  qRetire := le_rfl
  checked _ h _ := h
  memory := rfl
  told := rfl
  retired := rfl
  read j hj h := by
    by_cases hjq : j = q
    · rw [hjq, setInst_self] at h ⊢
      exact ⟨hjq ▸ hj, hread h⟩
    · rw [setInst_of_ne hjq] at h ⊢
      exact ⟨hj, h, rfl, rfl, rfl⟩
  ordering f _ h := by
    by_cases hfq : f = q
    · rw [hfq] at h
      rw [hfq, setInst_self]
      exact hord h
    · rwa [setInst_of_ne hfq]
  consistency f _ h := by
    by_cases hfq : f = q
    · rw [hfq] at h
      rw [hfq, setInst_self]
      exact hcons h
    · rwa [setInst_of_ne hfq]

theorem Quiet.trans {t : LoadStoreWindow} (h : Quiet s s') (h' : Quiet s' t)
    (hren : t.qRename ≤ s'.qRename) : Quiet s t where
  qTail := h'.qTail.trans h.qTail
  qRetire := h'.qRetire.trans h.qRetire
  checked j hretire hj := h.checked j (h'.checked j hretire hj) (hj.trans_le hren)
  memory := h'.memory.trans h.memory
  told := h'.told.trans h.told
  retired := h'.retired.trans h.retired
  read j hj hread := by
    obtain ⟨hj', hread', hop', hat', hexp'⟩ := h'.read j hj hread
    obtain ⟨hj'', hread'', hop, hat, hexp⟩ := h.read j hj' hread'
    exact ⟨hj'', hread'', hop'.trans hop, hat'.trans hat, hexp'.trans hexp⟩
  ordering f hf hm := h'.ordering f hf (h.ordering f (hf.trans_le hren) hm)
  consistency f hf hm := h'.consistency f hf (h.consistency f (hf.trans_le hren) hm)

theorem not_hasRead_of_stage (h : u.stage ≠ .COMPLETE_STAGE) : ¬ u.HasRead :=
  fun hread => h hread.2.1

theorem quiet_complete_empty (hsize : (s.inst q).memOperand.size = 0) :
    Quiet s (s.setInst q ((s.inst q).setStage .COMPLETE_STAGE)) :=
  quiet_setInst (fun h => absurd hsize h.2.2) id id

theorem quiet_addressGenerate {cond : LdstAlign} {physAddr numBytes : Nat} (hs : Wf s)
    (h : s.addressGenerate q cond physAddr numBytes = some s') : Quiet s s' := by
  obtain ⟨_, hclass, hins, rfl | ⟨dw, _, _, rfl⟩⟩ := addressGenerate_eq h
  · exact quiet_setInst (fun h => ⟨h, rfl, rfl, rfl⟩) id id
  · have hstage : ((s.inst q).place dw).stage ≠ .COMPLETE_STAGE := by
      intro hc
      have hi := (hs.inst q).issued hclass (MemInst.isMemoryIssued_of_complete hc)
      rw [hins] at hi
      cases hi
    have hquiet : Quiet s (s.setInst q ((s.inst q).place dw)) :=
      quiet_setInst (fun h => absurd h (not_hasRead_of_stage hstage)) id id
    exact ⟨rfl, le_rfl, hquiet.checked, rfl, rfl, rfl, hquiet.read, hquiet.ordering,
      hquiet.consistency⟩

theorem quiet_executeStore {value : BitVec 64} (h : s.executeStore q value = some s') :
    Quiet s s' := by
  obtain ⟨⟨_, hclass, _, _⟩, ⟨hsize, rfl⟩ | ⟨_, dw, _, h⟩⟩ := executeStore_eq h
  · exact quiet_complete_empty hsize
  · have hquiet : Quiet s (s.setInst q (((s.inst q).withOperand dw).setStage .MEMORY_STAGE)) :=
      quiet_setInst (fun h => absurd h.2.1 nofun) id id
    rcases h with ⟨_, rfl⟩ | ⟨x, _, hxq, rfl⟩
    · exact hquiet
    · refine hquiet.trans (quiet_setInst ?_ ?_ ?_) le_rfl
      · rw [setInst_of_ne hxq]
        exact fun h => ⟨h, rfl, rfl, rfl⟩
      · exact fun _ => rfl
      · rw [setInst_of_ne hxq]
        exact id

theorem quiet_refl (s : LoadStoreWindow) : Quiet s s :=
  ⟨rfl, le_rfl, fun _ h _ => h, rfl, rfl, rfl, fun _ hj h => ⟨hj, h, rfl, rfl, rfl⟩, fun _ _ => id,
    fun _ _ => id⟩

theorem quiet_executeLoad (hs : Wf s) (h : s.executeLoad q = some s') : Quiet s s' := by
  obtain ⟨_, ⟨hsize, rfl⟩ | rfl | ⟨_, rfl⟩⟩ := executeLoad_eq hs h
  · exact quiet_complete_empty hsize
  · exact quiet_refl _
  · exact quiet_setInst (fun h => absurd h.2.1 nofun) id id

theorem quiet_completeOther (h : s.completeOther q = some s') : Quiet s s' := by
  obtain ⟨_, hclass, rfl⟩ := completeOther_eq h
  refine quiet_setInst (fun h => ?_) id id
  have hload : (s.inst q).uopClass = .load := h.1
  rw [hclass] at hload
  cases hload

theorem quiet_fetch (hs : Wf s) (c : UopClass) (b : Bool) : Quiet s (s.fetch c b) := by
  have hother : ∀ p, p < s.qRename → (s.fetch c b).inst p = s.inst p :=
    fun p hp => setInst_of_ne (ne_of_lt (hp.trans_le hs.rename_le))
  refine ⟨rfl, le_rfl, fun _ h _ => h, rfl, rfl, rfl, fun j hj h => ?_, fun f hf h => ?_,
    fun f hf h => ?_⟩
  · change j < s.qRename at hj
    rw [hother j hj] at h ⊢
    exact ⟨hj, h, rfl, rfl, rfl⟩
  · rwa [hother f hf]
  · rwa [hother f hf]

theorem quiet_rename (hs : Wf s) (h : s.rename = some s') : Quiet s s' := by
  obtain ⟨_, rfl⟩ := rename_eq h
  have hquiet : Quiet s (s.setInst s.qRename ((s.inst s.qRename).setStage .DECODE_STAGE)) :=
    quiet_setInst (fun h => absurd h.2.1 nofun) id id
  have hret := hs.retire_le
  refine ⟨rfl, le_rfl, fun _ h _ => h, rfl, rfl, rfl, fun j hj h => ?_, fun f hf h => ?_,
    fun f hf h => ?_⟩
  · rcases Nat.lt_succ_iff_lt_or_eq.mp hj with hlt | rfl
    · exact hquiet.read j hlt h
    · change ((s.setInst _ _).inst s.qRename).HasRead at h
      rw [setInst_self] at h
      exact absurd h.2.1 nofun
  · change ((s.setInst _ _).inst f).loadOrderingViolation
    by_cases hfq : f = s.qRename
    · rw [hfq] at h
      rw [hfq, setInst_self]
      exact h
    · rwa [setInst_of_ne hfq]
  · change ((s.setInst _ _).inst f).loadConsistencyViolation
    by_cases hfq : f = s.qRename
    · rw [hfq] at h
      rw [hfq, setInst_self]
      exact h
    · rwa [setInst_of_ne hfq]

theorem quiet_squashFrom {first : Nat} (hren : first ≤ s.qRename) :
    Quiet s (s.squashFrom first) := by
  refine ⟨rfl, min_le_left _ _, fun j hretire hj => ?_, rfl, rfl, rfl, fun j hj h => ?_,
    fun f hf h => ?_, fun f hf h => ?_⟩
  · change min s.qRetire first ≤ j at hretire
    change j < first at hj
    omega
  · change j < first at hj
    rw [squashFrom_inst hj] at h ⊢
    exact ⟨hj.trans_le hren, h, rfl, rfl, rfl⟩
  · change f < first at hf
    rwa [squashFrom_inst hf]
  · change f < first at hf
    rwa [squashFrom_inst hf]

theorem quiet_flushPipeline (h : s.flushPipeline q = some s') : Quiet s s' := by
  obtain ⟨hq, rfl⟩ := flushPipeline_eq h
  have hquiet := quiet_squashFrom hq.2
  exact ⟨rfl, hquiet.qRetire, hquiet.checked, rfl, rfl, rfl, hquiet.read, hquiet.ordering,
    hquiet.consistency⟩

theorem quiet_retireReady (h : s.retireReady = some u) : Quiet s (s.setInst s.qRetire u) := by
  obtain ⟨_, ⟨_, rfl⟩ | ⟨hclass, _, rfl⟩⟩ := retireReady_eq h
  · exact quiet_setInst (fun h => ⟨h, rfl, rfl, rfl⟩) id id
  · refine quiet_setInst (fun h => ?_) id id
    have hload : (s.inst s.qRetire).uopClass = .load := h.1
    rw [hclass] at hload
    cases hload

end

end LoadStoreWindow
end FeS2.Pyrite
