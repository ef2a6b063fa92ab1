import FeS2.Pyrite.RegisterState

/-!
The accounts of the physical file over whole runs: the counts are those of the
front-end map, the retire map and the renamed uops, and the window leads from
the retire map to the front-end map.
-/

namespace FeS2.Pyrite
open RefCount DynamicInst EventSystem

def heldAll (us : List DynamicInst) : Multiset PhysName := (us.map held).sum

@[simp] theorem heldAll_nil : heldAll [] = 0 := rfl

@[simp] theorem heldAll_cons (u : DynamicInst) (us : List DynamicInst) :
    heldAll (u :: us) = u.held + heldAll us := by
  simp [heldAll]

@[simp] theorem heldAll_append (us vs : List DynamicInst) :
    heldAll (us ++ vs) = heldAll us + heldAll vs := by
  simp [heldAll]

theorem mem_heldAll {us : List DynamicInst} {p : PhysName} :
    p ∈ heldAll us ↔ ∃ u ∈ us, p ∈ u.held := by
  induction us with
  | nil => simp
  | cons u us ih => simp [ih]

/-- Renaming the uops, the last of the list first, leads from `m` to `m'`. -/
def RenamesAll (m : LogicalFile) : List DynamicInst → LogicalFile → Prop
  | [], m' => m' = m
  | u :: us, m' => ∃ m1, RenamesAll m us m1 ∧ Renames u m1 m'

theorem renamesAll_append {us vs : List DynamicInst} {m m' : LogicalFile} :
    RenamesAll m (us ++ vs) m' ↔ ∃ m1, RenamesAll m vs m1 ∧ RenamesAll m1 us m' := by
  induction us generalizing m' with
  | nil => simp [RenamesAll]
  | cons u us ih =>
      simp only [List.cons_append, RenamesAll, ih]
      constructor
      · rintro ⟨m2, ⟨m1, h1, h2⟩, hu⟩
        exact ⟨m1, h1, m2, h2, hu⟩
      · rintro ⟨m1, h1, m2, h2, hu⟩
        exact ⟨m2, ⟨m1, h1, h2⟩, hu⟩

/-- A register that some map along the window names is still named by its end or held. -/
theorem RenamesAll.mem {us : List DynamicInst} {m m' : LogicalFile} (h : RenamesAll m us m')
    {e : LogicalName} (hnull : ¬ IsNull (m e)) : m e ∈ mapRefs m' + heldAll us := by
  induction us generalizing m' with
  | nil =>
      obtain rfl : m' = m := h
      simpa using mem_mapRefs hnull
  | cons u us ih =>
      obtain ⟨m1, h1, hu⟩ := h
      rw [heldAll_cons]
      rcases Multiset.mem_add.mp (ih h1) with hmap | hheld
      · obtain ⟨x, hx, _⟩ := exists_of_mem_mapRefs hmap
        by_cases hkept : m' x = m1 x
        · rw [← hx, ← hkept] at hnull ⊢
          exact Multiset.mem_add.mpr (Or.inl (mem_mapRefs hnull))
        · have hmem := hu.held_of_changed hkept
          rw [hx] at hmem
          simp [hmem]
      · simp [hheld]

/-! Completing a uop moves it to another stage and changes no reference. -/

theorem DynamicInst.Renames.setStage {u : DynamicInst} {m m' : LogicalFile} (h : Renames u m m')
    (stage : StageType) : Renames { u with stage := stage } m m' := by
  cases h with
  | none h hm' => exact .none h hm'
  | dest h hold hrd rd m1 hm1 rof m2 hm2 rcf m3 hm3 rzapsf hm' =>
      exact .dest h hold hrd rd m1 hm1 rof m2 hm2 rcf m3 hm3 rzapsf hm'

section
variable {us : List DynamicInst} {u : DynamicInst} {i : Nat} {m m' : LogicalFile}

theorem heldAll_complete (h : us[i]? = some u) :
    heldAll (us.set i { u with stage := .COMPLETE_STAGE }) = heldAll us := by
  induction us generalizing i with
  | nil => rfl
  | cons v us ih =>
      cases i with
      | zero =>
          obtain rfl : v = u := by simpa using h
          simp [held]
      | succ i =>
          have hi : us[i]? = some u := by simpa using h
          rw [List.set_cons_succ, heldAll_cons, heldAll_cons, ih hi]

theorem RenamesAll.complete (hr : RenamesAll m us m') (h : us[i]? = some u) :
    RenamesAll m (us.set i { u with stage := .COMPLETE_STAGE }) m' := by
  induction us generalizing i m' with
  | nil => exact hr
  | cons v us ih =>
      obtain ⟨m1, h1, hv⟩ := hr
      cases i with
      | zero =>
          obtain rfl : v = u := by simpa using h
          exact ⟨m1, h1, hv.setStage _⟩
      | succ i => exact ⟨m1, ih h1 (by simpa using h), hv⟩

end

namespace RegisterState

structure Accounted (s : RegisterState) : Prop where
  accounts : Mapped.Accounts ⟨s.frontEndMap, s.physicalFile⟩
    (mapRefs s.retireMap + heldAll s.renamed)
  idle : s.physicalFile.Idle
  window : RenamesAll s.retireMap s.renamed s.frontEndMap
  live : ∀ u ∈ s.renamed, u.Live

theorem Accounted.init : Accounted {} where
  accounts := by
    refine (balanced_empty (fun _ => 0) fun _ => rfl).congr (fun b => ?_) ?_
    · simp only [PhysicalFile.Known, false_iff]
      rintro ⟨h0, h1⟩
      exact absurd (lt_of_le_of_lt h0 h1) (lt_irrefl _)
    · have hnone : mapRefs (fun _ => REG_NULL_SRC) = 0 :=
        Finset.sum_eq_zero fun _ _ => ref_of_null (Or.inr rfl)
      simp [hnone]
  idle := by simp [PhysicalFile.Idle]
  window := rfl
  live := by simp

/-! A uop joins the window. -/

theorem live_of_completeAtDecode (op : TransOp) :
    DynamicInst.Live { transOp := op, stage := .COMPLETE_STAGE } :=
  ⟨by simp, by simp, Or.inr rfl, Or.inr rfl, Or.inr rfl, by simp [IsNull]⟩

/-- What a rename step does: one uop more, whose renaming leads to the new map. -/
theorem rename_spec {s s' : RegisterState} {L : Multiset PhysName}
    (hb : Mapped.Accounts ⟨s.frontEndMap, s.physicalFile⟩ L) (h : s.rename = some s') :
    ∃ u, s'.renamed = u :: s.renamed ∧ Renames u s.frontEndMap s'.frontEndMap ∧ u.Live ∧
      Mapped.Accounts ⟨s'.frontEndMap, s'.physicalFile⟩ (u.held + L) ∧
      s.physicalFile.Follows s'.physicalFile ∧ s'.retireMap = s.retireMap := by
  unfold rename at h
  split at h
  · cases h
  rename_i op rest _
  split at h
  · cases h
  split at h
  · obtain rfl := Option.some.inj h
    refine ⟨_, rfl, .none rfl rfl, live_of_completeAtDecode op, hb.of_eq ?_, .refl _, rfl⟩
    simp [held, heldSource]
  · obtain ⟨⟨u, r⟩, hu, rfl⟩ := Option.map_eq_some_iff.mp h
    obtain ⟨hacc, hren, hlive, _, _⟩ := DynamicInst.rename_spec hb hu
    exact ⟨u, rfl, hren, hlive, hacc, rename_follows hu, rfl⟩

theorem Accounted.rename {s s' : RegisterState} (hs : Accounted s) (h : s.rename = some s') :
    Accounted s' := by
  obtain ⟨u, hus, hren, hlive, hacc, hfol, hret⟩ := rename_spec hs.accounts h
  refine ⟨hacc.of_eq ?_, hfol.idle hs.idle, ?_, ?_⟩
  · rw [hret, hus, heldAll_cons]
    abel
  · rw [hret, hus]
    exact ⟨s.frontEndMap, hs.window, hren⟩
  · rw [hus]
    exact List.forall_mem_cons.mpr ⟨hlive, hs.live⟩

/-! A uop completes. -/

theorem setValue_spec {r r' : Mapped} {L : Multiset PhysName} {p : PhysName}
    (hb : r.Accounts L) (hidle : r.file.Idle) (h : r.setValue p = some r') :
    r'.Accounts L ∧ r'.file.Idle ∧ r'.map = r.map ∧ r.file.size = r'.file.size := by
  obtain ⟨pf, hpf, rfl⟩ := Option.map_eq_some_iff.mp h
  unfold PhysicalFile.setValue at hpf
  split at hpf
  · cases hpf
  rename_i hguard
  obtain rfl := Option.some.inj hpf
  refine ⟨hb, fun q hq => ?_, rfl, rfl⟩
  have hne : q ≠ p := by
    rintro rfl
    exact hguard (Or.inr (Or.inr (hb.free_iff_count.mp hq).2))
  simp only [Function.update_of_ne hne]
  exact hidle q hq

theorem complete_spec {s s' : RegisterState} {i : Nat} {L : Multiset PhysName}
    (hb : Mapped.Accounts ⟨s.frontEndMap, s.physicalFile⟩ L) (hidle : s.physicalFile.Idle)
    (h : s.complete i = some s') :
    ∃ u, s.renamed[i]? = some u ∧
      s'.renamed = s.renamed.set i { u with stage := .COMPLETE_STAGE } ∧
      s'.frontEndMap = s.frontEndMap ∧ s'.retireMap = s.retireMap ∧
      Mapped.Accounts ⟨s'.frontEndMap, s'.physicalFile⟩ L ∧ s'.physicalFile.Idle ∧
      s.physicalFile.size = s'.physicalFile.size := by
  unfold complete at h
  split at h
  · cases h
  rename_i u hu
  split at h
  · cases h
  obtain ⟨pf, hpf, rfl⟩ := Option.map_eq_some_iff.mp h
  refine ⟨u, hu, rfl, rfl, rfl, ?_⟩
  split at hpf
  · obtain rfl := Option.some.inj hpf
    exact ⟨hb, hidle, rfl⟩
  · have hset : Mapped.setValue u.rdPreg ⟨s.frontEndMap, s.physicalFile⟩
        = some ⟨s.frontEndMap, pf⟩ := by simp [Mapped.setValue, hpf]
    obtain ⟨hacc, hidle', _, hsize⟩ := setValue_spec hb hidle hset
    exact ⟨hacc, hidle', hsize⟩

theorem live_complete {us : List DynamicInst} {u : DynamicInst} {i : Nat}
    (hlive : ∀ v ∈ us, v.Live) (h : us[i]? = some u) :
    ∀ v ∈ us.set i { u with stage := .COMPLETE_STAGE }, v.Live := by
  intro v hv
  rcases List.mem_or_eq_of_mem_set hv with hv | rfl
  · exact hlive v hv
  · have hu := hlive u (List.mem_of_getElem? h)
    exact ⟨by simp, by simp, hu.ra, hu.rb, hu.rc, hu.olds⟩

theorem Accounted.complete {s s' : RegisterState} {i : Nat} (hs : Accounted s)
    (h : s.complete i = some s') : Accounted s' := by
  obtain ⟨u, hu, hus, hfe, hret, hacc, hidle, _⟩ := complete_spec hs.accounts hs.idle h
  refine ⟨hacc.of_eq ?_, hidle, ?_, ?_⟩
  · rw [hret, hus, heldAll_complete hu]
  · rw [hret, hus, hfe]
    exact hs.window.complete hu
  · rw [hus]
    exact live_complete hs.live hu

/-! The oldest uop retires. -/

theorem accounts_swap {m n : LogicalFile} {pf : PhysicalFile} {L : Multiset PhysName}
    (h : Mapped.Accounts ⟨m, pf⟩ (mapRefs n + L)) : Mapped.Accounts ⟨n, pf⟩ (mapRefs m + L) :=
  Balanced.congr h (fun _ => Iff.rfl) (by simp only; abel)

theorem retire_of_complete {s : RegisterState} {us : List DynamicInst} {u : DynamicInst}
    (hs : Accounted s) (hus : s.renamed = us ++ [u]) (hstage : u.stage = .COMPLETE_STAGE) :
    ∃ s', s.retire = some s' ∧ Accounted s' := by
  have hwin := hs.window
  rw [hus] at hwin
  obtain ⟨m1, ⟨_, rfl, hu⟩, hrest⟩ := renamesAll_append.mp hwin
  have hlive := hs.live
  rw [hus] at hlive
  have hb : Mapped.Accounts ⟨s.retireMap, s.physicalFile⟩
      (u.held + (mapRefs s.frontEndMap + heldAll us)) := by
    refine (accounts_swap hs.accounts).of_eq ?_
    rw [hus, heldAll_append, heldAll_cons, heldAll_nil]
    abel
  obtain ⟨r, hr, hmap, hacc⟩ := commit_spec hstage (hlive u (by simp)) hu hb fun hrd => by
    have hm1 := hu.rd_mapped hrd
    rw [← hm1]
    refine hrest.mem ?_
    rw [hm1]
    exact hu.rd_not_null hrd
  refine ⟨{ s with retireMap := r.map, physicalFile := r.file, renamed := us },
    by simp [retire, hus, hr], accounts_swap hacc, (commit_follows hr).idle hs.idle, ?_,
    fun v hv => hlive v (by simp [hv])⟩
  simp only [hmap]
  exact hrest

theorem Accounted.retire {s s' : RegisterState} (hs : Accounted s) (h : s.retire = some s') :
    Accounted s' := by
  have h' := h
  unfold RegisterState.retire at h'
  split at h'
  · cases h'
  rename_i u hlast
  obtain ⟨r, hr, _⟩ := Option.map_eq_some_iff.mp h'
  have hstage : u.stage = .COMPLETE_STAGE := by
    by_contra hne
    simp [commit, hne] at hr
  obtain ⟨us, hus⟩ := List.getLast?_eq_some_iff.mp hlast
  obtain ⟨s'', hs'', hacc⟩ := retire_of_complete hs hus hstage
  rw [h] at hs''
  obtain rfl := Option.some.inj hs''
  exact hacc

/-! The youngest uops are squashed. -/

/-- A squash of the youngest uops never fails and gives the map before their renaming. -/
theorem squash_spec {us vs : List DynamicInst} {s : RegisterState} {m : LogicalFile}
    {L : Multiset PhysName} (hus : s.renamed = us ++ vs)
    (hwin : RenamesAll m us s.frontEndMap) (hlive : ∀ u ∈ us, u.Live)
    (hb : Mapped.Accounts ⟨s.frontEndMap, s.physicalFile⟩ (heldAll us + L)) :
    ∃ pf, squash us.length s =
        some { s with frontEndMap := m, physicalFile := pf, renamed := vs } ∧
      Mapped.Accounts ⟨m, pf⟩ L ∧ s.physicalFile.Follows pf := by
  induction us generalizing s with
  | nil =>
      obtain rfl : s.frontEndMap = m := hwin
      refine ⟨s.physicalFile, ?_, by simpa using hb, .refl _⟩
      rw [List.nil_append] at hus
      simp [squash, ← hus]
  | cons u us ih =>
      obtain ⟨m1, hrest, hu⟩ := hwin
      rw [heldAll_cons, add_assoc] at hb
      obtain ⟨r, hr, rfl, hacc⟩ := unwindRegisters_spec (hlive u (by simp)) hu hb
      obtain ⟨pf, hsq, hpf, hfol⟩ := ih (s := { s with
          frontEndMap := r.map, physicalFile := r.file, renamed := us ++ vs }) rfl hrest
        (fun v hv => hlive v (by simp [hv])) hacc
      refine ⟨pf, ?_, hpf, (unwindRegisters_follows hr).trans hfol⟩
      simp [squash, hus, hr, hsq]

theorem squash_length {n : Nat} {s s' : RegisterState} (h : squash n s = some s') :
    n ≤ s.renamed.length := by
  induction n generalizing s with
  | zero => exact Nat.zero_le _
  | succ n ih =>
      unfold squash at h
      split at h
      · cases h
      rename_i u us hus
      obtain ⟨r, _, hr⟩ := Option.bind_eq_some_iff.mp h
      rw [hus]
      exact Nat.succ_le_succ (ih hr)

theorem Accounted.squash {s s' : RegisterState} {n : Nat} (hs : Accounted s)
    (h : squash n s = some s') : Accounted s' := by
  have hlen := squash_length h
  have hsplit := (List.take_append_drop n s.renamed).symm
  have htake : (s.renamed.take n).length = n := by simp [hlen]
  have hwin := hs.window
  rw [hsplit] at hwin
  obtain ⟨m1, hold, hyoung⟩ := renamesAll_append.mp hwin
  have hb := hs.accounts.of_eq (show _ = heldAll (s.renamed.take n) +
    (mapRefs s.retireMap + heldAll (s.renamed.drop n)) by
      conv_lhs => rw [hsplit, heldAll_append]
      abel)
  obtain ⟨pf, hsq, hacc, hfol⟩ := squash_spec hsplit hyoung
    (fun u hu => hs.live u (List.mem_of_mem_take hu)) hb
  rw [htake, h] at hsq
  obtain rfl := Option.some.inj hsq
  exact ⟨hacc, hfol.idle hs.idle, hold, fun u hu => hs.live u (List.mem_of_mem_drop hu)⟩

theorem Accounted.setFetched {s : RegisterState} (hs : Accounted s) (ops : List TransOp) :
    Accounted { s with fetched := ops } :=
  ⟨hs.accounts, hs.idle, hs.window, hs.live⟩

/-! A reset starts the accounts anew. -/

private theorem foldlM_invariant {α β : Type} {f : β → α → Option β} {P : β → Prop}
    (hf : ∀ b a b', P b → f b a = some b' → P b') {l : List α} {b b' : β} (hb : P b)
    (h : l.foldlM f b = some b') : P b' := by
  induction l generalizing b with
  | nil =>
      obtain rfl : b = b' := by simpa using h
      exact hb
  | cons a l ih =>
      simp only [List.foldlM_cons, Option.bind_eq_bind] at h
      obtain ⟨b1, h1, h⟩ := Option.bind_eq_some_iff.mp h
      exact ih (hf b a b1 hb h1) h

/-- Accounts in which no free register is ready. -/
def Sound (L : Multiset PhysName) (r : Mapped) : Prop := r.Accounts L ∧ r.file.Idle

section
variable {r r' : Mapped} {L : Multiset PhysName} {p : PhysName} {num : LogicalName}

theorem Sound.setValue (hr : Sound L r) (h : r.setValue p = some r') : Sound L r' := by
  obtain ⟨hacc, hidle, _⟩ := setValue_spec hr.1 hr.2 h
  exact ⟨hacc, hidle⟩

theorem Sound.getNewMapping (hr : Sound L r) (h : r.getNewMapping num = some (p, r')) :
    Sound L r' :=
  ⟨(hr.1.getNewMapping h).1, (Mapped.getNewMapping_follows h).idle hr.2⟩

theorem Sound.setMapping (hr : Sound L r) {x : LogicalName} (hx : x ≠ slot num)
    (hp : r.map x = p) (h : r.setMapping num p = some r') :
    Sound L r' ∧ r'.map (slot num) = p ∧ r'.map x = p := by
  obtain ⟨_, hnull, hmap⟩ := Mapped.setMapping_map h
  refine ⟨⟨hr.1.setMapping ?_ h, (Mapped.setMapping_follows h).idle hr.2⟩, ?_, ?_⟩
  · rw [← hp] at hnull ⊢
    exact Multiset.mem_add.mpr (Or.inl (mem_otherRefs hx hnull))
  · rw [hmap, Function.update_self]
  · rw [hmap, Function.update_of_ne hx, hp]

theorem Sound.resetRegisters {nums : List LogicalName} (hr : Sound L r)
    (h : r.resetRegisters nums = some r') : Sound L r' := by
  refine foldlM_invariant (P := Sound L) (fun r num r' hr h => ?_) hr h
  obtain ⟨⟨p, r1⟩, h1, h2⟩ := Option.bind_eq_some_iff.mp h
  exact (hr.getNewMapping h1).setValue h2

theorem Sound.resetXmm {i : Nat} (hr : Sound L r) (h : r.resetXmm i = some r') :
    Sound L r' := by
  unfold Mapped.resetXmm at h
  split at h
  · obtain ⟨⟨low, r1⟩, h1, h⟩ := Option.bind_eq_some_iff.mp h
    obtain ⟨⟨high, r2⟩, h2, h⟩ := Option.bind_eq_some_iff.mp h
    obtain ⟨r3, h3, h4⟩ := Option.bind_eq_some_iff.mp h
    exact (((hr.getNewMapping h1).getNewMapping h2).setValue h3).setValue h4
  · cases h

theorem Sound.aliasFlags (hr : Sound L r) (h : r.aliasFlags = some r') : Sound L r' := by
  obtain ⟨flags, h0, h⟩ := Option.bind_eq_some_iff.mp h
  obtain ⟨r1, h1, h⟩ := Option.bind_eq_some_iff.mp h
  obtain ⟨r2, h2, h3⟩ := Option.bind_eq_some_iff.mp h
  have hflags : r.map REG_flags = flags := by
    unfold Mapped.getMapping at h0
    split at h0
    · cases h0
    · exact Option.some.inj h0
  obtain ⟨s1, hof, hflags1⟩ := hr.setMapping (by decide) hflags h1
  obtain ⟨s2, hcf, _⟩ := s1.setMapping (by decide) hflags1 h2
  exact (s2.setMapping (x := slot REG_cf) (by decide) hcf h3).1

theorem sound_cleared : Sound 0 Mapped.cleared := by
  have h := Accounted.init
  refine ⟨h.accounts.of_eq ?_, h.idle⟩
  have hnone : mapRefs (fun _ => REG_NULL_SRC) = 0 :=
    Finset.sum_eq_zero fun _ _ => ref_of_null (Or.inr rfl)
  simp [hnone]

theorem sound_resetFrontEnd {is64bit : Bool} {numXmm : Nat}
    (h : Mapped.resetFrontEnd is64bit numXmm = some r) : Sound 0 r := by
  obtain ⟨r1, h1, h⟩ := Option.bind_eq_some_iff.mp h
  obtain ⟨r2, h2, h⟩ := Option.bind_eq_some_iff.mp h
  obtain ⟨r3, h3, h4⟩ := Option.bind_eq_some_iff.mp h
  have s2 := (sound_cleared.resetRegisters h1).aliasFlags h2
  have s3 := foldlM_invariant (P := Sound 0) (fun _ _ _ hr h => Sound.resetXmm hr h) s2 h3
  exact s3.resetRegisters h4

theorem dropAll_cleared (pf : PhysicalFile) :
    LogicalFile.dropAll (fun _ => REG_NULL_SRC) pf = some pf := by
  unfold LogicalFile.dropAll
  generalize List.finRange 80 = l
  induction l with
  | nil => rfl
  | cons i l ih => simpa [IsNull] using ih

/-- Copying a map takes one reference for each of its entries. -/
theorem retainAll_spec {m : LogicalFile} {pf pf' : PhysicalFile} (hs : Sound L ⟨m, pf⟩)
    (h : LogicalFile.retainAll m pf = some pf') : Sound (mapRefs m + L) ⟨m, pf'⟩ := by
  have hsum : mapRefs m = ((List.finRange 80).map fun i => ref (m i)).sum := Fin.sum_univ_def _
  rw [hsum]
  unfold LogicalFile.retainAll at h
  generalize List.finRange 80 = l at h ⊢
  induction l generalizing pf L with
  | nil =>
      obtain rfl : pf = pf' := by simpa using h
      simpa using hs
  | cons i l ih =>
      simp only [List.foldlM_cons, Option.bind_eq_bind] at h
      obtain ⟨pf1, h1, h⟩ := Option.bind_eq_some_iff.mp h
      have hs1 : Sound (ref (m i) + L) ⟨m, pf1⟩ := by
        split at h1
        · rename_i hnull
          obtain rfl := Option.some.inj h1
          rwa [ref_of_null hnull, zero_add]
        · rename_i hnull
          have hinc : Mapped.incrementRefCount (m i) ⟨m, pf⟩ = some ⟨m, pf1⟩ := by
            simp [Mapped.incrementRefCount, h1]
          rw [ref_of_not_null hnull]
          exact ⟨hs.1.increment (Multiset.mem_add.mpr (Or.inl (mem_mapRefs hnull))) hinc,
            (Mapped.incrementRefCount_follows hinc).idle hs.2⟩
      have hrest := ih hs1 h
      rw [List.map_cons, List.sum_cons, add_comm (ref (m i)), add_assoc]
      exact hrest

end

theorem Accounted.reset {s s' : RegisterState} {is64bit : Bool} {numXmm : Nat}
    (h : s.reset is64bit numXmm = some s') : Accounted s' := by
  obtain ⟨_, _, h⟩ := Option.bind_eq_some_iff.mp h
  obtain ⟨r, hr, h⟩ := Option.bind_eq_some_iff.mp h
  rw [dropAll_cleared, Option.bind_some] at h
  obtain ⟨pf, hpf, rfl⟩ := Option.map_eq_some_iff.mp h
  obtain ⟨hacc, hidle⟩ := retainAll_spec (sound_resetFrontEnd hr) hpf
  exact ⟨hacc.of_eq (by simp), hidle, rfl, by simp⟩

/-! Every reachable state is accounted for. -/

theorem Accounted.step {s s' : RegisterState} {e : Event} (hs : Accounted s)
    (h : s.step e = some s') : Accounted s' := by
  cases e with
  | fetch op =>
      obtain rfl := Option.some.inj h
      exact hs.setFetched _
  | rename => exact hs.rename h
  | complete i => exact hs.complete h
  | retire => exact hs.retire h
  | flushPipeline n =>
      obtain ⟨s1, h1, rfl⟩ := Option.map_eq_some_iff.mp h
      exact (hs.squash h1).setFetched _
  | replay n =>
      obtain ⟨s1, h1, rfl⟩ := Option.map_eq_some_iff.mp h
      exact (hs.squash h1).setFetched _
  | reset is64bit numXmm => exact .reset h

theorem accounted_of_reachable {s : RegisterState} (h : Reachable step {} s) : Accounted s :=
  reachable_invariant Accounted.init (fun _ _ _ hs he => hs.step he) h

/-- All physical registers a uop names, its destination included. -/
def names (u : DynamicInst) : List PhysName :=
  [u.raPreg, u.rbPreg, u.rcPreg, u.rdPreg, u.rdPregOld, u.rofPregOld, u.rcfPregOld,
    u.rzapsfPregOld]

theorem rd_mem {us : List DynamicInst} {u : DynamicInst} {m m' : LogicalFile} (hu : u ∈ us)
    (h : RenamesAll m us m') (hrd : u.rdPreg ≠ REG_NULL_DEST) :
    u.rdPreg ∈ mapRefs m' + heldAll us := by
  obtain ⟨young, old, rfl⟩ := List.append_of_mem hu
  obtain ⟨m1, ⟨m2, _, hren⟩, hyoung⟩ := renamesAll_append.mp h
  have hm1 := hren.rd_mapped hrd
  have hmem := hyoung.mem (e := slot u.transOp.rd) (by rw [hm1]; exact hren.rd_not_null hrd)
  rw [hm1] at hmem
  rw [heldAll_append]
  rcases Multiset.mem_add.mp hmem with hmem | hmem <;> simp [hmem]

/-- Whatever a uop of the window names is on the books. -/
theorem Accounted.names_mem {s : RegisterState} (hs : Accounted s) {u : DynamicInst}
    (hu : u ∈ s.renamed) {p : PhysName} (hp : p ∈ names u) (hnull : ¬ IsNull p) :
    p ∈ mapRefs s.frontEndMap + (mapRefs s.retireMap + heldAll s.renamed) := by
  have hheld : p ∈ u.held →
      p ∈ mapRefs s.frontEndMap + (mapRefs s.retireMap + heldAll s.renamed) := fun h => by
    simp [mem_heldAll.mpr ⟨u, hu, h⟩]
  have hsource : ∀ q, p = q → p ∈ heldSource q := by
    rintro q rfl
    rw [heldSource, if_neg fun h => hnull (Or.inr h)]
    exact Multiset.mem_singleton_self p
  simp only [names, List.mem_cons, List.not_mem_nil, or_false] at hp
  rcases hp with h | h | h | h | h
  · exact hheld (by simp [held, hsource _ h])
  · exact hheld (by simp [held, hsource _ h])
  · exact hheld (by simp [held, hsource _ h])
  · rw [h] at hnull ⊢
    have hmem := rd_mem hu hs.window fun h => hnull (Or.inl h)
    rcases Multiset.mem_add.mp hmem with hmem | hmem <;> simp [hmem]
  · exact hheld ((hs.live u hu).olds p (by simpa using h) hnull)

/-- The register accounts of every reachable state. -/
theorem register_accounting {s : RegisterState} (h : Reachable step {} s) :
    (∀ p, ¬ IsNull p → s.physicalFile.refCounts p =
      (Finset.univ.filter fun r => s.frontEndMap r = p).card +
        (Finset.univ.filter fun r => s.retireMap r = p).card +
          (s.renamed.map fun u => u.held.count p).sum) ∧
    (∀ p, p ∈ s.physicalFile.freeList ↔
      s.physicalFile.Known p ∧ s.physicalFile.refCounts p = 0) ∧
    s.physicalFile.freeList.Nodup ∧
    (∀ p, s.physicalFile.Known p → p ∈ s.physicalFile.freeList ∨ (∃ r, s.frontEndMap r = p) ∨
      (∃ r, s.retireMap r = p) ∨ ∃ u ∈ s.renamed, p ∈ u.held) ∧
    ∃ p pf, s.physicalFile.allocate = some (p, pf) ∧ (∀ r, s.frontEndMap r ≠ p) ∧
      (∀ r, s.retireMap r ≠ p) ∧ ∀ u ∈ s.renamed, p ∉ names u := by
  have hs := accounted_of_reachable h
  have hcount : ∀ p, (heldAll s.renamed).count p
      = (s.renamed.map fun u => u.held.count p).sum := by
    intro p
    generalize s.renamed = us
    induction us with
    | nil => rfl
    | cons u us ih => simp [ih]
  refine ⟨fun p hp => ?_, fun p => hs.accounts.free_iff_count, hs.accounts.nodup, fun p hk => ?_,
    ?_⟩
  · rw [hs.accounts.count_eq, Multiset.count_add, Multiset.count_add, count_mapRefs _ hp,
      count_mapRefs _ hp, hcount]
    push_cast
    rw [add_assoc]
  · by_cases hfree : p ∈ s.physicalFile.freeList
    · exact Or.inl hfree
    · have hmem : p ∈ mapRefs s.frontEndMap + (mapRefs s.retireMap + heldAll s.renamed) := by
        by_contra hnot
        exact hfree ((hs.accounts.free_iff p).mpr ⟨hk, hnot⟩)
      rcases Multiset.mem_add.mp hmem with hmem | hmem
      · obtain ⟨r, hr, _⟩ := exists_of_mem_mapRefs hmem
        exact Or.inr (Or.inl ⟨r, hr⟩)
      rcases Multiset.mem_add.mp hmem with hmem | hmem
      · obtain ⟨r, hr, _⟩ := exists_of_mem_mapRefs hmem
        exact Or.inr (Or.inr (Or.inl ⟨r, hr⟩))
      · exact Or.inr (Or.inr (Or.inr (mem_heldAll.mp hmem)))
  · obtain ⟨⟨p, pf⟩, hp⟩ := PhysicalFile.allocate_isSome hs.idle
    obtain ⟨hnull, hout⟩ := hs.accounts.allocate_fresh hp
    refine ⟨p, pf, hp, ?_, ?_, ?_⟩
    · rintro r rfl
      exact hout (Multiset.mem_add.mpr (Or.inl (mem_mapRefs hnull)))
    · rintro r rfl
      exact hout (by simp [mem_mapRefs hnull])
    · intro u hu hmem
      exact hout (hs.names_mem hu hmem hnull)

/-- A uop that reads `rbx` and writes `rax` and all flags. -/
def sampleOp : TransOp :=
  { setflags := Fin.last 7, rd := REG_rax, ra := REG_rbx, rb := REG_imm, rc := REG_imm }

theorem register_accounting_sample :
    ∃ s, run step {} [.reset false 0, .fetch sampleOp, .rename, .complete 0, .retire] = some s ∧
      s.physicalFile.freeList.Nodup ∧ ∃ p pf, s.physicalFile.allocate = some (p, pf) ∧
        ∀ r, s.frontEndMap r ≠ p := by
  obtain ⟨s, hs⟩ := Option.isSome_iff_exists.mp (show (run step {}
    [.reset false 0, .fetch sampleOp, .rename, .complete 0, .retire]).isSome by decide +kernel)
  obtain ⟨_, _, hnodup, _, p, pf, hp, hfe, _⟩ := register_accounting ⟨_, hs⟩
  exact ⟨s, hs, hnodup, p, pf, hp, hfe⟩

end RegisterState
end FeS2.Pyrite
