import Mathlib.Data.List.DropRight
import Mathlib.Data.List.Perm.Basic
import FeS2.Pyrite.LoadStoreQueue

/-!
One call of `OutorderScheduler::select`. The ready list is in the order of the
queue pointers; the loop walks it once and counts what it issues. A store is
tested against the store width alone, so that it may come on top of a memory
width that loads have used up.
-/

namespace FeS2.Pyrite

/-- An executable uop on the list; its priority is its queue pointer. -/
structure ReadyUop where
  qPtr : Nat
  uopClass : UopClass
  deriving DecidableEq

namespace ReadyUop

def isload (d : ReadyUop) : Bool := d.uopClass = .load
def isstore (d : ReadyUop) : Bool := d.uopClass = .store
def ismem (d : ReadyUop) : Bool := d.isload || d.isstore

end ReadyUop

structure IssueWidths where
  executeWidth : Nat
  memoryIssueWidth : Nat
  storeIssueWidth : Nat

/-- The counters of the loop. -/
structure IssueCounts where
  numExecuted : Nat := 0
  numMemory : Nat := 0
  numStore : Nat := 0

def IssueCounts.issue (c : IssueCounts) (d : ReadyUop) : IssueCounts :=
  { numExecuted := c.numExecuted + 1
    numMemory := if d.isload || d.isstore then c.numMemory + 1 else c.numMemory
    numStore := if d.isstore then c.numStore + 1 else c.numStore }

/-- `OrderedWaitList`. -/
structure ReadyList where
  uops : List ReadyUop := []
  sorted : uops.Pairwise fun d e => d.qPtr ≤ e.qPtr := by simp

namespace ReadyList

theorem le_of_mem_rdropWhile {d e : ReadyUop} {l : List ReadyUop}
    (hl : l.Pairwise fun d e => d.qPtr ≤ e.qPtr)
    (he : e ∈ l.rdropWhile fun x => d.qPtr < x.qPtr) : e.qPtr ≤ d.qPtr := by
  have hne : l.rdropWhile (fun x => d.qPtr < x.qPtr) ≠ [] := List.ne_nil_of_mem he
  have hlast := List.rdropWhile_last_not _ l hne
  have hpre := hl.sublist (List.rdropWhile_prefix (fun x => decide (d.qPtr < x.qPtr)) l).sublist
  rw [← List.dropLast_append_getLast hne] at he hpre
  have hle : e.qPtr ≤ ((l.rdropWhile fun x => d.qPtr < x.qPtr).getLast hne).qPtr := by
    rcases List.mem_append.mp he with he | he
    · exact (List.pairwise_append.mp hpre).2.2 e he _ (List.mem_singleton_self _)
    · rw [List.mem_singleton.mp he]
  have hnot := of_decide_eq_false (Bool.eq_false_iff.mpr hlast)
  omega

/-- From the back, past the younger ones. -/
def insertWaiter (d : ReadyUop) (l : ReadyList) : ReadyList where
  uops := (l.uops.rdropWhile fun e => d.qPtr < e.qPtr) ++
    d :: l.uops.rtakeWhile fun e => d.qPtr < e.qPtr
  sorted := by
    have hsuffix : ∀ e ∈ l.uops.rtakeWhile fun e => d.qPtr < e.qPtr, d.qPtr < e.qPtr := by
      intro e he
      simpa using List.mem_rtakeWhile_imp he
    refine List.pairwise_append.mpr ⟨l.sorted.sublist (List.rdropWhile_prefix _ _).sublist,
      List.pairwise_cons.mpr ⟨fun e he => (hsuffix e he).le,
        l.sorted.sublist (List.rtakeWhile_suffix _ _).sublist⟩, fun e he x hx => ?_⟩
    have hle := le_of_mem_rdropWhile l.sorted he
    rcases List.mem_cons.mp hx with rfl | hx
    · exact hle
    · exact hle.trans (hsuffix x hx).le

end ReadyList

/-- The loop over the rest of the list: what it issues, in order, and what it leaves. -/
def selectLoop (w : IssueWidths) (cacheReady : Bool) :
    IssueCounts → List ReadyUop → List ReadyUop × List ReadyUop
  | _, [] => ([], [])
  | c, d :: ds =>
      if (d.isload && c.numMemory ≥ w.memoryIssueWidth) ||
          (d.isstore && c.numStore ≥ w.storeIssueWidth) then
        let r := selectLoop w cacheReady c ds
        (r.1, d :: r.2)
      else if (d.isload || d.isstore) && !cacheReady then
        let r := selectLoop w cacheReady c ds
        (r.1, d :: r.2)
      else if (c.issue d).numExecuted ≥ w.executeWidth then ([d], ds)
      else
        let r := selectLoop w cacheReady (c.issue d) ds
        (d :: r.1, r.2)

/-- `OutorderScheduler::select`. -/
def ReadyList.select (w : IssueWidths) (cacheReady : Bool) (l : ReadyList) :
    List ReadyUop × List ReadyUop :=
  selectLoop w cacheReady {} l.uops

/-! What a call is to do -/

/-- The uop fits in what the widths leave after the ones counted, and the cache takes it. -/
def Fits (w : IssueWidths) (cacheReady : Bool) (c : IssueCounts) (d : ReadyUop) : Prop :=
  c.numExecuted < w.executeWidth ∧
  (d.ismem → c.numMemory < w.memoryIssueWidth ∧ cacheReady) ∧
  (d.isstore → c.numStore < w.storeIssueWidth)

def countAll (c : IssueCounts) (ds : List ReadyUop) : IssueCounts := ds.foldl IssueCounts.issue c

structure Respects (w : IssueWidths) (cacheReady : Bool) (l issued left : List ReadyUop) : Prop where
  execute : issued.length ≤ w.executeWidth
  memory : issued.countP ReadyUop.ismem ≤ w.memoryIssueWidth
  store : issued.countP ReadyUop.isstore ≤ w.storeIssueWidth
  oldestFirst : ∀ before d after, issued = before ++ d :: after →
    ∀ x ∈ left, x.qPtr < d.qPtr → ¬ Fits w cacheReady (countAll {} before) x
  kept : (issued ++ left).Perm l

/-- The uop would be issued first. -/
def Issuable (w : IssueWidths) (cacheReady : Bool) (d : ReadyUop) : Prop :=
  (d.ismem → cacheReady) ∧ (d.isload → 0 < w.memoryIssueWidth) ∧
    (d.isstore → 0 < w.storeIssueWidth)

/-- A store within the store width, with the memory width used up before it, and the execute
width not. -/
def Oversteps (w : IssueWidths) (l : List ReadyUop) : Prop :=
  ∃ before d after, l = before ++ d :: after ∧ d.isstore ∧
    before.countP ReadyUop.isstore < w.storeIssueWidth ∧
    w.memoryIssueWidth ≤ before.countP ReadyUop.ismem ∧
    before.countP (fun x => !x.ismem) + w.memoryIssueWidth < w.executeWidth

/-! One turn -/

/-- The two tests of a turn. -/
def skips (w : IssueWidths) (cacheReady : Bool) (c : IssueCounts) (d : ReadyUop) : Bool :=
  (d.isload && c.numMemory ≥ w.memoryIssueWidth) ||
    (d.isstore && c.numStore ≥ w.storeIssueWidth) || (d.ismem && !cacheReady)

section
variable {w : IssueWidths} {cacheReady : Bool} {c : IssueCounts} {d : ReadyUop}
  {ds : List ReadyUop}

theorem selectLoop_skip (h : skips w cacheReady c d) :
    selectLoop w cacheReady c (d :: ds) =
      ((selectLoop w cacheReady c ds).1, d :: (selectLoop w cacheReady c ds).2) := by
  rw [selectLoop]
  split
  · rfl
  · rename_i hwidth
    have hready : ((d.isload || d.isstore) && !cacheReady) = true := by
      unfold skips at h
      rw [Bool.eq_false_iff.mpr hwidth, Bool.false_or] at h
      exact h
    rw [if_pos hready]

theorem selectLoop_issue (h : skips w cacheReady c d = false) :
    selectLoop w cacheReady c (d :: ds) =
      if (c.issue d).numExecuted ≥ w.executeWidth then ([d], ds)
      else (d :: (selectLoop w cacheReady (c.issue d) ds).1,
        (selectLoop w cacheReady (c.issue d) ds).2) := by
  obtain ⟨hwidth, hready⟩ := Bool.or_eq_false_iff.mp h
  rw [selectLoop, if_neg (by rw [hwidth]; decide)]
  rw [if_neg (by rw [show (d.isload || d.isstore) = d.ismem from rfl, hready]; decide)]

/-- A skipped uop does not fit, now or later in the call. -/
theorem not_fits_of_skips {c' : IssueCounts} (h : skips w cacheReady c d)
    (hmem : c.numMemory ≤ c'.numMemory) (hstore : c.numStore ≤ c'.numStore) :
    ¬ Fits w cacheReady c' d := by
  rintro ⟨_, hm, hs⟩
  simp only [skips, Bool.or_eq_true, Bool.and_eq_true, decide_eq_true_eq] at h
  rcases h with (⟨hl, hge⟩ | ⟨hst, hge⟩) | ⟨hme, hnr⟩
  · have hlt := (hm (by simp [ReadyUop.ismem, hl])).1
    omega
  · have hlt := hs hst
    omega
  · rw [(hm hme).2] at hnr
    cases hnr

theorem issue_counts (c : IssueCounts) (d : ReadyUop) :
    (c.issue d).numExecuted = c.numExecuted + 1 ∧
    (c.issue d).numMemory = c.numMemory + (if d.ismem then 1 else 0) ∧
    (c.issue d).numStore = c.numStore + (if d.isstore then 1 else 0) := by
  refine ⟨rfl, ?_, ?_⟩
  · unfold IssueCounts.issue ReadyUop.ismem
    simp only
    split <;> rfl
  · unfold IssueCounts.issue
    simp only
    split <;> rfl

theorem issue_le (c : IssueCounts) (d : ReadyUop) :
    c.numMemory ≤ (c.issue d).numMemory ∧ c.numStore ≤ (c.issue d).numStore := by
  obtain ⟨-, hmemory, hstore⟩ := issue_counts c d
  rw [hmemory, hstore]
  exact ⟨Nat.le_add_right _ _, Nat.le_add_right _ _⟩

theorem countAll_le (c : IssueCounts) (ds : List ReadyUop) :
    c.numMemory ≤ (countAll c ds).numMemory ∧ c.numStore ≤ (countAll c ds).numStore := by
  induction ds generalizing c with
  | nil => exact ⟨le_rfl, le_rfl⟩
  | cons d ds ih =>
      have h1 := issue_le c d
      have h2 := ih (c.issue d)
      exact ⟨h1.1.trans h2.1, h1.2.trans h2.2⟩

/-! The whole call -/

theorem selectLoop_perm (c : IssueCounts) (l : List ReadyUop) :
    ((selectLoop w cacheReady c l).1 ++ (selectLoop w cacheReady c l).2).Perm l := by
  induction l generalizing c with
  | nil => exact List.Perm.refl _
  | cons d ds ih =>
      by_cases hskip : skips w cacheReady c d
      · rw [selectLoop_skip hskip]
        exact List.perm_middle.trans ((ih c).cons d)
      · rw [selectLoop_issue (Bool.eq_false_iff.mpr hskip)]
        split
        · exact List.Perm.refl _
        · exact (ih _).cons d

/-- No older uop that fits stays behind a younger one. -/
theorem selectLoop_oldestFirst (c : IssueCounts) {l : List ReadyUop}
    (hl : l.Pairwise fun d e => d.qPtr ≤ e.qPtr) {before after : List ReadyUop}
    (h : (selectLoop w cacheReady c l).1 = before ++ d :: after) :
    ∀ x ∈ (selectLoop w cacheReady c l).2, x.qPtr < d.qPtr →
      ¬ Fits w cacheReady (countAll c before) x := by
  induction l generalizing c before with
  | nil =>
      intro x hx
      cases hx
  | cons e es ih =>
      obtain ⟨hle, hes⟩ := List.pairwise_cons.mp hl
      by_cases hskip : skips w cacheReady c e
      · rw [selectLoop_skip hskip] at h ⊢
        intro x hx hlt
        rcases List.mem_cons.mp hx with rfl | hx
        · have hcount := countAll_le c before
          exact not_fits_of_skips hskip hcount.1 hcount.2
        · exact ih c hes h x hx hlt
      · rw [selectLoop_issue (Bool.eq_false_iff.mpr hskip)] at h ⊢
        split
        · rename_i hstop
          rw [if_pos hstop] at h
          -- the only uop issued is the first of the list
          intro x hx hlt
          cases before with
          | nil =>
              obtain ⟨rfl, -⟩ := List.cons.inj h
              exact absurd (hle x hx) (not_le.mpr hlt)
          | cons b bs =>
              have hlen := congrArg List.length h
              simp at hlen
        · rename_i hstop
          rw [if_neg hstop] at h
          intro x hx hlt
          cases before with
          | nil =>
              obtain ⟨rfl, -⟩ := List.cons.inj h
              have hmem := (selectLoop_perm (c.issue e) es).subset (List.mem_append_right _ hx)
              exact absurd (hle x hmem) (not_le.mpr hlt)
          | cons b bs =>
              obtain ⟨rfl, hrest⟩ := List.cons.inj h
              exact ih (c.issue e) hes hrest x hx hlt

theorem selectLoop_execute (l : List ReadyUop) (h : c.numExecuted < w.executeWidth) :
    c.numExecuted + (selectLoop w cacheReady c l).1.length ≤ w.executeWidth := by
  induction l generalizing c with
  | nil => exact h.le
  | cons d ds ih =>
      by_cases hskip : skips w cacheReady c d
      · rw [selectLoop_skip hskip]
        exact ih h
      · rw [selectLoop_issue (Bool.eq_false_iff.mpr hskip)]
        split
        · exact h
        · rename_i hgo
          have hnext := @ih (c.issue d) (by omega)
          have hcount : (c.issue d).numExecuted = c.numExecuted + 1 := rfl
          rw [List.length_cons]
          omega

theorem selectLoop_store (l : List ReadyUop) (h : c.numStore ≤ w.storeIssueWidth) :
    c.numStore + (selectLoop w cacheReady c l).1.countP ReadyUop.isstore ≤ w.storeIssueWidth := by
  induction l generalizing c with
  | nil => exact h
  | cons d ds ih =>
      by_cases hskip : skips w cacheReady c d
      · rw [selectLoop_skip hskip]
        exact ih h
      · have hbudget : d.isstore → c.numStore < w.storeIssueWidth := by
          intro hs
          by_contra hge
          exact hskip (by simp [skips, hs, not_lt.mp hge])
        have hcount : (c.issue d).numStore = c.numStore + if d.isstore then 1 else 0 := by
          unfold IssueCounts.issue
          simp only
          split <;> rfl
        rw [selectLoop_issue (Bool.eq_false_iff.mpr hskip)]
        split
        · rw [List.countP_cons, List.countP_nil]
          split
          · rename_i hs
            have := hbudget hs
            omega
          · omega
        · have hle : (c.issue d).numStore ≤ w.storeIssueWidth := by
            rw [hcount]
            split
            · rename_i hs
              exact hbudget hs
            · exact h
          have hnext := ih hle
          rw [hcount] at hnext
          rw [List.countP_cons]
          omega

theorem selectLoop_notReady (l : List ReadyUop) :
    ∀ d ∈ (selectLoop w false c l).1, d.ismem = false := by
  induction l generalizing c with
  | nil =>
      intro d hd
      cases hd
  | cons d ds ih =>
      by_cases hskip : skips w false c d
      · rw [selectLoop_skip hskip]
        exact ih
      · have hmem : d.ismem = false := by
          by_contra hm
          exact hskip (by simp [skips, Bool.eq_true_of_not_eq_false hm])
        rw [selectLoop_issue (Bool.eq_false_iff.mpr hskip)]
        split
        · intro e he
          rw [List.mem_singleton.mp he]
          exact hmem
        · intro e he
          rcases List.mem_cons.mp he with rfl | he
          · exact hmem
          · exact ih e he

/-! The memory width -/

/-- `Oversteps` for the rest of a list, after so many uops of each kind. -/
def OverstepsAfter (w : IssueWidths) (other mem store : Nat) (l : List ReadyUop) : Prop :=
  ∃ before d after, l = before ++ d :: after ∧ d.isstore ∧
    store + before.countP ReadyUop.isstore < w.storeIssueWidth ∧
    w.memoryIssueWidth ≤ mem + before.countP ReadyUop.ismem ∧
    other + before.countP (fun x => !x.ismem) + w.memoryIssueWidth < w.executeWidth

theorem overstepsAfter_zero {l : List ReadyUop} :
    OverstepsAfter w 0 0 0 l ↔ Oversteps w l := by
  simp only [OverstepsAfter, Oversteps, Nat.zero_add]

theorem overstepsAfter_cons {other mem store : Nat} :
    OverstepsAfter w other mem store (d :: ds) ↔
      (d.isstore ∧ store < w.storeIssueWidth ∧ w.memoryIssueWidth ≤ mem ∧
        other + w.memoryIssueWidth < w.executeWidth) ∨
      OverstepsAfter w (other + if d.ismem then 0 else 1) (mem + if d.ismem then 1 else 0)
        (store + if d.isstore then 1 else 0) ds := by
  have hother : (if (!d.ismem) = true then 1 else 0) = if d.ismem = true then 0 else 1 := by
    cases d.ismem <;> rfl
  constructor
  · rintro ⟨before, e, after, hl, hs, hstore, hmem, hexec⟩
    cases before with
    | nil =>
        obtain ⟨rfl, -⟩ := List.cons.inj hl
        exact .inl ⟨hs, hstore, hmem, hexec⟩
    | cons b bs =>
        obtain ⟨rfl, rfl⟩ := List.cons.inj hl
        rw [List.countP_cons] at hstore hmem hexec
        rw [hother] at hexec
        exact .inr ⟨bs, e, after, rfl, hs, by omega, by omega, by omega⟩
  · rintro (⟨hs, hstore, hmem, hexec⟩ | ⟨bs, e, after, rfl, hs, hstore, hmem, hexec⟩)
    · exact ⟨[], d, ds, rfl, hs, hstore, hmem, hexec⟩
    · refine ⟨d :: bs, e, after, rfl, hs, ?_, ?_, ?_⟩
      · rw [List.countP_cons]
        omega
      · rw [List.countP_cons]
        omega
      · rw [List.countP_cons, hother]
        omega

theorem not_overstepsAfter_of_execute {other mem store : Nat} {l : List ReadyUop}
    (h : w.executeWidth ≤ other + w.memoryIssueWidth) :
    ¬ OverstepsAfter w other mem store l := by
  rintro ⟨before, d, after, -, -, -, -, hexec⟩
  omega

theorem not_overstepsAfter_of_store {other mem store : Nat} {l : List ReadyUop}
    (h : w.storeIssueWidth ≤ store) : ¬ OverstepsAfter w other mem store l := by
  rintro ⟨before, d, after, -, -, hstore, -, -⟩
  omega

/-- Past the memory width, more memory uops make no difference. -/
theorem overstepsAfter_full {other mem mem' store : Nat} {l : List ReadyUop}
    (h : w.memoryIssueWidth ≤ mem) (h' : w.memoryIssueWidth ≤ mem') :
    OverstepsAfter w other mem store l ↔ OverstepsAfter w other mem' store l := by
  constructor
  · rintro ⟨before, d, after, hl, hs, hstore, -, hexec⟩
    exact ⟨before, d, after, hl, hs, hstore, by omega, hexec⟩
  · rintro ⟨before, d, after, hl, hs, hstore, -, hexec⟩
    exact ⟨before, d, after, hl, hs, hstore, by omega, hexec⟩

/-- The uop is issued: so it stays with the counts one up. -/
theorem skips_ready {c : IssueCounts} {d : ReadyUop} :
    skips w true c d = true ↔
      (d.isload ∧ w.memoryIssueWidth ≤ c.numMemory) ∨
        (d.isstore ∧ w.storeIssueWidth ≤ c.numStore) := by
  simp [skips]

theorem not_isload_of_isstore (h : d.isstore) : d.isload = false := by
  simp only [ReadyUop.isstore, decide_eq_true_eq] at h
  simp [ReadyUop.isload, h]

theorem selectLoop_memory_iff {other : Nat} (l : List ReadyUop)
    (hc : c.numExecuted = other + c.numMemory) (hexec : c.numExecuted < w.executeWidth)
    (hmem : c.numMemory ≤ w.memoryIssueWidth) :
    c.numMemory + (selectLoop w true c l).1.countP ReadyUop.ismem ≤ w.memoryIssueWidth ↔
      ¬ OverstepsAfter w other c.numMemory c.numStore l := by
  induction l generalizing c other with
  | nil =>
      refine iff_of_true hmem ?_
      rintro ⟨before, d, after, hl, -⟩
      cases before <;> cases hl
  | cons d ds ih =>
      rw [overstepsAfter_cons]
      by_cases hskip : skips w true c d
      · rw [selectLoop_skip hskip, ih hc hexec hmem]
        rcases skips_ready.mp hskip with ⟨hload, hfull⟩ | ⟨hstore, hfull⟩
        · -- a load past the memory width changes nothing
          have hm : d.ismem = true := by simp [ReadyUop.ismem, hload]
          have hs : d.isstore = false := by
            by_contra hs
            rw [not_isload_of_isstore (Bool.eq_true_of_not_eq_false hs)] at hload
            cases hload
          simp only [hm, hs, if_true, Bool.false_eq_true, if_false, false_and, false_or,
            Nat.add_zero]
          rw [overstepsAfter_full hfull (Nat.le_succ_of_le hfull)]
        · -- a store past the store width: no later one can overstep either
          refine iff_of_true (not_overstepsAfter_of_store hfull) ?_
          rintro (⟨-, hlt, -⟩ | h)
          · omega
          · exact not_overstepsAfter_of_store (by omega) h
      · obtain ⟨hexec', hmem', hstore'⟩ := issue_counts c d
        have hissue := Bool.eq_false_iff.mpr hskip
        by_cases hover : d.isstore ∧ c.numMemory = w.memoryIssueWidth
        · -- the store on top of a full memory width
          obtain ⟨hs, hfull⟩ := hover
          have hm : d.ismem = true := by simp [ReadyUop.ismem, hs]
          have hbudget : c.numStore < w.storeIssueWidth := by
            by_contra hge
            exact hskip (skips_ready.mpr (.inr ⟨hs, not_lt.mp hge⟩))
          refine iff_of_false ?_ (not_not.mpr (.inl ⟨hs, hbudget, hfull.ge, by omega⟩))
          rw [selectLoop_issue hissue]
          split
          · simp [hm, hfull]
          · simp only [List.countP_cons, hm, if_true]
            omega
        · have hroom : (c.issue d).numMemory ≤ w.memoryIssueWidth := by
            rw [hmem']
            split
            · rename_i hm
              rcases Bool.or_eq_true_iff.mp hm with hload | hs
              · by_contra hgt
                exact hskip (skips_ready.mpr (.inl ⟨hload, by omega⟩))
              · have hne : c.numMemory ≠ w.memoryIssueWidth := fun he => hover ⟨hs, he⟩
                omega
            · exact hmem
          have hfirst : ¬ (d.isstore = true ∧ c.numStore < w.storeIssueWidth ∧
              w.memoryIssueWidth ≤ c.numMemory ∧
              other + w.memoryIssueWidth < w.executeWidth) := by
            rintro ⟨hs, -, hge, -⟩
            exact hover ⟨hs, le_antisymm hmem hge⟩
          have hnext : (c.issue d).numExecuted =
              (other + if d.ismem then 0 else 1) + (c.issue d).numMemory := by
            rw [hexec', hmem', hc]
            cases d.ismem <;> simp <;> omega
          rw [or_iff_right hfirst, ← hmem', ← hstore', selectLoop_issue hissue]
          split
          · rename_i hstop
            refine iff_of_true ?_ (not_overstepsAfter_of_execute (by omega))
            rw [List.countP_cons, List.countP_nil, Nat.zero_add, ← hmem']
            exact hroom
          · rename_i hgo
            rw [← ih hnext (by omega) hroom, List.countP_cons, hmem']
            constructor <;> intro h <;> omega

end

/-! The call -/

section
variable {w : IssueWidths} {cacheReady : Bool} {l : List ReadyUop}

theorem skips_start {d : ReadyUop} :
    skips w cacheReady {} d = true ↔ ¬ Issuable w cacheReady d := by
  simp only [skips, Issuable, ReadyUop.ismem]
  cases d.isload <;> cases d.isstore <;> cases cacheReady <;> simp <;> omega

/-- The execute width is tested after the first issue. -/
theorem selectLoop_noWidth (hw : w.executeWidth = 0) :
    (selectLoop w cacheReady {} l).1.length ≤ 0 ↔ ∀ d ∈ l, ¬ Issuable w cacheReady d := by
  induction l with
  | nil => simp [selectLoop]
  | cons d ds ih =>
      by_cases hskip : skips w cacheReady {} d
      · rw [selectLoop_skip hskip, ih, List.forall_mem_cons]
        exact (and_iff_right (skips_start.mp hskip)).symm
      · rw [selectLoop_issue (Bool.eq_false_iff.mpr hskip), if_pos (by omega)]
        refine iff_of_false (by simp) fun h => hskip (skips_start.mpr ?_)
        exact h d List.mem_cons_self

end

/-- A call keeps to what it is to do exactly when no store comes on top of a memory width
that is used up, and an execute width of zero finds nothing to issue. -/
theorem select_respects_iff (w : IssueWidths) (cacheReady : Bool) (l : ReadyList) :
    Respects w cacheReady l.uops (l.select w cacheReady).1 (l.select w cacheReady).2 ↔
      (w.executeWidth = 0 → ∀ d ∈ l.uops, ¬ Issuable w cacheReady d) ∧
      (0 < w.executeWidth → cacheReady → ¬ Oversteps w l.uops) := by
  have hstore := @selectLoop_store w cacheReady {} l.uops (Nat.zero_le _)
  rw [show ({} : IssueCounts).numStore = 0 from rfl, Nat.zero_add] at hstore
  have hexecute : (l.select w cacheReady).1.length ≤ w.executeWidth ↔
      (w.executeWidth = 0 → ∀ d ∈ l.uops, ¬ Issuable w cacheReady d) := by
    by_cases hw : w.executeWidth = 0
    · rw [imp_iff_right hw, hw]
      exact selectLoop_noWidth hw
    · refine iff_of_true ?_ (absurd · hw)
      have h := @selectLoop_execute w cacheReady {} l.uops (Nat.pos_of_ne_zero hw)
      rwa [show ({} : IssueCounts).numExecuted = 0 from rfl, Nat.zero_add] at h
  have hmemory : 0 < w.executeWidth →
      ((l.select w cacheReady).1.countP ReadyUop.ismem ≤ w.memoryIssueWidth ↔
        (cacheReady → ¬ Oversteps w l.uops)) := by
    intro hw
    cases cacheReady with
    | false =>
        refine iff_of_true ?_ (by simp)
        have hnone := List.countP_eq_zero.mpr fun d hd =>
          Bool.eq_false_iff.mp (@selectLoop_notReady w {} l.uops d hd)
        exact hnone.le.trans (Nat.zero_le _)
    | true =>
        have h := @selectLoop_memory_iff w {} 0 l.uops rfl hw (Nat.zero_le _)
        rw [show ({} : IssueCounts).numMemory = 0 from rfl,
          show ({} : IssueCounts).numStore = 0 from rfl, Nat.zero_add, overstepsAfter_zero] at h
        rw [imp_iff_right rfl]
        exact h
  constructor
  · intro h
    exact ⟨hexecute.mp h.execute, fun hw => (hmemory hw).mp h.memory⟩
  · rintro ⟨hzero, hpos⟩
    have hlen := hexecute.mpr hzero
    refine ⟨hlen, ?_, hstore, fun _ _ _ h => selectLoop_oldestFirst {} l.sorted h,
      selectLoop_perm {} l.uops⟩
    by_cases hw : w.executeWidth = 0
    · have hcount : (l.select w cacheReady).1.countP ReadyUop.ismem ≤ _ := List.countP_le_length
      omega
    · have hwidth := Nat.pos_of_ne_zero hw
      exact (hmemory hwidth).mpr (hpos hwidth)

/-- Two loads and a store, all ready, on a machine of two memory uops a cycle. -/
def twoLoadsAndStore : ReadyList :=
  { uops := [⟨0, .load⟩, ⟨1, .load⟩, ⟨2, .store⟩] }

theorem store_over_memoryWidth :
    ¬ ∀ (w : IssueWidths) (cacheReady : Bool) (l : ReadyList),
      Respects w cacheReady l.uops (l.select w cacheReady).1 (l.select w cacheReady).2 := by
  intro h
  have hmem := (h { executeWidth := 4, memoryIssueWidth := 2, storeIssueWidth := 1 } true
    twoLoadsAndStore).memory
  revert hmem
  decide

end FeS2.Pyrite
