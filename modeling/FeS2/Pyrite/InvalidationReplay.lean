import FeS2.Pyrite.QuietStep

/-!
Two loads of one line and the invalidations between them. An invalidation marks
the oldest issued load of the line; that load may still commit, and what is
younger is replayed. A load whose only mark is its own, or whose mark came to a
load past the check, keeps its value however late an older load reads.
-/

namespace FeS2.Pyrite
namespace LoadStoreWindow
open EventSystem

/-- The loads retire in program order; of one line, each has been told of at
least the invalidations that the loads before it had. -/
def LoadsInOrder (s : LoadStoreWindow) : Prop :=
  s.retired.Pairwise fun older younger => older.1 = younger.1 → older.2 ≤ younger.2

/-- A uop still to be checked will have `j` replayed. -/
def WillReplay (s : LoadStoreWindow) (j : Nat) : Prop :=
  ∃ f < j + 1, s.qRetire ≤ f ∧
    ((s.inst f).loadOrderingViolation ∨ ((s.inst f).loadConsistencyViolation ∧ f < j))

instance (s : LoadStoreWindow) (j : Nat) : Decidable (s.WillReplay j) :=
  inferInstanceAs (Decidable (∃ f < j + 1, _ ∧ _))

/-- A load that has read before an invalidation of its line that the processor was told of. -/
def Stale (s : LoadStoreWindow) (j : Nat) : Prop :=
  (s.inst j).HasRead ∧ (s.inst j).readAt < s.told (s.inst j).line

instance (s : LoadStoreWindow) (j : Nat) : Decidable (s.Stale j) :=
  inferInstanceAs (Decidable (_ ∧ _))

/-- No load reads its line while a younger load of the line is stale and left
to itself. -/
def ReadsAhead (s : LoadStoreWindow) : Event → Prop
  | .completeLoad i =>
      (s.loadSearch i).isSome → ∀ j < s.qRename, i < j → (s.inst j).line = (s.inst i).line →
        s.Stale j → (s.inst j).exposed → s.WillReplay j
  | _ => True

instance (s : LoadStoreWindow) : ∀ e, Decidable (s.ReadsAhead e)
  | .completeLoad _ => inferInstanceAs (Decidable (_ → _))
  | .fetch .. | .rename | .addressGenerate .. | .executeStore .. | .executeLoad _
  | .completeOther _ | .retire | .flushPipeline _ | .invalidation _ | .reset _ => isTrue trivial

/-- The load at `j` read its line in an older state than one that was told `n` times. -/
def Behind (s : LoadStoreWindow) (line n j : Nat) : Prop :=
  (s.inst j).HasRead ∧ (s.inst j).line = line ∧ (s.inst j).readAt < n

structure InOrder (s : LoadStoreWindow) : Prop where
  wf : Wf s
  read_le : ∀ q, s.qTail ≤ q → q < s.qRename → (s.inst q).HasRead →
    (s.inst q).readAt ≤ s.told (s.inst q).line
  retired_le : ∀ x ∈ s.retired, x.2 ≤ s.told x.1
  stale : ∀ j, s.qRetire ≤ j → j < s.qRename → s.Stale j → (s.inst j).exposed = false →
    s.WillReplay j
  behind : ∀ i j, s.qTail ≤ i → i < j → j < s.qRename → (s.inst i).HasRead →
    s.Behind (s.inst i).line (s.inst i).readAt j → s.qRetire ≤ j ∧ s.WillReplay j
  behind_retired : ∀ x ∈ s.retired, ∀ j, s.qTail ≤ j → j < s.qRename → s.Behind x.1 x.2 j →
    s.qRetire ≤ j ∧ s.WillReplay j
  loads : s.LoadsInOrder

theorem inOrder_init : InOrder {} where
  wf := wf_init
  read_le q _ h := absurd h (Nat.not_lt_zero q)
  retired_le _ h := absurd h List.not_mem_nil
  stale j _ h := absurd h (Nat.not_lt_zero j)
  behind _ j _ _ h := absurd h (Nat.not_lt_zero j)
  behind_retired _ h := absurd h List.not_mem_nil
  loads := List.Pairwise.nil

section
variable {s s' : LoadStoreWindow} {u : MemInst} {q : Nat}

theorem Quiet.willReplay (h : Quiet s s') {j : Nat} (hj : j < s'.qRename)
    (hp : s.WillReplay j) : s'.WillReplay j := by
  obtain ⟨f, hf, hretire, hmark⟩ := hp
  have hlt : f < s'.qRename := by omega
  exact ⟨f, hf, h.qRetire.trans hretire,
    hmark.imp (h.ordering f hlt) (And.imp_left (h.consistency f hlt))⟩

theorem line_congr {v : MemInst} (h : v.memOperand = u.memOperand) : v.line = u.line :=
  congrArg DoubleWord.alignedAddr h

theorem Quiet.behind (h : Quiet s s') {line n j : Nat} (hj : j < s'.qRename)
    (hb : s'.Behind line n j) : j < s.qRename ∧ s.Behind line n j := by
  obtain ⟨hread, hline, hlt⟩ := hb
  obtain ⟨hren, hread', hop, hat, _⟩ := h.read j hj hread
  exact ⟨hren, hread', (line_congr hop).symm.trans hline, hat ▸ hlt⟩

theorem Quiet.inOrder (h : Quiet s s') (hs : InOrder s) (hwf : Wf s') : InOrder s' where
  wf := hwf
  read_le q htail hq hread := by
    obtain ⟨hren, hread', hop, hat, _⟩ := h.read q hq hread
    rw [line_congr hop, hat, h.told]
    exact hs.read_le q (h.qTail ▸ htail) hren hread'
  retired_le x hx := by
    rw [h.told]
    exact hs.retired_le x (h.retired ▸ hx)
  stale j hretire hj hstale hexp := by
    obtain ⟨hread, hlt⟩ := hstale
    obtain ⟨hren, hread', hop, hat, hexp'⟩ := h.read j hj hread
    rw [line_congr hop, hat, h.told] at hlt
    exact h.willReplay hj
      (hs.stale j (h.checked j hretire hj) hren ⟨hread', hlt⟩ (hexp' ▸ hexp))
  behind i j htail hij hj hread hb := by
    obtain ⟨_, hread', hop, hat, _⟩ := h.read i (hij.trans hj) hread
    rw [line_congr hop, hat] at hb
    obtain ⟨hren, hb'⟩ := h.behind hj hb
    obtain ⟨hretire, hp⟩ := hs.behind i j (h.qTail ▸ htail) hij hren hread' hb'
    exact ⟨h.qRetire.trans hretire, h.willReplay hj hp⟩
  behind_retired x hx j htail hj hb := by
    obtain ⟨hren, hb'⟩ := h.behind hj hb
    obtain ⟨hretire, hp⟩ :=
      hs.behind_retired x (h.retired ▸ hx) j (h.qTail ▸ htail) hren hb'
    exact ⟨h.qRetire.trans hretire, h.willReplay hj hp⟩
  loads := by
    unfold LoadsInOrder
    rw [h.retired]
    exact hs.loads

theorem InOrder.reset (hs : InOrder s) (memory : Nat → BitVec 8) : InOrder (s.reset memory) where
  wf := hs.wf.reset memory
  read_le _ htail hq := absurd hq (not_lt.mpr htail)
  retired_le := hs.retired_le
  stale _ hretire hj := absurd hj (not_lt.mpr hretire)
  behind _ _ htail hij hj := absurd (htail.trans_lt (hij.trans hj)) (lt_irrefl _)
  behind_retired _ _ _ htail hj := absurd hj (not_lt.mpr htail)
  loads := hs.loads

/-! A load reads -/

theorem willReplay_setInst {j : Nat}
    (hord : (s.inst q).loadOrderingViolation → u.loadOrderingViolation)
    (hcons : (s.inst q).loadConsistencyViolation → u.loadConsistencyViolation)
    (h : s.WillReplay j) : (s.setInst q u).WillReplay j := by
  obtain ⟨f, hf, hretire, hmark⟩ := h
  refine ⟨f, hf, hretire, ?_⟩
  by_cases hfq : f = q
  · subst hfq
    rw [setInst_self]
    exact hmark.imp hord (And.imp_left hcons)
  · rwa [setInst_of_ne hfq]

/-- A load reads its line as it is now: only younger loads of the line can be behind it. -/
theorem InOrder.load {dw : DoubleWord} (hs : InOrder s) (hq : s.qRetire ≤ q)
    (hline : (s.inst q).line = dw.alignedAddr)
    (hwf : Wf (s.setInst q ((s.inst q).load dw (s.told (s.inst q).line))))
    (hahead : ∀ j < s.qRename, q < j → (s.inst j).line = (s.inst q).line → s.Stale j →
      (s.inst j).exposed → s.WillReplay j) :
    InOrder (s.setInst q ((s.inst q).load dw (s.told (s.inst q).line))) := by
  set u := (s.inst q).load dw (s.told (s.inst q).line) with hu
  have huline : u.line = (s.inst q).line := hline.symm
  have huat : u.readAt = s.told (s.inst q).line := rfl
  have hkeep : ∀ {j}, s.WillReplay j → (s.setInst q u).WillReplay j :=
    willReplay_setInst id id
  constructor
  · exact hwf
  · intro p htail hp hread
    by_cases hpq : p = q
    · rw [hpq, setInst_self, huline, huat]
      exact le_rfl
    · rw [setInst_of_ne hpq] at hread ⊢
      exact hs.read_le p htail hp hread
  · exact hs.retired_le
  · intro j hretire hj hstale hexp
    unfold Stale at hstale
    by_cases hjq : j = q
    · rw [hjq, setInst_self, huline, huat] at hstale
      exact absurd hstale.2 (lt_irrefl _)
    · rw [setInst_of_ne hjq] at hstale hexp
      exact hkeep (hs.stale j hretire hj hstale hexp)
  · intro i j htail hij hj hread hb
    unfold Behind at hb
    by_cases hjq : j = q
    · -- the load that reads now is behind nothing
      have hiq : i ≠ q := by omega
      rw [hjq, setInst_self, setInst_of_ne hiq, huat, huline] at hb
      rw [setInst_of_ne hiq] at hread
      have hle := hs.read_le i htail (hij.trans hj) hread
      rw [← hb.2.1] at hle
      exact absurd hb.2.2 (not_lt.mpr hle)
    · rw [setInst_of_ne hjq] at hb
      by_cases hiq : i = q
      · rw [hiq, setInst_self, huline, huat] at hb
        have hretire : s.qRetire ≤ j := by omega
        have hstale : s.Stale j := ⟨hb.1, hb.2.1 ▸ hb.2.2⟩
        refine ⟨hretire, hkeep ?_⟩
        cases hexp : (s.inst j).exposed with
        | false => exact hs.stale j hretire hj hstale hexp
        | true => exact hahead j hj (hiq ▸ hij) hb.2.1 hstale hexp
      · rw [setInst_of_ne hiq] at hb hread
        exact (hs.behind i j htail hij hj hread hb).imp_right hkeep
  · intro x hx j htail hj hb
    unfold Behind at hb
    by_cases hjq : j = q
    · rw [hjq, setInst_self, huat, huline] at hb
      have hle := hs.retired_le x hx
      rw [← hb.2.1] at hle
      exact absurd hb.2.2 (not_lt.mpr hle)
    · rw [setInst_of_ne hjq] at hb
      exact (hs.behind_retired x hx j htail hj hb).imp_right hkeep
  · exact hs.loads

theorem InOrder.completeLoad (hs : InOrder s) (hahead : s.ReadsAhead (.completeLoad q))
    (h : s.completeLoad q = some s') : InOrder s' := by
  have hwf := hs.wf.completeLoad h
  obtain ⟨⟨hq, hclass, hstage, hins⟩, h⟩ := completeLoad_eq hs.wf h
  have hval := waiting_no_value hclass hstage
  rcases h with ⟨hsize, rfl⟩ | rfl | ⟨hsize, lsqData, dw, hdata, hdw, rfl⟩
  · exact (quiet_complete_empty hsize).inOrder hs hwf
  · exact hs
  · obtain ⟨haddr, _⟩ := @loaded_operand s q lsqData dw _ hs.wf hins hval hsize hdw
    have hretire : s.qRetire ≤ q := hs.wf.not_passed hq.1 (by simp [hstage])
    refine hs.load hretire ?_ hwf (hahead (by rw [hdata]; rfl))
    simp only [MemInst.line, DoubleWord.alignedAddr, haddr]

/-! An invalidation -/

/-- The load is found in the list of the first doubleword of its line. -/
theorem mem_issuedLoads {j : Nat} (hs : Wf s) (htail : s.qTail ≤ j) (hj : j < s.qRename)
    (hread : (s.inst j).HasRead) : j ∈ s.issuedLoads (s.inst j).line := by
  have hissued := MemInst.isMemoryIssued_of_complete hread.2.1
  have hins : (s.inst j).lsqInserted := (hs.inst j).issued (by simp [hread.1]) hissued
  unfold issuedLoads
  rw [List.mem_filter, List.mem_flatMap]
  refine ⟨⟨0, by simp, ?_⟩, ?_⟩
  · exact (hs.lsq_mem _ j).mpr ⟨⟨htail, hj⟩, hins, rfl⟩
  · simp [MemInst.isIssuedLoad, hread.1, hissued]

/-- The search has marked a load that is still to be checked, or the load is left to itself. -/
theorem willReplay_invalidate {lineAddr oldest j : Nat} (hs : Wf s) (hretire : s.qRetire ≤ j)
    (hj : j < s.qRename) (hread : (s.inst j).HasRead) (hline : (s.inst j).line = lineAddr)
    (hmin : (s.issuedLoads lineAddr).min? = some oldest)
    (hexp : (invalidate (s.issuedLoads lineAddr) oldest s.qRetire j (s.inst j)).exposed = false) :
    s.qRetire ≤ oldest ∧ oldest < j := by
  have hmem := mem_issuedLoads hs (hs.tail_le.trans hretire) hj hread
  rw [hline] at hmem
  have hle := (List.min?_eq_some_iff.mp hmin).2 j hmem
  simp only [invalidate, Bool.or_eq_false_iff, Bool.and_eq_false_iff, hmem, decide_true,
    decide_eq_false_iff_not, beq_eq_false_iff_ne, Bool.true_eq_false, false_or] at hexp
  omega

theorem InOrder.tell {lineAddr : Nat} (hs : InOrder s) (hwf : Wf s')
    (hqTail : s'.qTail = s.qTail) (hqRetire : s'.qRetire = s.qRetire)
    (hqRename : s'.qRename = s.qRename) (htold : s'.told = (s.tell lineAddr).told)
    (hretired : s'.retired = s.retired)
    (hread : ∀ j, (s'.inst j).HasRead → (s.inst j).HasRead)
    (hline : ∀ j, (s'.inst j).line = (s.inst j).line)
    (hat : ∀ j, (s'.inst j).readAt = (s.inst j).readAt)
    (hord : ∀ f, (s.inst f).loadOrderingViolation → (s'.inst f).loadOrderingViolation)
    (hcons : ∀ f, (s.inst f).loadConsistencyViolation → (s'.inst f).loadConsistencyViolation)
    (hexp : ∀ j, (s'.inst j).exposed = false → (s.inst j).exposed = false)
    (hmark : ∀ j, s.qRetire ≤ j → j < s.qRename → (s.inst j).HasRead →
      (s.inst j).line = lineAddr → (s'.inst j).exposed = false → s'.WillReplay j) :
    InOrder s' := by
  have hkeep : ∀ {j}, s.WillReplay j → s'.WillReplay j := by
    rintro j ⟨f, hf, hretire, hm⟩
    exact ⟨f, hf, hqRetire ▸ hretire, hm.imp (hord f) (And.imp_left (hcons f))⟩
  have hbehind : ∀ {line n j}, s'.Behind line n j → s.Behind line n j := by
    rintro line n j ⟨hr, hl, hlt⟩
    exact ⟨hread j hr, hline j ▸ hl, hat j ▸ hlt⟩
  have hle : ∀ a, s.told a ≤ s'.told a := by
    intro a
    rw [htold]
    by_cases ha : a = lineAddr
    · simp [LoadStoreWindow.tell, ha]
    · simp [LoadStoreWindow.tell, ha]
  constructor
  · exact hwf
  · intro q htail hq hr
    rw [hline, hat]
    exact (hs.read_le q (hqTail ▸ htail) (hqRename ▸ hq) (hread q hr)).trans (hle _)
  · intro x hx
    exact (hs.retired_le x (hretired ▸ hx)).trans (hle _)
  · intro j hretire hj hstale he
    rw [hqRetire] at hretire
    rw [hqRename] at hj
    have hr := hread j hstale.1
    by_cases ha : (s.inst j).line = lineAddr
    · exact hmark j hretire hj hr ha he
    · have hlt := hstale.2
      rw [htold, hline, hat] at hlt
      simp only [LoadStoreWindow.tell, Function.update_of_ne ha] at hlt
      exact hkeep (hs.stale j hretire hj ⟨hr, hlt⟩ (hexp j he))
  · intro i j htail hij hj hr hb
    rw [hline, hat] at hb
    rw [hqRetire]
    exact (hs.behind i j (hqTail ▸ htail) hij (hqRename ▸ hj) (hread i hr) (hbehind hb)).imp_right
      hkeep
  · intro x hx j htail hj hb
    rw [hqRetire]
    exact (hs.behind_retired x (hretired ▸ hx) j (hqTail ▸ htail) (hqRename ▸ hj)
      (hbehind hb)).imp_right hkeep
  · unfold LoadsInOrder
    rw [hretired]
    exact hs.loads

theorem InOrder.invalidationSearch {lineAddr : Nat} (hs : InOrder s)
    (h : s.invalidationSearch lineAddr = some s') : InOrder s' := by
  have hwf := hs.wf.invalidationSearch h
  obtain ⟨hnone, rfl⟩ | ⟨oldest, hmin, rfl⟩ := invalidationSearch_eq h
  · refine hs.tell hwf rfl rfl rfl rfl rfl (fun _ => id) (fun _ => rfl) (fun _ => rfl)
      (fun _ => id) (fun _ => id) (fun _ => id) fun j hretire hj hr hl _ => ?_
    have hmem := mem_issuedLoads hs.wf (hs.wf.tail_le.trans hretire) hj hr
    rw [hl, List.min?_eq_none_iff.mp hnone] at hmem
    cases hmem
  · refine hs.tell hwf rfl rfl rfl rfl rfl (fun _ => id) (fun _ => rfl) (fun _ => rfl)
      (fun _ => id) (fun f hf => ?_) (fun j hj => ?_) fun j hretire hj hr hl he => ?_
    · simp only [invalidate, hf, Bool.true_or]
    · exact (Bool.or_eq_false_iff.mp hj).1
    · obtain ⟨hold, hlt⟩ := willReplay_invalidate hs.wf hretire hj hr hl hmin he
      refine ⟨oldest, by omega, hold, Or.inr ⟨?_, hlt⟩⟩
      simp [invalidate]

/-! Retirement -/

/-- A uop that passes the check protects nothing that stays. -/
theorem willReplay_passed {j : Nat} (hord : (s.inst s.qRetire).loadOrderingViolation = false)
    (hcons : (s.inst s.qRetire).loadConsistencyViolation → s.qRename = s.qRetire + 1)
    (hj : j < s.qRename) (h : s.WillReplay j) :
    ∃ f < j + 1, s.qRetire + 1 ≤ f ∧
      ((s.inst f).loadOrderingViolation ∨ ((s.inst f).loadConsistencyViolation ∧ f < j)) := by
  obtain ⟨f, hf, hretire, hmark⟩ := h
  refine ⟨f, hf, ?_, hmark⟩
  rcases Nat.lt_or_eq_of_le hretire with hlt | rfl
  · exact hlt
  · rcases hmark with hm | ⟨hm, hlt⟩
    · rw [hord] at hm
      cases hm
    · have := hcons hm
      omega

theorem InOrder.advance (hs : InOrder s) (hwf : Wf s.advance)
    (hord : (s.inst s.qRetire).loadOrderingViolation = false)
    (hcons : (s.inst s.qRetire).loadConsistencyViolation → s.qRename = s.qRetire + 1) :
    InOrder s.advance := by
  have hpass : ∀ {j}, j < s.qRename → s.WillReplay j → s.qRetire + 1 ≤ j ∧ s.advance.WillReplay j := by
    intro j hj hp
    obtain ⟨f, hf, hretire, hm⟩ := willReplay_passed hord hcons hj hp
    exact ⟨by omega, f, hf, hretire, hm⟩
  exact {
    wf := hwf
    read_le := hs.read_le
    retired_le := hs.retired_le
    stale := fun j hretire hj hstale he =>
      (hpass hj (hs.stale j ((Nat.le_succ _).trans hretire) hj hstale he)).2
    behind := fun i j htail hij hj hread hb =>
      hpass hj (hs.behind i j htail hij hj hread hb).2
    behind_retired := fun x hx j htail hj hb =>
      hpass hj (hs.behind_retired x hx j htail hj hb).2
    loads := hs.loads }

theorem InOrder.commit (hs : InOrder s) (hwf : Wf s.commit)
    (hren : s.qRetire < s.qRename)
    (hord : (s.inst s.qRetire).loadOrderingViolation = false)
    (hcons : (s.inst s.qRetire).loadConsistencyViolation → s.qRename = s.qRetire + 1) :
    InOrder s.commit := by
  have htail := hs.wf.tail_le
  have hpass : ∀ {j}, j < s.qRename → s.WillReplay j → s.qRetire + 1 ≤ j ∧ s.commit.WillReplay j := by
    intro j hj hp
    obtain ⟨f, hf, hretire, hm⟩ := willReplay_passed hord hcons hj hp
    exact ⟨by omega, f, hf, hretire, hm⟩
  -- the loads that leave are those of the op, with what they read
  have hnew : ∀ x ∈ ((List.range' s.qTail (s.qRetire + 1 - s.qTail)).filter
      fun q => (s.inst q).HasRead).map fun q => ((s.inst q).line, (s.inst q).readAt),
      ∃ q, s.qTail ≤ q ∧ q < s.qRetire + 1 ∧ (s.inst q).HasRead ∧
        x = ((s.inst q).line, (s.inst q).readAt) := by
    intro x hx
    obtain ⟨q, hq, rfl⟩ := List.mem_map.mp hx
    rw [List.mem_filter, List.mem_range'_1, decide_eq_true_eq] at hq
    exact ⟨q, hq.1.1, by omega, hq.2, rfl⟩
  constructor
  · exact hwf
  · intro q hq hj hread
    change s.qRetire + 1 ≤ q at hq
    exact hs.read_le q (by omega) hj hread
  · intro x hx
    rcases List.mem_append.mp hx with hx | hx
    · exact hs.retired_le x hx
    · obtain ⟨q, hq, hq', hread, rfl⟩ := hnew x hx
      exact hs.read_le q hq (by omega) hread
  · intro j hretire hj hstale he
    exact (hpass hj (hs.stale j ((Nat.le_succ _).trans hretire) hj hstale he)).2
  · intro i j hi hij hj hread hb
    change s.qRetire + 1 ≤ i at hi
    exact hpass hj (hs.behind i j (by omega) hij hj hread hb).2
  · intro x hx j htl hj hb
    change s.qRetire + 1 ≤ j at htl
    rcases List.mem_append.mp hx with hx | hx
    · exact hpass hj (hs.behind_retired x hx j (by omega) hj hb).2
    · obtain ⟨q, hq, hq', hread, rfl⟩ := hnew x hx
      exact hpass hj (hs.behind q j hq (by omega) hj hread hb).2
  · refine List.pairwise_append.mpr ⟨hs.loads, ?_, ?_⟩
    · rw [List.pairwise_map, List.pairwise_filter]
      refine List.Pairwise.imp_of_mem ?_ List.pairwise_lt_range'
      intro i j hi hj hij hri hrj hline
      rw [decide_eq_true_eq] at hri hrj
      rw [List.mem_range'_1] at hi hj
      by_contra hlt
      have hb : s.Behind (s.inst i).line (s.inst i).readAt j :=
        ⟨hrj, hline.symm, not_le.mp hlt⟩
      have := (hpass (j := j) (by omega) (hs.behind i j hi.1 hij (by omega) hri hb).2).1
      omega
    · intro x hx y hy hline
      obtain ⟨j, hj, hj', hread, rfl⟩ := hnew y hy
      by_contra hlt
      have hb : s.Behind x.1 x.2 j := ⟨hread, hline.symm, not_le.mp hlt⟩
      have := (hpass (j := j) (by omega) (hs.behind_retired x hx j hj (by omega) hb).2).1
      omega

theorem InOrder.retire (hs : InOrder s) (h : s.retire = some s') : InOrder s' := by
  have hwf := hs.wf.retire h
  obtain ⟨u, hu, h⟩ := retire_eq h
  obtain ⟨hlt, _, hwf1⟩ := retireReady_setInst hs.wf hu
  have hs1 := (quiet_retireReady hu).inOrder hs hwf1
  obtain ⟨hwfc, hren⟩ := hs.wf.checked hu
  obtain ⟨_, hretire, hself⟩ := checked_frame (s := s) u
  have hsc : InOrder (s.checked u) := by
    unfold LoadStoreWindow.checked at hwfc ⊢
    split
    · rename_i hc
      rw [if_pos hc] at hwfc
      exact (quiet_squashFrom (s := s.setInst s.qRetire u) hlt).inOrder hs1 hwfc
    · exact hs1
  rcases h with ⟨_, rfl⟩ | ⟨hord, h⟩
  · exact (quiet_squashFrom (s := s.setInst s.qRetire u) hlt.le).inOrder hs1 hwf
  · have hord' : ((s.checked u).inst (s.checked u).qRetire).loadOrderingViolation = false := by
      rw [hretire, hself]
      exact hord
    have hcons : ((s.checked u).inst (s.checked u).qRetire).loadConsistencyViolation →
        (s.checked u).qRename = (s.checked u).qRetire + 1 := by
      rw [hretire, hself]
      intro hc
      unfold LoadStoreWindow.checked
      rw [if_pos hc]
      rfl
    rcases h with rfl | rfl
    · exact hsc.commit hwf (hretire ▸ hren) hord' hcons
    · exact hsc.advance hwf hord' hcons

theorem InOrder.step {e : Event} (hs : InOrder s) (hahead : s.ReadsAhead e)
    (h : s.step e = some s') : InOrder s' := by
  have hwf : Wf s' := hs.wf.step h
  cases e with
  | fetch c b =>
      obtain rfl := Option.some.inj h
      exact (quiet_fetch hs.wf c b).inOrder hs hwf
  | rename => exact (quiet_rename hs.wf h).inOrder hs hwf
  | addressGenerate q cond physAddr numBytes =>
      exact (quiet_addressGenerate hs.wf h).inOrder hs hwf
  | executeStore q value => exact (quiet_executeStore h).inOrder hs hwf
  | executeLoad q => exact (quiet_executeLoad hs.wf h).inOrder hs hwf
  | completeLoad q => exact hs.completeLoad hahead h
  | completeOther q => exact (quiet_completeOther h).inOrder hs hwf
  | retire => exact hs.retire h
  | flushPipeline q => exact (quiet_flushPipeline h).inOrder hs hwf
  | invalidation lineAddr => exact hs.invalidationSearch h
  | reset memory =>
      obtain rfl := Option.some.inj h
      exact hs.reset memory

end

/-- Where no load reads while a younger load of its line is stale and left to
itself, all loads of a line retire in the order of their invalidations. -/
theorem loads_in_order_throughout {es : List Event} (h : Along step ReadsAhead {} es) :
    Throughout step LoadsInOrder {} es :=
  h.throughout (fun _ hs => hs.loads) (fun _ _ _ hs hC he => hs.step hC he) inOrder_init

/-- Two loads of one line, each an x86 op, with their addresses known. -/
def twoLoads : List Event :=
  [.fetch .load true, .fetch .load true, .rename, .rename,
    .addressGenerate 0 .LDST_ALIGN_NORMAL 0 8, .addressGenerate 1 .LDST_ALIGN_NORMAL 8 8]

/-- The older load has missed when the line is invalidated: its mark has the younger replayed. -/
theorem loads_in_order_marked : Throughout step LoadsInOrder {} (twoLoads ++
    [.executeLoad 0, .executeLoad 1, .completeLoad 1, .invalidation 0, .completeLoad 0, .retire,
      .rename, .addressGenerate 1 .LDST_ALIGN_NORMAL 8 8, .executeLoad 1, .completeLoad 1,
      .retire]) :=
  loads_in_order_throughout (by decide +kernel)

/-- The younger load is the only one that has issued when the line is
invalidated. It is marked itself, and commits with the value it read before. -/
theorem younger_load_commits_stale : ¬ ∀ es s, run step {} es = some s → s.LoadsInOrder := by
  intro h
  have hrun : (run step {} (twoLoads ++ [.executeLoad 1, .completeLoad 1, .invalidation 0,
      .executeLoad 0, .completeLoad 0, .retire, .retire])).map (·.retired)
      = some [(0, 1), (0, 0)] := by
    decide +kernel
  obtain ⟨s, hs, hretired⟩ := Option.map_eq_some_iff.mp hrun
  have horder := h _ s hs
  rw [LoadsInOrder, hretired] at horder
  simp at horder

end LoadStoreWindow
end FeS2.Pyrite
