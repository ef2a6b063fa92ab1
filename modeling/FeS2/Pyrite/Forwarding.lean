import FeS2.Pyrite.LoadValues
import FeS2.Pyrite.ByteAlgebra

/-!
Whether a load takes its bytes from older stores. The gathered bytes are tested
against an operand that has none yet, so the test never succeeds; the same test
the other way round would decide the question.
-/

namespace FeS2.Pyrite.LoadStoreWindow
open EventSystem LastWriter

/-- The test of a load before it asks the cache: an `internal` one never asks. -/
def skipsCache (internal : Bool) (lsqData memOperand : DoubleWord) : Bool :=
  lsqData.covers memOperand || internal

/-- Each byte of the operand comes from an older store of the window. -/
def Supplied (s : LoadStoreWindow) (q : Nat) : Prop :=
  ∀ a, (s.inst q).memOperand.Covers a →
    ∃ p, (s.qTail ≤ p ∧ p < q) ∧ ((s.inst p).writes a).isSome

/-- The stores before the load that overlap it have executed. -/
def OlderExecuted (s : LoadStoreWindow) (q : Nat) : Prop :=
  ∀ p, s.qTail ≤ p → p < q → (s.inst p).lsqInserted → (s.inst p).uopClass = .store →
    (s.inst q).memOperand.overlaps (s.inst p).memOperand → (s.inst p).isMemoryIssued

theorem loadSearchAlong_isSome {inst : Nat → MemInst} {m : DoubleWord} {l : List Nat}
    (h : ∀ p ∈ l, (inst p).uopClass = .store → m.overlaps (inst p).memOperand →
      (inst p).isMemoryIssued) (result : DoubleWord) :
    ∃ r, loadSearchAlong inst m l result = some r := by
  induction l generalizing result with
  | nil => exact ⟨result, rfl⟩
  | cons q qs ih =>
      have hrest := fun p hp => h p (List.mem_cons_of_mem q hp)
      unfold loadSearchAlong
      split
      · rename_i hstore
        have hgo : ¬ (!(inst q).isMemoryIssued && m.overlaps (inst q).memOperand) = true := by
          intro hwait
          obtain ⟨hissued, hov⟩ := Bool.and_eq_true_iff.mp hwait
          rw [h q List.mem_cons_self hstore hov] at hissued
          cases hissued
        rw [if_neg hgo]
        exact ih hrest _
      · exact ih hrest _

theorem isSome_lastWrite {β : Type} (w : Nat → Option β) (lo n : Nat) :
    (lastWrite w lo n).isSome ↔ ∃ p, (lo ≤ p ∧ p < lo + n) ∧ (w p).isSome := by
  rcases lastWrite_cases w lo n with ⟨q, b, hq, hb, _, heq⟩ | ⟨hnone, heq⟩
  · rw [heq]
    exact iff_of_true rfl ⟨q, hq, by rw [hb]; rfl⟩
  · rw [heq]
    refine iff_of_false (by simp) ?_
    rintro ⟨p, hp, hs⟩
    rw [hnone p hp.1 hp.2] at hs
    cases hs

section
variable {s s' : LoadStoreWindow} {u : MemInst} {q : Nat}

/-- A load that has executed its address: what the search walks over, and finds. -/
theorem Wf.loadSearch_eq (hs : Wf s) (hq : s.qTail ≤ q ∧ q < s.qRename)
    (hins : (s.inst q).lsqInserted) :
    s.loadSearch q = loadSearchAlong s.inst (s.inst q).memOperand
      ((List.range' s.qTail (q - s.qTail)).filter (s.inLine (s.inst q).line))
      (s.inst q).memOperand := by
  have hmem : q ∈ s.lsq (s.inst q).line := (hs.lsq_mem _ q).mpr ⟨hq, hins, rfl⟩
  have hold : (s.lsq (s.inst q).memOperand.alignedAddr).reverse.takeWhile (· ≠ q)
      = (List.range' s.qTail (q - s.qTail)).filter (s.inLine (s.inst q).line) := hs.older hmem
  unfold loadSearch
  simp only
  rw [hold]

theorem Wf.loadSearch_isSome (hs : Wf s) (hq : s.qTail ≤ q ∧ q < s.qRename)
    (hins : (s.inst q).lsqInserted) (hold : s.OlderExecuted q) :
    ∃ lsqData, s.loadSearch q = some lsqData := by
  rw [hs.loadSearch_eq hq hins]
  refine loadSearchAlong_isSome (fun p hp hstore hov => ?_) _
  obtain ⟨⟨hlo, hhi⟩, hin⟩ := mem_filter_range'.mp hp
  simp only [inLine, Bool.and_eq_true] at hin
  exact hold p hlo (by omega) hin.1 hstore hov

/-- The operand is covered by what the search gathers exactly if older stores supply it. -/
theorem Wf.covers_lsqData {lsqData : DoubleWord} (hs : Wf s)
    (hq : s.qTail ≤ q ∧ q < s.qRename) (hins : (s.inst q).lsqInserted)
    (hval : ¬ (s.inst q).HasValue) (hsize : (s.inst q).memOperand.size ≠ 0)
    (hdata : s.loadSearch q = some lsqData) :
    (s.inst q).memOperand.covers lsqData ↔ s.Supplied q := by
  rw [hs.loadSearch_eq hq hins] at hdata
  have hblock := (hs.inst q).inBlock hins
  obtain ⟨haddr, hsz⟩ := loadSearchAlong_frame hdata
  have hfirst : (s.inst q).memOperand.Covers (s.inst q).memOperand.address :=
    ⟨le_rfl, by omega⟩
  have hov : (s.inst q).memOperand.overlaps lsqData := by
    refine DoubleWord.overlaps_of_covers hfirst ?_
    unfold DoubleWord.Covers
    rw [haddr, hsz]
    exact hfirst
  rw [DoubleWord.covers_iff hov haddr.le hblock.size_le]
  refine forall₂_congr fun a ha => ?_
  have hbyte := loadSearchAlong_byteAt (hs.listed (hblock.alignedAddr_eq ha)) ha hblock.size_le
    hdata
  rw [DoubleWord.byteAt_of_empty ((hs.inst q).empty hval), Option.or_none] at hbyte
  rw [hbyte, isSome_lastWrite, Nat.add_sub_of_le hq.1]

/-- Forwarding is taken when it applies exactly for the loads it does not apply to. -/
theorem forwarding_taken_iff (h : Reachable step {} s) (hu : s.executable .load q = some u)
    (hsize : u.memOperand.size ≠ 0) (hold : s.OlderExecuted q) :
    ∃ lsqData, s.loadSearch q = some lsqData ∧
      (∀ internal, (skipsCache internal lsqData u.memOperand ↔ s.Supplied q) ↔
        (internal = true ↔ s.Supplied q)) ∧
      ∀ s', s.executeLoad q = some s' →
        ((s'.inst q).stage = .COMPLETE_STAGE ↔ skipsCache false lsqData u.memOperand) := by
  have hs := wf_reachable h
  obtain ⟨hq, rfl, hclass, hins, hissued⟩ := executable_eq hu
  obtain ⟨lsqData, hdata⟩ := hs.loadSearch_isSome hq hins hold
  have hnot := loadSearch_not_covers hs hins (MemInst.not_hasValue hissued) hsize hdata
  refine ⟨lsqData, hdata, fun internal => ?_, fun s' he => ?_⟩
  · simp only [skipsCache, hnot, Bool.false_or]
  · have he : some s' = some (s.setInst q ((s.inst q).setStage .MEMORY_STAGE)) := by
      rw [← he]
      unfold executeLoad
      rw [hu]
      simp only [Option.bind_some, hsize, if_false, hdata, hnot, Bool.false_eq_true]
    obtain rfl := Option.some.inj he
    simp [skipsCache, hnot, MemInst.setStage]

end

/-- A store of some bytes and a younger load of some, both at address 0; the store has executed. -/
def storeThenLoad (stored loaded : Nat) : List Event :=
  [.fetch .store true, .fetch .load true, .rename, .rename,
    .addressGenerate 0 .LDST_ALIGN_NORMAL 0 stored, .addressGenerate 1 .LDST_ALIGN_NORMAL 0 loaded,
    .executeStore 0 0x8877665544332211]

/-- The load as it stands in the queue. -/
def waitingLoad (size : Nat) : MemInst :=
  { uopClass := .load, endsX86Op := true, stage := .DECODE_STAGE, lsqInserted := true
    memOperand := { size := size } }

/-- One byte of four comes from the store: the load asks the cache, as it should. -/
theorem forwarding_taken_iff_partly : ∃ s, run step {} (storeThenLoad 1 4) = some s ∧
    ∃ lsqData, s.loadSearch 1 = some lsqData ∧
      ∀ internal, (skipsCache internal lsqData (waitingLoad 4).memOperand ↔ s.Supplied 1) ↔
        (internal = true ↔ s.Supplied 1) := by
  have hrun : (run step {} (storeThenLoad 1 4)).map
      (fun s => (s.executable .load 1, (s.inst 0).isMemoryIssued))
      = some (some (waitingLoad 4), true) := by
    decide +kernel
  obtain ⟨s, hs, hfacts⟩ := Option.map_eq_some_iff.mp hrun
  obtain ⟨hu, hissued⟩ := Prod.mk.injEq _ _ _ _ ▸ hfacts
  obtain ⟨lsqData, hdata, htest, _⟩ := forwarding_taken_iff ⟨_, hs⟩ hu (by decide)
    fun p _ hp _ _ _ => by
      obtain rfl : p = 0 := by omega
      exact hissued
  exact ⟨s, hs, lsqData, hdata, htest⟩

/-- The store has all eight bytes of the load, which asks the cache for them. -/
theorem full_store_not_forwarded : ¬ ∀ es s q u lsqData, run step {} es = some s →
    s.executable .load q = some u → u.memOperand.size ≠ 0 → s.loadSearch q = some lsqData →
      (skipsCache false lsqData u.memOperand ↔ s.Supplied q) := by
  intro h
  have hrun : (run step {} (storeThenLoad 8 8)).map
      (fun s => (s.executable .load 1, (s.loadSearch 1).map fun lsqData =>
        (skipsCache false lsqData (waitingLoad 8).memOperand,
          (waitingLoad 8).memOperand.covers lsqData)))
      = some (some (waitingLoad 8), some (false, true)) := by
    decide +kernel
  obtain ⟨s, hs, hfacts⟩ := Option.map_eq_some_iff.mp hrun
  obtain ⟨hu, hdata⟩ := Prod.mk.injEq _ _ _ _ ▸ hfacts
  obtain ⟨lsqData, hdata, htests⟩ := Option.map_eq_some_iff.mp hdata
  obtain ⟨hskip, hcov⟩ := Prod.mk.injEq _ _ _ _ ▸ htests
  have hsize : (waitingLoad 8).memOperand.size ≠ 0 := by decide
  have hiff := h _ s 1 _ lsqData hs hu hsize hdata
  obtain ⟨hq, heq, _, hins, hissued⟩ := executable_eq hu
  have hwf := wf_reachable ⟨_, hs⟩
  rw [← heq] at hcov hsize hins hissued
  rw [hskip] at hiff
  exact absurd (hiff.mpr ((hwf.covers_lsqData hq hins (MemInst.not_hasValue hissued) hsize
    hdata).mp hcov)) (by decide)

end FeS2.Pyrite.LoadStoreWindow
