import FeS2.Library.LastWriter
import FeS2.Pyrite.LoadStoreQueue

/-!
The load/store queue is a view of the window: each list holds the inserted uops
of its block in program order, and an operand has either all of its bytes or
none. Every step keeps this.
-/

namespace FeS2.Pyrite
open EventSystem LastWriter

namespace MemInst

/-- The operand has its bytes: an issued store, or a load that has completed. -/
def HasValue (u : MemInst) : Prop :=
  (u.uopClass = .store ∧ u.isMemoryIssued) ∨ (u.uopClass = .load ∧ u.stage = .COMPLETE_STAGE)

structure Wf (u : MemInst) : Prop where
  inserted : u.lsqInserted → u.uopClass ≠ .other
  issued : u.uopClass ≠ .other → u.isMemoryIssued → u.lsqInserted
  inBlock : u.lsqInserted → u.memOperand.InBlock
  full : u.HasValue → u.memOperand.Full
  empty : ¬ u.HasValue → u.memOperand.bytemask = 0

theorem wf_blank (c : UopClass) (b : Bool) (stage : StageType) (h : stage.isMemoryIssued = false) :
    Wf { uopClass := c, endsX86Op := b, stage := stage } where
  inserted h' := by cases h'
  issued _ h' := by simp [isMemoryIssued, h] at h'
  inBlock h' := by cases h'
  full h' := by
    rcases h' with ⟨_, h'⟩ | ⟨_, h'⟩
    · simp [isMemoryIssued, h] at h'
    · simp only at h'
      simp [h', StageType.isMemoryIssued] at h
  empty _ := rfl

theorem wf_squash (u : MemInst) : Wf u.squash := wf_blank _ _ _ rfl

theorem isMemoryIssued_of_complete {u : MemInst} (h : u.stage = .COMPLETE_STAGE) :
    u.isMemoryIssued := by
  simp [isMemoryIssued, h, StageType.isMemoryIssued]

theorem byteAt_covers {u : MemInst} (hu : u.Wf) {a : Nat} {b : BitVec 8}
    (h : u.memOperand.byteAt a = some b) : u.memOperand.Covers a ∧ u.HasValue := by
  by_cases hv : u.HasValue
  · rw [(hu.full hv).byteAt] at h
    split at h
    · exact ⟨‹_›, hv⟩
    · cases h
  · rw [DoubleWord.byteAt_of_empty (hu.empty hv)] at h
    cases h

theorem not_complete {u : MemInst} (h : u.isMemoryIssued = false) : u.stage ≠ .COMPLETE_STAGE := by
  intro hc
  rw [isMemoryIssued_of_complete hc] at h
  cases h

theorem not_hasValue {u : MemInst} (h : u.isMemoryIssued = false) : ¬ u.HasValue := by
  rintro (⟨_, h'⟩ | ⟨_, h'⟩)
  · rw [h] at h'
    cases h'
  · exact not_complete h h'

theorem Wf.setStage {u : MemInst} {stage : StageType} (hu : u.Wf)
    (hissued : stage.isMemoryIssued → u.uopClass ≠ .other → u.lsqInserted)
    (hfull : (u.setStage stage).HasValue → u.memOperand.Full)
    (hkeep : u.HasValue → (u.setStage stage).HasValue) : (u.setStage stage).Wf where
  inserted := hu.inserted
  issued hclass hi := hissued hi hclass
  inBlock := hu.inBlock
  full := hfull
  empty h := hu.empty fun hv => h (hkeep hv)

/-- The marks say nothing about the operand. -/
theorem Wf.of_marks {u v : MemInst} (hu : u.Wf) (hclass : v.uopClass = u.uopClass)
    (hstage : v.stage = u.stage) (hop : v.memOperand = u.memOperand)
    (hins : v.lsqInserted = u.lsqInserted) : v.Wf := by
  have hissued : v.isMemoryIssued = u.isMemoryIssued := by
    simp only [isMemoryIssued, hstage]
  have hval : v.HasValue ↔ u.HasValue := by
    simp only [HasValue, hclass, hissued, hstage]
  constructor
  · rw [hins, hclass]
    exact hu.inserted
  · rw [hclass, hissued, hins]
    exact hu.issued
  · rw [hins, hop]
    exact hu.inBlock
  · rw [hval, hop]
    exact hu.full
  · rw [hval, hop]
    exact hu.empty

theorem full_of_size_zero {dw : DoubleWord} (hsize : dw.size = 0) (h : dw.bytemask = 0) :
    dw.Full := by
  intro i
  simp [h, hsize]

/-- An access without bytes completes as soon as it executes. -/
theorem Wf.complete_empty {u : MemInst} (hu : u.Wf) (hissued : u.isMemoryIssued = false)
    (hins : u.lsqInserted) (hsize : u.memOperand.size = 0) :
    (u.setStage .COMPLETE_STAGE).Wf :=
  hu.setStage (fun _ _ => hins)
    (fun _ => full_of_size_zero hsize (hu.empty (not_hasValue hissued)))
    (fun h => absurd h (not_hasValue hissued))

theorem Wf.place {u : MemInst} {dw : DoubleWord} (hclass : u.uopClass ≠ .other)
    (hissued : u.isMemoryIssued = false) (hblock : dw.InBlock)
    (hempty : dw.bytemask = 0) : (u.place dw).Wf where
  inserted _ := hclass
  issued _ _ := rfl
  inBlock _ := hblock
  full h := absurd h (not_hasValue hissued)
  empty _ := hempty

end MemInst

namespace LoadStoreWindow

structure Wf (s : LoadStoreWindow) : Prop where
  tail_le : s.qTail ≤ s.qRetire
  retire_le : s.qRetire ≤ s.qRename
  rename_le : s.qRename ≤ s.qHead
  passed : ∀ q, s.qTail ≤ q → q < s.qRetire → (s.inst q).stage = .COMPLETE_STAGE
  fresh : ∀ q, s.qRename ≤ q → (s.inst q).lsqInserted = false ∧ (s.inst q).isMemoryIssued = false
  inst : ∀ q, (s.inst q).Wf
  lsq_sorted : ∀ a, (s.lsq a).Pairwise (· > ·)
  lsq_mem : ∀ a q, q ∈ s.lsq a ↔
    (s.qTail ≤ q ∧ q < s.qRename) ∧ (s.inst q).lsqInserted ∧ (s.inst q).line = a

theorem wf_init : Wf {} where
  tail_le := le_rfl
  retire_le := le_rfl
  rename_le := le_rfl
  passed q _ hq := absurd hq (Nat.not_lt_zero q)
  fresh _ _ := ⟨rfl, rfl⟩
  inst _ := MemInst.wf_blank _ _ _ rfl
  lsq_sorted _ := List.Pairwise.nil
  lsq_mem a q := by simp

/-! Updates of one uop -/

section
variable {s s' : LoadStoreWindow} {u : MemInst} {q : Nat}

@[simp] theorem setInst_self : (s.setInst q u).inst q = u := Function.update_self _ _ _

theorem setInst_of_ne {p : Nat} (h : p ≠ q) : (s.setInst q u).inst p = s.inst p :=
  Function.update_of_ne h _ _

theorem setInst_setInst (u' : MemInst) : (s.setInst q u').setInst q u = s.setInst q u := by
  simp only [LoadStoreWindow.setInst, Function.update_idem]

theorem setInst_comm {p : Nat} (u' : MemInst) (h : q ≠ p) :
    (s.setInst q u).setInst p u' = (s.setInst p u').setInst q u := by
  simp only [LoadStoreWindow.setInst, Function.update_comm h]

theorem renamed_eq (h : s.renamed q = some u) : (s.qTail ≤ q ∧ q < s.qRename) ∧ s.inst q = u := by
  unfold renamed at h
  split at h
  · exact ⟨‹_›, Option.some.inj h⟩
  · cases h

theorem executable_eq {c : UopClass} (h : s.executable c q = some u) :
    (s.qTail ≤ q ∧ q < s.qRename) ∧ s.inst q = u ∧ u.uopClass = c ∧ u.lsqInserted ∧
      u.isMemoryIssued = false := by
  obtain ⟨v, hv, h⟩ := Option.bind_eq_some_iff.mp h
  obtain ⟨hq, rfl⟩ := renamed_eq hv
  split at h
  · rename_i hc
    obtain rfl := Option.some.inj h
    exact ⟨hq, rfl, hc.1, hc.2.1, by simpa using hc.2.2⟩
  · cases h

/-- A uop of the window in a new state, with its place in the queue unchanged. -/
theorem Wf.setInst (hs : Wf s) (hu : u.Wf) (hq : s.qTail ≤ q ∧ q < s.qRename)
    (hins : u.lsqInserted = (s.inst q).lsqInserted) (hline : u.line = (s.inst q).line)
    (hpassed : q < s.qRetire → u.stage = .COMPLETE_STAGE) : Wf (s.setInst q u) := by
  refine ⟨hs.tail_le, hs.retire_le, hs.rename_le, ?_, ?_, ?_, hs.lsq_sorted, ?_⟩
  · intro p htail hp
    by_cases hpq : p = q
    · rw [hpq] at hp ⊢
      rw [setInst_self]
      exact hpassed hp
    · rw [setInst_of_ne hpq]
      exact hs.passed p htail hp
  · intro p hp
    have hpq : p ≠ q := by
      rintro rfl
      exact absurd hq.2 (not_lt.mpr hp)
    rw [setInst_of_ne hpq]
    exact hs.fresh p hp
  · intro p
    by_cases hpq : p = q
    · rw [hpq, setInst_self]
      exact hu
    · rw [setInst_of_ne hpq]
      exact hs.inst p
  · intro a p
    refine (hs.lsq_mem a p).trans ?_
    by_cases hpq : p = q
    · rw [hpq, setInst_self, hins, hline]
      exact Iff.rfl
    · rw [setInst_of_ne hpq]
      exact Iff.rfl

/-- A uop that has not issued has not passed the check at retirement. -/
theorem Wf.not_passed (hs : Wf s) (hq : s.qTail ≤ q) (h : (s.inst q).stage ≠ .COMPLETE_STAGE) :
    s.qRetire ≤ q := by
  by_contra hlt
  exact h (hs.passed q hq (not_le.mp hlt))

end

/-! The lists in program order -/

/-- The inserted uops of a block, as positions of the window. -/
def inLine (s : LoadStoreWindow) (a q : Nat) : Bool :=
  (s.inst q).lsqInserted && decide ((s.inst q).line = a)

theorem Wf.reverse_sorted {s : LoadStoreWindow} (hs : Wf s) (a : Nat) :
    (s.lsq a).reverse.Pairwise (· < ·) :=
  List.pairwise_reverse.mpr (hs.lsq_sorted a)

theorem Wf.older {s : LoadStoreWindow} (hs : Wf s) {q a : Nat} (hq : q ∈ s.lsq a) :
    (s.lsq a).reverse.takeWhile (· ≠ q)
      = (List.range' s.qTail (q - s.qTail)).filter (s.inLine a) := by
  have hmem := (hs.lsq_mem a q).mp hq
  refine eq_of_mem_iff ((hs.reverse_sorted a).sublist (List.takeWhile_sublist _))
    (pairwise_filter_range' _ _ _) fun p => ?_
  rw [mem_takeWhile_ne (hs.reverse_sorted a) (List.mem_reverse.mpr hq), List.mem_reverse,
    hs.lsq_mem, mem_filter_range']
  simp only [inLine, Bool.and_eq_true, decide_eq_true_eq]
  constructor
  · rintro ⟨⟨⟨htail, _⟩, hin⟩, hlt⟩
    exact ⟨⟨htail, by omega⟩, hin⟩
  · rintro ⟨⟨htail, hlt⟩, hin⟩
    exact ⟨⟨⟨htail, by omega⟩, hin⟩, by omega⟩

theorem Wf.younger {s : LoadStoreWindow} (hs : Wf s) {q a : Nat} (hq : q ∈ s.lsq a) :
    (s.lsq a).reverse.dropWhile (· ≠ q)
      = (List.range' q (s.qRename - q)).filter (s.inLine a) := by
  have hmem := (hs.lsq_mem a q).mp hq
  refine eq_of_mem_iff ((hs.reverse_sorted a).sublist (List.dropWhile_sublist _))
    (pairwise_filter_range' _ _ _) fun p => ?_
  rw [mem_dropWhile_ne (hs.reverse_sorted a) (List.mem_reverse.mpr hq), List.mem_reverse,
    hs.lsq_mem, mem_filter_range']
  simp only [inLine, Bool.and_eq_true, decide_eq_true_eq]
  constructor
  · rintro ⟨⟨⟨_, hren⟩, hin⟩, hle⟩
    exact ⟨⟨hle, by omega⟩, hin⟩
  · rintro ⟨⟨hle, hlt⟩, hin⟩
    exact ⟨⟨⟨by omega, by omega⟩, hin⟩, hle⟩

/-! Insertion -/

theorem mem_insert {q p : Nat} {l : List Nat} : p ∈ insert q l ↔ p = q ∨ p ∈ l := by
  induction l with
  | nil => simp [insert]
  | cons x xs ih =>
      unfold insert
      split
      · simp only [List.mem_cons, ih]
        tauto
      · simp only [List.mem_cons]

theorem pairwise_insert {q : Nat} {l : List Nat} (hl : l.Pairwise (· > ·)) (hq : q ∉ l) :
    (insert q l).Pairwise (· > ·) := by
  induction l with
  | nil => simp [insert]
  | cons x xs ih =>
      obtain ⟨hx, hxs⟩ := List.pairwise_cons.mp hl
      obtain ⟨hqx, hqxs⟩ := not_or.mp (List.mem_cons.not.mp hq)
      unfold insert
      split
      · rename_i hgt
        refine List.pairwise_cons.mpr ⟨fun p hp => ?_, ih hxs hqxs⟩
        rcases mem_insert.mp hp with rfl | hp
        · exact hgt
        · exact hx p hp
      · rename_i hle
        have hlt : q > x := lt_of_le_of_ne (not_lt.mp hle) (Ne.symm hqx)
        refine List.pairwise_cons.mpr ⟨fun p hp => ?_, hl⟩
        rcases List.mem_cons.mp hp with rfl | hp
        · exact hlt
        · exact (hx p hp).trans hlt

theorem operandOf_spec {cond : LdstAlign} {physAddr numBytes : Nat} {dw : DoubleWord}
    (hn : numBytes ≤ 8) (h : operandOf cond physAddr numBytes = some dw) :
    dw.InBlock ∧ dw.bytemask = 0 := by
  have hover : (DoubleWord.setAddress physAddr numBytes).2 ≤ 8 := by
    unfold DoubleWord.setAddress
    simp only
    split
    · rename_i hlt
      exact (hlt.le).trans hn
    · exact Nat.zero_le _
  cases cond with
  | LDST_ALIGN_NORMAL =>
      simp only [operandOf] at h
      split at h
      · cases h
      · obtain rfl := Option.some.inj h
        exact DoubleWord.setAddress_inBlock hn
  | LDST_ALIGN_LO =>
      obtain rfl := Option.some.inj h
      exact DoubleWord.setAddress_inBlock ((Nat.sub_le _ _).trans hn)
  | LDST_ALIGN_HI =>
      simp only [operandOf] at h
      split at h
      · obtain rfl := Option.some.inj h
        exact DoubleWord.setAddress_inBlock hover
      · obtain rfl := Option.some.inj h
        exact ⟨⟨Nat.zero_le _, by simp [blockBytes]⟩, rfl⟩

theorem insertLsq_lsq (s : LoadStoreWindow) (q b a : Nat) :
    (s.insertLsq q b).lsq a = if a = b then insert q (s.lsq b) else s.lsq a := by
  simp only [LoadStoreWindow.insertLsq, Function.update_apply]

@[simp] theorem insertLsq_inst (s : LoadStoreWindow) (q b : Nat) :
    (s.insertLsq q b).inst = s.inst := rfl

theorem Wf.insertLsq {s : LoadStoreWindow} {u : MemInst} {q : Nat} (hs : Wf s) (hu : u.Wf)
    (hq : s.qTail ≤ q ∧ q < s.qRename) (hnew : (s.inst q).lsqInserted = false)
    (hins : u.lsqInserted) (hretire : s.qRetire ≤ q) :
    Wf ((s.setInst q u).insertLsq q u.line) := by
  have hnot : ∀ a, q ∉ s.lsq a := by
    intro a hmem
    have h := ((hs.lsq_mem a q).mp hmem).2.1
    rw [hnew] at h
    cases h
  refine ⟨hs.tail_le, hs.retire_le, hs.rename_le, ?_, ?_, ?_, ?_, ?_⟩
  · intro p htail hp
    have hpq : p ≠ q := fun h => absurd hretire (not_le.mpr (h ▸ hp))
    rw [insertLsq_inst, setInst_of_ne hpq]
    exact hs.passed p htail hp
  · intro p hp
    have hpq : p ≠ q := fun h => absurd hq.2 (not_lt.mpr (h ▸ hp))
    rw [insertLsq_inst, setInst_of_ne hpq]
    exact hs.fresh p hp
  · intro p
    rw [insertLsq_inst]
    by_cases hpq : p = q
    · rw [hpq, setInst_self]
      exact hu
    · rw [setInst_of_ne hpq]
      exact hs.inst p
  · intro a
    rw [insertLsq_lsq]
    split
    · exact pairwise_insert (hs.lsq_sorted u.line) (hnot u.line)
    · exact hs.lsq_sorted a
  · intro a p
    rw [insertLsq_lsq, insertLsq_inst]
    have hmem := hs.lsq_mem a p
    by_cases hpq : p = q
    · subst hpq
      rw [setInst_self]
      by_cases ha : a = u.line
      · rw [if_pos ha, mem_insert]
        exact ⟨fun _ => ⟨hq, hins, ha.symm⟩, fun _ => Or.inl rfl⟩
      · rw [if_neg ha]
        exact ⟨fun h => absurd h (hnot a), fun h => absurd h.2.2.symm ha⟩
    · rw [setInst_of_ne hpq]
      refine Iff.trans ?_ hmem
      split
      · rename_i ha
        rw [mem_insert, ha]
        exact ⟨fun h => h.resolve_left hpq, Or.inr⟩
      · exact Iff.rfl

/-! What a step can do to the uop it is about -/

/-- The search of a store that has just been given the operand `dw`. -/
def searchFrom (q : Nat) (dw : DoubleWord) (s : LoadStoreWindow) : Option Nat :=
  storeSearchAlong (s.setInst q ((s.inst q).withOperand dw)).inst
    ((s.lsq dw.alignedAddr).reverse.dropWhile (· ≠ q)) dw

section
variable {s s' : LoadStoreWindow} {q : Nat}

theorem addressGenerate_eq {cond : LdstAlign} {physAddr numBytes : Nat}
    (h : s.addressGenerate q cond physAddr numBytes = some s') :
    (s.qTail ≤ q ∧ q < s.qRename) ∧ (s.inst q).uopClass ≠ .other ∧
      (s.inst q).lsqInserted = false ∧
      (s' = s.setInst q { s.inst q with unaligned := true } ∨
        ∃ dw : DoubleWord, dw.InBlock ∧ dw.bytemask = 0 ∧
          s' = (s.setInst q ((s.inst q).place dw)).insertLsq q dw.alignedAddr) := by
  obtain ⟨u, hu, h⟩ := Option.bind_eq_some_iff.mp h
  obtain ⟨hq, rfl⟩ := renamed_eq hu
  split at h
  · cases h
  rename_i hguard
  simp only [not_or, Bool.not_eq_true] at hguard
  obtain ⟨hclass, hins, _, hn⟩ := hguard
  refine ⟨hq, hclass, hins, ?_⟩
  split at h
  · exact Or.inl (Option.some.inj h).symm
  · rename_i dw hdw
    obtain ⟨hblock, hempty⟩ := operandOf_spec (not_lt.mp hn) hdw
    exact Or.inr ⟨dw, hblock, hempty, (Option.some.inj h).symm⟩

theorem storeSearchAlong_some {inst : Nat → MemInst} {l : List Nat} {dw : DoubleWord} {x : Nat}
    (h : storeSearchAlong inst l dw = some x) :
    x ∈ l ∧ (inst x).uopClass ≠ .store ∧ (inst x).isMemoryIssued := by
  induction l generalizing dw with
  | nil => cases h
  | cons q qs ih =>
      unfold storeSearchAlong at h
      split at h
      · exact (ih h).imp (List.mem_cons_of_mem q) id
      · rename_i hclass
        split at h
        · rename_i hbad
          obtain rfl := Option.some.inj h
          rw [Bool.and_eq_true] at hbad
          exact ⟨List.mem_cons_self, hclass, hbad.1⟩
        · exact (ih h).imp (List.mem_cons_of_mem q) id

theorem complete_of_size_zero (h : (s.inst q).memOperand.size = 0) :
    s.complete q = some (s.setInst q ((s.inst q).setStage .COMPLETE_STAGE)) := by
  unfold complete
  exact if_neg fun hc => hc.2 h

/-- A store issues: its operand has its value and a load with another value is marked. -/
theorem executeStore_eq {value : BitVec 64} (h : s.executeStore q value = some s') :
    ((s.qTail ≤ q ∧ q < s.qRename) ∧ (s.inst q).uopClass = .store ∧ (s.inst q).lsqInserted ∧
      (s.inst q).isMemoryIssued = false) ∧
    ((s.inst q).memOperand.size = 0 ∧ s' = s.setInst q ((s.inst q).setStage .COMPLETE_STAGE) ∨
      (s.inst q).memOperand.size ≠ 0 ∧ ∃ dw, (s.inst q).memOperand.setValue value = some dw ∧
        ((s.searchFrom q dw = none ∧
            s' = s.setInst q (((s.inst q).withOperand dw).setStage .MEMORY_STAGE)) ∨
          ∃ x, s.searchFrom q dw = some x ∧ x ≠ q ∧
            s' = (s.setInst q (((s.inst q).withOperand dw).setStage .MEMORY_STAGE)).setInst x
              (s.inst x).violateOrdering)) := by
  obtain ⟨u, hu, h⟩ := Option.bind_eq_some_iff.mp h
  obtain ⟨hq, rfl, hclass, hins, hissued⟩ := executable_eq hu
  refine ⟨⟨hq, hclass, hins, hissued⟩, ?_⟩
  split at h
  · rename_i hsize
    rw [complete_of_size_zero hsize] at h
    exact Or.inl ⟨hsize, (Option.some.inj h).symm⟩
  · rename_i hsize
    obtain ⟨dw, hdw, rfl⟩ := Option.map_eq_some_iff.mp h
    refine Or.inr ⟨hsize, dw, hdw, ?_⟩
    have hop : ((s.setInst q ((s.inst q).withOperand dw)).inst q).memOperand = dw := by
      rw [setInst_self]
      rfl
    simp only [storeSearch, hop]
    cases hr : s.searchFrom q dw with
    | none =>
        refine Or.inl ⟨rfl, ?_⟩
        unfold searchFrom at hr
        split
        · rename_i x hx
          rw [show (s.setInst q ((s.inst q).withOperand dw)).lsq = s.lsq from rfl, hr] at hx
          cases hx
        · rw [setInst_self, setInst_setInst]
    | some x =>
        have hx := (storeSearchAlong_some hr).2.1
        have hxq : x ≠ q := by
          rintro rfl
          rw [setInst_self] at hx
          exact hx hclass
        refine Or.inr ⟨x, rfl, hxq, ?_⟩
        unfold searchFrom at hr
        split
        · rename_i y hy
          rw [show (s.setInst q ((s.inst q).withOperand dw)).lsq = s.lsq from rfl, hr] at hy
          obtain rfl := Option.some.inj hy
          rw [setLoadOrderingViolation, setInst_of_ne hxq, setInst_of_ne (Ne.symm hxq),
            setInst_self, setInst_comm _ (Ne.symm hxq), setInst_setInst]
          exact setInst_comm _ hxq
        · rename_i hy
          rw [show (s.setInst q ((s.inst q).withOperand dw)).lsq = s.lsq from rfl, hr] at hy
          cases hy

theorem loadSearchAlong_frame {inst : Nat → MemInst} {m result r : DoubleWord} {l : List Nat}
    (h : loadSearchAlong inst m l result = some r) :
    r.address = result.address ∧ r.size = result.size := by
  induction l generalizing result with
  | nil =>
      obtain rfl := Option.some.inj h
      exact ⟨rfl, rfl⟩
  | cons q qs ih =>
      unfold loadSearchAlong at h
      split at h
      · split at h
        · cases h
        · obtain ⟨haddr, hsize⟩ := ih h
          obtain ⟨haddr', hsize'⟩ := DoubleWord.overlay_frame (inst q).memOperand result
          exact ⟨haddr.trans haddr', hsize.trans hsize'⟩
      · exact ih h

/-- The bytes of older stores never cover an operand that has no bytes of its own. -/
theorem loadSearch_not_covers {lsqData : DoubleWord} (hs : Wf s)
    (hins : (s.inst q).lsqInserted) (hval : ¬ (s.inst q).HasValue)
    (hsize : (s.inst q).memOperand.size ≠ 0) (h : s.loadSearch q = some lsqData) :
    lsqData.covers (s.inst q).memOperand = false := by
  obtain ⟨_, hframe⟩ := loadSearchAlong_frame h
  have hle := ((hs.inst q).inBlock hins).size_le
  refine DoubleWord.covers_of_empty ((hs.inst q).empty hval) ?_ ?_
  · rwa [hframe]
  · rwa [hframe]

/-- A load that waits for its line has no bytes yet. -/
theorem waiting_no_value (hclass : (s.inst q).uopClass = .load)
    (hstage : (s.inst q).stage = .MEMORY_STAGE) : ¬ (s.inst q).HasValue := by
  rintro (⟨h, _⟩ | ⟨_, h⟩)
  · simp [hclass] at h
  · simp [hstage] at h

theorem executeLoad_eq (hs : Wf s) (h : s.executeLoad q = some s') :
    ((s.qTail ≤ q ∧ q < s.qRename) ∧ (s.inst q).uopClass = .load ∧ (s.inst q).lsqInserted ∧
      (s.inst q).isMemoryIssued = false) ∧
    ((s.inst q).memOperand.size = 0 ∧ s' = s.setInst q ((s.inst q).setStage .COMPLETE_STAGE) ∨
      s' = s ∨ (s.inst q).memOperand.size ≠ 0 ∧
        s' = s.setInst q ((s.inst q).setStage .MEMORY_STAGE)) := by
  obtain ⟨u, hu, h⟩ := Option.bind_eq_some_iff.mp h
  obtain ⟨hq, rfl, hclass, hins, hissued⟩ := executable_eq hu
  refine ⟨⟨hq, hclass, hins, hissued⟩, ?_⟩
  split at h
  · rename_i hsize
    rw [complete_of_size_zero hsize] at h
    exact Or.inl ⟨hsize, (Option.some.inj h).symm⟩
  · rename_i hsize
    split at h
    · exact Or.inr (Or.inl (Option.some.inj h).symm)
    · rename_i lsqData hdata
      rw [loadSearch_not_covers hs hins (MemInst.not_hasValue hissued) hsize hdata] at h
      exact Or.inr (Or.inr ⟨hsize, (Option.some.inj h).symm⟩)

theorem completeLoad_eq (hs : Wf s) (h : s.completeLoad q = some s') :
    ((s.qTail ≤ q ∧ q < s.qRename) ∧ (s.inst q).uopClass = .load ∧
      (s.inst q).stage = .MEMORY_STAGE ∧ (s.inst q).lsqInserted) ∧
    ((s.inst q).memOperand.size = 0 ∧ s' = s.setInst q ((s.inst q).setStage .COMPLETE_STAGE) ∨
      s' = s ∨ (s.inst q).memOperand.size ≠ 0 ∧ ∃ lsqData dw, s.loadSearch q = some lsqData ∧
        (s.inst q).memOperand.setValue (readFromSimicsMemory s.memory
          (s.inst q).memOperand.address (s.inst q).memOperand.size) = some dw ∧
        s' = s.setInst q ((s.inst q).load (lsqData.writeValue dw) (s.told (s.inst q).line))) := by
  obtain ⟨u, hu, h⟩ := Option.bind_eq_some_iff.mp h
  obtain ⟨hq, rfl⟩ := renamed_eq hu
  split at h
  · rename_i hguard
    obtain ⟨hclass, hstage⟩ := hguard
    have hins : (s.inst q).lsqInserted := by
      refine (hs.inst q).issued ?_ ?_
      · simp [hclass]
      · simp [MemInst.isMemoryIssued, hstage, StageType.isMemoryIssued]
    have hval := waiting_no_value hclass hstage
    refine ⟨⟨hq, hclass, hstage, hins⟩, ?_⟩
    by_cases hsize : (s.inst q).memOperand.size = 0
    · rw [complete_of_size_zero hsize] at h
      exact Or.inl ⟨hsize, (Option.some.inj h).symm⟩
    · refine Or.inr ?_
      unfold complete at h
      simp only [hclass, hsize, ne_eq, not_false_eq_true, and_self, if_true] at h
      split at h
      · exact Or.inl (Option.some.inj h).symm
      · rename_i lsqData hdata
        rw [loadSearch_not_covers hs hins hval hsize hdata] at h
        obtain ⟨dw, hdw, rfl⟩ := Option.map_eq_some_iff.mp h
        exact Or.inr ⟨hsize, lsqData, dw, hdata, hdw, rfl⟩
  · cases h

theorem completeOther_eq (h : s.completeOther q = some s') :
    (s.qTail ≤ q ∧ q < s.qRename) ∧ (s.inst q).uopClass = .other ∧
      s' = s.setInst q ((s.inst q).setStage .COMPLETE_STAGE) := by
  obtain ⟨u, hu, h⟩ := Option.bind_eq_some_iff.mp h
  obtain ⟨hq, rfl⟩ := renamed_eq hu
  split at h
  · rename_i hclass
    refine ⟨hq, hclass, ?_⟩
    unfold complete at h
    simp only [hclass, reduceCtorEq, false_and, if_false] at h
    exact (Option.some.inj h).symm
  · cases h

theorem flushPipeline_eq (h : s.flushPipeline q = some s') :
    (s.qTail ≤ q ∧ q ≤ s.qRename) ∧ s' = { s.squashFrom q with qHead := q } := by
  unfold flushPipeline at h
  split at h
  · exact ⟨‹_›, (Option.some.inj h).symm⟩
  · cases h

theorem rename_eq (h : s.rename = some s') :
    s.qRename < s.qHead ∧
      s' = { s.setInst s.qRename ((s.inst s.qRename).setStage .DECODE_STAGE) with
        qRename := s.qRename + 1 } := by
  unfold rename at h
  split at h
  · exact ⟨‹_›, (Option.some.inj h).symm⟩
  · cases h

theorem retireReady_eq {u : MemInst} (h : s.retireReady = some u) :
    s.qRetire < s.qRename ∧ (((s.inst s.qRetire).stage = .COMPLETE_STAGE ∧ u = s.inst s.qRetire) ∨
      ((s.inst s.qRetire).uopClass = .store ∧ (s.inst s.qRetire).stage = .MEMORY_STAGE ∧
        u = (s.inst s.qRetire).setStage .COMPLETE_STAGE)) := by
  unfold retireReady at h
  split at h
  · rename_i hlt
    refine ⟨hlt, ?_⟩
    simp only at h
    split at h
    · rename_i hc
      exact Or.inl ⟨hc, (Option.some.inj h).symm⟩
    · split at h
      · rename_i hm
        exact Or.inr ⟨hm.1, hm.2, (Option.some.inj h).symm⟩
      · cases h
  · cases h

/-- The uop that retires, with the uops behind it replayed if it has a consistency violation. -/
def checked (u : MemInst) (s : LoadStoreWindow) : LoadStoreWindow :=
  if u.loadConsistencyViolation then (s.setInst s.qRetire u).replay (s.qRetire + 1)
  else s.setInst s.qRetire u

/-- A retirement is a replay at the uop itself, a commit, or one step past the uop. -/
theorem retire_eq (h : s.retire = some s') :
    ∃ u, s.retireReady = some u ∧
      (u.loadOrderingViolation ∧ s' = (s.setInst s.qRetire u).replay s.qRetire ∨
        u.loadOrderingViolation = false ∧
          (s' = (s.checked u).commit ∨ s' = (s.checked u).advance)) := by
  obtain ⟨u, hu, h⟩ := Option.map_eq_some_iff.mp h
  refine ⟨u, hu, ?_⟩
  by_cases hord : u.loadOrderingViolation = true
  · rw [if_pos hord] at h
    exact Or.inl ⟨hord, h.symm⟩
  · rw [if_neg hord] at h
    refine Or.inr ⟨Bool.not_eq_true _ ▸ hord, ?_⟩
    by_cases hends : u.endsX86Op = true
    · rw [if_pos hends] at h
      exact Or.inl h.symm
    · rw [if_neg hends] at h
      exact Or.inr h.symm

theorem invalidationSearch_eq {lineAddr : Nat} (h : s.invalidationSearch lineAddr = some s') :
    (s.issuedLoads lineAddr).min? = none ∧ s' = s.tell lineAddr ∨
      ∃ oldest, (s.issuedLoads lineAddr).min? = some oldest ∧
        s' = { s.tell lineAddr with
          inst := fun q => invalidate (s.issuedLoads lineAddr) oldest s.qRetire q (s.inst q) } := by
  unfold invalidationSearch at h
  simp only at h
  split at h
  · cases h
  · split at h
    · rename_i hnone
      exact Or.inl ⟨hnone, (Option.some.inj h).symm⟩
    · rename_i oldest hsome
      exact Or.inr ⟨oldest, hsome, (Option.some.inj h).symm⟩

end

/-! Every step keeps the invariant -/

section
variable {s s' : LoadStoreWindow} {u : MemInst} {q : Nat}

theorem Wf.fetch (hs : Wf s) (c : UopClass) (b : Bool) : Wf (s.fetch c b) := by
  have hother : ∀ p, p ≠ s.qHead → (s.fetch c b).inst p = s.inst p := fun p hp => setInst_of_ne hp
  have hself : (s.fetch c b).inst s.qHead = { uopClass := c, endsX86Op := b } := setInst_self
  have hren := hs.rename_le
  have hret := hs.retire_le
  refine ⟨hs.tail_le, hs.retire_le, hren.trans (Nat.le_succ _), ?_, ?_, ?_, hs.lsq_sorted, ?_⟩
  · intro p htail hp
    change p < s.qRetire at hp
    rw [hother p (by omega)]
    exact hs.passed p htail hp
  · intro p hp
    by_cases hpq : p = s.qHead
    · rw [hpq, hself]
      exact ⟨rfl, rfl⟩
    · rw [hother p hpq]
      exact hs.fresh p hp
  · intro p
    by_cases hpq : p = s.qHead
    · rw [hpq, hself]
      exact MemInst.wf_blank _ _ _ rfl
    · rw [hother p hpq]
      exact hs.inst p
  · intro a p
    refine (hs.lsq_mem a p).trans (and_congr_right fun hp => ?_)
    rw [hother p (by omega)]

theorem Wf.rename (hs : Wf s) (h : s.rename = some s') : Wf s' := by
  obtain ⟨hlt, rfl⟩ := rename_eq h
  obtain ⟨hins, hissued⟩ := hs.fresh s.qRename le_rfl
  have hret := hs.retire_le
  refine ⟨hs.tail_le, hret.trans (Nat.le_succ _), hlt, ?_, ?_, ?_, hs.lsq_sorted, ?_⟩
  · intro p htail hp
    have hne : p ≠ s.qRename := by
      change p < s.qRetire at hp
      omega
    change ((s.setInst _ _).inst p).stage = _
    rw [setInst_of_ne hne]
    exact hs.passed p htail hp
  · intro p hp
    change s.qRename + 1 ≤ p at hp
    change ((s.setInst _ _).inst p).lsqInserted = _ ∧ ((s.setInst _ _).inst p).isMemoryIssued = _
    rw [setInst_of_ne (by omega)]
    exact hs.fresh p (by omega)
  · intro p
    change ((s.setInst _ _).inst p).Wf
    by_cases hpq : p = s.qRename
    · rw [hpq, setInst_self]
      exact (hs.inst s.qRename).setStage nofun
        (fun h => absurd h (MemInst.not_hasValue rfl))
        (fun h => absurd h (MemInst.not_hasValue hissued))
    · rw [setInst_of_ne hpq]
      exact hs.inst p
  · intro a p
    change _ ↔ (s.qTail ≤ p ∧ p < s.qRename + 1) ∧ ((s.setInst _ _).inst p).lsqInserted ∧ _
    refine (hs.lsq_mem a p).trans ?_
    by_cases hpq : p = s.qRename
    · rw [hpq, setInst_self]
      have hins' : ((s.inst s.qRename).setStage .DECODE_STAGE).lsqInserted = false := hins
      simp [hins']
    · change _ ↔ _ ∧ _ ∧ ((s.setInst _ _).inst p).line = a
      rw [setInst_of_ne hpq]
      exact and_congr_left fun _ => by omega

/-- A mark on a uop of the window. -/
theorem Wf.mark (hs : Wf s) (hq : s.qTail ≤ q ∧ q < s.qRename)
    (hclass : u.uopClass = (s.inst q).uopClass) (hstage : u.stage = (s.inst q).stage)
    (hop : u.memOperand = (s.inst q).memOperand)
    (hins : u.lsqInserted = (s.inst q).lsqInserted) : Wf (s.setInst q u) :=
  hs.setInst ((hs.inst q).of_marks hclass hstage hop hins) hq hins
    (congrArg DoubleWord.alignedAddr hop) fun hlt => hstage.trans (hs.passed q hq.1 hlt)

theorem Wf.addressGenerate {cond : LdstAlign} {physAddr numBytes : Nat} (hs : Wf s)
    (h : s.addressGenerate q cond physAddr numBytes = some s') : Wf s' := by
  obtain ⟨hq, hclass, hins, rfl | ⟨dw, hblock, hempty, rfl⟩⟩ := addressGenerate_eq h
  · exact hs.mark hq rfl rfl rfl rfl
  · have hissued : (s.inst q).isMemoryIssued = false := by
      by_contra hi
      have hi' := (hs.inst q).issued hclass (Bool.not_eq_false _ ▸ hi)
      rw [hins] at hi'
      cases hi'
    have hretire : s.qRetire ≤ q :=
      hs.not_passed hq.1 (MemInst.not_complete hissued)
    exact hs.insertLsq (MemInst.Wf.place hclass hissued hblock hempty) hq hins rfl hretire

theorem Wf.complete_empty (hs : Wf s) (hq : s.qTail ≤ q ∧ q < s.qRename)
    (hissued : (s.inst q).isMemoryIssued = false) (hins : (s.inst q).lsqInserted)
    (hsize : (s.inst q).memOperand.size = 0) :
    Wf (s.setInst q ((s.inst q).setStage .COMPLETE_STAGE)) :=
  hs.setInst ((hs.inst q).complete_empty hissued hins hsize) hq rfl rfl fun _ => rfl

/-- A uop that has not completed, in a new state. -/
theorem Wf.advanceStage (hs : Wf s) (hu : u.Wf) (hq : s.qTail ≤ q ∧ q < s.qRename)
    (hstage : (s.inst q).stage ≠ .COMPLETE_STAGE)
    (hins : u.lsqInserted = (s.inst q).lsqInserted)
    (haddr : u.memOperand.address = (s.inst q).memOperand.address) : Wf (s.setInst q u) := by
  refine hs.setInst hu hq hins ?_ fun hlt => ?_
  · simp only [MemInst.line, DoubleWord.alignedAddr, haddr]
  · exact absurd (hs.not_passed hq.1 hstage) (not_le.mpr hlt)

/-- The store of an `executeStore`, once it has its value. -/
theorem wf_issuedStore {dw : DoubleWord} {value : BitVec 64} (hs : Wf s)
    (hclass : (s.inst q).uopClass = .store) (hins : (s.inst q).lsqInserted)
    (hissued : (s.inst q).isMemoryIssued = false) (hsize : (s.inst q).memOperand.size ≠ 0)
    (hdw : (s.inst q).memOperand.setValue value = some dw) :
    (((s.inst q).withOperand dw).setStage .MEMORY_STAGE).Wf ∧
      dw.address = (s.inst q).memOperand.address ∧ dw.size = (s.inst q).memOperand.size := by
  have hblock := (hs.inst q).inBlock hins
  have hempty := (hs.inst q).empty (MemInst.not_hasValue hissued)
  obtain ⟨dw', hdw', haddr, hsz, hfull, _⟩ :=
    DoubleWord.setValue_spec value hempty hsize hblock.size_le
  obtain rfl := Option.some.inj (hdw'.symm.trans hdw)
  have hval : (((s.inst q).withOperand dw').setStage .MEMORY_STAGE).HasValue :=
    Or.inl ⟨hclass, rfl⟩
  refine ⟨⟨fun _ => ?_, fun _ _ => hins, fun _ => ?_, fun _ => hfull, fun h => absurd hval h⟩,
    haddr, hsz⟩
  · change (s.inst q).uopClass ≠ .other
    simp [hclass]
  · refine ⟨?_, ?_⟩
    · change dw'.size ≤ 8
      rw [hsz]
      exact hblock.size_le
    · change dw'.address % blockBytes + dw'.size ≤ blockBytes
      rw [haddr, hsz]
      exact hblock.fits

theorem Wf.executeStore {value : BitVec 64} (hs : Wf s)
    (h : s.executeStore q value = some s') : Wf s' := by
  obtain ⟨⟨hq, hclass, hins, hissued⟩, ⟨hsize, rfl⟩ | ⟨hsize, dw, hdw, h⟩⟩ := executeStore_eq h
  · exact hs.complete_empty hq hissued hins hsize
  · obtain ⟨hu, haddr, _⟩ := wf_issuedStore hs hclass hins hissued hsize hdw
    have hs1 := hs.advanceStage hu hq (MemInst.not_complete hissued) rfl haddr
    rcases h with ⟨_, rfl⟩ | ⟨x, hx, hxq, rfl⟩
    · exact hs1
    · have hmem := (List.mem_reverse.mp ((List.dropWhile_sublist _).subset
        (storeSearchAlong_some hx).1))
      have hxw := ((hs.lsq_mem _ x).mp hmem).1
      have hsame := setInst_of_ne (s := s)
        (u := ((s.inst q).withOperand dw).setStage .MEMORY_STAGE) hxq
      exact hs1.mark hxw (by rw [hsame]; rfl) (by rw [hsame]; rfl) (by rw [hsame]; rfl)
        (by rw [hsame]; rfl)

theorem Wf.executeLoad (hs : Wf s) (h : s.executeLoad q = some s') : Wf s' := by
  obtain ⟨⟨hq, hclass, hins, hissued⟩, ⟨hsize, rfl⟩ | rfl | ⟨_, rfl⟩⟩ := executeLoad_eq hs h
  · exact hs.complete_empty hq hissued hins hsize
  · exact hs
  · refine hs.advanceStage ?_ hq (MemInst.not_complete hissued) rfl rfl
    refine (hs.inst q).setStage (fun _ _ => hins) (fun h => ?_)
      (fun h => absurd h (MemInst.not_hasValue hissued))
    rcases h with ⟨h, _⟩ | ⟨_, h⟩
    · change (s.inst q).uopClass = .store at h
      simp [hclass] at h
    · cases h

/-- The operand of a load that completes: its own frame, with all of its bytes. -/
theorem loaded_operand {lsqData dw : DoubleWord} {v : BitVec 64} (hs : Wf s)
    (hins : (s.inst q).lsqInserted) (hval : ¬ (s.inst q).HasValue)
    (hsize : (s.inst q).memOperand.size ≠ 0)
    (hdw : (s.inst q).memOperand.setValue v = some dw) :
    (lsqData.writeValue dw).address = (s.inst q).memOperand.address ∧
      (lsqData.writeValue dw).size = (s.inst q).memOperand.size ∧
      (lsqData.writeValue dw).Full ∧ dw.size = (s.inst q).memOperand.size ∧
      dw.address = (s.inst q).memOperand.address ∧
      ∀ a, (s.inst q).memOperand.Covers a →
        dw.byteAt a = some (DoubleWord.byte v (a - (s.inst q).memOperand.address)) := by
  obtain ⟨dw', hdw', haddr, hsz, hfull, hbyte⟩ := DoubleWord.setValue_spec v
    ((hs.inst q).empty hval) hsize ((hs.inst q).inBlock hins).size_le
  obtain rfl := Option.some.inj (hdw'.symm.trans hdw)
  obtain ⟨haddr', hsz', hmask⟩ := DoubleWord.writeValue_frame lsqData dw'
  refine ⟨haddr'.trans haddr, hsz'.trans hsz, fun i => ?_, hsz, haddr, hbyte⟩
  rw [hmask, hsz']
  exact hfull i

theorem Wf.completeLoad (hs : Wf s) (h : s.completeLoad q = some s') : Wf s' := by
  obtain ⟨⟨hq, hclass, hstage, hins⟩, h⟩ := completeLoad_eq hs h
  have hval := waiting_no_value hclass hstage
  have hblock := (hs.inst q).inBlock hins
  have hnot : (s.inst q).stage ≠ .COMPLETE_STAGE := by simp [hstage]
  rcases h with ⟨hsize, rfl⟩ | rfl | ⟨hsize, lsqData, dw, hdata, hdw, rfl⟩
  · exact hs.setInst ((hs.inst q).setStage (fun _ _ => hins)
      (fun _ => MemInst.full_of_size_zero hsize ((hs.inst q).empty hval)) (fun h => absurd h hval))
      hq rfl rfl fun _ => rfl
  · exact hs
  · obtain ⟨haddr, hsz, hfull, _⟩ := @loaded_operand s q lsqData dw _ hs hins hval hsize hdw
    refine hs.advanceStage ?_ hq hnot rfl haddr
    refine ⟨(hs.inst q).inserted, fun _ _ => hins, fun _ => ⟨?_, ?_⟩, fun _ => hfull,
      fun h => absurd (Or.inr ⟨hclass, rfl⟩) h⟩
    · change (lsqData.writeValue dw).size ≤ 8
      rw [hsz]
      exact hblock.size_le
    · change (lsqData.writeValue dw).address % blockBytes + (lsqData.writeValue dw).size ≤ _
      rw [hsz, haddr]
      exact hblock.fits

theorem Wf.completeOther (hs : Wf s) (h : s.completeOther q = some s') : Wf s' := by
  obtain ⟨hq, hclass, rfl⟩ := completeOther_eq h
  have hval : ∀ stage, ¬ ((s.inst q).setStage stage).HasValue := by
    rintro stage (⟨h, _⟩ | ⟨h, _⟩)
    · change (s.inst q).uopClass = .store at h
      simp [hclass] at h
    · change (s.inst q).uopClass = .load at h
      simp [hclass] at h
  exact hs.setInst ((hs.inst q).setStage (fun _ h => absurd hclass h)
    (fun h => absurd h (hval _)) (fun h => absurd h (hval (s.inst q).stage)))
    hq rfl rfl fun _ => rfl

theorem squashFrom_inst {first p : Nat} (hp : p < first) :
    (s.squashFrom first).inst p = s.inst p := if_neg (not_le.mpr hp)

theorem squashFrom_squashed {first p : Nat} (hp : first ≤ p) :
    (s.squashFrom first).inst p = (s.inst p).squash := if_pos hp

theorem Wf.squashFrom {first : Nat} (hs : Wf s) (hfirst : s.qTail ≤ first ∧ first ≤ s.qRename) :
    Wf (s.squashFrom first) := by
  refine ⟨le_min hs.tail_le hfirst.1, min_le_right _ _, hfirst.2.trans hs.rename_le, ?_, ?_, ?_,
    ?_, ?_⟩
  · intro p htail hp
    obtain ⟨hretire, hlt⟩ := lt_min_iff.mp hp
    rw [squashFrom_inst hlt]
    exact hs.passed p htail hretire
  · intro p hp
    change first ≤ p at hp
    rw [squashFrom_squashed hp]
    exact ⟨rfl, rfl⟩
  · intro p
    by_cases hp : first ≤ p
    · rw [squashFrom_squashed hp]
      exact MemInst.wf_squash _
    · rw [squashFrom_inst (not_le.mp hp)]
      exact hs.inst p
  · intro a
    exact (hs.lsq_sorted a).filter _
  · intro a p
    change p ∈ (s.lsq a).filter (· < first) ↔ (s.qTail ≤ p ∧ p < first) ∧ _
    rw [List.mem_filter, hs.lsq_mem, decide_eq_true_eq]
    by_cases hp : p < first
    · rw [squashFrom_inst hp]
      have := hfirst.2
      constructor
      · rintro ⟨⟨⟨htail, _⟩, hin⟩, hlt⟩
        exact ⟨⟨htail, hlt⟩, hin⟩
      · rintro ⟨⟨htail, hlt⟩, hin⟩
        exact ⟨⟨⟨htail, by omega⟩, hin⟩, hlt⟩
    · exact ⟨fun h => absurd h.2 hp, fun h => absurd h.1.2 hp⟩

theorem Wf.flushPipeline (hs : Wf s) (h : s.flushPipeline q = some s') : Wf s' := by
  obtain ⟨hq, rfl⟩ := flushPipeline_eq h
  have hs' := hs.squashFrom hq
  exact ⟨hs'.tail_le, hs'.retire_le, le_rfl, hs'.passed, hs'.fresh, hs'.inst, hs'.lsq_sorted,
    hs'.lsq_mem⟩

theorem Wf.reset (hs : Wf s) (memory : Nat → BitVec 8) : Wf (s.reset memory) := by
  have hs' := hs.squashFrom ⟨le_rfl, hs.tail_le.trans hs.retire_le⟩
  refine ⟨le_rfl, le_rfl, le_rfl, fun p htail hp => absurd hp (not_lt.mpr htail), hs'.fresh,
    hs'.inst,
    fun _ => List.Pairwise.nil, fun a p => ?_⟩
  constructor
  · intro h
    cases h
  · intro h
    exact absurd h.1.2 (not_lt.mpr h.1.1)

theorem Wf.advance (hs : Wf s) (hlt : s.qRetire < s.qRename)
    (hc : (s.inst s.qRetire).stage = .COMPLETE_STAGE) : Wf s.advance := by
  refine ⟨hs.tail_le.trans (Nat.le_succ _), hlt, hs.rename_le, ?_, hs.fresh, hs.inst,
    hs.lsq_sorted, hs.lsq_mem⟩
  intro p htail hp
  rcases Nat.lt_succ_iff_lt_or_eq.mp hp with hp | rfl
  · exact hs.passed p htail hp
  · exact hc

theorem Wf.commit (hs : Wf s) (hlt : s.qRetire < s.qRename) : Wf s.commit := by
  refine ⟨le_rfl, hlt, hs.rename_le, fun p htail hp => absurd hp (not_lt.mpr htail), hs.fresh,
    hs.inst, fun a => (hs.lsq_sorted a).filter _, fun a p => ?_⟩
  have htail := hs.tail_le
  change p ∈ (s.lsq a).filter (s.qRetire < ·) ↔ (s.qRetire + 1 ≤ p ∧ p < s.qRename) ∧ _
  rw [List.mem_filter, hs.lsq_mem, decide_eq_true_eq]
  constructor
  · rintro ⟨⟨⟨_, hren⟩, hin⟩, hgt⟩
    exact ⟨⟨hgt, hren⟩, hin⟩
  · rintro ⟨⟨hgt, hren⟩, hin⟩
    exact ⟨⟨⟨by omega, hren⟩, hin⟩, hgt⟩

/-- The uop at the head of retirement is complete afterwards. -/
theorem retireReady_setInst (hs : Wf s) (h : s.retireReady = some u) :
    s.qRetire < s.qRename ∧ u.stage = .COMPLETE_STAGE ∧ Wf (s.setInst s.qRetire u) := by
  obtain ⟨hlt, ⟨hstage, rfl⟩ | ⟨hclass, hstage, rfl⟩⟩ := retireReady_eq h
  · exact ⟨hlt, hstage, hs.mark ⟨hs.tail_le, hlt⟩ rfl rfl rfl rfl⟩
  · refine ⟨hlt, rfl, hs.setInst ?_ ⟨hs.tail_le, hlt⟩ rfl rfl fun _ => rfl⟩
    have hissued : (s.inst s.qRetire).isMemoryIssued := by
      simp [MemInst.isMemoryIssued, hstage, StageType.isMemoryIssued]
    have hval : (s.inst s.qRetire).HasValue := Or.inl ⟨hclass, hissued⟩
    exact (hs.inst _).setStage (fun _ hother => (hs.inst _).issued hother hissued)
      (fun _ => (hs.inst _).full hval) (fun _ => Or.inl ⟨hclass, rfl⟩)

theorem checked_frame (u : MemInst) : (s.checked u).qTail = s.qTail ∧
    (s.checked u).qRetire = s.qRetire ∧ (s.checked u).inst s.qRetire = u := by
  unfold checked
  split
  · refine ⟨rfl, min_eq_left (Nat.le_succ _), ?_⟩
    exact (squashFrom_inst (Nat.lt_succ_self _)).trans setInst_self
  · exact ⟨rfl, rfl, setInst_self⟩

theorem Wf.checked (hs : Wf s) (h : s.retireReady = some u) :
    Wf (s.checked u) ∧ s.qRetire < (s.checked u).qRename := by
  obtain ⟨hlt, hstage, hs'⟩ := retireReady_setInst hs h
  unfold LoadStoreWindow.checked
  split
  · exact ⟨hs'.squashFrom ⟨hs.tail_le.trans (Nat.le_succ _), hlt⟩, Nat.lt_succ_self _⟩
  · exact ⟨hs', hlt⟩

theorem Wf.retire (hs : Wf s) (h : s.retire = some s') : Wf s' := by
  obtain ⟨u, hu, h⟩ := retire_eq h
  obtain ⟨hlt, hstage, hs'⟩ := retireReady_setInst hs hu
  obtain ⟨hc, hren⟩ := hs.checked hu
  obtain ⟨_, hretire, hself⟩ := checked_frame (s := s) u
  rw [← hretire] at hren
  rcases h with ⟨_, rfl⟩ | ⟨_, rfl | rfl⟩
  · exact hs'.squashFrom ⟨hs.tail_le, hlt.le⟩
  · exact hc.commit hren
  · refine hc.advance hren ?_
    rw [hretire, hself]
    exact hstage

theorem Wf.invalidationSearch {lineAddr : Nat} (hs : Wf s)
    (h : s.invalidationSearch lineAddr = some s') : Wf s' := by
  obtain ⟨_, rfl⟩ | ⟨oldest, _, rfl⟩ := invalidationSearch_eq h
  · exact ⟨hs.tail_le, hs.retire_le, hs.rename_le, hs.passed, hs.fresh, hs.inst, hs.lsq_sorted,
      hs.lsq_mem⟩
  · exact ⟨hs.tail_le, hs.retire_le, hs.rename_le, hs.passed, hs.fresh,
      fun p => (hs.inst p).of_marks rfl rfl rfl rfl, hs.lsq_sorted, hs.lsq_mem⟩

theorem Wf.step {e : Event} (hs : Wf s) (h : s.step e = some s') : Wf s' := by
  cases e with
  | fetch c b =>
      obtain rfl := Option.some.inj h
      exact hs.fetch c b
  | rename => exact hs.rename h
  | addressGenerate q cond physAddr numBytes => exact hs.addressGenerate h
  | executeStore q value => exact hs.executeStore h
  | executeLoad q => exact hs.executeLoad h
  | completeLoad q => exact hs.completeLoad h
  | completeOther q => exact hs.completeOther h
  | retire => exact hs.retire h
  | flushPipeline q => exact hs.flushPipeline h
  | invalidation lineAddr => exact hs.invalidationSearch h
  | reset memory =>
      obtain rfl := Option.some.inj h
      exact hs.reset memory

theorem wf_reachable (h : Reachable step {} s) : Wf s :=
  reachable_invariant wf_init (fun _ _ _ hs he => hs.step he) h

end

end LoadStoreWindow
end FeS2.Pyrite
