import FeS2.Pyrite.QuietStep

/-!
The value of a load. Byte by byte, a completed load has what the last older
store of the window wrote, or memory where there is none; if not, it or an older
load is marked, and none of them will pass the check with that value.
-/

namespace FeS2.Pyrite
open EventSystem LastWriter

/-- The byte that a uop with its value would write at `a`. -/
def MemInst.writes (u : MemInst) (a : Nat) : Option (BitVec 8) :=
  if u.uopClass = .store then u.memOperand.byteAt a else none

namespace LoadStoreWindow

/-- Byte `a` as the uops before `q` leave it. -/
def byteBefore (s : LoadStoreWindow) (q a : Nat) : BitVec 8 :=
  (lastWrite (fun p => (s.inst p).writes a) s.qTail (q - s.qTail)).getD (s.memory a)

def Right (s : LoadStoreWindow) (q : Nat) : Prop :=
  ∀ a, (s.inst q).memOperand.Covers a → (s.inst q).memOperand.byteAt a = some (s.byteBefore q a)

/-- A load still to be checked is marked, and `q` will be replayed with it. -/
def Undone (s : LoadStoreWindow) (q : Nat) : Prop :=
  ∃ f, s.qRetire ≤ f ∧ f ≤ q ∧ (s.inst f).loadOrderingViolation

structure LoadsRight (s : LoadStoreWindow) : Prop where
  wf : Wf s
  right : ∀ q, s.qRetire ≤ q → q < s.qRename → (s.inst q).HasRead → s.Right q ∨ s.Undone q

theorem loadsRight_init : LoadsRight {} where
  wf := wf_init
  right q _ h := absurd h (Nat.not_lt_zero q)

/-! The two searches, byte by byte -/

section
variable {inst : Nat → MemInst} {p : Nat → Bool} {a : Nat}

/-- An operand over another one, at a byte of the latter. -/
theorem overlay_covered {dw target : DoubleWord} (hcov : target.Covers a) (hsize : target.size ≤ 8)
    (h : ∀ b, dw.byteAt a = some b → dw.Covers a) :
    (dw.overlay target).byteAt a = (dw.byteAt a).or (target.byteAt a) ∧
      (dw.overlay target).Covers a := by
  have hframe := DoubleWord.overlay_frame dw target
  have hlt : a < target.address + 8 := hcov.2.trans_le (Nat.add_le_add_left hsize _)
  refine ⟨?_, ?_⟩
  · by_cases hov : dw.overlaps target
    · exact DoubleWord.overlay_byteAt hov hcov.1 hlt
    · have hnone : dw.byteAt a = none := by
        cases hb : dw.byteAt a with
        | none => rfl
        | some b => exact absurd (DoubleWord.overlaps_of_covers (h b hb) hcov) hov
      unfold DoubleWord.overlay
      rw [if_neg hov, hnone, Option.none_or]
  · unfold DoubleWord.Covers
    rw [hframe.1, hframe.2]
    exact hcov

/-- Every uop that writes the byte is on the list. -/
def Listed (inst : Nat → MemInst) (p : Nat → Bool) (a : Nat) : Prop :=
  ∀ q b, (inst q).writes a = some b → p q ∧ (inst q).memOperand.Covers a

theorem Listed.writes_eq_none (h : Listed inst p a) {q : Nat} (hp : ¬ p q) :
    (inst q).writes a = none := by
  cases hw : (inst q).writes a with
  | none => rfl
  | some b => exact absurd (h q b hw).1 hp

theorem writes_of_store {u : MemInst} (h : u.uopClass = .store) :
    u.writes a = u.memOperand.byteAt a := if_pos h

theorem writes_of_ne_store {u : MemInst} (h : u.uopClass ≠ .store) : u.writes a = none := if_neg h

theorem loadSearchAlong_byteAt {m : DoubleWord} (hlist : Listed inst p a) {lo n : Nat}
    {result r : DoubleWord} (hcov : result.Covers a) (hsize : result.size ≤ 8)
    (h : loadSearchAlong inst m ((List.range' lo n).filter p) result = some r) :
    r.byteAt a = (lastWrite (fun q => (inst q).writes a) lo n).or (result.byteAt a) := by
  induction n generalizing lo result with
  | zero =>
      obtain rfl := Option.some.inj h
      rfl
  | succ n ih =>
      rw [lastWrite_cons, Option.or_assoc]
      rw [List.range'_succ, List.filter_cons] at h
      split at h
      · unfold loadSearchAlong at h
        split at h
        · rename_i hstore
          split at h
          · cases h
          · have hw := writes_of_store (a := a) hstore
            have hover := @overlay_covered a (inst lo).memOperand _ hcov hsize
              fun b hb => (hlist lo b (hw.trans hb)).2
            have hsize' := (DoubleWord.overlay_frame (inst lo).memOperand result).2.trans_le hsize
            rw [ih hover.2 hsize' h, hover.1, hw]
        · rename_i hstore
          rw [ih hcov hsize h, writes_of_ne_store hstore, Option.none_or]
      · rename_i hp
        rw [ih hcov hsize h, hlist.writes_eq_none hp, Option.none_or]

/-- Up to the load that the search returns every issued load has the byte of the
last store before it, from `dw` on. -/
theorem storeSearchAlong_byteAt (hlist : Listed inst p a) {lo n : Nat} {dw : DoubleWord}
    {b : BitVec 8} (hcov : dw.Covers a) (hsize : dw.size ≤ 8) (hb : dw.byteAt a = some b)
    {q : Nat} (hlo : lo ≤ q) (hn : q < lo + n) (hp : p q) (hload : (inst q).uopClass = .load)
    (hissued : (inst q).isMemoryIssued) (hfull : (inst q).memOperand.Full)
    (hq : (inst q).memOperand.Covers a)
    (hfirst : ∀ f, storeSearchAlong inst ((List.range' lo n).filter p) dw = some f → q < f) :
    (inst q).memOperand.byteAt a
      = some ((lastWrite (fun q => (inst q).writes a) lo (q - lo)).getD b) := by
  induction n generalizing lo dw b with
  | zero => omega
  | succ n ih =>
      have hstore : (inst q).uopClass ≠ .store := by simp [hload]
      rw [List.range'_succ, List.filter_cons] at hfirst
      rcases Nat.lt_or_eq_of_le hlo with hlt | rfl
      · -- the rest of the walk decides
        obtain ⟨k, hk⟩ : ∃ k, q - lo = k + 1 := ⟨q - lo - 1, by omega⟩
        have hk' : k = q - (lo + 1) := by omega
        rw [hk, lastWrite_cons, hk', Option.getD_or]
        split at hfirst
        · unfold storeSearchAlong at hfirst
          split at hfirst
          · rename_i hlo_store
            have hw := writes_of_store (a := a) hlo_store
            have hover := @overlay_covered a (inst lo).memOperand _ hcov hsize
              fun b' hb' => (hlist lo b' (hw.trans hb')).2
            have hsize' := (DoubleWord.overlay_frame (inst lo).memOperand dw).2.trans_le hsize
            refine ih hover.2 hsize' ?_ hlt (by omega) hfirst
            rw [hover.1, hb, hw]
            cases (inst lo).memOperand.byteAt a <;> rfl
          · rename_i hlo_store
            rw [writes_of_ne_store hlo_store]
            split at hfirst
            · exact absurd (hfirst lo rfl) (by omega)
            · exact ih hcov hsize hb hlt (by omega) hfirst
        · rename_i hpl
          rw [hlist.writes_eq_none hpl]
          exact ih hcov hsize hb hlt (by omega) hfirst
      · -- the load itself: it passes the comparison
        rw [if_pos hp] at hfirst
        unfold storeSearchAlong at hfirst
        rw [if_neg hstore, hissued, Bool.true_and] at hfirst
        rw [Nat.sub_self, lastWrite_zero, Option.getD_none]
        have hmatch : (inst lo).memOperand.overlapMatches dw := by
          by_contra hbad
          rw [Bool.not_eq_true] at hbad
          rw [hbad, Bool.not_false, if_pos rfl] at hfirst
          exact absurd (hfirst lo rfl) (lt_irrefl lo)
        obtain ⟨v, hbyte⟩ : ∃ v, (inst lo).memOperand.byteAt a = some v :=
          ⟨_, by rw [hfull.byteAt, if_pos hq]⟩
        rw [hbyte]
        exact congrArg some (DoubleWord.overlapMatches_byteAt hmatch
          (DoubleWord.overlaps_of_covers hq hcov) hbyte hb)

end

section
variable {s s' : LoadStoreWindow} {u : MemInst} {q : Nat}

/-- A uop that writes byte `a` is in the list of the block of `a`. -/
theorem Wf.listed (hs : Wf s) {a b : Nat} (hb : b = a - a % blockBytes) :
    Listed s.inst (s.inLine b) a := by
  intro q v hw
  have hstore : (s.inst q).uopClass = .store := by
    by_contra h
    rw [writes_of_ne_store h] at hw
    cases hw
  rw [writes_of_store hstore] at hw
  obtain ⟨hcov, hval⟩ := MemInst.byteAt_covers (hs.inst q) hw
  have hissued : (s.inst q).isMemoryIssued := by
    rcases hval with ⟨_, h⟩ | ⟨_, h⟩
    · exact h
    · exact MemInst.isMemoryIssued_of_complete h
  have hins := (hs.inst q).issued (by simp [hstore]) hissued
  have hline := ((hs.inst q).inBlock hins).alignedAddr_eq hcov
  refine ⟨?_, hcov⟩
  simp only [inLine, hins, Bool.true_and, decide_eq_true_eq]
  exact hline.trans hb.symm

/-- The loads keep their bytes, and so do the stores before them. -/
theorem LoadsRight.quiet (hs : LoadsRight s) (h : Quiet s s') (hwf : Wf s')
    (hw : ∀ a q, q < s'.qRename → (s'.inst q).writes a = (s.inst q).writes a) :
    LoadsRight s' := by
  refine ⟨hwf, fun q hretire hq hread => ?_⟩
  obtain ⟨hren, hread', hop, _⟩ := h.read q hq hread
  rcases hs.right q (h.checked q hretire hq) hren hread' with hright | ⟨f, hf, hfq, hm⟩
  · refine Or.inl fun a ha => ?_
    rw [hop] at ha ⊢
    rw [hright a ha]
    unfold byteBefore
    rw [h.memory, h.qTail]
    congr 2
    refine lastWrite_congr fun p hp hpq => (hw a p ?_).symm
    omega
  · exact Or.inr ⟨f, h.qRetire.trans hf, hfq, h.ordering f (hfq.trans_lt hq) hm⟩

theorem writes_setInst (h : ∀ a, u.writes a = (s.inst q).writes a) :
    ∀ a p, ((s.setInst q u).inst p).writes a = (s.inst p).writes a := by
  intro a p
  by_cases hpq : p = q
  · rw [hpq, setInst_self]
    exact h a
  · rw [setInst_of_ne hpq]

theorem writes_setStage (stage : StageType) (a p : Nat) :
    ((s.setInst q ((s.inst q).setStage stage)).inst p).writes a = (s.inst p).writes a :=
  have h : ∀ a, ((s.inst q).setStage stage).writes a = (s.inst q).writes a := fun _ => rfl
  writes_setInst h a p

theorem writes_of_empty (h : u.memOperand.bytemask = 0) (a : Nat) : u.writes a = none := by
  unfold MemInst.writes
  rw [DoubleWord.byteAt_of_empty h]
  exact ite_self none

theorem writes_addressGenerate {cond : LdstAlign} {physAddr numBytes : Nat} (hs : Wf s)
    (h : s.addressGenerate q cond physAddr numBytes = some s') :
    ∀ a p, (s'.inst p).writes a = (s.inst p).writes a := by
  obtain ⟨_, hclass, hins, rfl | ⟨dw, _, hempty, rfl⟩⟩ := addressGenerate_eq h
  · exact writes_setInst fun _ => rfl
  · refine writes_setInst fun a => ?_
    have hissued : ¬ (s.inst q).isMemoryIssued := by
      intro hi
      have hi' := (hs.inst q).issued hclass hi
      rw [hins] at hi'
      cases hi'
    rw [Bool.not_eq_true] at hissued
    rw [writes_of_empty ((hs.inst q).empty (MemInst.not_hasValue hissued))]
    exact writes_of_empty hempty a

theorem writes_executeLoad (hs : Wf s) (h : s.executeLoad q = some s') :
    ∀ a p, (s'.inst p).writes a = (s.inst p).writes a := by
  obtain ⟨_, ⟨_, rfl⟩ | rfl | ⟨_, rfl⟩⟩ := executeLoad_eq hs h
  · exact writes_setInst fun _ => rfl
  · exact fun _ _ => rfl
  · exact writes_setInst fun _ => rfl

theorem writes_squashFrom {first : Nat} (a : Nat) {p : Nat} (hp : p < first) :
    ((s.squashFrom first).inst p).writes a = (s.inst p).writes a := by
  rw [squashFrom_inst hp]

theorem writes_retireReady (h : s.retireReady = some u) :
    ∀ a p, ((s.setInst s.qRetire u).inst p).writes a = (s.inst p).writes a := by
  obtain ⟨_, ⟨_, rfl⟩ | ⟨_, _, rfl⟩⟩ := retireReady_eq h
  · exact writes_setInst fun _ => rfl
  · exact writes_setInst fun _ => rfl

/-! A store issues -/

/-- What the issue of a store with a value does to the window. -/
structure Issues (s s' : LoadStoreWindow) (q : Nat) (dw : DoubleWord) : Prop where
  quiet : Quiet s s'
  wf : Wf s'
  store : (s.inst q).uopClass = .store
  position : s.qRetire ≤ q ∧ q < s.qRename
  operand : dw.InBlock ∧ dw.Full ∧ dw.alignedAddr = (s.inst q).line
  inserted : (s.inst q).lsqInserted
  empty : (s.inst q).memOperand.bytemask = 0
  self : (s'.inst q).memOperand = dw
  class_eq : ∀ p, (s'.inst p).uopClass = (s.inst p).uopClass
  other : ∀ p, p ≠ q → (s'.inst p).memOperand = (s.inst p).memOperand
  qRename : s'.qRename = s.qRename
  marks : ∀ f, s.searchFrom q dw = some f → (s'.inst f).loadOrderingViolation

theorem executeStore_issues {value : BitVec 64} (hs : Wf s)
    (h : s.executeStore q value = some s') :
    (Quiet s s' ∧ Wf s' ∧ ∀ a p, (s'.inst p).writes a = (s.inst p).writes a) ∨
      ∃ dw, Issues s s' q dw := by
  have hquiet := quiet_executeStore h
  have hwf := hs.executeStore h
  obtain ⟨⟨hq, hclass, hins, hissued⟩, ⟨_, rfl⟩ | ⟨hsize, dw, hdw, h⟩⟩ := executeStore_eq h
  · exact Or.inl ⟨hquiet, hwf, writes_setInst fun _ => rfl⟩
  · refine Or.inr ⟨dw, ?_⟩
    obtain ⟨hu, haddr, hsz⟩ := wf_issuedStore hs hclass hins hissued hsize hdw
    have hval : (((s.inst q).withOperand dw).setStage .MEMORY_STAGE).HasValue :=
      Or.inl ⟨hclass, rfl⟩
    have hretire := hs.not_passed hq.1 (MemInst.not_complete hissued)
    have hempty := (hs.inst q).empty (MemInst.not_hasValue hissued)
    have hoperand : dw.InBlock ∧ dw.Full ∧ dw.alignedAddr = (s.inst q).line := by
      refine ⟨hu.inBlock hins, hu.full hval, ?_⟩
      simp only [MemInst.line, DoubleWord.alignedAddr, haddr]
    rcases h with ⟨hnone, rfl⟩ | ⟨x, hx, hxq, rfl⟩
    · refine ⟨hquiet, hwf, hclass, ⟨hretire, hq.2⟩, hoperand, hins, hempty, ?_, fun p => ?_,
        fun p hp => ?_, rfl, fun f hf => ?_⟩
      · rw [setInst_self]
        rfl
      · by_cases hp : p = q
        · rw [hp, setInst_self]
          rfl
        · rw [setInst_of_ne hp]
      · rw [setInst_of_ne hp]
      · rw [hnone] at hf
        cases hf
    · refine ⟨hquiet, hwf, hclass, ⟨hretire, hq.2⟩, hoperand, hins, hempty, ?_, fun p => ?_,
        fun p hp => ?_, rfl, fun f hf => ?_⟩
      · rw [setInst_of_ne (Ne.symm hxq), setInst_self]
        rfl
      · by_cases hpx : p = x
        · rw [hpx, setInst_self]
          rfl
        · rw [setInst_of_ne hpx]
          by_cases hp : p = q
          · rw [hp, setInst_self]
            rfl
          · rw [setInst_of_ne hp]
      · by_cases hpx : p = x
        · rw [hpx, setInst_self]
          rfl
        · rw [setInst_of_ne hpx, setInst_of_ne hp]
      · obtain rfl := Option.some.inj (hx.symm.trans hf)
        rw [setInst_self]
        rfl

theorem Issues.writes (h : Issues s s' q dw) {a p : Nat} (hp : p ≠ q) :
    (s'.inst p).writes a = (s.inst p).writes a := by
  unfold MemInst.writes
  rw [h.class_eq p, h.other p hp]

theorem Issues.writes_self (h : Issues s s' q dw) (a : Nat) :
    (s'.inst q).writes a = dw.byteAt a := by
  unfold MemInst.writes
  rw [h.class_eq q, if_pos h.store, h.self]

/-- The bytes before a uop are those of before unless the store is older and covers them. -/
theorem Issues.byteBefore_of_not_covers (h : Issues s s' q dw) {p a : Nat}
    (hp : q < p → ¬ dw.Covers a) : s'.byteBefore p a = s.byteBefore p a := by
  unfold byteBefore
  rw [h.quiet.memory, h.quiet.qTail]
  congr 1
  refine lastWrite_congr fun r hr hrp => ?_
  by_cases hrq : r = q
  · have hnone : dw.byteAt a = none := by
      rw [h.operand.2.1.byteAt, if_neg (hp (by omega))]
    rw [hrq, h.writes_self, hnone, writes_of_empty h.empty]
  · exact h.writes hrq

/-- A younger load that the search lets pass has the byte of the last store before it. -/
theorem Issues.right_of_covers (hs : Wf s) (h : Issues s s' q dw) {p a : Nat} (hqp : q < p)
    (hp : p < s.qRename) (hread : (s.inst p).HasRead) (hcov : dw.Covers a)
    (hpa : (s.inst p).memOperand.Covers a)
    (hfirst : ∀ f, s.searchFrom q dw = some f → p < f) :
    (s.inst p).memOperand.byteAt a = some (s'.byteBefore p a) := by
  obtain ⟨hblock, hfull, haligned⟩ := h.operand
  have htail := hs.tail_le
  have hretire := h.position.1
  set t := s.setInst q ((s.inst q).withOperand dw) with ht
  have hline : dw.alignedAddr = a - a % blockBytes := hblock.alignedAddr_eq hcov
  have hpq : p ≠ q := ne_of_gt hqp
  have htp : t.inst p = s.inst p := setInst_of_ne hpq
  have htq : (t.inst q).memOperand = dw := by
    rw [ht, setInst_self]
    rfl
  -- the search runs over the window with the value in place
  have hwrites : ∀ r, (t.inst r).writes a = (s'.inst r).writes a := by
    intro r
    by_cases hrq : r = q
    · have hclass : (t.inst q).uopClass = .store := by
        rw [ht, setInst_self]
        exact h.store
      rw [hrq, h.writes_self, writes_of_store hclass, htq]
    · rw [h.writes hrq, ht, setInst_of_ne hrq]
  have hlist : Listed t.inst (s.inLine dw.alignedAddr) a := by
    intro r b hb
    by_cases hrq : r = q
    · rw [hrq, htq]
      refine ⟨?_, hcov⟩
      simp only [inLine, h.inserted, Bool.true_and, decide_eq_true_eq]
      exact haligned.symm
    · rw [ht, setInst_of_ne hrq] at hb ⊢
      exact hs.listed hline r b hb
  have hmem : q ∈ s.lsq dw.alignedAddr :=
    (hs.lsq_mem _ q).mpr ⟨⟨htail.trans hretire, h.position.2⟩, h.inserted, haligned.symm⟩
  have hsearch : s.searchFrom q dw = storeSearchAlong t.inst
      ((List.range' q (s.qRename - q)).filter (s.inLine dw.alignedAddr)) dw := by
    unfold searchFrom
    rw [hs.younger hmem]
  rw [hsearch] at hfirst
  have hissued := MemInst.isMemoryIssued_of_complete hread.2.1
  have hins := (hs.inst p).issued (by simp [hread.1]) hissued
  have hpfull := (hs.inst p).full (Or.inr ⟨hread.1, hread.2.1⟩)
  have hpline : s.inLine dw.alignedAddr p := by
    simp only [inLine, hins, Bool.true_and, decide_eq_true_eq]
    exact (((hs.inst p).inBlock hins).alignedAddr_eq hpa).trans hline.symm
  obtain ⟨b, hb⟩ : ∃ b, dw.byteAt a = some b := ⟨_, by rw [hfull.byteAt, if_pos hcov]⟩
  have hlast := storeSearchAlong_byteAt hlist hcov hblock.size_le hb hqp.le
    (by omega : p < q + (s.qRename - q)) hpline (by rw [htp]; exact hread.1)
    (by rw [htp]; exact hissued) (by rw [htp]; exact hpfull) (by rw [htp]; exact hpa) hfirst
  rw [htp] at hlast
  rw [hlast]
  -- from the tail on, the store itself is the last writer if none follows
  obtain ⟨k, hk⟩ : ∃ k, p - q = k + 1 := ⟨p - q - 1, by omega⟩
  have hsplit : p - s.qTail = (q - s.qTail) + (p - q) := by omega
  have hlo : s.qTail + (q - s.qTail) = q := by omega
  unfold byteBefore
  rw [h.quiet.qTail, h.quiet.memory, hsplit, lastWrite_add, hlo, hk, lastWrite_cons,
    lastWrite_cons, lastWrite_congr fun r _ _ => hwrites r, hwrites q, h.writes_self, hb]
  cases lastWrite (fun r => (s'.inst r).writes a) (q + 1) k <;> rfl

theorem LoadsRight.issues (hs : LoadsRight s) (h : Issues s s' q dw) : LoadsRight s' := by
  refine ⟨h.wf, fun p hretire hp hread => ?_⟩
  obtain ⟨hren, hread', hop, _⟩ := h.quiet.read p hp hread
  have hp' := h.quiet.checked p hretire hp
  by_cases hundone : ∃ f, s.searchFrom q dw = some f ∧ f ≤ p
  · obtain ⟨f, hf, hfp⟩ := hundone
    refine Or.inr ⟨f, ?_, hfp, h.marks f hf⟩
    obtain ⟨hmem, hne, _⟩ := storeSearchAlong_some hf
    have hqmem : q ∈ s.lsq dw.alignedAddr := (hs.wf.lsq_mem _ q).mpr
      ⟨⟨hs.wf.tail_le.trans h.position.1, h.position.2⟩, h.inserted, h.operand.2.2.symm⟩
    rw [hs.wf.younger hqmem, mem_filter_range'] at hmem
    exact h.quiet.qRetire.trans (h.position.1.trans hmem.1.1)
  · have hfirst : ∀ f, s.searchFrom q dw = some f → p < f := fun f hf =>
      not_le.mp fun hle => hundone ⟨f, hf, hle⟩
    rcases hs.right p hp' hren hread' with hright | ⟨f, hf, hfp, hm⟩
    · refine Or.inl fun a ha => ?_
      rw [hop] at ha ⊢
      by_cases hcov : q < p ∧ dw.Covers a
      · exact h.right_of_covers hs.wf hcov.1 hren hread' hcov.2 ha hfirst
      · rw [hright a ha, h.byteBefore_of_not_covers fun hqp hc => hcov ⟨hqp, hc⟩]
    · exact Or.inr ⟨f, h.quiet.qRetire.trans hf, hfp, h.quiet.ordering f (hfp.trans_lt hp) hm⟩

/-! A load reads -/

theorem byte_readFromSimicsMemory (memory : Nat → BitVec 8) (addr : Nat) {size i : Nat}
    (hi : i < size) (hsize : size ≤ 8) :
    DoubleWord.byte (readFromSimicsMemory memory addr size) i = memory (addr + i) := by
  unfold readFromSimicsMemory
  rw [DoubleWord.byte_ofBytes _ (hi.trans_le hsize), if_pos hi]

/-- A load that reads has, byte by byte, what the uops before it leave. -/
theorem completeLoad_byteAt {lsqData dw : DoubleWord} (hs : Wf s)
    (hq : s.qTail ≤ q ∧ q < s.qRename) (hins : (s.inst q).lsqInserted)
    (hval : ¬ (s.inst q).HasValue) (hsize : (s.inst q).memOperand.size ≠ 0)
    (hdata : s.loadSearch q = some lsqData)
    (hdw : (s.inst q).memOperand.setValue (readFromSimicsMemory s.memory
      (s.inst q).memOperand.address (s.inst q).memOperand.size) = some dw)
    {a : Nat} (ha : (s.inst q).memOperand.Covers a) :
    (lsqData.writeValue dw).byteAt a = some (s.byteBefore q a) := by
  obtain ⟨_, _, _, hsz, haddr, hmemory⟩ := @loaded_operand s q lsqData dw _ hs hins hval hsize hdw
  have hblock := (hs.inst q).inBlock hins
  have hmem : q ∈ s.lsq (s.inst q).line := (hs.lsq_mem _ q).mpr ⟨hq, hins, rfl⟩
  have hold : (s.lsq (s.inst q).memOperand.alignedAddr).reverse.takeWhile (· ≠ q)
      = (List.range' s.qTail (q - s.qTail)).filter (s.inLine (s.inst q).line) := hs.older hmem
  unfold loadSearch at hdata
  simp only at hdata
  rw [hold] at hdata
  have hframe := loadSearchAlong_frame hdata
  have hbyte := loadSearchAlong_byteAt (hs.listed (hblock.alignedAddr_eq ha)) ha hblock.size_le
    hdata
  rw [DoubleWord.byteAt_of_empty ((hs.inst q).empty hval), Option.or_none] at hbyte
  have hov : lsqData.overlaps dw := by
    refine DoubleWord.overlaps_of_covers (a := a) ?_ ?_
    · unfold DoubleWord.Covers
      rw [hframe.1, hframe.2]
      exact ha
    · unfold DoubleWord.Covers
      rw [haddr, hsz]
      exact ha
  have hread := hmemory a ha
  obtain ⟨h1, h2⟩ := ha
  have hoff : (s.inst q).memOperand.address + (a - (s.inst q).memOperand.address) = a := by omega
  rw [byte_readFromSimicsMemory _ _ (by omega) hblock.size_le, hoff] at hread
  rw [DoubleWord.writeValue_byteAt hov (by rw [hread]; rfl), hbyte, hread]
  unfold byteBefore
  cases lastWrite (fun p => (s.inst p).writes a) s.qTail (q - s.qTail) <;> rfl

theorem LoadsRight.completeLoad (hs : LoadsRight s) (h : s.completeLoad q = some s') :
    LoadsRight s' := by
  have hwf := hs.wf.completeLoad h
  obtain ⟨⟨hq, hclass, hstage, hins⟩, h⟩ := completeLoad_eq hs.wf h
  have hval := waiting_no_value hclass hstage
  rcases h with ⟨hsize, rfl⟩ | rfl | ⟨hsize, lsqData, dw, hdata, hdw, rfl⟩
  · exact hs.quiet (quiet_complete_empty hsize) hwf fun a p _ => writes_setStage _ a p
  · exact hs
  · set v := (s.inst q).load (lsqData.writeValue dw) (s.told (s.inst q).line) with hv
    have hclass' : (s.inst q).uopClass ≠ .store := by simp [hclass]
    have hw : ∀ a p, ((s.setInst q v).inst p).writes a = (s.inst p).writes a :=
      writes_setInst fun a => (writes_of_ne_store (u := v) hclass').trans
        (writes_of_ne_store hclass').symm
    have hbefore : ∀ p a, (s.setInst q v).byteBefore p a = s.byteBefore p a := by
      intro p a
      unfold byteBefore
      congr 1
      exact lastWrite_congr fun r _ _ => hw a r
    refine ⟨hwf, fun p hretire hp hread => ?_⟩
    by_cases hpq : p = q
    · refine Or.inl fun a ha => ?_
      rw [hpq, setInst_self] at ha ⊢
      rw [hbefore]
      obtain ⟨haddr, hsz, _⟩ := @loaded_operand s q lsqData dw _ hs.wf hins hval hsize hdw
      refine completeLoad_byteAt hs.wf hq hins hval hsize hdata hdw ?_
      unfold DoubleWord.Covers
      rw [← haddr, ← hsz]
      exact ha
    · rw [setInst_of_ne hpq] at hread
      rcases hs.right p hretire hp hread with hright | ⟨f, hf, hfp, hm⟩
      · refine Or.inl fun a ha => ?_
        rw [setInst_of_ne hpq] at ha ⊢
        rw [hbefore]
        exact hright a ha
      · refine Or.inr ⟨f, hf, hfp, ?_⟩
        by_cases hfq : f = q
        · rw [hfq] at hm
          rw [hfq, setInst_self]
          exact hm
        · rwa [setInst_of_ne hfq]

/-! Retirement -/

/-- The bytes that the committed uops leave in memory. -/
theorem foldl_writeMemory (inst : Nat → MemInst) (memory : Nat → BitVec 8) (lo n a : Nat) :
    (List.range' lo n).foldl (fun m q => writeMemory (inst q) m) memory a
      = (lastWrite (fun q => (inst q).writes a) lo n).getD (memory a) := by
  induction n with
  | zero => rfl
  | succ n ih =>
      rw [List.range'_concat, List.foldl_append, Nat.one_mul, lastWrite_succ, Option.getD_or,
        ← ih]
      simp only [List.foldl_cons, List.foldl_nil, writeMemory, MemInst.writes]
      split <;> rfl

theorem Undone.passed {p : Nat} (hord : (s.inst s.qRetire).loadOrderingViolation = false)
    (h : s.Undone p) : ∃ f, s.qRetire + 1 ≤ f ∧ f ≤ p ∧ (s.inst f).loadOrderingViolation := by
  obtain ⟨f, hf, hfp, hm⟩ := h
  rcases Nat.lt_or_eq_of_le hf with hlt | rfl
  · exact ⟨f, hlt, hfp, hm⟩
  · rw [hord] at hm
    cases hm

theorem LoadsRight.advance (hs : LoadsRight s) (hwf : Wf s.advance)
    (hord : (s.inst s.qRetire).loadOrderingViolation = false) : LoadsRight s.advance :=
  ⟨hwf, fun p hretire hp hread =>
    (hs.right p ((Nat.le_succ _).trans hretire) hp hread).imp id fun h => h.passed hord⟩

/-- What leaves the window for memory is what its uops would have written. -/
theorem byteBefore_commit (hs : Wf s) {p : Nat} (hp : s.qRetire + 1 ≤ p) (a : Nat) :
    s.commit.byteBefore p a = s.byteBefore p a := by
  have htail := hs.tail_le
  have hsplit : p - s.qTail = (s.qRetire + 1 - s.qTail) + (p - (s.qRetire + 1)) := by omega
  have hlo : s.qTail + (s.qRetire + 1 - s.qTail) = s.qRetire + 1 := by omega
  have hmemory := foldl_writeMemory s.inst s.memory s.qTail (s.qRetire + 1 - s.qTail) a
  unfold byteBefore
  rw [hsplit, lastWrite_add, hlo, Option.getD_or, ← hmemory]
  rfl

theorem LoadsRight.commit (hs : LoadsRight s) (hwf : Wf s.commit)
    (hord : (s.inst s.qRetire).loadOrderingViolation = false) : LoadsRight s.commit := by
  refine ⟨hwf, fun p hretire hp hread => ?_⟩
  refine (hs.right p ((Nat.le_succ _).trans hretire) hp hread).imp (fun h a ha => ?_)
    fun h => h.passed hord
  rw [byteBefore_commit hs.wf hretire]
  exact h a ha

theorem LoadsRight.retire (hs : LoadsRight s) (h : s.retire = some s') : LoadsRight s' := by
  have hwf := hs.wf.retire h
  obtain ⟨u, hu, h⟩ := retire_eq h
  obtain ⟨hlt, _, hwf1⟩ := retireReady_setInst hs.wf hu
  have hs1 := hs.quiet (quiet_retireReady hu) hwf1 fun a p _ => writes_retireReady hu a p
  have hreplay : ∀ {first}, first ≤ s.qRename → Wf ((s.setInst s.qRetire u).squashFrom first) →
      LoadsRight ((s.setInst s.qRetire u).squashFrom first) := fun hle hwf' =>
    hs1.quiet (quiet_squashFrom (s := s.setInst s.qRetire u) hle) hwf' fun a _ hp =>
      writes_squashFrom a hp
  obtain ⟨hwfc, _⟩ := hs.wf.checked hu
  obtain ⟨_, hretire, hself⟩ := checked_frame (s := s) u
  have hsc : LoadsRight (s.checked u) := by
    unfold LoadStoreWindow.checked at hwfc ⊢
    split
    · rename_i hc
      rw [if_pos hc] at hwfc
      exact hreplay hlt hwfc
    · exact hs1
  rcases h with ⟨_, rfl⟩ | ⟨hord, h⟩
  · exact hreplay hlt.le hwf
  · have hord' : ((s.checked u).inst (s.checked u).qRetire).loadOrderingViolation = false := by
      rw [hretire, hself]
      exact hord
    rcases h with rfl | rfl
    · exact hsc.commit hwf hord'
    · exact hsc.advance hwf hord'

theorem LoadsRight.invalidationSearch {lineAddr : Nat} (hs : LoadsRight s)
    (h : s.invalidationSearch lineAddr = some s') : LoadsRight s' := by
  have hwf := hs.wf.invalidationSearch h
  obtain ⟨_, rfl⟩ | ⟨oldest, _, rfl⟩ := invalidationSearch_eq h
  · exact ⟨hwf, hs.right⟩
  · exact ⟨hwf, hs.right⟩

theorem LoadsRight.reset (hs : LoadsRight s) (memory : Nat → BitVec 8) :
    LoadsRight (s.reset memory) :=
  ⟨hs.wf.reset memory, fun _ hretire hp => absurd hp (not_lt.mpr hretire)⟩

theorem LoadsRight.step {e : Event} (hs : LoadsRight s) (h : s.step e = some s') :
    LoadsRight s' := by
  have hwf : Wf s' := hs.wf.step h
  cases e with
  | fetch c b =>
      obtain rfl := Option.some.inj h
      refine hs.quiet (quiet_fetch hs.wf c b) hwf fun a p hp => ?_
      exact congrArg (MemInst.writes · a) (setInst_of_ne (ne_of_lt (hp.trans_le hs.wf.rename_le)))
  | rename =>
      refine hs.quiet (quiet_rename hs.wf h) hwf fun a p _ => ?_
      obtain ⟨_, rfl⟩ := rename_eq h
      exact writes_setStage _ a p
  | addressGenerate q cond physAddr numBytes =>
      exact hs.quiet (quiet_addressGenerate hs.wf h) hwf fun a p _ =>
        writes_addressGenerate hs.wf h a p
  | executeStore q value =>
      rcases executeStore_issues hs.wf h with ⟨hquiet, _, hw⟩ | ⟨dw, hissues⟩
      · exact hs.quiet hquiet hwf fun a p _ => hw a p
      · exact hs.issues hissues
  | executeLoad q =>
      exact hs.quiet (quiet_executeLoad hs.wf h) hwf fun a p _ => writes_executeLoad hs.wf h a p
  | completeLoad q => exact hs.completeLoad h
  | completeOther q =>
      refine hs.quiet (quiet_completeOther h) hwf fun a p _ => ?_
      obtain ⟨_, _, rfl⟩ := completeOther_eq h
      exact writes_setStage _ a p
  | retire => exact hs.retire h
  | flushPipeline q =>
      refine hs.quiet (quiet_flushPipeline h) hwf fun a p hp => ?_
      obtain ⟨_, rfl⟩ := flushPipeline_eq h
      exact writes_squashFrom a hp
  | invalidation lineAddr => exact hs.invalidationSearch h
  | reset memory =>
      obtain rfl := Option.some.inj h
      exact hs.reset memory

theorem loadsRight_reachable (h : Reachable step {} s) : LoadsRight s :=
  reachable_invariant loadsRight_init (fun _ _ _ hs he => hs.step he) h

/-! The load that retires -/

def StoresTo (s : LoadStoreWindow) (p a : Nat) : Prop :=
  (s.inst p).uopClass = .store ∧ (s.inst p).memOperand.Covers a

/-- The youngest store of the window before `q` that covers byte `a`. -/
def YoungestStore (s : LoadStoreWindow) (q a p : Nat) : Prop :=
  (s.qTail ≤ p ∧ p < q) ∧ s.StoresTo p a ∧ ∀ r, p < r → r < q → ¬ s.StoresTo r a

/-- Byte `a` of the load at `q` is that of program order. -/
def InProgramOrder (s : LoadStoreWindow) (q a : Nat) : Prop :=
  (∃ p b, s.YoungestStore q a p ∧ (s.inst p).memOperand.byteAt a = some b ∧
      (s.inst q).memOperand.byteAt a = some b) ∨
    ((∀ p, s.qTail ≤ p → p < q → ¬ s.StoresTo p a) ∧
      (s.inst q).memOperand.byteAt a = some (s.memory a))

/-- A uop that has passed the check writes the byte exactly if it is a store that covers it. -/
theorem writes_eq_none_iff {p a : Nat} (hs : Wf s) (htail : s.qTail ≤ p) (hp : p < s.qRetire) :
    (s.inst p).writes a = none ↔ ¬ s.StoresTo p a := by
  unfold MemInst.writes StoresTo
  split
  · rename_i hstore
    have hissued := MemInst.isMemoryIssued_of_complete (hs.passed p htail hp)
    have hfull := (hs.inst p).full (Or.inl ⟨hstore, hissued⟩)
    rw [hfull.byteAt]
    split
    · rename_i hcov
      simp [hstore, hcov]
    · rename_i hcov
      simp [hcov]
  · rename_i hstore
    simp [hstore]

/-- Every byte of a load that retires is what the youngest older store left there,
or memory if no store of the window covers it. -/
theorem retired_load_in_program_order (h : Reachable step {} s) (hr : s.retire = some s')
    (hload : (s.inst s.qRetire).uopClass = .load)
    (hord : (s.inst s.qRetire).loadOrderingViolation = false) {a : Nat}
    (ha : (s.inst s.qRetire).memOperand.Covers a) : s.InProgramOrder s.qRetire a := by
  have hs := loadsRight_reachable h
  obtain ⟨u, hu, _⟩ := retire_eq hr
  obtain ⟨hlt, ⟨hstage, _⟩ | ⟨hstore, _⟩⟩ := retireReady_eq hu
  · have hsize : (s.inst s.qRetire).memOperand.size ≠ 0 := by
      have := ha.1.trans_lt ha.2
      omega
    rcases hs.right s.qRetire le_rfl hlt ⟨hload, hstage, hsize⟩ with hright | ⟨f, hf, hfq, hm⟩
    · have hbyte := hright a ha
      have htail := hs.wf.tail_le
      have hlen : s.qTail + (s.qRetire - s.qTail) = s.qRetire := by omega
      unfold byteBefore at hbyte
      rcases lastWrite_cases (fun p => (s.inst p).writes a) s.qTail (s.qRetire - s.qTail) with
        ⟨p, b, hp, hb, hnone, hlast⟩ | ⟨hnone, hlast⟩
      · rw [hlen] at hp hnone
        rw [hlast] at hbyte
        have hstores : s.StoresTo p a := by
          by_contra hno
          rw [(writes_eq_none_iff hs.wf hp.1 hp.2).mpr hno] at hb
          cases hb
        refine Or.inl ⟨p, b, ⟨hp, hstores, fun r hpr hrq => ?_⟩, ?_, hbyte⟩
        · exact (writes_eq_none_iff hs.wf (hp.1.trans hpr.le) hrq).mp (hnone r hpr hrq)
        · exact (writes_of_store hstores.1).symm.trans hb
      · rw [hlen] at hnone
        rw [hlast] at hbyte
        exact Or.inr ⟨fun p hp hpq => (writes_eq_none_iff hs.wf hp hpq).mp (hnone p hp hpq), hbyte⟩
    · obtain rfl := le_antisymm hfq hf
      rw [hord] at hm
      cases hm
  · rw [hload] at hstore
    cases hstore

/-- A store of eight bytes, one of two bytes over it, and a load across both,
with the older store's address known last. -/
def overlappingStores : List Event :=
  [.fetch .store false, .fetch .store false, .fetch .load true, .rename, .rename, .rename,
    .addressGenerate 2 .LDST_ALIGN_NORMAL 1 4, .executeLoad 2, .completeLoad 2,
    .addressGenerate 1 .LDST_ALIGN_NORMAL 2 2, .executeStore 1 0x1111,
    .addressGenerate 0 .LDST_ALIGN_NORMAL 0 8, .executeStore 0 0x2222222222222222,
    .retire, .retire, .retire, .rename, .addressGenerate 2 .LDST_ALIGN_NORMAL 1 4,
    .executeLoad 2, .completeLoad 2]

theorem overlapping_stores_in_program_order :
    ∃ s, run step {} overlappingStores = some s ∧ s.InProgramOrder s.qRetire 2 := by
  have hrun : (run step {} overlappingStores).map (fun s => s.retire.isSome &&
      decide ((s.inst s.qRetire).uopClass = .load ∧
        (s.inst s.qRetire).loadOrderingViolation = false ∧
        (s.inst s.qRetire).memOperand.Covers 2)) = some true := by
    decide +kernel
  obtain ⟨s, hs, hcheck⟩ := Option.map_eq_some_iff.mp hrun
  rw [Bool.and_eq_true, decide_eq_true_eq] at hcheck
  obtain ⟨hretire, hload, hord, hcov⟩ := hcheck
  obtain ⟨s', hs'⟩ := Option.isSome_iff_exists.mp hretire
  exact ⟨s, hs, retired_load_in_program_order ⟨_, hs⟩ hs' hload hord hcov⟩

end

end LoadStoreWindow
end FeS2.Pyrite
