import Mathlib.Data.Nat.Bitwise
import FeS2.Pyrite.InstructionWindow

/-!
The pointers of the instruction window stay in order, and the window stays
within its buffer, so that every uop in it has a slot of its own. What a stage
may do to the pointers depends on the uops: only a renamed uop waits, an x86 op
starts where the one before it ends, and a branch ends its x86 op.
-/

namespace FeS2.Pyrite

namespace PipeStages

/-- Nothing in the pipe is beyond `n`. -/
structure Below (p : PipeStages) (n : Nat) : Prop where
  head : p.head ≤ n
  tail : p.tail ≤ n
  pipeline : ∀ t ∈ p.pipeline, t ≤ n

theorem Below.mono {p : PipeStages} {n m : Nat} (h : p.Below n) (hnm : n ≤ m) : p.Below m :=
  ⟨h.head.trans hnm, h.tail.trans hnm, fun t ht => (h.pipeline t ht).trans hnm⟩

theorem below_configure (length t : Nat) : (configure length t).Below t :=
  ⟨Nat.le_refl t, Nat.le_refl t, fun _ ht => (List.eq_of_mem_replicate ht).le⟩

theorem Below.cycle {p : PipeStages} {n : Nat} (h : p.Below n) : p.cycle.Below n := by
  have hmem : ∀ t ∈ (p.pipeline.dropLast ++ [p.tail]).tail ++ [p.tail], t ≤ n := by
    intro t ht
    simp only [List.mem_append, List.mem_singleton] at ht
    obtain ht | rfl := ht
    · obtain ht | ht := List.mem_append.mp (List.mem_of_mem_tail ht)
      · exact h.pipeline t (List.mem_of_mem_dropLast ht)
      · exact List.mem_singleton.mp ht ▸ h.tail
    · exact h.tail
  refine ⟨?_, h.tail, hmem⟩
  show ((p.pipeline.dropLast ++ [p.tail]).tail ++ [p.tail]).headD p.tail ≤ n
  cases hp : (p.pipeline.dropLast ++ [p.tail]).tail ++ [p.tail] with
  | nil => exact h.tail
  | cons t ts => exact hmem t (hp ▸ List.mem_cons_self)

theorem Below.insertTail {p p' : PipeStages} {n : Nat} (h : p.Below n)
    (hp : p.insertTail n = some p') : p'.Below n := by
  unfold PipeStages.insertTail at hp
  split at hp
  · obtain rfl := Option.some.inj hp
    exact ⟨h.head, Nat.le_refl n, h.pipeline⟩
  · cases hp

theorem Below.squash {p : PipeStages} {n : Nat} (h : p.Below n) {q : Nat} (hq : q ≠ 0) :
    (p.squash q).Below (min n (q - 1)) := by
  obtain ⟨lastGood, rfl⟩ := Nat.exists_eq_succ_of_ne_zero hq
  refine ⟨?_, ?_, ?_⟩
  · exact le_min ((Nat.min_le_left _ _).trans h.head) (Nat.min_le_right _ _)
  · exact le_min ((Nat.min_le_left _ _).trans h.tail) (Nat.min_le_right _ _)
  · intro t ht
    obtain ⟨u, hu, rfl⟩ := List.mem_map.mp ht
    exact le_min ((Nat.min_le_left _ _).trans (h.pipeline u hu)) (Nat.min_le_right _ _)

end PipeStages

namespace InstructionWindow
variable {bits : Nat} {s s' : InstructionWindow bits}

theorem mappedIndex_eq_mod (bits q : Nat) : mappedIndex bits q = q % 1 <<< bits := by
  simp only [mappedIndex, Nat.one_shiftLeft, Nat.and_two_pow_sub_one_eq_mod]

/-- Positions less than a turn of the buffer apart have different slots. -/
theorem mappedIndex_inj {t q q' : Nat} (hq : t ≤ q) (hq' : t ≤ q') (h : q < t + 1 <<< bits)
    (h' : q' < t + 1 <<< bits) (he : mappedIndex bits q = mappedIndex bits q') : q = q' := by
  rw [mappedIndex_eq_mod, mappedIndex_eq_mod] at he
  generalize 1 <<< bits = size at h h' he
  rcases Nat.le_total q q' with hle | hle
  · have hdvd := Nat.dvd_of_mod_eq_zero (Nat.sub_mod_eq_zero_of_mod_eq he.symm)
    have := Nat.eq_zero_of_dvd_of_lt hdvd (by omega)
    omega
  · have hdvd := Nat.dvd_of_mod_eq_zero (Nat.sub_mod_eq_zero_of_mod_eq he)
    have := Nat.eq_zero_of_dvd_of_lt hdvd (by omega)
    omega

/-! Slots -/

theorem getDynamicInst_modify (q q' : Nat) (f : BufferedInst → BufferedInst) :
    (s.modify q f).getDynamicInst q' =
      if mappedIndex bits q' = mappedIndex bits q then f (s.getDynamicInst q')
      else s.getDynamicInst q' := rfl

theorem getDynamicInst_modify_self (q : Nat) (f : BufferedInst → BufferedInst) :
    (s.modify q f).getDynamicInst q = f (s.getDynamicInst q) := by
  rw [getDynamicInst_modify, if_pos rfl]

/-- A loop over uops changes their slots and nothing else. -/
theorem modifyDown_eq (f : BufferedInst → BufferedInst) (q n : Nat) :
    s.modifyDown f q n = { s with buffer := (s.modifyDown f q n).buffer } := by
  induction n generalizing s with
  | zero => rfl
  | succ n ih => exact ih

theorem modifyDown_of_ne {f : BufferedInst → BufferedInst} {q n i : Nat}
    (h : ∀ q', q ≤ q' → q' < q + n → i ≠ mappedIndex bits q') :
    (s.modifyDown f q n).buffer i = s.buffer i := by
  induction n generalizing s with
  | zero => rfl
  | succ n ih =>
      rw [modifyDown, ih fun q' hq hq' => h q' hq (by omega)]
      exact if_neg (h (q + n) (by omega) (by omega))

/-- What every round of the loop sets is set in all the slots it visits. -/
theorem modifyDown_all {f : BufferedInst → BufferedInst} {P : BufferedInst → Prop}
    (hf : ∀ d, P (f d)) {q n q' : Nat} (hq : q ≤ q') (hq' : q' < q + n) :
    P ((s.modifyDown f q n).getDynamicInst q') := by
  induction n generalizing s q' with
  | zero => omega
  | succ n ih =>
      by_cases he : ∃ q'', q ≤ q'' ∧ q'' < q + n ∧ mappedIndex bits q' = mappedIndex bits q''
      · obtain ⟨q'', h1, h2, he⟩ := he
        have h := ih (s := s.modify (q + n) f) h1 h2
        unfold getDynamicInst at h ⊢
        rw [he]
        exact h
      · have hq'n : q' = q + n := by
          by_contra hne
          exact he ⟨q', hq, by omega, rfl⟩
        unfold getDynamicInst
        rw [modifyDown, modifyDown_of_ne fun q'' h1 h2 heq => he ⟨q'', h1, h2, heq⟩, hq'n]
        exact (congrArg P (getDynamicInst_modify_self (s := s) (q + n) f)).mpr (hf _)

theorem modifyDown_proj {α : Type} {g : BufferedInst → α} {f : BufferedInst → BufferedInst}
    (hg : ∀ d, g (f d) = g d) (q n i : Nat) :
    g ((s.modifyDown f q n).buffer i) = g (s.buffer i) := by
  induction n generalizing s with
  | zero => rfl
  | succ n ih =>
      rw [modifyDown, ih]
      simp only [modify]
      split
      · exact hg _
      · rfl

/-! The invariant -/

/-- The pointers in their order, and how far they may be apart. -/
structure Ordered (s : InstructionWindow bits) : Prop where
  tail_le_retire : s.qTail ≤ s.qRetire
  retire_le_execute : s.qRetire ≤ s.qExecute
  execute_le_rename : s.qExecute ≤ s.qRename
  rename_le_head : s.qRename ≤ s.qHead
  rename_le_rob : s.qRename ≤ s.qTail + s.params.robSize
  head_le : s.qHead ≤ s.qTail +
    (s.params.robSize + s.params.frontEndMax + MAX_TRANSOPS_PER_USER_INSN - 1)
  fetchPipe : s.fetchPipe.Below s.qHead
  corePipe : s.corePipe.Below s.qRename
  retirePipe : s.retirePipe.Below s.qExecute

/-- The uop that belongs to position `q`. -/
structure Placed (s : InstructionWindow bits) (q : Nat) : Prop where
  qPtr : (s.getDynamicInst q).qPtr = q
  branch : (s.getDynamicInst q).op.isbranch → (s.getDynamicInst q).endsX86Op
  executed : q < s.qExecute →
    (s.getDynamicInst q).stage.inFlight ∨ (s.getDynamicInst q).stage = .COMPLETE

/-- The uops up to position `n` are whole x86 ops, the last of them perhaps cut. -/
structure Slots (s : InstructionWindow bits) (n : Nat) : Prop where
  placed : ∀ q, s.qTail ≤ q → q < n → s.Placed q
  starts : s.qTail < n → (s.getDynamicInst s.qTail).startsX86Op
  next : ∀ q, s.qTail ≤ q → q + 1 < n →
    ((s.getDynamicInst q).endsX86Op ↔ (s.getDynamicInst (q + 1)).startsX86Op)

/-- Only renamed uops that have not retired wait. -/
def Waiters (s : InstructionWindow bits) : Prop :=
  ∀ i, (s.buffer i).waiting → (s.buffer i).stage.inFlight ∧
    ∃ q, s.qRetire ≤ q ∧ q < s.qRename ∧ i = mappedIndex bits q

structure Wf (s : InstructionWindow bits) : Prop where
  ordered : s.Ordered
  slots : s.Slots s.qHead
  ends : s.qTail < s.qHead → (s.getDynamicInst (s.qHead - 1)).endsX86Op
  waiters : s.Waiters

theorem Ordered.head_le_bufSize (h : s.Ordered) : s.qHead ≤ s.qTail + 1 <<< bits :=
  h.head_le.trans (Nat.add_le_add_left s.params.fits _)

theorem Ordered.slot_ne (h : s.Ordered) {q q' : Nat} (hq : s.qTail ≤ q) (hq' : s.qTail ≤ q')
    (hh : q < s.qHead) (hh' : q' < s.qHead) (hne : q ≠ q') :
    mappedIndex bits q ≠ mappedIndex bits q' := by
  have hsize := h.head_le_bufSize
  exact fun he => hne (mappedIndex_inj hq hq' (by omega) (by omega) he)

/-- What stays of a uop as long as it is in the window. -/
def shape (d : BufferedInst) : Op × Nat × Bool × Bool :=
  (d.op, d.qPtr, d.startsX86Op, d.endsX86Op)

theorem Slots.congr {n : Nat} (h : s.Slots n) (htail : s'.qTail = s.qTail)
    (hshape : ∀ q, s.qTail ≤ q → q < n → shape (s'.getDynamicInst q) = shape (s.getDynamicInst q))
    (hstage : ∀ q, s.qTail ≤ q → q < n → q < s'.qExecute →
      (s'.getDynamicInst q).stage.inFlight ∨ (s'.getDynamicInst q).stage = .COMPLETE) :
    s'.Slots n := by
  have hop := fun q hq hlt => congrArg Prod.fst (hshape q hq hlt)
  have hptr := fun q hq hlt => congrArg (·.2.1) (hshape q hq hlt)
  have hstarts := fun q hq hlt => congrArg (·.2.2.1) (hshape q hq hlt)
  have hends := fun q hq hlt => congrArg (·.2.2.2) (hshape q hq hlt)
  simp only [shape] at hop hptr hstarts hends
  refine ⟨fun q hq hlt => ?_, fun hlt => ?_, fun q hq hlt => ?_⟩
  · rw [htail] at hq
    have hp := h.placed q hq hlt
    refine ⟨?_, ?_, hstage q hq hlt⟩
    · rw [hptr q hq hlt, hp.qPtr]
    · rw [hop q hq hlt, hends q hq hlt]
      exact hp.branch
  · rw [htail] at hlt ⊢
    rw [hstarts _ (Nat.le_refl _) hlt]
    exact h.starts hlt
  · rw [htail] at hq
    rw [hends q hq (by omega), hstarts (q + 1) (by omega) hlt]
    exact h.next q hq hlt

/-! Squashes -/

theorem modifyDown_getDynamicInst {f : BufferedInst → BufferedInst} {first n q : Nat}
    (h : s.Ordered) (hq : s.qTail ≤ q) (hh : q < s.qHead) (ho : q < first ∨ first + n ≤ q)
    (hf : s.qTail ≤ first) (hn : first + n ≤ s.qHead) :
    (s.modifyDown f first n).getDynamicInst q = s.getDynamicInst q := by
  refine modifyDown_of_ne fun q' h1 h2 => ?_
  exact h.slot_ne hq (by omega) hh (by omega) (by omega)

/-- A loop that squashes from `first` on leaves the older waiters. -/
theorem modifyDown_waiting {f : BufferedInst → BufferedInst} {first n i : Nat}
    (hf : ∀ d, (f d).waiting = false) (hw : ((s.modifyDown f first n).buffer i).waiting) :
    (s.modifyDown f first n).buffer i = s.buffer i ∧
      ∀ q, first ≤ q → q < first + n → i ≠ mappedIndex bits q := by
  have hne : ∀ q, first ≤ q → q < first + n → i ≠ mappedIndex bits q := by
    rintro q h1 h2 rfl
    have := modifyDown_all (s := s) (P := fun d => d.waiting = false) hf h1 h2
    exact absurd hw (by simpa [getDynamicInst] using this)
  exact ⟨modifyDown_of_ne hne, hne⟩

/-- The part of the invariant that a flush needs of the uops it keeps. -/
structure Kept (s : InstructionWindow bits) (first : Nat) : Prop where
  ordered : s.Ordered
  slots : s.Slots first
  waiters : s.Waiters
  tail_le : s.qTail ≤ first
  le_rename : first ≤ s.qRename

theorem flushPipeline_eq {first : Nat} (hs : s.flushPipeline first = some s') :
    first ≠ 0 ∧ s' = { s with
      buffer := (s.modifyDown .squash first (s.qHead - first)).buffer
      fetchPipe := s.fetchPipe.squash first
      corePipe := s.corePipe.squash first
      retirePipe := s.retirePipe.squash first
      qExecute := min s.qExecute first
      qRetire := min s.qRetire first
      qOldestBad := squashOldestBad first s.qOldestBad
      qRename := first
      qHead := first } := by
  unfold InstructionWindow.flushPipeline at hs
  split at hs
  · cases hs
  · next h =>
      rw [modifyDown_eq] at hs
      exact ⟨h, (Option.some.inj hs).symm⟩

theorem replay_eq {first : Nat} (hs : s.replay first = some s') :
    first ≠ 0 ∧ s' = { s with
      buffer := (s.modifyDown unfetch first (s.qRename - first)).buffer
      corePipe := s.corePipe.squash first
      retirePipe := s.retirePipe.squash first
      qExecute := min s.qExecute first
      qRetire := min s.qRetire first
      qOldestBad := squashOldestBad first s.qOldestBad
      qRename := first } := by
  unfold InstructionWindow.replay at hs
  split at hs
  · cases hs
  · next h =>
      rw [modifyDown_eq] at hs
      exact ⟨h, (Option.some.inj hs).symm⟩

theorem Kept.flushPipeline {first : Nat} (h : s.Kept first)
    (hs : s.flushPipeline first = some s') :
    s'.Ordered ∧ s'.Slots first ∧ s'.Waiters ∧ s'.qTail = s.qTail ∧ s'.qHead = first ∧
      ∀ q, s.qTail ≤ q → q < first → s'.getDynamicInst q = s.getDynamicInst q := by
  obtain ⟨hfirst, rfl⟩ := flushPipeline_eq hs
  have ho := h.ordered
  have htail := h.tail_le
  have hren := h.le_rename
  have hhead := ho.rename_le_head
  have hget : ∀ q, s.qTail ≤ q → q < first →
      (s.modifyDown .squash first (s.qHead - first)).buffer (mappedIndex bits q) =
        s.getDynamicInst q :=
    fun q hq hlt =>
      modifyDown_getDynamicInst ho hq (by omega) (.inl hlt) h.tail_le (by omega)
  refine ⟨?_, ?_, ?_, rfl, rfl, hget⟩
  · have h1 := ho.tail_le_retire
    have h2 := ho.retire_le_execute
    have h3 := ho.execute_le_rename
    have h4 := ho.rename_le_rob
    have h5 := ho.head_le
    exact
      { tail_le_retire := by dsimp only; omega
        retire_le_execute := by dsimp only; omega
        execute_le_rename := Nat.min_le_right _ _
        rename_le_head := Nat.le_refl _
        rename_le_rob := by dsimp only; omega
        head_le := by dsimp only; omega
        fetchPipe := (ho.fetchPipe.squash hfirst).mono (by dsimp only; omega)
        corePipe := (ho.corePipe.squash hfirst).mono (by dsimp only; omega)
        retirePipe := (ho.retirePipe.squash hfirst).mono (by dsimp only; omega) }
  · refine h.slots.congr rfl (fun q hq hlt => congrArg shape (hget q hq hlt)) ?_
    intro q hq hlt hx
    simp only [getDynamicInst, hget q hq hlt]
    exact (h.slots.placed q hq hlt).executed (by dsimp only at hx; omega)
  · intro i hi
    obtain ⟨he, hne⟩ := modifyDown_waiting (fun _ => rfl) hi
    dsimp only at hi ⊢
    rw [he] at hi ⊢
    obtain ⟨hstage, q, h1, h2, rfl⟩ := h.waiters i hi
    refine ⟨hstage, q, by omega, ?_, rfl⟩
    by_contra hge
    exact hne q (by omega) (by omega) rfl

theorem Wf.kept (h : s.Wf) {first : Nat} (h1 : s.qTail ≤ first) (h2 : first ≤ s.qRename) :
    s.Kept first := by
  have hle := h2.trans h.ordered.rename_le_head
  refine ⟨h.ordered, ⟨fun q hq hlt => h.slots.placed q hq (by omega), fun hlt =>
    h.slots.starts (by omega), fun q hq hlt => h.slots.next q hq (by omega)⟩, h.waiters, h1, h2⟩

/-- A flush that ends with the end of an x86 op. -/
theorem Wf.flushPipeline (h : s.Wf) {first : Nat} (h1 : s.qTail ≤ first) (h2 : first ≤ s.qRename)
    (hends : s.qTail < first → (s.getDynamicInst (first - 1)).endsX86Op)
    (hs : s.flushPipeline first = some s') : s'.Wf := by
  obtain ⟨ho, hslots, hw, htail, hhead, hget⟩ := (h.kept h1 h2).flushPipeline hs
  refine ⟨ho, hhead ▸ hslots, ?_, hw⟩
  rw [htail, hhead]
  intro hlt
  rw [hget _ (by omega) (by omega)]
  exact hends hlt

theorem Wf.replay (h : s.Wf) {first : Nat} (h1 : s.qTail ≤ first) (h2 : first ≤ s.qRename)
    (hs : s.replay first = some s') :
    s'.Wf ∧ s'.qRetire = min s.qRetire first ∧ s'.qExecute = min s.qExecute first ∧
      ∀ q, s.qTail ≤ q → q < first → s'.getDynamicInst q = s.getDynamicInst q := by
  obtain ⟨hfirst, rfl⟩ := replay_eq hs
  have ho := h.ordered
  have hhead := ho.rename_le_head
  have hget : ∀ q, s.qTail ≤ q → q < first →
      (s.modifyDown unfetch first (s.qRename - first)).buffer (mappedIndex bits q) =
        s.getDynamicInst q :=
    fun q hq hlt => modifyDown_getDynamicInst ho hq (by omega) (.inl hlt) h1 (by omega)
  have hshape : ∀ i, shape ((s.modifyDown unfetch first (s.qRename - first)).buffer i) =
      shape (s.buffer i) := fun i =>
    modifyDown_proj (g := shape) (f := unfetch) (fun _ => rfl) _ _ i
  refine ⟨⟨?_, ?_, ?_, ?_⟩, rfl, rfl, hget⟩
  · have h3 := ho.tail_le_retire
    have h4 := ho.retire_le_execute
    have h5 := ho.rename_le_rob
    exact
      { tail_le_retire := by dsimp only; omega
        retire_le_execute := by dsimp only; omega
        execute_le_rename := Nat.min_le_right _ _
        rename_le_head := by dsimp only; omega
        rename_le_rob := by dsimp only; omega
        head_le := ho.head_le
        fetchPipe := ho.fetchPipe
        corePipe := (ho.corePipe.squash hfirst).mono (by dsimp only; omega)
        retirePipe := (ho.retirePipe.squash hfirst).mono (by dsimp only; omega) }
  · refine h.slots.congr rfl (fun q hq hlt => hshape _) ?_
    intro q hq hlt hx
    dsimp only at hx
    simp only [getDynamicInst, hget q hq (by omega)]
    exact (h.slots.placed q hq hlt).executed (by omega)
  · intro hlt
    have he : ∀ i, ((s.modifyDown unfetch first (s.qRename - first)).buffer i).endsX86Op =
        (s.buffer i).endsX86Op := fun i => congrArg (·.2.2.2) (hshape i)
    simp only [getDynamicInst, he]
    exact h.ends hlt
  · intro i hi
    obtain ⟨he, hne⟩ := modifyDown_waiting (fun _ => rfl) hi
    dsimp only at hi ⊢
    rw [he] at hi ⊢
    obtain ⟨hstage, q, h3, h4, rfl⟩ := h.waiters i hi
    refine ⟨hstage, q, by omega, ?_, rfl⟩
    by_contra hge
    exact hne q (by omega) (by omega) rfl

/-- A reset needs no more than that the waiters are in the window. -/
theorem wf_resetState (hw : ∀ i, (s.buffer i).waiting →
    ∃ q, s.qTail ≤ q ∧ q < s.qHead ∧ i = mappedIndex bits q) : s.resetState.Wf := by
  unfold InstructionWindow.resetState
  rw [modifyDown_eq]
  refine ⟨?_, ?_, fun hlt => absurd hlt (Nat.lt_irrefl _), ?_⟩
  · exact
      { tail_le_retire := Nat.le_refl _
        retire_le_execute := Nat.le_refl _
        execute_le_rename := Nat.le_refl _
        rename_le_head := Nat.le_refl _
        rename_le_rob := Nat.le_add_right _ _
        head_le := Nat.le_add_right _ _
        fetchPipe := PipeStages.below_configure _ _
        corePipe := PipeStages.below_configure _ _
        retirePipe := PipeStages.below_configure _ _ }
  · refine ⟨fun q hq hlt => ?_, fun hlt => ?_, fun q hq hlt => ?_⟩ <;> dsimp only at * <;> omega
  · intro i hi
    obtain ⟨he, hne⟩ := modifyDown_waiting (fun _ => rfl) hi
    dsimp only at hi
    rw [he] at hi
    obtain ⟨q, h1, h2, rfl⟩ := hw i hi
    exact absurd rfl (hne q h1 (by omega))

theorem Wf.waiter_live (h : s.Wf) {i : Nat} (hi : (s.buffer i).waiting) :
    ∃ q, s.qTail ≤ q ∧ q < s.qHead ∧ i = mappedIndex bits q := by
  obtain ⟨-, q, h1, h2, rfl⟩ := h.waiters i hi
  exact ⟨q, h.ordered.tail_le_retire.trans h1, h2.trans_le h.ordered.rename_le_head, rfl⟩

theorem Wf.resetState (h : s.Wf) : s.resetState.Wf :=
  wf_resetState fun _ hi => h.waiter_live hi

/-! One uop -/

/-- A uop in the window changes its stage and starts or stops waiting. -/
theorem Wf.modify (h : s.Wf) {q : Nat} {f : BufferedInst → BufferedInst} (h1 : s.qTail ≤ q)
    (h2 : q < s.qHead) (hshape : ∀ d, shape (f d) = shape d)
    (hstage : q < s.qExecute →
      (f (s.getDynamicInst q)).stage.inFlight ∨ (f (s.getDynamicInst q)).stage = .COMPLETE)
    (hwait : (f (s.getDynamicInst q)).waiting →
      (f (s.getDynamicInst q)).stage.inFlight ∧ s.qRetire ≤ q ∧ q < s.qRename) :
    (s.modify q f).Wf := by
  have hshape' : ∀ i, shape ((s.modify q f).buffer i) = shape (s.buffer i) := by
    intro i
    simp only [InstructionWindow.modify]
    split
    · exact hshape _
    · rfl
  refine ⟨⟨h.ordered.1, h.ordered.2, h.ordered.3, h.ordered.4, h.ordered.5, h.ordered.6,
    h.ordered.7, h.ordered.8, h.ordered.9⟩, ?_, ?_, ?_⟩
  · refine h.slots.congr rfl (fun q' _ _ => hshape' _) ?_
    intro q' hq' hlt hx
    by_cases he : q' = q
    · subst he
      rw [getDynamicInst_modify_self]
      exact hstage hx
    · rw [getDynamicInst_modify, if_neg (h.ordered.slot_ne hq' h1 hlt h2 he)]
      exact (h.slots.placed q' hq' hlt).executed hx
  · intro hlt
    have he : ∀ i, ((s.modify q f).buffer i).endsX86Op = (s.buffer i).endsX86Op :=
      fun i => congrArg (·.2.2.2) (hshape' i)
    simp only [getDynamicInst, he]
    exact h.ends hlt
  · intro i hi
    by_cases he : i = mappedIndex bits q
    · subst he
      have hself := getDynamicInst_modify_self (s := s) q f
      simp only [getDynamicInst] at hself hwait
      rw [hself] at hi ⊢
      obtain ⟨hst, hr, hn⟩ := hwait hi
      exact ⟨hst, q, hr, hn, rfl⟩
    · simp only [InstructionWindow.modify, if_neg he] at hi ⊢
      exact h.waiters i hi

theorem Wf.oldestBad (h : s.Wf) (b : Option Nat) : ({ s with qOldestBad := b }).Wf := by
  obtain ⟨ho, hslots, hends, hw⟩ := h
  refine ⟨⟨ho.1, ho.2, ho.3, ho.4, ho.5, ho.6, ho.7, ho.8, ho.9⟩, ?_, hends, hw⟩
  exact hslots.congr rfl (fun _ _ _ => rfl) fun q hq hlt hx => (hslots.placed q hq hlt).executed hx

/-- Execution goes past a uop that is queued or complete. -/
theorem Wf.advanceExecute (h : s.Wf) (hlt : s.qExecute < s.qRename)
    (hstage : (s.getDynamicInst s.qExecute).stage.inFlight ∨
      (s.getDynamicInst s.qExecute).stage = .COMPLETE) :
    ({ s with qExecute := s.qExecute + 1 }).Wf := by
  obtain ⟨ho, hslots, hends, hw⟩ := h
  refine ⟨⟨ho.1, ho.2.trans (Nat.le_succ _), hlt, ho.4, ho.5, ho.6, ho.7, ho.8,
    ho.9.mono (Nat.le_succ _)⟩, ?_, hends, hw⟩
  refine hslots.congr rfl (fun _ _ _ => rfl) fun q hq hlt hx => ?_
  rcases Nat.lt_succ_iff_lt_or_eq.mp hx with hx | rfl
  · exact (hslots.placed q hq hlt).executed hx
  · exact hstage

/-! Searches -/

theorem Wf.firstOfX86Op (h : s.Wf) {q first : Nat} (hq : s.qTail ≤ q) (hlt : q < s.qHead)
    (hf : s.firstOfX86Op q = some first) :
    s.qTail ≤ first ∧ first ≤ q ∧ (s.qTail < first → (s.getDynamicInst (first - 1)).endsX86Op) := by
  have hfound : ∀ q, s.qTail ≤ q → q < s.qHead → (s.getDynamicInst q).startsX86Op →
      s.qTail < q → (s.getDynamicInst (q - 1)).endsX86Op := by
    intro q hq hlt hstarts htail
    obtain ⟨p, rfl⟩ := Nat.exists_eq_add_one_of_ne_zero (Nat.ne_zero_of_lt htail)
    exact (h.slots.next p (by omega) hlt).mpr hstarts
  induction q with
  | zero =>
      simp only [InstructionWindow.firstOfX86Op] at hf
      split at hf
      · next hstarts =>
          obtain rfl := Option.some.inj hf
          exact ⟨hq, Nat.le_refl _, hfound 0 hq hlt hstarts⟩
      · cases hf
  | succ q ih =>
      simp only [InstructionWindow.firstOfX86Op] at hf
      split at hf
      · next hstarts =>
          obtain rfl := Option.some.inj hf
          exact ⟨hq, Nat.le_refl _, hfound _ hq hlt hstarts⟩
      · next hstarts =>
          -- the search cannot leave the window: its first uop starts an x86 op
          have hne : s.qTail ≠ q + 1 := by
            intro he
            exact hstarts (he ▸ h.slots.starts (by omega))
          obtain ⟨h1, h2, h3⟩ := ih (by omega) (by omega) hf
          exact ⟨h1, by omega, h3⟩

theorem Wf.lastOfX86Op (h : s.Wf) {n q last : Nat} (hq : s.qTail ≤ q) (hlt : q < s.qHead)
    (hf : s.lastOfX86Op n q = some last) : q ≤ last ∧ last < s.qHead := by
  induction n generalizing q with
  | zero => cases hf
  | succ n ih =>
      simp only [InstructionWindow.lastOfX86Op] at hf
      split at hf
      · obtain rfl := Option.some.inj hf
        exact ⟨Nat.le_refl _, hlt⟩
      · next hends =>
          have hne : q ≠ s.qHead - 1 := by
            intro he
            exact hends (he ▸ h.ends (by omega))
          obtain ⟨h1, h2⟩ := ih (q := q + 1) (by omega) (by omega) hf
          exact ⟨by omega, h2⟩

/-! Execution -/

theorem Wf.refetch (h : s.Wf) {q : Nat} (hq : s.qTail ≤ q) (hlt : q < s.qRename)
    (hs : s.refetch q = some s') : s'.Wf := by
  obtain ⟨first, hf, hs⟩ := Option.bind_eq_some_iff.mp hs
  obtain ⟨h1, h2, h3⟩ := h.firstOfX86Op hq (hlt.trans_le h.ordered.rename_le_head) hf
  exact h.flushPipeline h1 (by omega) h3 hs

/-- A renamed uop that runs: it waits for nothing. -/
structure Running (s : InstructionWindow bits) (q : Nat) : Prop where
  wf : s.Wf
  tail_le : s.qTail ≤ q
  lt_rename : q < s.qRename
  detached : (s.getDynamicInst q).waiting = false

theorem Running.lt_head {q : Nat} (h : s.Running q) : q < s.qHead :=
  h.lt_rename.trans_le h.wf.ordered.rename_le_head

theorem Running.flush_after {q : Nat} (h : s.Running q) (hends : (s.getDynamicInst q).endsX86Op)
    (hs : s.flushPipeline (q + 1) = some s') :
    s'.Running q ∧ s'.getDynamicInst q = s.getDynamicInst q := by
  have h1 := h.tail_le
  have h2 := h.lt_rename
  have hwf := h.wf.flushPipeline (by omega) h2 (fun _ => hends) hs
  obtain ⟨-, -, -, htail, -, hget⟩ := (h.wf.kept (by omega) h2).flushPipeline hs
  obtain ⟨-, rfl⟩ := flushPipeline_eq hs
  have hself := hget q h1 (by omega)
  exact ⟨⟨hwf, h1, Nat.lt_succ_self q, by rw [hself]; exact h.detached⟩, hself⟩

theorem Running.resolveBranch {q : Nat} {mispredicted : Bool} (h : s.Running q)
    (hb : (s.getDynamicInst q).op.isbranch) (hs : s.resolveBranch q mispredicted = some s') :
    s'.Running q ∧ s'.getDynamicInst q = s.getDynamicInst q := by
  unfold InstructionWindow.resolveBranch at hs
  split at hs
  · split at hs
    · exact h.flush_after ((h.wf.slots.placed q h.tail_le h.lt_head).branch hb) hs
    · obtain rfl := Option.some.inj hs
      exact ⟨h, rfl⟩
  · split at hs
    · obtain rfl := Option.some.inj hs
      exact ⟨⟨h.wf.oldestBad none, h.tail_le, h.lt_rename, h.detached⟩, rfl⟩
    · obtain rfl := Option.some.inj hs
      exact ⟨h, rfl⟩

theorem Running.modify {q : Nat} {f : BufferedInst → BufferedInst} (h : s.Running q)
    (hshape : ∀ d, shape (f d) = shape d) (hwait : ∀ d, (f d).waiting = d.waiting)
    (hstage : (f (s.getDynamicInst q)).stage.inFlight ∨
      (f (s.getDynamicInst q)).stage = .COMPLETE ∨
      (f (s.getDynamicInst q)).stage = (s.getDynamicInst q).stage) : (s.modify q f).Running q := by
  have hdet : (f (s.getDynamicInst q)).waiting = false := by rw [hwait, h.detached]
  refine ⟨h.wf.modify h.tail_le h.lt_head hshape ?_ ?_, h.tail_le, h.lt_rename, ?_⟩
  · intro hx
    rcases hstage with hst | hst | hst
    · exact .inl hst
    · exact .inr hst
    · rw [hst]
      exact (h.wf.slots.placed q h.tail_le h.lt_head).executed hx
  · intro hw
    rw [hdet] at hw
    cases hw
  · rw [getDynamicInst_modify_self, hdet]

/-- The mark that a failing check takes from the last uop is not one of those it keeps. -/
theorem Running.kept_unended {q last : Nat} (h : s.Running q) (hlast : q < last)
    (hlh : last < s.qHead) :
    (s.modify last fun d => { d with endsX86Op := false }).Kept (q + 1) ∧
      ∀ q', s.qTail ≤ q' → q' < q + 1 →
        (s.modify last fun d => { d with endsX86Op := false }).getDynamicInst q' =
          s.getDynamicInst q' := by
  have htail := h.tail_le
  have hget : ∀ q', s.qTail ≤ q' → q' < q + 1 →
      (s.modify last fun d => { d with endsX86Op := false }).getDynamicInst q' =
        s.getDynamicInst q' := by
    intro q' h1 h2
    rw [getDynamicInst_modify, if_neg]
    exact h.wf.ordered.slot_ne h1 (by omega) (by omega) hlh (by omega)
  have hk : s.Kept (q + 1) := h.wf.kept (by omega) h.lt_rename
  have ho := h.wf.ordered
  refine ⟨⟨⟨ho.1, ho.2, ho.3, ho.4, ho.5, ho.6, ho.7, ho.8, ho.9⟩, ?_, ?_, hk.tail_le,
    hk.le_rename⟩, hget⟩
  · refine hk.slots.congr rfl (fun q' h1 h2 => congrArg shape (hget q' h1 h2)) ?_
    intro q' h1 h2 hx
    rw [hget q' h1 h2]
    exact (hk.slots.placed q' h1 h2).executed hx
  · intro i hi
    simp only [InstructionWindow.modify] at hi ⊢
    split at hi
    · next he =>
        rw [if_pos he]
        exact h.wf.waiters i hi
    · next he =>
        rw [if_neg he]
        exact h.wf.waiters i hi

/-- A check that fails cuts its x86 op short: it flushes the rest, then ends the op itself. -/
theorem Running.checkException {q : Nat} (h : s.Running q) (hs : s.checkException q = some s') :
    s'.Running q := by
  obtain ⟨last, hlast, hs⟩ := Option.bind_eq_some_iff.mp hs
  have htail := h.tail_le
  obtain ⟨hql, hlh⟩ := h.wf.lastOfX86Op htail h.lt_head hlast
  have hptr := (h.wf.slots.placed last (by omega) hlh).qPtr
  split at hs
  · cases hs
  next hlt =>
  obtain ⟨t, ht, rfl⟩ := Option.map_eq_some_iff.mp hs
  have ⟨hkept, hget⟩ := h.kept_unended (by omega) hlh
  obtain ⟨ho', hslots, hw, ht', hhead, hgett⟩ := hkept.flushPipeline ht
  have hself : t.getDynamicInst q = s.getDynamicInst q :=
    (hgett q htail (by omega)).trans (hget q htail (by omega))
  have hren : t.qRename = q + 1 := by
    obtain ⟨-, rfl⟩ := flushPipeline_eq ht
    rfl
  have htt : t.qTail ≤ q := ht'.trans_le htail
  have hother : ∀ q', t.qTail ≤ q' → q' < q → (t.modify q fun d =>
      { d with endsX86Op := true, checkException := true }).getDynamicInst q' =
        t.getDynamicInst q' := by
    intro q' h1 h2
    rw [getDynamicInst_modify, if_neg]
    exact ho'.slot_ne h1 htt (by omega) (by omega) (by omega)
  refine ⟨⟨⟨ho'.1, ho'.2, ho'.3, ho'.4, ho'.5, ho'.6, ho'.7, ho'.8, ho'.9⟩, ?_, ?_, ?_⟩, htt, ?_,
    ?_⟩
  · show Slots _ t.qHead
    rw [hhead]
    refine ⟨fun q' h1 h2 => ?_, fun hlt => ?_, fun q' h1 h2 => ?_⟩
    · have hp := hslots.placed q' h1 h2
      rcases Nat.lt_succ_iff_lt_or_eq.mp h2 with h2 | rfl
      · refine ⟨?_, ?_, fun hx => ?_⟩ <;> rw [hother q' h1 h2]
        · exact hp.qPtr
        · exact hp.branch
        · exact hp.executed hx
      · refine ⟨?_, fun _ => ?_, fun hx => ?_⟩ <;> rw [getDynamicInst_modify_self]
        · exact hp.qPtr
        · exact hp.executed hx
    · have hst := hslots.starts hlt
      rw [getDynamicInst_modify]
      split
      · exact hst
      · exact hst
    · rw [hother q' h1 (by omega), getDynamicInst_modify]
      have hn := hslots.next q' h1 h2
      split
      · exact hn
      · exact hn
  · intro _
    show (getDynamicInst (t.qHead - 1) _).endsX86Op
    rw [hhead, Nat.add_sub_cancel, getDynamicInst_modify_self]
  · intro i hi
    simp only [InstructionWindow.modify] at hi ⊢
    split at hi
    · next he =>
        rw [if_pos he]
        exact hw i hi
    · next he =>
        rw [if_neg he]
        exact hw i hi
  · exact hren ▸ Nat.lt_succ_self q
  · rw [getDynamicInst_modify_self, hself]
    exact h.detached

theorem Running.complete {q : Nat} {mispredicted excepting : Bool} (h : s.Running q)
    (hs : s.complete q mispredicted excepting = some s') : s'.Running q := by
  obtain ⟨t, ht, hs⟩ := Option.bind_eq_some_iff.mp hs
  obtain ⟨u, hu, rfl⟩ := Option.map_eq_some_iff.mp hs
  have ht : t.Running q := by
    split at ht
    · next hb => exact (h.resolveBranch hb ht).1
    · obtain rfl := Option.some.inj ht
      exact h
  have hu : u.Running q := by
    split at hu
    · split at hu
      · obtain rfl := Option.some.inj hu
        exact ht.modify (fun _ => rfl) (fun _ => rfl) (.inr (.inr rfl))
      · exact ht.checkException hu
    · obtain rfl := Option.some.inj hu
      exact ht
  exact hu.modify (fun _ => rfl) (fun _ => rfl) (.inr (.inl rfl))

theorem Running.schedule {q : Nat} {outcome : Outcome} (h : s.Running q) (hr : s.qRetire ≤ q)
    (hs : s.schedule q outcome = some s') : s'.Wf := by
  cases outcome with
  | wait stage =>
      simp only [InstructionWindow.schedule] at hs
      split at hs
      · next hst =>
          obtain rfl := Option.some.inj hs
          exact h.wf.modify h.tail_le h.lt_head (fun _ => rfl) (fun _ => .inl hst)
            fun _ => ⟨hst, hr, h.lt_rename⟩
      · cases hs
  | noTranslation =>
      obtain rfl := Option.some.inj hs
      have hrun := h.modify (f := fun d => { d with stage := .WAIT_RB }) (fun _ => rfl)
        (fun _ => rfl) (.inl rfl)
      exact hrun.wf.oldestBad _
  | stored =>
      simp only [InstructionWindow.schedule] at hs
      split at hs
      · obtain rfl := Option.some.inj hs
        have hrun := h.modify (f := fun d => { d with stage := .MEMORY }) (fun _ => rfl)
          (fun _ => rfl) (.inl rfl)
        exact hrun.wf
      · cases hs
  | unaligned => exact h.wf.refetch h.tail_le h.lt_rename hs
  | complete mispredicted excepting => exact (h.complete hs).wf

theorem Wf.wakeup {slot : Nat} {outcome : Outcome} (h : s.Wf)
    (hs : s.wakeup slot outcome = some s') : s'.Wf := by
  simp only [InstructionWindow.wakeup] at hs
  split at hs
  · next hw =>
      obtain ⟨-, q, h1, h2, rfl⟩ := h.waiters slot hw
      have htail : s.qTail ≤ q := h.ordered.tail_le_retire.trans h1
      have hlt : q < s.qHead := h2.trans_le h.ordered.rename_le_head
      have hq : (s.buffer (mappedIndex bits q)).qPtr = q := (h.slots.placed q htail hlt).qPtr
      rw [hq] at hs
      have hwf : (s.modify q fun d => { d with waiting := false }).Wf := by
        refine h.modify htail hlt (fun _ => rfl) (h.slots.placed q htail hlt).executed ?_
        intro hx
        cases hx
      refine Running.schedule ⟨hwf, htail, h2, ?_⟩ h1 hs
      rw [getDynamicInst_modify_self]
  · cases hs

/-- Queueing a uop and letting it schedule, at the execution point. -/
theorem Wf.execute {outcome : Outcome} (h : s.Wf) (hs : s.execute outcome = some s') : s'.Wf := by
  simp only [InstructionWindow.execute, Bool.or_eq_true, decide_eq_true_eq] at hs
  split at hs
  · cases hs
  next hready =>
  have hcore := h.ordered.corePipe.head
  have hre : s.qExecute < s.qRename := by omega
  have htail : s.qTail ≤ s.qExecute := h.ordered.tail_le_retire.trans h.ordered.retire_le_execute
  have hlt : s.qExecute < s.qHead := by omega
  split at hs
  · next hst =>
      obtain rfl := Option.some.inj hs
      exact h.advanceExecute hre (.inr hst)
  · have hqueued : (s.modify s.qExecute fun d => { d with stage := .WAIT_RA }).Wf := by
      refine h.modify htail hlt (fun _ => rfl) (fun hx => absurd hx (Nat.lt_irrefl _)) ?_
      exact fun _ => ⟨rfl, h.ordered.retire_le_execute, hre⟩
    cases outcome with
    | wait stage =>
        simp only [InstructionWindow.schedule] at hs
        split at hs
        · next hst =>
            obtain rfl := Option.some.inj hs
            have hwait : ((s.modify s.qExecute fun d => { d with stage := .WAIT_RA }).modify
                s.qExecute fun d => { d with stage := stage, waiting := true }).Wf := by
              refine hqueued.modify htail hlt (fun _ => rfl) (fun _ => .inl hst) ?_
              exact fun _ => ⟨hst, h.ordered.retire_le_execute, hre⟩
            refine hwait.advanceExecute hre (.inl ?_)
            show (getDynamicInst s.qExecute _).stage.inFlight
            rw [getDynamicInst_modify_self]
            exact hst
        · cases hs
    | noTranslation =>
        obtain rfl := Option.some.inj hs
        have hstuck : ((s.modify s.qExecute fun d => { d with stage := .WAIT_RA }).modify
            s.qExecute fun d => { d with stage := .WAIT_RB }).Wf := by
          refine hqueued.modify htail hlt (fun _ => rfl) (fun _ => .inl rfl) ?_
          exact fun _ => ⟨rfl, h.ordered.retire_le_execute, hre⟩
        refine (hstuck.advanceExecute hre (.inl ?_)).oldestBad _
        show (getDynamicInst s.qExecute _).stage.inFlight
        rw [getDynamicInst_modify_self]
        rfl
    | _ => cases hs

theorem Wf.advanceRename (h : s.Wf) (hlt : s.qRename < s.qHead)
    (hrob : s.qRename < s.qTail + s.params.robSize) :
    ({ s with qRename := s.qRename + 1 }).Wf := by
  obtain ⟨ho, hslots, hends, hw⟩ := h
  refine ⟨⟨ho.1, ho.2, ho.3.trans (Nat.le_succ _), hlt, hrob, ho.6, ho.7,
    ho.8.mono (Nat.le_succ _), ho.9⟩, ?_, hends, fun i hi => ?_⟩
  · exact hslots.congr rfl (fun _ _ _ => rfl) fun q hq hlt hx => (hslots.placed q hq hlt).executed hx
  · obtain ⟨hst, q, h1, h2, hi⟩ := hw i hi
    exact ⟨hst, q, h1, Nat.lt_succ_of_lt h2, hi⟩

theorem Wf.rename (h : s.Wf) (hs : s.rename = some s') : s'.Wf := by
  simp only [InstructionWindow.rename] at hs
  split at hs
  · cases hs
  next hready =>
  split at hs
  · cases hs
  next hlt =>
  have htail : s.qTail ≤ s.qRename :=
    (h.ordered.tail_le_retire.trans h.ordered.retire_le_execute).trans h.ordered.execute_le_rename
  have hexec : ¬ s.qRename < s.qExecute := Nat.not_lt.mpr h.ordered.execute_le_rename
  have hrob : s.qRename < s.qTail + s.params.robSize := by omega
  -- what waits is renamed already
  have hdet : (s.getDynamicInst s.qRename).waiting = false := by
    by_contra hw
    obtain ⟨-, q, h1, h2, he⟩ := h.waiters _ (Bool.eq_true_of_not_eq_false hw)
    refine h.ordered.slot_ne htail (h.ordered.tail_le_retire.trans h1) (by omega) (by omega) ?_ he
    omega
  split at hs
  · obtain rfl := Option.some.inj hs
    exact h.oldestBad _
  · split at hs
    · obtain rfl := Option.some.inj hs
      refine (h.modify (q := s.qRename) (f := fun d => { d with stage := .COMPLETE }) htail
        (Nat.not_le.mp hlt) (fun _ => rfl) (fun hx => absurd hx hexec) ?_).advanceRename
        (Nat.not_le.mp hlt) hrob
      intro hx
      exact absurd (hdet.symm.trans hx) Bool.false_ne_true
    · split at hs
      · obtain rfl := Option.some.inj hs
        refine (h.modify (q := s.qRename) (f := fun d => { d with stage := .DECODE }) htail
          (Nat.not_le.mp hlt) (fun _ => rfl) (fun hx => absurd hx hexec) ?_).advanceRename
          (Nat.not_le.mp hlt) hrob
        intro hx
        exact absurd (hdet.symm.trans hx) Bool.false_ne_true
      · cases hs

/-! Retirement -/

/-- The retire point is at a uop that has executed and is complete. -/
structure Ready (s : InstructionWindow bits) : Prop where
  wf : s.Wf
  lt_execute : s.qRetire < s.qExecute
  complete : (s.getDynamicInst s.qRetire).stage = .COMPLETE

theorem Ready.waiters (h : s.Ready) {i : Nat} (hi : (s.buffer i).waiting) :
    (s.buffer i).stage.inFlight ∧
      ∃ q, s.qRetire + 1 ≤ q ∧ q < s.qRename ∧ i = mappedIndex bits q := by
  obtain ⟨hst, q, h1, h2, rfl⟩ := h.wf.waiters i hi
  refine ⟨hst, q, ?_, h2, rfl⟩
  rcases Nat.lt_or_eq_of_le h1 with h1 | rfl
  · exact h1
  · have hc := h.complete
    unfold getDynamicInst at hc
    rw [hc] at hst
    cases hst

theorem Ready.commitX86Op {succeed : Bool} (h : s.Ready)
    (hends : (s.getDynamicInst s.qRetire).endsX86Op) (hs : s.commitX86Op succeed = some s') :
    s'.Wf := by
  have ho := h.wf.ordered
  have h1 := ho.tail_le_retire
  have h2 := h.lt_execute
  have h3 := ho.execute_le_rename
  have h4 := ho.rename_le_head
  have hget : ∀ q, s.qRetire < q → q < s.qHead →
      (s.modifyDown (fun d => { d with stage := .RETIRE }) s.qTail
        (s.qRetire + 1 - s.qTail)).buffer (mappedIndex bits q) = s.getDynamicInst q :=
    fun q hq hlt => modifyDown_getDynamicInst ho (by omega) hlt (.inr (by omega))
      (Nat.le_refl _) (by omega)
  have hwait : ∀ i, ((s.modifyDown (fun d => { d with stage := .RETIRE }) s.qTail
      (s.qRetire + 1 - s.qTail)).buffer i).waiting = (s.buffer i).waiting :=
    fun i => modifyDown_proj (g := (·.waiting)) (f := fun d => { d with stage := .RETIRE })
      (fun _ => rfl) _ _ i
  simp only [InstructionWindow.commitX86Op] at hs
  split at hs
  · cases hs
  split at hs
  · obtain rfl := Option.some.inj hs
    rw [modifyDown_eq]
    refine ⟨⟨Nat.le_refl _, h2, h3, h4, ?_, ?_, ho.7, ho.8, ho.9⟩, ?_, ?_, ?_⟩
    · have := ho.rename_le_rob
      dsimp only
      omega
    · have := ho.head_le
      dsimp only
      omega
    · refine ⟨fun q hq hlt => ?_, fun hlt => ?_, fun q hq hlt => ?_⟩ <;> dsimp only at *
      · have hp := h.wf.slots.placed q (by omega) hlt
        refine ⟨?_, ?_, fun hx => ?_⟩ <;> simp only [getDynamicInst, hget q hq hlt]
        · exact hp.qPtr
        · exact hp.branch
        · exact hp.executed hx
      · simp only [getDynamicInst, hget _ (Nat.lt_succ_self _) hlt]
        exact (h.wf.slots.next _ h1 hlt).mp hends
      · simp only [getDynamicInst, hget q hq (by omega), hget (q + 1) (by omega) hlt]
        exact h.wf.slots.next q (by omega) hlt
    · intro hlt
      dsimp only at *
      simp only [getDynamicInst, hget (s.qHead - 1) (by omega) (by omega)]
      exact h.wf.ends (by omega)
    · intro i hi
      dsimp only at *
      rw [hwait] at hi
      obtain ⟨hst, q, h5, h6, rfl⟩ := h.waiters hi
      rw [hget q h5 (by omega)]
      exact ⟨hst, q, h5, h6, rfl⟩
  · obtain rfl := Option.some.inj hs
    rw [modifyDown_eq]
    refine wf_resetState fun i hi => ?_
    dsimp only at *
    rw [hwait] at hi
    exact h.wf.waiter_live hi

theorem Ready.retireChecked {succeed : Bool} (h : s.Ready)
    (hs : s.retireChecked succeed = some s') : s'.Wf := by
  have ho := h.wf.ordered
  have hlt : s.qRetire < s.qRename := h.lt_execute.trans_le ho.execute_le_rename
  simp only [InstructionWindow.retireChecked] at hs
  split at hs
  · exact h.wf.refetch ho.tail_le_retire hlt hs
  split at hs
  · next hends => exact h.commitX86Op hends hs
  · obtain rfl := Option.some.inj hs
    obtain ⟨-, hslots, hends, -⟩ := h.wf
    refine ⟨⟨ho.1.trans (Nat.le_succ _), h.lt_execute, ho.3, ho.4, ho.5, ho.6, ho.7, ho.8, ho.9⟩,
      ?_, hends, fun i hi => h.waiters hi⟩
    exact hslots.congr rfl (fun _ _ _ => rfl) fun q hq hlt hx =>
      (hslots.placed q hq hlt).executed hx

theorem Ready.retireReady {violation : Violation} {succeed : Bool} (h : s.Ready)
    (hs : s.retireReady violation succeed = some s') : s'.Wf := by
  have ho := h.wf.ordered
  have hlt : s.qRetire < s.qRename := h.lt_execute.trans_le ho.execute_le_rename
  have hptr : (s.getDynamicInst s.qRetire).qPtr = s.qRetire :=
    (h.wf.slots.placed _ ho.tail_le_retire (hlt.trans_le ho.rename_le_head)).qPtr
  have htail := ho.tail_le_retire
  have hexec := h.lt_execute
  simp only [InstructionWindow.retireReady, hptr] at hs
  split at hs
  · cases hs
  cases violation with
  | loadOrdering => exact (h.wf.replay htail hlt.le hs).1
  | loadConsistency =>
      obtain ⟨t, ht, hs⟩ := Option.bind_eq_some_iff.mp hs
      obtain ⟨hwf, hretire, hexecute, hget⟩ := h.wf.replay (by omega) hlt ht
      have hr : t.qRetire = s.qRetire := by omega
      refine Ready.retireChecked ⟨hwf, by omega, ?_⟩ hs
      rw [hr, hget _ htail (Nat.lt_succ_self _)]
      exact h.complete
  | none => exact h.retireChecked hs

theorem Wf.retire {storeHit succeed : Bool} {violation : Violation} (h : s.Wf)
    (hs : s.retire storeHit violation succeed = some s') : s'.Wf := by
  have ho := h.ordered
  have hpipe := ho.retirePipe.head
  simp only [InstructionWindow.retire] at hs
  split at hs
  · obtain rfl := Option.some.inj hs
    exact h.resetState
  split at hs
  · cases hs
  next hready =>
  have hlt : s.qRetire < s.qExecute := by omega
  have hren : s.qRetire < s.qRename := hlt.trans_le ho.execute_le_rename
  have hhead : s.qRetire < s.qHead := hren.trans_le ho.rename_le_head
  split at hs
  · next hc => exact Ready.retireReady ⟨h, hlt, hc⟩ hs
  next hc =>
  have hflight : (s.getDynamicInst s.qRetire).stage.inFlight :=
    ((h.slots.placed _ ho.tail_le_retire hhead).executed hlt).resolve_right hc
  split at hs
  · next hstore =>
      have hdet : (s.getDynamicInst s.qRetire).waiting = false := by
        simp only [Bool.and_eq_true, Bool.not_eq_true'] at hstore
        exact hstore.2
      split at hs
      · have hrun : s.Running s.qRetire := ⟨h, ho.tail_le_retire, hren, hdet⟩
        have hdone := hrun.modify (f := fun d => { d with stage := .COMPLETE }) (fun _ => rfl)
          (fun _ => rfl) (.inr (.inl rfl))
        refine Ready.retireReady ⟨hdone.wf, hlt, ?_⟩ hs
        show (getDynamicInst s.qRetire _).stage = _
        rw [getDynamicInst_modify_self]
      · obtain rfl := Option.some.inj hs
        exact h.modify ho.tail_le_retire hhead (fun _ => rfl) (fun _ => .inl hflight)
          fun _ => ⟨hflight, Nat.le_refl _, hren⟩
  · cases hs

/-! Fetch -/

theorem initUops_eq (q : Nat) (uops : List Op) :
    s.initUops q uops = { s with buffer := (s.initUops q uops).buffer } := by
  induction uops generalizing s q with
  | nil => rfl
  | cons op ops ih => exact ih _

theorem initUops_of_ne {q i : Nat} {uops : List Op}
    (h : ∀ q', q ≤ q' → q' < q + uops.length → i ≠ mappedIndex bits q') :
    (s.initUops q uops).buffer i = s.buffer i := by
  induction uops generalizing s q with
  | nil => rfl
  | cons op ops ih =>
      simp only [List.length_cons] at h
      rw [initUops, ih fun q' h1 h2 => h q' (by omega) (by omega)]
      exact if_neg (h q (Nat.le_refl _) (by omega))

/-- The slot of the `k`-th uop, where no two of them share one. -/
theorem initUops_get {q k : Nat} {uops : List Op} (hk : k < uops.length)
    (hsize : uops.length ≤ 1 <<< bits) :
    (s.initUops q uops).getDynamicInst (q + k) =
      { op := uops[k], qPtr := q + k, waiting := (s.getDynamicInst (q + k)).waiting } := by
  induction uops generalizing s q k with
  | nil => cases hk
  | cons op ops ih =>
      simp only [List.length_cons] at hsize hk
      have hne : ∀ q', q + 1 ≤ q' → q' < q + 1 + ops.length →
          mappedIndex bits q ≠ mappedIndex bits q' := by
        intro q' h1 h2 he
        have := mappedIndex_inj (t := q) (Nat.le_refl _) (by omega) (by omega) (by omega) he
        omega
      cases k with
      | zero =>
          unfold getDynamicInst
          rw [Nat.add_zero, initUops, initUops_of_ne hne]
          exact getDynamicInst_modify_self (s := s) q _
      | succ k =>
          have h := ih (s := s.modify q fun d => { op := op, qPtr := q, waiting := d.waiting })
            (q := q + 1) (k := k) (by omega) (by omega)
          rw [show q + 1 + k = q + (k + 1) by omega] at h
          rw [initUops, h, getDynamicInst_modify, if_neg]
          · rfl
          · exact (hne (q + (k + 1)) (by omega) (by omega)).symm

/-- The uops of a fetched x86 op, in their slots. -/
def fetched (uops : List Op) (s : InstructionWindow bits) : InstructionWindow bits :=
  ((s.initUops s.qHead uops).modify s.qHead fun d => { d with startsX86Op := true })
    |>.modify (s.qHead + uops.length - 1) fun d => { d with endsX86Op := true }

theorem fetched_eq (uops : List Op) :
    s.fetched uops = { s with buffer := (s.fetched uops).buffer } := by
  unfold fetched
  rw [initUops_eq]
  rfl

theorem fetched_waiting (uops : List Op) (i : Nat) :
    ((s.fetched uops).buffer i).waiting = ((s.initUops s.qHead uops).buffer i).waiting ∧
      ((s.fetched uops).buffer i).stage = ((s.initUops s.qHead uops).buffer i).stage := by
  simp only [fetched, InstructionWindow.modify]
  constructor
  · split <;> split <;> rfl
  · split <;> split <;> rfl

theorem fetched_get {uops : List Op} {k : Nat} (hk : k < uops.length)
    (hsize : uops.length ≤ 1 <<< bits) (hdet : s.detached s.qHead uops.length) :
    (s.fetched uops).getDynamicInst (s.qHead + k) =
      { op := uops[k]
        qPtr := s.qHead + k
        startsX86Op := decide (k = 0)
        endsX86Op := decide (k + 1 = uops.length) } := by
  have hw : (s.getDynamicInst (s.qHead + k)).waiting = false := by
    have := List.all_eq_true.mp hdet k (List.mem_range.mpr hk)
    simpa using this
  have hinj : ∀ k', k' < uops.length →
      (mappedIndex bits (s.qHead + k) = mappedIndex bits (s.qHead + k') ↔ k = k') := by
    intro k' hk'
    constructor
    · intro he
      have := mappedIndex_inj (t := s.qHead) (by omega) (by omega) (by omega) (by omega) he
      omega
    · rintro rfl
      rfl
  have h0 := hinj 0 (by omega)
  have hlast := hinj (uops.length - 1) (by omega)
  rw [Nat.add_zero] at h0
  rw [← Nat.add_sub_assoc (by omega)] at hlast
  have hlast' : (k = uops.length - 1) = (k + 1 = uops.length) := by
    apply propext
    omega
  rw [fetched, getDynamicInst_modify, getDynamicInst_modify, initUops_get hk hsize, hw]
  simp only [h0, hlast, hlast']
  by_cases hl : k + 1 = uops.length <;> by_cases hz : k = 0
  · rw [if_pos hl, if_pos hz, decide_eq_true hl, decide_eq_true hz]
  · rw [if_pos hl, if_neg hz, decide_eq_true hl, decide_eq_false hz]
  · rw [if_neg hl, if_pos hz, decide_eq_false hl, decide_eq_true hz]
  · rw [if_neg hl, if_neg hz, decide_eq_false hl, decide_eq_false hz]

/-- The older uops keep their slots: the fetch limits leave room for one x86 op. -/
theorem Wf.fetched_old (h : s.Wf) {uops : List Op} (hready : s.fetchReady)
    (hmax : uops.length ≤ MAX_TRANSOPS_PER_USER_INSN) {q : Nat} (hq : s.qTail ≤ q)
    (hlt : q < s.qHead) : (s.fetched uops).getDynamicInst q = s.getDynamicInst q := by
  simp only [fetchReady, Bool.and_eq_true, decide_eq_true_eq] at hready
  have hfem := hready.2
  have hrob := h.ordered.rename_le_rob
  have hfits := s.params.fits
  have hne : ∀ q', s.qHead ≤ q' → q' < s.qHead + max 1 uops.length →
      mappedIndex bits q ≠ mappedIndex bits q' := by
    intro q' h1 h2 he
    have := mappedIndex_inj (t := s.qTail) hq (by omega) (by omega) (by
      simp only [MAX_TRANSOPS_PER_USER_INSN] at hmax hfits
      omega) he
    omega
  have hinit : (s.initUops s.qHead uops).getDynamicInst q = s.getDynamicInst q :=
    initUops_of_ne fun q' h1 h2 => hne q' h1 (by omega)
  rw [fetched, getDynamicInst_modify, getDynamicInst_modify, hinit,
    if_neg (hne s.qHead (Nat.le_refl _) (by omega))]
  split
  · next he =>
      -- an x86 op without uops marks the end of the one before it again
      have hends : (s.getDynamicInst q).endsX86Op := by
        by_cases h0 : uops.length = 0
        · have hq' : q = s.qHead - 1 := by
            by_contra hne'
            rw [h0, Nat.add_zero] at he
            exact h.ordered.slot_ne hq (by omega) hlt (by omega) hne' he
          rw [hq']
          exact h.ends (by omega)
        · exact absurd he (hne _ (by omega) (by omega))
      rw [← hends]
  · rfl

theorem branch_last {uops : List Op} (h : branchesLast uops) {k : Nat} (hk : k < uops.length)
    (hb : uops[k].isbranch) : k + 1 = uops.length := by
  by_contra hne
  have hlt : k < uops.dropLast.length := by
    rw [List.length_dropLast]
    omega
  have hmem : uops[k] ∈ uops.dropLast :=
    List.mem_iff_getElem.mpr ⟨k, hlt, List.getElem_dropLast hlt⟩
  have := List.all_eq_true.mp h _ hmem
  rw [hb] at this
  cases this

theorem Wf.decode (h : s.Wf) {uops : List Op} (hready : s.fetchReady)
    (hs : s.decodeCurrentX86Instruction uops = some s') : s'.Wf := by
  simp only [decodeCurrentX86Instruction] at hs
  split at hs
  · cases hs
  next hok =>
  simp only [Bool.or_eq_true, decide_eq_true_eq, Bool.not_eq_true', not_or, Nat.not_lt,
    Bool.not_eq_false] at hok
  obtain ⟨⟨hmax, hbranch⟩, hdet⟩ := hok
  split at hs
  swap
  · cases hs
  obtain rfl := Option.some.inj hs
  change ({ s.fetched uops with qHead := s.qHead + uops.length }).Wf
  have ho := h.ordered
  have hfits := s.params.fits
  have hroom := hready
  simp only [fetchReady, Bool.and_eq_true, decide_eq_true_eq] at hroom
  have hfem := hroom.2
  have hrob := ho.rename_le_rob
  have htr := ho.tail_le_retire
  have hre := ho.retire_le_execute
  have her := ho.execute_le_rename
  have hrh := ho.rename_le_head
  have hbound : s.qHead + uops.length ≤ s.qTail +
      (s.params.robSize + s.params.frontEndMax + MAX_TRANSOPS_PER_USER_INSN - 1) := by
    simp only [MAX_TRANSOPS_PER_USER_INSN] at hmax ⊢
    omega
  have hold : ∀ q, s.qTail ≤ q → q < s.qHead →
      (s.fetched uops).buffer (mappedIndex bits q) = s.getDynamicInst q :=
    fun q h1 h2 => h.fetched_old hready hmax h1 h2
  have hnew : ∀ k (hk : k < uops.length),
      (s.fetched uops).buffer (mappedIndex bits (s.qHead + k)) = _ :=
    fun k hk => fetched_get hk (by omega) hdet
  rw [fetched_eq]
  refine ⟨⟨htr, hre, her, hrh.trans (Nat.le_add_right _ _), hrob, hbound,
    ho.7.mono (Nat.le_add_right _ _), ho.8, ho.9⟩, ⟨fun q h1 h2 => ?_, fun hlt => ?_,
      fun q h1 h2 => ?_⟩, fun hlt => ?_, fun i hi => ?_⟩ <;> dsimp only at *
  · rcases Nat.lt_or_ge q s.qHead with hlt | hge
    · have hp := h.slots.placed q h1 hlt
      refine ⟨?_, ?_, fun hx => ?_⟩ <;> simp only [getDynamicInst, hold q h1 hlt]
      · exact hp.qPtr
      · exact hp.branch
      · exact hp.executed hx
    · obtain ⟨k, rfl⟩ := Nat.exists_eq_add_of_le hge
      have hk : k < uops.length := by omega
      refine ⟨?_, fun hb => ?_, fun hx => ?_⟩
      · simp only [getDynamicInst, hnew k hk]
      · simp only [getDynamicInst, hnew k hk] at hb ⊢
        exact decide_eq_true (branch_last hbranch hk hb)
      · dsimp only at hx
        omega
  · rcases Nat.lt_or_ge s.qTail s.qHead with hlt' | hge
    · simp only [getDynamicInst, hold _ (Nat.le_refl _) hlt']
      exact h.slots.starts hlt'
    · have he : s.qTail = s.qHead + 0 := by omega
      simp only [getDynamicInst, he, hnew 0 (by omega), decide_true]
  · rcases Nat.lt_trichotomy (q + 1) s.qHead with hlt | heq | hgt
    · simp only [getDynamicInst, hold q h1 (by omega), hold (q + 1) (by omega) hlt]
      exact h.slots.next q h1 hlt
    · -- where the new x86 op follows the window
      have hends := h.ends (by omega)
      rw [← heq, Nat.add_sub_cancel] at hends
      have hn := hnew 0 (by omega)
      rw [Nat.add_zero, ← heq] at hn
      simp only [getDynamicInst, hold q h1 (by omega), hn]
      simpa [getDynamicInst] using hends
    · obtain ⟨k, rfl⟩ := Nat.exists_eq_add_of_le (Nat.le_of_lt_succ hgt)
      have hn := hnew (k + 1) (by omega)
      rw [← Nat.add_assoc] at hn
      simp only [getDynamicInst, hnew k (by omega), hn]
      simp
      omega
  · rcases Nat.eq_zero_or_pos uops.length with h0 | hpos
    · rw [h0, Nat.add_zero] at hlt ⊢
      simp only [getDynamicInst, hold (s.qHead - 1) (by omega) (by omega)]
      exact h.ends hlt
    · have hn := hnew (uops.length - 1) (by omega)
      rw [← Nat.add_sub_assoc hpos] at hn
      simp only [getDynamicInst, hn, Nat.sub_add_cancel hpos, decide_true]
  · obtain ⟨hw, hst⟩ := fetched_waiting (s := s) uops i
    have hne : ∀ q, s.qHead ≤ q → q < s.qHead + uops.length → i ≠ mappedIndex bits q := by
      rintro q h1 h2 rfl
      obtain ⟨k, rfl⟩ := Nat.exists_eq_add_of_le h1
      rw [hnew k (by omega)] at hi
      cases hi
    rw [hw, initUops_of_ne hne] at hi
    rw [hst, initUops_of_ne hne]
    exact h.waiters i hi

theorem Wf.fetch {uops : List Op} (h : s.Wf) (hs : s.fetch uops = some s') : s'.Wf := by
  simp only [InstructionWindow.fetch] at hs
  split at hs
  · next hready => exact h.decode hready hs
  · cases hs

theorem Wf.fetchFailed (h : s.Wf) (hs : s.fetchFailed = some s') : s'.Wf := by
  simp only [InstructionWindow.fetchFailed] at hs
  split at hs
  · obtain rfl := Option.some.inj hs
    exact h.oldestBad _
  · cases hs

/-! Runs -/

/-- The pipes alone change. -/
theorem Wf.pipes (h : s.Wf) {fetch core retire : PipeStages} (hf : fetch.Below s.qHead)
    (hc : core.Below s.qRename) (hr : retire.Below s.qExecute) :
    ({ s with fetchPipe := fetch, corePipe := core, retirePipe := retire }).Wf := by
  obtain ⟨ho, hslots, hends, hw⟩ := h
  refine ⟨⟨ho.1, ho.2, ho.3, ho.4, ho.5, ho.6, hf, hc, hr⟩, ?_, hends, hw⟩
  exact hslots.congr rfl (fun _ _ _ => rfl) fun q hq hlt hx => (hslots.placed q hq hlt).executed hx

theorem Wf.insertTail {pipe : Pipe} (h : s.Wf) (hs : s.insertTail pipe = some s') : s'.Wf := by
  have ho := h.ordered
  cases pipe with
  | fetch =>
      obtain ⟨p, hp, rfl⟩ := Option.map_eq_some_iff.mp hs
      exact h.pipes (ho.fetchPipe.insertTail hp) ho.corePipe ho.retirePipe
  | core =>
      obtain ⟨p, hp, rfl⟩ := Option.map_eq_some_iff.mp hs
      exact h.pipes ho.fetchPipe (ho.corePipe.insertTail hp) ho.retirePipe
  | retire =>
      obtain ⟨p, hp, rfl⟩ := Option.map_eq_some_iff.mp hs
      exact h.pipes ho.fetchPipe ho.corePipe (ho.retirePipe.insertTail hp)

theorem Wf.reset (h : s.Wf) (params : WindowParams bits) : (s.reset params).Wf := by
  obtain ⟨ho, hslots, hends, hw⟩ := h.resetState
  have heq : s.resetState.qHead = s.resetState.qTail ∧ s.resetState.qRename = s.resetState.qTail := by
    unfold InstructionWindow.resetState
    rw [modifyDown_eq]
    exact ⟨rfl, rfl⟩
  refine ⟨⟨ho.1, ho.2, ho.3, ho.4, ?_, ?_, ho.7, ho.8, ho.9⟩, ?_, hends, hw⟩
  · exact heq.2.trans_le (Nat.le_add_right _ _)
  · exact heq.1.trans_le (Nat.le_add_right _ _)
  · exact hslots.congr rfl (fun _ _ _ => rfl) fun q hq hlt hx => (hslots.placed q hq hlt).executed hx

theorem wf_init (params : WindowParams bits) : (init params).Wf := by
  refine ⟨⟨Nat.le_refl _, Nat.le_refl _, Nat.le_refl _, Nat.le_refl _, Nat.zero_le _, Nat.zero_le _,
    PipeStages.below_configure _ _, PipeStages.below_configure _ _,
    PipeStages.below_configure _ _⟩, ?_, fun hlt => absurd hlt (Nat.lt_irrefl _), ?_⟩
  · refine ⟨fun q _ hlt => absurd hlt (Nat.not_lt_zero _),
      fun hlt => absurd hlt (Nat.not_lt_zero _),
      fun q _ hlt => absurd hlt (Nat.not_lt_zero _)⟩
  · intro i hi
    cases hi

theorem Wf.step {e : Event bits} (h : s.Wf) (hs : s.step e = some s') : s'.Wf := by
  cases e with
  | fetch uops => exact h.fetch hs
  | fetchFailed => exact h.fetchFailed hs
  | rename => exact h.rename hs
  | execute outcome => exact h.execute hs
  | wakeup slot outcome => exact h.wakeup hs
  | retire storeHit violation succeed => exact h.retire hs
  | insertTail pipe => exact h.insertTail hs
  | cycle =>
      obtain rfl := Option.some.inj hs
      exact h.pipes h.ordered.fetchPipe.cycle h.ordered.corePipe.cycle h.ordered.retirePipe.cycle
  | reset params =>
      obtain rfl := Option.some.inj hs
      exact h.reset params

theorem wf_reachable {params : WindowParams bits}
    (h : EventSystem.Reachable step (init params) s) : s.Wf :=
  EventSystem.reachable_invariant (wf_init params) (fun _ _ _ hwf he => hwf.step he) h

/-- The pointers keep their order, the window its size, and live uops their own slots. -/
theorem window_bounds {params : WindowParams bits}
    (h : EventSystem.Reachable step (init params) s) :
    s.qTail ≤ s.qRetire ∧ s.qRetire ≤ s.qExecute ∧ s.qExecute ≤ s.qRename ∧ s.qRename ≤ s.qHead ∧
      s.qHead - s.qTail ≤ s.bufSize ∧
      ∀ q q', s.qTail ≤ q → q < s.qHead → s.qTail ≤ q' → q' < s.qHead →
        mappedIndex bits q = mappedIndex bits q' → q = q' := by
  have ho := (wf_reachable h).ordered
  refine ⟨ho.tail_le_retire, ho.retire_le_execute, ho.execute_le_rename, ho.rename_le_head, ?_, ?_⟩
  · exact Nat.sub_le_iff_le_add'.mpr ho.head_le_bufSize
  · intro q q' h1 h2 h3 h4 he
    by_contra hne
    exact ho.slot_ne h1 h3 h2 h4 hne he

/-- A load and a branch go through fetch and rename, then come other parameters. -/
theorem window_bounds_switch :
    ∃ s : InstructionWindow 7,
      EventSystem.run step (init dataCollect)
        [.fetch [{ isload := true }, { isbranch := true }], .insertTail .fetch, .cycle, .cycle,
          .cycle, .cycle, .cycle, .rename, .rename, .reset warmup, .fetch [{}]] = some s ∧
        s.qTail ≤ s.qRetire ∧ s.qRetire ≤ s.qExecute ∧ s.qExecute ≤ s.qRename ∧
        s.qRename ≤ s.qHead ∧ s.qHead - s.qTail ≤ s.bufSize ∧
        ∀ q q', s.qTail ≤ q → q < s.qHead → s.qTail ≤ q' → q' < s.qHead →
          mappedIndex 7 q = mappedIndex 7 q' → q = q' := by
  have hrun : (EventSystem.run step (init dataCollect)
      [.fetch [{ isload := true }, { isbranch := true }], .insertTail .fetch, .cycle, .cycle,
        .cycle, .cycle, .cycle, .rename, .rename, .reset warmup, .fetch [{}]]).isSome := by
    decide
  obtain ⟨s, hs⟩ := Option.isSome_iff_exists.mp hrun
  exact ⟨s, hs, window_bounds ⟨_, hs⟩⟩

end InstructionWindow
end FeS2.Pyrite
