import FeS2.Pyrite.WindowBounds

/-!
`flushPipeline` on the positions of the machine, which are unsigned words of 64
bits. The loop counts down to the first bad uop, and comes out at the largest of
all words when it goes past position 0.
-/

namespace FeS2.Pyrite

abbrev QPointer := BitVec 64

def minPointer (a b : QPointer) : QPointer := if b < a then b else a

structure QPipe where
  head : QPointer
  tail : QPointer
  pipeline : List QPointer

namespace QPipe

def squash (firstBad : QPointer) (p : QPipe) : QPipe :=
  let lastGood := firstBad - 1
  { head := minPointer p.head lastGood
    tail := minPointer p.tail lastGood
    pipeline := p.pipeline.map (minPointer · lastGood) }

def toPipeStages (p : QPipe) : PipeStages :=
  { head := p.head.toNat, tail := p.tail.toNat, pipeline := p.pipeline.map (·.toNat) }

end QPipe

/-- Of the positions, all ones in `qOldestBad` stands for none. -/
structure QWindow (bits : Nat) where
  params : WindowParams bits
  buffer : Nat → BufferedInst
  qHead : QPointer
  qTail : QPointer
  qRename : QPointer
  qExecute : QPointer
  qRetire : QPointer
  qOldestBad : QPointer
  fetchPipe : QPipe
  corePipe : QPipe
  retirePipe : QPipe

namespace QWindow
variable {bits : Nat}

def getDynamicInst (q : QPointer) (s : QWindow bits) : BufferedInst :=
  s.buffer (InstructionWindow.mappedIndex bits q.toNat)

def modify (q : QPointer) (f : BufferedInst → BufferedInst) (s : QWindow bits) : QWindow bits :=
  { s with buffer := fun i =>
      if i = InstructionWindow.mappedIndex bits q.toNat then f (s.buffer i) else s.buffer i }

/-- The loop from `q` on, with the positions it squashes in order. -/
def squashDown (qFirstBad : QPointer) :
    Nat → QPointer → QWindow bits → Option (QWindow bits × List QPointer)
  | 0, _, _ => none
  | fuel + 1, q, s =>
      if q ≥ qFirstBad then
        (squashDown qFirstBad fuel (q - 1) (s.modify q .squash)).map fun r => (r.1, q :: r.2)
      else some (s, [])

/-- The part of the flush before its loop. -/
def squashPipes (qFirstBad : QPointer) (s : QWindow bits) : QWindow bits :=
  { s with
    fetchPipe := s.fetchPipe.squash qFirstBad
    corePipe := s.corePipe.squash qFirstBad
    retirePipe := s.retirePipe.squash qFirstBad
    qExecute := minPointer s.qExecute qFirstBad
    qRetire := minPointer s.qRetire qFirstBad
    qOldestBad :=
      if s.qOldestBad ≠ BitVec.allOnes 64 ∧ s.qOldestBad ≥ qFirstBad then BitVec.allOnes 64
      else s.qOldestBad }

def flushPipeline (fuel : Nat) (qFirstBad : QPointer) (s : QWindow bits) :
    Option (QWindow bits × List QPointer) :=
  (squashDown qFirstBad fuel (s.qHead - 1) (s.squashPipes qFirstBad)).map fun r =>
    ({ r.1 with qRename := qFirstBad, qHead := qFirstBad }, r.2)

def pipes (s : QWindow bits) : List QPipe := [s.fetchPipe, s.corePipe, s.retirePipe]

/-- A window as the buffer can hold it. -/
structure Holds (s : QWindow bits) : Prop where
  tail_le_head : s.qTail ≤ s.qHead
  size : s.qHead.toNat ≤ s.qTail.toNat + 1 <<< bits

/-- The flush takes the uops from `qFirstBad` on, and nothing else. -/
structure Flushed (s : QWindow bits) (qFirstBad : QPointer) (s' : QWindow bits)
    (squashed : List QPointer) : Prop where
  squashed : squashed.map (·.toNat) =
    (List.range' qFirstBad.toNat (s.qHead.toNat - qFirstBad.toNat)).reverse
  younger : ∀ q, qFirstBad ≤ q → q < s.qHead → s'.getDynamicInst q = (s.getDynamicInst q).squash
  older : ∀ q, s.qTail ≤ q → q < qFirstBad → q < s.qHead →
    s'.getDynamicInst q = s.getDynamicInst q
  head : s'.qHead = qFirstBad
  pipes : ∀ p ∈ s'.pipes, p.head ≤ qFirstBad ∧ p.tail ≤ qFirstBad

/-- The same window with positions that do not wrap around. -/
def toWindow (s : QWindow bits) : InstructionWindow bits :=
  { params := s.params
    buffer := s.buffer
    qHead := s.qHead.toNat
    qTail := s.qTail.toNat
    qRename := s.qRename.toNat
    qExecute := s.qExecute.toNat
    qRetire := s.qRetire.toNat
    qOldestBad := if s.qOldestBad = BitVec.allOnes 64 then none else some s.qOldestBad.toNat
    fetchPipe := s.fetchPipe.toPipeStages
    corePipe := s.corePipe.toPipeStages
    retirePipe := s.retirePipe.toPipeStages }

end QWindow

/-! Positions -/

theorem toNat_pred {q : QPointer} (h : q ≠ 0) : (q - 1).toNat = q.toNat - 1 := by
  have hne : q.toNat ≠ 0 := fun h0 => h (BitVec.eq_of_toNat_eq h0)
  have hlt := q.isLt
  rw [BitVec.toNat_sub, show (1 : QPointer).toNat = 1 from rfl]
  omega

theorem toNat_minPointer (a b : QPointer) :
    (minPointer a b).toNat = min a.toNat b.toNat := by
  unfold minPointer
  split
  · rename_i h
    exact (min_eq_right (BitVec.lt_def.mp h).le).symm
  · rename_i h
    exact (min_eq_left (not_lt.mp fun hlt => h (BitVec.lt_def.mpr hlt))).symm

/-- Before position 0 comes the largest word, which limits nothing. -/
theorem toNat_minPointer_lastGood (a firstBad : QPointer) :
    (minPointer a (firstBad - 1)).toNat =
      if firstBad = 0 then a.toNat else min a.toNat (firstBad.toNat - 1) := by
  rw [toNat_minPointer]
  split
  · rename_i h
    have hlt := a.isLt
    rw [h, show ((0 : QPointer) - 1).toNat = 2 ^ 64 - 1 from rfl]
    omega
  · rename_i h
    rw [toNat_pred h]

theorem QPipe.toPipeStages_squash (firstBad : QPointer) (p : QPipe) :
    (p.squash firstBad).toPipeStages = p.toPipeStages.squash firstBad.toNat := by
  by_cases h : firstBad = 0
  · have hid : ∀ a : QPointer, (minPointer a (firstBad - 1)).toNat = a.toNat := fun a => by
      rw [toNat_minPointer_lastGood, if_pos h]
    simp only [squash, toPipeStages, hid, List.map_map]
    rw [h]
    refine congrArg (PipeStages.mk p.head.toNat p.tail.toNat) (List.map_congr_left fun t _ => ?_)
    rw [← h]
    exact hid t
  · have hpred : ∀ a : QPointer,
        (minPointer a (firstBad - 1)).toNat = min a.toNat (firstBad.toNat - 1) := fun a => by
      rw [toNat_minPointer_lastGood, if_neg h]
    obtain ⟨lastGood, hlast⟩ := Nat.exists_eq_succ_of_ne_zero
      (fun h0 => h (BitVec.eq_of_toNat_eq h0) : firstBad.toNat ≠ 0)
    simp only [squash, toPipeStages, hpred, List.map_map, hlast, PipeStages.squash]
    refine congrArg (PipeStages.mk _ _) (List.map_congr_left fun t _ => ?_)
    rw [Function.comp_apply, hpred, hlast]
    rfl

namespace InstructionWindow
variable {bits : Nat} {s s' : InstructionWindow bits}

theorem modifyDown_buffer (h : s.buffer = s'.buffer) (f : BufferedInst → BufferedInst) (q n : Nat) :
    (s.modifyDown f q n).buffer = (s'.modifyDown f q n).buffer := by
  induction n generalizing s s' with
  | zero => exact h
  | succ n ih =>
      apply ih
      funext i
      simp only [modify, h]

/-- Within a turn of the buffer the loop comes to each slot once. -/
theorem modifyDown_get {f : BufferedInst → BufferedInst} {q n q' : Nat} (hn : n ≤ 1 <<< bits)
    (hq : q ≤ q') (hq' : q' < q + n) :
    (s.modifyDown f q n).getDynamicInst q' = f (s.getDynamicInst q') := by
  induction n generalizing s with
  | zero => omega
  | succ n ih =>
      by_cases he : q' = q + n
      · have hne : ∀ x, q ≤ x → x < q + n → mappedIndex bits q' ≠ mappedIndex bits x :=
          fun x h1 h2 heq => by
            have := mappedIndex_inj hq h1 (by omega) (by omega) heq
            omega
        rw [modifyDown]
        refine (modifyDown_of_ne hne).trans ?_
        rw [he]
        exact getDynamicInst_modify_self (q + n) f
      · have hlt : q' < q + n := by omega
        rw [modifyDown, ih (by omega) hlt, getDynamicInst_modify, if_neg]
        exact fun heq => he (mappedIndex_inj hq (Nat.le_add_right q n) (by omega) (by omega) heq)

end InstructionWindow

/-! The loop -/

namespace QWindow
variable {bits : Nat} {s s' : QWindow bits}

/-- No word is below 0. -/
theorem squashDown_zero (fuel : Nat) (q : QPointer) (s : QWindow bits) :
    squashDown 0 fuel q s = none := by
  induction fuel generalizing q s with
  | zero => rfl
  | succ fuel ih =>
      rw [squashDown, if_pos (BitVec.le_def.mpr (Nat.zero_le _)), ih]
      rfl

theorem squashDown_eq {first : QPointer} (hfirst : first ≠ 0) {n : Nat} {q : QPointer}
    (hn : q.toNat + 1 - first.toNat = n) (s : QWindow bits) :
    ∃ squashed, squashDown first (n + 1) q s = some
        ({ s with buffer := (s.toWindow.modifyDown .squash first.toNat n).buffer }, squashed) ∧
      squashed.map (·.toNat) = (List.range' first.toNat n).reverse := by
  induction n generalizing q s with
  | zero =>
      refine ⟨[], ?_, rfl⟩
      rw [squashDown, if_neg fun hge => ?_]
      · rfl
      · have := BitVec.le_def.mp hge
        omega
  | succ n ih =>
      have hpos : first.toNat ≠ 0 := fun h0 => hfirst (BitVec.eq_of_toNat_eq h0)
      have hq : q.toNat = first.toNat + n := by omega
      have hne : q ≠ 0 := by
        rintro rfl
        have hzero : (0 : QPointer).toNat = 0 := rfl
        omega
      have hpred := toNat_pred hne
      obtain ⟨squashed, hrun, hlog⟩ := ih (q := q - 1) (by omega) (s.modify q .squash)
      refine ⟨q :: squashed, ?_, ?_⟩
      · rw [squashDown, if_pos (BitVec.le_def.mpr (by omega)), hrun,
          InstructionWindow.modifyDown, ← hq]
        rfl
      · rw [List.map_cons, hlog, List.range'_concat, List.reverse_append, hq, Nat.one_mul]
        rfl

/-- Past position 0 the loop starts at the largest word. -/
theorem squashDown_wrap {first : QPointer} {fuel : Nat} {r : QWindow bits × List QPointer}
    (h : squashDown first fuel (0 - 1) s = some r) : r.2 ≠ [] := by
  cases fuel with
  | zero => cases h
  | succ fuel =>
      have hlt := first.isLt
      have hge : (0 - 1 : QPointer) ≥ first := by
        rw [ge_iff_le, BitVec.le_def, show ((0 : QPointer) - 1).toNat = 2 ^ 64 - 1 from rfl]
        omega
      rw [squashDown, if_pos hge] at h
      obtain ⟨t, -, rfl⟩ := Option.map_eq_some_iff.mp h
      exact List.cons_ne_nil _ _

/-! The flush -/

/-- What a flush leaves when its loop has come to an end. -/
def flushed (first : QPointer) (s : QWindow bits) : QWindow bits :=
  { s.squashPipes first with
    buffer := (s.toWindow.modifyDown .squash first.toNat (s.qHead.toNat - first.toNat)).buffer
    qRename := first
    qHead := first }

theorem flushPipeline_eq {first : QPointer} (hfirst : first ≠ 0) (hhead : s.qHead ≠ 0) :
    ∃ squashed,
      s.flushPipeline (s.qHead.toNat - first.toNat + 1) first = some (s.flushed first, squashed) ∧
      squashed.map (·.toNat) =
        (List.range' first.toNat (s.qHead.toNat - first.toNat)).reverse := by
  have hpos : s.qHead.toNat ≠ 0 := fun h0 => hhead (BitVec.eq_of_toNat_eq h0)
  have hpred := toNat_pred hhead
  obtain ⟨squashed, hrun, hlog⟩ := squashDown_eq hfirst
    (show (s.qHead - 1).toNat + 1 - first.toNat = s.qHead.toNat - first.toNat by omega)
    (s.squashPipes first)
  have hbuffer := InstructionWindow.modifyDown_buffer
    (show (s.squashPipes first).toWindow.buffer = s.toWindow.buffer from rfl)
  refine ⟨squashed, ?_, hlog⟩
  rw [flushPipeline, hrun, hbuffer]
  rfl

theorem flushPipeline_zero (fuel : Nat) : s.flushPipeline fuel 0 = none := by
  rw [flushPipeline, squashDown_zero]
  rfl

/-- The window with unbounded positions takes the same flush, and none at 0. -/
theorem flushPipeline_toWindow {first : QPointer} (hhead : s.qHead ≠ 0) :
    s.toWindow.flushPipeline first.toNat =
      (s.flushPipeline (s.qHead.toNat - first.toNat + 1) first).map fun r => r.1.toWindow := by
  by_cases hfirst : first = 0
  · rw [hfirst, flushPipeline_zero]
    rfl
  · have hpos : first.toNat ≠ 0 := fun h0 => hfirst (BitVec.eq_of_toNat_eq h0)
    obtain ⟨squashed, hrun, -⟩ := flushPipeline_eq hfirst hhead
    have hbad : (if (s.flushed first).qOldestBad = BitVec.allOnes 64 then none
        else some (s.flushed first).qOldestBad.toNat) =
        InstructionWindow.squashOldestBad first.toNat s.toWindow.qOldestBad := by
      by_cases hnone : s.qOldestBad = BitVec.allOnes 64
      · simp [flushed, squashPipes, toWindow, InstructionWindow.squashOldestBad, hnone]
      · simp only [flushed, squashPipes, toWindow, InstructionWindow.squashOldestBad, hnone,
          ne_eq, not_false_eq_true, true_and, if_false, Option.bind_some, ge_iff_le,
          BitVec.le_def]
        split
        · rfl
        · rfl
    rw [hrun, Option.map_some, InstructionWindow.flushPipeline, if_neg hpos,
      InstructionWindow.modifyDown_eq]
    refine congrArg some ?_
    simp only [toWindow, flushed, squashPipes, QPipe.toPipeStages_squash, toNat_minPointer]
      at hbad ⊢
    rw [hbad]

theorem Holds.flushed {first : QPointer} (h : s.Holds) {squashed : List QPointer}
    (hfirst : first ≠ 0)
    (hlog : squashed.map (·.toNat) =
      (List.range' first.toNat (s.qHead.toNat - first.toNat)).reverse) (htail : s.qTail ≤ first) :
    s.Flushed first (s.flushed first) squashed := by
  have htail' := BitVec.le_def.mp htail
  have hsize := h.size
  refine ⟨hlog, fun q hq hlt => ?_, fun q hq hlt hh => ?_, rfl, ?_⟩
  · rw [BitVec.le_def] at hq
    rw [BitVec.lt_def] at hlt
    exact InstructionWindow.modifyDown_get (s := s.toWindow) (by omega) hq (by omega)
  · rw [BitVec.le_def] at hq
    rw [BitVec.lt_def] at hlt hh
    refine InstructionWindow.modifyDown_of_ne fun q' h1 h2 heq => ?_
    have := InstructionWindow.mappedIndex_inj hq (htail'.trans h1) (by omega) (by omega) heq
    omega
  · have hlast : ∀ a : QPointer, minPointer a (first - 1) ≤ first := fun a => by
      rw [BitVec.le_def, toNat_minPointer_lastGood, if_neg hfirst]
      omega
    have hsquash : ∀ p : QPipe, (p.squash first).head ≤ first ∧ (p.squash first).tail ≤ first :=
      fun p => ⟨hlast _, hlast _⟩
    intro p hp
    simp only [pipes, QWindow.flushed, squashPipes, List.mem_cons, List.not_mem_nil, or_false] at hp
    rcases hp with rfl | rfl | rfl <;> exact hsquash _

/-- A flush ends with the bad suffix gone exactly if it is not from position 0 on, and some
uop has ever been fetched. -/
theorem flushPipeline_flushed_iff (s : QWindow bits) (first : QPointer) (h : s.Holds)
    (htail : s.qTail ≤ first) :
    (∃ fuel s' squashed, s.flushPipeline fuel first = some (s', squashed) ∧
      s.Flushed first s' squashed) ↔ first ≠ 0 ∧ s.qHead ≠ 0 := by
  constructor
  · rintro ⟨fuel, s', squashed, hrun, hflushed⟩
    have hfirst : first ≠ 0 := by
      rintro rfl
      rw [flushPipeline_zero] at hrun
      cases hrun
    refine ⟨hfirst, fun hhead => ?_⟩
    have hlog := hflushed.squashed
    rw [hhead, show (0 : QPointer).toNat = 0 from rfl, Nat.zero_sub] at hlog
    rw [flushPipeline, hhead] at hrun
    obtain ⟨r, hloop, hr⟩ := Option.map_eq_some_iff.mp hrun
    refine squashDown_wrap hloop ?_
    rw [(Prod.mk.inj hr).2]
    exact List.map_eq_nil_iff.mp hlog
  · rintro ⟨hfirst, hhead⟩
    obtain ⟨squashed, hrun, hlog⟩ := flushPipeline_eq hfirst hhead
    exact ⟨_, _, squashed, hrun, h.flushed hfirst hlog htail⟩

/-- The first uops of a run, renamed and not executed. -/
def firstUops (head : QPointer) : QWindow 7 :=
  { params := warmup
    buffer := fun _ => {}
    qHead := head
    qTail := 0
    qRename := head
    qExecute := 0
    qRetire := 0
    qOldestBad := BitVec.allOnes 64
    fetchPipe := ⟨0, 0, [0, 0]⟩
    corePipe := ⟨0, 0, [0, 0]⟩
    retirePipe := ⟨0, 0, [0, 0]⟩ }

theorem firstUops_holds : (firstUops 2).Holds := ⟨by decide, by decide⟩

/-- An exception of the second uop alone flushes that uop. -/
theorem flushPipeline_flushed_second :
    (∃ fuel s' squashed, (firstUops 2).flushPipeline fuel 1 = some (s', squashed) ∧
      (firstUops 2).Flushed 1 s' squashed) ↔ (1 : QPointer) ≠ 0 ∧ (firstUops 2).qHead ≠ 0 :=
  flushPipeline_flushed_iff (firstUops 2) 1 firstUops_holds (by decide)

/-- The very first x86 op is flushed: the loop has no end. -/
theorem flushPipeline_first_diverges :
    ¬ ∀ (s : QWindow 7) (first : QPointer), s.Holds → s.qTail ≤ first →
      ∃ fuel s' squashed, s.flushPipeline fuel first = some (s', squashed) ∧
        s.Flushed first s' squashed := by
  intro h
  obtain ⟨fuel, s', squashed, hrun, -⟩ := h (firstUops 1) 0 ⟨by decide, by decide⟩ (by decide)
  rw [flushPipeline_zero] at hrun
  cases hrun

end QWindow
end FeS2.Pyrite
