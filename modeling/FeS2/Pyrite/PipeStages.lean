import Mathlib.Algebra.Group.Nat.Defs
import Mathlib.Data.List.GetD
import Mathlib.Data.List.Pairwise
import FeS2.Library.DelayLine
import FeS2.Library.EventSystem
import FeS2.Pyrite.FlushLoop

/-!
The stages of the in-order pipeline. A queue pointer that enters at the tail comes to
the head as many cycles later as there are stages, and a squash takes every pointer
back to the last good uop. Before uop 0 there is none: there the subtraction wraps
around, and a squash of everything takes nothing back.
-/

namespace FeS2.Pyrite
open EventSystem

namespace QPipe

def configure (length : Nat) (t : QPointer) : QPipe :=
  { head := t, tail := t, pipeline := List.replicate (length + 1) t }

def shift (pipeline : List QPointer) : List QPointer :=
  (List.range' 1 (pipeline.length - 1)).foldl (fun l i => l.set (i - 1) (l.getD i 0)) pipeline

def cycle (p : QPipe) : QPipe :=
  let pipeline := shift (p.pipeline.set (p.pipeline.length - 1) p.tail)
  { p with pipeline := pipeline, head := pipeline.getD 0 0 }

def insertTail (t : QPointer) (p : QPipe) : Option QPipe :=
  if p.tail ≤ t then some { p with tail := t } else none

inductive Event
  | insertTail (t : QPointer)
  | cycle
  | squash (firstBad : QPointer)
  deriving DecidableEq

def step (p : QPipe) : Event → Option QPipe
  | .insertTail t => p.insertTail t
  | .cycle => some p.cycle
  | .squash firstBad => some (p.squash firstBad)

/-! The history -/

/-- A squash takes a pointer back to the last good uop. -/
def clamp (t : QPointer) : Event → QPointer
  | .squash firstBad => if firstBad = 0 then 0 else minPointer t (firstBad - 1)
  | _ => t

/-- The tail after a history. -/
def tailAfter (t : QPointer) (es : List Event) : QPointer :=
  es.foldl (fun t e => match e with
    | .insertTail t => t
    | e => clamp t e) t

def Event.isCycle : Event → Bool
  | .cycle => true
  | _ => false

def advances (es : List Event) : Nat := es.countP Event.isCycle

/-- The head shows the tail of `length` cycles ago, taken back by every squash since then;
in the first cycles it shows what the pipeline was configured with. -/
structure Delayed (length : Nat) (t : QPointer) (es : List Event) (p : QPipe) : Prop where
  exposed : ∀ before after, es = before ++ .cycle :: after → advances after + 1 = length →
    p.head = after.foldl clamp (tailAfter t before)
  fresh : advances es < length → p.head = es.foldl clamp t
  sorted : (p.head :: p.pipeline ++ [p.tail]).Pairwise (· ≤ ·)

/-- The squashes have a good uop to go back to, or nothing to take back. -/
def HasGood (p : QPipe) : Event → Prop
  | .squash firstBad => firstBad ≠ 0 ∨ p.tail = 0
  | _ => True

instance (p : QPipe) : DecidablePred (HasGood p)
  | .squash _ => inferInstanceAs (Decidable (_ ∨ _))
  | .insertTail _ | .cycle => inferInstanceAs (Decidable True)

/-! One advance -/

theorem shift_append (before : List QPointer) (a : QPointer) (after : List QPointer) :
    (List.range' (before.length + 1) after.length).foldl
      (fun l i => l.set (i - 1) (l.getD i 0)) (before ++ a :: after) =
        before ++ (after ++ [(a :: after).getLast (List.cons_ne_nil a after)]) := by
  induction after generalizing before a with
  | nil => rfl
  | cons b after ih =>
      have hget : (before ++ a :: b :: after).getD (before.length + 1) 0 = b := by
        rw [List.getD_append_right _ _ _ _ (Nat.le_succ _), Nat.succ_sub le_rfl, Nat.sub_self]
        rfl
      have hset : (before ++ a :: b :: after).set before.length b = before ++ [b] ++ b :: after := by
        rw [List.set_append_right _ _ le_rfl, Nat.sub_self, List.append_assoc]
        rfl
      have hrest := ih (before ++ [b]) b
      rw [List.length_append, List.length_singleton] at hrest
      rw [List.length_cons, List.range'_succ, List.foldl_cons, Nat.add_sub_cancel, hget, hset,
        hrest,
        List.getLast_cons_cons, List.append_assoc]
      rfl

/-- What is behind the last stage is a copy of it. -/
theorem cycle_pipeline (p : QPipe) {stages : List QPointer} {x : QPointer}
    (h : p.pipeline = stages ++ [x]) (hs : 0 < stages.length) :
    p.cycle.pipeline = stages.tail ++ [p.tail] ++ [p.tail] := by
  cases stages with
  | nil => cases hs
  | cons a stages =>
      have hset : p.pipeline.set (p.pipeline.length - 1) p.tail = a :: (stages ++ [p.tail]) := by
        rw [h, List.length_append, List.length_singleton, Nat.add_sub_cancel,
          List.set_append_right _ _ le_rfl, Nat.sub_self]
        rfl
      have hshift := shift_append [] a (stages ++ [p.tail])
      rw [cycle, hset, shift]
      dsimp only
      rw [List.length_cons, Nat.add_sub_cancel]
      refine hshift.trans ?_
      rw [List.getLast_cons (by simp), List.getLast_concat]
      rfl

/-! The stages as a delay line -/

def moves (t : QPointer) : List Event → List (DelayLine.Move QPointer)
  | [] => []
  | .insertTail t' :: es => moves t' es
  | .cycle :: es => .shift t :: moves t es
  | .squash firstBad :: es =>
      .rewrite (fun x => clamp x (.squash firstBad)) :: moves (clamp t (.squash firstBad)) es

theorem tailAfter_append (t : QPointer) (es fs : List Event) :
    tailAfter t (es ++ fs) = tailAfter (tailAfter t es) fs := List.foldl_append

theorem moves_append (t : QPointer) (es fs : List Event) :
    moves t (es ++ fs) = moves t es ++ moves (tailAfter t es) fs := by
  induction es generalizing t with
  | nil => rfl
  | cons e es ih =>
      cases e with
      | insertTail t' => exact ih t'
      | cycle => exact congrArg _ (ih t)
      | squash firstBad => exact congrArg _ (ih _)

theorem moves_shifts (t : QPointer) (es : List Event) :
    (moves t es).countP DelayLine.Move.isShift = advances es := by
  induction es generalizing t with
  | nil => rfl
  | cons e es ih =>
      cases e with
      | insertTail t' => exact (ih t').trans (List.countP_cons_of_neg Bool.false_ne_true).symm
      | cycle =>
          rw [moves, List.countP_cons_of_pos rfl, ih, advances, advances,
            List.countP_cons_of_pos rfl]
      | squash firstBad => exact (ih _).trans (List.countP_cons_of_neg Bool.false_ne_true).symm

theorem rewritten_moves (t x : QPointer) (es : List Event) :
    DelayLine.rewritten x (moves t es) = es.foldl clamp x := by
  induction es generalizing t x with
  | nil => rfl
  | cons e es ih =>
      cases e with
      | insertTail t' => exact ih t' x
      | cycle => exact ih t x
      | squash firstBad => exact ih _ _

structure Inv (length : Nat) (t : QPointer) (es : List Event) (p : QPipe) : Prop where
  tail : p.tail = tailAfter t es
  stages : ∃ x, p.pipeline =
    (moves t es).foldl DelayLine.step (List.replicate length t) ++ [x]
  head : p.head = p.pipeline.getD 0 0
  sorted : (p.pipeline ++ [p.tail]).Pairwise (· ≤ ·)

variable {length : Nat} {t : QPointer} {es : List Event} {p p' : QPipe}

theorem Inv.configure (length : Nat) (t : QPointer) : Inv length t [] (configure length t) where
  tail := rfl
  stages := ⟨t, List.replicate_succ'⟩
  head := rfl
  sorted := by
    rw [QPipe.configure, ← List.replicate_succ']
    exact List.pairwise_replicate.mpr (.inr (BitVec.le_refl t))

theorem Inv.le_tail (h : Inv length t es p) {x : QPointer} (hx : x ∈ p.pipeline) : x ≤ p.tail :=
  (List.pairwise_append.mp h.sorted).2.2 x hx p.tail List.mem_cons_self

theorem minPointer_le_minPointer {a b : QPointer} (h : a ≤ b) (c : QPointer) :
    minPointer a c ≤ minPointer b c := by
  rw [minPointer, minPointer]
  split <;> split <;> bv_omega

/-- Where there is a good uop to go back to, the subtraction does not wrap around. -/
theorem min_eq_clamp {x firstBad : QPointer} (hgood : HasGood p (.squash firstBad))
    (hx : x ≤ p.tail) : minPointer x (firstBad - 1) = clamp x (.squash firstBad) := by
  by_cases hzero : firstBad = 0
  · have htail := hgood.resolve_left (not_not_intro hzero)
    obtain rfl : x = 0 := by
      rw [htail] at hx
      bv_omega
    rw [clamp, if_pos hzero, minPointer, if_neg (by bv_omega)]
  · rw [clamp, if_neg hzero]

theorem Inv.cycle (hlength : 0 < length) (h : Inv length t es p) :
    Inv length t (es ++ [.cycle]) p.cycle := by
  obtain ⟨x, hstages⟩ := h.stages
  have hlen := @DelayLine.length_run _ (List.replicate length t) (moves t es)
    (by rwa [List.length_replicate])
  rw [List.length_replicate] at hlen
  generalize hline : (moves t es).foldl DelayLine.step (List.replicate length t) = line at hstages hlen
  have hcycle := cycle_pipeline p hstages (by omega)
  refine ⟨?_, ⟨p.tail, ?_⟩, rfl, ?_⟩
  · rw [tailAfter_append, ← h.tail]
    rfl
  · rw [hcycle, moves_append, List.foldl_append, hline, ← h.tail]
    rfl
  · have hsorted := h.sorted
    rw [hstages, List.append_assoc, List.pairwise_append] at hsorted
    have hle : ∀ y ∈ line.tail, y ≤ p.tail := fun y hy =>
      h.le_tail (hstages ▸ List.mem_append_left _ (List.mem_of_mem_tail hy))
    have htail : p.cycle.tail = p.tail := rfl
    rw [hcycle, htail, List.append_assoc, List.append_assoc, List.pairwise_append]
    refine ⟨hsorted.1.sublist (List.tail_sublist line), by simp, fun y hy z hz => ?_⟩
    have hz : z = p.tail := by simpa using hz
    exact hz ▸ hle y hy

theorem Inv.insertTail (h : Inv length t es p) {t' : QPointer} (hp : p.insertTail t' = some p') :
    Inv length t (es ++ [.insertTail t']) p' := by
  rw [QPipe.insertTail] at hp
  split at hp
  · rename_i hle
    obtain rfl := Option.some.inj hp
    refine ⟨?_, ?_, h.head, ?_⟩
    · rw [tailAfter_append]
      rfl
    · rw [moves_append, moves, moves, List.append_nil]
      exact h.stages
    · obtain ⟨hpipeline, -, hall⟩ := List.pairwise_append.mp h.sorted
      refine List.pairwise_append.mpr ⟨hpipeline, List.pairwise_singleton _ _, fun x hx y hy => ?_⟩
      rw [List.mem_singleton.mp hy]
      exact BitVec.le_trans (h.le_tail hx) hle
  · cases hp

theorem Inv.squash (h : Inv length t es p) {firstBad : QPointer}
    (hgood : HasGood p (.squash firstBad)) :
    Inv length t (es ++ [.squash firstBad]) (p.squash firstBad) := by
  obtain ⟨x, hstages⟩ := h.stages
  have hmap : (p.squash firstBad).pipeline = p.pipeline.map fun x => clamp x (.squash firstBad) :=
    List.map_congr_left fun x hx => min_eq_clamp hgood (h.le_tail hx)
  refine ⟨?_, ⟨clamp x (.squash firstBad), ?_⟩, ?_, ?_⟩
  · rw [tailAfter_append, ← h.tail]
    exact min_eq_clamp hgood (BitVec.le_refl _)
  · rw [hmap, hstages, List.map_append, moves_append, List.foldl_append]
    rfl
  · have hne : 0 < p.pipeline.length := by
      rw [hstages, List.length_append, List.length_singleton]
      omega
    rw [QPipe.squash]
    dsimp only
    rw [h.head, List.getD_eq_getElem?_getD, List.getD_eq_getElem?_getD, List.getElem?_map,
      List.getElem?_eq_getElem hne]
    rfl
  · have hsquash : (p.squash firstBad).pipeline ++ [(p.squash firstBad).tail] =
        (p.pipeline ++ [p.tail]).map fun t => minPointer t (firstBad - 1) := by
      rw [List.map_append]
      rfl
    rw [hsquash]
    exact h.sorted.map _ fun a b hab => minPointer_le_minPointer hab _

theorem Inv.step (hlength : 0 < length) (h : Inv length t es p) {e : Event} (hgood : HasGood p e)
    (hp : p.step e = some p') : Inv length t (es ++ [e]) p' := by
  cases e with
  | insertTail t' => exact h.insertTail hp
  | cycle =>
      obtain rfl := Option.some.inj hp
      exact h.cycle hlength
  | squash firstBad =>
      obtain rfl := Option.some.inj hp
      exact h.squash hgood

theorem Inv.run (hlength : 0 < length) (h : Inv length t es p) {fs : List Event}
    (hgood : Along QPipe.step HasGood p fs) (hp : EventSystem.run QPipe.step p fs = some p') :
    Inv length t (es ++ fs) p' := by
  induction fs generalizing es p with
  | nil =>
      obtain rfl := Option.some.inj hp
      rw [List.append_nil]
      exact h
  | cons e fs ih =>
      obtain ⟨p1, he, hrest⟩ := run_cons_eq_some.mp hp
      rw [List.append_cons]
      exact ih (h.step hlength hgood.1 he) (hgood.2 p1 he) hrest

theorem Inv.delayed (hlength : 0 < length) (h : Inv length t es p) : Delayed length t es p := by
  obtain ⟨x, hstages⟩ := h.stages
  have hlen := @DelayLine.length_run _ (List.replicate length t) (moves t es)
    (by rwa [List.length_replicate])
  rw [List.length_replicate] at hlen
  have hhead : p.head =
      (((moves t es).foldl DelayLine.step (List.replicate length t))[0]?).getD 0 := by
    rw [h.head, hstages, List.getD_eq_getElem?_getD, List.getElem?_append_left (by omega)]
  refine ⟨fun before after hes hadvances => ?_, fun hfresh => ?_, ?_⟩
  · rw [hhead, hes, moves_append, moves, DelayLine.getElem?_run_shift, Option.getD_some,
      rewritten_moves]
    rw [List.length_replicate, moves_shifts]
    omega
  · rw [hhead, DelayLine.getElem?_run (by rw [List.length_replicate, moves_shifts]; omega),
      List.getElem?_replicate, if_pos (by rw [moves_shifts]; omega), Option.map_some,
      Option.getD_some, rewritten_moves]
  · have hsorted := h.sorted
    cases hpipeline : p.pipeline with
    | nil =>
        rw [hpipeline] at hstages
        exact absurd hstages.symm (by simp)
    | cons a rest =>
        have hhead := h.head
        rw [hpipeline] at hsorted hhead
        obtain rfl : p.head = a := hhead
        refine List.pairwise_cons.mpr ⟨fun y hy => ?_, hsorted⟩
        rcases List.mem_cons.mp hy with rfl | hy
        · exact BitVec.le_refl _
        · exact (List.pairwise_cons.mp hsorted).1 y hy

/-- Runs whose squashes have a good uop to go back to. -/
theorem head_delayed (hlength : 0 < length) (t : QPointer) {es : List Event}
    (hgood : Along QPipe.step HasGood (configure length t) es)
    (hp : EventSystem.run QPipe.step (configure length t) es = some p) :
    Delayed length t es p :=
  (Inv.run hlength (Inv.configure length t) hgood hp).delayed hlength

theorem head_delayed_squash : Delayed 2 0 [.insertTail 5, .cycle, .squash 4, .cycle]
    { head := 3, tail := 3, pipeline := [3, 3, 3] } :=
  head_delayed (by decide) 0 (by decide) (by rfl)

/-- After a squash of everything, the head still shows uops. -/
theorem squash_all_exposed : ∃ p,
    EventSystem.run QPipe.step (configure 1 0) [.insertTail 5, .cycle, .squash 0] = some p ∧
      ¬ Delayed 1 0 [.insertTail 5, .cycle, .squash 0] p := by
  refine ⟨_, rfl, fun h => ?_⟩
  have hhead := h.exposed [.insertTail 5] [.squash 0] rfl rfl
  revert hhead
  decide

end QPipe
end FeS2.Pyrite
