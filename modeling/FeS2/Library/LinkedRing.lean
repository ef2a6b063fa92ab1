import Mathlib.Data.List.Induction
import Mathlib.Data.List.Nodup
import Mathlib.Logic.Function.Basic

/-!
Intrusive circular doubly-linked lists. Each node holds a pointer to the next and one
to the previous node; a ring is a list of distinct nodes reached from its head, closed
in both directions. A ring with `none` for its head is a list that ends in null pointers.
-/

namespace LinkedRing
universe u
variable {α : Type u}

@[ext] structure Links (α : Type u) where
  next : α → α
  prev : α → α

/-- The nodes `xs` lead from `x` to `y`. -/
def Segment (l : Links α) : α → List α → α → Prop
  | x, [], y => l.next x = y ∧ l.prev y = x
  | x, z :: zs, y => (l.next x = z ∧ l.prev z = x) ∧ Segment l z zs y

structure IsRing (l : Links α) (head : α) (xs : List α) : Prop where
  nodup : (head :: xs).Nodup
  closed : Segment l head xs head

/-- The node is in no ring but its own. -/
def Links.Alone (l : Links α) (x : α) : Prop := l.next x = x ∧ l.prev x = x

theorem isRing_nil {l : Links α} {x : α} : IsRing l x [] ↔ l.Alone x :=
  ⟨fun h => h.closed, fun h => ⟨List.nodup_singleton x, h⟩⟩

namespace Segment
variable {l l' : Links α} {x y z : α} {xs ys : List α}

theorem append : Segment l x (xs ++ z :: ys) y ↔ Segment l x xs z ∧ Segment l z ys y := by
  induction xs generalizing x with
  | nil => exact Iff.rfl
  | cons w xs ih =>
      exact (and_congr_right fun _ => ih).trans and_assoc.symm

theorem frame (h : Segment l x xs y) (hnext : ∀ z ∈ x :: xs, l'.next z = l.next z)
    (hprev : ∀ z ∈ xs ++ [y], l'.prev z = l.prev z) : Segment l' x xs y := by
  induction xs generalizing x with
  | nil =>
      exact ⟨(hnext x List.mem_cons_self).trans h.1, (hprev y List.mem_cons_self).trans h.2⟩
  | cons z xs ih =>
      refine ⟨⟨(hnext x List.mem_cons_self).trans h.1.1,
        (hprev z List.mem_cons_self).trans h.1.2⟩, ?_⟩
      exact ih h.2 (fun w hw => hnext w (List.mem_cons_of_mem x hw))
        (fun w hw => hprev w (List.mem_cons_of_mem z hw))

theorem next_eq (h : Segment l x xs y) : (xs ++ [y]).head? = some (l.next x) := by
  cases xs with
  | nil => exact congrArg some h.1.symm
  | cons z xs => exact congrArg some h.1.1.symm

/-- The same nodes, entered from another one. -/
theorem reenter (h : Segment l x xs y) (hnext : ∀ z ∈ xs, l'.next z = l.next z)
    (hprev : ∀ z ∈ (xs ++ [y]).tail, l'.prev z = l.prev z)
    (henter : l'.next z = l.next x) (hback : l'.prev (l.next x) = z) : Segment l' z xs y := by
  cases xs with
  | nil =>
      rw [h.1] at henter hback
      exact ⟨henter, hback⟩
  | cons w xs =>
      rw [h.1.1] at henter hback
      exact ⟨⟨henter, hback⟩, h.2.frame hnext hprev⟩

theorem next_notMem_tail (h : Segment l x xs y)
    (hnodup : (xs ++ [y]).Nodup) : l.next x ∉ (xs ++ [y]).tail := by
  cases xs with
  | nil => exact List.not_mem_nil
  | cons z xs =>
      rw [h.1.1]
      exact (List.nodup_cons.mp hnodup).1

theorem next_mem (h : Segment l x xs y) : l.next x ∈ xs ++ [y] :=
  List.mem_of_head? h.next_eq

end Segment

namespace IsRing
variable {l l' : Links α} {head x p w : α} {xs ys as bs : List α}

theorem frame (h : IsRing l head xs) (hnext : ∀ z ∈ head :: xs, l'.next z = l.next z)
    (hprev : ∀ z ∈ head :: xs, l'.prev z = l.prev z) : IsRing l' head xs := by
  refine ⟨h.nodup, h.closed.frame hnext fun z hz => hprev z ?_⟩
  exact List.perm_append_comm.mem_iff.mp hz

theorem next_head (h : IsRing l head (x :: xs)) : l.next head = x := h.closed.1.1

theorem next_eq_head (h : IsRing l head xs) : l.next head = head ↔ xs = [] := by
  cases xs with
  | nil => exact iff_of_true h.closed.1 rfl
  | cons x xs =>
      refine iff_of_false (fun heq => ?_) (List.cons_ne_nil x xs)
      rw [h.next_head] at heq
      exact (List.nodup_cons.mp h.nodup).1 (heq ▸ List.mem_cons_self)

theorem alone_head (h : IsRing l head xs) : l.Alone head ↔ xs = [] := by
  constructor
  · intro halone
    exact h.next_eq_head.mp halone.1
  · rintro rfl
    exact isRing_nil.mp h

/-- What is behind a node of the ring; `as` leads to it from the head. -/
theorem segment_from (h : IsRing l head (as ++ xs)) :
    Segment l (as.getLastD head) xs head := by
  cases as using List.reverseRecOn with
  | nil => exact h.closed
  | append_singleton as a =>
      have hseg := h.closed
      rw [List.append_assoc] at hseg
      rw [List.getLastD_concat]
      exact (Segment.append.mp hseg).2

theorem prev_head (h : IsRing l head as) : l.prev head = as.getLastD head := by
  rw [← List.append_nil as] at h
  exact h.segment_from.2

theorem next_prev_head (h : IsRing l head as) : l.next (l.prev head) = head := by
  have hnext := h.prev_head
  rw [← List.append_nil as] at h
  rw [hnext]
  exact h.segment_from.1

/-- What is behind a node of the ring may be exchanged. -/
theorem splice (h : IsRing l head (as ++ xs)) (hnodup : (head :: as ++ ys).Nodup)
    (hnext : ∀ z ∈ head :: as, z ≠ as.getLastD head → l'.next z = l.next z)
    (hprev : ∀ z ∈ as, l'.prev z = l.prev z) (hys : Segment l' (as.getLastD head) ys head) :
    IsRing l' head (as ++ ys) := by
  refine ⟨hnodup, ?_⟩
  cases as using List.reverseRecOn with
  | nil => exact hys
  | append_singleton as a =>
      have hseg := h.closed
      rw [List.append_assoc] at hseg
      rw [List.getLastD_concat] at hnext hys
      rw [List.append_assoc]
      refine Segment.append.mpr ⟨(Segment.append.mp hseg).1.frame ?_ hprev, hys⟩
      intro z hz
      refine hnext z ?_ ?_
      · rcases List.mem_cons.mp hz with rfl | hz
        · exact List.mem_cons_self
        · exact List.mem_cons_of_mem _ (List.mem_append_left _ hz)
      · rintro rfl
        rw [← List.cons_append, List.append_assoc, List.nodup_append] at hnodup
        exact hnodup.2.2 z hz z List.mem_cons_self rfl

theorem nodup_rest (h : IsRing l head (as ++ bs)) : (bs ++ [head]).Nodup := by
  have hnodup := h.nodup
  rw [List.nodup_cons, List.mem_append, List.nodup_append] at hnodup
  rw [List.nodup_append]
  refine ⟨hnodup.2.2.1, List.nodup_singleton head, fun a ha b hb hab => ?_⟩
  exact hnodup.1 (.inr ((List.mem_singleton.mp hb) ▸ hab ▸ ha))

theorem before_notMem (h : IsRing l head (as ++ bs)) {a : α} (ha : a ∈ head :: as) : a ∉ bs := by
  have hnodup := h.nodup
  rw [← List.cons_append, List.nodup_append] at hnodup
  exact fun hb => hnodup.2.2 a ha a hb rfl

theorem inner_notMem (h : IsRing l head (as ++ bs)) {a : α} (ha : a ∈ as) : a ∉ bs ++ [head] := by
  rw [List.mem_append, List.mem_singleton, not_or]
  refine ⟨h.before_notMem (List.mem_cons_of_mem head ha), ?_⟩
  rintro rfl
  exact (List.nodup_cons.mp h.nodup).1 (List.mem_append_left bs ha)

theorem last_mem (head : α) (as : List α) : as.getLastD head ∈ head :: as := by
  cases as using List.reverseRecOn with
  | nil => exact List.mem_cons_self
  | append_singleton as a => simp

theorem prev_mem (h : IsRing l head (as ++ x :: bs)) : l.prev x = as.getLastD head :=
  h.segment_from.1.2

/-- A node of a ring other than its head is not alone. -/
theorem not_alone (h : IsRing l head (as ++ x :: bs)) : ¬ l.Alone x := by
  intro halone
  have hprev := h.prev_mem
  rw [halone.2] at hprev
  exact h.before_notMem (last_mem head as) (hprev ▸ List.mem_cons_self)

end IsRing

variable [DecidableEq α]

namespace Links

instance (l : Links α) (x : α) : Decidable (l.Alone x) :=
  inferInstanceAs (Decidable (_ ∧ _))

def setNext (l : Links α) (x y : α) : Links α := { l with next := Function.update l.next x y }

def setPrev (l : Links α) (x y : α) : Links α := { l with prev := Function.update l.prev x y }

/-- Puts `w` after `p`. -/
def insertAfter (l : Links α) (w p : α) : Links α :=
  (((l.setNext w (l.next p)).setPrev w p).setNext p w).setPrev (l.next p) w

/-- Makes the neighbours of `x` point past it. -/
def unlink (l : Links α) (x : α) : Links α :=
  (l.setPrev (l.next x) (l.prev x)).setNext (l.prev x) (l.next x)

/-- Takes `x` out and leaves it alone. -/
def detach (l : Links α) (x : α) : Links α := ((l.unlink x).setNext x x).setPrev x x

variable (l : Links α) (w p x z : α)

theorem insertAfter_next : (l.insertAfter w p).next z =
    if z = p then w else if z = w then l.next p else l.next z := by
  simp only [insertAfter, setNext, setPrev, Function.update_apply]

theorem insertAfter_prev : (l.insertAfter w p).prev z =
    if z = l.next p then w else if z = w then p else l.prev z := by
  simp only [insertAfter, setNext, setPrev, Function.update_apply]

theorem unlink_next : (l.unlink x).next z = if z = l.prev x then l.next x else l.next z :=
  Function.update_apply l.next (l.prev x) (l.next x) z

theorem unlink_prev : (l.unlink x).prev z = if z = l.next x then l.prev x else l.prev z :=
  Function.update_apply l.prev (l.next x) (l.prev x) z

theorem detach_next : (l.detach x).next z = if z = x then x else (l.unlink x).next z :=
  Function.update_apply (l.unlink x).next x x z

theorem detach_alone : (l.detach x).Alone x := by
  constructor
  · exact Function.update_self x x (l.unlink x).next
  · exact Function.update_self x x (l.unlink x).prev

theorem detach_of_alone (h : l.Alone x) : l.detach x = l := by
  simp only [detach, unlink, setNext, setPrev, h.1, h.2]
  have hnext : Function.update l.next x x = l.next := Function.update_eq_self_iff.mpr h.1.symm
  have hprev : Function.update l.prev x x = l.prev := Function.update_eq_self_iff.mpr h.2.symm
  simp only [hnext, hprev]

theorem detach_prev : (l.detach x).prev z = if z = x then x else (l.unlink x).prev z :=
  Function.update_apply (l.unlink x).prev x x z

end Links

namespace IsRing
variable {l : Links α} {head x w : α} {xs as bs : List α}

theorem insertAfter (h : IsRing l head (as ++ bs)) (hw : w ∉ head :: (as ++ bs)) :
    IsRing (l.insertAfter w (as.getLastD head)) head (as ++ w :: bs) := by
  have hseg := h.segment_from
  have hlast := last_mem head as
  have hnext := hseg.next_mem
  have htail := hseg.next_notMem_tail h.nodup_rest
  have hne : ∀ z ∈ head :: (as ++ bs), z ≠ w := fun z hz heq => hw (heq ▸ hz)
  have hrest : ∀ z ∈ bs ++ [head], z ≠ w := fun z hz => hne z <| by
    rcases List.mem_append.mp hz with hz | hz
    · exact List.mem_cons_of_mem head (List.mem_append_right as hz)
    · exact List.mem_singleton.mp hz ▸ List.mem_cons_self
  have hnodup : (head :: as ++ w :: bs).Nodup :=
    List.nodup_middle.mpr (List.nodup_cons.mpr ⟨hw, h.nodup⟩)
  have hbefore : as.getLastD head ∉ bs := h.before_notMem hlast
  refine h.splice hnodup (fun z hz hzp => ?_) (fun z hz => ?_) ⟨⟨?_, ?_⟩, ?_⟩
  · rw [Links.insertAfter_next, if_neg hzp, if_neg (hne z (List.mem_append_left bs hz))]
  · rw [Links.insertAfter_prev, if_neg (ne_of_mem_of_not_mem hnext (h.inner_notMem hz)).symm,
      if_neg (hne z (List.mem_cons_of_mem head (List.mem_append_left bs hz)))]
  · rw [Links.insertAfter_next, if_pos rfl]
  · rw [Links.insertAfter_prev, if_neg (hrest _ hnext).symm, if_pos rfl]
  · refine hseg.reenter (fun z hz => ?_) (fun z hz => ?_) ?_ ?_
    · rw [Links.insertAfter_next, if_neg (ne_of_mem_of_not_mem hz hbefore),
        if_neg (hrest z (List.mem_append_left [head] hz))]
    · rw [Links.insertAfter_prev, if_neg (ne_of_mem_of_not_mem hz htail),
        if_neg (hrest z (List.mem_of_mem_tail hz))]
    · rw [Links.insertAfter_next, if_neg (hne _ (List.mem_append_left bs hlast)).symm, if_pos rfl]
    · rw [Links.insertAfter_prev, if_pos rfl]

theorem unlink (h : IsRing l head (as ++ x :: bs)) : IsRing (l.unlink x) head (as ++ bs) := by
  have hseg := h.segment_from.2
  have hprev := h.prev_mem
  have hnext := hseg.next_mem
  rw [List.append_cons] at h
  have htail := hseg.next_notMem_tail h.nodup_rest
  have hnodup : (head :: as ++ bs).Nodup := 
    h.nodup.sublist (by simp)
  rw [List.append_assoc] at h
  refine h.splice hnodup (fun z hz hzp => ?_) (fun z hz => ?_) ?_
  · rw [Links.unlink_next, hprev, if_neg hzp]
  · rw [Links.unlink_prev, if_neg]
    rintro rfl
    exact h.inner_notMem hz (List.mem_cons_of_mem x hnext)
  · refine hseg.reenter (fun z hz => ?_) (fun z hz => ?_) ?_ ?_
    · rw [Links.unlink_next, hprev, if_neg]
      rintro rfl
      exact h.before_notMem (last_mem head as) (List.mem_cons_of_mem x hz)
    · rw [Links.unlink_prev, if_neg (ne_of_mem_of_not_mem hz htail)]
    · rw [Links.unlink_next, hprev, if_pos rfl]
    · rw [Links.unlink_prev, hprev, if_pos rfl]

end IsRing

/-- Rings that share no node: `members` gives the nodes behind each head. -/
structure Rings (l : Links α) (members : α → Option (List α)) : Prop where
  ring : ∀ {head xs}, members head = some xs → IsRing l head xs
  apart : ∀ {head xs head' xs'}, members head = some xs → members head' = some xs' →
    head ≠ head' → List.Disjoint (head :: xs) (head' :: xs')

namespace Rings
variable {l : Links α} {members : α → Option (List α)} {head x w : α} {xs as bs : List α}

/-- Puts a node that is alone behind those of `as`. -/
theorem insertAfter (h : Rings l members) (hhead : members head = some (as ++ bs))
    (hw : members w = some []) (hne : w ≠ head) :
    Rings (l.insertAfter w (as.getLastD head))
      (Function.update (Function.update members w none) head (some (as ++ w :: bs))) := by
  have hring := h.ring hhead
  have hnotMem : w ∉ head :: (as ++ bs) := fun hmem =>
    h.apart hw hhead hne List.mem_cons_self hmem
  have hwith : ∀ z, z ∉ head :: (as ++ w :: bs) → z ∉ head :: (as ++ bs) ∧ z ≠ w := by
    intro z hz
    simp only [List.mem_cons, List.mem_append, not_or] at hz ⊢
    exact ⟨⟨hz.1, hz.2.1, hz.2.2.2⟩, hz.2.2.1⟩
  have hother : ∀ {y ys}, Function.update (Function.update members w none) head
      (some (as ++ w :: bs)) y = some ys → y ≠ head → members y = some ys ∧ y ≠ w := by
    intro y ys hy hyh
    rw [Function.update_of_ne hyh, Function.update_apply] at hy
    split at hy
    · cases hy
    · exact ⟨hy, ‹_›⟩
  have hapart : ∀ {y ys}, Function.update (Function.update members w none) head
      (some (as ++ w :: bs)) y = some ys → y ≠ head → ∀ z ∈ y :: ys,
        z ∉ head :: (as ++ w :: bs) := by
    intro y ys hy hyh z hz hmem
    have hy' := hother hy hyh
    by_cases hzw : z = w
    · exact h.apart hy'.1 hw hy'.2 hz (hzw ▸ List.mem_cons_self)
    · refine h.apart hy'.1 hhead hyh hz ?_
      simp only [List.mem_cons, List.mem_append] at hmem ⊢
      tauto
  constructor
  · intro y ys hy
    by_cases hyh : y = head
    · subst hyh
      rw [Function.update_self] at hy
      obtain rfl := Option.some.inj hy
      exact hring.insertAfter hnotMem
    · have hz := hapart hy hyh
      have hlast : as.getLastD head ∈ head :: (as ++ bs) :=
        List.mem_append_left bs (IsRing.last_mem head as)
      have hnext : l.next (as.getLastD head) ∈ head :: (as ++ bs) := by
        have hmem := hring.segment_from.next_mem
        rw [List.mem_append, List.mem_singleton] at hmem
        rw [List.mem_cons, List.mem_append]
        exact hmem.elim (fun hb => .inr (.inr hb)) .inl
      refine (h.ring (hother hy hyh).1).frame (fun z hzy => ?_) (fun z hzy => ?_)
      · have hzm := hwith z (hz z hzy)
        rw [Links.insertAfter_next, if_neg (ne_of_mem_of_not_mem hlast hzm.1).symm, if_neg hzm.2]
      · have hzm := hwith z (hz z hzy)
        rw [Links.insertAfter_prev, if_neg (ne_of_mem_of_not_mem hnext hzm.1).symm, if_neg hzm.2]
  · intro y ys y' ys' hy hy' hyy' z hz hz'
    by_cases hyh : y = head
    · subst hyh
      rw [Function.update_self] at hy
      obtain rfl := Option.some.inj hy
      exact hapart hy' hyy'.symm z hz' hz
    · by_cases hyh' : y' = head
      · subst hyh'
        rw [Function.update_self] at hy'
        obtain rfl := Option.some.inj hy'
        exact hapart hy hyy' z hz hz'
      · exact h.apart (hother hy hyh).1 (hother hy' hyh').1 hyy' hz hz'

/-- Puts a node that is alone at the end of a ring. -/
theorem insertLast (h : Rings l members) (hhead : members head = some xs)
    (hw : members w = some []) (hne : w ≠ head) :
    Rings (l.insertAfter w (l.prev head))
      (Function.update (Function.update members w none) head (some (xs ++ [w]))) := by
  rw [(h.ring hhead).prev_head]
  rw [← List.append_nil xs] at hhead
  exact h.insertAfter hhead hw hne

/-- The pointers that an insertion at the end of a ring passes through. -/
theorem insertLast_links (h : Rings l members) (hhead : members head = some xs)
    (hw : members w = some []) (hne : w ≠ head) :
    l.Alone w ∧ ((l.setNext w head).setPrev w (l.prev head)).prev head = l.prev head ∧
      ((l.setNext w head).setPrev w (l.prev head)).next (l.prev head) = head ∧
      (((l.setNext w head).setPrev w (l.prev head)).setNext (l.prev head) w).setPrev head w =
        l.insertAfter w (l.prev head) := by
  have hring := h.ring hhead
  have hlast : l.prev head ∈ head :: xs := hring.prev_head ▸ IsRing.last_mem head xs
  have hprev : l.prev head ≠ w := fun heq =>
    h.apart hhead hw hne.symm (heq ▸ hlast) List.mem_cons_self
  have hnext := hring.next_prev_head
  refine ⟨isRing_nil.mp (h.ring hw), Function.update_of_ne hne.symm _ _,
    (Function.update_of_ne hprev _ _).trans hnext, ?_⟩
  rw [Links.insertAfter, hnext]

theorem detach (h : Rings l members) (hhead : members head = some (as ++ x :: bs)) :
    Rings (l.detach x)
      (Function.update (Function.update members head (some (as ++ bs))) x (some [])) := by
  have hring := h.ring hhead
  have hnotMem : x ∉ head :: (as ++ bs) :=
    (List.nodup_cons.mp ((@List.nodup_middle α x (head :: as) bs).mp hring.nodup)).1
  have hrest : ∀ z ∈ head :: (as ++ bs), z ∈ head :: (as ++ x :: bs) := fun z hz =>
    (@List.perm_middle α x (head :: as) bs).mem_iff.mpr (List.mem_cons_of_mem x hz)
  have hxmem : x ∈ head :: (as ++ x :: bs) :=
    List.mem_cons_of_mem head (List.mem_append_right as List.mem_cons_self)
  have hother : ∀ {y ys}, Function.update (Function.update members head (some (as ++ bs))) x
      (some []) y = some ys → y ≠ x → y ≠ head → members y = some ys := by
    intro y ys hy hyx hyh
    rwa [Function.update_of_ne hyx, Function.update_of_ne hyh] at hy
  constructor
  · intro y ys hy
    by_cases hyx : y = x
    · subst hyx
      rw [Function.update_self] at hy
      obtain rfl := Option.some.inj hy
      exact isRing_nil.mpr (l.detach_alone y)
    · by_cases hyh : y = head
      · subst hyh
        rw [Function.update_of_ne hyx, Function.update_self] at hy
        obtain rfl := Option.some.inj hy
        refine hring.unlink.frame (fun z hz => ?_) (fun z hz => ?_)
        · rw [Links.detach_next, if_neg (ne_of_mem_of_not_mem hz hnotMem)]
        · rw [Links.detach_prev, if_neg (ne_of_mem_of_not_mem hz hnotMem)]
      · have hy' := hother hy hyx hyh
        have hz : ∀ z ∈ y :: ys, z ∉ head :: (as ++ x :: bs) := h.apart hy' hhead hyh
        refine (h.ring hy').frame (fun z hzy => ?_) (fun z hzy => ?_)
        · rw [Links.detach_next, if_neg (ne_of_mem_of_not_mem hxmem (hz z hzy)).symm,
            Links.unlink_next, if_neg (ne_of_mem_of_not_mem ?_ (hz z hzy)).symm]
          rw [hring.prev_mem, ← List.cons_append]
          exact List.mem_append_left _ (IsRing.last_mem head as)
        · rw [Links.detach_prev, if_neg (ne_of_mem_of_not_mem hxmem (hz z hzy)).symm,
            Links.unlink_prev, if_neg (ne_of_mem_of_not_mem ?_ (hz z hzy)).symm]
          refine hrest _ ?_
          have hnext := hring.segment_from.2.next_mem
          rw [List.mem_append, List.mem_singleton] at hnext
          rw [List.mem_cons, List.mem_append]
          tauto
  · have hshrink : ∀ {y ys}, Function.update (Function.update members head (some (as ++ bs))) x
        (some []) y = some ys → y ≠ x → x ∉ y :: ys ∧
          ∃ old, members y = some old ∧ ∀ z ∈ y :: ys, z ∈ y :: old := by
      intro y ys hy hyx
      by_cases hyh : y = head
      · subst hyh
        rw [Function.update_of_ne hyx, Function.update_self] at hy
        obtain rfl := Option.some.inj hy
        exact ⟨hnotMem, _, hhead, hrest⟩
      · have hy' := hother hy hyx hyh
        exact ⟨fun hmem => h.apart hy' hhead hyh hmem hxmem, ys, hy', fun z hz => hz⟩
    intro y ys y' ys' hy hy' hyy' z hz hz'
    by_cases hyx : y = x
    · subst hyx
      rw [Function.update_self] at hy
      obtain rfl := Option.some.inj hy
      obtain rfl := List.mem_singleton.mp hz
      exact (hshrink hy' hyy'.symm).1 hz'
    · by_cases hyx' : y' = x
      · subst hyx'
        rw [Function.update_self] at hy'
        obtain rfl := Option.some.inj hy'
        obtain rfl := List.mem_singleton.mp hz'
        exact (hshrink hy hyx).1 hz
      · obtain ⟨-, old, hold, hsub⟩ := hshrink hy hyx
        obtain ⟨-, old', hold', hsub'⟩ := hshrink hy' hyx'
        exact h.apart hold hold' hyy' (hsub z hz) (hsub' z hz')

end Rings
end LinkedRing
