import FeS2.Pyrite.WaitList

/-!
Every run of the wait lists keeps them linked and in order. A waiter that is in a list when
`wakeupAll` is called leaves it once for each time that it came: woken, or detached by a wake-up.
-/

namespace FeS2.Pyrite.Waiting
open EventSystem LinkedRing StableQueue

/-! The lists as rings -/

open Classical in
/-- The rings of the lists, and of the waiters that are in none. -/
noncomputable def members (contents : ListId → List Waiter) : Node → Option (List Node)
  | .list l => some ((contents l).map .waiter)
  | .waiter w => if ∃ l, w ∈ contents l then none else some []

theorem members_waiter {contents : ListId → List Waiter} {w : Waiter}
    (h : ∀ l, w ∉ contents l) : members contents (.waiter w) = some [] :=
  if_neg fun ⟨l, hl⟩ => h l hl

open Classical in
theorem members_insert {contents : ListId → List Waiter} {l : ListId} {w : Waiter}
    {as bs : List Waiter} (hsplit : contents l = as ++ bs) :
    members (Function.update contents l (as ++ w :: bs)) =
      Function.update (Function.update (members contents) (.waiter w) none) (.list l)
        (some (as.map .waiter ++ .waiter w :: bs.map .waiter)) := by
  funext x
  cases x with
  | list l' =>
      by_cases hl : l' = l
      · rw [hl, Function.update_self, members, Function.update_self, List.map_append, List.map_cons]
      · have hne : Node.list l' ≠ .list l := fun h => hl (Node.list.inj h)
        have hne' : Node.list l' ≠ .waiter w := nofun
        rw [Function.update_of_ne hne, Function.update_of_ne hne', members, members,
          Function.update_of_ne hl]
  | waiter x =>
      have hne : Node.waiter x ≠ .list l := nofun
      rw [Function.update_of_ne hne]
      by_cases hx : x = w
      · rw [hx, Function.update_self, members]
        refine if_pos ⟨l, ?_⟩
        rw [Function.update_self]
        exact List.mem_append_right as List.mem_cons_self
      · have hne' : Node.waiter x ≠ .waiter w := fun h => hx (Node.waiter.inj h)
        rw [Function.update_of_ne hne', members, members]
        have hiff : (∃ l', x ∈ Function.update contents l (as ++ w :: bs) l') ↔
            ∃ l', x ∈ contents l' := by
          refine exists_congr fun l' => ?_
          by_cases hl : l' = l
          · rw [hl, Function.update_self, hsplit, List.mem_append, List.mem_append, List.mem_cons,
              or_iff_right (b := x ∈ bs) hx]
          · rw [Function.update_of_ne hl]
        rw [if_congr hiff rfl rfl]

open Classical in
theorem members_remove {contents : ListId → List Waiter} {l : ListId} {w : Waiter}
    {as bs : List Waiter} (hsplit : contents l = as ++ w :: bs) (hw : w ∉ as ++ bs)
    (hother : ∀ l', l' ≠ l → w ∉ contents l') :
    members (Function.update contents l (as ++ bs)) =
      Function.update (Function.update (members contents) (.list l)
        (some (as.map .waiter ++ bs.map .waiter))) (.waiter w) (some []) := by
  funext x
  cases x with
  | list l' =>
      have hne' : Node.list l' ≠ .waiter w := nofun
      rw [Function.update_of_ne hne']
      by_cases hl : l' = l
      · rw [hl, Function.update_self, members, Function.update_self, List.map_append]
      · have hne : Node.list l' ≠ .list l := fun h => hl (Node.list.inj h)
        rw [Function.update_of_ne hne, members, members, Function.update_of_ne hl]
  | waiter x =>
      by_cases hx : x = w
      · rw [hx, Function.update_self]
        refine members_waiter fun l' => ?_
        by_cases hl : l' = l
        · rwa [hl, Function.update_self]
        · rw [Function.update_of_ne hl]
          exact hother l' hl
      · have hne' : Node.waiter x ≠ .waiter w := fun h => hx (Node.waiter.inj h)
        have hne : Node.waiter x ≠ .list l := nofun
        rw [Function.update_of_ne hne', Function.update_of_ne hne, members, members]
        have hiff : (∃ l', x ∈ Function.update contents l (as ++ bs) l') ↔
            ∃ l', x ∈ contents l' := by
          refine exists_congr fun l' => ?_
          by_cases hl : l' = l
          · rw [hl, Function.update_self, hsplit, List.mem_append, List.mem_append, List.mem_cons,
              or_iff_right (b := x ∈ bs) hx]
          · rw [Function.update_of_ne hl]
        rw [if_congr hiff rfl rfl]

/-! Insertion -/

theorem insertWaiter_eq {l : Links Node} {members : Node → Option (List Node)} {list w : Node}
    {xs : List Node} (h : Rings l members) (hlist : members list = some xs)
    (hw : members w = some []) (hne : w ≠ list) :
    insertWaiter list w l = some (l.insertAfter w (xs.getLastD list)) := by
  obtain ⟨halone, hprev, hnext, hlinks⟩ := h.insertLast_links hlist hw hne
  rw [insertWaiter, if_pos halone]
  dsimp only
  rw [hprev, if_pos hnext, hlinks, (h.ring hlist).prev_head]

theorem insert_eq {l : Links Node} {members : Node → Option (List Node)} {list w : Node}
    {as bs : List Node} (h : Rings l members) (hlist : members list = some (as ++ bs))
    (hw : members w = some []) (hne : w ≠ list) :
    insert (as.getLastD list) w l = some (l.insertAfter w (as.getLastD list)) := by
  have hring := h.ring hlist
  have hseg := hring.segment_from
  have hback : l.prev (l.next (as.getLastD list)) = as.getLastD list := by
    cases bs with
    | nil => rw [hseg.1, hseg.2]
    | cons b bs => rw [hseg.1.1, hseg.1.2]
  have hnext : l.next (as.getLastD list) ≠ w := by
    intro heq
    have hmem := hseg.next_mem
    rw [heq, List.mem_append, List.mem_singleton] at hmem
    have hin : w ∈ list :: (as ++ bs) := by
      cases hmem with
      | inl hb => exact List.mem_cons_of_mem list (List.mem_append_right as hb)
      | inr heq => exact absurd heq hne
    exact h.apart hlist hw hne.symm hin List.mem_cons_self
  have hsetNext : ((l.setNext w (l.next (as.getLastD list))).setPrev w (as.getLastD list)).next w =
      l.next (as.getLastD list) := Function.update_self _ _ _
  have hsetPrev : ((l.setNext w (l.next (as.getLastD list))).setPrev w
      (as.getLastD list)).prev (l.next (as.getLastD list)) = as.getLastD list :=
    (Function.update_of_ne hnext _ _).trans hback
  rw [insert, hsetNext, if_pos hsetPrev, Links.insertAfter]

/-- The walk passes the waiters of greater priority. -/
theorem findSpot_eq (priority : Waiter → BitVec 64) {l : Links Node} {id : ListId} {w : Waiter}
    {as bs : List Waiter} {fuel : Nat}
    (hring : IsRing l (.list id) ((as ++ bs).map Node.waiter))
    (hsorted : as.Pairwise fun x y => (priority x).toNat ≤ (priority y).toNat)
    (hbs : ∀ x ∈ bs, (priority w).toNat < (priority x).toNat) (hfuel : as.length < fuel) :
    ∃ as' bs', as ++ bs = as' ++ bs' ∧ (∀ x ∈ as', (priority x).toNat ≤ (priority w).toNat) ∧
      (∀ x ∈ bs', (priority w).toNat < (priority x).toNat) ∧
      findSpot priority (.list id) (.waiter w) l fuel ((as.map Node.waiter).getLastD (.list id)) =
        some ((as'.map Node.waiter).getLastD (.list id)) := by
  induction as using List.reverseRecOn generalizing bs fuel with
  | nil =>
      cases fuel with
      | zero => cases hfuel
      | succ fuel => exact ⟨[], bs, rfl, nofun, hbs, if_pos rfl⟩
  | append_singleton as a ih =>
      rw [List.length_append, List.length_singleton] at hfuel
      cases fuel with
      | zero => cases hfuel
      | succ fuel =>
          have hpairs := List.pairwise_append.mp hsorted
          have hlast : ((as ++ [a]).map Node.waiter).getLastD (.list id) = .waiter a := by
            rw [List.map_append, List.map_singleton, List.getLastD_concat]
          rw [hlast, findSpot, if_neg (by rintro ⟨⟩), priorityOf, priorityOf]
          by_cases hle : priority a ≤ priority w
          · rw [if_pos hle]
            refine ⟨as ++ [a], bs, rfl, fun x hx => ?_, hbs, by rw [hlast]⟩
            have hle' : (priority a).toNat ≤ (priority w).toNat := hle
            rw [List.mem_append, List.mem_singleton] at hx
            cases hx with
            | inl hx => exact Nat.le_trans (hpairs.2.2 x hx a List.mem_cons_self) hle'
            | inr hx => exact hx ▸ hle'
          · have hlt : (priority w).toNat < (priority a).toNat := Nat.lt_of_not_le hle
            rw [List.append_assoc, List.singleton_append] at hring ⊢
            have hring' := hring
            rw [List.map_append, List.map_cons] at hring'
            rw [if_neg hle, hring'.prev_mem]
            exact ih hring hpairs.1 (List.forall_mem_cons.mpr ⟨hlt, hbs⟩)
              (Nat.lt_of_succ_lt_succ hfuel)

/-! What a state shows -/

/-- Where all waiters have one priority, a list is in the order of arrival. -/
def keyOf (priority : Waiter → BitVec 64) : ListId → Waiter → Nat
  | .waitList _, _ => 0
  | .orderedWaitList _, w => (priority w).toNat

structure Shows (priority : Waiter → BitVec 64) (s : WaitLists) (before : Arrivals)
    (contents : ListId → List Waiter) : Prop where
  rings : Rings s.links (members contents)
  order : ∀ l, Stable (keyOf priority l) (before l) (contents l)
  length_le : ∀ l, (contents l).length ≤ s.insertions

namespace Shows
variable {priority : Waiter → BitVec 64} {s s' : WaitLists} {before : Arrivals}
  {contents : ListId → List Waiter} {l : ListId} {w : Waiter}

theorem ring (h : Shows priority s before contents) (l : ListId) :
    IsRing s.links (.list l) ((contents l).map .waiter) := h.rings.ring rfl

theorem nodup (h : Shows priority s before contents) (l : ListId) : (contents l).Nodup :=
  (List.nodup_cons.mp (h.ring l).nodup).2.of_map Node.waiter

theorem apart (h : Shows priority s before contents) {l l' : ListId} (hne : l ≠ l') :
    List.Disjoint (contents l) (contents l') := by
  intro w hw hw'
  have hnode : Node.list l ≠ .list l' := fun heq => hne (Node.list.inj heq)
  have hl : members contents (.list l) = some _ := rfl
  have hl' : members contents (.list l') = some _ := rfl
  exact h.rings.apart hl hl' hnode
    (List.mem_cons_of_mem _ (List.mem_map_of_mem hw))
    (List.mem_cons_of_mem _ (List.mem_map_of_mem hw'))

theorem alone (h : Shows priority s before contents) (hw : ∀ l, w ∉ contents l) :
    s.links.Alone (.waiter w) := isRing_nil.mp (h.rings.ring (members_waiter hw))

theorem not_alone (h : Shows priority s before contents) (hw : w ∈ contents l) :
    ¬ s.links.Alone (.waiter w) := by
  obtain ⟨as, bs, hsplit⟩ := List.append_of_mem hw
  have hring := h.ring l
  rw [hsplit, List.map_append, List.map_cons] at hring
  exact hring.not_alone

theorem mem_iff (h : Shows priority s before contents) : w ∈ contents l ↔ w ∈ before l :=
  (h.order l).mem_iff

theorem wellLinked (h : Shows priority s before contents) : s.WellLinked contents where
  ring := h.ring
  apart _ _ hne := h.apart hne
  alone _ hw := h.alone hw

theorem inOrder (h : Shows priority s before contents) : InOrder priority before contents where
  waitList n := (h.order (.waitList n)).eq_of_const (k := 0) fun _ => rfl
  orderedWaitList n := h.order (.orderedWaitList n)

/-- An insertion finds the place of the waiter. -/
theorem insertInto_eq (h : Shows priority s before contents) (hw : ∀ l, w ∉ contents l)
    (l : ListId) : ∃ as bs, contents l = as ++ bs ∧
      (∀ x ∈ as, keyOf priority l x ≤ keyOf priority l w) ∧
      (∀ x ∈ bs, keyOf priority l w < keyOf priority l x) ∧
      s.insertInto priority l w = some { s with
        links := s.links.insertAfter (.waiter w) ((as.map Node.waiter).getLastD (.list l))
        insertions := s.insertions + 1 } := by
  have hlist : members contents (.list l) = some ((contents l).map .waiter) := rfl
  have hnode : Node.waiter w ≠ .list l := nofun
  have hlast := insertWaiter_eq h.rings hlist (members_waiter hw) hnode
  cases l with
  | waitList n =>
      refine ⟨contents (.waitList n), [], (List.append_nil _).symm, fun _ _ => Nat.le_refl 0,
        nofun, ?_⟩
      rw [WaitLists.insertInto, hlast]
      rfl
  | orderedWaitList n =>
      have hring := h.ring (.orderedWaitList n)
      rw [WaitLists.insertInto, insertOrdered, if_pos (h.alone hw)]
      by_cases hnil : contents (.orderedWaitList n) = []
      · refine ⟨[], [], hnil, nofun, nofun, ?_⟩
        rw [if_pos (hring.alone_head.mpr (List.map_eq_nil_iff.mpr hnil)), hlast, hnil]
        rfl
      · have hsome : ¬ s.links.Alone (.list (.orderedWaitList n)) := fun halone =>
          hnil (List.map_eq_nil_iff.mp (hring.alone_head.mp halone))
        rw [← List.append_nil (contents _)] at hring
        obtain ⟨as, bs, hsplit, has, hbs, hspot⟩ := findSpot_eq priority (w := w) hring
          (h.order (.orderedWaitList n)).sorted nofun (Nat.lt_succ_of_le (h.length_le _))
        rw [List.append_nil] at hsplit hring
        rw [hsplit, List.map_append] at hlist
        refine ⟨as, bs, hsplit, has, hbs, ?_⟩
        rw [if_neg hsome, hring.prev_head, hspot, Option.bind_some,
          insert_eq h.rings hlist (members_waiter hw) hnode]
        rfl

theorem insert (h : Shows priority s before contents) (hs : s.insertInto priority l w = some s') :
    (∀ l, w ∉ contents l) ∧
      ∃ contents', Shows priority s' (arrive before (.insert l w)) contents' := by
  have halone : s.links.Alone (.waiter w) := by
    obtain ⟨links, hlinks, -⟩ := Option.map_eq_some_iff.mp hs
    cases l with
    | waitList n => exact (Option.ite_none_right_eq_some.mp hlinks).1
    | orderedWaitList n => exact (Option.ite_none_right_eq_some.mp hlinks).1
  have hw : ∀ l, w ∉ contents l := fun l hl => h.not_alone hl halone
  obtain ⟨as, bs, hsplit, has, hbs, heq⟩ := h.insertInto_eq hw l
  obtain rfl := Option.some.inj (heq.symm.trans hs)
  have hlist : members contents (.list l) =
      some (as.map Node.waiter ++ bs.map Node.waiter) := by
    rw [members, hsplit, List.map_append]
  refine ⟨hw, Function.update contents l (as ++ w :: bs), ?_, fun l' => ?_, fun l' => ?_⟩
  · rw [members_insert hsplit]
    exact h.rings.insertAfter hlist (members_waiter hw) nofun
  · rw [arrive]
    by_cases hl : l' = l
    · have horder := h.order l
      rw [hsplit] at horder
      rw [hl, Function.update_self, Function.update_self]
      exact horder.arrive has hbs
    · rw [Function.update_of_ne hl, Function.update_of_ne hl]
      exact h.order l'
  · have hlen := h.length_le l'
    by_cases hl : l' = l
    · rw [hl, hsplit, List.length_append] at hlen
      rw [hl, Function.update_self, List.length_append, List.length_cons]
      dsimp only
      omega
    · rw [Function.update_of_ne hl]
      exact Nat.le_succ_of_le hlen

/-- A waiter in a list is taken out of it. -/
theorem remove (h : Shows priority s before contents) (hw : w ∈ contents l) :
    Shows priority (s.detach w) (Function.update before l ((before l).filter (· ≠ w)))
      (Function.update contents l ((contents l).filter (· ≠ w))) := by
  obtain ⟨as, bs, hsplit⟩ := List.append_of_mem hw
  have hnodup := h.nodup l
  rw [hsplit] at hnodup
  have hnot : w ∉ as ++ bs := (List.nodup_cons.mp (List.nodup_middle.mp hnodup)).1
  have hfilter : (contents l).filter (· ≠ w) = as ++ bs := by
    have hall : ∀ xs : List Waiter, w ∉ xs → xs.filter (· ≠ w) = xs := by
      intro xs hxs
      rw [List.filter_eq_self]
      exact fun x hx => decide_eq_true (ne_of_mem_of_not_mem hx hxs)
    rw [List.mem_append, not_or] at hnot
    rw [hsplit, List.filter_append, List.filter_cons_of_neg (by simp), hall as hnot.1,
      hall bs hnot.2]
  have hlist : members contents (.list l) =
      some (as.map Node.waiter ++ Node.waiter w :: bs.map Node.waiter) := by
    rw [members, hsplit, List.map_append, List.map_cons]
  refine ⟨?_, fun l' => ?_, fun l' => ?_⟩
  · rw [hfilter, members_remove hsplit hnot fun l' hl hw' => h.apart hl hw' hw]
    exact h.rings.detach hlist
  · by_cases hl : l' = l
    · rw [hl, Function.update_self, Function.update_self]
      exact (h.order l).leave _
    · rw [Function.update_of_ne hl, Function.update_of_ne hl]
      exact h.order l'
  · by_cases hl : l' = l
    · rw [hl, Function.update_self]
      exact (List.length_filter_le _ _).trans (h.length_le l)
    · rw [Function.update_of_ne hl]
      exact h.length_le l'

theorem detach (h : Shows priority s before contents) (w : Waiter) :
    ∃ contents', Shows priority (s.detach w) (arrive before (.detach w)) contents' := by
  have hkeep : ∀ l, w ∉ before l → (before l).filter (· ≠ w) = before l := by
    intro l hl
    rw [List.filter_eq_self]
    exact fun x hx => decide_eq_true (ne_of_mem_of_not_mem hx hl)
  by_cases hin : ∃ l, w ∈ contents l
  · obtain ⟨l, hl⟩ := hin
    have hremove := h.remove hl
    refine ⟨_, (?_ : Function.update before l _ = arrive before (.detach w)) ▸ hremove⟩
    funext l'
    by_cases heq : l' = l
    · rw [heq, Function.update_self, arrive]
    · rw [Function.update_of_ne heq]
      exact (hkeep l' fun hw => h.apart heq (h.mem_iff.mpr hw) hl).symm
  · have hnone : ∀ l, w ∉ contents l := fun l hl => hin ⟨l, hl⟩
    have hsame : arrive before (.detach w) = before :=
      funext fun l => hkeep l fun hl => hnone l (h.mem_iff.mpr hl)
    refine ⟨contents, ?_, ?_, h.length_le⟩
    · rw [WaitLists.detach, s.links.detach_of_alone _ (h.alone hnone)]
      exact h.rings
    · rw [hsame]
      exact h.order

/-- The first waiter of the list is taken. -/
theorem wakeup (h : Shows priority s before contents) (hs : s.wakeNext l w = some s') :
    w ∈ contents l ∧ ∃ contents', Shows priority s' (arrive before (.wakeup l w)) contents' := by
  obtain ⟨⟨-, hne, hnext⟩, heq⟩ := Option.ite_none_right_eq_some.mp hs
  obtain rfl := Option.some.inj heq
  have hring := h.ring l
  have hw : w ∈ contents l := by
    cases hcontents : contents l with
    | nil =>
        rw [hcontents] at hring
        exact absurd (isRing_nil.mp hring) hne
    | cons x xs =>
        rw [hcontents, List.map_cons] at hring
        have hx := hring.next_head.symm.trans hnext
        exact Node.waiter.inj hx ▸ List.mem_cons_self
  exact ⟨hw, _, h.remove hw⟩

theorem step (h : Shows priority s before contents) {action : Action}
    (hs : s.step priority action = some s') :
    ∃ contents', Shows priority s' (arrive before action) contents' := by
  cases action with
  | insert l w => exact (h.insert hs).2
  | detach w =>
      obtain rfl := Option.some.inj hs
      exact h.detach w
  | wakeupAll l =>
      obtain rfl := Option.some.inj hs
      exact ⟨contents, h.rings, h.order, h.length_le⟩
  | wakeup l w => exact (h.wakeup hs).2
  | finish =>
      have hs' : s.finish = some s' := hs
      rw [WaitLists.finish] at hs'
      cases hwaking : s.waking with
      | nil =>
          rw [hwaking] at hs'
          cases hs'
      | cons l rest =>
          rw [hwaking] at hs'
          obtain ⟨-, heq⟩ := Option.ite_none_right_eq_some.mp hs'
          obtain rfl := Option.some.inj heq
          exact ⟨contents, h.rings, h.order, h.length_le⟩

theorem run (h : Shows priority s before contents) {actions : List Action}
    (hs : EventSystem.run (WaitLists.step priority) s actions = some s') :
    ∃ contents', Shows priority s' (actions.foldl arrive before) contents' := by
  induction actions generalizing s before contents with
  | nil =>
      obtain rfl := Option.some.inj hs
      exact ⟨contents, h⟩
  | cons action actions ih =>
      obtain ⟨s1, hs1, hrest⟩ := run_cons_eq_some.mp hs
      obtain ⟨contents1, h1⟩ := h.step hs1
      exact ih h1 hrest

/-! What leaves a list, and what comes -/

/-- Whether the waiter is in the list. -/
def held (before : Arrivals) (l : ListId) (w : Waiter) : Nat :=
  if w ∈ before l then 1 else 0

theorem held_step (h : Shows priority s before contents) {action : Action}
    (hs : s.step priority action = some s') (l : ListId) (w : Waiter) :
    held before l w + (if action = .insert l w then 1 else 0) =
      (if action = .wakeup l w then 1 else 0) +
        (if action = .detach w ∧ w ∈ before l then 1 else 0) + held (arrive before action) l w := by
  unfold held
  cases action with
  | insert l' w' =>
      have hnot := (h.insert hs).1
      have hwake : Action.insert l' w' ≠ .wakeup l w := nofun
      have hdetach : ¬ (Action.insert l' w' = .detach w ∧ w ∈ before l) := fun h' => nomatch h'.1
      rw [if_neg hwake, if_neg hdetach]
      by_cases heq : l' = l ∧ w' = w
      · obtain ⟨rfl, rfl⟩ := heq
        have hmem : w' ∈ arrive before (.insert l' w') l' := by
          rw [arrive, Function.update_self]
          exact List.mem_append_right _ List.mem_cons_self
        rw [if_neg fun hw => hnot l' (h.mem_iff.mpr hw), if_pos rfl, if_pos hmem]
      · have hne : ¬ (Action.insert l' w' = .insert l w) := by
          rintro ⟨⟩
          exact heq ⟨rfl, rfl⟩
        have hiff : w ∈ arrive before (.insert l' w') l ↔ w ∈ before l := by
          rw [arrive]
          by_cases hl : l = l'
          · have hw : w ≠ w' := fun hw => heq ⟨hl.symm, hw.symm⟩
            rw [hl, Function.update_self, List.mem_append, List.mem_singleton, or_iff_left hw]
          · rw [Function.update_of_ne hl]
        rw [if_neg hne, if_congr hiff rfl rfl]
        omega
  | detach w' =>
      have hinsert : Action.detach w' ≠ .insert l w := nofun
      have hwake : Action.detach w' ≠ .wakeup l w := nofun
      rw [if_neg hinsert, if_neg hwake]
      by_cases hw : w' = w
      · have hnot : w ∉ arrive before (.detach w') l := by
          rw [arrive, List.mem_filter]
          simp [hw]
        have hiff : (Action.detach w' = .detach w ∧ w ∈ before l) ↔ w ∈ before l :=
          and_iff_right (congrArg _ hw)
        rw [if_neg hnot, if_congr hiff rfl rfl]
        omega
      · have hne : ¬ (Action.detach w' = .detach w ∧ w ∈ before l) := by
          rintro ⟨⟨⟩, -⟩
          exact hw rfl
        have hiff : w ∈ arrive before (.detach w') l ↔ w ∈ before l := by
          rw [arrive, List.mem_filter]
          exact and_iff_left (decide_eq_true (Ne.symm hw))
        rw [if_neg hne, if_congr hiff rfl rfl]
        omega
  | wakeup l' w' =>
      have hin := (h.wakeup hs).1
      have hinsert : Action.wakeup l' w' ≠ .insert l w := nofun
      have hdetach : ¬ (Action.wakeup l' w' = .detach w ∧ w ∈ before l) := fun h' => nomatch h'.1
      rw [if_neg hinsert, if_neg hdetach]
      by_cases heq : l' = l ∧ w' = w
      · obtain ⟨rfl, rfl⟩ := heq
        have hnot : w' ∉ arrive before (.wakeup l' w') l' := by
          rw [arrive, Function.update_self, List.mem_filter]
          simp
        rw [if_pos (h.mem_iff.mp hin), if_pos rfl, if_neg hnot]
      · have hne : ¬ (Action.wakeup l' w' = .wakeup l w) := by
          rintro ⟨⟩
          exact heq ⟨rfl, rfl⟩
        have hiff : w ∈ arrive before (.wakeup l' w') l ↔ w ∈ before l := by
          rw [arrive]
          by_cases hl : l = l'
          · have hw : w ≠ w' := fun hw => heq ⟨hl.symm, hw.symm⟩
            rw [hl, Function.update_self, List.mem_filter]
            exact and_iff_left (decide_eq_true hw)
          · rw [Function.update_of_ne hl]
        rw [if_neg hne, if_congr hiff rfl rfl]
        omega
  | wakeupAll _ | finish =>
      simp only [reduceCtorEq, false_and, if_false, Nat.zero_add, Nat.add_zero]
      rfl

/-- A waiter leaves the list as often as it comes. -/
theorem held_run (h : Shows priority s before contents) {actions : List Action}
    (hs : EventSystem.run (WaitLists.step priority) s actions = some s') (l : ListId) (w : Waiter) :
    held before l w + actions.count (.insert l w) =
      actions.count (.wakeup l w) + detached l w before actions +
        held (actions.foldl arrive before) l w := by
  induction actions generalizing s before contents with
  | nil =>
      rw [List.count_nil, List.count_nil, detached, List.foldl_nil, Nat.add_comm]
  | cons action actions ih =>
      obtain ⟨s1, hs1, hrest⟩ := run_cons_eq_some.mp hs
      obtain ⟨contents1, h1⟩ := h.step hs1
      have hstep := h.held_step hs1 l w
      have hlater := ih h1 hrest
      rw [List.count_cons, List.count_cons, detached, List.foldl_cons]
      simp only [beq_iff_eq]
      omega

/-- No more are woken than were there or came. -/
theorem length_step (h : Shows priority s before contents) {action : Action}
    (hs : s.step priority action = some s') (l : ListId) :
    (if wakesIn l action then 1 else 0) + (arrive before action l).length ≤
      (before l).length + if insertsIn l action then 1 else 0 := by
  cases action with
  | insert l' w' =>
      have hlen : (arrive before (.insert l' w') l).length =
          (before l).length + if insertsIn l (.insert l' w') then 1 else 0 := by
        by_cases hl : l = l'
        · have hinserts : (if insertsIn l (.insert l' w') then 1 else 0) = 1 :=
            if_pos (decide_eq_true hl.symm)
          rw [hinserts, hl, arrive, Function.update_self, List.length_append]
          rfl
        · have hinserts : (if insertsIn l (.insert l' w') then 1 else 0) = 0 :=
            if_neg fun h' => hl (Eq.symm (of_decide_eq_true h'))
          rw [hinserts, arrive, Function.update_of_ne hl]
          rfl
      rw [hlen]
      exact Nat.le_of_eq (Nat.zero_add _)
  | detach w' =>
      have hle : (arrive before (.detach w') l).length ≤ (before l).length :=
        List.length_filter_le _ _
      exact (Nat.zero_add _).trans_le hle
  | wakeup l' w' =>
      have hin := (h.wakeup hs).1
      by_cases hl : l = l'
      · have hlt : ((before l').filter (· ≠ w')).length < (before l').length := by
          refine List.length_filter_lt_length_iff_exists.mpr ⟨w', h.mem_iff.mp hin, ?_⟩
          simp
        have hwakes : (if wakesIn l (.wakeup l' w') then 1 else 0) = 1 :=
          if_pos (decide_eq_true hl.symm)
        rw [hwakes, hl, arrive, Function.update_self, Nat.add_comm]
        exact hlt
      · have hwakes : (if wakesIn l (.wakeup l' w') then 1 else 0) = 0 :=
          if_neg fun h' => hl (Eq.symm (of_decide_eq_true h'))
        rw [hwakes, arrive, Function.update_of_ne hl, Nat.zero_add]
        exact Nat.le_refl _
  | wakeupAll _ | finish => exact Nat.le_of_eq (Nat.zero_add _)

theorem length_run (h : Shows priority s before contents) {actions : List Action}
    (hs : EventSystem.run (WaitLists.step priority) s actions = some s') (l : ListId) :
    actions.countP (wakesIn l) + (actions.foldl arrive before l).length ≤
      (before l).length + actions.countP (insertsIn l) := by
  induction actions generalizing s before contents with
  | nil => rw [List.countP_nil, List.countP_nil, List.foldl_nil, Nat.zero_add, Nat.add_zero]
  | cons action actions ih =>
      obtain ⟨s1, hs1, hrest⟩ := run_cons_eq_some.mp hs
      obtain ⟨contents1, h1⟩ := h.step hs1
      have hstep := h.length_step hs1 l
      have hlater := ih h1 hrest
      rw [List.countP_cons, List.countP_cons, List.foldl_cons]
      omega

end Shows

/-! Calls of `wakeupAll` -/

theorem shows_init (priority : Waiter → BitVec 64) :
    Shows priority WaitLists.init (fun _ => []) fun _ => [] where
  rings := by
    have hnil : ∀ {x xs}, members (fun _ => []) x = some xs → xs = [] := by
      intro x xs hx
      cases x with
      | list l => exact (Option.some.inj hx).symm
      | waiter w =>
          rw [members_waiter fun _ => List.not_mem_nil] at hx
          exact (Option.some.inj hx).symm
    constructor
    · intro x xs hx
      rw [hnil hx]
      exact isRing_nil.mpr ⟨rfl, rfl⟩
    · intro x xs y ys hx hy hne
      rw [hnil hx, hnil hy]
      simpa using hne.symm
  order _ := .nil _
  length_le _ := Nat.zero_le 0

section
variable {priority : Waiter → BitVec 64} {s s' : WaitLists}

/-- The innermost calls are back where they were. -/
theorem waking_balanced {actions : List Action} (inner : List ListId) {outer : List ListId}
    (hbalanced : Balanced inner.length actions) (hwaking : s.waking = inner ++ outer)
    (hs : EventSystem.run (WaitLists.step priority) s actions = some s') : s'.waking = outer := by
  induction actions generalizing s inner with
  | nil =>
      obtain rfl := Option.some.inj hs
      rw [hwaking, List.eq_nil_of_length_eq_zero hbalanced, List.nil_append]
  | cons action actions ih =>
      obtain ⟨s1, hs1, hrest⟩ := run_cons_eq_some.mp hs
      cases action with
      | insert l w =>
          obtain ⟨links, -, rfl⟩ := Option.map_eq_some_iff.mp hs1
          exact ih (s := { s with links := links, insertions := s.insertions + 1 }) inner
            (by cases inner <;> exact hbalanced) hwaking hrest
      | detach w =>
          obtain rfl := Option.some.inj hs1
          exact ih (s := s.detach w) inner (by cases inner <;> exact hbalanced) hwaking hrest
      | wakeupAll l =>
          obtain rfl := Option.some.inj hs1
          have hinner : Balanced (l :: inner).length actions := by
            cases inner <;> exact hbalanced
          exact ih _ hinner (congrArg (l :: ·) hwaking) hrest
      | wakeup l w =>
          obtain ⟨-, heq⟩ := Option.ite_none_right_eq_some.mp hs1
          obtain rfl := Option.some.inj heq
          exact ih (s := s.detach w) inner (by cases inner <;> exact hbalanced) hwaking hrest
      | finish =>
          cases inner with
          | nil => exact hbalanced.elim
          | cons l inner =>
              have hs1' : s.finish = some s1 := hs1
              rw [WaitLists.finish, hwaking] at hs1'
              obtain ⟨-, heq⟩ := Option.ite_none_right_eq_some.mp hs1'
              obtain rfl := Option.some.inj heq
              exact ih inner hbalanced rfl hrest

theorem Shows.drained {before : Arrivals} {contents : ListId → List Waiter}
    (h : Shows priority s before contents) {l : ListId} {body : List Action}
    (hbalanced : Balanced 0 body)
    (hs : EventSystem.run (WaitLists.step priority) s (.wakeupAll l :: body ++ [.finish]) =
      some s') : Drained l before body := by
  have hs1 : EventSystem.run (WaitLists.step priority) { s with waking := l :: s.waking }
      (body ++ [.finish]) = some s' := hs
  rw [run_append] at hs1
  obtain ⟨s2, hbody, hfinish⟩ := Option.bind_eq_some_iff.mp hs1
  obtain ⟨s3, hfinish, -⟩ := run_cons_eq_some.mp hfinish
  have h1 : Shows priority { s with waking := l :: s.waking } before contents :=
    ⟨h.rings, h.order, h.length_le⟩
  obtain ⟨contents2, h2⟩ := h1.run hbody
  have hwaking : s2.waking = l :: s.waking := waking_balanced [] hbalanced rfl hbody
  have hempty : body.foldl arrive before l = [] := by
    have hfinish' : s2.finish = some s3 := hfinish
    rw [WaitLists.finish, hwaking] at hfinish'
    obtain ⟨halone, -⟩ := Option.ite_none_right_eq_some.mp hfinish'
    have hnil := List.map_eq_nil_iff.mp ((h2.ring l).alone_head.mp halone)
    exact List.eq_nil_iff_forall_not_mem.mpr fun w hw => by
      have hmem := h2.mem_iff.mpr hw
      rw [hnil] at hmem
      cases hmem
  refine ⟨hempty, fun w hw => ?_, ?_⟩
  · have hrun := h1.held_run hbody l w
    have hbefore : held before l w = 1 := if_pos hw
    have hafter : held (body.foldl arrive before) l w = 0 := by
      refine if_neg ?_
      rw [hempty]
      exact List.not_mem_nil
    omega
  · have hrun := h1.length_run hbody l
    omega

/-- A call that runs goes on: the list is empty, or its first waiter can be woken. -/
theorem Shows.goes_on {before : Arrivals} {contents : ListId → List Waiter}
    (h : Shows priority s before contents) (hwaking : s.waking ≠ []) :
    (s.step priority .finish).isSome ∨ ∃ l w, (s.step priority (.wakeup l w)).isSome := by
  cases hw : s.waking with
  | nil => exact absurd hw hwaking
  | cons l rest =>
      have hring := h.ring l
      cases hcontents : contents l with
      | nil =>
          rw [hcontents] at hring
          have hfinish : s.finish = some { s with waking := rest } := by
            rw [WaitLists.finish, hw]
            exact if_pos (isRing_nil.mp hring)
          exact .inl (Option.isSome_of_eq_some hfinish)
      | cons w ws =>
          rw [hcontents, List.map_cons] at hring
          have hne : ¬ s.links.Alone (.list l) := fun halone =>
            List.cons_ne_nil _ _ (hring.alone_head.mp halone)
          have hwake : s.wakeNext l w = some (s.detach w) :=
            if_pos ⟨hw ▸ rfl, hne, hring.next_head⟩
          exact .inr ⟨l, w, Option.isSome_of_eq_some hwake⟩

end

/-- After any run; `history` is what has been done in it. -/
structure Kept (priority : Waiter → BitVec 64) (history : List Action) (s : WaitLists) : Prop where
  lists : ∃ contents, s.WellLinked contents ∧ InOrder priority (arrivals history) contents
  inserts : ∀ l w, s.links.Alone (.waiter w) → (s.step priority (.insert l w)).isSome
  goesOn : s.waking ≠ [] →
    (s.step priority .finish).isSome ∨ ∃ l w, (s.step priority (.wakeup l w)).isSome
  drained : ∀ before l body, history = before ++ (.wakeupAll l :: body ++ [.finish]) →
    Balanced 0 body → Drained l (arrivals before) body

theorem kept_in_order {priority : Waiter → BitVec 64} {history : List Action} {s : WaitLists}
    (hs : run (WaitLists.step priority) WaitLists.init history = some s) :
    Kept priority history s := by
  obtain ⟨contents, h⟩ := (shows_init priority).run hs
  refine ⟨⟨contents, h.wellLinked, h.inOrder⟩, fun l w halone => ?_, h.goes_on, ?_⟩
  · have hnone : ∀ l, w ∉ contents l := fun l hl => h.not_alone hl halone
    obtain ⟨as, bs, -, -, -, heq⟩ := h.insertInto_eq hnone l
    exact Option.isSome_of_eq_some heq
  · rintro before l body rfl hbalanced
    rw [run_append] at hs
    obtain ⟨s1, hbefore, hcall⟩ := Option.bind_eq_some_iff.mp hs
    obtain ⟨contents1, h1⟩ := (shows_init priority).run hbefore
    exact h1.drained hbalanced hcall

/-- An insertion in the middle, and a `wakeupAll` within another one. -/
theorem kept_in_order_nested : ∃ s, run (WaitLists.step fun w => BitVec.ofNat 64 (w % 10))
    WaitLists.init [.insert (.orderedWaitList 0) 1, .insert (.orderedWaitList 0) 3,
      .insert (.orderedWaitList 0) 11, .insert (.waitList 0) 2, .wakeupAll (.orderedWaitList 0),
      .wakeup (.orderedWaitList 0) 1, .wakeupAll (.waitList 0), .wakeup (.waitList 0) 2, .finish,
      .insert (.orderedWaitList 0) 2, .wakeup (.orderedWaitList 0) 11] = some s ∧
    Kept (fun w => BitVec.ofNat 64 (w % 10)) [.insert (.orderedWaitList 0) 1,
      .insert (.orderedWaitList 0) 3, .insert (.orderedWaitList 0) 11, .insert (.waitList 0) 2,
      .wakeupAll (.orderedWaitList 0), .wakeup (.orderedWaitList 0) 1, .wakeupAll (.waitList 0),
      .wakeup (.waitList 0) 2, .finish, .insert (.orderedWaitList 0) 2,
      .wakeup (.orderedWaitList 0) 11] s :=
  ⟨_, rfl, kept_in_order rfl⟩

/-- A wake-up detaches the waiter behind it, or inserts its own again. -/
theorem not_woken_once :
    (∃ s, run (WaitLists.step fun _ => 0) WaitLists.init ([.insert (.orderedWaitList 0) 1,
        .insert (.orderedWaitList 0) 2] ++ (.wakeupAll (.orderedWaitList 0) ::
          [.wakeup (.orderedWaitList 0) 1, .detach 2] ++ [.finish])) = some s ∧
      2 ∈ arrivals [.insert (.orderedWaitList 0) 1, .insert (.orderedWaitList 0) 2]
        (.orderedWaitList 0) ∧
      Balanced 0 [.wakeup (.orderedWaitList 0) 1, .detach 2] ∧
      [Action.wakeup (.orderedWaitList 0) 1, .detach 2].count
        (.wakeup (.orderedWaitList 0) 2) = 0) ∧
    ∃ s, run (WaitLists.step fun _ => 0) WaitLists.init ([.insert (.orderedWaitList 0) 1] ++
        (.wakeupAll (.orderedWaitList 0) :: [.wakeup (.orderedWaitList 0) 1,
          .insert (.orderedWaitList 0) 1, .wakeup (.orderedWaitList 0) 1] ++ [.finish])) = some s ∧
      1 ∈ arrivals [.insert (.orderedWaitList 0) 1] (.orderedWaitList 0) ∧
      Balanced 0 [.wakeup (.orderedWaitList 0) 1, .insert (.orderedWaitList 0) 1,
        .wakeup (.orderedWaitList 0) 1] ∧
      [Action.wakeup (.orderedWaitList 0) 1, .insert (.orderedWaitList 0) 1,
        .wakeup (.orderedWaitList 0) 1].count (.wakeup (.orderedWaitList 0) 1) = 2 :=
  ⟨⟨_, rfl, by decide, (rfl : 0 = 0), by decide⟩, _, rfl, by decide, (rfl : 0 = 0), by decide⟩

end FeS2.Pyrite.Waiting
