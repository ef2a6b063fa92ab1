import Mathlib.Data.List.Perm.Subperm
import FeS2.Pyrite.EventsQueue

/-!
The event queue keeps an agenda: the waiters of an event are those due at its cycle, in the
order they came in. Every action of the queue is the agenda's own, so what is known about
the runs of an agenda holds of the queue.
-/

namespace FeS2.Pyrite.Events
open EventSystem LinkedRing

namespace EventsQueue

/-- What the pointers of a queue stand for; `base` is the time at which its cycle counter was
last 0. -/
structure Layout where
  events : List Nat
  free : List Nat
  base : Nat

namespace Layout

/-- The events with waiters: those in the list and the one that is being drained. -/
def live (s : Layout) (q : EventsQueue) : List Nat := q.draining.toList ++ s.events

def due (s : Layout) (q : EventsQueue) (e : Nat) : Nat := s.base + (q.cycleOf e).toNat

end Layout

def bucket (pending : List (Waiter × Nat)) (t : Nat) : List Waiter :=
  (pending.filter (·.2 = t)).map Prod.fst

def Layout.members (s : Layout) (q : EventsQueue) (pending : List (Waiter × Nat)) :
    Node → Option (List Node)
  | .pool => some (s.free.map .event)
  | .event e =>
      if e ∈ s.free then none
      else if e ∈ s.live q then some ((bucket pending (s.due q e)).map .waiter)
      else some []
  | .waiter w => if w ∈ pending.map Prod.fst then none else some []

structure Shows (q : EventsQueue) (a : Agenda Waiter) (s : Layout) : Prop where
  valid : a.Valid
  now : a.now = s.base + q.currentCycle.toNat
  spine : IsRing q.spine none (s.events.map some)
  increasing : s.events.Pairwise fun e e' => q.cycleOf e < q.cycleOf e'
  future : ∀ e ∈ s.events, q.currentCycle < q.cycleOf e
  drains : ∀ e ∈ q.draining, q.cycleOf e = q.currentCycle
  kept : ∀ e ∈ s.live q, e ∉ s.free
  made : ∀ e, e ∈ s.live q ∨ e ∈ s.free → e < q.allocated
  covered : ∀ p ∈ a.pending, ∃ e ∈ s.live q, p.2 = s.due q e
  rings : Rings q.links (s.members q a.pending)

/-! Waiters of an event -/

theorem mem_bucket {pending : List (Waiter × Nat)} {t : Nat} {w : Waiter} :
    w ∈ bucket pending t ↔ (w, t) ∈ pending := by
  simp [bucket]

theorem bucket_append (pending : List (Waiter × Nat)) (w : Waiter) (t t' : Nat) :
    bucket (pending ++ [(w, t)]) t' = bucket pending t' ++ if t = t' then [w] else [] := by
  by_cases h : t = t'
  · simp [bucket, h]
  · simp [bucket, h]

theorem bucket_filter (pending : List (Waiter × Nat)) (w : Waiter) (t : Nat) :
    bucket (pending.filter (·.1 ≠ w)) t = (bucket pending t).filter (· ≠ w) := by
  rw [bucket, bucket, List.filter_map, List.filter_filter, List.filter_filter]
  congr 1
  refine List.filter_congr fun p _ => ?_
  exact Bool.and_comm _ _

theorem bucket_nodup {pending : List (Waiter × Nat)} (h : (pending.map Prod.fst).Nodup) (t : Nat) :
    (bucket pending t).Nodup :=
  h.sublist (List.filter_sublist.map Prod.fst)

theorem insertWaiter_eq {l : Links Node} {members : Node → Option (List Node)} {list w : Node}
    {xs : List Node} (h : Rings l members) (hlist : members list = some xs)
    (hw : members w = some []) (hne : w ≠ list) :
    insertWaiter list w l = some (l.insertAfter w (l.prev list)) := by
  obtain ⟨halone, hprev, hnext, hlinks⟩ := h.insertLast_links hlist hw hne
  rw [insertWaiter, if_pos halone]
  dsimp only
  rw [hprev, if_pos hnext, hlinks]

/-- The events are linked in a ring like the waiters. -/
theorem spine_linkEvent (q : EventsQueue) {e : Nat} {trav : Option Nat} (hne : trav ≠ some e) :
    (q.linkEvent e trav).spine = q.spine.insertAfter (some e) trav := by
  cases trav with
  | none =>
      cases hn : q.head with
      | none =>
          ext o <;> cases o <;> simp [linkEvent, setPrevEvent, setNextEvent, spine, hn,
            Links.insertAfter_next, Links.insertAfter_prev, Function.update_apply]
      | some n =>
          ext o <;> cases o <;> simp [linkEvent, setPrevEvent, setNextEvent, spine, hn,
            Links.insertAfter_next, Links.insertAfter_prev, Function.update_apply]
  | some t =>
      have hte : t ≠ e := fun heq => hne (congrArg some heq)
      cases hn : q.nextEvent t with
      | none =>
          ext o <;> cases o <;> simp [linkEvent, setPrevEvent, setNextEvent, spine, hn, hte.symm,
            Links.insertAfter_next, Links.insertAfter_prev, Function.update_apply]
      | some n =>
          ext o <;> cases o <;> simp [linkEvent, setPrevEvent, setNextEvent, spine, hn, hte.symm,
            Links.insertAfter_next, Links.insertAfter_prev, Function.update_apply]

/-- The queue after `finish`, given the new waiter links. -/
def finished (q : EventsQueue) (e : Nat) (l : Links Node) : EventsQueue :=
  { ((q.setPrevEvent e none).setNextEvent e none).setCycle e 0 with links := l, draining := none }

theorem linkEvent_frame (q : EventsQueue) (e : Nat) (trav : Option Nat) :
    ∃ next prev head tail, q.linkEvent e trav =
      { q with nextEvent := next, prevEvent := prev, head := head, tail := tail } ∧
        ∀ l, { q with links := l }.linkEvent e trav =
          { q with
            links := l, nextEvent := next, prevEvent := prev, head := head, tail := tail } := by
  cases trav with
  | none =>
      simp only [linkEvent, setPrevEvent, setNextEvent]
      split
      · exact ⟨_, _, _, _, rfl, fun l => rfl⟩
      · exact ⟨_, _, _, _, rfl, fun l => rfl⟩
  | some t =>
      simp only [linkEvent, setPrevEvent, setNextEvent]
      split
      · exact ⟨_, _, _, _, rfl, fun l => rfl⟩
      · exact ⟨_, _, _, _, rfl, fun l => rfl⟩

namespace Shows
variable {q : EventsQueue} {a : Agenda Waiter} {s : Layout} {e w : Nat}

theorem live_increasing (h : Shows q a s) :
    (s.live q).Pairwise fun e e' => q.cycleOf e < q.cycleOf e' := by
  have hevents := h.increasing
  cases hd : q.draining with
  | none => rwa [Layout.live, hd]
  | some e =>
      rw [Layout.live, hd, Option.toList_some, List.singleton_append]
      refine List.pairwise_cons.mpr ⟨fun e' he' => ?_, hevents⟩
      rw [h.drains e hd]
      exact h.future e' he'

theorem cycle_inj (h : Shows q a s) {e' : Nat} (he : e ∈ s.live q) (he' : e' ∈ s.live q)
    (hcycle : q.cycleOf e = q.cycleOf e') : e = e' := by
  have hnodup : ((s.live q).map q.cycleOf).Nodup :=
    List.pairwise_map.mpr (h.live_increasing.imp fun hlt => (BitVec.ne_of_lt hlt))
  exact List.inj_on_of_nodup_map hnodup he he' hcycle

theorem due_inj (h : Shows q a s) {e' : Nat} (he : e ∈ s.live q) (he' : e' ∈ s.live q)
    (hdue : s.due q e = s.due q e') : e = e' :=
  h.cycle_inj he he' (BitVec.eq_of_toNat_eq (Nat.add_left_cancel hdue))

/-- The rings depend on the list only through its events and their cycles. -/
theorem rings_congr (h : Shows q a s) {q' : EventsQueue} {s' : Layout} (hlinks : q'.links = q.links)
    (hfree : s'.free = s.free) (hlive : s'.live q' = s.live q)
    (hdue : ∀ e ∈ s.live q, s'.due q' e = s.due q e) :
    Rings q'.links (s'.members q' a.pending) := by
  have hmembers : s'.members q' a.pending = s.members q a.pending := by
    funext x
    cases x with
    | pool => exact congrArg (fun free => some (free.map Node.event)) hfree
    | event e =>
        rw [Layout.members, Layout.members, hfree, hlive]
        by_cases he : e ∈ s.live q
        · rw [hdue e he]
        · rw [if_neg he, if_neg he]
    | waiter w => rfl
  rw [hmembers, hlinks]
  exact h.rings

theorem members_pool (q : EventsQueue) (a : Agenda Waiter) (s : Layout) :
    s.members q a.pending .pool = some (s.free.map .event) := rfl

theorem members_event (h : Shows q a s) (he : e ∈ s.live q) :
    s.members q a.pending (.event e) = some ((bucket a.pending (s.due q e)).map .waiter) := by
  rw [Layout.members, if_neg (h.kept e he), if_pos he]

theorem members_waiter (hw : w ∉ a.pending.map Prod.fst) :
    s.members q a.pending (.waiter w) = some [] := if_neg hw

theorem waiter_alone (h : Shows q a s) :
    q.links.Alone (.waiter w) ↔ w ∉ a.pending.map Prod.fst := by
  constructor
  · intro halone hmem
    obtain ⟨p, hp, rfl⟩ := List.mem_map.mp hmem
    obtain ⟨e, he, hdue⟩ := h.covered p hp
    have hring := h.rings.ring (h.members_event he)
    have hbucket : p.1 ∈ bucket a.pending (s.due q e) := mem_bucket.mpr (hdue ▸ hp)
    obtain ⟨as, bs, hsplit⟩ := List.append_of_mem (List.mem_map_of_mem hbucket)
    rw [hsplit] at hring
    exact hring.not_alone halone
  · intro hw
    exact isRing_nil.mp (h.rings.ring (members_waiter hw))

/-! Inserting a waiter -/

theorem members_insert (h : Shows q a s) (he : e ∈ s.live q) :
    s.members q (a.pending ++ [(w, s.due q e)]) =
      Function.update (Function.update (s.members q a.pending) (.waiter w) none) (.event e)
        (some ((bucket a.pending (s.due q e)).map .waiter ++ [.waiter w])) := by
  funext x
  cases x with
  | pool => rfl
  | event e' =>
      rw [Layout.members, bucket_append]
      by_cases hee : e' = e
      · subst hee
        rw [if_neg (h.kept e' he), if_pos he, if_pos rfl, List.map_append, Function.update_self]
        rfl
      · rw [Function.update_of_ne (by simpa using hee), Function.update_of_ne (by simp)]
        by_cases hlive : e' ∈ s.live q
        · have hdue : s.due q e ≠ s.due q e' := fun hdue => hee (h.due_inj hlive he hdue.symm)
          rw [if_neg hdue, List.append_nil]
          rfl
        · rw [Layout.members, if_neg hlive, if_neg hlive]
  | waiter w' =>
      rw [Function.update_of_ne (by simp), Layout.members, List.map_append]
      by_cases hww : w' = w
      · subst hww
        rw [Function.update_self, if_pos (by simp)]
      · rw [Function.update_of_ne (by simpa using hww), Layout.members]
        refine if_congr ?_ rfl rfl
        simp [hww]

/-- Only the waiter links change. -/
theorem insertAt (h : Shows q a s) (he : e ∈ s.events) {delay : Nat} (hdelay : 0 < delay)
    (hdue : a.now + delay = s.due q e) (hw : w ∉ a.pending.map Prod.fst) :
    ∃ l a', insertWaiter (.event e) (.waiter w) q.links = some l ∧
      a.step (.insert w delay) = some a' ∧ Shows { q with links := l } a' s := by
  have hlive : e ∈ s.live q := List.mem_append_right _ he
  have hne : Node.waiter w ≠ Node.event e := nofun
  have hinsert := insertWaiter_eq h.rings (h.members_event hlive) (members_waiter hw) hne
  have hstep : a.step (.insert w delay) =
      some { a with pending := a.pending ++ [(w, a.now + delay)] } := if_pos ⟨hdelay, hw⟩
  have hrings := h.rings.insertLast (h.members_event hlive) (members_waiter hw) hne
  rw [← h.members_insert hlive, ← hdue] at hrings
  refine ⟨_, _, hinsert, hstep, ?_⟩
  refine { h with valid := h.valid.step hstep, covered := fun p hp => ?_, rings := hrings }
  rcases List.mem_append.mp hp with hp | hp
  · exact h.covered p hp
  · rw [List.mem_singleton.mp hp]
    exact ⟨e, hlive, hdue⟩

/-! Taking a waiter out -/

theorem members_filter (h : Shows q a s) (he : e ∈ s.live q) {as bs : List Waiter}
    (hbucket : bucket a.pending (s.due q e) = as ++ w :: bs) :
    s.members q (a.pending.filter (·.1 ≠ w)) =
      Function.update (Function.update (s.members q a.pending) (.event e)
        (some ((as ++ bs).map .waiter))) (.waiter w) (some []) := by
  have hnodup := bucket_nodup h.valid.unique (s.due q e)
  rw [hbucket, List.nodup_middle, List.nodup_cons] at hnodup
  have hmem : (w, s.due q e) ∈ a.pending := mem_bucket.mp (hbucket ▸ List.mem_append_right as List.mem_cons_self)
  funext x
  cases x with
  | pool => rfl
  | event e' =>
      rw [Function.update_of_ne (by simp), Layout.members, bucket_filter]
      by_cases hee : e' = e
      · subst hee
        rw [if_neg (h.kept e' he), if_pos he, Function.update_self, hbucket]
        congr 2
        rw [List.filter_append, List.filter_cons_of_neg (by simp), ← List.filter_append]
        exact List.filter_eq_self.mpr fun x hx => decide_eq_true (ne_of_mem_of_not_mem hx hnodup.1)
      · rw [Function.update_of_ne (by simpa using hee)]
        by_cases hlive : e' ∈ s.live q
        · rw [List.filter_eq_self.mpr]
          · rfl
          · intro x hx
            refine decide_eq_true fun hxw => hee (h.due_inj hlive he ?_)
            rw [hxw] at hx
            exact congrArg Prod.snd
              (List.inj_on_of_nodup_map h.valid.unique (mem_bucket.mp hx) hmem rfl)
        · rw [Layout.members, if_neg hlive, if_neg hlive]
  | waiter w' =>
      by_cases hww : w' = w
      · subst hww
        rw [Function.update_self]
        exact if_neg (by simp)
      · rw [Function.update_of_ne (by simpa using hww), Function.update_of_ne (by simp)]
        refine if_congr ?_ rfl rfl
        simp [hww]

theorem detach (h : Shows q a s) (w : Waiter) :
    ∃ a', a.step (.remove w) = some a' ∧ Shows (q.detach w) a' s := by
  have hstep : a.step (.remove w) = some { a with pending := a.pending.filter (·.1 ≠ w) } := rfl
  refine ⟨_, hstep, ?_⟩
  refine { h with
    valid := h.valid.step hstep
    covered := fun p hp => h.covered p (List.mem_of_mem_filter hp)
    rings := ?_ }
  by_cases hw : w ∈ a.pending.map Prod.fst
  · obtain ⟨⟨w, t⟩, hp, rfl⟩ := List.mem_map.mp hw
    obtain ⟨e, he, hdue⟩ := h.covered _ hp
    obtain rfl : t = s.due q e := hdue
    obtain ⟨as, bs, hbucket⟩ := List.append_of_mem (mem_bucket.mpr hp)
    have hhead := h.members_event he
    rw [hbucket, List.map_append, List.map_cons] at hhead
    have hrings := h.rings.detach hhead
    rw [← List.map_append, ← h.members_filter he hbucket] at hrings
    exact hrings
  · have hfilter : a.pending.filter (·.1 ≠ w) = a.pending :=
      List.filter_eq_self.mpr fun p hp => decide_eq_true fun hpw =>
        hw (hpw ▸ List.mem_map_of_mem hp)
    have hlinks : q.links.detach (.waiter w) = q.links :=
      q.links.detach_of_alone (.waiter w) (h.waiter_alone.mpr hw)
    have hrings := h.rings
    rw [← hlinks] at hrings
    dsimp only
    rw [hfilter]
    exact hrings

/-! Getting a free event -/

theorem members_get (h : Shows q a s) {free : List Nat} (hfree : s.free = free ++ [e]) :
    Rings (q.links.detach (.event e)) ({ s with free := free }.members q a.pending) ∧ e ∉ free := by
  have hpool := members_pool q a s
  rw [hfree, List.map_append, List.map_singleton] at hpool
  have hrings := h.rings.detach hpool
  have hnodup := (h.rings.ring hpool).nodup
  have hmem : e ∈ s.free := hfree ▸ List.mem_concat_self
  have hnotMem : e ∉ free := by
    intro he
    rw [List.nodup_cons, List.nodup_append] at hnodup
    exact hnodup.2.2.2 _ (List.mem_map_of_mem he) _ List.mem_cons_self rfl
  refine ⟨?_, hnotMem⟩
  convert hrings using 1
  funext x
  cases x with
  | pool =>
      rw [Function.update_of_ne (by simp), Function.update_self, List.append_nil]
      rfl
  | event e' =>
      by_cases hee : e' = e
      · subst hee
        rw [Function.update_self, Layout.members, if_neg hnotMem]
        exact if_neg fun he => h.kept e' he hmem
      · rw [Function.update_of_ne (by simpa using hee), Function.update_of_ne (by simp)]
        refine if_congr ?_ rfl rfl
        simp [hfree, hee]
  | waiter w =>
      rw [Function.update_of_ne (by simp), Function.update_of_ne (by simp)]
      rfl

theorem poolGet (h : Shows q a s) : ∃ e q' s', q.poolGet = some (e, q') ∧ Shows q' a s' ∧
    (∃ l n, q' = { q with links := l, allocated := n }) ∧ s'.events = s.events ∧ s'.base = s.base ∧
      e ∉ s.live q ∧ e ∉ s'.free ∧ e < q'.allocated := by
  have hpool := h.rings.ring (members_pool q a s)
  by_cases halone : q.links.Alone .pool
  · have hnew : ∀ e, e ∈ s.live q ∨ e ∈ s.free → e ≠ q.allocated := fun e he =>
      Nat.ne_of_lt (h.made e he)
    refine ⟨q.allocated, { q with allocated := q.allocated + 1 }, s, if_pos halone, ?_,
      ⟨q.links, _, rfl⟩, rfl, rfl, ?_, ?_, Nat.lt_succ_self _⟩
    · exact { h with made := fun e he => Nat.lt_succ_of_lt (h.made e he) }
    · exact fun he => hnew _ (.inl he) rfl
    · exact fun he => hnew _ (.inr he) rfl
  · cases hfree : s.free using List.reverseRecOn with
    | nil =>
        rw [hfree] at hpool
        exact absurd (isRing_nil.mp hpool) halone
    | append_singleton free e =>
        have hprev := hpool.prev_head
        rw [hfree, List.map_append, List.map_singleton, List.getLastD_concat] at hprev
        have hget : q.poolGet = some (e, { q with links := q.links.detach (.event e) }) := by
          rw [EventsQueue.poolGet, if_neg halone, hprev]
        obtain ⟨hrings, hnodup⟩ := h.members_get hfree
        have hmem : e ∈ s.free := hfree ▸ List.mem_concat_self
        have hfewer : ∀ x ∈ free, x ∈ s.free := fun x hx => hfree ▸ List.mem_append_left _ hx
        have hdead : e ∉ s.live q := fun he => h.kept e he hmem
        refine ⟨e, _, { s with free := free }, hget, ?_, ⟨_, q.allocated, rfl⟩, rfl, rfl, hdead,
          hnodup,
          h.made e (.inr hmem)⟩
        exact { h with
          kept := fun x hx hxf => h.kept x hx (hfewer x hxf)
          made := fun x hx => h.made x (hx.imp_right (hfewer x))
          rings := hrings }

/-! Inserting an event -/

theorem cycle_ne (h : Shows q a s) {c : Tick} (hc : q.currentCycle < c)
    (hevents : ∀ x ∈ s.events, q.cycleOf x ≠ c) {x : Nat} (hx : x ∈ s.live q) : q.cycleOf x ≠ c := by
  rcases List.mem_append.mp hx with hx | hx
  · rw [h.drains x (Option.mem_toList.mp hx)]
    exact BitVec.ne_of_lt hc
  · exact hevents x hx

/-- No waiter is due at the new event yet. -/
theorem bucket_new (h : Shows q a s) {c : Tick} (hc : q.currentCycle < c)
    (hevents : ∀ x ∈ s.events, q.cycleOf x ≠ c) : bucket a.pending (s.base + c.toNat) = [] := by
  refine List.eq_nil_iff_forall_not_mem.mpr fun w hw => ?_
  obtain ⟨x, hx, hdue⟩ := h.covered _ (mem_bucket.mp hw)
  exact h.cycle_ne hc hevents hx (BitVec.eq_of_toNat_eq (Nat.add_left_cancel hdue)).symm

theorem addEvent (h : Shows q a s) {as bs : List Nat} {c : Tick} (hevents : s.events = as ++ bs)
    (has : ∀ x ∈ as, q.cycleOf x < c) (hbs : ∀ x ∈ bs, c < q.cycleOf x) (hc : q.currentCycle < c)
    (hlive : e ∉ s.live q) (hfree : e ∉ s.free) (hmade : e < q.allocated) :
    Shows ((q.setCycle e c).linkEvent e as.getLast?) a { s with events := as ++ e :: bs } := by
  have hin : ∀ x ∈ as ++ bs, x ∈ s.live q := fun x hx => List.mem_append_right _ (hevents ▸ hx)
  have htrav : as.getLast? ≠ some e := fun heq =>
    hlive (hin e (List.mem_append_left bs (List.mem_of_getLast? heq)))
  have hne : ∀ x ∈ s.events, q.cycleOf x ≠ c := by
    intro x hx
    rw [hevents] at hx
    rcases List.mem_append.mp hx with hx | hx
    · exact BitVec.ne_of_lt (has x hx)
    · exact (BitVec.ne_of_lt (hbs x hx)).symm
  have hspine := (q.setCycle e c).spine_linkEvent htrav
  have hnew : (q.setCycle e c).cycleOf e = c := Function.update_self _ _ _
  have hold : ∀ x ∈ s.live q, (q.setCycle e c).cycleOf x = q.cycleOf x := fun x hx =>
    Function.update_of_ne (ne_of_mem_of_not_mem hx hlive) _ _
  obtain ⟨next, prev, head, tail, hlink, -⟩ := (q.setCycle e c).linkEvent_frame e as.getLast?
  have hcycleOf := congrArg cycleOf hlink
  have hdraining := congrArg draining hlink
  have hcurrent := congrArg currentCycle hlink
  have hallocated := congrArg allocated hlink
  have hlinks := congrArg links hlink
  clear hlink
  generalize (q.setCycle e c).linkEvent e as.getLast? = q' at *
  dsimp only at hcycleOf hdraining hcurrent hallocated hlinks
  rw [← hcycleOf] at hnew hold
  have hlive' : ∀ x, x ∈ Layout.live { s with events := as ++ e :: bs } q' ↔
      x = e ∨ x ∈ s.live q := by
    intro x
    rw [Layout.live, Layout.live, hevents, hdraining]
    simp only [List.mem_append, List.mem_cons]
    tauto
  have hdue : ∀ x ∈ s.live q, Layout.due { s with events := as ++ e :: bs } q' x = s.due q x :=
    fun x hx => congrArg (s.base + ·.toNat) (hold x hx)
  refine ⟨h.valid, ?_, ?_, ?_, ?_, ?_, ?_, ?_, ?_, ?_⟩
  · rw [hcurrent]
    exact h.now
  · have hring := h.spine
    rw [hevents, List.map_append] at hring
    have hlast : (as.map some).getLastD none = as.getLast? := by
      rw [List.getLastD_eq_getLast?, List.getLast?_map]
      cases as.getLast? <;> rfl
    have hnotMem : some e ∉ none :: (as.map some ++ bs.map some) := by
      rw [← List.map_append]
      simpa using fun he => hlive (hin e (List.mem_append.mpr he))
    have hins := hring.insertAfter hnotMem
    rw [hlast] at hins
    rw [hspine, List.map_append, List.map_cons]
    exact hins
  · have hpairs : (as ++ bs).Pairwise fun x y => q'.cycleOf x < q'.cycleOf y := by
      rw [← hevents]
      refine h.increasing.imp_of_mem fun hx hy hlt => ?_
      rwa [hold _ (List.mem_append_right _ hx), hold _ (List.mem_append_right _ hy)]
    rw [List.pairwise_append] at hpairs
    refine List.pairwise_append.mpr ⟨hpairs.1, List.pairwise_cons.mpr ⟨fun y hy => ?_, hpairs.2.1⟩,
      fun x hx y hy => ?_⟩
    · rw [hnew, hold y (hin y (List.mem_append_right as hy))]
      exact hbs y hy
    · rcases List.mem_cons.mp hy with rfl | hy
      · rw [hnew, hold x (hin x (List.mem_append_left bs hx))]
        exact has x hx
      · exact hpairs.2.2 x hx y hy
  · intro x hx
    rw [hcurrent]
    rcases List.mem_cons.mp (List.perm_middle.mem_iff.mp hx) with rfl | hx
    · rw [hnew]
      exact hc
    · rw [hold x (hin x hx)]
      exact h.future x (hevents ▸ hx)
  · intro x hx
    rw [hdraining] at hx
    rw [hcurrent, hold x (List.mem_append_left _ (Option.mem_toList.mpr hx))]
    exact h.drains x hx
  · intro x hx
    rcases (hlive' x).mp hx with rfl | hx
    · exact hfree
    · exact h.kept x hx
  · intro x hx
    rw [hallocated]
    rcases hx with hx | hx
    · rcases (hlive' x).mp hx with rfl | hx
      · exact hmade
      · exact h.made x (.inl hx)
    · exact h.made x (.inr hx)
  · intro p hp
    obtain ⟨x, hx, hpx⟩ := h.covered p hp
    exact ⟨x, (hlive' x).mpr (.inr hx), hpx.trans (hdue x hx).symm⟩
  · have hmembers : Layout.members { s with events := as ++ e :: bs } q' a.pending =
        s.members q a.pending := by
      funext x
      cases x with
      | pool | waiter w => rfl
      | event x =>
          refine if_congr Iff.rfl rfl ?_
          by_cases hxe : x = e
          · subst hxe
            have hdue : Layout.due { s with events := as ++ x :: bs } q' x = s.base + c.toNat :=
              congrArg (s.base + ·.toNat) hnew
            rw [if_pos ((hlive' x).mpr (.inl rfl)), if_neg hlive, hdue, h.bucket_new hc hne]
            rfl
          · by_cases hx : x ∈ s.live q
            · rw [if_pos hx, if_pos ((hlive' x).mpr (.inr hx)), hdue x hx]
            · rw [if_neg hx, if_neg fun hx' => ((hlive' x).mp hx').elim hxe hx]
    rw [hmembers, hlinks]
    exact h.rings

/-! Insertion -/

theorem getLastD_map_some (as : List Nat) : (as.map some).getLastD none = as.getLast? := by
  rw [List.getLastD_eq_getLast?, List.getLast?_map]
  cases as.getLast? <;> rfl

theorem prevEvent_eq (h : Shows q a s) {as bs : List Nat} (hevents : s.events = as ++ e :: bs) :
    q.prevEvent e = as.getLast? := by
  have hring := h.spine
  rw [hevents, List.map_append, List.map_cons] at hring
  exact hring.prev_mem.trans (getLastD_map_some as)

theorem tail_eq (h : Shows q a s) : q.tail = s.events.getLast? :=
  h.spine.prev_head.trans (getLastD_map_some s.events)

/-- The walk stops at an event of the cycle, or where one belongs. -/
theorem findSpot_spec (h : Shows q a s) {c : Tick} {as bs : List Nat} {fuel : Nat}
    (hevents : s.events = as ++ bs) (hbs : ∀ x ∈ bs, c < q.cycleOf x) (hfuel : as.length < fuel) :
    (∃ e ∈ s.events, q.cycleOf e = c ∧ q.findSpot c fuel as.getLast? = some (.at e)) ∨
    (∃ as' bs', s.events = as' ++ bs' ∧ (∀ x ∈ as', q.cycleOf x < c) ∧
      (∀ x ∈ bs', c < q.cycleOf x) ∧
        q.findSpot c fuel as.getLast? = some (.after as'.getLast?)) := by
  induction as using List.reverseRecOn generalizing bs fuel with
  | nil =>
      cases fuel with
      | zero => cases hfuel
      | succ fuel => exact .inr ⟨[], bs, hevents, List.forall_mem_nil _, hbs, rfl⟩
  | append_singleton as e ih =>
      rw [List.length_append, List.length_singleton] at hfuel
      cases fuel with
      | zero => cases hfuel
      | succ fuel =>
          rw [List.getLast?_concat, findSpot]
          by_cases hle : c ≤ q.cycleOf e
          · rw [if_pos hle]
            by_cases heq : q.cycleOf e = c
            · rw [if_pos heq]
              exact .inl ⟨e, hevents ▸ by simp, heq, rfl⟩
            · have hsplit : s.events = as ++ e :: bs := by rw [hevents, List.append_assoc]; rfl
              rw [if_neg heq, h.prevEvent_eq hsplit]
              refine ih hsplit (List.forall_mem_cons.mpr ⟨?_, hbs⟩) (Nat.lt_of_succ_lt_succ hfuel)
              bv_omega
          · rw [if_neg hle]
            have hlt : q.cycleOf e < c := BitVec.not_le.mp hle
            have hpairs := h.increasing
            rw [hevents, List.pairwise_append, List.pairwise_append] at hpairs
            refine .inr ⟨as ++ [e], bs, hevents, fun x hx => ?_, hbs, by rw [List.getLast?_concat]⟩
            rcases List.mem_append.mp hx with hx | hx
            · exact BitVec.lt_trans (hpairs.1.2.2 x hx e List.mem_cons_self) hlt
            · exact List.mem_singleton.mp hx ▸ hlt

theorem length_le (h : Shows q a s) : s.events.length ≤ q.allocated := by
  have hsub : s.events ⊆ List.range q.allocated := fun e he =>
    List.mem_range.mpr (h.made e (.inl (List.mem_append_right _ he)))
  have hnodup : s.events.Nodup := (List.nodup_cons.mp h.spine.nodup).2.of_map some
  have hle := (List.subperm_of_subset hnodup hsub).length_le
  rwa [List.length_range] at hle

/-- An insertion finds or makes the event of its cycle. -/
theorem insertAbsolute_eq (h : Shows q a s) (w : Waiter) {c : Tick} (hc : q.currentCycle < c) :
    ∃ e q' s', Shows q' a s' ∧ e ∈ s'.events ∧ s'.due q' e = s.base + c.toNat ∧
      q.insertAbsolute w c = (insertWaiter (.event e) (.waiter w) q'.links).map
        fun l => { q' with links := l } := by
  have hspot := h.findSpot_spec (List.append_nil s.events).symm (List.forall_mem_nil (c < q.cycleOf ·))
    (Nat.lt_succ_of_le h.length_le)
  rw [← h.tail_eq] at hspot
  rw [insertAbsolute, if_pos hc]
  rcases hspot with ⟨e, he, hcycle, hspot⟩ | ⟨as, bs, hevents, has, hbs, hspot⟩
  · rw [hspot]
    exact ⟨e, q, s, h, he, congrArg (s.base + ·.toNat) hcycle, rfl⟩
  · obtain ⟨e, q', s', hget, h', ⟨l, n, rfl⟩, hsame, hbase, hlive, hfree, hmade⟩ := h.poolGet
    rw [hspot]
    dsimp only
    rw [hget]
    have hlive' : e ∉ s'.live { q with links := l, allocated := n } := by
      rw [Layout.live, hsame]
      exact hlive
    have hadd := h'.addEvent (hsame.trans hevents) has hbs hc hlive' hfree hmade
    refine ⟨e, _, _, hadd, List.mem_append_right as List.mem_cons_self, ?_, ?_⟩
    · obtain ⟨_, _, _, _, hlink, -⟩ :=
        (({ q with links := l, allocated := n } : EventsQueue).setCycle e c).linkEvent_frame e
          as.getLast?
      rw [Layout.due, hlink, hbase]
      exact congrArg (fun c : Tick => s.base + c.toNat) (Function.update_self _ _ _)
    · obtain ⟨_, _, _, _, hlink, hcomm⟩ :=
        (({ q with links := l, allocated := n } : EventsQueue).setCycle e c).linkEvent_frame e
          as.getLast?
      rw [hlink]
      dsimp only [Option.bind_some]
      simp only [hcomm]

theorem insert (h : Shows q a s) {delta : Tick} {q' : EventsQueue}
    (hq : q.step (.insert w delta) = some q') :
    ∃ a' s', a.step (.insert w delta.toNat) = some a' ∧ Shows q' a' s' := by
  rw [EventsQueue.step, Option.ite_none_left_eq_some, EventsQueue.insert] at hq
  obtain ⟨hdelta, hq⟩ := hq
  have hc : q.currentCycle < q.currentCycle + delta := by
    rw [insertAbsolute, Option.ite_none_right_eq_some] at hq
    exact hq.1
  obtain ⟨e, q1, s1, h1, he, hdue, heq⟩ := h.insertAbsolute_eq w hc
  rw [heq, Option.map_eq_some_iff] at hq
  obtain ⟨l, hl, rfl⟩ := hq
  have hw : w ∉ a.pending.map Prod.fst := by
    rw [insertWaiter, Option.ite_none_right_eq_some] at hl
    exact h1.waiter_alone.mp hl.1
  have hdelay : 0 < delta.toNat := by bv_omega
  have hnow : a.now + delta.toNat = s1.due q1 e := by
    rw [h.now, hdue]
    bv_omega
  obtain ⟨l', a', hl', ha', h'⟩ := h1.insertAt he hdelay hnow hw
  obtain rfl : l = l' := Option.some.inj (hl.symm.trans hl')
  exact ⟨a', s1, ha', h'⟩

/-! A cycle -/

theorem pending_future (h : Shows q a s) (hdraining : q.draining = none) :
    ∀ p ∈ a.pending, a.now < p.2 := by
  intro p hp
  obtain ⟨e, he, hdue⟩ := h.covered p hp
  rw [Layout.live, hdraining] at he
  have hfuture := h.future e he
  rw [hdue, h.now, Layout.due]
  bv_omega

theorem head_eq (h : Shows q a s) : q.head = s.events.head? := by
  cases hevents : s.events with
  | nil => 
      have hring := h.spine
      rw [hevents] at hring
      exact hring.closed.1
  | cons e rest =>
      have hring := h.spine
      rw [hevents] at hring
      exact hring.next_head

/-- With nothing in the list the cycle counter may wrap around. -/
theorem doCycle_idle (h : Shows q a s) (hdraining : q.draining = none) (hevents : s.events = []) :
    ∃ q' a' s', q.doCycle = some q' ∧ a.step .tick = some a' ∧ Shows q' a' s' := by
  have htick : a.step .tick = some { a with now := a.now + 1 } :=
    if_pos (h.pending_future hdraining)
  have hhead : q.head = none := h.head_eq.trans (congrArg List.head? hevents)
  have hcycle : q.doCycle = some { q with currentCycle := q.currentCycle + 1 } := by
    simp only [EventsQueue.doCycle, hhead]
  have hdead : ∀ e, e ∉ s.live q := by
    intro e
    rw [Layout.live, hdraining, hevents]
    exact List.not_mem_nil
  refine ⟨_, _, { s with base := a.now + 1 - (q.currentCycle + 1).toNat }, hcycle, htick, ?_⟩
  refine { h with
    valid := h.valid.step htick
    now := ?_
    future := hevents ▸ List.forall_mem_nil _
    drains := hdraining ▸ nofun
    covered := fun p hp => ?_
    rings := h.rings_congr rfl rfl rfl fun e he => absurd he (hdead e) }
  · have hnow := h.now
    dsimp only
    bv_omega
  · obtain ⟨e, he, -⟩ := h.covered p hp
    exact absurd he (hdead e)

/-- Taking the first event out of the list. -/
theorem doCycle_pop (h : Shows q a s) {rest : List Nat} (hevents : s.events = e :: rest)
    (hcycle : q.cycleOf e = q.currentCycle + 1) :
    ∃ prev tail, q.doCycle = some { q with
          prevEvent := prev, currentCycle := q.currentCycle + 1, head := q.nextEvent e,
          tail := tail, draining := some e } ∧
        EventsQueue.spine { q with
          prevEvent := prev, currentCycle := q.currentCycle + 1, head := q.nextEvent e,
          tail := tail, draining := some e } = q.spine.unlink (some e) := by
  have hhead : q.head = some e := h.head_eq.trans (congrArg List.head? hevents)
  have hring := h.spine
  rw [hevents] at hring
  have hprev : q.prevEvent e = none := hring.closed.1.2
  have hle : q.currentCycle + 1 ≤ q.cycleOf e := hcycle ▸ BitVec.le_refl _
  cases hn : q.nextEvent e with
  | none =>
      refine ⟨q.prevEvent, none, ?_, ?_⟩
      · simp only [EventsQueue.doCycle, hhead, if_pos hle, if_pos hcycle, hn]
      · ext o <;> cases o <;> simp [EventsQueue.spine, Links.unlink_next, Links.unlink_prev, hprev,
          hn]
  | some n =>
      refine ⟨Function.update q.prevEvent n none, q.tail, ?_, ?_⟩
      · simp only [EventsQueue.doCycle, hhead, if_pos hle, if_pos hcycle, hn, setPrevEvent]
      · ext o <;> cases o <;> simp [EventsQueue.spine, Links.unlink_next, Links.unlink_prev, hprev,
          hn,
          Function.update_apply]

/-- The first event is taken out of the list when its cycle comes. -/
theorem doCycle_due (h : Shows q a s) (hdraining : q.draining = none) {rest : List Nat}
    (hevents : s.events = e :: rest) (hcycle : q.cycleOf e = q.currentCycle + 1) :
    ∃ q' a' s', q.doCycle = some q' ∧ a.step .tick = some a' ∧ Shows q' a' s' := by
  have htick : a.step .tick = some { a with now := a.now + 1 } :=
    if_pos (h.pending_future hdraining)
  have hring := h.spine
  have hpairs := h.increasing
  have hfuture := h.future e (hevents ▸ List.mem_cons_self)
  rw [hevents] at hring hpairs
  obtain ⟨prev, tail, hpop, hspine⟩ := h.doCycle_pop hevents hcycle
  have hlive : s.live q = e :: rest := by rw [Layout.live, hdraining, hevents]; rfl
  refine ⟨_, _, { s with events := rest }, hpop, htick, ?_⟩
  refine { h with
    valid := h.valid.step htick
    now := ?_
    spine := hspine ▸ @IsRing.unlink _ _ _ _ _ [] _ hring
    increasing := (List.pairwise_cons.mp hpairs).2
    future := fun x hx => ?_
    drains := fun x hx => ?_
    kept := fun x hx => h.kept x (hlive ▸ hx)
    made := fun x hx => h.made x (hx.imp_left fun hx => hlive ▸ hx)
    covered := ?_
    rings := h.rings_congr rfl rfl hlive.symm fun _ _ => rfl }
  · have hnow := h.now
    dsimp only
    bv_omega
  · have hlt := (List.pairwise_cons.mp hpairs).1 x hx
    rwa [hcycle] at hlt
  · obtain rfl : e = x := Option.some.inj hx
    exact hcycle
  · have hcovered := h.covered
    rw [hlive] at hcovered
    exact hcovered

/-- The first event is not due yet. -/
theorem doCycle_early (h : Shows q a s) (hdraining : q.draining = none) {rest : List Nat}
    (hevents : s.events = e :: rest) (hcycle : q.cycleOf e ≠ q.currentCycle + 1) :
    ∃ q' a' s', q.doCycle = some q' ∧ a.step .tick = some a' ∧ Shows q' a' s' := by
  have htick : a.step .tick = some { a with now := a.now + 1 } :=
    if_pos (h.pending_future hdraining)
  have hhead : q.head = some e := h.head_eq.trans (congrArg List.head? hevents)
  have hfuture := h.future e (hevents ▸ List.mem_cons_self)
  have hle : q.currentCycle + 1 ≤ q.cycleOf e := by bv_omega
  have hpairs := h.increasing
  rw [hevents] at hpairs
  refine ⟨{ q with currentCycle := q.currentCycle + 1 }, _, s, ?_, htick, ?_⟩
  · simp only [EventsQueue.doCycle, hhead, if_pos hle, if_neg hcycle]
  refine { h with
    valid := h.valid.step htick
    now := ?_
    future := fun x hx => ?_
    drains := hdraining ▸ nofun
    rings := h.rings_congr rfl rfl rfl fun _ _ => rfl }
  · have hnow := h.now
    dsimp only
    bv_omega
  · dsimp only
    rw [hevents] at hx
    rcases List.mem_cons.mp hx with rfl | hx
    · bv_omega
    · have hlt := (List.pairwise_cons.mp hpairs).1 x hx
      bv_omega

theorem doCycle (h : Shows q a s) (hdraining : q.draining = none) :
    ∃ q' a' s', q.step .doCycle = some q' ∧ a.step .tick = some a' ∧ Shows q' a' s' := by
  rw [EventsQueue.step, if_pos hdraining]
  cases hevents : s.events with
  | nil => exact h.doCycle_idle hdraining hevents
  | cons e rest =>
      by_cases hcycle : q.cycleOf e = q.currentCycle + 1
      · exact h.doCycle_due hdraining hevents hcycle
      · exact h.doCycle_early hdraining hevents hcycle

/-! Wake-ups -/

theorem wakeup (h : Shows q a s) {q' : EventsQueue} (hq : q.step (.wakeup w) = some q') :
    ∃ a', a.step (.deliver w) = some a' ∧ Shows q' a' s := by
  rw [EventsQueue.step, wakeNext] at hq
  cases hdraining : q.draining with
  | none =>
      rw [hdraining] at hq
      cases hq
  | some e =>
      simp only [hdraining, Option.ite_none_right_eq_some] at hq
      obtain ⟨⟨halone, hnext⟩, hq⟩ := hq
      obtain rfl := Option.some.inj hq
      have hlive : e ∈ s.live q := List.mem_append_left _ (by simp [hdraining])
      have hnow : s.due q e = a.now := by
        rw [Layout.due, h.drains e hdraining, h.now]
      have hring := h.rings.ring (h.members_event hlive)
      rw [hnow] at hring
      have hfind : a.pending.find? (·.2 = a.now) = some (w, a.now) := by
        rw [← List.head?_filter]
        cases hfirst : a.pending.filter (·.2 = a.now) with
        | nil =>
            rw [bucket, hfirst] at hring
            exact absurd (isRing_nil.mp hring) halone
        | cons p rest =>
            rw [bucket, hfirst] at hring
            have hp : p.2 = a.now := of_decide_eq_true
              (List.mem_filter.mp (hfirst ▸ List.mem_cons_self : p ∈ a.pending.filter (·.2 = a.now))).2
            have hw : p.1 = w := Node.waiter.inj (hring.next_head.symm.trans hnext)
            rw [List.head?_cons, ← hw, ← hp]
      obtain ⟨a', ha', h'⟩ := h.detach w
      refine ⟨a', ?_, h'⟩
      rw [Agenda.step, if_pos hfind]
      exact ha'

/-! The end of a cycle -/

theorem members_finish (hlive : s.live q = e :: s.events)
    (hne : ∀ x ∈ s.events, x ≠ e) (l : Links Node) :
    Layout.members { s with free := s.free ++ [e] } (q.finished e l) a.pending =
      Function.update (Function.update (s.members q a.pending) (.event e) none) .pool
        (some (s.free.map .event ++ [.event e])) := by
  have hrest : Layout.live { s with free := s.free ++ [e] } (q.finished e l) = s.events := rfl
  funext x
  cases x with
  | pool =>
      rw [Function.update_self, Layout.members, List.map_append]
      rfl
  | event x =>
      rw [Function.update_of_ne (by simp), Layout.members, hrest]
      by_cases hxe : x = e
      · subst hxe
        rw [Function.update_self, if_pos List.mem_concat_self]
      · rw [Function.update_of_ne (by simpa using hxe), Layout.members, hlive]
        refine if_congr (by simp [hxe]) rfl (ite_congr (by simp [hxe]) (fun hx => ?_) fun _ => rfl)
        have hcycle : (q.finished e l).cycleOf x = q.cycleOf x := Function.update_of_ne hxe _ _
        rw [Layout.due, Layout.due, hcycle]
  | waiter w =>
      rw [Function.update_of_ne (by simp), Function.update_of_ne (by simp)]
      rfl

theorem finish (h : Shows q a s) (hdraining : q.draining = some e) (halone : q.links.Alone (.event e)) :
    ∃ q' s', q.step .finish = some q' ∧ Shows q' a s' := by
  have hlive : s.live q = e :: s.events := by rw [Layout.live, hdraining]; rfl
  have he : e ∈ s.live q := hlive ▸ List.mem_cons_self
  have hmembers := h.members_event he
  have hempty : bucket a.pending (s.due q e) = [] :=
    List.map_eq_nil_iff.mp ((h.rings.ring hmembers).alone_head.mp halone)
  have hpool := members_pool q a s
  rw [hempty] at hmembers
  have hinsert := insertWaiter_eq h.rings hpool hmembers nofun
  have hrings := h.rings.insertLast hpool hmembers nofun
  have hne : ∀ x ∈ s.events, x ≠ e := by
    have hpairs := h.live_increasing
    rw [hlive] at hpairs
    rintro x hx rfl
    exact BitVec.lt_irrefl _ ((List.pairwise_cons.mp hpairs).1 x hx)
  generalize q.links.insertAfter (.event e) (q.links.prev .pool) = l at hinsert hrings
  have hcycle : ∀ x ∈ s.events, (q.finished e l).cycleOf x = q.cycleOf x :=
    fun x hx => Function.update_of_ne (hne x hx) _ _
  rw [← members_finish hlive hne l] at hrings
  have hfinish : q.step .finish = some (q.finished e l) := by
    simp only [EventsQueue.step, EventsQueue.finish, hdraining, if_pos halone]
    exact congrArg (Option.map (q.finished e)) hinsert
  refine ⟨q.finished e l, { s with free := s.free ++ [e] }, hfinish, ?_⟩
  refine ⟨h.valid, h.now, ?_, ?_, ?_, nofun, ?_, ?_, ?_, hrings⟩
  · have hframe : ∀ z ∈ none :: s.events.map some, (q.finished e l).spine.next z = q.spine.next z ∧
        (q.finished e l).spine.prev z = q.spine.prev z := by
      intro z hz
      cases z with
      | none => exact ⟨rfl, rfl⟩
      | some x =>
          have hx : x ≠ e := hne x (by simpa using hz)
          exact ⟨Function.update_of_ne hx _ _, Function.update_of_ne hx _ _⟩
    exact h.spine.frame (fun z hz => (hframe z hz).1) fun z hz => (hframe z hz).2
  · refine h.increasing.imp_of_mem fun hx hy hlt => ?_
    rwa [hcycle _ hx, hcycle _ hy]
  · intro x hx
    rw [hcycle x hx]
    exact h.future x hx
  · intro x hx hfree
    rcases List.mem_append.mp hfree with hfree | hfree
    · exact h.kept x (hlive ▸ List.mem_cons_of_mem e hx) hfree
    · exact hne x hx (List.mem_singleton.mp hfree)
  · intro x hx
    refine h.made x ?_
    rw [hlive]
    rcases hx with hx | hx
    · exact .inl (List.mem_cons_of_mem e hx)
    · rcases List.mem_append.mp hx with hx | hx
      · exact .inr hx
      · exact .inl (List.mem_singleton.mp hx ▸ List.mem_cons_self)
  · intro p hp
    obtain ⟨x, hx, hdue⟩ := h.covered p hp
    rw [hlive] at hx
    rcases List.mem_cons.mp hx with rfl | hx
    · have hmem : p.1 ∈ bucket a.pending (s.due q x) := mem_bucket.mpr (hdue ▸ hp)
      rw [hempty] at hmem
      cases hmem
    · refine ⟨x, hx, hdue.trans ?_⟩
      rw [Layout.due, Layout.due, hcycle x hx]

theorem canCycle (h : Shows q a s) : CanCycle q := by
  constructor
  · intro hdraining
    obtain ⟨q', a', s', hq, -⟩ := h.doCycle hdraining
    rw [hq]
    rfl
  · intro hdraining
    obtain ⟨e, hdraining⟩ := Option.ne_none_iff_exists'.mp hdraining
    have he : e ∈ s.live q := List.mem_append_left _ (by simp [hdraining])
    have hring := h.rings.ring (h.members_event he)
    by_cases halone : q.links.Alone (.event e)
    · obtain ⟨q', s', hq, -⟩ := h.finish hdraining halone
      rw [hq]
      exact .inl rfl
    · right
      cases hbucket : bucket a.pending (s.due q e) with
      | nil =>
          rw [hbucket] at hring
          exact absurd (isRing_nil.mp hring) halone
      | cons w ws =>
          rw [hbucket] at hring
          refine ⟨w, ?_⟩
          simp only [EventsQueue.step, wakeNext, hdraining]
          rw [if_pos ⟨halone, hring.next_head⟩]
          rfl

theorem inserts (h : Shows q a s) {delta : Tick} (hdelta : delta ≠ 0)
    (halone : q.links.Alone (.waiter w)) (hc : q.currentCycle < q.currentCycle + delta) :
    (q.step (.insert w delta)).isSome := by
  obtain ⟨e, q1, s1, h1, he, hdue, heq⟩ := h.insertAbsolute_eq w hc
  have hdelay : 0 < delta.toNat := by bv_omega
  have hnow : a.now + delta.toNat = s1.due q1 e := by
    rw [h.now, hdue]
    bv_omega
  obtain ⟨l, a', hl, -, -⟩ := h1.insertAt he hdelay hnow (h.waiter_alone.mp halone)
  rw [EventsQueue.step, if_neg hdelta, EventsQueue.insert, heq, hl]
  rfl

theorem step (h : Shows q a s) {action : Action} {q' : EventsQueue}
    (hq : q.step action = some q') :
    ∃ a' s', run Agenda.step a (history [action]) = some a' ∧ Shows q' a' s' := by
  have hact : ∀ {x a'}, a.step x = some a' → run Agenda.step a [x] = some a' := fun hx =>
    run_cons_eq_some.mpr ⟨_, hx, rfl⟩
  cases action with
  | insert w delta =>
      obtain ⟨a', s', ha, h'⟩ := h.insert hq
      exact ⟨a', s', hact ha, h'⟩
  | detach w =>
      obtain rfl := Option.some.inj hq
      obtain ⟨a', ha, h'⟩ := h.detach w
      exact ⟨a', s, hact ha, h'⟩
  | doCycle =>
      have hdraining : q.draining = none := by
        rw [EventsQueue.step, Option.ite_none_right_eq_some] at hq
        exact hq.1
      obtain ⟨q1, a', s', hq1, ha, h'⟩ := h.doCycle hdraining
      obtain rfl : q' = q1 := Option.some.inj (hq.symm.trans hq1)
      exact ⟨a', s', hact ha, h'⟩
  | wakeup w =>
      obtain ⟨a', ha, h'⟩ := h.wakeup hq
      exact ⟨a', s, hact ha, h'⟩
  | finish =>
      have hq' := hq
      rw [EventsQueue.step, EventsQueue.finish] at hq'
      cases hdraining : q.draining with
      | none =>
          rw [hdraining] at hq'
          cases hq'
      | some e =>
          simp only [hdraining, Option.ite_none_right_eq_some] at hq'
          obtain ⟨q1, s', hq1, h'⟩ := h.finish hdraining hq'.1
          obtain rfl : q' = q1 := Option.some.inj (hq.symm.trans hq1)
          exact ⟨a, s', rfl, h'⟩

theorem run (h : Shows q a s) {actions : List Action} {q' : EventsQueue}
    (hq : EventSystem.run EventsQueue.step q actions = some q') :
    ∃ a' s', EventSystem.run Agenda.step a (history actions) = some a' ∧ Shows q' a' s' := by
  induction actions generalizing q a s with
  | nil =>
      obtain rfl := Option.some.inj hq
      exact ⟨a, s, rfl, h⟩
  | cons action actions ih =>
      obtain ⟨q1, hq1, hrest⟩ := run_cons_eq_some.mp hq
      obtain ⟨a1, s1, ha1, h1⟩ := h.step hq1
      obtain ⟨a', s', ha', h'⟩ := ih h1 hrest
      refine ⟨a', s', ?_, h'⟩
      have hsplit : history (action :: actions) = history [action] ++ history actions :=
        List.filterMap_append (l := [action])
      rw [hsplit, run_append, ha1]
      exact ha'

end Shows

theorem shows_init : Shows init Agenda.empty { events := [], free := [], base := 0 } where
  valid := ⟨List.nodup_nil, List.forall_mem_nil _⟩
  now := rfl
  spine := isRing_nil.mpr ⟨rfl, rfl⟩
  increasing := List.Pairwise.nil
  future := List.forall_mem_nil _
  drains := nofun
  kept := List.forall_mem_nil _
  made := by simp [Layout.live, init]
  covered := List.forall_mem_nil _
  rings := by
    have hnone : ∀ {x xs}, Layout.members { events := [], free := [], base := 0 } init [] x =
        some xs → xs = [] := by
      intro x xs hx
      cases x <;> exact (Option.some.inj hx).symm
    constructor
    · intro x xs hx
      rw [hnone hx]
      exact isRing_nil.mpr ⟨rfl, rfl⟩
    · intro x xs y ys hx hy hxy
      rw [hnone hx, hnone hy]
      simpa using hxy.symm

/-- After any run, with what has been done in it. -/
structure OnTime (actions : List Action) (q : EventsQueue) : Prop where
  increasing : q.Increasing
  cycles : CanCycle q
  inserts : ∀ w delta, delta ≠ 0 → q.links.Alone (.waiter w) →
    q.currentCycle < q.currentCycle + delta → (q.step (.insert w delta)).isSome
  delivered : Agenda.Delivered (history actions) (q.draining = none)

/-- Over every run. -/
theorem delivers_on_time {actions : List Action} {q : EventsQueue}
    (hq : run step init actions = some q) : OnTime actions q := by
  obtain ⟨a, s, ha, h⟩ := shows_init.run hq
  exact ⟨⟨s.events, h.spine, h.increasing⟩, h.canCycle,
    fun _ _ hdelta halone hc => h.inserts hdelta halone hc, Agenda.delivered ha h.pending_future⟩

theorem delivers_on_time_nested : ∃ q, run step init [.insert 1 2, .insert 2 1, .insert 3 2,
    .doCycle, .wakeup 2, .insert 2 1, .detach 1, .finish, .doCycle, .wakeup 3, .insert 1 4] = some q ∧
      OnTime [.insert 1 2, .insert 2 1, .insert 3 2, .doCycle, .wakeup 2, .insert 2 1, .detach 1,
        .finish, .doCycle, .wakeup 3, .insert 1 4] q :=
  ⟨_, rfl, delivers_on_time rfl⟩

end EventsQueue
end FeS2.Pyrite.Events
