import FeS2.Common.PrioHeap
import FeS2.Library.EventSystem

/-!
The event queue and its consumers. A consumer remembers the time it was last scheduled for and
the time it last woke; with the two, repeated wake-ups are left out. A call of `triggerEvents` is
a loop of wake-ups, in which the consumers may schedule more.
-/

namespace FeS2.Ruby
open FeS2.Common EventSystem

structure EventQueueNode (κ : Type) where
  m_time : Nat
  m_consumer_ptr : κ

namespace EventQueueNode
variable {κ : Type}

/-- `node_less_then_eq`. -/
def LessThenEq (n1 n2 : EventQueueNode κ) : Prop := n1.m_time ≤ n2.m_time

instance : DecidableRel (LessThenEq (κ := κ)) := fun n1 n2 =>
  inferInstanceAs (Decidable (n1.m_time ≤ n2.m_time))

instance : Std.Total (LessThenEq (κ := κ)) := ⟨fun n1 n2 => Nat.le_total n1.m_time n2.m_time⟩

instance : IsTrans (EventQueueNode κ) LessThenEq := ⟨fun _ _ _ h h' => Nat.le_trans h h'⟩

end EventQueueNode

/-- Where the control is: outside of `triggerEvents`, at the head of its loop, or in the
`wakeup` of a consumer. -/
inductive TriggerPhase (κ : Type)
  | outside
  | looping (t : Nat)
  | waking (t : Nat) (c : κ)

/-- The queue and its consumers, with what was asked for, which of it is still to come, and who
was woken when, and with the times it has been. -/
structure Wakeups (κ : Type) where
  m_globalTime : Nat
  m_prio_heap : PrioHeap (EventQueueNode κ)
  m_last_scheduled_wakeup : κ → Nat
  m_last_wakeup : κ → Nat
  phase : TriggerPhase κ
  asked : List (κ × Nat)
  pending : List (κ × Nat)
  woken : List (κ × Nat)
  times : List Nat

namespace Wakeups
variable {κ : Type} [DecidableEq κ]

def init (c : κ) : Wakeups κ where
  m_globalTime := 1
  m_prio_heap := { m_heap := fun _ => { m_time := 0, m_consumer_ptr := c }, m_current_size := 0 }
  m_last_scheduled_wakeup _ := 0
  m_last_wakeup _ := 0
  phase := .outside
  asked := []
  pending := []
  woken := []
  times := [1]

/-- `none` is the assertion that the time is still to come. -/
def scheduleEventAbsolute (c : κ) (timeAbs : Nat) (s : Wakeups κ) : Option (Wakeups κ) :=
  let s' :=
    if s.m_globalTime < timeAbs then
      { s with asked := s.asked ++ [(c, timeAbs)], pending := s.pending ++ [(c, timeAbs)] }
    else s
  if s.m_last_scheduled_wakeup c ≠ timeAbs then
    if s.m_globalTime < timeAbs then
      some
        { s' with
          m_prio_heap := s.m_prio_heap.insert EventQueueNode.LessThenEq
            { m_time := timeAbs, m_consumer_ptr := c }
          m_last_scheduled_wakeup := Function.update s.m_last_scheduled_wakeup c timeAbs }
    else none
  else some s'

def scheduleEvent (c : κ) (timeDelta : Nat) (s : Wakeups κ) : Option (Wakeups κ) :=
  s.scheduleEventAbsolute c (timeDelta + s.m_globalTime)

/-- The condition of the loop of `triggerEvents`. -/
def More (t : Nat) (s : Wakeups κ) : Prop :=
  0 < s.m_prio_heap.size ∧ s.m_prio_heap.peekMin.m_time ≤ t

instance (t : Nat) (s : Wakeups κ) : Decidable (s.More t) :=
  inferInstanceAs (Decidable (0 < s.m_prio_heap.size ∧ s.m_prio_heap.peekMin.m_time ≤ t))

/-- `triggerWakeup`, up to the end of the `wakeup` that it may call. -/
def triggerWakeup (t : Nat) (c : κ) (s : Wakeups κ) : Wakeups κ :=
  if s.m_last_wakeup c ≠ s.m_globalTime then
    { s with
      phase := .waking t c
      woken := s.woken ++ [(c, s.m_globalTime)]
      pending := s.pending.filter (· ≠ (c, s.m_globalTime)) }
  else s

/-- One turn of the loop. -/
def turn (t : Nat) (s : Wakeups κ) : Wakeups κ :=
  let time := s.m_prio_heap.peekMin.m_time
  let r := s.m_prio_heap.extractMin EventQueueNode.LessThenEq
  triggerWakeup t r.1.m_consumer_ptr
    { s with m_globalTime := time, m_prio_heap := r.2, times := s.times ++ [time] }

inductive Event (κ : Type)
  | scheduleEventAbsolute (c : κ) (timeAbs : Nat)
  | scheduleEvent (c : κ) (timeDelta : Nat)
  | triggerEvents (t : Nat)
  | turn
  | wakeupReturns
  | loopEnds

/-- Consumers are scheduled from outside or from within a `wakeup`. -/
def step (s : Wakeups κ) : Event κ → Option (Wakeups κ)
  | .scheduleEventAbsolute c timeAbs =>
      match s.phase with
      | .looping _ => none
      | .outside | .waking _ _ => s.scheduleEventAbsolute c timeAbs
  | .scheduleEvent c timeDelta =>
      match s.phase with
      | .looping _ => none
      | .outside | .waking _ _ => s.scheduleEvent c timeDelta
  | .triggerEvents t =>
      match s.phase with
      | .outside => some { s with phase := .looping t }
      | .looping _ | .waking _ _ => none
  | .turn =>
      match s.phase with
      | .looping t => if s.More t then some (s.turn t) else none
      | .outside | .waking _ _ => none
  | .wakeupReturns =>
      match s.phase with
      | .waking t c =>
          some
            { s with
              m_last_wakeup := Function.update s.m_last_wakeup c s.m_globalTime
              phase := .looping t }
      | .outside | .looping _ => none
  | .loopEnds =>
      match s.phase with
      | .looping t =>
          if s.More t then none
          else some { s with m_globalTime := t, phase := .outside, times := s.times ++ [t] }
      | .outside | .waking _ _ => none

/-- Every call is answered by its time, nobody is woken twice at one time or without having
asked, and the time goes forward. -/
structure Sound (s : Wakeups κ) : Prop where
  answered : s.phase = .outside → ∀ x ∈ s.pending, s.m_globalTime < x.2
  once : s.woken.Nodup
  asked_for : ∀ x ∈ s.woken, x ∈ s.asked
  forward : s.times.Pairwise (· ≤ ·)

/-- `triggerEvents` is not called with a time that is over. -/
def Forward (s : Wakeups κ) : Event κ → Prop
  | .triggerEvents t => s.m_globalTime ≤ t
  | _ => True

/-! What the two filters leave in the heap -/

def nodeOf (x : κ × Nat) : EventQueueNode κ := { m_time := x.2, m_consumer_ptr := x.1 }

omit [DecidableEq κ] in
theorem nodeOf_inj {x y : κ × Nat} (h : nodeOf x = nodeOf y) : x = y :=
  Prod.ext (congrArg EventQueueNode.m_consumer_ptr h) (congrArg EventQueueNode.m_time h)

structure Inv (s : Wakeups κ) : Prop where
  ordered : s.m_prio_heap.Ordered EventQueueNode.LessThenEq
  later : ∀ n ∈ s.m_prio_heap.contents, s.m_globalTime ≤ n.m_time
  after : s.phase = .outside → ∀ n ∈ s.m_prio_heap.contents, s.m_globalTime < n.m_time
  known : ∀ n ∈ s.m_prio_heap.contents, (n.m_consumer_ptr, n.m_time) ∈ s.asked
  scheduled : ∀ c, s.m_globalTime < s.m_last_scheduled_wakeup c →
    nodeOf (c, s.m_last_scheduled_wakeup c) ∈ s.m_prio_heap.contents
  kept : ∀ x ∈ s.pending, nodeOf x ∈ s.m_prio_heap.contents ∧ s.m_last_wakeup x.1 < x.2
  within : ∀ t, s.phase = .looping t → s.m_globalTime ≤ t
  waking : ∀ t c, s.phase = .waking t c → s.m_globalTime ≤ t ∧ s.m_last_wakeup c < s.m_globalTime ∧
    ∀ x ∈ s.pending, x.1 = c → s.m_globalTime < x.2
  slept : ∀ c, s.m_last_wakeup c ≤ s.m_globalTime
  woke : ∀ x ∈ s.woken, x.2 ≤ s.m_last_wakeup x.1 ∨
    ∃ t, s.phase = .waking t x.1 ∧ x.2 = s.m_globalTime
  once : s.woken.Nodup
  asked_for : ∀ x ∈ s.woken, x ∈ s.asked
  forward : s.times.Pairwise (· ≤ ·)
  past : ∀ t ∈ s.times, t ≤ s.m_globalTime

omit [DecidableEq κ] in
theorem Inv.sound {s : Wakeups κ} (h : s.Inv) : s.Sound where
  answered := fun hphase x hx => h.after hphase (nodeOf x) (h.kept x hx).1
  once := h.once
  asked_for := h.asked_for
  forward := h.forward

omit [DecidableEq κ] in
theorem inv_init (c : κ) : (init c).Inv where
  ordered := fun _ hj hn => absurd (Nat.lt_of_lt_of_le hj hn) (Nat.not_lt_zero 1)
  later := fun _ hn => absurd hn (Multiset.notMem_zero _)
  after := fun _ _ hn => absurd hn (Multiset.notMem_zero _)
  known := fun _ hn => absurd hn (Multiset.notMem_zero _)
  scheduled := fun _ hlt => absurd hlt (Nat.not_lt_zero 1)
  kept := fun _ hx => absurd hx List.not_mem_nil
  within := fun _ hphase => by cases hphase
  waking := fun _ _ hphase => by cases hphase
  slept := fun _ => Nat.zero_le 1
  woke := fun _ hx => absurd hx List.not_mem_nil
  once := List.nodup_nil
  asked_for := fun _ hx => absurd hx List.not_mem_nil
  forward := List.pairwise_singleton _ _
  past := fun _ ht => (List.mem_singleton.mp ht).le

omit [DecidableEq κ] in
theorem Inv.ask {s : Wakeups κ} (h : s.Inv) (x : κ × Nat) :
    Inv { s with asked := s.asked ++ [x] } :=
  { h with
    known := fun n hn => List.mem_append_left _ (h.known n hn)
    asked_for := fun y hy => List.mem_append_left _ (h.asked_for y hy) }

omit [DecidableEq κ] in
theorem Inv.promise {s : Wakeups κ} (h : s.Inv) {x : κ × Nat}
    (hmem : nodeOf x ∈ s.m_prio_heap.contents) (hlt : s.m_globalTime < x.2) :
    Inv { s with pending := s.pending ++ [x] } :=
  { h with
    kept := fun y hy => by
      cases List.mem_append.mp hy with
      | inl hold => exact h.kept y hold
      | inr hnew =>
          rw [List.mem_singleton.mp hnew]
          exact ⟨hmem, (h.slept x.1).trans_lt hlt⟩
    waking := fun t c hphase => by
      obtain ⟨hle, hlast, hpending⟩ := h.waking t c hphase
      refine ⟨hle, hlast, fun y hy hyc => ?_⟩
      cases List.mem_append.mp hy with
      | inl hold => exact hpending y hold hyc
      | inr hnew => exact List.mem_singleton.mp hnew ▸ hlt }

theorem Inv.insert {s : Wakeups κ} (h : s.Inv) {c : κ} {timeAbs : Nat}
    (hasked : (c, timeAbs) ∈ s.asked) (hlt : s.m_globalTime < timeAbs) : Inv
      { s with
        m_prio_heap := s.m_prio_heap.insert EventQueueNode.LessThenEq
          { m_time := timeAbs, m_consumer_ptr := c }
        m_last_scheduled_wakeup := Function.update s.m_last_scheduled_wakeup c timeAbs } := by
  have hmem : ∀ n, n ∈ (s.m_prio_heap.insert EventQueueNode.LessThenEq
      { m_time := timeAbs, m_consumer_ptr := c }).contents ↔
      n = nodeOf (c, timeAbs) ∨ n ∈ s.m_prio_heap.contents := fun n => by
    rw [PrioHeap.insert_contents, Multiset.mem_cons]
    rfl
  exact
    { h with
      ordered := h.ordered.insert _
      later := fun n hn => by
        cases (hmem n).mp hn with
        | inl hnew => exact hnew ▸ hlt.le
        | inr hold => exact h.later n hold
      after := fun hphase n hn => by
        cases (hmem n).mp hn with
        | inl hnew => exact hnew ▸ hlt
        | inr hold => exact h.after hphase n hold
      known := fun n hn => by
        cases (hmem n).mp hn with
        | inl hnew => exact hnew ▸ hasked
        | inr hold => exact h.known n hold
      scheduled := fun d hd => by
        by_cases hdc : d = c
        · subst hdc
          dsimp only
          rw [Function.update_self]
          exact (hmem _).mpr (.inl rfl)
        · dsimp only at hd ⊢
          rw [Function.update_of_ne hdc] at hd ⊢
          exact (hmem _).mpr (.inr (h.scheduled d hd))
      kept := fun x hx => ⟨(hmem _).mpr (.inr (h.kept x hx).1), (h.kept x hx).2⟩ }

/-- A call is in the heap, whether it was put there or was redundant. -/
theorem Inv.scheduleEventAbsolute {s s' : Wakeups κ} (h : s.Inv) {c : κ} {timeAbs : Nat}
    (hcall : s.scheduleEventAbsolute c timeAbs = some s') : s'.Inv := by
  rw [Wakeups.scheduleEventAbsolute] at hcall
  have hask := h.ask (c, timeAbs)
  by_cases hlt : s.m_globalTime < timeAbs
  · rw [if_pos hlt] at hcall
    split at hcall
    · cases hcall
      have hinsert := hask.insert (List.mem_append_right _ List.mem_cons_self) hlt
      refine hinsert.promise ?_ hlt
      rw [PrioHeap.insert_contents]
      exact Multiset.mem_cons_self _ _
    · rename_i hlast
      rw [not_ne_iff] at hlast
      cases hcall
      refine hask.promise ?_ hlt
      subst hlast
      exact h.scheduled c hlt
  · rw [if_neg hlt] at hcall
    split at hcall
    · cases hcall
    · cases hcall
      exact h

/-- The least node of the heap is woken, unless its consumer has woken at that time. -/
theorem Inv.turn {s : Wakeups κ} (h : s.Inv) {t : Nat} (hphase : s.phase = .looping t)
    (hmore : s.More t) : (s.turn t).Inv := by
  obtain ⟨hsize, htime⟩ := hmore
  have hsplit := PrioHeap.extractMin_contents EventQueueNode.LessThenEq hsize
  have hrest : ∀ n ∈ (s.m_prio_heap.extractMin EventQueueNode.LessThenEq).2.contents,
      n ∈ s.m_prio_heap.contents := fun n hn => hsplit ▸ Multiset.mem_cons_of_mem hn
  have hstay : ∀ n ∈ s.m_prio_heap.contents, n ≠ s.m_prio_heap.peekMin →
      n ∈ (s.m_prio_heap.extractMin EventQueueNode.LessThenEq).2.contents := fun n hn hne =>
    (Multiset.mem_cons.mp (hsplit ▸ hn)).resolve_left hne
  have hmem := PrioHeap.peekMin_mem hsize
  have hmin : ∀ n ∈ s.m_prio_heap.contents, s.m_prio_heap.peekMin.m_time ≤ n.m_time :=
    h.ordered.peekMin_le
  have hnow := h.later _ hmem
  have hwoke : ∀ x ∈ s.woken, x.2 ≤ s.m_last_wakeup x.1 := fun x hx => by
    cases h.woke x hx with
    | inl hslept => exact hslept
    | inr hnow =>
        obtain ⟨t', hwaking, -⟩ := hnow
        rw [hphase] at hwaking
        cases hwaking
  have hscheduled : ∀ c, s.m_prio_heap.peekMin.m_time < s.m_last_scheduled_wakeup c →
      nodeOf (c, s.m_last_scheduled_wakeup c) ∈
        (s.m_prio_heap.extractMin EventQueueNode.LessThenEq).2.contents := fun c hc =>
    hstay _ (h.scheduled c (hnow.trans_lt hc)) fun heq =>
      hc.ne' (congrArg EventQueueNode.m_time heq)
  have hforward : (s.times ++ [s.m_prio_heap.peekMin.m_time]).Pairwise (· ≤ ·) :=
    List.pairwise_append.mpr ⟨h.forward, List.pairwise_singleton _ _,
      fun a ha b hb => List.mem_singleton.mp hb ▸ (h.past a ha).trans hnow⟩
  have hpast : ∀ a ∈ s.times ++ [s.m_prio_heap.peekMin.m_time],
      a ≤ s.m_prio_heap.peekMin.m_time := fun a ha => by
    cases List.mem_append.mp ha with
    | inl hold => exact (h.past a hold).trans hnow
    | inr hnew => exact (List.mem_singleton.mp hnew).le
  have hslept : ∀ c, s.m_last_wakeup c ≤ s.m_prio_heap.peekMin.m_time := fun c =>
    (h.slept c).trans hnow
  rw [Wakeups.turn, triggerWakeup]
  split
  · rename_i hlast
    have hlt := Nat.lt_of_le_of_ne (hslept s.m_prio_heap.peekMin.m_consumer_ptr) hlast
    exact
      { h with
        ordered := h.ordered.extractMin
        later := fun n hn => hmin n (hrest n hn)
        after := fun hout => by cases hout
        known := fun n hn => h.known n (hrest n hn)
        scheduled := hscheduled
        kept := fun x hx => by
          obtain ⟨hx, hne⟩ := List.mem_filter.mp hx
          refine ⟨hstay _ (h.kept x hx).1 fun heq => of_decide_eq_true hne ?_, (h.kept x hx).2⟩
          exact nodeOf_inj heq
        within := fun t' hloop => by cases hloop
        waking := fun t' c' hwaking => by
          cases hwaking
          refine ⟨htime, hlt, fun x hx hxc => ?_⟩
          obtain ⟨hx, hne⟩ := List.mem_filter.mp hx
          refine Nat.lt_of_le_of_ne (hmin _ (h.kept x hx).1) fun heq => ?_
          exact of_decide_eq_true hne (Prod.ext hxc heq.symm)
        slept := hslept
        woke := fun x hx => by
          cases List.mem_append.mp hx with
          | inl hold => exact .inl (hwoke x hold)
          | inr hnew =>
              rw [List.mem_singleton.mp hnew]
              exact .inr ⟨t, rfl, rfl⟩
        once := by
          refine List.nodup_append.mpr ⟨h.once, List.nodup_singleton _, fun x hx y hy heq => ?_⟩
          rw [List.mem_singleton.mp hy] at heq
          subst heq
          exact absurd (hwoke _ hx) (Nat.not_le.mpr hlt)
        asked_for := fun x hx => by
          cases List.mem_append.mp hx with
          | inl hold => exact h.asked_for x hold
          | inr hnew => exact List.mem_singleton.mp hnew ▸ h.known _ hmem
        forward := hforward
        past := hpast }
  · rename_i hlast
    rw [not_ne_iff] at hlast
    exact
      { h with
        ordered := h.ordered.extractMin
        later := fun n hn => hmin n (hrest n hn)
        after := fun hout => by
          rw [hphase] at hout
          cases hout
        known := fun n hn => h.known n (hrest n hn)
        scheduled := hscheduled
        kept := fun x hx => by
          refine ⟨hstay _ (h.kept x hx).1 fun heq => ?_, (h.kept x hx).2⟩
          have hlt := (h.kept x hx).2
          have hx1 : x.1 = s.m_prio_heap.peekMin.m_consumer_ptr :=
            congrArg EventQueueNode.m_consumer_ptr heq
          have hx2 : x.2 = s.m_prio_heap.peekMin.m_time := congrArg EventQueueNode.m_time heq
          rw [hx1, hx2] at hlt
          exact absurd hlast hlt.ne
        within := fun t' hloop => by
          rw [hphase] at hloop
          cases hloop
          exact htime
        waking := fun t' c' hwaking => by
          rw [hphase] at hwaking
          cases hwaking
        slept := hslept
        woke := fun x hx => .inl (hwoke x hx)
        forward := hforward
        past := hpast }

theorem Inv.wakeupReturns {s : Wakeups κ} (h : s.Inv) {t : Nat} {c : κ}
    (hphase : s.phase = .waking t c) : Inv
      { s with
        m_last_wakeup := Function.update s.m_last_wakeup c s.m_globalTime
        phase := .looping t } := by
  obtain ⟨hle, hlast, hpending⟩ := h.waking t c hphase
  have hupdate : ∀ d, s.m_last_wakeup d ≤ Function.update s.m_last_wakeup c s.m_globalTime d := by
    intro d
    by_cases hdc : d = c
    · rw [hdc, Function.update_self]
      exact hlast.le
    · rw [Function.update_of_ne hdc]
  exact
    { h with
      after := fun hout => by cases hout
      kept := fun x hx => by
        refine ⟨(h.kept x hx).1, ?_⟩
        dsimp only
        by_cases hxc : x.1 = c
        · rw [hxc, Function.update_self]
          exact hpending x hx hxc
        · rw [Function.update_of_ne hxc]
          exact (h.kept x hx).2
      within := fun t' hloop => by
        cases hloop
        exact hle
      waking := fun t' c' hwaking => by cases hwaking
      slept := fun d => by
        by_cases hdc : d = c
        · dsimp only
          rw [hdc, Function.update_self]
        · dsimp only
          rw [Function.update_of_ne hdc]
          exact h.slept d
      woke := fun x hx => by
        left
        cases h.woke x hx with
        | inl hslept => exact hslept.trans (hupdate x.1)
        | inr hnow =>
            obtain ⟨t', hwaking, htime⟩ := hnow
            have hxc : x.1 = c := by
              rw [hphase] at hwaking
              cases hwaking
              rfl
            dsimp only
            rw [hxc, Function.update_self, htime] }

omit [DecidableEq κ] in
theorem Inv.loopEnds {s : Wakeups κ} (h : s.Inv) {t : Nat} (hphase : s.phase = .looping t)
    (hmore : ¬ s.More t) :
    Inv { s with m_globalTime := t, phase := .outside, times := s.times ++ [t] } := by
  have hlater : ∀ n ∈ s.m_prio_heap.contents, t < n.m_time := by
    intro n hn
    have hsize : 0 < s.m_prio_heap.size := by
      rw [← PrioHeap.card_contents]
      exact Multiset.card_pos_iff_exists_mem.mpr ⟨n, hn⟩
    have hmin : s.m_prio_heap.peekMin.m_time ≤ n.m_time := h.ordered.peekMin_le n hn
    exact (Nat.lt_of_not_le fun hle => hmore ⟨hsize, hle⟩).trans_le hmin
  have hle := h.within t hphase
  exact
    { h with
      later := fun n hn => (hlater n hn).le
      after := fun _ => hlater
      scheduled := fun c hc => h.scheduled c (hle.trans_lt hc)
      within := fun t' hloop => by cases hloop
      waking := fun t' c' hwaking => by cases hwaking
      slept := fun c => (h.slept c).trans hle
      woke := fun x hx => by
        left
        cases h.woke x hx with
        | inl hslept => exact hslept
        | inr hnow =>
            obtain ⟨t', hwaking, -⟩ := hnow
            rw [hphase] at hwaking
            cases hwaking
      forward := List.pairwise_append.mpr ⟨h.forward, List.pairwise_singleton _ _,
        fun a ha b hb => List.mem_singleton.mp hb ▸ (h.past a ha).trans hle⟩
      past := fun a ha => by
        cases List.mem_append.mp ha with
        | inl hold => exact (h.past a hold).trans hle
        | inr hnew => exact (List.mem_singleton.mp hnew).le }

theorem Inv.step {s s' : Wakeups κ} (h : s.Inv) (e : Event κ) (hforward : s.Forward e)
    (hstep : s.step e = some s') : s'.Inv := by
  cases e with
  | scheduleEventAbsolute c timeAbs =>
      rw [Wakeups.step] at hstep
      split at hstep
      · cases hstep
      · exact h.scheduleEventAbsolute hstep
      · exact h.scheduleEventAbsolute hstep
  | scheduleEvent c timeDelta =>
      rw [Wakeups.step] at hstep
      split at hstep
      · cases hstep
      · exact h.scheduleEventAbsolute hstep
      · exact h.scheduleEventAbsolute hstep
  | triggerEvents t =>
      rw [Wakeups.step] at hstep
      split at hstep
      · rename_i hphase
        cases hstep
        exact
          { h with
            after := fun hout => by cases hout
            within := fun t' hloop => by
              cases hloop
              exact hforward
            waking := fun t' c' hwaking => by cases hwaking
            woke := fun x hx => by
              left
              cases h.woke x hx with
              | inl hslept => exact hslept
              | inr hnow =>
                  obtain ⟨t', hwaking, -⟩ := hnow
                  rw [hphase] at hwaking
                  cases hwaking }
      · cases hstep
      · cases hstep
  | turn =>
      rw [Wakeups.step] at hstep
      split at hstep
      · rename_i hphase
        split at hstep
        · rename_i hmore
          cases hstep
          exact h.turn hphase hmore
        · cases hstep
      · cases hstep
      · cases hstep
  | wakeupReturns =>
      rw [Wakeups.step] at hstep
      split at hstep
      · rename_i hphase
        cases hstep
        exact h.wakeupReturns hphase
      · cases hstep
      · cases hstep
  | loopEnds =>
      rw [Wakeups.step] at hstep
      split at hstep
      · rename_i hphase
        split at hstep
        · cases hstep
        · rename_i hmore
          cases hstep
          exact h.loopEnds hphase hmore
      · cases hstep
      · cases hstep

/-- No wake-up is lost, none is repeated and none is made up, as long as `triggerEvents` is not
called with a time that is over. -/
theorem sound_throughout (c : κ) (es : List (Event κ)) (h : Along step Forward (init c) es) :
    Throughout step Sound (init c) es :=
  h.throughout (fun _ hs => hs.sound) (fun _ e _ hs hC hstep => hs.step e hC hstep) (inv_init c)

theorem sound_scheduled : Throughout step Sound (init true)
    [.triggerEvents 2, .loopEnds, .scheduleEventAbsolute true 5] :=
  sound_throughout true _
    ⟨Nat.le_succ 1, fun _ _ => ⟨trivial, fun _ _ => ⟨trivial, fun _ _ => trivial⟩⟩⟩

/-- A consumer that is scheduled again for a time that it has been woken at before. -/
theorem lost_when_time_goes_back : ¬ ∀ (c : Bool) es, Throughout step Sound (init c) es := by
  intro h
  have hfirst : (init true).step (.scheduleEventAbsolute true 2) = some
      { init true with
        m_prio_heap :=
          { m_heap := Function.update (init true).m_prio_heap.m_heap 1
              { m_time := 2, m_consumer_ptr := true }
            m_current_size := 1 }
        m_last_scheduled_wakeup := Function.update (fun _ => 0) true 2
        asked := [(true, 2)]
        pending := [(true, 2)] } := by
    have hinsert := PrioHeap.insert_empty EventQueueNode.LessThenEq
      ({ m_time := 2, m_consumer_ptr := true } : EventQueueNode Bool)
      (h := (init true).m_prio_heap) rfl
    rw [← hinsert]
    rfl
  have hlast := h true [.scheduleEventAbsolute true 2, .triggerEvents 3, .turn, .wakeupReturns,
    .loopEnds, .triggerEvents 1, .loopEnds, .scheduleEventAbsolute true 2, .triggerEvents 3,
    .loopEnds] _ List.prefix_rfl _ (run_cons_eq_some.mpr ⟨_, hfirst, rfl⟩)
  have hpending := hlast.answered rfl (true, 2) (by decide)
  exact absurd hpending (by decide)

end Wakeups
end FeS2.Ruby
