import FeS2.Ruby.Throttle
import FeS2.Ruby.Wakeups

/-!
An element of the network and the event queue that wakes it. A message that enters one of its
input buffers schedules it for the arrival; at a wake-up it may schedule itself for the next
cycle. It never sleeps on work when it does so each time it leaves work behind.
-/

namespace FeS2.Ruby
open FeS2.Common EventSystem

/-- The inputs of an element are named by `ι`, its outputs by `ω`. `owes` is work that does not
show in the inputs. A wake-up says whether the element schedules itself; `none` is a failed
assertion. -/
structure NetworkElement (σ ι ω α : Type) where
  start : σ
  m_in : σ → ι → HeapBuffer α
  owes : σ → Prop
  wakeup : Nat → σ → Option (Bool × σ)
  put : σ → ι → HeapBuffer α → σ
  depart : Nat → ω → σ → Option σ
  start_empty : ∀ i, (m_in start i).Ordered ∧ (m_in start i).m_prio_heap.contents = 0
  start_paid : ¬ owes start
  put_in : ∀ [DecidableEq ι] s i b, m_in (put s i b) = Function.update (m_in s) i b
  put_owes : ∀ s i b, owes (put s i b) → owes s
  depart_in : ∀ now o s s', depart now o s = some s' → m_in s' = m_in s ∧ (owes s' → owes s)
  wakeup_in : ∀ now s again s', wakeup now s = some (again, s') → (∀ i, (m_in s i).Ordered) →
    ∀ i, (m_in s' i).Ordered ∧
      (m_in s' i).m_prio_heap.contents ⊆ (m_in s i).m_prio_heap.contents

namespace NetworkElement
variable {σ ι ω α : Type}

/-- A message is ready, or more is to be done. -/
def Working (E : NetworkElement σ ι ω α) (now : Nat) (s : σ) : Prop :=
  (∃ i, (E.m_in s i).isReady now = true) ∨ E.owes s

end NetworkElement

/-- `due` is set while the `wakeup` of the element has been called and has not run. -/
structure ElementRun (κ σ : Type) where
  queue : Wakeups κ
  element : σ
  due : Bool

namespace ElementRun
variable {κ σ ι ω α : Type} [DecidableEq κ]

/-- `wakeup` is the body of the element's. The consumers of its outputs, and all others, are
scheduled by events of the queue. -/
inductive Event (κ ι ω α : Type)
  | queue (e : Wakeups.Event κ)
  | wakeup
  | arrive (i : ι) (delta : Nat) (random : Option Nat) (msg : α)
  | depart (o : ω)

def init (E : NetworkElement σ ι ω α) (this : κ) : ElementRun κ σ :=
  { queue := Wakeups.init this, element := E.start, due := false }

/-- Whether the queue has called the `wakeup` of the element. -/
def calls (this : κ) : TriggerPhase κ → Bool
  | .waking _ c => c = this
  | .outside | .looping _ => false

/-- Nothing else happens between two wake-ups of one call of `triggerEvents`. -/
def busy : TriggerPhase κ → Bool
  | .looping _ => true
  | .outside | .waking _ _ => false

/-- The driver does not go back in time. -/
def step (E : NetworkElement σ ι ω α) (this : κ) (s : ElementRun κ σ) :
    Event κ ι ω α → Option (ElementRun κ σ)
  | .queue .wakeupReturns =>
      if s.due then none else (s.queue.step .wakeupReturns).map fun q => { s with queue := q }
  | .queue .turn =>
      (s.queue.step .turn).map fun q => { s with queue := q, due := calls this q.phase }
  | .queue (.triggerEvents t) =>
      if t < s.queue.m_globalTime then none
      else (s.queue.step (.triggerEvents t)).map fun q => { s with queue := q }
  | .queue (.scheduleEventAbsolute c timeAbs) =>
      (s.queue.step (.scheduleEventAbsolute c timeAbs)).map fun q => { s with queue := q }
  | .queue (.scheduleEvent c timeDelta) =>
      (s.queue.step (.scheduleEvent c timeDelta)).map fun q => { s with queue := q }
  | .queue .loopEnds => (s.queue.step .loopEnds).map fun q => { s with queue := q }
  | .wakeup =>
      if s.due then
        (E.wakeup s.queue.m_globalTime s.element).bind fun r =>
          if r.1 then (s.queue.scheduleEvent this 1).map fun q =>
            { queue := q, element := r.2, due := false }
          else some { s with element := r.2, due := false }
      else none
  | .arrive i delta random msg =>
      if busy s.queue.phase then none
      else
        let now := s.queue.m_globalTime
        let buffer := E.m_in s.element i
        (buffer.enqueue now delta random msg).bind fun b =>
          (s.queue.scheduleEventAbsolute this (buffer.arrivalTime now delta random)).map fun q =>
            { s with queue := q, element := E.put s.element i b }
  | .depart o =>
      if busy s.queue.phase then none
      else (E.depart s.queue.m_globalTime o s.element).map fun element =>
        { s with element := element }

/-- Unless its `wakeup` is just being called, an element with work is in the heap of the event
queue, at a time it has not been woken at; a later time, once its `wakeup` has run or
`triggerEvents` has returned. -/
def NeverSleeps (E : NetworkElement σ ι ω α) (this : κ) (s : ElementRun κ σ) : Prop :=
  s.due = false → E.Working s.queue.m_globalTime s.element →
    ∃ t, Wakeups.nodeOf (this, t) ∈ s.queue.m_prio_heap.contents ∧
      s.queue.m_globalTime ≤ t ∧ s.queue.m_last_wakeup this < t ∧
      (s.queue.phase = .outside ∨ calls this s.queue.phase = true → s.queue.m_globalTime < t)

/-- A message to come has its wake-up, and so has work that is there. -/
structure Alert (E : NetworkElement σ ι ω α) (this : κ) (s : ElementRun κ σ) : Prop where
  queue : s.queue.Inv
  ordered : ∀ i, (E.m_in s.element i).Ordered
  coming : ∀ i, ∀ n ∈ (E.m_in s.element i).m_prio_heap.contents,
    s.queue.m_globalTime < n.m_time → (this, n.m_time) ∈ s.queue.pending
  awake : s.due = false → E.Working s.queue.m_globalTime s.element →
    ∃ t, (this, t) ∈ s.queue.pending
  called : s.due = true → calls this s.queue.phase = true

section
variable {E : NetworkElement σ ι ω α} {this : κ}

theorem calls_eq_true {phase : TriggerPhase κ} :
    calls this phase = true ↔ ∃ t, phase = .waking t this := by
  cases phase with
  | outside => exact iff_of_false Bool.false_ne_true (fun ⟨_, h⟩ => by cases h)
  | looping t => exact iff_of_false Bool.false_ne_true (fun ⟨_, h⟩ => by cases h)
  | waking t c =>
      rw [calls, decide_eq_true_iff]
      constructor
      · rintro rfl
        exact ⟨t, rfl⟩
      · rintro ⟨_, h⟩
        cases h
        rfl

theorem Alert.neverSleeps {s : ElementRun κ σ} (h : s.Alert E this) : s.NeverSleeps E this := by
  intro hdue hwork
  obtain ⟨t, ht⟩ := h.awake hdue hwork
  obtain ⟨hmem, hlast⟩ := h.queue.kept _ ht
  refine ⟨t, hmem, h.queue.later _ hmem, hlast, fun hphase => ?_⟩
  cases hphase with
  | inl hout => exact h.queue.after hout _ hmem
  | inr hcalls =>
      obtain ⟨t', hwaking⟩ := calls_eq_true.mp hcalls
      exact (h.queue.waking t' this hwaking).2.2 _ ht rfl

omit [DecidableEq κ] in
/-- What is ready after time has gone by was ready before, or was to come. -/
theorem working_later (now : Nat) {now' : Nat} {s : σ} (hord : ∀ i, (E.m_in s i).Ordered)
    (h : E.Working now' s) : E.Working now s ∨
      ∃ i, ∃ n ∈ (E.m_in s i).m_prio_heap.contents, now < n.m_time ∧ n.m_time ≤ now' := by
  cases h with
  | inr howes => exact .inl (.inr howes)
  | inl hready =>
      obtain ⟨i, hi⟩ := hready
      obtain ⟨n, hn, htime⟩ := (hord i).isReady_iff.mp hi
      by_cases hnow : n.m_time ≤ now
      · exact .inl (.inl ⟨i, (hord i).isReady_iff.mpr ⟨n, hn, hnow⟩⟩)
      · exact .inr ⟨i, n, hn, Nat.lt_of_not_le hnow, htime⟩

/-- A queue that takes a further call and lets no time go by. -/
theorem Alert.schedule {s : ElementRun κ σ} (h : s.Alert E this) {c : κ} {timeAbs : Nat}
    {q : Wakeups κ} (hcall : s.queue.scheduleEventAbsolute c timeAbs = some q) :
    Alert E this { s with queue := q } ∧ q.m_globalTime = s.queue.m_globalTime ∧
      (s.queue.m_globalTime < timeAbs → (c, timeAbs) ∈ q.pending) := by
  have hinv := h.queue.scheduleEventAbsolute hcall
  have hkept : q.m_globalTime = s.queue.m_globalTime ∧ q.phase = s.queue.phase ∧
      s.queue.pending ⊆ q.pending ∧
      (s.queue.m_globalTime < timeAbs → (c, timeAbs) ∈ q.pending) := by
    rw [Wakeups.scheduleEventAbsolute] at hcall
    by_cases hlt : s.queue.m_globalTime < timeAbs
    · rw [if_pos hlt] at hcall
      split at hcall
      · cases hcall
        exact ⟨rfl, rfl, List.subset_append_left _ _,
          fun _ => List.mem_append_right _ List.mem_cons_self⟩
      · cases hcall
        exact ⟨rfl, rfl, List.subset_append_left _ _,
          fun _ => List.mem_append_right _ List.mem_cons_self⟩
    · rw [if_neg hlt] at hcall
      split at hcall
      · cases hcall
      · cases hcall
        exact ⟨rfl, rfl, List.Subset.refl _, fun hlt' => absurd hlt' hlt⟩
  obtain ⟨htime, hphase, hsub, hnew⟩ := hkept
  refine ⟨⟨hinv, h.ordered, fun i n hn hlt => ?_, fun hdue hwork => ?_, fun hdue => ?_⟩,
    htime, hnew⟩
  · exact hsub (h.coming i n hn (htime ▸ hlt))
  · obtain ⟨t, ht⟩ := h.awake hdue (htime ▸ hwork)
    exact ⟨t, hsub ht⟩
  · exact hphase ▸ h.called hdue

theorem Alert.turn {s : ElementRun κ σ} (h : s.Alert E this) {q : Wakeups κ}
    (hstep : s.queue.step .turn = some q) :
    Alert E this { s with queue := q, due := calls this q.phase } := by
  have hinv := h.queue.step .turn trivial hstep
  rw [Wakeups.step] at hstep
  split at hstep
  · rename_i t hphase
    split at hstep
    · rename_i hmore
      cases hstep
      have hmem := PrioHeap.peekMin_mem hmore.1
      have hlater := h.queue.later _ hmem
      have hrun : s.due = false := by
        cases hdue : s.due with
        | false => rfl
        | true =>
            have hcalls := h.called hdue
            rw [hphase] at hcalls
            cases hcalls
      have htime : (s.queue.turn t).m_globalTime = s.queue.m_prio_heap.peekMin.m_time := by
        rw [Wakeups.turn, Wakeups.triggerWakeup]
        split
        · rfl
        · rfl
      -- of the calls to come, only one that is answered now is taken away
      have hpending : ∀ u, (this, u) ∈ s.queue.pending →
          u ≠ s.queue.m_prio_heap.peekMin.m_time ∨ calls this (s.queue.turn t).phase = false →
          (this, u) ∈ (s.queue.turn t).pending := by
        intro u hu hor
        rw [Wakeups.turn, Wakeups.triggerWakeup] at hor ⊢
        split
        · rename_i hwakes
          rw [if_pos hwakes] at hor
          refine List.mem_filter.mpr ⟨hu, decide_eq_true fun heq => ?_⟩
          cases hor with
          | inl hne => exact hne (congrArg Prod.snd heq)
          | inr hother => exact of_decide_eq_false hother (congrArg Prod.fst heq).symm
        · exact hu
      refine ⟨hinv, h.ordered, fun i n hn hlt => ?_, fun hdue hwork => ?_, fun hdue => hdue⟩
      · have hlt' : s.queue.m_prio_heap.peekMin.m_time < n.m_time := htime ▸ hlt
        exact hpending _ (h.coming i n hn (hlater.trans_lt hlt')) (.inl hlt'.ne')
      · cases working_later s.queue.m_globalTime h.ordered hwork with
        | inl hbefore =>
            obtain ⟨u, hu⟩ := h.awake hrun hbefore
            exact ⟨u, hpending u hu (.inr hdue)⟩
        | inr hnew =>
            obtain ⟨i, n, hn, hlt, -⟩ := hnew
            exact ⟨n.m_time, hpending _ (h.coming i n hn hlt) (.inr hdue)⟩
    · cases hstep
  · cases hstep
  · cases hstep

/-- The other events of the queue. -/
theorem Alert.quiet {s : ElementRun κ σ} (h : s.Alert E this) {e : Wakeups.Event κ} {q : Wakeups κ}
    (hforward : s.queue.Forward e) (hstep : s.queue.step e = some q)
    (hpending : q.pending = s.queue.pending)
    (hphase : s.due = true → calls this q.phase = true)
    (hlater : s.queue.m_globalTime ≤ q.m_globalTime) : Alert E this { s with queue := q } := by
  refine ⟨h.queue.step e hforward hstep, h.ordered, fun i n hn hlt => ?_, fun hdue hwork => ?_,
    hphase⟩
  · rw [hpending]
    exact h.coming i n hn (hlater.trans_lt hlt)
  · dsimp only
    rw [hpending]
    cases working_later s.queue.m_globalTime h.ordered hwork with
    | inl hbefore => exact h.awake hdue hbefore
    | inr hnew =>
        obtain ⟨i, n, hn, hlt, -⟩ := hnew
        exact ⟨n.m_time, h.coming i n hn hlt⟩

theorem Alert.queueStep {s s' : ElementRun κ σ} (h : s.Alert E this) (e : Wakeups.Event κ)
    (hstep : s.step E this (.queue e : Event κ ι ω α) = some s') : s'.Alert E this := by
  have hnotdue : calls this s.queue.phase = false → s.due = false := fun hcalls => by
    cases hdue : s.due with
    | false => rfl
    | true => exact absurd (h.called hdue) (hcalls ▸ Bool.false_ne_true)
  cases e with
  | scheduleEventAbsolute c timeAbs =>
      rw [step, Option.map_eq_some_iff] at hstep
      obtain ⟨q, hq, rfl⟩ := hstep
      rw [Wakeups.step] at hq
      split at hq
      · cases hq
      · exact (h.schedule hq).1
      · exact (h.schedule hq).1
  | scheduleEvent c timeDelta =>
      rw [step, Option.map_eq_some_iff] at hstep
      obtain ⟨q, hq, rfl⟩ := hstep
      rw [Wakeups.step] at hq
      split at hq
      · cases hq
      · exact (h.schedule hq).1
      · exact (h.schedule hq).1
  | triggerEvents t =>
      rw [step] at hstep
      split at hstep
      · cases hstep
      · rename_i hforward
        rw [Option.map_eq_some_iff] at hstep
        obtain ⟨q, hq, rfl⟩ := hstep
        have hstep := hq
        rw [Wakeups.step] at hq
        split at hq
        · rename_i hphase
          have hdue := hnotdue (hphase ▸ rfl)
          cases hq
          exact h.quiet (e := .triggerEvents t) (Nat.le_of_not_lt hforward) hstep rfl
            (fun hdue' => absurd hdue' (hdue ▸ Bool.false_ne_true)) (Nat.le_refl _)
        · cases hq
        · cases hq
  | turn =>
      rw [step, Option.map_eq_some_iff] at hstep
      obtain ⟨q, hq, rfl⟩ := hstep
      exact h.turn hq
  | wakeupReturns =>
      rw [step] at hstep
      split at hstep
      · cases hstep
      · rename_i hdue
        rw [Option.map_eq_some_iff] at hstep
        obtain ⟨q, hq, rfl⟩ := hstep
        have hstep := hq
        rw [Wakeups.step] at hq
        split at hq
        · cases hq
          exact h.quiet (e := .wakeupReturns) trivial hstep rfl (fun hdue' => absurd hdue' hdue)
            (Nat.le_refl _)
        · cases hq
        · cases hq
  | loopEnds =>
      rw [step, Option.map_eq_some_iff] at hstep
      obtain ⟨q, hq, rfl⟩ := hstep
      have hstep := hq
      rw [Wakeups.step] at hq
      split at hq
      · rename_i t hphase
        have hdue := hnotdue (hphase ▸ rfl)
        split at hq
        · cases hq
        · cases hq
          exact h.quiet (e := .loopEnds) trivial hstep rfl
            (fun hdue' => absurd hdue' (hdue ▸ Bool.false_ne_true)) (h.queue.within t hphase)
      · cases hq
      · cases hq

/-- In the states that are `Good` for it a wake-up that leaves work asks for another one. -/
def Rests (E : NetworkElement σ ι ω α) (Good : Nat → σ → Prop) : Prop :=
  ∀ now s again s', (∀ i, (E.m_in s i).Ordered) → Good now s →
    E.wakeup now s = some (again, s') → E.Working now s' → again = true

theorem Alert.wakeup {Good : Nat → σ → Prop} (hrests : Rests E Good) {s s' : ElementRun κ σ}
    (h : s.Alert E this) (hgood : Good s.queue.m_globalTime s.element)
    (hstep : s.step E this (.wakeup : Event κ ι ω α) = some s') : s'.Alert E this := by
  rw [step] at hstep
  split at hstep
  · rw [Option.bind_eq_some_iff] at hstep
    obtain ⟨⟨again, element⟩, hwake, hstep⟩ := hstep
    have hin := E.wakeup_in _ _ _ _ hwake h.ordered
    have hcoming : ∀ i, ∀ n ∈ (E.m_in element i).m_prio_heap.contents,
        s.queue.m_globalTime < n.m_time → (this, n.m_time) ∈ s.queue.pending :=
      fun i n hn hlt => h.coming i n ((hin i).2 hn) hlt
    dsimp only at hstep
    split at hstep
    · rw [Option.map_eq_some_iff] at hstep
      obtain ⟨q, hq, rfl⟩ := hstep
      obtain ⟨hcalled, htime, hnew⟩ := h.schedule (c := this) hq
      refine ⟨hcalled.queue, fun i => (hin i).1, fun i n hn hlt => ?_, fun _ _ => ?_,
        fun hdue => by cases hdue⟩
      · exact hcalled.coming i n ((hin i).2 hn) hlt
      · exact ⟨_, hnew (Nat.lt_add_of_pos_left Nat.one_pos)⟩
    · rename_i hagain
      cases hstep
      exact ⟨h.queue, fun i => (hin i).1, hcoming,
        fun _ hwork => absurd (hrests _ _ _ _ h.ordered hgood hwake hwork) hagain,
        fun hdue => by cases hdue⟩
  · cases hstep

theorem Alert.arrive [DecidableEq ι] {s s' : ElementRun κ σ} (h : s.Alert E this) {i : ι}
    {delta : Nat} {random : Option Nat} {msg : α}
    (hstep : s.step E this (.arrive i delta random msg : Event κ ι ω α) = some s') :
    s'.Alert E this := by
  rw [step] at hstep
  split at hstep
  · cases hstep
  · rw [Option.bind_eq_some_iff] at hstep
    obtain ⟨b, henq, hstep⟩ := hstep
    rw [Option.map_eq_some_iff] at hstep
    obtain ⟨q, hq, rfl⟩ := hstep
    obtain ⟨hcontents, hord, hlater, -⟩ := HeapBuffer.enqueue_spec henq
    obtain ⟨hcalled, htime, hnew⟩ := h.schedule hq
    have hput : ∀ j, (E.m_in (E.put s.element i b) j).Ordered ∧
        ∀ n ∈ (E.m_in (E.put s.element i b) j).m_prio_heap.contents,
          n ∈ (E.m_in s.element j).m_prio_heap.contents ∨
          n = (E.m_in s.element i).node s.queue.m_globalTime delta random msg := by
      intro j
      rw [E.put_in]
      by_cases hj : j = i
      · subst hj
        rw [Function.update_self, hcontents]
        exact ⟨hord (h.ordered j), fun n hn => (Multiset.mem_cons.mp hn).symm⟩
      · rw [Function.update_of_ne hj]
        exact ⟨h.ordered j, fun n hn => .inl hn⟩
    refine ⟨hcalled.queue, fun j => (hput j).1, fun j n hn hlt => ?_, fun hdue hwork => ?_,
      hcalled.called⟩
    · cases (hput j).2 n hn with
      | inl hold => exact hcalled.coming j n hold hlt
      | inr hfresh =>
          rw [hfresh]
          exact hnew hlater
    · -- the message has not arrived
      refine hcalled.awake hdue ?_
      dsimp only at hwork ⊢
      cases hwork with
      | inr howes => exact .inr (E.put_owes _ _ _ howes)
      | inl hready =>
          obtain ⟨j, hj⟩ := hready
          obtain ⟨n, hn, hnow⟩ := (hput j).1.isReady_iff.mp hj
          cases (hput j).2 n hn with
          | inl hold => exact .inl ⟨j, (h.ordered j).isReady_iff.mpr ⟨n, hold, hnow⟩⟩
          | inr hfresh =>
              rw [hfresh, htime] at hnow
              exact absurd hlater (Nat.not_lt.mpr hnow)

theorem Alert.depart {s s' : ElementRun κ σ} (h : s.Alert E this) {o : ω}
    (hstep : s.step E this (.depart o : Event κ ι ω α) = some s') : s'.Alert E this := by
  rw [step] at hstep
  split at hstep
  · cases hstep
  · rw [Option.map_eq_some_iff] at hstep
    obtain ⟨element, hdepart, rfl⟩ := hstep
    obtain ⟨hin, howes⟩ := E.depart_in _ _ _ _ hdepart
    refine ⟨h.queue, hin ▸ h.ordered, hin ▸ h.coming, fun hdue hwork => ?_, h.called⟩
    refine h.awake hdue ?_
    cases hwork with
    | inl hready => exact .inl (hin ▸ hready)
    | inr ho => exact .inr (howes ho)

theorem alert_init (E : NetworkElement σ ι ω α) (this : κ) : (init E this).Alert E this where
  queue := Wakeups.inv_init this
  ordered i := (E.start_empty i).1
  coming i n hn := absurd ((E.start_empty i).2 ▸ hn) (Multiset.notMem_zero n)
  awake _ hwork := by
    cases hwork with
    | inr howes => exact absurd howes E.start_paid
    | inl hready =>
        obtain ⟨i, hi⟩ := hready
        obtain ⟨n, hn, -⟩ := (E.start_empty i).1.isReady_iff.mp hi
        exact absurd ((E.start_empty i).2 ▸ hn) (Multiset.notMem_zero n)
  called hdue := by cases hdue

/-- The wake-ups are in states that are `Good`. -/
def WakesGood (Good : Nat → σ → Prop) (s : ElementRun κ σ) : Event κ ι ω α → Prop
  | .wakeup => Good s.queue.m_globalTime s.element
  | .queue _ | .arrive _ _ _ _ | .depart _ => True

instance {Good : Nat → σ → Prop} [∀ now s, Decidable (Good now s)] (s : ElementRun κ σ)
    (e : Event κ ι ω α) : Decidable (s.WakesGood Good e) :=
  match e with
  | .wakeup => inferInstanceAs (Decidable (Good s.queue.m_globalTime s.element))
  | .queue _ | .arrive _ _ _ _ | .depart _ => isTrue trivial

/-- Where all states are `Good`, all runs are. -/
theorem along_wakesGood {Good : Nat → σ → Prop} (hgood : ∀ now s, Good now s)
    (s : ElementRun κ σ) (es : List (Event κ ι ω α)) :
    Along (step E this) (WakesGood Good) s es := by
  induction es generalizing s with
  | nil => trivial
  | cons e es ih =>
      refine ⟨?_, fun s' _ => ih s'⟩
      cases e with
      | wakeup => exact hgood _ _
      | queue e => trivial
      | arrive i delta random msg => trivial
      | depart o => trivial

theorem Alert.step [DecidableEq ι] {Good : Nat → σ → Prop} (hrests : Rests E Good)
    {s s' : ElementRun κ σ} (h : s.Alert E this) (e : Event κ ι ω α) (hgood : s.WakesGood Good e)
    (hstep : s.step E this e = some s') : s'.Alert E this := by
  cases e with
  | queue e => exact h.queueStep e hstep
  | wakeup => exact h.wakeup hrests hgood hstep
  | arrive i delta random msg => exact h.arrive hstep
  | depart o => exact h.depart hstep

theorem Rests.neverSleeps [DecidableEq ι] {Good : Nat → σ → Prop} (hrests : Rests E Good)
    (es : List (Event κ ι ω α)) (h : Along (step E this) (WakesGood Good) (init E this) es) :
    Throughout (step E this) (NeverSleeps E this) (init E this) es :=
  h.throughout (fun _ hs => hs.neverSleeps)
    (fun _ e _ hs hgood hstep => hs.step hrests e hgood hstep) (alert_init E this)

end
end ElementRun
end FeS2.Ruby
