import FeS2.Ruby.EventQueue
import FeS2.Slicc.Resources

/-!
The controller of a machine and its `wakeup`. The code of an in_port may change
the controller by itself, besides what it triggers.
-/

namespace FeS2.Slicc
open FeS2.Ruby (EventQueue)

/-- The code of an in_port. An expression is split: what it changes comes before it. -/
inductive InPortCode (σ Event Addr : Type)
  | nil
  | eval (effect : σ → σ) (rest : InPortCode σ Event Addr)
  | peek (body rest : InPortCode σ Event Addr)
  | ifThenElse (cond : σ → Bool) (thenPart elsePart rest : InPortCode σ Event Addr)
  | trigger (event : σ → Event) (addr : σ → Addr) (rest : InPortCode σ Event Addr)

/-! Wake-ups are only added -/

section
variable {σ State Event Addr Port Buffer Consumer : Type}

def Adds (queue : σ → EventQueue Consumer) (effect : σ → σ) : Prop :=
  ∀ s, (queue s).Extends (queue (effect s))

def StatementList.Adds (queue : σ → EventQueue Consumer) : StatementList σ Addr Port → Prop
  | nil | ret => True
  | eval effect rest => (∀ addr, Slicc.Adds queue (effect addr)) ∧ rest.Adds queue
  | call body rest | peek body rest => body.Adds queue ∧ rest.Adds queue
  | enqueue _ body latency rest => body.Adds queue ∧ latency.Adds queue ∧ rest.Adds queue
  | copyHead _ latency rest => latency.Adds queue ∧ rest.Adds queue
  | checkAllocate _ rest => rest.Adds queue
  | ifThenElse _ thenPart elsePart rest =>
      thenPart.Adds queue ∧ elsePart.Adds queue ∧ rest.Adds queue

def InPortCode.Adds (queue : σ → EventQueue Consumer) : InPortCode σ Event Addr → Prop
  | nil => True
  | eval effect rest => Slicc.Adds queue effect ∧ rest.Adds queue
  | peek body rest => body.Adds queue ∧ rest.Adds queue
  | ifThenElse _ thenPart elsePart rest =>
      thenPart.Adds queue ∧ elsePart.Adds queue ∧ rest.Adds queue
  | trigger _ _ rest => rest.Adds queue

/-- The code changes nothing by itself. -/
def InPortCode.Quiet : InPortCode σ Event Addr → Prop
  | nil => True
  | eval effect rest => (∀ s, effect s = s) ∧ rest.Quiet
  | peek body rest => body.Quiet ∧ rest.Quiet
  | ifThenElse _ thenPart elsePart rest => thenPart.Quiet ∧ elsePart.Quiet ∧ rest.Quiet
  | trigger _ _ rest => rest.Quiet

/-- What the code changes by itself. -/
def InPortCode.own : InPortCode σ Event Addr → σ → σ
  | nil, s => s
  | eval effect rest, s => rest.own (effect s)
  | peek body rest, s => rest.own (body.own s)
  | ifThenElse cond thenPart elsePart rest, s =>
      rest.own (if cond s then thenPart.own s else elsePart.own s)
  | trigger _ _ rest, s => rest.own s

/-- What the code triggers, as long as nothing comes of it. -/
def InPortCode.triggered : InPortCode σ Event Addr → σ → List (Event × Addr)
  | nil, _ => []
  | eval effect rest, s => rest.triggered (effect s)
  | peek body rest, s => body.triggered s ++ rest.triggered (body.own s)
  | ifThenElse cond thenPart elsePart rest, s =>
      if cond s then thenPart.triggered s ++ rest.triggered (thenPart.own s)
      else elsePart.triggered s ++ rest.triggered (elsePart.own s)
  | trigger event addr rest, s => (event s, addr s) :: rest.triggered s

theorem InPortCode.Quiet.own_eq {code : InPortCode σ Event Addr} (h : code.Quiet) (s : σ) :
    code.own s = s := by
  induction code generalizing s with
  | nil => rfl
  | eval effect rest ih => rw [own, ih h.2, h.1]
  | peek body rest ihb ih => rw [own, ih h.2, ihb h.1]
  | ifThenElse cond thenPart elsePart rest iht ihe ih =>
      rw [own, ih h.2.2, iht h.1, ihe h.2.1, ite_self]
  | trigger event addr rest ih => exact ih h s

/-! The code of the actions -/

def Code.Adds (env : Surroundings σ State Addr Buffer) (addr : Addr)
    (queue : σ → EventQueue Consumer) (k : Code σ Addr Buffer) : Prop :=
  Slicc.Adds queue fun s => (k.exec env addr s).state

variable {env : Surroundings σ State Addr Buffer} {addr : Addr} {queue : σ → EventQueue Consumer}
  {k : Code σ Addr Buffer}

theorem Run.andThen_adds {s : σ} {r : Run σ Buffer} (hr : (queue s).Extends (queue r.state))
    (h : Code.Adds env addr queue k) :
    (queue s).Extends (queue (r.andThen (k.exec env addr)).state) := by
  rw [Run.andThen]
  split
  · exact hr
  · exact hr.trans (h r.state)

theorem StatementList.Adds.generate (getCode : Port → Buffer) {st : StatementList σ Addr Port}
    (hst : st.Adds queue) (henv : ∀ b, Slicc.Adds queue (env.enqueue b))
    (h : Code.Adds env addr queue k) : Code.Adds env addr queue (st.generate getCode k) := by
  have hdone : Code.Adds env addr queue .done := fun s => .refl _
  induction st generalizing k with
  | nil => exact h
  | eval effect rest ih => exact fun s => (hst.1 addr s).trans (ih hst.2 h _)
  | call body rest ihb ih => exact fun s => Run.andThen_adds (ihb hst.1 hdone s) (ih hst.2 h)
  | enqueue port body latency rest ihb ihl ih =>
      have hself : Code.Adds env addr queue (.enqueue (getCode port) .done) :=
        fun s => Run.andThen_adds (henv _ s) hdone
      exact fun s => Run.andThen_adds (ihb hst.1 (ihl hst.2.1 hself) s) (ih hst.2.2 h)
  | copyHead port latency rest ihl ih =>
      exact ihl hst.1 fun s => Run.andThen_adds (henv _ s) (ih hst.2 h)
  | checkAllocate port rest ih => exact ih hst h
  | peek body rest ihb ih => exact fun s => Run.andThen_adds (ihb hst.1 hdone s) (ih hst.2 h)
  | ifThenElse cond thenPart elsePart rest iht ihe ih =>
      intro s
      refine Run.andThen_adds ?_ (ih hst.2.2 h)
      split
      · exact iht hst.1 hdone s
      · exact ihe hst.2.1 hdone s
  | ret => exact fun s => .refl _

end

/-- The event queue is a part of what the controller sees and changes; nothing in the controller
takes a wake-up out of it. -/
structure Controller (σ State Event Addr Port Buffer Consumer : Type) extends
    Machine σ State Event Addr Port Buffer where
  self : Consumer
  env : Surroundings σ State Addr Buffer
  getState : Addr → σ → State
  inPorts : List (InPortCode σ Event Addr)
  queue : σ → EventQueue Consumer
  setQueue : EventQueue Consumer → σ → σ
  queue_setQueue : ∀ q s, queue (setQueue q s) = q
  enqueue_adds : ∀ b, Adds queue (env.enqueue b)
  setState_adds : ∀ addr state, Adds queue (env.setState addr state)
  actions_add : ∀ a ∈ actions, a.body.Adds queue
  inPorts_add : ∀ p ∈ inPorts, p.Adds queue

inductive Fault
  | counter
  | invalidTransition
  | schedule
  | running
  deriving DecidableEq

namespace Controller
variable {σ State Event Addr Port Buffer Consumer : Type} [DecidableEq Port] [DecidableEq State]
  [DecidableEq Event] [LinearOrder Buffer] [DecidableEq Consumer]

def scheduleEvent (c : Controller σ State Event Addr Port Buffer Consumer) (timeDelta : Nat)
    (s : σ) : Except Fault σ :=
  match (c.queue s).scheduleEvent c.self timeDelta with
  | none => .error .schedule
  | some q => .ok (c.setQueue q s)

/-- With `true`, the code has come to a `continue`. -/
def runPort (c : Controller σ State Event Addr Port Buffer Consumer) :
    InPortCode σ Event Addr → σ → Except Fault (σ × Bool)
  | .nil, s => .ok (s, false)
  | .eval effect rest, s => c.runPort rest (effect s)
  | .peek body rest, s =>
      match c.runPort body s with
      | .error f => .error f
      | .ok (s, true) => .ok (s, true)
      | .ok (s, false) => c.runPort rest s
  | .ifThenElse cond thenPart elsePart rest, s =>
      match if cond s then c.runPort thenPart s else c.runPort elsePart s with
      | .error f => .error f
      | .ok (s, true) => .ok (s, true)
      | .ok (s, false) => c.runPort rest s
  | .trigger event addr rest, s =>
      match c.doTransition c.env (event s) (c.getState (addr s) s) (addr s) s with
      | none => .error .invalidTransition
      | some (.Valid, r) => .ok (r.state, true)
      | some (.ResourceStall, r) =>
          match c.scheduleEvent 1 r.state with
          | .error f => .error f
          | .ok s => c.runPort rest s
      | some (.ProtocolStall, r) => c.runPort rest r.state

/-- The in_ports in the order of their priorities. -/
def scan (c : Controller σ State Event Addr Port Buffer Consumer) :
    List (InPortCode σ Event Addr) → σ → Except Fault (σ × Bool)
  | [], s => .ok (s, false)
  | code :: ports, s =>
      match c.runPort code s with
      | .error f => .error f
      | .ok (s, true) => .ok (s, true)
      | .ok (s, false) => c.scan ports s

/-- The loop of `wakeup`, for at most `fuel` turns. -/
def loop (c : Controller σ State Event Addr Port Buffer Consumer)
    (transitionsPerRubyCycle : Int) : Nat → Int → σ → Except Fault σ
  | 0, _, _ => .error .running
  | fuel + 1, counter, s =>
      if counter ≤ transitionsPerRubyCycle then
        if counter = transitionsPerRubyCycle then c.scheduleEvent 1 s
        else
          match c.scan c.inPorts s with
          | .error f => .error f
          | .ok (s, true) => c.loop transitionsPerRubyCycle fuel (counter + 1) s
          | .ok (s, false) => .ok s
      else .error .counter

def wakeup (c : Controller σ State Event Addr Port Buffer Consumer)
    (transitionsPerRubyCycle : Int) (s : σ) : Except Fault σ :=
  c.loop transitionsPerRubyCycle (transitionsPerRubyCycle.toNat + 1) 0 s

/-! What a transition does to the event queue -/

omit [DecidableEq State] [DecidableEq Event] [LinearOrder Buffer] [DecidableEq Consumer]
  [DecidableEq Port] in
theorem runActions_adds (c : Controller σ State Event Addr Port Buffer Consumer) (addr : Addr)
    (names : List String) : Adds c.queue fun s => (c.runActions c.env addr names s).state := by
  induction names with
  | nil => exact fun s => .refl _
  | cons name names ih =>
      intro s
      dsimp only
      rw [Machine.runActions]
      cases hname : c.findIndex name with
      | none => exact ih s
      | some action =>
          have hadds := c.actions_add action (List.mem_of_find?_eq_some hname)
          have hdone : Code.Adds c.env addr c.queue .done := fun s => .refl _
          have hfirst := hadds.generate c.getCode c.enqueue_adds hdone
          exact (hfirst s).trans (ih _)

omit [DecidableEq Consumer] in
theorem doTransition_adds (c : Controller σ State Event Addr Port Buffer Consumer) {event : Event}
    {state : State} {addr : Addr} {s : σ} {r : TransitionResult × Run σ Buffer}
    (h : c.doTransition c.env event state addr s = some r) :
    (c.queue s).Extends (c.queue r.2.state) := by
  obtain ⟨t, ht, -, -, rfl⟩ := c.doTransition_some h
  split
  · split
    · exact .refl _
    · exact (c.runActions_adds addr t.actionList s).trans (c.setState_adds addr t.nextState _)
  · exact .refl _

/-! One pass over the in_ports -/

/-- The next wake-up is scheduled. -/
def Scheduled (c : Controller σ State Event Addr Port Buffer Consumer) (s : σ) : Prop :=
  (c.queue s).Next c.self

def ProtocolStalls (c : Controller σ State Event Addr Port Buffer Consumer) (s : σ)
    (e : Event × Addr) : Prop :=
  ∃ t ∈ c.transitions, t.state = c.getState e.2 s ∧ t.event = e.1 ∧ Machine.stalls t

omit [DecidableEq Port] [DecidableEq State] [DecidableEq Event] [LinearOrder Buffer] in
theorem scheduleEvent_one (c : Controller σ State Event Addr Port Buffer Consumer) (s : σ) :
    ∃ s', c.scheduleEvent 1 s = .ok s' ∧ (c.queue s).Extends (c.queue s') ∧ c.Scheduled s' := by
  obtain ⟨q, hq, hext, hnext⟩ := (c.queue s).scheduleEvent_next c.self
  refine ⟨c.setQueue q s, ?_, ?_, ?_⟩
  · rw [scheduleEvent, hq]
  · rw [c.queue_setQueue]
    exact hext
  · rw [Scheduled, c.queue_setQueue]
    exact hnext

omit [DecidableEq Consumer] in
theorem protocolStall_spec (c : Controller σ State Event Addr Port Buffer Consumer)
    {event : Event} {addr : Addr} {s : σ} {r : Run σ Buffer}
    (h : c.doTransition c.env event (c.getState addr s) addr s = some (.ProtocolStall, r)) :
    r.state = s ∧ c.ProtocolStalls s (event, addr) := by
  obtain ⟨t, ht, hstate, hevent, hr⟩ := c.doTransition_some h
  split at hr
  · split at hr
    · cases hr
      exact ⟨rfl, t, ht, hstate, hevent, ‹_›⟩
    · cases hr
  · cases hr

/-- What the code of an in_port comes to. -/
structure Passed (c : Controller σ State Event Addr Port Buffer Consumer)
    (code : InPortCode σ Event Addr) (s s' : σ) (again : Bool) : Prop where
  adds : (c.queue s).Extends (c.queue s')
  stalled : again = false → code.Quiet →
    c.Scheduled s' ∨ s' = s ∧ ∀ e ∈ code.triggered s, c.ProtocolStalls s e

omit [DecidableEq Port] [DecidableEq State] [DecidableEq Event] [LinearOrder Buffer]
  [DecidableEq Consumer] in
/-- Code that is a part and then the rest of it. -/
theorem Passed.andThen {c : Controller σ State Event Addr Port Buffer Consumer}
    {code part rest : InPortCode σ Event Addr} {s t s' : σ} {again : Bool}
    (hpart : c.Passed part s t false) (hrest : c.Passed rest t s' again)
    (hquiet : code.Quiet → part.Quiet ∧ rest.Quiet)
    (htriggered : code.triggered s = part.triggered s ++ rest.triggered (part.own s)) :
    c.Passed code s s' again := by
  refine ⟨hpart.adds.trans hrest.adds, fun hagain hq => ?_⟩
  obtain ⟨hqpart, hqrest⟩ := hquiet hq
  rcases hpart.stalled rfl hqpart with hnext | ⟨rfl, hall⟩
  · exact .inl (hnext.mono hrest.adds)
  · refine (hrest.stalled hagain hqrest).imp id fun ⟨heq, hrestall⟩ => ⟨heq, ?_⟩
    rw [htriggered, hqpart.own_eq]
    exact List.forall_mem_append.mpr ⟨hall, hrestall⟩

theorem runPort_passed (c : Controller σ State Event Addr Port Buffer Consumer)
    {code : InPortCode σ Event Addr} (hadds : code.Adds c.queue) {s s' : σ} {again : Bool}
    (h : c.runPort code s = .ok (s', again)) : c.Passed code s s' again := by
  induction code generalizing s s' again with
  | nil =>
      cases h
      exact ⟨.refl _, fun _ _ => .inr ⟨rfl, by simp [InPortCode.triggered]⟩⟩
  | eval effect rest ih =>
      have hrest := ih hadds.2 h
      refine ⟨(hadds.1 s).trans hrest.adds, fun hagain hquiet => ?_⟩
      have hstalled := hrest.stalled hagain hquiet.2
      rw [hquiet.1] at hstalled
      rw [InPortCode.triggered, hquiet.1]
      exact hstalled
  | peek body rest ihb ih =>
      rw [runPort] at h
      split at h
      · cases h
      · cases h
        exact ⟨(ihb hadds.1 ‹_›).adds, fun hagain => by cases hagain⟩
      · exact (ihb hadds.1 ‹_›).andThen (ih hadds.2 h) id rfl
  | ifThenElse cond thenPart elsePart rest iht ihe ih =>
      -- whichever part is run
      have hpart : ∀ {t : σ} {b : Bool},
          (if cond s then c.runPort thenPart s else c.runPort elsePart s) = .ok (t, b) →
            c.Passed (if cond s then thenPart else elsePart) s t b := by
        intro t b hrun
        split at hrun
        · rw [if_pos ‹_›]
          exact iht hadds.1 hrun
        · rw [if_neg ‹_›]
          exact ihe hadds.2.1 hrun
      rw [runPort] at h
      split at h
      · cases h
      · cases h
        exact ⟨(hpart ‹_›).adds, fun hagain => by cases hagain⟩
      · refine (hpart ‹_›).andThen (ih hadds.2.2 h) (fun hq => ⟨?_, hq.2.2⟩) ?_
        · split
          · exact hq.1
          · exact hq.2.1
        · rw [InPortCode.triggered]
          split
          · rfl
          · rfl
  | trigger event addr rest ih =>
      rw [runPort] at h
      split at h
      · cases h
      · cases h
        exact ⟨c.doTransition_adds ‹_›, fun hagain => by cases hagain⟩
      · rename_i r hr
        obtain ⟨t, ht, hext, hnext⟩ := c.scheduleEvent_one r.state
        rw [ht] at h
        have hrest := ih hadds h
        exact ⟨((c.doTransition_adds hr).trans hext).trans hrest.adds,
          fun _ _ => .inl (hnext.mono hrest.adds)⟩
      · rename_i r hr
        have hrest := ih hadds h
        obtain ⟨hsame, hstalls⟩ := c.protocolStall_spec hr
        refine ⟨(c.doTransition_adds hr).trans hrest.adds, fun hagain hquiet => ?_⟩
        have hstalled := hrest.stalled hagain hquiet
        rw [hsame] at hstalled
        refine hstalled.imp id fun ⟨heq, hall⟩ => ⟨heq, ?_⟩
        rw [InPortCode.triggered, List.forall_mem_cons]
        exact ⟨hstalls, hall⟩

theorem scan_adds (c : Controller σ State Event Addr Port Buffer Consumer)
    {ports : List (InPortCode σ Event Addr)} (hadds : ∀ p ∈ ports, p.Adds c.queue) {s s' : σ}
    {again : Bool} (h : c.scan ports s = .ok (s', again)) :
    (c.queue s).Extends (c.queue s') := by
  induction ports generalizing s with
  | nil =>
      cases h
      exact .refl _
  | cons code ports ih =>
      rw [List.forall_mem_cons] at hadds
      rw [scan] at h
      split at h
      · cases h
      · cases h
        exact (c.runPort_passed hadds.1 ‹_›).adds
      · exact (c.runPort_passed hadds.1 ‹_›).adds.trans (ih hadds.2 h)

/-- A pass that falls through, from an in_port on. -/
theorem scan_stalled (c : Controller σ State Event Addr Port Buffer Consumer)
    {ports : List (InPortCode σ Event Addr)} (hadds : ∀ p ∈ ports, p.Adds c.queue)
    (hquiet : ∀ p ∈ ports, p.Quiet) {s s' : σ} (h : c.scan ports s = .ok (s', false)) :
    c.Scheduled s' ∨ s' = s ∧ ∀ p ∈ ports, ∀ e ∈ p.triggered s, c.ProtocolStalls s e := by
  induction ports generalizing s with
  | nil =>
      cases h
      exact .inr ⟨rfl, by simp⟩
  | cons code ports ih =>
      rw [List.forall_mem_cons] at hadds hquiet
      rw [scan] at h
      split at h
      · cases h
      · cases h
      · have hcode := c.runPort_passed hadds.1 ‹_›
        rcases hcode.stalled rfl hquiet.1 with hnext | ⟨rfl, hall⟩
        · exact .inl (hnext.mono (c.scan_adds hadds.2 h))
        · exact (ih hadds.2 hquiet.2 h).imp id fun ⟨heq, hrest⟩ =>
            ⟨heq, List.forall_mem_cons.mpr ⟨hall, hrest⟩⟩

theorem scan_append (c : Controller σ State Event Addr Port Buffer Consumer)
    {before after : List (InPortCode σ Event Addr)} {s s' : σ}
    (h : c.scan (before ++ after) s = .ok (s', false)) :
    ∃ t, c.scan after t = .ok (s', false) := by
  induction before generalizing s with
  | nil => exact ⟨s, h⟩
  | cons code before ih =>
      rw [List.cons_append, scan] at h
      split at h
      · cases h
      · cases h
      · exact ih h

/-! The loop -/

theorem runPort_fault (c : Controller σ State Event Addr Port Buffer Consumer)
    {code : InPortCode σ Event Addr} {s : σ} {f : Fault} (h : c.runPort code s = .error f) :
    f = .invalidTransition := by
  induction code generalizing s with
  | nil => cases h
  | eval effect rest ih => exact ih h
  | peek body rest ihb ih =>
      rw [runPort] at h
      split at h
      · cases h
        exact ihb ‹_›
      · cases h
      · exact ih h
  | ifThenElse cond thenPart elsePart rest iht ihe ih =>
      rw [runPort] at h
      split at h
      · rename_i hrun
        cases h
        split at hrun
        · exact iht hrun
        · exact ihe hrun
      · cases h
      · exact ih h
  | trigger event addr rest ih =>
      rw [runPort] at h
      split at h
      · exact (Except.error.inj h).symm
      · cases h
      · rename_i r _
        obtain ⟨t, ht, -⟩ := c.scheduleEvent_one r.state
        rw [ht] at h
        exact ih h
      · exact ih h

theorem scan_fault (c : Controller σ State Event Addr Port Buffer Consumer)
    {ports : List (InPortCode σ Event Addr)} {s : σ} {f : Fault}
    (h : c.scan ports s = .error f) : f = .invalidTransition := by
  induction ports generalizing s with
  | nil => cases h
  | cons code ports ih =>
      rw [scan] at h
      split at h
      · cases h
        exact c.runPort_fault ‹_›
      · cases h
      · exact ih h

theorem loop_fault (c : Controller σ State Event Addr Port Buffer Consumer) {limit : Int}
    {fuel : Nat} {counter : Int} {s : σ} {f : Fault} (hle : counter ≤ limit)
    (hfuel : limit - counter < fuel) (h : c.loop limit fuel counter s = .error f) :
    f = .invalidTransition := by
  induction fuel generalizing counter s with
  | zero => omega
  | succ fuel ih =>
      rw [loop, if_pos hle] at h
      split at h
      · obtain ⟨t, ht, -⟩ := c.scheduleEvent_one s
        rw [ht] at h
        cases h
      · split at h
        · cases h
          exact c.scan_fault ‹_›
        · exact ih (by omega) (by omega) h
        · cases h

/-- The loop ends with the next wake-up or with a pass that falls through. -/
theorem loop_ok (c : Controller σ State Event Addr Port Buffer Consumer) {limit : Int}
    {fuel : Nat} {counter : Int} {s s' : σ} (h : c.loop limit fuel counter s = .ok s') :
    c.Scheduled s' ∨ ∃ t, c.scan c.inPorts t = .ok (s', false) := by
  induction fuel generalizing counter s with
  | zero => cases h
  | succ fuel ih =>
      rw [loop] at h
      split at h
      · split at h
        · obtain ⟨t, ht, -, hnext⟩ := c.scheduleEvent_one s
          rw [ht] at h
          cases h
          exact .inl hnext
        · split at h
          · cases h
          · exact ih h
          · cases h
            exact .inr ⟨s, ‹_›⟩
      · cases h

/-- The counter stays in its bounds and no work is left asleep, as far as the in_ports from
`code` on do nothing by themselves. -/
theorem wakeup_leaves_no_work (c : Controller σ State Event Addr Port Buffer Consumer)
    {limit : Int} (hlimit : 0 ≤ limit) (s : σ) :
    (∀ f, c.wakeup limit s = .error f → f = .invalidTransition) ∧
    ∀ s', c.wakeup limit s = .ok s' → c.Scheduled s' ∨
      ∀ before code after, c.inPorts = before ++ code :: after →
        (∀ p ∈ code :: after, p.Quiet) → ∀ e ∈ code.triggered s', c.ProtocolStalls s' e := by
  refine ⟨fun f h => c.loop_fault hlimit (by omega) h, fun s' h => ?_⟩
  rcases c.loop_ok h with hnext | ⟨t, ht⟩
  · exact .inl hnext
  · refine or_iff_not_imp_left.mpr fun hsleep before code after hports hquiet e he => ?_
    rw [hports] at ht
    obtain ⟨u, hu⟩ := c.scan_append ht
    have hadds : ∀ p ∈ code :: after, p.Adds c.queue := fun p hp =>
      c.inPorts_add p (hports ▸ List.mem_append_right before hp)
    rcases c.scan_stalled hadds hquiet hu with hnext | ⟨rfl, hall⟩
    · exact absurd hnext hsleep
    · exact hall code List.mem_cons_self e he

theorem mem_oneBuffer (p : Unit) : p ∈ [()] := List.mem_singleton.mpr rfl

/-- Two in_ports, the first before what the second may do. The machine stalls in `false` and
moves on in `true`. -/
def twoPorts (second : InPortCode (Bool × EventQueue Unit) Unit Unit) (hadds : second.Adds (·.2)) :
    Controller (Bool × EventQueue Unit) Bool Unit Unit Unit Nat Unit where
  ports := [()]
  getCode _ := 0
  actions := [{ ident := "z_stall", body := .nil }, { ident := "p_pop", body := .nil }]
  transitions :=
    [{ state := false, event := (), nextState := false, actionList := ["z_stall"] },
     { state := true, event := (), nextState := true, actionList := ["p_pop"] }]
  mem_ports := mem_oneBuffer
  known := List.forall_mem_cons.mpr
    ⟨List.forall_mem_singleton.mpr ⟨_, List.mem_cons_self, rfl⟩, List.forall_mem_singleton.mpr
      (List.forall_mem_singleton.mpr ⟨_, List.mem_cons_of_mem _ List.mem_cons_self, rfl⟩)⟩
  unique := List.pairwise_pair.mpr fun h => Bool.noConfusion (congrArg Prod.fst h)
  self := ()
  env :=
    { areNSlotsAvailable := fun _ _ _ => true
      enqueue := fun _ s => s
      setState := fun _ _ s => s }
  getState _ s := s.1
  inPorts := [.trigger (fun _ => ()) (fun _ => ()) .nil, second]
  queue := (·.2)
  setQueue q s := (s.1, q)
  queue_setQueue _ _ := rfl
  enqueue_adds _ _ := .refl _
  setState_adds _ _ _ := .refl _
  actions_add := List.forall_mem_cons.mpr ⟨trivial, List.forall_mem_singleton.mpr trivial⟩
  inPorts_add := List.forall_mem_cons.mpr ⟨trivial, List.forall_mem_singleton.mpr hadds⟩

/-- The second in_port sets the state. -/
def locking : Controller (Bool × EventQueue Unit) Bool Unit Unit Unit Nat Unit :=
  twoPorts (.eval (fun s => (true, s.2)) .nil) ⟨fun _ => .refl _, trivial⟩

theorem wakeup_leaves_no_work_stalled :
    (twoPorts .nil trivial).ProtocolStalls (false, .init) ((), ()) := by
  have hrun : (twoPorts .nil trivial).wakeup 32 (false, .init) = .ok (false, .init) := rfl
  have hlimit : (0 : Int) ≤ 32 := by decide
  rcases (wakeup_leaves_no_work (twoPorts .nil trivial) hlimit (false, .init)).2 _ hrun with
    hnext | hall
  · cases hnext
  · refine hall [] _ [.nil] rfl ?_ _ (List.mem_singleton.mpr rfl)
    rw [List.forall_mem_cons, List.forall_mem_singleton]
    exact ⟨trivial, trivial⟩

/-- With a port that acts, and with no transition allowed at all. -/
theorem locking_sleeps :
    (locking.wakeup 32 (false, .init)).map (fun s => (s.1, s.2.heap)) = .ok (true, []) ∧
    ((), ()) ∈ (locking.inPorts.map fun p => p.triggered (true, .init)).flatten ∧
    ¬locking.ProtocolStalls (true, .init) ((), ()) ∧
    locking.wakeup (-1) (false, .init) = .error .counter := by
  refine ⟨rfl, List.mem_singleton.mpr rfl, ?_, rfl⟩
  rintro ⟨t, ht, hstate, -, hstalls⟩
  rcases List.mem_pair.mp ht with rfl | rfl
  · cases hstate
  · exact absurd hstalls (by decide)

end Controller
end FeS2.Slicc
