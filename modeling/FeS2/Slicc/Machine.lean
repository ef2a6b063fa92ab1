import Mathlib.Data.List.Sort
import Mathlib.Algebra.Order.BigOperators.Group.List
import Mathlib.Algebra.Order.Ring.Nat

/-!
The compiler of state machines: the statements of an action, the resources that
a pass over them collects, the code that another pass generates from them, and
the `doTransition` of a machine. `σ` is all that a controller sees and changes;
an abort is left to it.
-/

namespace FeS2.Slicc

/-- A statement list. An expression is split: the internal functions it calls come before
it, each with its body, and the rest of it changes the state (`eval`) or tests it (the
condition of an `if`). So is an assignment. -/
inductive StatementList (σ Addr Port : Type)
  | nil
  | eval (effect : Addr → σ → σ) (rest : StatementList σ Addr Port)
  | call (body rest : StatementList σ Addr Port)
  | enqueue (port : Port) (body latency rest : StatementList σ Addr Port)
  | copyHead (port : Port) (latency rest : StatementList σ Addr Port)
  | checkAllocate (port : Port) (rest : StatementList σ Addr Port)
  | peek (body rest : StatementList σ Addr Port)
  | ifThenElse (cond : Addr → σ → Bool) (thenPart elsePart rest : StatementList σ Addr Port)
  | ret

/-- The statements of a C++ function, with the buffer that each enqueue names. -/
inductive Code (σ Addr Buffer : Type)
  | done
  | eval (effect : Addr → σ → σ) (rest : Code σ Addr Buffer)
  | call (body rest : Code σ Addr Buffer)
  | enqueue (buffer : Buffer) (rest : Code σ Addr Buffer)
  | block (body rest : Code σ Addr Buffer)
  | ifElse (cond : Addr → σ → Bool) (thenPart elsePart rest : Code σ Addr Buffer)
  | ret

namespace StatementList
variable {σ Addr Port Buffer : Type}

/-- An enqueue counts itself. -/
def findResources [DecidableEq Port] :
    StatementList σ Addr Port → (Port → Nat) → Port → Nat
  | nil, res => res
  | eval _ rest, res => rest.findResources res
  | call _ rest, res => rest.findResources res
  | enqueue port _ _ rest, res =>
      rest.findResources (Function.update res port (res port + 1))
  | copyHead port _ rest, res =>
      rest.findResources (Function.update res port (res port + 1))
  | checkAllocate port rest, res =>
      rest.findResources (Function.update res port (res port + 1))
  | peek body rest, res => rest.findResources (body.findResources res)
  | ifThenElse _ thenPart elsePart rest, res =>
      rest.findResources (elsePart.findResources (thenPart.findResources res))
  | ret, res => res

/-- The code of the statements, in front of the code that comes after them. -/
def generate (getCode : Port → Buffer) :
    StatementList σ Addr Port → Code σ Addr Buffer → Code σ Addr Buffer
  | nil, k => k
  | eval effect rest, k => .eval effect (rest.generate getCode k)
  | call body rest, k => .call (body.generate getCode .done) (rest.generate getCode k)
  | enqueue port body latency rest, k =>
      .block (body.generate getCode (latency.generate getCode (.enqueue (getCode port) .done)))
        (rest.generate getCode k)
  | copyHead port latency rest, k =>
      latency.generate getCode (.enqueue (getCode port) (rest.generate getCode k))
  | checkAllocate _ rest, k => rest.generate getCode k
  | peek body rest, k => .block (body.generate getCode .done) (rest.generate getCode k)
  | ifThenElse cond thenPart elsePart rest, k =>
      .ifElse cond (thenPart.generate getCode .done) (elsePart.generate getCode .done)
        (rest.generate getCode k)
  | ret, _ => .ret

end StatementList

/-- What the code of a controller calls. -/
structure Surroundings (σ State Addr Buffer : Type) where
  areNSlotsAvailable : Buffer → Nat → σ → Bool
  enqueue : Buffer → σ → σ
  setState : Addr → State → σ → σ

/-- What a piece of code comes to, with the buffers it has enqueued into. -/
structure Run (σ Buffer : Type) where
  state : σ
  enqueued : List Buffer := []
  returned : Bool := false

namespace Run
variable {σ Buffer : Type}

/-- The run goes on, unless it has returned. -/
def andThen (r : Run σ Buffer) (next : σ → Run σ Buffer) : Run σ Buffer :=
  if r.returned then r
  else { next r.state with enqueued := r.enqueued ++ (next r.state).enqueued }

end Run

def Code.exec {σ State Addr Buffer : Type} (env : Surroundings σ State Addr Buffer) (addr : Addr) :
    Code σ Addr Buffer → σ → Run σ Buffer
  | done, s => { state := s }
  | eval effect rest, s => rest.exec env addr (effect addr s)
  | call body rest, s =>
      { body.exec env addr s with returned := false }.andThen (rest.exec env addr)
  | enqueue buffer rest, s =>
      { state := env.enqueue buffer s, enqueued := [buffer] : Run σ Buffer }.andThen
        (rest.exec env addr)
  | block body rest, s => (body.exec env addr s).andThen (rest.exec env addr)
  | ifElse cond thenPart elsePart rest, s =>
      (if cond addr s then thenPart.exec env addr s else elsePart.exec env addr s).andThen
        (rest.exec env addr)
  | ret, s => { state := s, returned := true }

structure Action (σ Addr Port : Type) where
  ident : String
  body : StatementList σ Addr Port

structure Transition (State Event : Type) where
  state : State
  event : Event
  nextState : State
  actionList : List String

/-- A machine that the compiler accepts. `ports` has all its variables. -/
structure Machine (σ State Event Addr Port Buffer : Type) where
  ports : List Port
  getCode : Port → Buffer
  actions : List (Action σ Addr Port)
  transitions : List (Transition State Event)
  mem_ports : ∀ p, p ∈ ports
  known : ∀ t ∈ transitions, ∀ a ∈ t.actionList, ∃ action ∈ actions, action.ident = a
  unique : transitions.Pairwise fun t u => (t.state, t.event) ≠ (u.state, u.event)

inductive TransitionResult
  | Valid
  | ResourceStall
  | ProtocolStall
  deriving DecidableEq

/-- The code of one case: the new state if it changes, the tests, and the calls of the actions
unless the case stalls. -/
structure CaseCode (State Buffer : Type) where
  nextState : Option State
  checks : List (Buffer × Nat)
  calls : Option (List String)
  deriving DecidableEq

namespace Machine
variable {σ State Event Addr Port Buffer : Type}

def findIndex (m : Machine σ State Event Addr Port Buffer) (ident : String) :
    Option (Action σ Addr Port) :=
  m.actions.find? fun a => a.ident = ident

section
variable [DecidableEq Port]

/-- `checkIdents`: the resources of a transition are those of its actions. -/
def resources (m : Machine σ State Event Addr Port Buffer) (t : Transition State Event)
    (p : Port) : Nat :=
  ((t.actionList.filterMap m.findIndex).map fun a => a.body.findResources (fun _ => 0) p).sum

variable [DecidableEq State] [LinearOrder Buffer]

/-- The tests of a transition in the order of their text. -/
def checks (m : Machine σ State Event Addr Port Buffer) (t : Transition State Event) :
    List (Buffer × Nat) :=
  ((m.ports.filter fun p => 0 < m.resources t p).map fun p => (m.getCode p, m.resources t p))
    |>.insertionSort fun a b => a.1 < b.1 ∨ a.1 = b.1 ∧ a.2 ≤ b.2

def stalls (t : Transition State Event) : Bool := t.actionList.contains "z_stall"

def caseCode (m : Machine σ State Event Addr Port Buffer) (t : Transition State Event) :
    CaseCode State Buffer :=
  { nextState := if t.state = t.nextState then none else some t.nextState
    checks := m.checks t
    calls := if stalls t then none else some t.actionList }

/-- A case whose code is there already only adds its label. -/
def addCase (code : CaseCode State Buffer) (label : State × Event) :
    List (CaseCode State Buffer × List (State × Event)) →
      List (CaseCode State Buffer × List (State × Event))
  | [] => [(code, [label])]
  | (c, labels) :: blocks =>
      if c = code then (c, labels ++ [label]) :: blocks
      else (c, labels) :: addCase code label blocks

/-- `print_C_switch`. -/
def switch (m : Machine σ State Event Addr Port Buffer) :
    List (CaseCode State Buffer × List (State × Event)) :=
  m.transitions.foldl (fun blocks t => addCase (m.caseCode t) (t.state, t.event) blocks) []

end

/-- The actions in order, each with the code of its declaration. -/
def runActions (m : Machine σ State Event Addr Port Buffer)
    (env : Surroundings σ State Addr Buffer) (addr : Addr) : List String → σ → Run σ Buffer
  | [], s => { state := s }
  | a :: as, s =>
      match m.findIndex a with
      | none => runActions m env addr as s
      | some action =>
          { (action.body.generate m.getCode .done).exec env addr s with returned := false }.andThen
            (runActions m env addr as)

variable [DecidableEq Port] [DecidableEq State] [DecidableEq Event] [LinearOrder Buffer]

/-- `none` is the default case: an invalid transition aborts. -/
def doTransition (m : Machine σ State Event Addr Port Buffer)
    (env : Surroundings σ State Addr Buffer) (event : Event) (state : State) (addr : Addr) (s : σ) :
    Option (TransitionResult × Run σ Buffer) :=
  (m.switch.find? fun b => b.2.contains (state, event)).map fun b =>
    if b.1.checks.all fun c => env.areNSlotsAvailable c.1 c.2 s then
      match b.1.calls with
      | none => (.ProtocolStall, { state := s })
      | some calls =>
          let r := m.runActions env addr calls s
          (.Valid, { r with state := env.setState addr (b.1.nextState.getD state) r.state })
    else (.ResourceStall, { state := s })

end Machine
end FeS2.Slicc
