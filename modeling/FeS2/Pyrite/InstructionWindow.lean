import FeS2.Pyrite.FetchWindow

/-!
The instruction window with its five pointers, the slots of its buffer, and the
pipes that carry the pointers from stage to stage. What the decoder, the
translation of addresses, the memory and the validation of a commit answer comes
with the events, as does the choice of the uop that wakes up.
-/

namespace FeS2.Pyrite

def MAX_TRANSOPS_PER_USER_INSN : Nat := 16

structure PipeStages where
  head : Nat
  tail : Nat
  pipeline : List Nat

namespace PipeStages

def configure (length t : Nat) : PipeStages :=
  { head := t, tail := t, pipeline := List.replicate (length + 1) t }

def cycle (p : PipeStages) : PipeStages :=
  let pipeline := (p.pipeline.dropLast ++ [p.tail]).tail ++ [p.tail]
  { p with pipeline := pipeline, head := pipeline.headD p.tail }

def insertTail (t : Nat) (p : PipeStages) : Option PipeStages :=
  if p.tail ≤ t then some { p with tail := t } else none

/-- Before position 0 stands the largest of all, which limits nothing. -/
def squash : Nat → PipeStages → PipeStages
  | 0, p => p
  | lastGood + 1, p =>
      { head := min p.head lastGood
        tail := min p.tail lastGood
        pipeline := p.pipeline.map (min · lastGood) }

end PipeStages

/-- What the window looks at in a transop. -/
structure Op where
  isnop : Bool := false
  legal : Bool := true
  isbranch : Bool := false
  ischeck : Bool := false
  isload : Bool := false
  isstore : Bool := false
  deriving DecidableEq

inductive InstStage
  | FETCH
  | DECODE
  | WAIT_RA
  | WAIT_RB
  | WAIT_RC
  | READY
  | EXECUTE
  | MEMORY
  | COMPLETE
  | RETIRE
  deriving DecidableEq, Repr

/-- Queued, and not complete yet. -/
def InstStage.inFlight : InstStage → Bool
  | .WAIT_RA | .WAIT_RB | .WAIT_RC | .READY | .EXECUTE | .MEMORY => true
  | _ => false

/-- `waiting`: on a wait list, the scheduler's and the event queue's among them. -/
structure BufferedInst where
  op : Op := {}
  qPtr : Nat := 0
  stage : InstStage := .FETCH
  startsX86Op : Bool := false
  endsX86Op : Bool := false
  checkException : Bool := false
  waiting : Bool := false
  deriving DecidableEq

namespace BufferedInst

def squash (d : BufferedInst) : BufferedInst :=
  { d with checkException := false, waiting := false }

def reset (d : BufferedInst) : BufferedInst := { op := d.op, waiting := d.waiting }

end BufferedInst

/-- The sizes of the window, for a buffer of `1 <<< bits` slots. -/
structure WindowParams (bits : Nat) where
  robSize : Nat
  frontEndMax : Nat
  fpipeDepth : Nat
  cpipeDepth : Nat
  rpipeDepth : Nat
  fits : robSize + frontEndMax + MAX_TRANSOPS_PER_USER_INSN - 1 ≤ 1 <<< bits

/-- The code has a buffer of 128 uops, and two sets of sizes for it. -/
def warmup : WindowParams 7 :=
  { robSize := 20, frontEndMax := 1 * (1 + 1), fpipeDepth := 1, cpipeDepth := 1, rpipeDepth := 1
    fits := by decide }

def dataCollect : WindowParams 7 :=
  { robSize := 80, frontEndMax := 4 * (4 + 1), fpipeDepth := 4, cpipeDepth := 4, rpipeDepth := 2
    fits := by decide }

structure InstructionWindow (bits : Nat) where
  params : WindowParams bits
  buffer : Nat → BufferedInst
  qHead : Nat
  qTail : Nat
  qRename : Nat
  qExecute : Nat
  qRetire : Nat
  qOldestBad : Option Nat
  fetchPipe : PipeStages
  corePipe : PipeStages
  retirePipe : PipeStages

namespace InstructionWindow
variable {bits : Nat}

/-- What a woken uop comes to. -/
inductive Outcome
  | wait (stage : InstStage)
  | noTranslation
  | stored
  | unaligned
  | complete (mispredicted excepting : Bool)

inductive Pipe
  | fetch
  | core
  | retire

inductive Event (bits : Nat)
  | fetch (uops : List Op)
  | fetchFailed
  | rename
  | execute (outcome : Outcome)
  | wakeup (slot : Nat) (outcome : Outcome)
  | retire (storeHit : Bool) (violation : Violation) (succeed : Bool)
  | insertTail (pipe : Pipe)
  | cycle
  | reset (params : WindowParams bits)

def init (params : WindowParams bits) : InstructionWindow bits :=
  { params := params
    buffer := fun _ => {}
    qHead := 0
    qTail := 0
    qRename := 0
    qExecute := 0
    qRetire := 0
    qOldestBad := none
    fetchPipe := .configure params.fpipeDepth 0
    corePipe := .configure params.cpipeDepth 0
    retirePipe := .configure params.rpipeDepth 0 }

def bufSize (_ : InstructionWindow bits) : Nat := 1 <<< bits

def mappedIndex (bits logicalIndex : Nat) : Nat := logicalIndex &&& (1 <<< bits - 1)

def getDynamicInst (q : Nat) (s : InstructionWindow bits) : BufferedInst :=
  s.buffer (mappedIndex bits q)

def modify (q : Nat) (f : BufferedInst → BufferedInst) (s : InstructionWindow bits) :
    InstructionWindow bits :=
  { s with buffer := fun i => if i = mappedIndex bits q then f (s.buffer i) else s.buffer i }

/-- A loop over `n` uops, from the youngest down to `q`. -/
def modifyDown (f : BufferedInst → BufferedInst) (q : Nat) :
    Nat → InstructionWindow bits → InstructionWindow bits
  | 0, s => s
  | n + 1, s => modifyDown f q n (s.modify (q + n) f)

def setOldestBad (q : Nat) (s : InstructionWindow bits) : InstructionWindow bits :=
  { s with qOldestBad := some (match s.qOldestBad with | none => q | some b => min b q) }

/-- The oldest bad uop is forgotten if it goes. -/
def squashOldestBad (q : Nat) (qOldestBad : Option Nat) : Option Nat :=
  qOldestBad.bind fun b => if q ≤ b then none else some b

/-- The loop counts an unsigned position down, and does not end at 0. -/
def flushPipeline (qFirstBad : Nat) (s : InstructionWindow bits) :
    Option (InstructionWindow bits) :=
  if qFirstBad = 0 then none
  else
    some { s.modifyDown .squash qFirstBad (s.qHead - qFirstBad) with
      fetchPipe := s.fetchPipe.squash qFirstBad
      corePipe := s.corePipe.squash qFirstBad
      retirePipe := s.retirePipe.squash qFirstBad
      qExecute := min s.qExecute qFirstBad
      qRetire := min s.qRetire qFirstBad
      qOldestBad := squashOldestBad qFirstBad s.qOldestBad
      qRename := qFirstBad
      qHead := qFirstBad }

def unfetch (d : BufferedInst) : BufferedInst := { d.squash with stage := .FETCH }

/-- As in a flush, the loop does not end at 0. -/
def replay (qFirstReplayed : Nat) (s : InstructionWindow bits) :
    Option (InstructionWindow bits) :=
  if qFirstReplayed = 0 then none
  else
    some { s.modifyDown unfetch qFirstReplayed (s.qRename - qFirstReplayed) with
      corePipe := s.corePipe.squash qFirstReplayed
      retirePipe := s.retirePipe.squash qFirstReplayed
      qExecute := min s.qExecute qFirstReplayed
      qRetire := min s.qRetire qFirstReplayed
      qOldestBad := squashOldestBad qFirstReplayed s.qOldestBad
      qRename := qFirstReplayed }

/-- `resetUopBuf` and `resetPyriteState`. -/
def resetState (s : InstructionWindow bits) : InstructionWindow bits :=
  { s.modifyDown (fun d => d.squash.reset) s.qTail (s.qHead - s.qTail) with
    qHead := s.qTail
    qRename := s.qTail
    qExecute := s.qTail
    qRetire := s.qTail
    qOldestBad := none
    fetchPipe := .configure s.params.fpipeDepth s.qTail
    corePipe := .configure s.params.cpipeDepth s.qTail
    retirePipe := .configure s.params.rpipeDepth s.qTail }

/-- The search of `dyn_first`, towards older uops. -/
def firstOfX86Op (s : InstructionWindow bits) : Nat → Option Nat
  | 0 => if (s.getDynamicInst 0).startsX86Op then some 0 else none
  | q + 1 =>
      if (s.getDynamicInst (q + 1)).startsX86Op then some (q + 1) else s.firstOfX86Op q

/-- The search of `dyn_last`, towards younger uops. After a turn of the buffer it
would find the same uops again. -/
def lastOfX86Op (s : InstructionWindow bits) : Nat → Nat → Option Nat
  | 0, _ => none
  | n + 1, q => if (s.getDynamicInst q).endsX86Op then some q else s.lastOfX86Op n (q + 1)

/-! Fetch -/

def initUops : Nat → List Op → InstructionWindow bits → InstructionWindow bits
  | _, [], s => s
  | q, op :: ops, s =>
      initUops (q + 1) ops (s.modify q fun d => { op := op, qPtr := q, waiting := d.waiting })

/-- Only the last uop of an x86 op may be a branch. -/
def branchesLast (uops : List Op) : Bool := uops.dropLast.all fun op => !op.isbranch

/-- Every uop was detached when its slot was taken. -/
def detached (q n : Nat) (s : InstructionWindow bits) : Bool :=
  (List.range n).all fun i => !(s.getDynamicInst (q + i)).waiting

def decodeCurrentX86Instruction (uops : List Op) (s : InstructionWindow bits) :
    Option (InstructionWindow bits) :=
  let n := uops.length
  if MAX_TRANSOPS_PER_USER_INSN < n || !branchesLast uops || !s.detached s.qHead n then none
  else
    let t := ((s.initUops s.qHead uops).modify s.qHead fun d => { d with startsX86Op := true })
      |>.modify (s.qHead + n - 1) fun d => { d with endsX86Op := true }
    if (t.getDynamicInst (s.qHead + n - 1)).qPtr + 1 = s.qHead + n then
      some { t with qHead := s.qHead + n }
    else none

/-- Fetch neither passes a bad uop nor fills the front end any further. -/
def fetchReady (s : InstructionWindow bits) : Bool :=
  s.qOldestBad.isNone && s.qHead < s.qRename + s.params.frontEndMax

def fetch (uops : List Op) (s : InstructionWindow bits) : Option (InstructionWindow bits) :=
  if s.fetchReady then s.decodeCurrentX86Instruction uops else none

def fetchFailed (s : InstructionWindow bits) : Option (InstructionWindow bits) :=
  if s.fetchReady then some (s.setOldestBad s.qHead) else none

/-! Rename -/

def rename (s : InstructionWindow bits) : Option (InstructionWindow bits) :=
  if min s.fetchPipe.head (s.qTail + s.params.robSize) ≤ s.qRename then none
  else if s.qHead ≤ s.qRename then none
  else
    let d := s.getDynamicInst s.qRename
    if !d.op.legal then some (s.setOldestBad s.qRename)
    else if d.op.isnop then
      some { s.modify s.qRename fun d => { d with stage := .COMPLETE } with
        qRename := s.qRename + 1 }
    else if d.stage = .FETCH then
      some { s.modify s.qRename fun d => { d with stage := .DECODE } with
        qRename := s.qRename + 1 }
    else none

/-! Execution -/

def resolveBranch (q : Nat) (mispredicted : Bool) (s : InstructionWindow bits) :
    Option (InstructionWindow bits) :=
  if q + 1 < s.qHead then
    if mispredicted then s.flushPipeline (q + 1) else some s
  else if s.qOldestBad = some s.qHead then some { s with qOldestBad := none }
  else some s

def checkException (q : Nat) (s : InstructionWindow bits) : Option (InstructionWindow bits) :=
  (s.lastOfX86Op s.bufSize q).bind fun last =>
    if (s.getDynamicInst last).qPtr ≤ q then none
    else
      ((s.modify last fun d => { d with endsX86Op := false }).flushPipeline (q + 1)).map
        fun s => s.modify q fun d => { d with endsX86Op := true, checkException := true }

def refetch (q : Nat) (s : InstructionWindow bits) : Option (InstructionWindow bits) :=
  (s.firstOfX86Op q).bind fun first => s.flushPipeline first

def alignmentException (q : Nat) (s : InstructionWindow bits) : Option (InstructionWindow bits) :=
  s.refetch q

def complete (q : Nat) (mispredicted excepting : Bool) (s : InstructionWindow bits) :
    Option (InstructionWindow bits) :=
  let d := s.getDynamicInst q
  (if d.op.isbranch then s.resolveBranch q mispredicted else some s).bind fun s =>
    (if d.op.ischeck && excepting then
      if d.endsX86Op then some (s.modify q fun d => { d with checkException := true })
      else s.checkException q
    else some s).map fun s => s.modify q fun d => { d with stage := .COMPLETE }

/-- The uop at `q`, just taken from its wait list. -/
def schedule (q : Nat) (s : InstructionWindow bits) : Outcome → Option (InstructionWindow bits)
  | .wait stage =>
      if stage.inFlight then
        some (s.modify q fun d => { d with stage := stage, waiting := true })
      else none
  | .noTranslation =>
      some ((s.modify q fun d => { d with stage := .WAIT_RB }).setOldestBad q)
  | .stored =>
      if (s.getDynamicInst q).op.isstore then
        some (s.modify q fun d => { d with stage := .MEMORY })
      else none
  | .unaligned => s.alignmentException q
  | .complete mispredicted excepting => s.complete q mispredicted excepting

/-- A uop that has just been queued has no operand yet that it could fail on. -/
def execute (outcome : Outcome) (s : InstructionWindow bits) : Option (InstructionWindow bits) :=
  if s.corePipe.head ≤ s.qExecute || s.qHead ≤ s.qExecute then none
  else if (s.getDynamicInst s.qExecute).stage = .COMPLETE then
    some { s with qExecute := s.qExecute + 1 }
  else
    match outcome with
    | .wait _ | .noTranslation =>
        ((s.modify s.qExecute fun d => { d with stage := .WAIT_RA }).schedule s.qExecute outcome).map
          fun t => { t with qExecute := s.qExecute + 1 }
    | _ => none

def wakeup (slot : Nat) (outcome : Outcome) (s : InstructionWindow bits) :
    Option (InstructionWindow bits) :=
  let d := s.buffer slot
  if d.waiting then
    (s.modify d.qPtr fun d => { d with waiting := false }).schedule d.qPtr outcome
  else none

/-! Retirement -/

/-- The uops of the oldest x86 op commit, up to the one at the retire point. -/
def commitX86Op (succeed : Bool) (s : InstructionWindow bits) : Option (InstructionWindow bits) :=
  if !(s.getDynamicInst s.qTail).startsX86Op then none
  else
    let t := s.modifyDown (fun d => { d with stage := .RETIRE }) s.qTail
      (s.qRetire + 1 - s.qTail)
    if succeed then some { t with qTail := s.qRetire + 1, qRetire := s.qRetire + 1 }
    else some t.resetState

def retireChecked (succeed : Bool) (s : InstructionWindow bits) : Option (InstructionWindow bits) :=
  let d := s.getDynamicInst s.qRetire
  if d.op.ischeck && !d.checkException && d.endsX86Op then s.refetch s.qRetire
  else if d.endsX86Op then s.commitX86Op succeed
  else some { s with qRetire := s.qRetire + 1 }

def retireReady (violation : Violation) (succeed : Bool) (s : InstructionWindow bits) :
    Option (InstructionWindow bits) :=
  let d := s.getDynamicInst s.qRetire
  if violation ≠ .none && !d.op.isload then none
  else
    match violation with
    | .loadOrdering => s.replay d.qPtr
    | .loadConsistency => (s.replay (d.qPtr + 1)).bind (·.retireChecked succeed)
    | .none => s.retireChecked succeed

def retire (storeHit : Bool) (violation : Violation) (succeed : Bool) (s : InstructionWindow bits) :
    Option (InstructionWindow bits) :=
  if s.qOldestBad = some s.qRetire then some s.resetState
  else if s.retirePipe.head ≤ s.qRetire then none
  else
    let d := s.getDynamicInst s.qRetire
    if d.stage = .COMPLETE then s.retireReady violation succeed
    else if d.op.isstore && !d.waiting then
      -- the demand store
      if storeHit then
        (s.modify s.qRetire fun d => { d with stage := .COMPLETE }).retireReady violation succeed
      else some (s.modify s.qRetire fun d => { d with waiting := true })
    else none

def insertTail (s : InstructionWindow bits) : Pipe → Option (InstructionWindow bits)
  | .fetch => (s.fetchPipe.insertTail s.qHead).map fun p => { s with fetchPipe := p }
  | .core => (s.corePipe.insertTail s.qRename).map fun p => { s with corePipe := p }
  | .retire => (s.retirePipe.insertTail s.qExecute).map fun p => { s with retirePipe := p }

def cycle (s : InstructionWindow bits) : InstructionWindow bits :=
  { s with
    fetchPipe := s.fetchPipe.cycle
    corePipe := s.corePipe.cycle
    retirePipe := s.retirePipe.cycle }

/-- New parameters, as of a switch between warm-up and timing, come after a reset. -/
def reset (params : WindowParams bits) (s : InstructionWindow bits) : InstructionWindow bits :=
  { s.resetState with params := params }

def step (s : InstructionWindow bits) : Event bits → Option (InstructionWindow bits)
  | .fetch uops => s.fetch uops
  | .fetchFailed => s.fetchFailed
  | .rename => s.rename
  | .execute outcome => s.execute outcome
  | .wakeup slot outcome => s.wakeup slot outcome
  | .retire storeHit violation succeed => s.retire storeHit violation succeed
  | .insertTail pipe => s.insertTail pipe
  | .cycle => some s.cycle
  | .reset params => some (s.reset params)

end InstructionWindow
end FeS2.Pyrite
