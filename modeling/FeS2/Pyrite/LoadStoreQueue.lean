import FeS2.Library.EventSystem
import FeS2.Pyrite.Rename
import FeS2.Pyrite.DoubleWord

/-!
Loads and stores between fetch and commit. `inst` is the buffer of uops by queue
pointer; the window runs from `qTail` to `qHead`. The scheduler, the values that
uops compute, the caches and the other processors are the environment and come
with the events. Accesses of microcode to its own context, which are not to
simulated memory, are left out. `readAt`, `exposed`, `told` and `retired` are
histories that the code does not keep and never reads.
-/

namespace FeS2.Pyrite

inductive UopClass
  | load
  | store
  | other
  deriving DecidableEq, Repr

inductive LdstAlign
  | LDST_ALIGN_NORMAL
  | LDST_ALIGN_LO
  | LDST_ALIGN_HI
  deriving DecidableEq, Repr

def StageType.isMemoryIssued : StageType → Bool
  | .MEMORY_STAGE => true
  | .COMPLETE_STAGE => true
  | .RETIRE_STAGE => true
  | _ => false

/-- `readAt` counts the invalidations of its line that the processor had been
told of when the load read its value. `exposed`: an invalidation since then
marked the load itself, or a load past the check at retirement. -/
structure MemInst where
  uopClass : UopClass := .other
  endsX86Op : Bool := false
  stage : StageType := .FETCH_STAGE
  memOperand : DoubleWord := {}
  lsqInserted : Bool := false
  unaligned : Bool := false
  loadOrderingViolation : Bool := false
  loadConsistencyViolation : Bool := false
  readAt : Nat := 0
  exposed : Bool := false
  deriving DecidableEq

namespace MemInst

def isMemoryIssued (u : MemInst) : Bool := u.stage.isMemoryIssued

/-- A squash, and the stage a replayed uop is set back to. -/
def squash (u : MemInst) : MemInst :=
  { uopClass := u.uopClass, endsX86Op := u.endsX86Op }

def setStage (stage : StageType) (u : MemInst) : MemInst := { u with stage := stage }

/-- The address is known and the uop is in the queue. -/
def place (dw : DoubleWord) (u : MemInst) : MemInst :=
  { u with memOperand := dw, lsqInserted := true }

def withOperand (dw : DoubleWord) (u : MemInst) : MemInst := { u with memOperand := dw }

def violateOrdering (u : MemInst) : MemInst := { u with loadOrderingViolation := true }

/-- A load that has read its value. -/
def load (dw : DoubleWord) (told : Nat) (u : MemInst) : MemInst :=
  { u with memOperand := dw, stage := .COMPLETE_STAGE, readAt := told, exposed := false }

def isIssuedLoad (u : MemInst) : Bool := u.uopClass = .load && u.isMemoryIssued

/-- A load with a value that it has read from memory. -/
def HasRead (u : MemInst) : Prop :=
  u.uopClass = .load ∧ u.stage = .COMPLETE_STAGE ∧ u.memOperand.size ≠ 0

instance (u : MemInst) : Decidable u.HasRead := inferInstanceAs (Decidable (_ ∧ _))

def line (u : MemInst) : Nat := u.memOperand.alignedAddr

end MemInst

/-- `lsq` is the map of lists by block, the youngest uop first. -/
structure LoadStoreWindow where
  inst : Nat → MemInst := fun _ => {}
  qTail : Nat := 0
  qRetire : Nat := 0
  qRename : Nat := 0
  qHead : Nat := 0
  lsq : Nat → List Nat := fun _ => []
  memory : Nat → BitVec 8 := fun _ => 0
  told : Nat → Nat := fun _ => 0
  retired : List (Nat × Nat) := []

namespace LoadStoreWindow

inductive Event
  | fetch (uopClass : UopClass) (endsX86Op : Bool)
  | rename
  | addressGenerate (q : Nat) (cond : LdstAlign) (physAddr numBytes : Nat)
  | executeStore (q : Nat) (value : BitVec 64)
  | executeLoad (q : Nat)
  | completeLoad (q : Nat)
  | completeOther (q : Nat)
  | retire
  | flushPipeline (q : Nat)
  | invalidation (lineAddr : Nat)
  | reset (memory : Nat → BitVec 8)

def setInst (q : Nat) (u : MemInst) (s : LoadStoreWindow) : LoadStoreWindow :=
  { s with inst := Function.update s.inst q u }

/-- The renamed uop at `q`. -/
def renamed (q : Nat) (s : LoadStoreWindow) : Option MemInst :=
  if s.qTail ≤ q ∧ q < s.qRename then some (s.inst q) else none

/-! The queue -/

def insert (q : Nat) : List Nat → List Nat
  | [] => [q]
  | x :: xs => if x > q then x :: insert q xs else q :: x :: xs

def insertLsq (q alignedAddr : Nat) (s : LoadStoreWindow) : LoadStoreWindow :=
  { s with lsq := Function.update s.lsq alignedAddr (insert q (s.lsq alignedAddr)) }

/-- The walk of `loadSearch` over the uops older than the load; `none` if it has to wait. -/
def loadSearchAlong (inst : Nat → MemInst) (memOperand : DoubleWord) :
    List Nat → DoubleWord → Option DoubleWord
  | [], result => some result
  | q :: qs, result =>
      if (inst q).uopClass = .store then
        if !(inst q).isMemoryIssued && memOperand.overlaps (inst q).memOperand then none
        else loadSearchAlong inst memOperand qs ((inst q).memOperand.overlay result)
      else loadSearchAlong inst memOperand qs result

def loadSearch (load : Nat) (s : LoadStoreWindow) : Option DoubleWord :=
  let memOperand := (s.inst load).memOperand
  loadSearchAlong s.inst memOperand
    ((s.lsq memOperand.alignedAddr).reverse.takeWhile (· ≠ load)) memOperand

/-- The walk of `storeSearch` from the store on: the first load with a wrong value. -/
def storeSearchAlong (inst : Nat → MemInst) : List Nat → DoubleWord → Option Nat
  | [], _ => none
  | q :: qs, dw =>
      if (inst q).uopClass = .store then
        storeSearchAlong inst qs ((inst q).memOperand.overlay dw)
      else if (inst q).isMemoryIssued && !(inst q).memOperand.overlapMatches dw then some q
      else storeSearchAlong inst qs dw

def setLoadOrderingViolation (q : Nat) (s : LoadStoreWindow) : LoadStoreWindow :=
  s.setInst q (s.inst q).violateOrdering

def storeSearch (store : Nat) (s : LoadStoreWindow) : LoadStoreWindow :=
  let memOperand := (s.inst store).memOperand
  match storeSearchAlong s.inst
      ((s.lsq memOperand.alignedAddr).reverse.dropWhile (· ≠ store)) memOperand with
  | some load => s.setLoadOrderingViolation load
  | none => s

/-! Address generation and execution -/

/-- The operand, or `none` for an access that has to be cracked first. -/
def operandOf (cond : LdstAlign) (physAddr numBytes : Nat) : Option DoubleWord :=
  let (dw, overflow) := DoubleWord.setAddress physAddr numBytes
  match cond with
  | .LDST_ALIGN_NORMAL => if overflow ≠ 0 then none else some dw
  | .LDST_ALIGN_LO => some (DoubleWord.setAddress physAddr (numBytes - overflow)).1
  | .LDST_ALIGN_HI =>
      if overflow ≠ 0 then
        some (DoubleWord.setAddress (physAddr - physAddr % blockBytes) overflow).1
      else some {}

def addressGenerate (q : Nat) (cond : LdstAlign) (physAddr numBytes : Nat)
    (s : LoadStoreWindow) : Option LoadStoreWindow :=
  (s.renamed q).bind fun u =>
    if u.uopClass = .other ∨ u.lsqInserted ∨ u.unaligned ∨ 8 < numBytes then none
    else
      match operandOf cond physAddr numBytes with
      | none => some (s.setInst q { u with unaligned := true })
      | some dw =>
          some ((s.setInst q (u.place dw)).insertLsq q dw.alignedAddr)

/-- The uop at `q` if it may execute: its address is known and it has not issued. -/
def executable (c : UopClass) (q : Nat) (s : LoadStoreWindow) : Option MemInst :=
  (s.renamed q).bind fun u =>
    if u.uopClass = c ∧ u.lsqInserted ∧ !u.isMemoryIssued then some u else none

/-- Bytes of memory as a little-endian word. -/
def readFromSimicsMemory (memory : Nat → BitVec 8) (addr size : Nat) : BitVec 64 :=
  ofBytes fun i => if i < size then memory (addr + i) else 0

/-- A load takes memory first, then the bytes of older stores on top. -/
def complete (q : Nat) (s : LoadStoreWindow) : Option LoadStoreWindow :=
  let u := s.inst q
  if u.uopClass = .load ∧ u.memOperand.size ≠ 0 then
    match s.loadSearch q with
    | none => some s
    | some lsqData =>
        let operand :=
          if lsqData.covers u.memOperand then some u.memOperand
          else u.memOperand.setValue
            (readFromSimicsMemory s.memory u.memOperand.address u.memOperand.size)
        operand.map fun dw => s.setInst q (u.load (lsqData.writeValue dw) (s.told u.line))
  else some (s.setInst q (u.setStage .COMPLETE_STAGE))

def executeStore (q : Nat) (value : BitVec 64) (s : LoadStoreWindow) : Option LoadStoreWindow :=
  (s.executable .store q).bind fun u =>
    if u.memOperand.size = 0 then s.complete q
    else
      (u.memOperand.setValue value).map fun dw =>
        let s := (s.setInst q (u.withOperand dw)).storeSearch q
        s.setInst q ((s.inst q).setStage .MEMORY_STAGE)

def executeLoad (q : Nat) (s : LoadStoreWindow) : Option LoadStoreWindow :=
  (s.executable .load q).bind fun u =>
    if u.memOperand.size = 0 then s.complete q
    else
      match s.loadSearch q with
      | none => some s
      | some lsqData =>
          if lsqData.covers u.memOperand then s.complete q
          else some (s.setInst q (u.setStage .MEMORY_STAGE))

/-- The cache has the line: at once after `executeLoad`, or when a miss is over. -/
def completeLoad (q : Nat) (s : LoadStoreWindow) : Option LoadStoreWindow :=
  (s.renamed q).bind fun u =>
    if u.uopClass = .load ∧ u.stage = .MEMORY_STAGE then s.complete q else none

def completeOther (q : Nat) (s : LoadStoreWindow) : Option LoadStoreWindow :=
  (s.renamed q).bind fun u => if u.uopClass = .other then s.complete q else none

/-! Squashes -/

/-- Every uop from `first` on is squashed and leaves the queue. -/
def squashFrom (first : Nat) (s : LoadStoreWindow) : LoadStoreWindow :=
  { s with
    inst := fun q => if first ≤ q then (s.inst q).squash else s.inst q
    lsq := fun a => (s.lsq a).filter (· < first)
    qRetire := min s.qRetire first
    qRename := first }

def flushPipeline (first : Nat) (s : LoadStoreWindow) : Option LoadStoreWindow :=
  if s.qTail ≤ first ∧ first ≤ s.qRename then some { s.squashFrom first with qHead := first }
  else none

def replay (first : Nat) (s : LoadStoreWindow) : LoadStoreWindow := s.squashFrom first

/-! Retirement -/

/-- A store writes its operand to memory. -/
def writeMemory (u : MemInst) (memory : Nat → BitVec 8) : Nat → BitVec 8 :=
  if u.uopClass = .store then fun a => (u.memOperand.byteAt a).getD (memory a) else memory

/-- One x86 op commits, up to the uop at `qRetire`: Simics executes it, and its
uops leave the window. -/
def commit (s : LoadStoreWindow) : LoadStoreWindow :=
  let qs := List.range' s.qTail (s.qRetire + 1 - s.qTail)
  { s with
    memory := qs.foldl (fun m q => writeMemory (s.inst q) m) s.memory
    lsq := fun a => (s.lsq a).filter (s.qRetire < ·)
    retired := s.retired ++
      (qs.filter fun q => (s.inst q).HasRead).map fun q => ((s.inst q).line, (s.inst q).readAt)
    qTail := s.qRetire + 1
    qRetire := s.qRetire + 1 }

def advance (s : LoadStoreWindow) : LoadStoreWindow := { s with qRetire := s.qRetire + 1 }

/-- The uop at `qRetire` if it can retire; a store is then made to write. -/
def retireReady (s : LoadStoreWindow) : Option MemInst :=
  if s.qRetire < s.qRename then
    let u := s.inst s.qRetire
    if u.stage = .COMPLETE_STAGE then some u
    else if u.uopClass = .store ∧ u.stage = .MEMORY_STAGE then
      some (u.setStage .COMPLETE_STAGE)
    else none
  else none

def retire (s : LoadStoreWindow) : Option LoadStoreWindow :=
  s.retireReady.map fun u =>
    let s := s.setInst s.qRetire u
    if u.loadOrderingViolation then s.replay s.qRetire
    else
      let s := if u.loadConsistencyViolation then s.replay (s.qRetire + 1) else s
      if u.endsX86Op then s.commit else s.advance

/-! Invalidations by other processors -/

/-- The issued loads of a line, of all its doublewords. -/
def issuedLoads (lineAddr : Nat) (s : LoadStoreWindow) : List Nat :=
  ((List.range 8).flatMap fun k => s.lsq (lineAddr + 8 * k)).filter
    fun q => (s.inst q).isIssuedLoad

/-- The mark for the oldest issued load, and which loads the search has left to themselves. -/
def invalidate (loads : List Nat) (oldest qRetire q : Nat) (u : MemInst) : MemInst :=
  { u with
    loadConsistencyViolation := u.loadConsistencyViolation || q == oldest
    exposed := u.exposed ||
      (decide (q ∈ loads) && (q == oldest || decide (oldest < qRetire))) }

def tell (lineAddr : Nat) (s : LoadStoreWindow) : LoadStoreWindow :=
  { s with told := Function.update s.told lineAddr (s.told lineAddr + 1) }

def invalidationSearch (lineAddr : Nat) (s : LoadStoreWindow) : Option LoadStoreWindow :=
  let loads := s.issuedLoads lineAddr
  if lineAddr % blockBytes ≠ 0 ∨ ∃ q ∈ loads, (s.inst q).memOperand.size = 0 then none
  else
    match loads.min? with
    | none => some (s.tell lineAddr)
    | some oldest =>
        some { s.tell lineAddr with
          inst := fun q => invalidate loads oldest s.qRetire q (s.inst q) }

def fetch (uopClass : UopClass) (endsX86Op : Bool) (s : LoadStoreWindow) : LoadStoreWindow :=
  { s.setInst s.qHead { uopClass := uopClass, endsX86Op := endsX86Op } with
    qHead := s.qHead + 1 }

def rename (s : LoadStoreWindow) : Option LoadStoreWindow :=
  if s.qRename < s.qHead then
    some { s.setInst s.qRename ((s.inst s.qRename).setStage .DECODE_STAGE) with
      qRename := s.qRename + 1 }
  else none

/-- `resetUopBuf` and `resetPyriteState`, after Simics has executed an instruction. -/
def reset (memory : Nat → BitVec 8) (s : LoadStoreWindow) : LoadStoreWindow :=
  { s.squashFrom s.qTail with
    qRetire := s.qTail, qHead := s.qTail, lsq := fun _ => [], memory := memory }

def step (s : LoadStoreWindow) : Event → Option LoadStoreWindow
  | .fetch uopClass endsX86Op => some (s.fetch uopClass endsX86Op)
  | .rename => s.rename
  | .addressGenerate q cond physAddr numBytes => s.addressGenerate q cond physAddr numBytes
  | .executeStore q value => s.executeStore q value
  | .executeLoad q => s.executeLoad q
  | .completeLoad q => s.completeLoad q
  | .completeOther q => s.completeOther q
  | .retire => s.retire
  | .flushPipeline q => s.flushPipeline q
  | .invalidation lineAddr => s.invalidationSearch lineAddr
  | .reset memory => some (s.reset memory)

end LoadStoreWindow
end FeS2.Pyrite
