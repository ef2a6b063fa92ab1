import FeS2.DRAMSim.CommandQueue

/-!
The memory controller and the memory system around it. A cycle first advances the
ranks, then the controller: what the buses deliver, the next command and what it does
to the bank states, the transactions that become commands, the power state of each
rank and the read that is answered. The objects of the simulator step together, so one
clock stands for theirs. What only feeds the statistics is left out.
-/

namespace FeS2.DRAMSim

structure MemoryController where
  bankStates : BankStates := fun _ _ => {}
  commandQueue : CommandQueue := {}
  transactionQueue : List Transaction := []
  outgoingCmdPacket : Option BusPacket := none
  cmdCyclesLeft : Nat := 0
  outgoingDataPacket : Option BusPacket := none
  dataCyclesLeft : Nat := 0
  /-- The data of the writes, each with its countdown. -/
  writeData : List (BusPacket × Nat) := []
  pendingReadTransactions : List Transaction := []
  returnTransaction : List Transaction := []
  powerDown : Nat → Bool := fun _ => false
  refreshCountdown : Nat → Nat
  refreshRank : Nat := 0
  /-- History: the transactions taken so far. -/
  accepted : List Transaction := []

structure MemorySystem where
  memoryController : MemoryController
  ranks : Nat → Rank := fun _ => {}
  pendingTransactions : List Transaction := []
  currentClockCycle : Nat := 0
  /-- The addresses of the calls to `ReturnReadData` so far. -/
  readsReturned : List Nat := []
  /-- The addresses of the calls to `WriteDataDone` so far. -/
  writesDone : List Nat := []
  /-- History: the commands put on the command bus, each with its cycle. -/
  issued : List (Nat × BusPacket) := []

namespace MemoryController
variable (c : SystemConfiguration) (now : Nat)

/-- Staggers when each rank is due for a refresh. -/
def init : MemoryController where
  refreshCountdown i := c.refreshPeriod / c.numRanks * (i + 1)

/-! Bank states. -/

/-- The commands that change the state of a bank by themselves do so when their time
is over. -/
def implicitChange (b : BankState) : BankState :=
  match b.lastCommand with
  | .WRITE_P | .READ_P =>
      { b with
        currentBankState := .Precharging
        lastCommand := .PRECHARGE
        stateChangeCountdown := c.tRP }
  | .REFRESH | .PRECHARGE => { b with currentBankState := .Idle }
  | _ => b

def updateBankState (b : BankState) : BankState :=
  if 0 < b.stateChangeCountdown then
    let b := { b with stateChangeCountdown := b.stateChangeCountdown - 1 }
    if b.stateChangeCountdown = 0 then implicitChange c b else b
  else b

/-- The loops over all banks after a column access: `toRead` and `toWrite` hold for the
rank of the access, `otherRead` and `otherWrite` for the open banks of the others. -/
def afterColumn (rank toRead toWrite otherRead otherWrite : Nat) (states : BankStates) :
    BankStates := fun i j =>
  let b := states i j
  if i ≠ rank then
    if b.currentBankState = .RowActive then
      { b with
        nextRead := max (now + otherRead) b.nextRead
        nextWrite := max (now + otherWrite) b.nextWrite }
    else b
  else
    { b with
      nextRead := max (now + toRead) b.nextRead
      nextWrite := max (now + toWrite) b.nextWrite }

def afterRead (rank : Nat) : BankStates → BankStates :=
  afterColumn now rank c.burstDelay c.readToWriteDelay (c.BL / 2 + c.tRTRS) c.readToWriteDelay

def afterWrite (rank : Nat) : BankStates → BankStates :=
  afterColumn now rank c.writeToReadDelayB c.burstDelay c.writeToReadDelayR
    (c.BL / 2 + c.tRTRS)

def setBank (rank bank : Nat) (b : BankState) (states : BankStates) : BankStates :=
  Function.update states rank (Function.update (states rank) bank b)

/-- Keeps the bank from another access before its precharge. -/
def closeColumn (rank bank : Nat) (states : BankStates) : BankStates :=
  let b := states rank bank
  setBank rank bank { b with nextRead := b.nextActivate, nextWrite := b.nextActivate } states

/-- The bank states after the command has been popped. -/
def applyCommand (packet : BusPacket) (states : BankStates) : Except Fault BankStates :=
  let rank := packet.rank
  let bank := packet.bank
  let b := states rank bank
  match packet.busPacketType with
  | .READ =>
      .ok (afterRead c now rank (setBank rank bank
        { b with
          nextPrecharge := max (now + c.readToPreDelay) b.nextPrecharge
          lastCommand := .READ } states))
  | .READ_P =>
      .ok (closeColumn rank bank (afterRead c now rank (setBank rank bank
        { b with
          nextActivate := max (now + c.readAutopreDelay) b.nextActivate
          lastCommand := .READ_P
          stateChangeCountdown := c.readToPreDelay } states)))
  | .WRITE =>
      .ok (afterWrite c now rank (setBank rank bank
        { b with
          nextPrecharge := max (now + c.writeToPreDelay) b.nextPrecharge
          lastCommand := .WRITE } states))
  | .WRITE_P =>
      .ok (closeColumn rank bank (afterWrite c now rank (setBank rank bank
        { b with
          nextActivate := max (now + c.writeAutopreDelay) b.nextActivate
          lastCommand := .WRITE_P
          stateChangeCountdown := c.writeToPreDelay } states)))
  | .ACTIVATE =>
      let own : BankState :=
        { b with
          currentBankState := .RowActive
          lastCommand := .ACTIVATE
          openRowAddress := packet.row
          nextActivate := max (now + c.tRC) b.nextActivate
          nextPrecharge := max (now + c.tRAS) b.nextPrecharge
          nextRead := max (now + (c.tRCD - c.AL)) b.nextRead
          nextWrite := max (now + (c.tRCD - c.AL)) b.nextWrite }
      .ok (Function.update states rank fun i =>
        if i ≠ bank then
          { states rank i with
            nextActivate := max (now + c.tRRD) (states rank i).nextActivate }
        else own)
  | .PRECHARGE =>
      .ok (setBank rank bank
        { b with
          currentBankState := .Precharging
          lastCommand := .PRECHARGE
          stateChangeCountdown := c.tRP
          nextActivate := max (now + c.tRP) b.nextActivate } states)
  | .REFRESH =>
      .ok (Function.update states rank fun i =>
        { states rank i with
          nextActivate := now + c.tRFC
          currentBankState := .Refreshing
          lastCommand := .REFRESH
          stateChangeCountdown := c.tRFC })
  | .DATA => .error .poppedUnexpectedCommand

/-! Transactions. -/

def dramsimLog2 (value : Nat) : Nat :=
  if 2 ^ Nat.log 2 value < value then Nat.log 2 value + 1 else Nat.log 2 value

/-- The lowest `width` bits of the address, as the source takes them off, and the rest. -/
def takeField (width address : Nat) : Nat × Nat :=
  let rest := address >>> width
  ((address ^^^ (rest <<< width)) % 2 ^ 32, rest)

/-- The rank, bank, row and column of an address. -/
def addressMapping (physicalAddress : Nat) : Nat × Nat × Nat × Nat :=
  let rankBits := dramsimLog2 c.numRanks
  let bankBits := dramsimLog2 c.numBanks
  let rowBits := dramsimLog2 c.numRows
  let colBits := dramsimLog2 c.numCols
  let address := physicalAddress >>> dramsimLog2 c.cacheLineSize
  match c.addressMappingScheme with
  | .Scheme1 =>
      let (bank, address) := takeField bankBits address
      let (column, address) := takeField colBits address
      let (row, address) := takeField rowBits address
      let (rank, _) := takeField rankBits address
      (rank, bank, row, column)
  | .Scheme2 =>
      let (rank, address) := takeField rankBits address
      let (bank, address) := takeField bankBits address
      let (column, address) := takeField colBits address
      let (row, _) := takeField rowBits address
      (rank, bank, row, column)
  | .Scheme3 =>
      let (row, address) := takeField rowBits address
      let (column, address) := takeField colBits address
      let (bank, address) := takeField bankBits address
      let (rank, _) := takeField rankBits address
      (rank, bank, row, column)
  | .Scheme4 =>
      let (column, address) := takeField colBits address
      let (row, address) := takeField rowBits address
      let (bank, address) := takeField bankBits address
      let (rank, _) := takeField rankBits address
      (rank, bank, row, column)
  | .Scheme5 =>
      let (bank, address) := takeField bankBits address
      let (rank, address) := takeField rankBits address
      let (column, address) := takeField colBits address
      let (row, _) := takeField rowBits address
      (rank, bank, row, column)
  | .Scheme6 =>
      let (column, address) := takeField colBits address
      let (rank, address) := takeField rankBits address
      let (bank, address) := takeField bankBits address
      let (row, _) := takeField rowBits address
      (rank, bank, row, column)

def willAcceptTransaction (mc : MemoryController) : Bool :=
  decide (mc.transactionQueue.length < c.transQueueDepth)

def addTransaction (tr : Transaction) (mc : MemoryController) : Bool × MemoryController :=
  if willAcceptTransaction c mc then
    (true, { mc with
      transactionQueue := mc.transactionQueue ++ [tr]
      accepted := mc.accepted ++ [tr] })
  else (false, mc)

def columnCommand (ttype : TransactionType) : Except Fault BusPacketType :=
  match ttype, c.rowBufferPolicy with
  | .DATA_READ, .OpenPage => .ok .READ
  | .DATA_READ, .ClosePage => .ok .READ_P
  | .DATA_WRITE, .OpenPage => .ok .WRITE
  | .DATA_WRITE, .ClosePage => .ok .WRITE_P
  | .RETURN_DATA, _ => .error .unknownTransactionType

/-- The transaction of place `i` becomes an activate and a column access. -/
def breakUp (i : Nat) (tr : Transaction) (mc : MemoryController) :
    Except Fault MemoryController := do
  let (rank, bank, row, column) := addressMapping c tr.address
  let act : BusPacket := ⟨.ACTIVATE, tr.address, column, row, rank, bank⟩
  let cq ← mc.commandQueue.enqueue c act
  let type ← columnCommand c tr.transactionType
  let cq ← cq.enqueue c ⟨type, tr.address, column, row, rank, bank⟩
  pure { mc with
    commandQueue := cq
    transactionQueue := mc.transactionQueue.eraseIdx i
    pendingReadTransactions :=
      if tr.transactionType = .DATA_READ then mc.pendingReadTransactions ++ [tr]
      else mc.pendingReadTransactions }

/-- The loop over the transaction queue from place `i` on. The transaction after one
that has left is passed over. -/
def scheduleFrom : Nat → Nat → MemoryController → Except Fault MemoryController
  | 0, _, mc => .ok mc
  | fuel + 1, i, mc =>
      match mc.transactionQueue[i]? with
      | none => .ok mc
      | some tr =>
          let (rank, bank, _, _) := addressMapping c tr.address
          if c.numRanks ≤ rank ∨ c.numBanks ≤ bank then .error .indexOutOfRange
          else if mc.commandQueue.hasRoomFor c 2 rank bank then do
            let mc ← breakUp c i tr mc
            scheduleFrom fuel (i + 1) mc
          else scheduleFrom fuel (i + 1) mc

def scheduleTransactions (mc : MemoryController) : Except Fault MemoryController :=
  scheduleFrom c mc.transactionQueue.length 0 mc

/-- Data coming back from a rank. -/
def receiveFromBus (mc : MemoryController) (bpacket : BusPacket) :
    Except Fault MemoryController :=
  if bpacket.busPacketType ≠ .DATA then .error .nonDataFromRank
  else
    .ok { mc with
      returnTransaction :=
        mc.returnTransaction ++ [⟨.RETURN_DATA, bpacket.physicalAddress⟩] }

end MemoryController

/-! One cycle. -/

namespace MemorySystem
open MemoryController
variable (c : SystemConfiguration)

def init : MemorySystem where
  memoryController := MemoryController.init c

/-- What a callback asks of the memory while it is called. -/
def callback (requests : List Transaction) (mc : MemoryController) : MemoryController :=
  requests.foldl (fun mc tr => (addTransaction c tr mc).2) mc

/-- The ranks in their order; what one of them hands to the controller is nothing to
the others. -/
def updateRanks (s : MemorySystem) : Except Fault MemorySystem := do
  let packets := (List.range c.numRanks).filterMap fun i => ((s.ranks i).update c).1
  let mc ← packets.foldlM receiveFromBus s.memoryController
  pure { s with ranks := fun i => ((s.ranks i).update c).2, memoryController := mc }

def acceptPending (s : MemorySystem) : MemorySystem :=
  match s.pendingTransactions with
  | [] => s
  | tr :: rest =>
      if willAcceptTransaction c s.memoryController then
        { s with
          memoryController := (addTransaction c tr s.memoryController).2
          pendingTransactions := rest }
      else s

def updateBankStates (s : MemorySystem) : MemorySystem :=
  { s with
    memoryController :=
      { s.memoryController with
        bankStates := fun i j => updateBankState c (s.memoryController.bankStates i j) } }

def deliverCommand (s : MemorySystem) : Except Fault MemorySystem :=
  let mc := s.memoryController
  match mc.outgoingCmdPacket with
  | none => .ok s
  | some packet =>
      let left := decrement mc.cmdCyclesLeft
      if left = 0 then do
        let r ← (s.ranks packet.rank).receiveFromBus c s.currentClockCycle packet
        pure { s with
          ranks := Function.update s.ranks packet.rank r
          memoryController := { mc with outgoingCmdPacket := none, cmdCyclesLeft := left } }
      else .ok { s with memoryController := { mc with cmdCyclesLeft := left } }

def deliverData (onWrite : List Transaction) (s : MemorySystem) : Except Fault MemorySystem :=
  let mc := s.memoryController
  match mc.outgoingDataPacket with
  | none => .ok s
  | some packet =>
      let mc := { mc with dataCyclesLeft := decrement mc.dataCyclesLeft }
      if mc.dataCyclesLeft = 0 then do
        let mc := callback c onWrite mc
        let r ← (s.ranks packet.rank).receiveFromBus c s.currentClockCycle packet
        pure { s with
          ranks := Function.update s.ranks packet.rank r
          writesDone := s.writesDone ++ [packet.physicalAddress]
          memoryController := { mc with outgoingDataPacket := none } }
      else .ok { s with memoryController := mc }

def sendWriteData (s : MemorySystem) : Except Fault MemorySystem :=
  let mc := s.memoryController
  match mc.writeData.map fun e => (e.1, decrement e.2) with
  | (packet, 0) :: rest =>
      if mc.outgoingDataPacket.isSome then .error .dataBusCollision
      else
        .ok { s with
          memoryController :=
            { mc with
              writeData := rest
              outgoingDataPacket := some packet
              dataCyclesLeft := c.BL / 2 } }
  | waiting => .ok { s with memoryController := { mc with writeData := waiting } }

def startRefresh (s : MemorySystem) : MemorySystem :=
  let mc := s.memoryController
  let rank := mc.refreshRank
  let waiting := { s.ranks rank with refreshWaiting := true }
  if mc.refreshCountdown rank = 0 then
    { s with
      ranks := Function.update s.ranks rank waiting
      memoryController :=
        { mc with
          commandQueue := mc.commandQueue.needRefresh rank
          refreshCountdown := Function.update mc.refreshCountdown rank c.refreshPeriod
          refreshRank := if rank + 1 = c.numRanks then 0 else rank + 1 } }
  else if mc.powerDown rank ∧ mc.refreshCountdown rank ≤ c.tXP then
    { s with ranks := Function.update s.ranks rank waiting }
  else s

def issueCommand (s : MemorySystem) : Except Fault MemorySystem :=
  let mc := s.memoryController
  match mc.commandQueue.pop c s.currentClockCycle mc.bankStates with
  | (none, cq) => .ok { s with memoryController := { mc with commandQueue := cq } }
  | (some packet, cq) => do
      let states ← applyCommand c s.currentClockCycle packet mc.bankStates
      if mc.outgoingCmdPacket.isSome then throw .commandBusCollision
      pure { s with
        issued := s.issued ++ [(s.currentClockCycle, packet)]
        memoryController :=
          { mc with
            commandQueue := cq
            bankStates := states
            writeData :=
              if packet.busPacketType = .WRITE ∨ packet.busPacketType = .WRITE_P then
                mc.writeData ++ [({ packet with busPacketType := .DATA }, c.WL)]
              else mc.writeData
            outgoingCmdPacket := some packet
            cmdCyclesLeft := c.tCMD } }

def schedule (s : MemorySystem) : Except Fault MemorySystem := do
  let mc ← scheduleTransactions c s.memoryController
  pure { s with memoryController := mc }

/-- All banks of the rank, as the controller sees them. -/
def setRank (rank : Nat) (f : BankState → BankState) (states : BankStates) : BankStates :=
  Function.update states rank fun j => f (states rank j)

/-- Powers the rank down when nothing is to be done there, and up when something is. -/
def powerRank (s : MemorySystem) (i : Nat) : Except Fault MemorySystem :=
  let mc := s.memoryController
  let now := s.currentClockCycle
  if c.useLowPower = false then .ok s
  else if mc.commandQueue.isEmpty c i ∧ (s.ranks i).refreshWaiting = false then
    if ∀ j < c.numBanks, (mc.bankStates i j).currentBankState = .Idle then do
      let r ← (s.ranks i).powerDown c now
      pure { s with
        ranks := Function.update s.ranks i r
        memoryController :=
          { mc with
            powerDown := Function.update mc.powerDown i true
            bankStates := setRank i
              (fun b => { b with currentBankState := .PowerDown, nextPowerUp := now + c.tCKE })
              mc.bankStates } }
    else .ok s
  else if (mc.bankStates i 0).nextPowerUp ≤ now ∧ mc.powerDown i then do
    let r ← (s.ranks i).powerUp c now
    pure { s with
      ranks := Function.update s.ranks i r
      memoryController :=
        { mc with
          powerDown := Function.update mc.powerDown i false
          bankStates := setRank i
            (fun b => { b with currentBankState := .Idle, nextActivate := now + c.tXP })
            mc.bankStates } }
  else .ok s

def powerRanks (s : MemorySystem) : Except Fault MemorySystem :=
  (List.range c.numRanks).foldlM (powerRank c) s

/-- The oldest data that have come back answer the first pending read of their
address. -/
def answerRead (onRead : List Transaction) (s : MemorySystem) : MemorySystem :=
  let mc := s.memoryController
  match mc.returnTransaction with
  | [] => s
  | tr :: rest =>
      match mc.pendingReadTransactions.findIdx? fun p => p.address == tr.address with
      | none => { s with memoryController := { mc with returnTransaction := rest } }
      | some i =>
          let mc := callback c onRead mc
          { s with
            readsReturned := s.readsReturned ++ [tr.address]
            memoryController :=
              { mc with
                pendingReadTransactions := mc.pendingReadTransactions.eraseIdx i
                returnTransaction := rest } }

def stepClock (s : MemorySystem) : MemorySystem :=
  let mc := s.memoryController
  { s with
    memoryController := { mc with refreshCountdown := fun i => decrement (mc.refreshCountdown i) }
    currentClockCycle := s.currentClockCycle + 1 }

def update (onWrite onRead : List Transaction) (s : MemorySystem) : Except Fault MemorySystem := do
  let s ← updateRanks c s
  let s := updateBankStates c (acceptPending c s)
  let s ← deliverCommand c s
  let s ← deliverData c onWrite s
  let s ← sendWriteData c s
  let s ← issueCommand c (startRefresh c s)
  let s ← schedule c s
  let s ← powerRanks c s
  pure (stepClock (answerRead c onRead s))

def addTransaction (tr : Transaction) (s : MemorySystem) : Bool × MemorySystem :=
  let (accepted, mc) := MemoryController.addTransaction c tr s.memoryController
  (accepted, { s with memoryController := mc })

/-- The other form of the call never refuses: what the controller cannot take waits. -/
def addTransactionOf (isWrite : Bool) (addr : Nat) (s : MemorySystem) : MemorySystem :=
  let tr : Transaction := ⟨if isWrite then .DATA_WRITE else .DATA_READ, addr⟩
  if willAcceptTransaction c s.memoryController then (addTransaction c tr s).2
  else { s with pendingTransactions := s.pendingTransactions ++ [tr] }

inductive Event
  | request (tr : Transaction)
  | add (isWrite : Bool) (addr : Nat)
  | cycle (onWrite onRead : List Transaction)

def step (s : MemorySystem) : Event → Except Fault MemorySystem
  | .request tr => .ok (addTransaction c tr s).2
  | .add isWrite addr => .ok (addTransactionOf c isWrite addr s)
  | .cycle onWrite onRead => update c onWrite onRead s

end MemorySystem

end FeS2.DRAMSim
