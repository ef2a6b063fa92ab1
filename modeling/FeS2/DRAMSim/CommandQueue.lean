import FeS2.DRAMSim.Rank

/-!
The command queue of the memory controller: commands wait in one queue per rank or one
per bank, and `pop` takes out the next that may be issued, after a refresh that is due
and before a precharge that nothing waits for.
-/

namespace FeS2.DRAMSim

structure CommandQueue where
  queues : Nat → Nat → List BusPacket := fun _ _ => []
  /-- For each rank, what is left of the windows its last activates have opened. -/
  tFAWCountdown : Nat → List Nat := fun _ => []
  rowAccessCounters : Nat → Nat → Nat := fun _ _ => 0
  nextBank : Nat := 0
  nextRank : Nat := 0
  nextBankPRE : Nat := 0
  nextRankPRE : Nat := 0
  refreshRank : Nat := 0
  refreshWaiting : Bool := false
  sendAct : Bool := true

/-- The controller's bank states, by rank and bank. -/
abbrev BankStates := Nat → Nat → BankState

namespace CommandQueue
variable (c : SystemConfiguration) (now : Nat) (states : BankStates)

/-- The second index of the queue that holds the commands of a bank. -/
def slot (bank : Nat) : Nat :=
  match c.queuingStructure with
  | .PerRank => 0
  | .PerRankPerBank => bank

def setQueue (rank slot : Nat) (q : List BusPacket) (cq : CommandQueue) : CommandQueue :=
  { cq with queues := Function.update cq.queues rank (Function.update (cq.queues rank) slot q) }

def enqueue (packet : BusPacket) (cq : CommandQueue) : Except Fault CommandQueue :=
  let q := cq.queues packet.rank (slot c packet.bank) ++ [packet]
  if c.cmdQueueDepth < q.length then .error .commandQueueOverflow
  else .ok (setQueue packet.rank (slot c packet.bank) q cq)

/-- The difference is one of `size_t`. -/
def hasRoomFor (numberToEnqueue rank bank : Nat) (cq : CommandQueue) : Bool :=
  decide (numberToEnqueue ≤
    (c.cmdQueueDepth + 2 ^ 64 - (cq.queues rank (slot c bank)).length) % 2 ^ 64)

def isEmpty (rank : Nat) (cq : CommandQueue) : Bool :=
  match c.queuingStructure with
  | .PerRank => (cq.queues rank 0).isEmpty
  | .PerRankPerBank => (List.range c.numBanks).all fun bank => (cq.queues rank bank).isEmpty

def needRefresh (rank : Nat) (cq : CommandQueue) : CommandQueue :=
  { cq with refreshWaiting := true, refreshRank := rank }

/-- On a packet of type `DATA` the source exits; none is ever queued. -/
def isIssuable (cq : CommandQueue) (packet : BusPacket) : Bool :=
  let b := states packet.rank packet.bank
  match packet.busPacketType with
  | .REFRESH => false
  | .ACTIVATE =>
      decide ((b.currentBankState = .Idle ∨ b.currentBankState = .Refreshing) ∧
        b.nextActivate ≤ now ∧ (cq.tFAWCountdown packet.rank).length < 4)
  | .WRITE | .WRITE_P =>
      decide (b.currentBankState = .RowActive ∧ b.nextWrite ≤ now ∧
        packet.row = b.openRowAddress ∧
        cq.rowAccessCounters packet.rank packet.bank < c.totalRowAccesses)
  | .READ | .READ_P =>
      decide (b.currentBankState = .RowActive ∧ b.nextRead ≤ now ∧
        packet.row = b.openRowAddress ∧
        cq.rowAccessCounters packet.rank packet.bank < c.totalRowAccesses)
  | .PRECHARGE => decide (b.currentBankState = .RowActive ∧ b.nextPrecharge ≤ now)
  | .DATA => false

/-- The windows of all ranks grow shorter by a cycle; of each rank at most the first
is over. -/
def countdown (cq : CommandQueue) : CommandQueue :=
  { cq with
    tFAWCountdown := fun rank =>
      match (cq.tFAWCountdown rank).map decrement with
      | 0 :: rest => rest
      | windows => windows }

/-! Taking commands out. -/

/-- The command of place `i` leaves its queue. -/
def take (rank slot i : Nat) (cq : CommandQueue) : CommandQueue :=
  setQueue rank slot ((cq.queues rank slot).eraseIdx i) cq

def activateBefore (q : List BusPacket) (i : Nat) : Bool :=
  match q[i - 1]? with
  | some before => decide (0 < i ∧ before.busPacketType = .ACTIVATE)
  | none => false

/-- The bank an access is counted for. -/
def countedBank (rank slot : Nat) (packet : BusPacket) : Nat × Nat :=
  match c.queuingStructure with
  | .PerRank => (packet.rank, packet.bank)
  | .PerRankPerBank => (rank, slot)

def setCounter (pos : Nat × Nat) (count : Nat) (cq : CommandQueue) : CommandQueue :=
  { cq with
    rowAccessCounters := Function.update cq.rowAccessCounters pos.1
      (Function.update (cq.rowAccessCounters pos.1) pos.2 count) }

/-- An access to the open row leaves its queue, and with it the activate before it,
which is not needed any more. -/
def takeWithActivate (rank slot i : Nat) (packet : BusPacket) (cq : CommandQueue) :
    CommandQueue :=
  if activateBefore (cq.queues rank slot) i then
    let pos := countedBank c rank slot packet
    setCounter pos (cq.rowAccessCounters pos.1 pos.2 + 1)
      (take rank slot (i - 1) (take rank slot i cq))
  else take rank slot i cq

/-- In a queue of a whole rank the bank is compared too. -/
def toOpenRow (rank bank : Nat) (packet : BusPacket) : Bool :=
  let sameRow := packet.row == (states rank bank).openRowAddress
  match c.queuingStructure with
  | .PerRank => sameRow && packet.bank == bank
  | .PerRankPerBank => sameRow

/-- The first bank of the rank that keeps it from being refreshed. -/
def notReadyToRefresh (rank : Nat) : Option Nat :=
  (List.range c.numBanks).find? fun bank =>
    decide ((states rank bank).currentBankState = .RowActive ∨
      now < (states rank bank).nextActivate)

def sendRefresh (cq : CommandQueue) : Option (BusPacket × CommandQueue) :=
  if (states cq.refreshRank 0).currentBankState ≠ .PowerDown then
    some (⟨.REFRESH, 0, 0, 0, cq.refreshRank, 0⟩,
      { cq with refreshRank := 2 ^ 32 - 1, refreshWaiting := false })
  else none

/-- The first command to the open row, if it is an access that can be issued. -/
def accessOpenRow (bank : Nat) (cq : CommandQueue) : Option (BusPacket × CommandQueue) :=
  let q := cq.queues cq.refreshRank (slot c bank)
  match q.findIdx? (toOpenRow c states cq.refreshRank bank) with
  | none => none
  | some j =>
      match q[j]? with
      | none => none
      | some packet =>
          if packet.busPacketType ≠ .ACTIVATE ∧ isIssuable c now states cq packet then
            some (packet, take cq.refreshRank (slot c bank) j cq)
          else none

def sendPrecharge (rank bank : Nat) (cq : CommandQueue) : BusPacket × CommandQueue :=
  (⟨.PRECHARGE, 0, 0, 0, rank, bank⟩, setCounter (rank, bank) 0 cq)

/-- Whether an access waits for the open row with no activate of it before. -/
def rowInUse (bank : Nat) (cq : CommandQueue) : Bool :=
  match (cq.queues cq.refreshRank (slot c bank)).find?
      (toOpenRow c states cq.refreshRank bank) with
  | none => false
  | some packet => packet.busPacketType != .ACTIVATE

def refreshClosePage (cq : CommandQueue) : Option (BusPacket × CommandQueue) :=
  match notReadyToRefresh c now states cq.refreshRank with
  | none => sendRefresh states cq
  | some bank =>
      if (states cq.refreshRank bank).currentBankState = .RowActive then
        accessOpenRow c now states bank cq
      else none

def refreshOpenPage (cq : CommandQueue) : Option (BusPacket × CommandQueue) :=
  match notReadyToRefresh c now states cq.refreshRank with
  | none => sendRefresh states cq
  | some bank =>
      let b := states cq.refreshRank bank
      if b.currentBankState = .RowActive then
        if rowInUse c states bank cq then accessOpenRow c now states bank cq
        else if b.nextPrecharge ≤ now then some (sendPrecharge cq.refreshRank bank cq)
        else none
      else none

def refresh (cq : CommandQueue) : Option (BusPacket × CommandQueue) :=
  if cq.refreshWaiting then
    match c.rowBufferPolicy with
    | .ClosePage => refreshClosePage c now states cq
    | .OpenPage => refreshOpenPage c now states cq
  else none

/-! Which command of a queue goes. -/

/-- An access paired with the activate before it waits for that. -/
def pairedBefore (q : List BusPacket) (i : Nat) (packet : BusPacket) : Bool :=
  match q[i - 1]? with
  | some before =>
      decide (0 < i ∧ before.busPacketType = .ACTIVATE ∧
        before.physicalAddress = packet.physicalAddress)
  | none => false

/-- An access to the same row that was queued earlier goes first. -/
def dependencyFound (q : List BusPacket) (i : Nat) (packet : BusPacket) : Bool :=
  (q.take i).any fun before =>
    before.busPacketType != .ACTIVATE && before.row == packet.row &&
      match c.queuingStructure with
      | .PerRank => before.bank == packet.bank
      | .PerRankPerBank => true

/-- The place of the first command that can be issued and that `blocked` lets go. -/
def firstIssuable (cq : CommandQueue) (blocked : List BusPacket → Nat → BusPacket → Bool)
    (q : List BusPacket) : Option (Nat × BusPacket) :=
  (q.zipIdx.find? fun e => isIssuable c now states cq e.1 && !blocked q e.2 e.1).map
    fun e => (e.2, e.1)

def fromQueue (rank slot : Nat) (cq : CommandQueue) : Option (BusPacket × CommandQueue) :=
  let q := cq.queues rank slot
  if rank = cq.refreshRank ∧ cq.refreshWaiting then none
  else
    match c.rowBufferPolicy, c.queuingStructure with
    | .ClosePage, .PerRank =>
        (firstIssuable c now states cq pairedBefore q).map fun e =>
          (e.2, take rank slot e.1 cq)
    | .ClosePage, .PerRankPerBank =>
        match q with
        | [] => none
        | packet :: _ =>
            if isIssuable c now states cq packet then some (packet, take rank slot 0 cq)
            else none
    | .OpenPage, _ =>
        (firstIssuable c now states cq (dependencyFound c) q).map fun e =>
          (e.2, takeWithActivate c rank slot e.1 e.2 cq)

/-! The round robins. -/

/-- The next rank and bank by the scheduling policy. -/
def advance (pos : Nat × Nat) : Nat × Nat :=
  match c.schedulingPolicy with
  | .RankThenBankRoundRobin =>
      if pos.1 + 1 = c.numRanks then
        (0, if pos.2 + 1 = c.numBanks then 0 else pos.2 + 1)
      else (pos.1 + 1, pos.2)
  | .BankThenRankRoundRobin =>
      if pos.2 + 1 = c.numBanks then
        (if pos.1 + 1 = c.numRanks then 0 else pos.1 + 1, 0)
      else (pos.1, pos.2 + 1)

/-- The next queue of the search for a command. -/
def nextQueue (pos : Nat × Nat) : Nat × Nat :=
  match c.queuingStructure with
  | .PerRank => (if pos.1 + 1 = c.numRanks then 0 else pos.1 + 1, pos.2)
  | .PerRankPerBank => advance c pos

/-- A `do … while` over positions: `visit` ends it with a result, and `stop` after a
round without one. -/
def search {β : Type} (next : Nat × Nat → Nat × Nat) (stop : Nat × Nat → Bool)
    (visit : Nat × Nat → Option β) : Nat → Nat × Nat → Option β × (Nat × Nat)
  | 0, pos => (none, pos)
  | fuel + 1, pos =>
      match visit pos with
      | some found => (some found, pos)
      | none =>
          if stop (next pos) then (none, next pos) else search next stop visit fuel (next pos)

def searchCommand (cq : CommandQueue) : Option (BusPacket × CommandQueue) × (Nat × Nat) :=
  let start := (cq.nextRank, cq.nextBank)
  search (nextQueue c) (fun pos => pos == start)
    (fun pos => fromQueue c now states pos.1 (slot c pos.2) cq)
    (c.numRanks * c.numBanks) start

/-- A precharge of an open bank that no command waits for, or that has served its row
often enough. -/
def closeBank (cq : CommandQueue) (pos : Nat × Nat) : Option (BusPacket × CommandQueue) :=
  let b := states pos.1 pos.2
  if b.currentBankState = .RowActive then
    let found := (cq.queues pos.1 (slot c pos.2)).any (toOpenRow c states pos.1 pos.2)
    if (found = false ∨ cq.rowAccessCounters pos.1 pos.2 = c.totalRowAccesses) ∧
        b.nextPrecharge ≤ now then
      some (sendPrecharge pos.1 pos.2 cq)
    else none
  else none

/-- Where the search for a bank to close ends. With a queue per bank the start of the
search is kept in two `bool`s. -/
def startPRE (cq : CommandQueue) : Nat × Nat :=
  match c.queuingStructure with
  | .PerRank => (cq.nextRankPRE, cq.nextBankPRE)
  | .PerRankPerBank => (min cq.nextRankPRE 1, min cq.nextBankPRE 1)

def searchPrecharge (cq : CommandQueue) :
    Option (BusPacket × CommandQueue) × (Nat × Nat) :=
  search (advance c) (fun pos => pos == startPRE c cq) (closeBank c now states cq)
    (c.numRanks * c.numBanks) (cq.nextRankPRE, cq.nextBankPRE)

/-- With posted accesses the round robin waits for the access of an activate. -/
def sent (packet : BusPacket) (cq : CommandQueue) : CommandQueue :=
  let cq :=
    if 0 < c.AL ∧ cq.sendAct then { cq with sendAct := false }
    else
      let pos := advance c (cq.nextRank, cq.nextBank)
      { cq with sendAct := true, nextRank := pos.1, nextBank := pos.2 }
  if packet.busPacketType = .ACTIVATE then
    { cq with
      tFAWCountdown := Function.update cq.tFAWCountdown packet.rank
        (cq.tFAWCountdown packet.rank ++ [c.tFAW]) }
  else cq

/-- The command to issue in this cycle, if there is one. -/
def pop (cq : CommandQueue) : Option BusPacket × CommandQueue :=
  let cq := countdown cq
  match refresh c now states cq with
  | some (packet, cq) => (some packet, sent c packet cq)
  | none =>
      match searchCommand c now states cq with
      | (some (packet, cq), pos) =>
          (some packet, sent c packet { cq with nextRank := pos.1, nextBank := pos.2 })
      | (none, pos) =>
          let cq := { cq with nextRank := pos.1, nextBank := pos.2 }
          match c.rowBufferPolicy with
          | .ClosePage => (none, cq)
          | .OpenPage =>
              match searchPrecharge c now states cq with
              | (some (packet, cq), pos) =>
                  (some packet,
                    sent c packet { cq with nextRankPRE := pos.1, nextBankPRE := pos.2 })
              | (none, pos) => (none, { cq with nextRankPRE := pos.1, nextBankPRE := pos.2 })

end CommandQueue

end FeS2.DRAMSim
