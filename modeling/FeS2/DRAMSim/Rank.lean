import Mathlib.Logic.Function.Basic
import FeS2.DRAMSim.SystemConfiguration

/-!
A rank of DRAM devices as the simulator checks it: every command must be allowed by
the state of its bank, and read data leave after the read latency. The banks are a
function of their number, of which the banks below `numBanks` exist.
-/

namespace FeS2.DRAMSim

inductive CurrentBankState
  | Idle
  | RowActive
  | Precharging
  | Refreshing
  | PowerDown
  deriving DecidableEq, Repr

structure BankState where
  currentBankState : CurrentBankState := .Idle
  openRowAddress : Nat := 0
  nextRead : Nat := 0
  nextWrite : Nat := 0
  nextActivate : Nat := 0
  nextPrecharge : Nat := 0
  nextPowerUp : Nat := 0
  lastCommand : BusPacketType := .READ
  stateChangeCountdown : Nat := 0
  deriving DecidableEq, Repr

@[ext]
structure Rank where
  bankStates : Nat → BankState := fun _ => {}
  isPowerDown : Bool := false
  refreshWaiting : Bool := false
  /-- The packets on their way to the data bus, each with its countdown. -/
  readReturn : List (BusPacket × Nat) := []
  outgoingDataPacket : Option BusPacket := none
  dataCyclesLeft : Nat := 0

namespace Rank
variable (c : SystemConfiguration) (now : Nat)

/-- What a column access does to the banks of its rank once its own bank is done. -/
def afterColumn (toRead toWrite : Nat) (b : BankState) : BankState :=
  { b with
    nextRead := max b.nextRead (now + toRead)
    nextWrite := max b.nextWrite (now + toWrite) }

def BankRefuses (next row : Nat) (b : BankState) : Prop :=
  b.currentBankState ≠ .RowActive ∨ now < next ∨ row ≠ b.openRowAddress

instance (next row : Nat) (b : BankState) : Decidable (BankRefuses now next row b) :=
  inferInstanceAs (Decidable (_ ∨ _ ∨ _))

/-- The data of a read are put where they wait for the read latency. -/
def returnLater (packet : BusPacket) (r : Rank) : Rank :=
  { r with readReturn := r.readReturn ++ [({ packet with busPacketType := .DATA }, c.RL)] }

def receiveRead (packet : BusPacket) (r : Rank) : Except Fault Rank :=
  let b := r.bankStates packet.bank
  if BankRefuses now b.nextRead packet.row b then .error .readNotAllowed
  else
    let own : BankState :=
      { b with nextPrecharge := max b.nextPrecharge (now + c.readToPreDelay) }
    let states := Function.update r.bankStates packet.bank own
    .ok (returnLater c packet { r with
      bankStates := fun i => afterColumn now c.burstDelay c.readToWriteDelay (states i) })

def receiveReadP (packet : BusPacket) (r : Rank) : Except Fault Rank :=
  let b := r.bankStates packet.bank
  if BankRefuses now b.nextRead packet.row b then .error .readPNotAllowed
  else
    let own : BankState :=
      { b with
        currentBankState := .Idle
        nextActivate := max b.nextActivate (now + c.readAutopreDelay) }
    let states := Function.update r.bankStates packet.bank own
    .ok (returnLater c packet { r with
      bankStates := fun i => afterColumn now c.burstDelay c.readToWriteDelay (states i) })

def receiveWrite (packet : BusPacket) (r : Rank) : Except Fault Rank :=
  let b := r.bankStates packet.bank
  if BankRefuses now b.nextWrite packet.row b then .error .writeNotAllowed
  else
    let own : BankState :=
      { b with nextPrecharge := max b.nextPrecharge (now + c.writeToPreDelay) }
    let states := Function.update r.bankStates packet.bank own
    .ok { r with
      bankStates := fun i => afterColumn now c.writeToReadDelayB c.burstDelay (states i) }

/-- The loop over the banks only ever touches the bank of the packet. -/
def receiveWriteP (packet : BusPacket) (r : Rank) : Except Fault Rank :=
  let b := r.bankStates packet.bank
  if BankRefuses now b.nextWrite packet.row b then .error .writePNotAllowed
  else
    let own : BankState :=
      { b with
        currentBankState := .Idle
        nextActivate := max b.nextActivate (now + c.writeToPreDelay) }
    .ok { r with
      bankStates := Function.update r.bankStates packet.bank
        (afterColumn now c.writeToReadDelayB c.burstDelay own) }

def receiveActivate (packet : BusPacket) (r : Rank) : Except Fault Rank :=
  let b := r.bankStates packet.bank
  if b.currentBankState ≠ .Idle ∨ now < b.nextActivate then .error .actNotAllowed
  else
    let own : BankState :=
      { b with
        currentBankState := .RowActive
        nextActivate := now + c.tRC
        openRowAddress := packet.row
        nextWrite := now + (c.tRCD - c.AL)
        nextRead := now + (c.tRCD - c.AL)
        nextPrecharge := now + c.tRAS }
    .ok { r with
      bankStates := fun i =>
        if i ≠ packet.bank then
          { r.bankStates i with
            nextActivate := max (r.bankStates i).nextActivate (now + c.tRRD) }
        else own }

def receivePrecharge (packet : BusPacket) (r : Rank) : Except Fault Rank :=
  let b := r.bankStates packet.bank
  if b.currentBankState ≠ .RowActive ∨ now < b.nextPrecharge then .error .preNotAllowed
  else
    .ok { r with
      bankStates := Function.update r.bankStates packet.bank
        { b with
          currentBankState := .Idle
          nextActivate := max b.nextActivate (now + c.tRP) } }

def receiveRefresh (r : Rank) : Except Fault Rank :=
  if ∃ i < c.numBanks, (r.bankStates i).currentBankState ≠ .Idle then .error .refNotAllowed
  else
    .ok { r with
      refreshWaiting := false
      bankStates := fun i => { r.bankStates i with nextActivate := now + c.tRFC } }

def receiveFromBus (packet : BusPacket) (r : Rank) : Except Fault Rank :=
  match packet.busPacketType with
  | .READ => receiveRead c now packet r
  | .READ_P => receiveReadP c now packet r
  | .WRITE => receiveWrite c now packet r
  | .WRITE_P => receiveWriteP c now packet r
  | .ACTIVATE => receiveActivate c now packet r
  | .PRECHARGE => receivePrecharge c now packet r
  | .REFRESH => receiveRefresh c now r
  | .DATA => .ok r

/-- The packet that has been on the data bus for its last cycle goes to the memory
controller. -/
def finishData (r : Rank) : Option BusPacket × Rank :=
  match r.outgoingDataPacket with
  | none => (none, r)
  | some packet =>
      let r := { r with dataCyclesLeft := decrement r.dataCyclesLeft }
      if r.dataCyclesLeft = 0 then (some packet, { r with outgoingDataPacket := none })
      else (none, r)

/-- Read data whose latency is over go on the bus, whatever is on it. -/
def startData (r : Rank) : Rank :=
  match r.readReturn.map fun e => (e.1, decrement e.2) with
  | (packet, 0) :: rest =>
      { r with
        readReturn := rest
        outgoingDataPacket := some packet
        dataCyclesLeft := c.BL / 2 }
  | waiting => { r with readReturn := waiting }

def update (r : Rank) : Option BusPacket × Rank :=
  ((finishData r).1, startData c (finishData r).2)

def powerDown (r : Rank) : Except Fault Rank :=
  if ∃ i < c.numBanks, (r.bankStates i).currentBankState ≠ .Idle then
    .error .powerDownNotAllIdle
  else
    .ok { r with
      isPowerDown := true
      bankStates := fun i =>
        { r.bankStates i with
          nextPowerUp := now + c.tCKE
          currentBankState := .PowerDown } }

def powerUp (r : Rank) : Except Fault Rank :=
  if r.isPowerDown = false then .error .powerUpNotPoweredDown
  else if ∃ i < c.numBanks, now < (r.bankStates i).nextPowerUp then
    .error .powerUpBeforeAllowed
  else
    .ok { r with
      isPowerDown := false
      bankStates := fun i =>
        { r.bankStates i with
          nextActivate := now + c.tXP
          currentBankState := .Idle } }

end Rank

end FeS2.DRAMSim
