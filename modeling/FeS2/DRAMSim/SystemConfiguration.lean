import Mathlib.Algebra.Group.Nat.Defs
import Mathlib.Data.Nat.Log

/-!
The configuration of the DRAM simulator, the delays it derives from the device
parameters, and the packets and transactions its parts exchange. Data blocks are
left out, since the build defines `NO_STORAGE`.
-/

namespace FeS2.DRAMSim

inductive RowBufferPolicy
  | OpenPage
  | ClosePage
  deriving DecidableEq, Repr

inductive QueuingStructure
  | PerRank
  | PerRankPerBank
  deriving DecidableEq, Repr

inductive SchedulingPolicy
  | RankThenBankRoundRobin
  | BankThenRankRoundRobin
  deriving DecidableEq, Repr

inductive AddressMappingScheme
  | Scheme1
  | Scheme2
  | Scheme3
  | Scheme4
  | Scheme5
  | Scheme6
  deriving DecidableEq, Repr

structure SystemConfiguration where
  numBanks : Nat
  numRanks : Nat
  numRows : Nat
  numCols : Nat
  cacheLineSize : Nat
  /-- `REFRESH_PERIOD/tCK`, in cycles. -/
  refreshPeriod : Nat
  CL : Nat
  AL : Nat
  BL : Nat
  tRAS : Nat
  tRCD : Nat
  tRRD : Nat
  tRC : Nat
  tRP : Nat
  tCCD : Nat
  tRTP : Nat
  tWTR : Nat
  tWR : Nat
  tRTRS : Nat
  tRFC : Nat
  tFAW : Nat
  tCKE : Nat
  tXP : Nat
  tCMD : Nat
  transQueueDepth : Nat
  cmdQueueDepth : Nat
  totalRowAccesses : Nat
  useLowPower : Bool
  rowBufferPolicy : RowBufferPolicy
  schedulingPolicy : SchedulingPolicy
  addressMappingScheme : AddressMappingScheme
  queuingStructure : QueuingStructure

namespace SystemConfiguration
variable (c : SystemConfiguration)

def RL : Nat := c.CL + c.AL
def WL : Nat := c.RL - 1
def readToPreDelay : Nat := c.AL + c.BL / 2 + max c.tRTP 2 - 2
def writeToPreDelay : Nat := c.WL + c.BL / 2 + c.tWR
def readToWriteDelay : Nat := c.RL + c.BL / 2 + c.tRTRS - c.WL
def readAutopreDelay : Nat := c.AL + c.tRTP + c.tRP
def writeAutopreDelay : Nat := c.WL + c.BL / 2 + c.tWR + c.tRP
/-- Between the banks of one rank. -/
def writeToReadDelayB : Nat := c.WL + c.BL / 2 + c.tWTR
/-- Between ranks. -/
def writeToReadDelayR : Nat := c.WL + c.BL / 2 + c.tRTRS - c.RL
/-- Between column accesses of one kind in one rank. -/
def burstDelay : Nat := max c.tCCD (c.BL / 2)

/-- The device of `ini/DDR2_micron_16M_8b_x8_sg3E.ini` in the memory of `system.ini`. -/
def DDR2_micron_16M_8b_x8_sg3E : SystemConfiguration where
  numBanks := 8
  numRanks := 2
  numRows := 16384
  numCols := 1024
  cacheLineSize := 8
  refreshPeriod := 2600
  CL := 4
  AL := 0
  BL := 4
  tRAS := 14
  tRCD := 4
  tRRD := 3
  tRC := 18
  tRP := 4
  tCCD := 2
  tRTP := 3
  tWTR := 3
  tWR := 5
  tRTRS := 1
  tRFC := 43
  tFAW := 13
  tCKE := 3
  tXP := 2
  tCMD := 1
  transQueueDepth := 8
  cmdQueueDepth := 8
  totalRowAccesses := 4
  useLowPower := true
  rowBufferPolicy := .OpenPage
  schedulingPolicy := .RankThenBankRoundRobin
  addressMappingScheme := .Scheme2
  queuingStructure := .PerRank

end SystemConfiguration

/-- `value--` on a 32-bit `uint`. -/
def decrement (value : Nat) : Nat := if value = 0 then 2 ^ 32 - 1 else value - 1

theorem decrement_of_pos {value : Nat} (h : 0 < value) : decrement value = value - 1 :=
  if_neg (Nat.ne_of_gt h)

inductive BusPacketType
  | READ
  | READ_P
  | WRITE
  | WRITE_P
  | ACTIVATE
  | PRECHARGE
  | REFRESH
  | DATA
  deriving DecidableEq, Repr

structure BusPacket where
  busPacketType : BusPacketType
  physicalAddress : Nat
  column : Nat
  row : Nat
  rank : Nat
  bank : Nat
  deriving DecidableEq, Repr

inductive TransactionType
  | DATA_READ
  | DATA_WRITE
  | RETURN_DATA
  deriving DecidableEq, Repr

structure Transaction where
  transactionType : TransactionType
  address : Nat
  deriving DecidableEq, Repr

/-- The error exits of the simulator's loop, and an index past the vectors of ranks
and banks, which the source leaves undefined. -/
inductive Fault
  | readNotAllowed
  | readPNotAllowed
  | writeNotAllowed
  | writePNotAllowed
  | actNotAllowed
  | preNotAllowed
  | refNotAllowed
  | powerDownNotAllIdle
  | powerUpNotPoweredDown
  | powerUpBeforeAllowed
  | nonDataFromRank
  | dataBusCollision
  | commandBusCollision
  | poppedUnexpectedCommand
  | unknownTransactionType
  | commandQueueOverflow
  | indexOutOfRange
  deriving DecidableEq, Repr

end FeS2.DRAMSim
