import FeS2.Pyrite.LoadStoreQueue
import FeS2.Pyrite.RegFile
import FeS2.Pyrite.ByteAlgebra

/-!
Loads and stores that the decoder cracks in two. A store has its high part first.
Uops run in program order over the registers that renaming gives them; memory is
what the older uops leave of it. Simics translates addresses by pages, so by whole
blocks: `frame` is the map of blocks. Accesses of microcode to its own context are
left out, as are the fields of a transop that no part of an access looks at.
-/

namespace FeS2.Pyrite
open DoubleWord LoadStoreWindow

inductive MemOpcode
  | OP_add
  | OP_ld
  | OP_ldx
  | OP_st
  deriving DecidableEq, Repr

def MemOpcode.isload (opcode : MemOpcode) : Bool := opcode = .OP_ld || opcode = .OP_ldx
def MemOpcode.isstore (opcode : MemOpcode) : Bool := opcode = .OP_st

/-- A transop of an access; `size` is the logarithm of its bytes. -/
structure MemTransOp where
  opcode : MemOpcode
  size : Fin 4
  cond : LdstAlign := .LDST_ALIGN_NORMAL
  rd : LogicalName := REG_zero
  ra : LogicalName := REG_zero
  rb : LogicalName := REG_zero
  rc : LogicalName := REG_zero
  rbimm : BitVec 64 := 0
  rcimm : BitVec 64 := 0
  deriving DecidableEq

abbrev Registers := LogicalName → BitVec 64

namespace MemTransOp

def numBytes (op : MemTransOp) : Nat := 1 <<< op.size.val

def size64 : Fin 4 := 3

/-! The decoder -/

def splitUnaligned (op : MemTransOp) : List MemTransOp :=
  let ag := { op with
    opcode := .OP_add, size := size64, cond := .LDST_ALIGN_NORMAL, rd := REG_temp9, rc := REG_zero }
  let lo := { op with ra := REG_temp9, rb := REG_imm, rbimm := 0, cond := .LDST_ALIGN_LO }
  let hi := { op with ra := REG_temp9, rb := REG_imm, rbimm := 0, cond := .LDST_ALIGN_HI }
  if op.opcode.isload then
    -- the low part always loads eight bytes
    [ag, { lo with rd := REG_temp4, size := size64 }, { hi with rb := REG_temp4 }]
  else
    -- a fault on the high page comes before the low part overwrites memory
    [ag, { lo with cond := .LDST_ALIGN_HI }, { hi with cond := .LDST_ALIGN_LO }]

/-- `TraceDecoder::put`. -/
def put (splitUnalignedMemops : Bool) (op : MemTransOp) : List MemTransOp :=
  if splitUnalignedMemops && ((op.opcode.isload && op.ra ≠ REG_ctx) || op.opcode.isstore) then
    op.splitUnaligned
  else [op]

/-! Address generation, execution and completion -/

def readRb (op : MemTransOp) (regs : Registers) : BitVec 64 :=
  if op.rb = REG_imm then op.rbimm else regs op.rb

def readRc (op : MemTransOp) (regs : Registers) : BitVec 64 :=
  if op.rc = REG_imm then op.rcimm else regs op.rc

def address (op : MemTransOp) (regs : Registers) : BitVec 64 :=
  match op.cond with
  | .LDST_ALIGN_NORMAL => regs op.ra + op.readRb regs
  | .LDST_ALIGN_LO => regs op.ra
  | .LDST_ALIGN_HI => regs op.ra + BitVec.ofNat 64 blockBytes

end MemTransOp

def translateAddress (frame : Nat → Option Nat) (addr : BitVec 64) : Option Nat :=
  (frame (addr.toNat / blockBytes)).map fun f => f * blockBytes + addr.toNat % blockBytes

def signext64 (x : BitVec 64) (i : Nat) : BitVec 64 := (x <<< (64 - i)).sshiftRight (64 - i)

/-- The registers, and the operands of the stores, oldest first. -/
structure AccessState where
  regs : Registers
  stores : List DoubleWord := []

namespace MemTransOp
variable (frame : Nat → Option Nat) (memory : Nat → BitVec 8)

/-- `none` without a translation, or for an access that has to be cracked. -/
def addressGenerate (op : MemTransOp) (regs : Registers) : Option DoubleWord :=
  (translateAddress frame (op.address regs)).bind fun phys => operandOf op.cond phys op.numBytes

/-- The operand of a store with its value. -/
def executeStore (op : MemTransOp) (regs : Registers) : Option DoubleWord :=
  (op.addressGenerate frame regs).bind fun dw =>
    if dw.size = 0 then some dw
    else
      dw.setValue (if op.cond = .LDST_ALIGN_HI then op.readRc regs >>> (dw.size * 8)
        else op.readRc regs)

/-- `rddata` of a load. -/
def loadResult (op : MemTransOp) (rb : BitVec 64) (dw : DoubleWord) : BitVec 64 :=
  if op.opcode = .OP_ldx then signext64 dw.value (8 * op.numBytes)
  else if op.cond = .LDST_ALIGN_HI then rb ||| (dw.value <<< ((op.numBytes - dw.size) * 8))
  else dw.value

def completeLoad (op : MemTransOp) (regs : Registers) : Option (BitVec 64) :=
  (op.addressGenerate frame regs).bind fun dw =>
    if dw.size = 0 then some (op.readRb regs)
    else
      (dw.setValue (readFromSimicsMemory memory dw.address dw.size)).map
        (op.loadResult (op.readRb regs))

end MemTransOp

namespace AccessState

def setReg (rd : LogicalName) (s : AccessState) (value : BitVec 64) : AccessState :=
  if rd = REG_zero then s else { s with regs := Function.update s.regs rd value }

def execute (frame : Nat → Option Nat) (memory : Nat → BitVec 8) (s : AccessState)
    (op : MemTransOp) : Option AccessState :=
  match op.opcode with
  | .OP_add => some (s.setReg op.rd (s.regs op.ra + op.readRb s.regs))
  | .OP_ld | .OP_ldx => (op.completeLoad frame memory s.regs).map (s.setReg op.rd)
  | .OP_st => (op.executeStore frame s.regs).map fun dw => { s with stores := s.stores ++ [dw] }

def executeAll (frame : Nat → Option Nat) (memory : Nat → BitVec 8) (ops : List MemTransOp)
    (s : AccessState) : Option AccessState :=
  ops.foldlM (execute frame memory) s

/-- What the stores write at `a`, the younger ones on top. -/
def written (s : AccessState) (a : Nat) : Option (BitVec 8) :=
  s.stores.foldl (fun old dw => (dw.byteAt a).or old) none

end AccessState

/-! What an access of some bytes at an address is to do, wherever the blocks end -/

/-- Byte `i` from the address on. -/
def byteFrom (frame : Nat → Option Nat) (memory : Nat → BitVec 8) (addr : BitVec 64) (i : Nat) :
    BitVec 8 :=
  ((translateAddress frame (addr + BitVec.ofNat 64 i)).map memory).getD 0

def storeBytes (frame : Nat → Option Nat) (addr : BitVec 64) (numBytes : Nat) (value : BitVec 64)
    (a : Nat) : Option (BitVec 8) :=
  (List.range numBytes).findSome? fun i =>
    if translateAddress frame (addr + BitVec.ofNat 64 i) = some a then some (byte value i) else none

def loadValue (frame : Nat → Option Nat) (memory : Nat → BitVec 8) (opcode : MemOpcode)
    (addr : BitVec 64) (numBytes : Nat) : BitVec 64 :=
  let value := ofBytes fun i => if i < numBytes then byteFrom frame memory addr i else 0
  if opcode = .OP_ldx then signext64 value (8 * numBytes) else value

/-- The bytes of an access that lie in the next block. -/
def overflowOf (addr : BitVec 64) (numBytes : Nat) : Nat :=
  addr.toNat % blockBytes + numBytes - blockBytes

end FeS2.Pyrite
