import FeS2.Decoder.Shifts

/-!
`shld` and `shrd`: a shift, and a mask that puts the bits of the source register beside it. The
count is cut to the bits of the operand; for `cl` the control word of the mask is computed, and the
old flags are selected where the count is zero.
-/

namespace FeS2.Decoder

inductive DoubleOperand
  | reg (r : Gpr)
  | mem (a : MemOperand)
  deriving DecidableEq

structure DoubleShift where
  isLeft : Bool
  rd : DoubleOperand
  ra : Gpr
  size : Size
  word : size ≠ .w8
  count : ShiftBy

namespace DoubleShift
variable (c : DecodeContext) (i : DoubleShift)

/-! The uops -/

def rdreg : Reg :=
  match i.rd with
  | .reg r => .gpr r
  | .mem _ => .temp4

/-- The immediate, cut to the bits that number those of the operand. -/
def imm (b : BitVec 8) : Nat := b.toNat % i.size.bits

def load : List TransOp :=
  match i.rd with
  | .reg _ => []
  | .mem a => a.operandLoad c i.size .ld .temp4

def store : List TransOp :=
  match i.rd with
  | .reg _ => []
  | .mem a => a.resultStore c i.size .temp4

/-- `[ms, mc, ds]` of an immediate count. -/
def control (k : Nat) : MaskControlInfo :=
  if i.isLeft then
    { ms := 0, mc := BitVec.ofNat 6 k, ds := BitVec.ofNat 6 (i.size.bits - k) }
  else { ms := BitVec.ofNat 6 k, mc := BitVec.ofNat 6 k, ds := BitVec.ofNat 6 k }

def cutCount : TransOp :=
  { opcode := .and, rd := .temp0, ra := .gpr .rcx, rb := .imm, rc := .zero, size := .w64,
    rbimm := bitmask (3 + i.size.sizeshift) }

def moveWidth : TransOp :=
  { opcode := .mov, rd := .temp2, ra := .zero, rb := .imm, rc := .zero, size := .w8,
    rbimm := BitVec.ofNat 64 i.size.bits }

def takeCount : TransOp :=
  { opcode := .sub, rd := .temp2, ra := .temp2, rb := .temp0, rc := .zero, size := .w8 }

/-- The word `[0, count, turn]` is moved up by a field. -/
def moveFields : TransOp :=
  { opcode := .shift .shl false, rd := .temp1, ra := .temp1, rb := .imm, rc := .zero,
    size := .w64, rbimm := 6 }

def putField (rd ra rb : Reg) (place : BitVec 6) : TransOp :=
  { opcode := .maskb, rd := rd, ra := ra, rb := rb, rc := .imm, size := .w64,
    rcimm := MaskControlInfo.data { ms := place, mc := 6, ds := place } }

/-- The control word for `cl` is built in `temp1`. -/
def buildControl : List TransOp :=
  if i.isLeft then
    [i.cutCount, i.moveWidth, takeCount, putField .temp1 .temp0 .temp2 58, moveFields]
  else
    [i.cutCount, putField .temp1 .temp0 .temp0 58, putField .temp1 .temp1 .temp0 52]

def collectFlags : TransOp := { collcc .temp2 with nouserflags := true }

def setflags : SetFlags :=
  match i.count with
  | .cl => { zf := true, cf := true, of := false }
  | .imm b => { zf := decide (i.imm b = 1), cf := true, of := false }

def shift : TransOp :=
  { opcode := .shift (if i.isLeft then .shl else .shr) false, rd := i.rdreg, ra := i.rdreg,
    rb := match i.count with
      | .cl => .temp0
      | .imm _ => .imm
    rc := .zero, size := i.size
    rbimm := match i.count with
      | .cl => 0
      | .imm b => BitVec.ofNat 64 (i.imm b)
    setflags := i.setflags
    nouserflags := decide (i.count = .cl) }

/-- `OP_mask` is `OP_maskb` but for its name. -/
def mask : TransOp :=
  { opcode := .maskb, rd := i.rdreg, ra := i.rdreg, rb := .gpr i.ra
    rc := match i.count with
      | .cl => .temp1
      | .imm _ => .imm
    size := i.size
    rcimm := match i.count with
      | .cl => 0
      | .imm b => (i.control (i.imm b)).data
    setflags := i.setflags
    nouserflags := decide (i.count = .cl) }

/-- The old flags where the count is zero. -/
def selectFlags : List TransOp :=
  [{ opcode := .and, rd := .temp0, ra := .temp0, rb := .temp0, rc := .zero, size := .w8,
     setflags := .defaultAlu, nouserflags := true },
   { opcode := .sel, rd := .temp0, ra := i.rdreg, rb := .temp2, rc := .temp0, size := .w64,
     setflags := { zf := true, cf := true, of := false }, cond := .e }]

/-- No action and no flags update. -/
def noAction : TransOp :=
  { opcode := .nop, rd := .temp0, ra := .zero, rb := .zero, rc := .zero, size := .w8 }

def uops : List TransOp :=
  match i.count with
  | .imm b =>
      if i.imm b = 0 then i.load c ++ [noAction]
      else i.load c ++ i.shift :: i.mask :: i.store c
  | .cl =>
      i.load c ++ (i.buildControl ++ collectFlags :: i.shift :: i.mask ::
        (i.store c ++ i.selectFlags))

/-! What x86 leaves -/

/-- The operand shifted, with the bits of the source beside it. -/
def shiftedIn {n : Nat} (isLeft : Bool) (x a : BitVec n) (k : Nat) : BitVec n :=
  if isLeft then (x <<< k) ||| (a >>> (n - k)) else (x >>> k) ||| (a <<< (n - k))

/-- `undefined` where the count is above the width. -/
def x86 {n : Nat} (isLeft : Bool) (undefined : BitVec n × Flags) (before : Flags) (x a : BitVec n)
    (count : Nat) : BitVec n × Flags :=
  let k := x86Count n count
  if k = 0 then (x, before)
  else if n < k then undefined
  else
    let r := shiftedIn isLeft x a k
    (r, { x86Genflags r with cf := if isLeft then x.getLsbD (n - k) else x.getLsbD (k - 1) })

def destination : RegMem :=
  match i.rd with
  | .reg r => .reg (.low r i.size)
  | .mem a => .mem a i.size

section
variable (left : Nat → Leftover) (m : Machine)

def countOf : Nat :=
  match i.count with
  | .imm b => b.toNat
  | .cl => (m.data (.gpr .rcx)).toNat % 256

def acts : Bool :=
  match i.count with
  | .imm b => decide (i.imm b ≠ 0)
  | .cl => true

/-- What is behind the store. -/
def afterStore : List TransOp :=
  match i.count with
  | .imm _ => []
  | .cl => i.selectFlags

/-- What is behind the load. -/
def afterLoad : List TransOp :=
  match i.count with
  | .imm b => if i.imm b = 0 then [noAction] else i.shift :: i.mask :: i.store c
  | .cl => i.buildControl ++ collectFlags :: i.shift :: i.mask :: (i.store c ++ i.selectFlags)

/-- The uops from the load of an operand in memory on, and from the store on. -/
def loadUops : List TransOp :=
  match i.rd with
  | .reg _ => []
  | .mem a => a.load c i.size .ld .temp4 :: i.afterLoad c

def storeUops : List TransOp :=
  match i.rd with
  | .reg _ => []
  | .mem a => if i.acts then a.storeOp c i.size .temp4 :: i.afterStore else i.loadUops c

def operand : BitVec i.destination.size.bits := i.destination.value c left (i.loadUops c) m

def source : BitVec i.destination.size.bits := (m.data (.gpr i.ra)).setWidth _

/-- The op leaves the result and the flags of x86. -/
def Right : Prop :=
  ∃ m' undefined, runUops left c.rip (i.uops c) m = some (m', c.rip) ∧
    i.destination.Holds c left (i.storeUops c) m m'
      (x86 i.isLeft undefined m.userFlags (i.operand c left m) (i.source m) (i.countOf m)).1 ∧
    m'.userFlags.SameButOf
      (x86 i.isLeft undefined m.userFlags (i.operand c left m) (i.source m) (i.countOf m)).2

end

end DoubleShift
end FeS2.Decoder
