import FeS2.Decoder.AluOperands

/-!
The uops of the shifts and rotates. The flags of an immediate count are known when it is decoded;
for `cl` the flags are collected and handed to the shift, which passes them on if it does nothing.
-/

namespace FeS2.Decoder

/-- The flags of the three groups in one register. -/
def collcc (rd : Reg) : TransOp :=
  { opcode := .collcc, rd := rd, ra := .zf, rb := .cf, rc := .of, size := .w64,
    setflags := .defaultAlu }

/-- The count that is implied is the immediate one. -/
inductive ShiftBy
  | imm (imm : BitVec 8)
  | cl
  deriving DecidableEq

structure ShiftInsn where
  op : ShiftOp
  rd : RegMem
  count : ShiftBy

namespace ShiftInsn
variable (i : ShiftInsn)

/-- `SIMPLE_SHIFT_LIMIT`. -/
def simpleShiftLimit : Nat := 8

/-- The immediate, cut to five bits, or six for whole words. -/
def immCount (size : Size) (imm : BitVec 8) : Nat :=
  if size = .w64 then imm.toNat % 64 else imm.toNat % 32

/-- The name of `cl` is cut like an immediate, and still one of `rcx`. -/
def ra : AluOperand :=
  match i.count with
  | .imm imm => .imm (BitVec.ofNat 64 (immCount i.rd.size imm))
  | .cl => .reg (.low .rcx .w8)

def setflags : SetFlags :=
  match i.count with
  | .cl => { zf := !i.op.isRotate, cf := true, of := false }
  | .imm imm =>
      let count := immCount i.rd.size imm
      if count = 0 then .none
      else if count = 1 then
        if i.op.isRotate then { zf := false, cf := true, of := true } else .defaultAlu
      else { zf := !i.op.isRotate, cf := true, of := false }

def simple : Bool :=
  match i.count with
  | .imm imm => !i.op.isRotate && decide (immCount i.rd.size imm ≤ simpleShiftLimit)
  | .cl => false

def rcreg : Reg :=
  match i.count with
  | .cl => .temp5
  | .imm _ => if i.op = .rotcl ∨ i.op = .rotcr then .cf else .zero

/-- They are not the flags of the user. -/
def collect : List TransOp :=
  match i.count with
  | .cl => [{ collcc .temp5 with nouserflags := true }]
  | .imm _ => []

def alu (c : DecodeContext) : AluUops :=
  aluRegOrMem c (.shift i.op i.simple) i.rd i.ra i.setflags i.rcreg false false none

def parts (c : DecodeContext) : AluUops :=
  { i.alu c with before := i.collect ++ (i.alu c).before }

end ShiftInsn
end FeS2.Decoder
