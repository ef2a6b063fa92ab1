import FeS2.Decoder.EffectiveAddress
import FeS2.Decoder.Insn

/-!
How many uops an x86 op becomes. The buffer has room for sixteen; it takes a uop of each kind as
one, but three for a load or a store that is cracked.
-/

namespace FeS2.Decoder

/-- What the buffer tells apart in a uop: loads and stores are cracked, but not the loads from the
context. -/
inductive Uop
  | op
  | ld
  | ldContext
  | st
  deriving DecidableEq

def TransOp.uop (t : TransOp) : Uop :=
  match t.opcode with
  | .ld | .ldx => if t.ra = .ctx then .ldContext else .ld
  | .st => .st
  | _ => .op

/-- `segmentOffset` tells where the context has the base of a segment. -/
structure TraceDecoder where
  use64 : Bool
  dirflag : Bool
  splitUnalignedMemops : Bool
  lastFlagsUpdateWasAtomic : Bool
  segmentOffset : Prefix → W64
  rip : W64

def maxTransopsPerUserInsn : Nat := 16

namespace TraceDecoder
variable (d : TraceDecoder)

/-! The buffer -/

def emitop (transbuf : List Uop) (transop : Uop) : Option (List Uop) :=
  if transbuf.length < maxTransopsPerUserInsn then some (transbuf ++ [transop]) else none

/-- `split_unaligned` makes an address uop and the two halves. -/
def split (transop : Uop) : List Uop :=
  if d.splitUnalignedMemops && (transop = .ld || transop = .st) then [.op, transop, transop]
  else [transop]

def put (transbuf : List Uop) (transop : Uop) : Option (List Uop) :=
  (d.split transop).foldlM emitop transbuf

end TraceDecoder

namespace OpCount

def uops : OpCount → List Uop
  | .none => []
  | .one => [.op]
  | .two => [.op, .op]

end OpCount

namespace InsnHead
variable (d : TraceDecoder) (h : InsnHead)

def context : DecodeContext :=
  { rip := d.rip, segmentBase := h.prefixes.segment.map d.segmentOffset }

/-! Operands -/

def addressUops (m : Mem) : List Uop :=
  (m.addr.addressGenerate (h.context d) m.size).1.map TransOp.uop

def operandLoad (m : Mem) : List Uop := h.addressUops d m ++ [.ld]

def resultStore (m : Mem) : List Uop := h.addressUops d m ++ [.st]

/-- Only the address; which register it goes to does not matter here. -/
def addressOnly (forceSegBias : Bool) (m : Mem) : List Uop :=
  (m.addr.addressOnly (h.context d) forceSegBias m.size .temp1).map TransOp.uop

/-- The uop that takes a byte out of its register. -/
def extractHigh : Operand → List Uop
  | .reg r => if r.hibyte then [.op] else []
  | _ => []

def memoryFenceIfLocked (locked : Bool) : List Uop := if locked then [.op] else []

/-- With `raRbImmForm` the result goes to the register itself. -/
def aluRegOrMem (rd ra : Operand) (flagsonly raRbImmForm : Bool) : List Uop :=
  match rd, ra with
  | .reg r, .mem m =>
      h.operandLoad d m ++ extractHigh rd ++ [.op] ++
        if flagsonly || raRbImmForm then [] else extractHigh (.reg r)
  | .reg r, _ =>
      extractHigh rd ++ extractHigh ra ++ [.op] ++
        if flagsonly || raRbImmForm then [] else extractHigh (.reg r)
  | .mem m, .mem _ =>
      h.operandLoad d m ++ [.op] ++ if flagsonly then [] else h.resultStore d m
  | .mem m, _ =>
      h.operandLoad d m ++ extractHigh ra ++ [.op] ++
        if flagsonly then [] else h.resultStore d m
  | .imm _, _ => []

def moveRegOrMem (rd ra : Operand) : List Uop :=
  match rd, ra with
  | .reg r, .mem m => h.operandLoad d m ++ if 2 ≤ r.size.sizeshift then [] else [.op]
  | .reg _, _ => [.op]
  | .mem m, .imm _ => .op :: h.resultStore d m
  | .mem m, .reg _ => extractHigh ra ++ h.resultStore d m
  | _, _ => []

def signextRegOrMem (zeroext : Bool) (rasize : Size) (rd : ArchReg) (ra : Operand) : List Uop :=
  match ra with
  | .mem m =>
      h.operandLoad d { m with size := rasize } ++
        if rd.size = .w64 ∨ (rd.size = .w32 ∧ zeroext) then [] else [.op]
  | _ => extractHigh ra ++ [.op]

/-- The operand, where it is in memory. -/
def loadIfMem : Operand → List Uop
  | .mem m => h.operandLoad d m
  | _ => []

def storeIfMem : Operand → List Uop
  | .mem m => h.resultStore d m
  | _ => []

/-- Locked ops on memory stand between fences. -/
def fenced (rd : Operand) (uops : List Uop) : List Uop :=
  match rd with
  | .mem _ => memoryFenceIfLocked h.lock ++ uops ++ memoryFenceIfLocked h.lock
  | _ => uops

/-- The uop that collects the flags before a branch. -/
def collect : List Uop := if d.lastFlagsUpdateWasAtomic then [] else [.op]

/-- `req2` of `cond_code_to_flag_regs`. -/
def collectFor (condcode : Nat) : List Uop :=
  if [6, 7, 12, 13, 14, 15].contains condcode then [.op] else []

/-- There is no way to encode 32-bit pushes and jumps in 64-bit mode. -/
def widen : Operand → Operand
  | .mem m => .mem { m with size := if h.use64 ∧ m.size = .w32 then .w64 else m.size }
  | o => o

/-- The next eight bytes. -/
def high (m : Mem) : Mem := { m with addr := { m.addr with offset := m.addr.offset + 8 } }

/-! The floating-point stack -/

def x87LoadStack : List Uop := [.op, .ld]

def x87StoreStack : List Uop := [.op, .st, .op]

def x87PopStack : List Uop := [.op, .op]

def x87PopIf (pop : Bool) : List Uop := if pop then x87PopStack else []

/-- The comparison is looked up in a table, and put into the status word. -/
def x87CompareResult : List Uop := [.ld, .op, .op]

/-- `fcom` and `fcomp` compare. -/
def x87Result (x87op : Nat) : List Uop :=
  if x87op = 2 ∨ x87op = 3 then x87CompareResult ++ x87PopIf (x87op = 3) else x87StoreStack

/-! Strings -/

def stringSize : Size :=
  if h.op % 2 = 0 then .w8 else if h.rex.mode64 then .w64 else if h.opsizePrefix then .w16
  else .w32

/-- A repeated op begins with a check. At its end the flags have just been set all at once. -/
def stringUops (op : StringOp) (rep : Bool) : List Uop :=
  (if rep then [.op] else []) ++
    match op with
    | .movs => [.ld, .st, .op, .op] ++ if rep then [.op, .op] else []
    | .cmps => [.ld, .ld, .op, .op, .op] ++ if rep then [.op, .op, .op] else []
    | .stos => [.st, .op] ++ if rep then [.op, .op] else []
    | .lods =>
        (if 2 ≤ h.stringSize.sizeshift then [.ld] else [.ld, .op]) ++ [.op] ++
          if rep then [.op, .op] else []
    | .scas => [.ld, .op, .op] ++ if rep then [.op, .op, .op] else []

/-- The stack slot that `pop` fills lies above the new stack pointer. -/
def popTarget (m : Mem) : Mem :=
  let size := if h.use64 ∧ m.size = .w32 then .w64 else m.size
  let offset :=
    if m.addr.basereg = .gpr .rsp then m.addr.offset + BitVec.ofNat 64 size.bytes
    else m.addr.offset
  { addr := { m.addr with offset := offset }, size := size }

/-- The stack pointer is not moved where it is what is popped. -/
def popUops (r : ArchReg) : List Uop :=
  match r with
  | .gpr _ .rsp => [.ld]
  | _ => [.ld, .op]

/-- The address size, in which the bit string of `bt` is addressed. -/
def addrSize : Size :=
  if h.use64 then if h.addrsizePrefix then .w32 else .w64
  else if h.addrsizePrefix then .w16 else .w32

/-- The uops of the double shifts after the load of the operand. -/
def shiftDoubleUops (left : Bool) (rd : Operand) : ShiftCount → List Uop
  | .imm n => if n = 0 then [.op] else [.op, .op] ++ h.storeIfMem d rd
  | .cl =>
      (if left then [.op, .op, .op, .op, .op] else [.op, .op, .op]) ++ [.op, .op, .op] ++
        h.storeIfMem d rd ++ [.op, .op]

def uops : X86Insn → List Uop
  | .alu op rd ra =>
      if op = .cmp then h.aluRegOrMem d rd ra true false
      else h.fenced rd (h.aluRegOrMem d rd ra false false)
  | .incDecReg _ => [.op]
  | .push _ => [.st, .op]
  | .pop r => popUops r
  | .movx zeroext rasize rd ra => h.signextRegOrMem d zeroext rasize rd ra
  | .pushImm _ => [.op, .st, .op]
  | .imulImm rd ra _ => h.aluRegOrMem d (.reg rd) ra false true
  | .imul rd ra | .bitScan rd ra => h.aluRegOrMem d (.reg rd) ra false false
  | .jcc _ => collect d ++ [.op]
  | .test rd ra => h.aluRegOrMem d rd ra true false
  | .mov rd ra => h.moveRegOrMem d rd ra
  | .lea _ ra => h.addressOnly d false ra
  | .popEv rd =>
      match rd with
      | .mem m => [.ld] ++ h.resultStore d (h.popTarget m) ++ [.op]
      | .reg r => popUops r
      | .imm _ => []
  | .nop | .cbw => [.op]
  | .cwd size => [.op, .op, .op] ++ if size = .w32 then [.op] else []
  | .sahf | .lahf => [.op, .op]
  | .movMoffs ra => h.resultStore d ra
  | .movImm _ _ => [.op]
  | .shift _ rd ra =>
      match ra with
      | .imm n => h.aluRegOrMem d rd (.imm (BitVec.ofNat 64 n)) false false
      | .cl => .op :: h.aluRegOrMem d rd (.reg (.gpr .w8 .rcx)) false false
  | .ret => [.ld, .op] ++ collect d ++ [.op]
  | .enter _ => [.st, .op, .op, .op]
  | .leave => [.ld, .op, .ld, .op]
  | .call => [.op, .st, .op] ++ collect d ++ [.op]
  | .jmp => collect d ++ [.op]
  | .setCarry => [.op]
  | .not rd | .neg rd => h.fenced rd (h.aluRegOrMem d rd rd false false)
  | .incDec rd => h.fenced rd (h.aluRegOrMem d rd (.imm 1) false false)
  | .callEv ra => collect d ++ h.loadIfMem d (h.widen ra) ++ [.op, .st, .op] ++ [.op]
  | .jmpEv ra => collect d ++ h.loadIfMem d (h.widen ra) ++ [.op]
  | .pushEv ra => h.loadIfMem d (h.widen ra) ++ [.st, .op]
  | .cmov condcode _ ra => h.loadIfMem d ra ++ collectFor condcode ++ [.op]
  | .setcc condcode rd => collectFor condcode ++ [.op] ++ h.storeIfMem d (.resize .w8 rd)
  | .bt _ _ _ _ => [.op]
  | .prefetch ra => h.addressUops d ra ++ [.op]
  | .bswap _ => [.op]
  | .xchg rd ra =>
      match rd with
      | .mem m =>
          memoryFenceIfLocked true ++ [.op] ++ h.operandLoad d m ++
            (if 2 ≤ ra.size.sizeshift then [] else [.op]) ++ [.op] ++ h.resultStore d m ++
            [.op] ++ memoryFenceIfLocked true
      | _ => [.op, .op, .op]
  | .movSeg rd => [.ldContext] ++ h.storeIfMem d rd
  | .xchgA _ => [.op, .op, .op]
  | .pushf => collect d ++ [.op, .ldContext, .op, .op, .st]
  | .string op rep => h.stringUops op rep
  | .loop op => [.op] ++ (if op = 0xe2 then [] else [.op]) ++ [.op]
  -- the flags are set all at once by the first uop
  | .jcxz => [.op, .op]
  | .hlt => [.op]
  | .mul rd =>
      h.loadIfMem d rd ++ [.op, .op, .op] ++
        if (sizeOf rd).sizeshift < 2 then [.op] else []
  | .div rd =>
      h.loadIfMem d rd ++ [.op, .op, .op] ++ if sizeOf rd = .w16 then [.op] else []
  | .btMem op rd _ =>
      let locked := h.lock && op != .bt
      memoryFenceIfLocked locked ++ h.addressOnly d true { rd with size := h.addrSize } ++
        [.op, .op, .ld, .op] ++ (if op = .bt then [] else [.st]) ++ memoryFenceIfLocked locked
  | .btMemImm op rd _ =>
      let locked := h.lock && op != .bt
      memoryFenceIfLocked locked ++ h.addressOnly d true { rd with size := h.addrSize } ++
        [.ld, .op] ++ (if op = .bt then [] else [.st]) ++ memoryFenceIfLocked locked
  | .shiftDouble left rd ra => h.loadIfMem d rd ++ h.shiftDoubleUops d left rd ra
  | .cmpxchg rd _ =>
      memoryFenceIfLocked true ++ h.operandLoad d rd ++ [.op, .op, .op] ++ h.resultStore d rd ++
        memoryFenceIfLocked true
  | .xadd rd _ =>
      memoryFenceIfLocked true ++ h.operandLoad d rd ++ [.op] ++ h.resultStore d rd ++ [.op] ++
        memoryFenceIfLocked true
  | .stmxcsr rd => [.ldContext] ++ h.resultStore d rd
  | .fence => [.op, .op]
  | .emms => [.op]
  | .rdtsc => [.ldContext, .op, .op]
  | .sse pair onMem onReg ra =>
      match ra with
      | .mem m =>
          h.operandLoad d m ++ (if pair then h.operandLoad d (high m) else []) ++ onMem.uops
      | _ => onReg.uops
  | .sseStore pair onReg rd =>
      match rd with
      | .mem m => h.resultStore d m ++ if pair then h.resultStore d (high m) else []
      | _ => onReg.uops
  | .sseRegs ops => ops.uops
  | .unpckhpd ra =>
      match ra with
      | .mem m => [.op] ++ h.operandLoad d (high m)
      | _ => [.op, .op]
  | .fpArith form x87op ra =>
      x87LoadStack ++ [.op] ++
        (match ra with
        | .mem m => h.operandLoad d m ++ if form = .dc then [] else [.op]
        | _ => x87LoadStack) ++
        [.op] ++ x87Result x87op ++
        match ra with
        | .mem _ => []
        | _ => x87PopIf (form = .de)
  | .fucom pop =>
      x87LoadStack ++ [.op] ++ x87LoadStack ++ [.op] ++ x87CompareResult ++ x87PopIf pop
  | .fld32 ra =>
      (match ra with
      | .mem m => h.operandLoad d m ++ [.op]
      | _ => [.op] ++ x87LoadStack) ++
        [.op] ++ x87StoreStack
  | .fld64 ra =>
      match ra with
      | .mem m => h.operandLoad d m ++ [.op] ++ x87StoreStack
      | _ => [.op]
  | .ftos => [.op]
  | .fistp64 rd => x87LoadStack ++ [.op] ++ h.resultStore d rd ++ x87PopStack
  | .fst32 pop rd =>
      match rd with
      | .mem m => x87LoadStack ++ [.op] ++ h.resultStore d m ++ x87PopIf pop
      | _ => [.op]
  | .fst64 pop rd =>
      match rd with
      | .mem m => x87LoadStack ++ h.resultStore d m ++ x87PopIf pop
      | _ => [.op] ++ x87LoadStack ++ x87StoreStack ++ x87PopIf pop
  | .fstswMem rd => [.op] ++ h.resultStore d rd
  | .fstswAx => [.op, .op]
  | .fxch => [.op] ++ x87LoadStack ++ x87LoadStack ++ x87StoreStack ++ x87StoreStack
  | .fldConst => [.op, .op] ++ x87StoreStack
  | .fldcw ra => h.operandLoad d ra ++ [.st]
  | .fsqrt | .fsign => x87LoadStack ++ [.op] ++ x87StoreStack
  | .fnstcw rd => [.ldContext] ++ h.resultStore d rd
  | .ffreep => x87PopStack
  | .fild _ ra => h.operandLoad d ra ++ [.op, .op] ++ x87StoreStack
  | .fist pop rd => x87LoadStack ++ [.op] ++ h.resultStore d rd ++ x87PopIf pop
  | .ftst => x87LoadStack ++ [.op] ++ x87CompareResult
  | .fucompp =>
      x87LoadStack ++ [.op] ++ x87LoadStack ++ [.op] ++ x87CompareResult ++ x87PopStack ++
        x87PopStack
  | .fcmov collect =>
      [.op] ++ x87LoadStack ++ x87LoadStack ++ (if collect then [.op] else []) ++ [.op] ++
        x87StoreStack
  | .fiArith x87op ra =>
      x87LoadStack ++ h.operandLoad d ra ++ [.op, .op] ++ x87Result x87op
  | .fcomi pop => [.op] ++ x87LoadStack ++ x87LoadStack ++ [.op] ++ x87PopIf pop

end InsnHead
end FeS2.Decoder
