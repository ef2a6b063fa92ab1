import FeS2.Decoder.InsnBytes
import FeS2.Decoder.StringInsn

/-!
What the decoder makes of an opcode: the x86 op, with the operands that its code gets. Ops that
differ in what their uops compute only are one here.
-/

namespace FeS2.Decoder

inductive AluOp
  | add
  | or
  | adc
  | sbb
  | and
  | sub
  | xor
  | cmp
  deriving DecidableEq

def aluOp : Nat → AluOp
  | 0 => .add
  | 1 => .or
  | 2 => .adc
  | 3 => .sbb
  | 4 => .and
  | 5 => .sub
  | 6 => .xor
  | _ => .cmp

inductive ShiftCount
  | imm (n : Nat)
  | cl
  deriving DecidableEq

def x86ToBitOp : Nat → BitOp
  | 0 => .bt
  | 1 => .bts
  | 2 => .btr
  | _ => .btc

inductive BitIndex
  | reg (r : Gpr)
  | imm (v : W64)
  deriving DecidableEq

/-- How many ops stand behind the loads. -/
inductive OpCount
  | none
  | one
  | two

/-- The opcodes `d8`, `dc` and `de` of the arithmetic on the floating-point stack. -/
inductive FpForm
  | d8
  | dc
  | de
  deriving DecidableEq

inductive X86Insn
  -- the fast decoder
  | alu (op : AluOp) (rd ra : Operand)
  | incDecReg (r : ArchReg)
  | push (r : ArchReg)
  | pop (r : ArchReg)
  | movx (zeroext : Bool) (rasize : Size) (rd : ArchReg) (ra : Operand)
  | pushImm (v : W64)
  | imulImm (rd : ArchReg) (ra : Operand) (v : W64)
  | imul (rd : ArchReg) (ra : Operand)
  | jcc (condcode : Nat)
  | test (rd ra : Operand)
  | mov (rd ra : Operand)
  | lea (rd : ArchReg) (ra : Mem)
  | popEv (rd : Operand)
  | nop
  | cbw
  | cwd (size : Size)
  | sahf
  | lahf
  | movMoffs (ra : Mem)
  | movImm (rd : ArchReg) (v : W64)
  | shift (subop : Nat) (rd : Operand) (ra : ShiftCount)
  | ret
  | enter (bytes : W64)
  | leave
  | call
  | jmp
  | setCarry
  | not (rd : Operand)
  | neg (rd : Operand)
  | incDec (rd : Operand)
  | callEv (ra : Operand)
  | jmpEv (ra : Operand)
  | pushEv (ra : Operand)
  | cmov (condcode : Nat) (rd : ArchReg) (ra : Operand)
  | setcc (condcode : Nat) (rd : Operand)
  | bt (op : BitOp) (size : Size) (rd : Gpr) (ra : BitIndex)
  | prefetch (ra : Mem)
  | bitScan (rd : ArchReg) (ra : Operand)
  | bswap (r : ArchReg)
  -- the complex decoder
  | xchg (rd : Operand) (ra : ArchReg)
  | movSeg (rd : Operand)
  | xchgA (r : ArchReg)
  | pushf
  | string (op : StringOp) (rep : Bool)
  | loop (op : Nat)
  | jcxz
  | hlt
  | mul (rd : Operand)
  | div (rd : Operand)
  | btMem (op : BitOp) (rd : Mem) (ra : Gpr)
  | btMemImm (op : BitOp) (rd : Mem) (v : W64)
  | shiftDouble (left : Bool) (rd : Operand) (ra : ShiftCount)
  | cmpxchg (rd : Mem) (ra : ArchReg)
  | xadd (rd : Mem) (ra : ArchReg)
  | stmxcsr (rd : Mem)
  | fence
  | emms
  | rdtsc
  -- vectors: a pair of loads or one, and the ops behind the loads or on registers
  | sse (pair : Bool) (onMem onReg : OpCount) (ra : Operand)
  | sseStore (pair : Bool) (onReg : OpCount) (rd : Operand)
  | sseRegs (ops : OpCount)
  | unpckhpd (ra : Operand)
  -- the floating-point stack
  | fpArith (form : FpForm) (x87op : Nat) (ra : Operand)
  | fucom (pop : Bool)
  | fld32 (ra : Operand)
  | fld64 (ra : Operand)
  | ftos
  | fistp64 (rd : Mem)
  | fst32 (pop : Bool) (rd : Operand)
  | fst64 (pop : Bool) (rd : Operand)
  | fstswMem (rd : Mem)
  | fstswAx
  | fxch
  | fldConst
  | fldcw (ra : Mem)
  | fsqrt
  | fnstcw (rd : Mem)
  | ffreep
  | fild (narrow : Bool) (ra : Mem)
  | fist (pop : Bool) (rd : Mem)
  | fsign
  | ftst
  | fucompp
  | fcmov (collect : Bool)
  | fiArith (x87op : Nat) (ra : Mem)
  | fcomi (pop : Bool)

/-- The operand in memory, read with this size. -/
def Operand.resize (size : Size) : Operand → Operand
  | .mem m => .mem { m with size := size }
  | o => o

namespace InsnHead
variable (h : InsnHead)

def lock : Bool := h.prefixes.has .lock

def repz : Bool := h.prefixes.has .repz

def repnz : Bool := h.prefixes.has .repnz

/-- `b_mode` for even opcodes, `v_mode` for odd ones. -/
def byteOrV : ByteMode := if h.op % 2 = 0 then .b else .v

/-- The operands in the order of bit 1 of the opcode: the ModRM operand first, or last. -/
def modrmOperands (mode : ByteMode) (reversed : Bool) : Fetch (Operand × Operand) := do
  let rm ← h.eform mode
  let reg := Operand.reg (h.gform mode)
  return if reversed then (reg, rm) else (rm, reg)

/-- The operands of the arithmetic opcodes. -/
def aluOperands : Fetch (Operand × Operand) :=
  match bits h.op 0 3 with
  | 0 => h.modrmOperands .b false
  | 1 => h.modrmOperands .v false
  | 2 => h.modrmOperands .b true
  | 3 => h.modrmOperands .v true
  | 4 => do return (.reg (.gpr .w8 .rax), .imm (← h.iform .b))
  | 5 => do return (.reg (.gpr h.vSize (reg64 (if h.rex.extbase then 8 else 0))),
      .imm (← h.iform .v))
  | _ => Fetch.throw

def shiftCount (size : Size) (v : W64) : ShiftCount :=
  .imm (bits v.toNat 0 (if size = .w64 then 6 else 5))

def sizeOf : Operand → Size
  | .reg r => r.size
  | .mem m => m.size
  | .imm _ => .w64

def rmOnly (mode : ByteMode) (f : Operand → X86Insn) : Fetch (Option X86Insn) := do
  return some (f (← h.eform mode))

def simple (i : X86Insn) : Fetch (Option X86Insn) := return some i

/-- `decode_fast`; `none` inside leaves the opcode to the complex decoder. -/
def decodeFast : Fetch (Option X86Insn) :=
  let op := h.op
  let modrm := h.modrm
  if inrange op 0x00 0x0e || inrange op 0x10 0x3f then do
    let (rd, ra) ← h.aluOperands
    return some (.alu (aluOp (bits op 3 3)) rd ra)
  else if inrange op 0x40 0x4f then
    simple (.incDecReg (h.gformExt .v (bits op 0 3) false true))
  else if inrange op 0x50 0x57 then simple (.push (h.gformExt .v (bits op 0 3) h.use64 true))
  else if inrange op 0x58 0x5f then simple (.pop (h.gformExt .v (bits op 0 3) h.use64 true))
  else if inrange op 0x1b6 0x1b7 then
    h.rmOnly (if op = 0x1b6 then .b else .v)
      (.movx true (if op = 0x1b6 then .w8 else .w16) (h.gform .v))
  else if op = 0x63 || inrange op 0x1be 0x1bf then
    h.rmOnly (if op = 0x1be then .b else .v)
      (.movx false (if op = 0x63 then .w32 else if op = 0x1be then .w8 else .w16) (h.gform .v))
  else if op = 0x68 || op = 0x6a then do
    return some (.pushImm (← h.iform64 (if op = 0x68 then .v else .b)))
  else if op = 0x69 || op = 0x6b then do
    let ra ← h.eform .v
    return some (.imulImm (h.gform .v) ra (← h.iform (if op = 0x6b then .b else .v)))
  else if op = 0x1af then h.rmOnly .v (.imul (h.gform .v))
  else if inrange op 0x70 0x7f || inrange op 0x180 0x18f then do
    let _ ← h.iform (if inrange op 0x180 0x18f then .v else .b)
    return some (.jcc (bits op 0 4))
  else if inrange op 0x80 0x83 then
    if op = 0x82 then Fetch.throw
    else do
      let rd ← h.eform h.byteOrV
      let v ← h.iform (if op = 0x81 then .v else .b)
      return some (.alu (aluOp modrm.reg) rd (.imm v))
  else if inrange op 0x84 0x85 then do
    let (rd, ra) ← h.modrmOperands h.byteOrV false
    return some (.test rd ra)
  else if inrange op 0x88 0x8b then do
    let (rd, ra) ← h.modrmOperands h.byteOrV (decide (bits op 1 1 = 1))
    return some (.mov rd ra)
  else if op = 0x8d then do return some (.lea (h.gform .v) (← h.eformMemOnly .v))
  else if op = 0x8f then h.rmOnly .v .popEv
  else if op = 0x90 then simple .nop
  else if op = 0x98 then simple .cbw
  else if op = 0x99 then simple (.cwd (if h.opsizePrefix then .w16 else if h.rex.mode64 then .w64 else .w32))
  else if op = 0x9e then simple .sahf
  else if op = 0x9f then simple .lahf
  else if inrange op 0xa0 0xa3 then do
    let rd := h.gformExt h.byteOrV 0 false false
    let v ← h.iform64 (if h.use64 then .q else if h.addrsizePrefix then .w else .d)
    let offset := if h.use64 then v else v &&& bitmask (if h.addrsizePrefix then 16 else 32)
    let m : Mem :=
      { addr := { basereg := .zero, indexreg := none, offset := offset, scale := 0 }
        size := rd.size }
    return some (if inrange op 0xa2 0xa3 then .movMoffs m else .mov (.reg rd) (.mem m))
  else if inrange op 0xa8 0xa9 then do
    return some (.test (.reg (h.gformExt h.byteOrV 0 false false)) (.imm (← h.iform h.byteOrV)))
  else if inrange op 0xb0 0xb7 then do
    return some (.movImm (h.gformExt .b (bits op 0 3) false true) (← h.iform .b))
  else if inrange op 0xb8 0xbf then do
    return some (.movImm (h.gformExt .v (bits op 0 3) false true) (← h.iform64 .v))
  else if inrange op 0xc0 0xc1 then do
    let rd ← h.eform h.byteOrV
    return some (.shift modrm.reg rd (shiftCount (sizeOf rd) (← h.iform .b)))
  else if inrange op 0xd0 0xd1 then h.rmOnly h.byteOrV fun rd => .shift modrm.reg rd (.imm 1)
  else if inrange op 0xd2 0xd3 then h.rmOnly h.byteOrV fun rd => .shift modrm.reg rd .cl
  else if op = 0xc2 then do
    let _ ← h.iform .w
    return some .ret
  else if op = 0xc3 then simple .ret
  else if inrange op 0xc6 0xc7 then do
    let rd ← h.eform h.byteOrV
    return some (.mov rd (.imm (← h.iform h.byteOrV)))
  else if op = 0xc8 then do
    let bytes ← h.iform .w
    let level ← h.iform .b
    if level = 0 then return some (.enter bytes) else Fetch.throw
  else if op = 0xc9 then simple .leave
  else if op = 0xe8 || op = 0xe9 || op = 0xeb then do
    let _ ← h.iform (if op = 0xeb then .b else .v)
    return some (if op = 0xe8 then .call else .jmp)
  else if op = 0xf5 || op = 0xf8 || op = 0xf9 then simple .setCarry
  else if inrange op 0xf6 0xf7 then
    if 4 ≤ modrm.reg then return none
    else do
      let rd ← h.eform h.byteOrV
      if modrm.reg = 0 then return some (.test rd (.imm (← h.iform h.byteOrV)))
      else if modrm.reg = 2 then return some (.not rd)
      else if modrm.reg = 3 then return some (.neg rd)
      else Fetch.throw
  else if op = 0xfe then h.rmOnly .b .incDec
  else if op = 0xff then
    if modrm.reg = 0 || modrm.reg = 1 then h.rmOnly .v .incDec
    else if modrm.reg = 2 then h.rmOnly .v .callEv
    else if modrm.reg = 4 then h.rmOnly .v .jmpEv
    else if modrm.reg = 6 then h.rmOnly .v .pushEv
    else Fetch.throw
  else if inrange op 0x140 0x14f then h.rmOnly .v (.cmov (bits op 0 4) (h.gform .v))
  else if inrange op 0x190 0x19f then h.rmOnly .v (.setcc (bits op 0 4))
  else if op = 0x1a3 || op = 0x1ab || op = 0x1b3 || op = 0x1bb then
    if modrm.mod ≠ 3 then return none
    else simple (.bt (x86ToBitOp (bits op 3 2)) h.vSize (h.gprExt modrm.rm true)
      (.reg (h.gprExt modrm.reg false)))
  else if op = 0x1ba then
    if modrm.mod ≠ 3 then return none
    else do
      let v ← h.iform .b
      if modrm.reg < 4 then Fetch.throw
      else return some (.bt (x86ToBitOp (bits modrm.reg 0 2)) h.vSize (h.gprExt modrm.rm true)
        (.imm v))
  else if op = 0x118 || op = 0x10d then do return some (.prefetch (← h.eformMemOnly .b))
  else if op = 0x1bc || op = 0x1bd then h.rmOnly .v (.bitScan (h.gform .v))
  else if inrange op 0x1c8 0x1cf then
    simple (.bswap (h.gformExt .v (bits op 0 3) false true))
  else return none

/-- `movs`, `cmps`, `stos`, `lods` and `scas`; the first, third and fourth have one prefix only. -/
def stringOp : Option StringOp :=
  if inrange h.op 0xa4 0xa5 then some .movs
  else if inrange h.op 0xa6 0xa7 then some .cmps
  else if inrange h.op 0xaa 0xab then some .stos
  else if inrange h.op 0xac 0xad then some .lods
  else if inrange h.op 0xae 0xaf then some .scas
  else none

/-- `decode_complex`. -/
def decodeComplex (dirflag : Bool) : Fetch X86Insn :=
  let op := h.op
  let modrm := h.modrm
  if inrange op 0x86 0x87 then do return .xchg (← h.eform h.byteOrV) (h.gform h.byteOrV)
  else if op = 0x8c then do
    let rd ← h.eform .w
    if 6 ≤ modrm.reg then Fetch.throw else return .movSeg rd
  else if inrange op 0x91 0x97 then
    return .xchgA (h.gformExt .v (bits op 0 3) false true)
  else if op = 0x9c then return .pushf
  else if op = 0xfc then if dirflag then Fetch.throw else return .nop
  else if op = 0xfd then if dirflag then return .nop else Fetch.throw
  else if let some s := h.stringOp then
    if h.repnz && (s ≠ .cmps && s ≠ .scas) then Fetch.throw
    else return .string s (h.repz || h.repnz)
  else if inrange op 0xe0 0xe2 then do
    let _ ← h.iform .b
    return .loop op
  else if op = 0xe3 then do
    let _ ← h.iform .b
    return .jcxz
  else if op = 0xf4 then return .hlt
  else if inrange op 0xf6 0xf7 then do
    let rd ← h.eform h.byteOrV
    if modrm.reg = 4 || modrm.reg = 5 then return .mul rd
    else if modrm.reg = 6 || modrm.reg = 7 then return .div rd
    else Fetch.throw
  else if inrange op 0xfa 0xfb then return .nop
  else if op = 0x1a3 || op = 0x1ab || op = 0x1b3 || op = 0x1bb then do
    return .btMem (x86ToBitOp (bits op 3 2)) (← h.eformMemOnly .v) (h.gprExt modrm.reg false)
  else if op = 0x1ba then do
    let rd ← h.eformMemOnly .v
    let v ← h.iform .b
    if modrm.reg < 4 then Fetch.throw
    else return .btMemImm (x86ToBitOp (bits modrm.reg 0 2)) rd v
  else if inrange op 0x1a4 0x1a5 || inrange op 0x1ac 0x1ad then do
    let left := decide (op = 0x1a4 ∨ op = 0x1a5)
    let rd ← h.eform .v
    if op % 2 = 0 then
      let v ← h.iform .b
      return .shiftDouble left rd (.imm (bits v.toNat 0 (3 + (sizeOf rd).sizeshift)))
    else return .shiftDouble left rd .cl
  else if inrange op 0x1b0 0x1b1 then do
    return .cmpxchg (← h.eformMemOnly h.byteOrV) (h.gform h.byteOrV)
  else if inrange op 0x1c0 0x1c1 then do
    return .xadd (← h.eformMemOnly h.byteOrV) (h.gform h.byteOrV)
  else if op = 0x1c3 then do
    let (rd, ra) ← h.modrmOperands .v false
    return .mov rd ra
  else if op = 0x1ae then
    if modrm.reg = 3 then do return .stmxcsr (← h.eformMemOnly .d)
    else if 5 ≤ modrm.reg then return .fence
    else Fetch.throw
  else if op = 0x177 then return .emms
  else if op = 0x131 then return .rdtsc
  else Fetch.throw

def sseOf (mode : ByteMode) (pair : Bool) (onMem onReg : OpCount) : Fetch X86Insn := do
  return .sse pair onMem onReg (← h.eform mode)

/-- `decode_sse`. -/
def decodeSse : Fetch X86Insn :=
  let op := h.op
  let lo := op % 256
  let packed := decide (op / 256 = 3 ∨ op / 256 = 5)
  let rexSize : Size := if h.rex.mode64 then .w64 else .w32
  if [0x5db, 0x5df, 0x5eb, 0x5ef].contains op then h.sseOf .x true .two .two
  else if (inrange lo 0x51 0x53 || (inrange lo 0x54 0x57 && packed) || inrange lo 0x58 0x59 ||
      inrange lo 0x5c 0x5f || lo = 0xc2) && inrange op 0x200 0x5ff then do
    let ra ← h.eform .x
    if lo = 0xc2 then
      let _ ← h.iform .b
    if packed then return .sse true .two .two ra
    else return .sse false .one .one (if op / 256 = 2 then Operand.resize .w32 ra else ra)
  else if op = 0x57c || op = 0x57d then h.sseOf .x true .two .two
  else if op = 0x22a || op = 0x42a then do
    return .sse false .one .one (Operand.resize rexSize (← h.eform .v))
  else if op = 0x2e6 || op = 0x52a then do
    return .sse false .two .two (Operand.resize rexSize (← h.eform .x))
  else if [0x35b, 0x4e6, 0x5e6, 0x55a, 0x32a, 0x55b,
    0x25b].contains op then h.sseOf .x true .two .two
  else if [0x42d, 0x42c, 0x22d, 0x22c, 0x25a, 0x45a].contains op then h.sseOf .x false .one .one
  else if op = 0x35a then h.sseOf .x true .two .two
  else if [0x328, 0x528, 0x310, 0x510, 0x56f, 0x26f].contains op then h.sseOf .x true .none .two
  else if [0x329, 0x529, 0x311, 0x511, 0x57f, 0x27f].contains op then do
    return .sseStore true .two (← h.eform .x)
  else if op = 0x210 || op = 0x410 then do
    return .sse false .one .one (Operand.resize (if op = 0x410 then .w64 else .w32) (← h.eform .x))
  else if op = 0x211 || op = 0x411 then do
    return .sseStore false .one (Operand.resize (if op = 0x411 then .w64 else .w32) (← h.eform .x))
  else if [0x5d3, 0x5f3, 0x5d4, 0x5fb].contains op then h.sseOf .x true .two .two
  else if op = 0x573 then do
    let _ ← h.iform .b
    if h.modrm.reg = 2 || h.modrm.reg = 6 then return .sseRegs .two else Fetch.throw
  else if op = 0x5c5 || op = 0x5c4 then do
    let _ ← h.eform (if op = 0x5c5 then .x else .w)
    let _ ← h.iform .b
    return .sseRegs .one
  else if op = 0x570 || op = 0x3c6 || op = 0x5c6 then do
    let ra ← h.eform .x
    let _ ← h.iform .b
    return .sse true .two .two ra
  else if [0x32f, 0x32e, 0x52f, 0x52e].contains op then h.sseOf .x false .one .one
  else if [0x516, 0x316, 0x512, 0x312].contains op then
    h.sseOf .x false .none (if op / 256 = 3 then .one else .none)
  else if [0x517, 0x317, 0x513, 0x313].contains op then do
    return .sseStore false .none (.mem (← h.eformMemOnly .x))
  else if op = 0x514 then h.sseOf .x false .none .one
  else if op = 0x515 then do return .unpckhpd (← h.eform .x)
  else if op = 0x314 || op = 0x315 then h.sseOf .x true .two .two
  else if op = 0x56e then h.sseOf .v false .one .two
  else if op = 0x57e then do return .sseStore false .one (← h.eform .v)
  else if op = 0x27e then h.sseOf .x false .one .two
  else if op = 0x5d6 then do return .sseStore false .two (← h.eform .v)
  else Fetch.throw

/-- `decode_x87`. -/
def decodeX87 : Fetch X86Insn :=
  let op := h.op
  let modrm := h.modrm
  let regs := decide (modrm.mod = 3)
  if inrange op 0x600 0x607 then do return .fpArith .d8 modrm.reg (← h.eform .d)
  else if inrange op 0x640 0x647 then do return .fpArith .dc modrm.reg (← h.eform .q)
  else if inrange op 0x660 0x667 then do return .fpArith .de modrm.reg (← h.eform .w)
  else if inrange op 0x654 0x655 then
    if regs then return .fucom (decide (op = 0x655)) else Fetch.throw
  else if op = 0x610 then do return .fld32 (← h.eform .d)
  else if op = 0x616 then if regs && 6 ≤ modrm.rm then return .ftos else Fetch.throw
  else if op = 0x650 then do return .fld64 (← h.eform .q)
  else if op = 0x651 || op = 0x677 then
    if modrm.rm = 3 then Fetch.throw else do return .fistp64 (← h.eformMemOnly .q)
  else if op = 0x612 || op = 0x613 then do
    return .fst32 (decide (op = 0x613)) (← h.eform .d)
  else if op = 0x652 || op = 0x653 then do
    return .fst64 (decide (op = 0x653)) (← h.eform .q)
  else if op = 0x657 then do return .fstswMem (← h.eformMemOnly .w)
  else if op = 0x674 then if regs && modrm.rm = 0 then return .fstswAx else Fetch.throw
  else if op = 0x611 then if regs then return .fxch else Fetch.throw
  else if op = 0x615 then
    if regs then return .fldConst else do return .fldcw (← h.eformMemOnly .w)
  else if op = 0x617 then
    if regs then if modrm.rm = 2 then return .fsqrt else Fetch.throw
    else do return .fnstcw (← h.eformMemOnly .w)
  else if op = 0x670 then
    if regs then return .ffreep else do return .fild true (← h.eformMemOnly .w)
  else if inrange op 0x671 0x673 then do
    return .fist (decide (modrm.rm = 1 ∨ modrm.rm = 3)) (← h.eformMemOnly .w)
  else if op = 0x614 then
    if regs then
      if modrm.rm = 0 || modrm.rm = 1 then return .fsign
      else if modrm.rm = 4 then return .ftst
      else Fetch.throw
    else Fetch.throw
  else if inrange op 0x620 0x627 then
    if regs then
      if modrm.reg = 5 then return .fucompp
      else if modrm.reg < 4 then return .fcmov (decide (2 ≤ bits op 0 2))
      else Fetch.throw
    else do return .fiArith modrm.reg (← h.eformMemOnly .d)
  else if inrange op 0x630 0x633 then
    if regs then return .fcmov (decide (2 ≤ bits op 0 2))
    else do
      let m ← h.eformMemOnly .d
      if modrm.reg = 0 then return .fild false m
      else return .fist (decide (modrm.reg = 1 ∨ modrm.reg = 3)) m
  else if op = 0x635 || op = 0x636 || op = 0x637 || op = 0x675 || op = 0x676 then
    if regs then
      if op = 0x637 then Fetch.throw else return .fcomi (decide (op / 16 = 0x67))
    else if op = 0x675 then do return .fild false (← h.eformMemOnly .q)
    else Fetch.throw
  else Fetch.throw

end InsnHead
end FeS2.Decoder
