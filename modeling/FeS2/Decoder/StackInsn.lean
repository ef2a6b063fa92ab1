import FeS2.Decoder.AddressForms
import FeS2.Decoder.OperandAccess
import Mathlib.Logic.Function.Basic

/-!
The stack instructions and the near branches. Some move the stack pointer at the size of the mode,
some on whole words, and `enter` and `leave` move it in part at the size of the operand.
-/

namespace FeS2.Decoder

namespace InsnHead
variable (h : InsnHead)

/-- The size of a register that defaults to 64 bits in 64-bit mode. -/
def regSize : Size :=
  if h.rex.mode64 || (h.use64 && !h.opsizePrefix) then .w64 else h.vSize

/-- There is no way to encode 32-bit pushes and pops in 64-bit mode. -/
def pushSize (size : Size) : Size := if h.use64 && size = .w32 then .w64 else size

/-- The size of the mode, `(use64) ? 3 : 2`. -/
def modeSize : Size := if h.use64 then .w64 else .w32

/-- `(use64) ? (opsize_prefix ? 1 : 3) : (opsize_prefix ? 1 : 2)`. -/
def prefixSize : Size := if h.opsizePrefix then .w16 else h.modeSize

/-- The size that x86 gives the operand. -/
def opSize : Size :=
  if h.rex.mode64 then .w64 else if h.opsizePrefix then .w16 else h.modeSize

/-- An address or a register, cut to those of the mode. -/
def cut (x : W64) : W64 := if h.use64 then x else (x.setWidth 32).setWidth 64

end InsnHead

/-- The address of an operand; the stack pointer is no index. -/
structure StackAddress extends X86Address where
  wellFormed : toX86Address.WellFormed
  index_ne : index ≠ some .rsp

theorem x86Reg_ne_rsp {n : Nat} (hn : n < 8) {rexBit : Bool} (h : ¬(n = 4 ∧ rexBit = false)) :
    x86Reg n rexBit ≠ .rsp := by
  have hall : ∀ n < 8, ∀ rexBit, x86Reg n rexBit = .rsp → n = 4 ∧ rexBit = false := by decide
  exact fun heq => h (hall n hn rexBit heq)

/-- What the bytes give is the address of an operand. -/
theorem InsnHead.x86Address_stack (h : InsnHead) {bytes rest : List Byte} {f : X86Address}
    (hf : h.x86Address bytes = some (f, rest)) : ∃ a : StackAddress, a.toX86Address = f := by
  refine ⟨⟨f, h.x86Address_wellFormed hf, ?_⟩, rfl⟩
  unfold x86Address at hf
  dsimp only at hf
  rw [Option.ite_none_left_eq_some] at hf
  obtain ⟨-, hform⟩ := hf
  cases hform
  rw [ne_eq, Option.ite_none_left_eq_some, not_and]
  intro hindex heq
  rw [not_or] at hindex
  exact x86Reg_ne_rsp (Nat.mod_lt _ (by decide)) hindex.2 (Option.some_inj.mp heq)

inductive StackOperand
  | reg (r : Gpr)
  | mem (f : StackAddress)

inductive StackInsn
  | push (r : Gpr)
  | pop (r : Gpr)
  /-- The immediate, of a byte or longer. -/
  | pushImm (byte : Bool) (v : W64)
  | pushEv (ra : StackOperand)
  | popEv (rd : StackOperand)
  | call (disp : W64)
  | jmp (disp : W64)
  | callEv (ra : StackOperand)
  | jmpEv (ra : StackOperand)
  | ret (addend : BitVec 16)
  | enter (bytes : BitVec 16)
  | leave

def Size.word (size : Size) : W64 := BitVec.ofNat 64 size.bytes

namespace StackInsn

/-! The uops -/

def store (srcreg : Reg) (size : Size) : TransOp :=
  { opcode := .st, rd := .mem, ra := .gpr .rsp, rb := .imm, rc := srcreg, size := size,
    rbimm := -size.word }

def load (destreg : Reg) (base : Gpr) (size : Size) : TransOp :=
  { opcode := .ld, rd := destreg, ra := .gpr base, rb := .imm, rc := .zero, size := size }

/-- The stack pointer is moved by `imm`, at a size. -/
def move (opcode : Opcode) (size : Size) (imm : W64) : TransOp :=
  { opcode := opcode, rd := .gpr .rsp, ra := .gpr .rsp, rb := .imm, rc := .zero, size := size,
    rbimm := imm }

def immediate (rdreg : Reg) (imm : W64) : TransOp :=
  { opcode := .mov, rd := rdreg, ra := .zero, rb := .imm, rc := .zero, size := .w64, rbimm := imm }

/-- The register is set from another one, with zeros above its size. -/
def moveGpr (rd rb : Gpr) (size : Size) : TransOp :=
  { opcode := .mov, rd := .gpr rd, ra := .zero, rb := .gpr rb, rc := .zero, size := size }

def bru (target : W64) : TransOp :=
  { opcode := .bru, rd := .rip, ra := .zero, rb := .zero, rc := .zero, size := .w64,
    riptaken := target }

def jmpReg (ra : Reg) (size : Size) : TransOp :=
  { opcode := .jmp, rd := .rip, ra := ra, rb := .zero, rc := .zero, size := size }

/-- The address of the operand that is popped lies behind the new stack pointer. -/
def popTarget (a : MemOperand) (size : Size) : MemOperand :=
  { a with offset := if a.basereg = .gpr .rsp then a.offset + size.word else a.offset }

section
variable (c : DecodeContext) (h : InsnHead)

/-- A register is popped; the stack pointer is not moved where it is popped itself. -/
def popReg (r : Gpr) (size moved : Size) : List TransOp :=
  load (.gpr r) .rsp size :: if r = .rsp then [] else [move .add moved size.word]

/-- The return address is pushed from a temporary register. -/
def pushRip (temp : Reg) : List TransOp :=
  [immediate temp c.rip, store temp h.modeSize, move .sub h.modeSize h.modeSize.word]

def uops : StackInsn → List TransOp
  | push r =>
      let size := h.pushSize h.regSize
      [store (.gpr r) size, move .sub h.modeSize size.word]
  | pop r => popReg r (h.pushSize h.regSize) h.modeSize
  | pushImm byte v =>
      [immediate .temp0 (signext64 v (if byte then 8 else 32)), store .temp0 h.prefixSize,
        move .sub .w64 h.prefixSize.word]
  | pushEv ra =>
      let size := h.pushSize h.vSize
      match ra with
      | .reg r => [store (.gpr r) size, move .sub h.modeSize size.word]
      | .mem f =>
          f.operand.operandLoad c size .ld .temp7 ++
            [store .temp7 size, move .sub h.modeSize size.word]
  | popEv rd =>
      let size := h.pushSize h.vSize
      match rd with
      | .reg r => popReg r size .w64
      | .mem f =>
          load .temp7 .rsp size ::
            ((popTarget f.operand size).resultStore c size .temp7 ++ [move .add .w64 size.word])
  | call disp => pushRip c h .temp0 ++ [bru (c.rip + disp)]
  | jmp disp => [bru (c.rip + disp)]
  | callEv ra =>
      let size := h.pushSize h.vSize
      match ra with
      | .reg r => pushRip c h .temp6 ++ [jmpReg (.gpr r) size]
      | .mem f =>
          f.operand.operandLoad c size .ld .temp0 ++ (pushRip c h .temp6 ++ [jmpReg .temp0 size])
  | jmpEv ra =>
      let size := h.pushSize h.vSize
      match ra with
      | .reg r => [jmpReg (.gpr r) size]
      | .mem f => f.operand.operandLoad c size .ld .temp0 ++ [jmpReg .temp0 size]
  | ret addend =>
      [load .temp7 .rsp h.prefixSize, move .add .w64 (h.prefixSize.word + addend.setWidth 64),
        jmpReg .temp7 .w64]
  | enter bytes =>
      let size := h.prefixSize
      [store (.gpr .rbp) size, move .sub .w64 size.word, moveGpr .rbp .rsp size,
        move .sub size (bytes.setWidth 64)]
  | leave =>
      let size := h.prefixSize
      [load .temp0 .rbp size, moveGpr .rsp .rbp size, load (.gpr .rbp) .rsp size,
        move .add .w64 size.word]

end

/-! What x86 leaves -/

end StackInsn

/-- The registers, memory, and where fetch goes on. -/
structure StackEffect where
  gpr : Gpr → W64
  memory : W64 → BitVec 8
  rip : W64

namespace StackInsn

section
variable (c : DecodeContext) (h : InsnHead) (m : Machine)

def gprs : Gpr → W64 := fun q => m.data (.gpr q)

/-- The stack pointer that a push leaves. -/
def down : W64 := h.cut (m.data (.gpr .rsp) - h.opSize.word)

def up : W64 := h.cut (m.data (.gpr .rsp) + h.opSize.word)

/-- What is on top of the stack. -/
def top : W64 := m.load (h.cut (m.data (.gpr .rsp))) h.opSize

def pushed (v rip : W64) : StackEffect where
  gpr := Function.update (gprs m) .rsp (down h m)
  memory := m.store (down h m) h.opSize v
  rip := rip

/-- The stack pointer is moved first. -/
def popped (r : Gpr) (rip : W64) : StackEffect where
  gpr :=
    let moved := Function.update (gprs m) .rsp (up h m)
    Function.update moved r (x86Merge h.opSize (h.cut (moved r)) (top h m))
  memory := m.memory
  rip := rip

def branched (rip : W64) : StackEffect := { gpr := gprs m, memory := m.memory, rip := rip }

/-- The target of a branch, at the size of the operand. -/
def target (x : W64) : W64 := (x.setWidth h.opSize.bits).setWidth 64

def operand : StackOperand → W64
  | .reg r => m.data (.gpr r)
  | .mem f => m.load (c.segment m + f.effective c.rip m h.truncates) h.opSize

/-- An operand that is popped is addressed with the stack pointer that the pop leaves. -/
def popPlace (f : StackAddress) : W64 :=
  let moved := { m with regs := Function.update m.regs (.gpr .rsp) (up h m) }
  c.segment m + f.effective c.rip moved h.truncates

def x86 : StackInsn → StackEffect
  | push r => pushed h m (m.data (.gpr r)) c.rip
  | pop r => popped h m r c.rip
  | pushImm byte v => pushed h m (signext64 v (if byte then 8 else 32)) c.rip
  | pushEv ra => pushed h m (operand c h m ra) c.rip
  | popEv rd =>
      match rd with
      | .reg r => popped h m r c.rip
      | .mem f =>
          { gpr := Function.update (gprs m) .rsp (up h m)
            memory := m.store (popPlace c h m f) h.opSize (top h m)
            rip := c.rip }
  | call disp => pushed h m c.rip (target h (c.rip + disp))
  | jmp disp => branched m (target h (c.rip + disp))
  | callEv ra => pushed h m c.rip (target h (operand c h m ra))
  | jmpEv ra => branched m (target h (operand c h m ra))
  | ret addend =>
      { gpr := Function.update (gprs m) .rsp
          (h.cut (m.data (.gpr .rsp) + h.opSize.word + addend.setWidth 64))
        memory := m.memory
        rip := top h m }
  | enter bytes =>
      let rbp := m.data (.gpr .rbp)
      { gpr := Function.update
          (Function.update (gprs m) .rbp (x86Merge h.opSize (h.cut rbp) (down h m))) .rsp
            (h.cut (down h m - bytes.setWidth 64))
        memory := m.store (down h m) h.opSize rbp
        rip := c.rip }
  | leave =>
      let rbp := m.data (.gpr .rbp)
      { gpr := Function.update
          (Function.update (gprs m) .rsp (h.cut (rbp + h.opSize.word))) .rbp
            (x86Merge h.opSize (h.cut rbp) (m.load (h.cut rbp) h.opSize))
        memory := m.memory
        rip := c.rip }

/-- The uops leave the registers and memory as x86 does, and fetch goes on where x86 does. -/
def Right (left : Nat → Leftover) (i : StackInsn) : Prop :=
  ∃ m' next, runUops left c.rip (i.uops c h) m = some (m', next) ∧
    (⟨gprs m', m'.memory, next⟩ : StackEffect) = i.x86 c h m

end

end StackInsn
end FeS2.Decoder
