import FeS2.Decoder.DivisionUops
import FeS2.Decoder.MemOperand

/-!
The bytes of an x86 op: its prefixes, its opcode, and the forms of its operands. What the decoder
throws is `none`.
-/

namespace FeS2.Decoder

abbrev Byte := BitVec 8

/-- What the decoder has not used yet of the bytes. -/
abbrev Fetch := StateT (List Byte) Option

/-- The field of `n` bits at bit `i`. -/
def bits (x i n : Nat) : Nat := x / 2 ^ i % 2 ^ n

theorem bits_lt (x i n : Nat) : bits x i n < 2 ^ n := Nat.mod_lt _ (Nat.two_pow_pos n)

def inrange (x lo hi : Nat) : Bool := decide (lo ≤ x ∧ x ≤ hi)

namespace Fetch

def throw {α : Type} : Fetch α := fun _ => none

theorem pure_apply {α : Type} (a : α) (bytes : List Byte) :
    (pure a : Fetch α) bytes = some (a, bytes) := rfl

theorem bind_apply {α β : Type} (f : Fetch α) (g : α → Fetch β) (bytes : List Byte) :
    (f >>= g) bytes = (f bytes).bind fun r => g r.1 r.2 := rfl

def fetch1 : Fetch Byte
  | [] => none
  | b :: bytes => some (b, bytes)

def fetch2 : Fetch (BitVec 16) := do
  let lo ← fetch1
  let hi ← fetch1
  return hi ++ lo

def fetch4 : Fetch (BitVec 32) := do
  let lo ← fetch2
  let hi ← fetch2
  return hi ++ lo

def fetch8 : Fetch W64 := do
  let lo ← fetch4
  let hi ← fetch4
  return hi ++ lo

/-- An immediate of one, two, four or eight bytes, sign-extended. -/
def signed : Size → Fetch W64
  | .w8 => return (← fetch1).signExtend 64
  | .w16 => return (← fetch2).signExtend 64
  | .w32 => return (← fetch4).signExtend 64
  | .w64 => fetch8

end Fetch

/-! Prefixes -/

structure RexByte where
  mode64 : Bool := false
  extreg : Bool := false
  extindex : Bool := false
  extbase : Bool := false

inductive Prefix
  | repz
  | repnz
  | lock
  | cs
  | ss
  | ds
  | es
  | fs
  | gs
  | data
  | addr
  | rex
  | fwait
  deriving DecidableEq

/-- `prefix_map_x86_64` and `prefix_map_x86`. -/
def prefixMap (use64 : Bool) (b : Byte) : Option Prefix :=
  let n := b.toNat
  if n = 0x26 then some .es
  else if n = 0x2e then some .cs
  else if n = 0x36 then some .ss
  else if n = 0x3e then some .ds
  else if inrange n 0x40 0x4f && use64 then some .rex
  else if n = 0x64 then some .fs
  else if n = 0x65 then some .gs
  else if n = 0x66 then some .data
  else if n = 0x67 then some .addr
  else if n = 0x9b then some .fwait
  else if n = 0xf0 then some .lock
  else if n = 0xf2 then some .repnz
  else if n = 0xf3 then some .repz
  else none

/-- `prefixes` without `PFX_REX`, and `rex`. -/
structure Prefixes where
  seen : List Prefix := []
  rex : Option RexByte := none

namespace Prefixes

def has (p : Prefixes) (x : Prefix) : Bool := p.seen.contains x

def rexByte (p : Prefixes) : RexByte := p.rex.getD {}

/-- A REX byte is ignored when another prefix follows. -/
def add (p : Prefixes) (x : Prefix) (b : Byte) : Prefixes :=
  if x = .rex then
    { p with
      rex := some
        { mode64 := b.getLsbD 3, extreg := b.getLsbD 2, extindex := b.getLsbD 1,
          extbase := b.getLsbD 0 } }
  else { seen := x :: p.seen, rex := none }

/-- The prefix whose segment counts. -/
def segment (p : Prefixes) : Option Prefix :=
  [.fs, .gs, .ds, .ss, .es, .cs].find? p.has

end Prefixes

def decodePrefixes (use64 : Bool) (p : Prefixes) : List Byte → Option (Prefixes × List Byte)
  | [] => none
  | b :: bytes =>
      match prefixMap use64 b with
      | some x => decodePrefixes use64 (p.add x b) bytes
      | none => some (p, b :: bytes)

/-! Operands -/

structure ModRMByte where
  mod : Nat
  reg : Nat
  rm : Nat
  mod_lt : mod < 4
  reg_lt : reg < 8
  rm_lt : rm < 8

def ModRMByte.ofByte (b : Byte) : ModRMByte where
  mod := bits b.toNat 6 2
  reg := bits b.toNat 3 3
  rm := bits b.toNat 0 3
  mod_lt := bits_lt _ 6 2
  reg_lt := bits_lt _ 3 3
  rm_lt := bits_lt _ 0 3

def reg64 : Nat → Gpr
  | 0 => .rax
  | 1 => .rcx
  | 2 => .rdx
  | 3 => .rbx
  | 4 => .rsp
  | 5 => .rbp
  | 6 => .rsi
  | 7 => .rdi
  | 8 => .r8
  | 9 => .r9
  | 10 => .r10
  | 11 => .r11
  | 12 => .r12
  | 13 => .r13
  | 14 => .r14
  | _ => .r15

/-- The registers that an operand names. -/
inductive ArchReg
  | gpr (size : Size) (r : Gpr)
  | high (r : HighByte)
  | xmm (n : Nat)
  deriving DecidableEq

namespace ArchReg

/-- `reginfo[reg].sizeshift`. -/
def size : ArchReg → Size
  | .gpr size _ => size
  | .high _ => .w8
  | .xmm _ => .w64

def hibyte : ArchReg → Bool
  | .high _ => true
  | _ => false

end ArchReg

/-- `reg8_to_uniform_reg`, with no REX byte. -/
def reg8 : Nat → ArchReg
  | 4 => .high .ah
  | 5 => .high .ch
  | 6 => .high .dh
  | 7 => .high .bh
  | n => .gpr .w8 (reg64 n)

structure Mem where
  addr : MemOperand
  size : Size

inductive Operand
  | reg (r : ArchReg)
  | mem (m : Mem)
  | imm (v : W64)

inductive ByteMode
  | b
  | v
  | w
  | d
  | q
  | x
  deriving DecidableEq

/-! The tables of the addressing forms, with nothing for a register that is in the SIB byte -/

def modAndRexextbaseAndRmToBaseregX8664 (mod : Nat) (extbase : Bool) : Nat → Option MemBase
  | 4 => none
  | 5 => some (if mod = 0 then .rip else .gpr (if extbase then .r13 else .rbp))
  | rm => some (.gpr (reg64 (rm + if extbase then 8 else 0)))

def modAndRmToBaseregX86 (mod : Nat) : Nat → Option MemBase
  | 4 => none
  | 5 => some (if mod = 0 then .zero else .gpr .rbp)
  | rm => some (.gpr (reg64 rm))

/-- The bytes of the displacement, but for one that the SIB byte tells of. -/
def modAndRmToImmsize (mod rm : Nat) : Option Size :=
  if mod = 1 then some .w8
  else if mod = 2 ∨ mod = 0 ∧ rm = 5 then some .w32
  else none

def rexextbaseAndBaseToBasereg (extbase : Bool) : Nat → Option Gpr
  | 5 => none
  | base => some (reg64 (base + if extbase then 8 else 0))

def rexextbaseAndModToBasereg (extbase : Bool) (mod : Nat) : MemBase :=
  if mod = 0 then .zero else .gpr (if extbase then .r13 else .rbp)

def rexextindexAndIndexToIndexreg (extindex : Bool) (index : Nat) : Option Gpr :=
  if index = 4 ∧ extindex = false then none
  else some (reg64 (index + if extindex then 8 else 0))

/-- What the decoder has of the op when it gets to the operands. -/
structure InsnHead where
  use64 : Bool
  prefixes : Prefixes
  opsizePrefix : Bool
  addrsizePrefix : Bool
  op : Nat
  modrm : ModRMByte

namespace InsnHead
variable (h : InsnHead)

/-- Outside 64-bit mode no prefix is a REX byte. -/
def rex : RexByte := if h.use64 then h.prefixes.rexByte else {}

/-- The size of an operand in `v_mode`. -/
def vSize : Size := if h.rex.mode64 then .w64 else if h.opsizePrefix then .w16 else .w32

/-- What is added to the number of a register. -/
def extension (inRexBase : Bool) : Nat :=
  if (if inRexBase then h.rex.extbase else h.rex.extreg) then 8 else 0

def gprExt (regfield : Nat) (inRexBase : Bool) : Gpr := reg64 (regfield + h.extension inRexBase)

def gformExt (mode : ByteMode) (regfield : Nat) (def64 inRexBase : Bool) : ArchReg :=
  match mode with
  | .b => if h.prefixes.rex.isSome then .gpr .w8 (h.gprExt regfield inRexBase) else reg8 regfield
  | .w => .gpr .w16 (h.gprExt regfield inRexBase)
  | .d => .gpr .w32 (h.gprExt regfield inRexBase)
  | .q => .gpr .w64 (h.gprExt regfield inRexBase)
  | .v =>
      .gpr (if h.rex.mode64 || (def64 && !h.opsizePrefix) then .w64 else h.vSize)
        (h.gprExt regfield inRexBase)
  | .x => .xmm (regfield + h.extension inRexBase)

def gform (mode : ByteMode) : ArchReg := h.gformExt mode h.modrm.reg false false

/-- The size of an operand in memory. -/
def memSize : ByteMode → Size
  | .b => .w8
  | .w => .w16
  | .d => .w32
  | .q => .w64
  | .v => h.vSize
  | .x => .w64

def eformMem : Fetch MemOperand := do
  let rex := h.rex
  let modrm := h.modrm
  let basereg :=
    if h.use64 then modAndRexextbaseAndRmToBaseregX8664 modrm.mod rex.extbase modrm.rm
    else modAndRmToBaseregX86 modrm.mod modrm.rm
  let sib ← if modrm.rm = 4 then Fetch.fetch1 else pure 0
  let immsize := modAndRmToImmsize modrm.mod modrm.rm
  let offset ← match immsize with
    | some size => Fetch.signed size
    | none => pure 0
  match basereg with
  | some basereg => return { basereg := basereg, indexreg := none, offset := offset, scale := 0 }
  | none =>
    let indexreg := rexextindexAndIndexToIndexreg rex.extindex (bits sib.toNat 3 3)
    let scale := bits sib.toNat 6 2
    match rexextbaseAndBaseToBasereg rex.extbase (bits sib.toNat 0 3) with
    | some r =>
      return { basereg := .gpr r, indexreg := indexreg, offset := offset, scale := scale }
    | none =>
      let offset ←
        if immsize.isSome then pure offset
        else Fetch.signed (if modrm.mod = 1 then .w8 else .w32)
      return { basereg := rexextbaseAndModToBasereg rex.extbase modrm.mod, indexreg := indexreg,
               offset := offset, scale := scale }

def eform (mode : ByteMode) : Fetch Operand := do
  if h.modrm.mod = 3 then return .reg (h.gformExt mode h.modrm.rm false true)
  else return .mem { addr := ← h.eformMem, size := h.memSize mode }

/-- Immediates are never longer than four bytes, but for `mov`. -/
def iform : ByteMode → Fetch W64
  | .b => Fetch.signed .w8
  | .w => Fetch.signed .w16
  | .v => Fetch.signed (if h.rex.mode64 || !h.opsizePrefix then .w32 else .w16)
  | .q => Fetch.signed .w64
  | _ => Fetch.throw

def iform64 : ByteMode → Fetch W64
  | .b => Fetch.signed .w8
  | .w => Fetch.signed .w16
  | .v => Fetch.signed h.vSize
  | .d => Fetch.signed .w32
  | .q => Fetch.signed .w64
  | .x => Fetch.throw

/-- An operand that has to be in memory. -/
def eformMemOnly (mode : ByteMode) : Fetch Mem := do
  match ← h.eform mode with
  | .mem m => return m
  | _ => Fetch.throw

end InsnHead
end FeS2.Decoder
