import FeS2.Decoder.Division

/-!
The uops of an x86 op and what they compute. A uop reads up to three registers, each with the
flags of the uop that wrote it, and writes one, for whose flags the user flags may then stand.
-/

namespace FeS2.Decoder

inductive Gpr
  | rax
  | rcx
  | rdx
  | rbx
  | rsp
  | rbp
  | rsi
  | rdi
  | r8
  | r9
  | r10
  | r11
  | r12
  | r13
  | r14
  | r15
  deriving DecidableEq

inductive Reg
  | gpr (r : Gpr)
  | rip
  | zero
  | temp0
  | temp1
  | temp2
  | temp3
  | temp4
  | temp5
  | temp6
  | temp7
  | temp8
  | temp9
  | ctx
  | zf
  | cf
  | of
  | imm
  | mem
  deriving DecidableEq

structure Flags where
  cf : Bool
  pf : Bool
  zf : Bool
  sf : Bool
  of : Bool
  deriving DecidableEq

namespace Flags

def clear : Flags := { cf := false, pf := false, zf := false, sf := false, of := false }

def or (a b : Flags) : Flags :=
  { cf := a.cf || b.cf, pf := a.pf || b.pf, zf := a.zf || b.zf, sf := a.sf || b.sf,
    of := a.of || b.of }

def not (a : Flags) : Flags := { cf := !a.cf, pf := !a.pf, zf := !a.zf, sf := !a.sf, of := !a.of }

def xor (a b : Flags) : Flags :=
  { cf := a.cf != b.cf, pf := a.pf != b.pf, zf := a.zf != b.zf, sf := a.sf != b.sf,
    of := a.of != b.of }

def ofWord (w : W64) : Flags :=
  { cf := w.getLsbD 0, pf := w.getLsbD 2, zf := w.getLsbD 6, sf := w.getLsbD 7,
    of := w.getLsbD 11 }

def word (f : Flags) : W64 :=
  (BitVec.ofBool f.of ++ 0#3 ++ BitVec.ofBool f.sf ++ BitVec.ofBool f.zf ++ 0#3 ++
    BitVec.ofBool f.pf ++ 0#1 ++ BitVec.ofBool f.cf).setWidth 64

theorem ofWord_word (f : Flags) : ofWord f.word = f := by
  obtain ⟨cf, pf, zf, sf, of⟩ := f
  cases cf <;> cases pf <;> cases zf <;> cases sf <;> cases of <;> rfl

end Flags

structure SetFlags where
  zf : Bool
  cf : Bool
  of : Bool
  deriving DecidableEq

namespace SetFlags

def none : SetFlags := { zf := false, cf := false, of := false }

def zfOnly : SetFlags := { none with zf := true }

/-- `FLAGS_DEFAULT_ALU`. -/
def defaultAlu : SetFlags := { zf := true, cf := true, of := true }

theorem defaultAlu_ne : defaultAlu ≠ none := by decide

theorem zfOnly_ne : zfOnly ≠ none := by decide

end SetFlags

inductive Cond
  | o
  | no
  | c
  | nc
  | e
  | ne
  | be
  | nbe
  | s
  | ns
  | p
  | np
  | l
  | nl
  | le
  | nle
  deriving DecidableEq

def evaluateCond (ra rb : Flags) : Cond → Bool
  | .o => rb.of
  | .no => !rb.of
  | .c => rb.cf
  | .nc => !rb.cf
  | .e => ra.zf
  | .ne => !ra.zf
  | .be => ra.zf || rb.cf
  | .nbe => !(ra.zf || rb.cf)
  | .s => ra.sf
  | .ns => !ra.sf
  | .p => ra.pf
  | .np => !ra.pf
  | .l => ra.sf != rb.of
  | .nl => !ra.sf != rb.of
  | .le => ra.zf || ra.sf != rb.of
  | .nle => !(ra.zf || ra.sf != rb.of)

/-- The uops on one bit. -/
inductive BitOp
  | bt
  | bts
  | btr
  | btc
  deriving DecidableEq

inductive ShiftOp
  | shl
  | shr
  | sar
  | rotl
  | rotr
  | rotcl
  | rotcr
  deriving DecidableEq

inductive Opcode
  | nop
  | mov
  | and
  | or
  | add
  | adda
  | sub
  | div (op : DivOp)
  | orcc
  | ornotcc
  | xorcc
  | collcc
  | movrcc
  | movccr
  | sel
  | set
  | maskb
  | ld
  | ldx
  | st
  | br
  | bru
  | jmp
  | chkSub
  | bit (op : BitOp)
  /-- A simple one, as `shls`, does not get the flags. -/
  | shift (op : ShiftOp) (simple : Bool)
  deriving DecidableEq

structure TransOp where
  opcode : Opcode
  rd : Reg
  ra : Reg
  rb : Reg
  rc : Reg
  size : Size
  rbimm : W64 := 0
  rcimm : W64 := 0
  setflags : SetFlags := .none
  nouserflags : Bool := false
  cond : Cond := .o
  extshift : Nat := 0
  internal : Bool := false
  riptaken : W64 := 0
  ripseq : W64 := 0
  deriving DecidableEq

/-- `context` is what the internal loads read. -/
structure Machine where
  regs : Reg → W64
  flags : Reg → Flags
  memory : W64 → BitVec 8
  context : W64 → W64 := fun _ => 0

/-- What a uop finds where nothing was put for it: the host's carry flag, the variable for the
result of a division, the flags of the physical register it is given, and the flags that the host
leaves undefined. -/
structure Leftover where
  carry : Bool
  result : W64
  flags : Flags
  host : Flags := .clear

/-! The functions of the uops -/

section
variable {n : Nat}

def parity (r : BitVec n) : Bool :=
  !(r.getLsbD 0 ^^ r.getLsbD 1 ^^ r.getLsbD 2 ^^ r.getLsbD 3 ^^ r.getLsbD 4 ^^ r.getLsbD 5 ^^
    r.getLsbD 6 ^^ r.getLsbD 7)

/-- All but the carry and the overflow flag. -/
def x86Genflags (r : BitVec n) : Flags :=
  { Flags.clear with pf := parity r, zf := r == 0, sf := r.msb }

/-- The host's `adc`: the sum, the carry and the overflow flag. -/
def adc (a b : BitVec n) (carry : Bool) : BitVec n × Bool × Bool :=
  let r := a + b + (BitVec.ofBool carry).setWidth n
  (r, decide (2 ^ n ≤ a.toNat + b.toNat + carry.toNat), a.msb == b.msb && r.msb != a.msb)

def sbb (a b : BitVec n) (carry : Bool) : BitVec n × Bool × Bool :=
  let r := a - b - (BitVec.ofBool carry).setWidth n
  (r, decide (a.toNat < b.toNat + carry.toNat), a.msb != b.msb && r.msb != a.msb)

/-- The result and the flags of an operation that sets flags. -/
def withFlags (r : BitVec n × Bool × Bool) : BitVec n × Flags :=
  (r.1, { x86Genflags r.1 with cf := r.2.1, of := r.2.2 })

/-- `add` and `sub` are the host's `adc` and `sbb`. The host's flags are loaded first where the
uop sets flags, and not where it sets none. -/
def x86Aluop (host : BitVec n → BitVec n → Bool → BitVec n × Bool × Bool) (genflags : Bool)
    (left : Leftover) (ra rb : BitVec n) (rcflags : Flags) : BitVec n × Flags :=
  if genflags then withFlags (host ra rb rcflags.cf) else ((host ra rb left.carry).1, Flags.clear)

namespace BitOp

/-- The number of the bit is cut to those of the operand. -/
def eval (op : BitOp) (ra rb : BitVec n) : BitVec n × Flags :=
  let i := rb.toNat % n
  let cf := ra.getLsbD i
  let rd :=
    match op with
    | .bt => if cf then -1 else 1
    | .bts => ra ||| BitVec.twoPow n i
    | .btr => ra &&& ~~~BitVec.twoPow n i
    | .btc => ra ^^^ BitVec.twoPow n i
  (rd, { Flags.clear with cf := cf })

end BitOp

namespace ShiftOp

def isRotate : ShiftOp → Bool
  | .shl | .shr | .sar => false
  | .rotl | .rotr | .rotcl | .rotcr => true

/-- The host's instruction, with the carry and the overflow flag. It cuts the count to five bits,
or six for whole words. -/
def host (op : ShiftOp) (undefined flags : Flags) (ra : BitVec n) (count : Nat) :
    BitVec n × Bool × Bool :=
  let c := count % if n = 64 then 64 else 32
  if c = 0 then (ra, flags.cf, flags.of)
  else
    let ring := BitVec.ofBool flags.cf ++ ra
    let (rd, cf) :=
      match op with
      | .shl => (ra <<< c, if c ≤ n then ra.getLsbD (n - c) else undefined.cf)
      | .shr => (ra >>> c, if c ≤ n then ra.getLsbD (c - 1) else undefined.cf)
      | .sar => (ra.sshiftRight c, (ra.sshiftRight (c - 1)).getLsbD 0)
      | .rotl => (ra.rotateLeft c, (ra.rotateLeft c).getLsbD 0)
      | .rotr => (ra.rotateRight c, (ra.rotateRight c).msb)
      | .rotcl => ((ring.rotateLeft c).setWidth n, (ring.rotateLeft c).msb)
      | .rotcr => ((ring.rotateRight c).setWidth n, (ring.rotateRight c).msb)
    let of :=
      if c ≠ 1 then undefined.of
      else
        match op with
        | .shl | .rotl | .rotcl => rd.msb != cf
        | .shr | .sar | .rotr | .rotcr => rd.msb != rd.getLsbD (n - 2)
    (rd, cf, of)

/-- `shiftop` and `rotateop`. Shifts set the other flags, rotates pass them on; where the count is
zero, for shifts in its lowest byte, they are those that the uop is given. -/
def eval (op : ShiftOp) (simple genflags : Bool) (left : Leftover) (ra : BitVec n) (rb : W64)
    (rcflags : Flags) : BitVec n × Flags :=
  let flagsIn := if genflags && !simple then rcflags else { left.host with cf := left.carry }
  let rt := op.host left.host flagsIn ra (rb.toNat % 256)
  let cf := genflags && rt.2.1
  let of := genflags && rt.2.2
  if op.isRotate then
    (rt.1, if rb = 0 then rcflags
      else { cf := cf, pf := rcflags.pf, zf := rcflags.zf, sf := rcflags.sf, of := of })
  else
    (rt.1, if rb.toNat % 256 = 0 then rcflags
      else { x86Genflags rt.1 with cf := cf, of := of })

end ShiftOp

end

def rotr (r : W64) (n : Nat) : W64 := r.rotateRight n

/-- The control word of a mask. -/
structure MaskControlInfo where
  ms : BitVec 6
  mc : BitVec 6
  ds : BitVec 6

def MaskControlInfo.data (i : MaskControlInfo) : W64 := (i.ds ++ i.mc ++ i.ms).setWidth 64

/-- `maskb` on whole words, with neither extension. -/
def mask (ra rb rc : W64) : W64 :=
  let ms := (rc.extractLsb' 0 6).toNat
  let mc := (rc.extractLsb' 6 6).toNat
  let ds := (rc.extractLsb' 12 6).toNat
  let m := rotr (bitmask mc) ms
  (ra &&& ~~~m) ||| (rotr rb ds &&& m)

namespace Size

def bytes : Size → Nat
  | .w8 => 1
  | .w16 => 2
  | .w32 => 4
  | .w64 => 8

def sizeshift : Size → Nat
  | .w8 => 0
  | .w16 => 1
  | .w32 => 2
  | .w64 => 3

theorem bits_pos (size : Size) : 0 < size.bits := by cases size <;> decide

/-- `rotr<T>`: on the bytes of the size. -/
def rotr (size : Size) (r : W64) (n : Nat) : W64 :=
  ((r.setWidth size.bits).rotateRight n).setWidth 64

/-- The fields of the control word, cut to what numbers the bits of the size. -/
def maskControl (size : Size) (rc : W64) : W64 :=
  let shmask := bitmask (3 + size.sizeshift)
  rc &&& (shmask ||| (shmask <<< 6) ||| (shmask <<< 12))

end Size

/-- `exp_op_mask`. The condition tells the extension: none, with zeros, with the sign. A shift by
the whole word, as for the sign of no bits, is undefined. -/
def expOpMask (undefined : W64) (size : Size) (cond : Cond) (ra rb rc : W64) : W64 :=
  let ms := ((size.maskControl rc).extractLsb' 0 6).toNat
  let mc := ((size.maskControl rc).extractLsb' 6 6).toNat
  let ds := ((size.maskControl rc).extractLsb' 12 6).toNat
  let m := size.rotr (bitmask mc) ms
  let rd := (ra &&& ~~~m) ||| (size.rotr rb ds &&& m)
  match cond with
  | .no => rd &&& bitmask (ms + mc)
  | .c => if ms + mc = 0 then undefined else signext64 rd (ms + mc)
  | _ => rd

/-- On whole words nothing is cut. -/
theorem expOpMask_word (undefined ra rb rc : W64) :
    expOpMask undefined .w64 .o ra rb rc = mask ra rb rc := by
  have hcut : ∀ k, k + 6 ≤ 18 →
      (Size.w64.maskControl rc).extractLsb' k 6 = rc.extractLsb' k 6 := by
    intro k hk
    ext i hi
    have hbit : (0x3ffff : W64).getLsbD (k + i) = true := by
      have hlt : k + i < 18 := by omega
      rw [show (0x3ffff : W64) = (BitVec.allOnes 18).setWidth 64 from rfl,
        BitVec.getLsbD_setWidth, BitVec.getLsbD_allOnes]
      simp [hlt]
      omega
    rw [BitVec.getElem_extractLsb', BitVec.getElem_extractLsb', Size.maskControl,
      BitVec.getLsbD_and]
    change (rc.getLsbD (k + i) && (0x3ffff : W64).getLsbD (k + i)) = _
    rw [hbit, Bool.and_true]
  have hrotr : ∀ (r : W64) n, Size.w64.rotr r n = rotr r n := by
    intro r n
    rw [Size.rotr, rotr]
    change ((r.setWidth 64).rotateRight n).setWidth 64 = _
    rw [BitVec.setWidth_eq, BitVec.setWidth_eq]
  unfold expOpMask mask
  rw [hcut 0 (by decide), hcut 6 (by decide), hcut 12 (by decide)]
  simp only [hrotr]

/-! Execution -/

namespace Machine

/-- `REG_zero` is never written. -/
def data (m : Machine) (r : Reg) : W64 := if r = .zero then 0 else m.regs r

def flagsOf (m : Machine) (r : Reg) : Flags := if r = .zero then .clear else m.flags r

/-- The bytes from an address on. -/
def readBytes (memory : W64 → BitVec 8) (addr : W64) : Nat → W64
  | 0 => 0
  | n + 1 => (readBytes memory (addr + 1) n <<< 8) ||| (memory addr).setWidth 64

def load (m : Machine) (addr : W64) (size : Size) : W64 := readBytes m.memory addr size.bytes

/-- Memory with the bytes of a value from an address on. -/
def store (m : Machine) (addr : W64) (size : Size) (value : W64) : W64 → BitVec 8 := fun a =>
  if (a - addr).toNat < size.bytes then value.extractLsb' (8 * (a - addr).toNat) 8 else m.memory a

end Machine

inductive Outcome
  | result (data : W64) (flags : Flags)
  | stored (memory : W64 → BitVec 8)
  | branched (rip : W64)
  | checkFailed (data : W64)

namespace TransOp

def readRb (t : TransOp) (m : Machine) : W64 := if t.rb = .imm then t.rbimm else m.data t.rb

def readRc (t : TransOp) (m : Machine) : W64 := if t.rc = .imm then t.rcimm else m.data t.rc

def rbflags (t : TransOp) (m : Machine) : Flags := if t.rb = .imm then .clear else m.flagsOf t.rb

def rcflags (t : TransOp) (m : Machine) : Flags := if t.rc = .imm then .clear else m.flagsOf t.rc

/-- `aluop`: the operation at the size of the uop. -/
def aluop (t : TransOp) (m : Machine)
    (func : BitVec t.size.bits → BitVec t.size.bits → BitVec t.size.bits × Flags) : Outcome :=
  let rt := func ((m.data t.ra).setWidth _) ((t.readRb m).setWidth _)
  .result (x86Merge t.size (m.data t.ra) (rt.1.setWidth 64)) rt.2

/-- `none` is a trap of the host. -/
def exec (left : Leftover) (t : TransOp) (m : Machine) : Option Outcome :=
  let ra := m.data t.ra
  let rb := t.readRb m
  let rc := t.readRc m
  let raflags := m.flagsOf t.ra
  let genflags : Bool := t.setflags ≠ .none
  match t.opcode with
  | .nop => some (.result 0 .clear)
  | .mov => some (t.aluop m fun _ rb => (rb, .clear))
  | .and =>
      some (t.aluop m fun ra rb => (ra &&& rb,
        if genflags then x86Genflags (ra &&& rb) else .clear))
  | .or =>
      some (t.aluop m fun ra rb => (ra ||| rb,
        if genflags then x86Genflags (ra ||| rb) else .clear))
  | .add => some (t.aluop m fun ra rb => x86Aluop adc genflags left ra rb (t.rcflags m))
  | .adda =>
      some (t.aluop m fun ra rb =>
        let rd := ra + rb + (rc <<< t.extshift).setWidth _
        (rd, x86Genflags rd))
  | .sub => some (t.aluop m fun ra rb => x86Aluop sbb genflags left ra rb (t.rcflags m))
  | .div op => (op.eval t.size left.result ra rb rc).map fun data => .result data .clear
  | .orcc => some (.result 0 (raflags.or (t.rbflags m)))
  | .ornotcc => some (.result 0 (raflags.or (t.rbflags m).not))
  | .xorcc => some (.result 0 (raflags.xor (t.rbflags m)))
  | .collcc =>
      let flags := { raflags with cf := (t.rbflags m).cf, of := (t.rcflags m).of }
      some (.result flags.word flags)
  | .movrcc => some (.result (Flags.ofWord rb).word (Flags.ofWord rb))
  | .movccr => some (.result (t.rbflags m).word (t.rbflags m))
  | .sel =>
      let istrue := evaluateCond (t.rcflags m) (t.rcflags m) t.cond
      some (.result (x86Merge t.size ra (if istrue then rb else ra))
        (if istrue then t.rbflags m else raflags))
  | .set =>
      let istrue := evaluateCond (t.rcflags m) (t.rcflags m) t.cond
      some (.result (x86Merge t.size ra (if istrue then rb else 0))
        { Flags.clear with cf := istrue })
  | .maskb =>
      let rd := expOpMask left.result t.size t.cond ra rb rc
      let narrow : BitVec t.size.bits := rd.setWidth _
      some (.result (x86Merge t.size ra rd)
        { x86Genflags narrow with cf := raflags.cf, of := narrow.msb != raflags.of })
  | .ld =>
      some (.result (if t.internal then m.context (ra + rb) else m.load (ra + rb) t.size) .clear)
  | .ldx => some (.result (signext64 (m.load (ra + rb) t.size) t.size.bits) .clear)
  | .st => some (.stored (m.store (ra + rb) t.size rc))
  | .br => some (.branched (if evaluateCond raflags (t.rbflags m) t.cond then t.riptaken else t.ripseq))
  | .bru => some (.branched t.riptaken)
  | .jmp => some (.branched ra)
  | .chkSub =>
      let narrow (x : W64) : BitVec t.size.bits := x.setWidth _
      let flags := (withFlags (sbb (narrow ra) (narrow rb) false)).2
      some (if evaluateCond flags flags t.cond then .result 0 .clear else .checkFailed rc)
  | .bit op => some (t.aluop m op.eval)
  | .shift op simple =>
      some (t.aluop m fun ra _ => op.eval simple genflags left ra rb (t.rcflags m))

/-- The registers that stand for the one a uop is given. -/
def writes (t : TransOp) (r : Reg) : Bool :=
  r = t.rd || !t.nouserflags &&
    (t.setflags.zf && r = .zf || t.setflags.cf && r = .cf || t.setflags.of && r = .of)

def write (left : Leftover) (t : TransOp) (data : W64) (flags : Flags) (m : Machine) : Machine :=
  if t.rd = .zero then m
  else
    { m with
      regs := fun r => if t.writes r then data else m.regs r
      flags := fun r =>
        if t.writes r then if t.setflags = .none then left.flags else flags else m.flags r }

end TransOp

/-- The uops of an x86 op in their order, and where fetch goes on: behind the op, at the target
of its branch, or, where a check fails, at the sequential address of its last uop. What the uops
find left over is numbered from the last one. -/
def runUops (left : Nat → Leftover) (next : W64) : List TransOp → Machine → Option (Machine × W64)
  | [], m => some (m, next)
  | t :: ts, m =>
      match t.exec (left ts.length) m with
      | none => none
      | some (.result data flags) =>
          runUops left next ts (t.write (left ts.length) data flags m)
      | some (.stored memory) => runUops left next ts { m with memory := memory }
      | some (.branched rip) => some (m, rip)
      | some (.checkFailed data) =>
          some (t.write (left ts.length) data .clear m, (ts.getLastD t).ripseq)

/-- A fence executes as a `nop`. -/
def mf : TransOp :=
  { opcode := .nop, rd := .temp0, ra := .zero, rb := .zero, rc := .zero, size := .w8 }

def memoryFenceIfLocked (locked : Bool) : List TransOp := if locked then [mf] else []

/-! What a uop leaves of the registers -/

def Reg.isFlag : Reg → Bool
  | .zf | .cf | .of => true
  | _ => false

namespace TransOp
variable {t : TransOp} {left : Leftover} {data : W64} {flags : Flags} {m : Machine} {r : Reg}

theorem writes_eq (hr : r.isFlag = false) : t.writes r = decide (r = t.rd) := by
  rw [writes]
  cases r <;> simp_all [Reg.isFlag]

theorem write_data (hrd : t.rd ≠ .zero) (hr : r.isFlag = false) :
    (t.write left data flags m).data r = if r = t.rd then data else m.data r := by
  rw [write, if_neg hrd, Machine.data, Machine.data]
  dsimp only
  rw [writes_eq hr]
  by_cases heq : r = t.rd
  · rw [if_neg (heq ▸ hrd), decide_eq_true heq, if_pos rfl, if_pos heq]
  · rw [decide_eq_false heq, if_neg heq]
    rfl

theorem write_flags (hrd : t.rd ≠ .zero) (hset : t.setflags ≠ .none) (hr : r.isFlag = false) :
    (t.write left data flags m).flagsOf r = if r = t.rd then flags else m.flagsOf r := by
  rw [write, if_neg hrd, Machine.flagsOf, Machine.flagsOf]
  dsimp only
  rw [writes_eq hr, if_neg hset]
  by_cases heq : r = t.rd
  · rw [if_neg (heq ▸ hrd), decide_eq_true heq, if_pos rfl, if_pos heq]
  · rw [decide_eq_false heq, if_neg heq]
    rfl

theorem write_memory : (t.write left data flags m).memory = m.memory := by
  rw [write]
  split <;> rfl

end TransOp

/-- One register is set; the flags are left open. -/
structure Machine.Sets (rd : Reg) (x : W64) (m m' : Machine) : Prop where
  data : m'.data rd = x
  other : ∀ r, r.isFlag = false → r ≠ rd → m'.data r = m.data r
  memory : m'.memory = m.memory

theorem TransOp.write_sets {t : TransOp} {left : Leftover} {data : W64} {flags : Flags} {m : Machine}
    (hrd : t.rd ≠ .zero) (hflag : t.rd.isFlag = false) :
    m.Sets t.rd data (t.write left data flags m) where
  data := by rw [write_data hrd hflag, if_pos rfl]
  other := fun r hr hne => by rw [write_data hrd hr, if_neg hne]
  memory := write_memory

/-- One register is set, with its flags. -/
structure Machine.SetsWith (rd : Reg) (x : W64) (flags : Flags) (m m' : Machine) : Prop extends
    Machine.Sets rd x m m' where
  flags : m'.flagsOf rd = flags
  otherFlags : ∀ r, r.isFlag = false → r ≠ rd → m'.flagsOf r = m.flagsOf r

theorem TransOp.write_setsWith {t : TransOp} {left : Leftover} {data : W64} {flags : Flags}
    {m : Machine} (hrd : t.rd ≠ .zero) (hflag : t.rd.isFlag = false) (hset : t.setflags ≠ .none) :
    m.SetsWith t.rd data flags (t.write left data flags m) where
  toSets := write_sets hrd hflag
  flags := by rw [write_flags hrd hset hflag, if_pos rfl]
  otherFlags := fun r hr hne => by rw [write_flags hrd hset hr, if_neg hne]

/-- The flags of a uop that is not the user's stay its own. -/
theorem TransOp.write_userFlags {t : TransOp} {left : Leftover} {data : W64} {flags : Flags}
    {m : Machine} {r : Reg} (hflag : t.rd.isFlag = false) (hno : t.nouserflags = true)
    (hr : r.isFlag = true) : (t.write left data flags m).flagsOf r = m.flagsOf r := by
  have hne : r ≠ t.rd := fun h => by
    rw [h, hflag] at hr
    cases hr
  have hwrites : t.writes r = false := by
    rw [writes, hno, decide_eq_false hne]
    rfl
  rw [write]
  split
  · rfl
  · rw [Machine.flagsOf, Machine.flagsOf]
    dsimp only
    rw [hwrites]
    rfl

theorem runUops_result {left : Nat → Leftover} {next : W64} {t : TransOp} {ts : List TransOp}
    {m : Machine} {x : W64} {f : Flags} (h : t.exec (left ts.length) m = some (.result x f)) :
    runUops left next (t :: ts) m = runUops left next ts (t.write (left ts.length) x f m) := by
  rw [runUops, h]

/-- A uop whose flags are not the user's. -/
theorem runUops_ownFlags {left : Nat → Leftover} (next : W64) {t : TransOp} {ts : List TransOp}
    {m : Machine} {x : W64} {f : Flags} (h : t.exec (left ts.length) m = some (.result x f))
    (hrd : t.rd ≠ .zero) (hflag : t.rd.isFlag = false) (hset : t.setflags ≠ .none)
    (hno : t.nouserflags = true) :
    ∃ m', m.SetsWith t.rd x f m' ∧ (∀ r, r.isFlag = true → m'.flagsOf r = m.flagsOf r) ∧
      runUops left next (t :: ts) m = runUops left next ts m' :=
  ⟨_, TransOp.write_setsWith hrd hflag hset, fun _ hr => TransOp.write_userFlags hflag hno hr,
    runUops_result h⟩

/-- What no uop writes stays as it was. -/
theorem runUops_data {left : Nat → Leftover} {next rip : W64} {ts : List TransOp} {m m' : Machine}
    {r : Reg} (hr : r.isFlag = false) (hts : ∀ t ∈ ts, r ≠ t.rd)
    (hrun : runUops left next ts m = some (m', rip)) : m'.data r = m.data r := by
  have hwrite : ∀ (t : TransOp) (l : Leftover) (x : W64) (f : Flags) (m : Machine), r ≠ t.rd →
      (t.write l x f m).data r = m.data r := by
    intro t l x f m hne
    by_cases hzero : t.rd = .zero
    · rw [TransOp.write, if_pos hzero]
    · rw [TransOp.write_data hzero hr, if_neg hne]
  induction ts generalizing m with
  | nil =>
      cases hrun
      rfl
  | cons t ts ih =>
      have hne := hts t List.mem_cons_self
      have hrest := fun s hs => hts s (List.mem_cons_of_mem t hs)
      rw [runUops] at hrun
      cases hexec : t.exec (left ts.length) m with
      | none =>
          rw [hexec] at hrun
          cases hrun
      | some outcome =>
          rw [hexec] at hrun
          cases outcome with
          | result x f => exact (ih hrest hrun).trans (hwrite t _ x f m hne)
          | stored memory => exact ih (m := { m with memory := memory }) hrest hrun
          | branched target =>
              cases hrun
              rfl
          | checkFailed x =>
              cases hrun
              exact hwrite t _ x _ m hne

theorem TransOp.write_flagsOf {t : TransOp} {r : Reg} (h : t.writes r = false) (left : Leftover)
    (x : W64) (f : Flags) (m : Machine) : (t.write left x f m).flagsOf r = m.flagsOf r := by
  rw [write]
  split
  · rfl
  · rw [Machine.flagsOf, Machine.flagsOf]
    dsimp only
    rw [h]
    rfl

theorem TransOp.write_flagsOf_self {t : TransOp} {r : Reg} (h : t.writes r = true)
    (hrd : t.rd ≠ .zero) (hset : t.setflags ≠ .none) (hr : r ≠ .zero) (left : Leftover) (x : W64)
    (f : Flags) (m : Machine) : (t.write left x f m).flagsOf r = f := by
  rw [write, if_neg hrd, Machine.flagsOf, if_neg hr]
  dsimp only
  rw [h, if_pos rfl, if_neg hset]

/-- Flags that no uop writes stay. -/
theorem runUops_flagsOf {r : Reg} {left : Nat → Leftover} {next next' : W64} {ts : List TransOp}
    {m m' : Machine} (h : ∀ t ∈ ts, t.writes r = false)
    (hrun : runUops left next ts m = some (m', next')) : m'.flagsOf r = m.flagsOf r := by
  induction ts generalizing m with
  | nil =>
      cases hrun
      rfl
  | cons t ts ih =>
      have ht := h t List.mem_cons_self
      have hrest := fun t' ht' => h t' (List.mem_cons_of_mem t ht')
      rw [runUops] at hrun
      cases hexec : t.exec (left ts.length) m with
      | none =>
          rw [hexec] at hrun
          cases hrun
      | some outcome =>
          rw [hexec] at hrun
          cases outcome with
          | result x f => exact (ih hrest hrun).trans (t.write_flagsOf ht _ _ _ _)
          | stored memory => exact ih (m := { m with memory := memory }) hrest hrun
          | branched rip =>
              cases hrun
              rfl
          | checkFailed x =>
              cases hrun
              exact t.write_flagsOf ht _ _ _ _

/-- A uop that sets no flags, and whose register is none. -/
structure TransOp.SetsNone (t : TransOp) : Prop where
  setflags : t.setflags = .none
  rd : t.rd.isFlag = false

theorem TransOp.SetsNone.writes {t : TransOp} (h : t.SetsNone) {r : Reg} (hr : r.isFlag = true) :
    t.writes r = false := by
  have hne : r ≠ t.rd := fun heq => by
    rw [heq, h.rd] at hr
    cases hr
  rw [TransOp.writes, h.setflags, decide_eq_false hne]
  simp [SetFlags.none]

end FeS2.Decoder
