import FeS2.Decoder.DivisionUops
import FeS2.Decoder.EffectiveAddress

/-!
`alu_reg_or_mem`: the uops of an operation on registers and memory. A high byte is taken out of its
register before the operation and put back behind it; a memory operand is loaded before, and the
result is stored behind.
-/

namespace FeS2.Decoder

/-! Operands -/

/-- A register as an operand names it: an entry of `reginfo`. -/
inductive GprName
  | low (r : Gpr) (size : Size)
  | high (r : HighByte)
  deriving DecidableEq

namespace GprName

/-- `arch_pseudo_reg_to_arch_reg`. -/
def archReg : GprName → Gpr
  | .low r _ => r
  | .high r => r.archReg

def size : GprName → Size
  | .low _ size => size
  | .high _ => .w8

def hibyte : GprName → Bool
  | .low _ _ => false
  | .high _ => true

end GprName

inductive RegMem
  | reg (r : GprName)
  | mem (a : MemOperand) (size : Size)
  deriving DecidableEq

def RegMem.size : RegMem → Size
  | .reg r => r.size
  | .mem _ size => size

inductive AluOperand
  | reg (r : GprName)
  | mem (a : MemOperand) (size : Size)
  | imm (v : W64)
  deriving DecidableEq

namespace AluOperand

/-- Where a uop reads an operand that is not in memory, and the immediate. -/
def source (temp : Reg) : AluOperand → Reg × W64
  | .reg r => (if r.hibyte then temp else .gpr r.archReg, 0)
  | .mem _ _ => (temp, 0)
  | .imm v => (.imm, v)

end AluOperand

/-! The uops -/

/-- `MaskControlInfo(0, 8, 8)`: the second byte of a register. -/
def extractByte (rd rb : Reg) : TransOp :=
  { opcode := .maskb, rd := rd, ra := .zero, rb := rb, rc := .imm, size := .w64,
    rcimm := MaskControlInfo.data { ms := 0, mc := 8, ds := 8 } }

def insertByte (rd rb : Reg) : TransOp := maskInto rd rb { ms := 56, mc := 8, ds := 56 }

/-- The extraction of an operand that is a high byte. -/
def extractOperand (temp : Reg) : AluOperand → List TransOp
  | .reg r => if r.hibyte then [extractByte temp (.gpr r.archReg)] else []
  | .mem _ _ => []
  | .imm _ => []

namespace MemOperand

def storeOp (c : DecodeContext) (size : Size) (a : MemOperand) (srcreg : Reg) : TransOp :=
  { opcode := .st, rd := .mem, ra := (a.addressGenerate c size).2.1, rb := .imm, rc := srcreg,
    size := size, rbimm := (a.addressGenerate c size).2.2 }

/-- `result_store`. -/
def resultStore (c : DecodeContext) (size : Size) (a : MemOperand) (srcreg : Reg) :
    List TransOp :=
  (a.addressGenerate c size).1 ++ [a.storeOp c size srcreg]

end MemOperand

/-- The uop of the operation, with those before and behind it. -/
structure AluUops where
  before : List TransOp
  op : TransOp
  after : List TransOp

def AluUops.uops (u : AluUops) : List TransOp := u.before ++ u.op :: u.after

/-- `alu_reg_or_mem`. -/
def aluRegOrMem (c : DecodeContext) (opcode : Opcode) (rd : RegMem) (ra : AluOperand)
    (setflags : SetFlags) (rcreg : Reg) (flagsonly isnegop : Bool) (raRbImmForm : Option W64) :
    AluUops :=
  let op (rd ra : Reg) (rb : Reg × W64) (rc : Reg) (size : Size) : TransOp :=
    { opcode := opcode, rd := rd, ra := ra, rb := rb.1, rc := rc, size := size, rbimm := rb.2,
      setflags := setflags }
  match rd with
  | .reg d =>
      let destreg : Reg := .gpr d.archReg
      let rareg := if d.hibyte then .temp2 else destreg
      let result := if d.hibyte then .temp2 else destreg
      let keep : Reg := if 2 ≤ d.size.sizeshift then .zero else destreg
      let after :=
        if flagsonly || raRbImmForm.isSome then []
        else if d.hibyte then [insertByte destreg .temp2]
        else []
      match ra with
      | .mem a size =>
          { before := a.operandLoad c size .ld .temp0 ++ extractOperand .temp2 (.reg d)
            op :=
              if flagsonly then op .temp0 rareg (.temp0, 0) rcreg d.size
              else
                match raRbImmForm with
                | some imm => op destreg .temp0 (.imm, imm) keep d.size
                | none => op result rareg (.temp0, 0) rcreg d.size
            after := after }
      | ra =>
          let srcreg :=
            match ra with
            | .reg r => .gpr r.archReg
            | _ => .imm
          { before := extractOperand .temp2 (.reg d) ++ extractOperand .temp3 ra
            op :=
              if flagsonly then op .temp0 rareg (ra.source .temp3) rcreg d.size
              else
                match raRbImmForm with
                | some imm => op destreg srcreg (.imm, imm) keep d.size
                | none =>
                    if isnegop then op result .zero (rareg, (ra.source .temp3).2) rcreg d.size
                    else op result rareg (ra.source .temp3) rcreg d.size
            after := after }
  | .mem a size =>
      let after := if flagsonly then [] else a.resultStore c size .temp0
      match ra with
      | .mem _ _ =>
          { before := a.operandLoad c size .ld .temp0
            op := op .temp0 (if isnegop then .zero else .temp0) (.temp0, 0) rcreg size
            after := after }
      | ra =>
          { before := a.operandLoad c size .ld .temp0 ++ extractOperand .temp2 ra
            op := op .temp0 .temp0 (ra.source .temp2) rcreg size
            after := after }

/-! Uops that go on to the next one -/

def Opcode.straight : Opcode → Bool
  | .div _ | .br | .bru | .jmp | .chkSub => false
  | _ => true

theorem TransOp.exec_straight {t : TransOp} (h : t.opcode.straight = true) (left : Leftover)
    (m : Machine) : (∃ x f, t.exec left m = some (.result x f)) ∨
      ∃ memory, t.exec left m = some (.stored memory) := by
  rw [exec]
  cases hop : t.opcode with
  | div op => rw [hop] at h; cases h
  | br | bru | jmp | chkSub => rw [hop] at h; cases h
  | st => exact .inr ⟨_, rfl⟩
  | nop | mov | and | or | add | adda | sub | orcc | ornotcc | xorcc | collcc | movrcc | movccr
  | sel | set | maskb | ld | ldx | bit | shift => exact .inl ⟨_, _, rfl⟩

theorem TransOp.write_data_ne {t : TransOp} {r : Reg} (hr : r.isFlag = false) (hne : r ≠ t.rd)
    (left : Leftover) (x : W64) (f : Flags) (m : Machine) :
    (t.write left x f m).data r = m.data r := by
  by_cases hzero : t.rd = .zero
  · rw [write, if_pos hzero]
  · rw [write_data hzero hr, if_neg hne]

theorem TransOp.write_context {t : TransOp} {left : Leftover} {x : W64} {f : Flags} {m : Machine} :
    (t.write left x f m).context = m.context := by
  rw [write]
  split <;> rfl

/-- What straight uops leave alone. -/
structure Machine.KeepsBut (ts : List TransOp) (m m' : Machine) : Prop where
  data : ∀ r, r.isFlag = false → (∀ t ∈ ts, r ≠ t.rd) → m'.data r = m.data r
  flags : ∀ r, (∀ t ∈ ts, t.writes r = false) → m'.flagsOf r = m.flagsOf r
  context : m'.context = m.context

/-- The uops go on to those behind them, on the machine `m'`. -/
def Reaches (left : Nat → Leftover) (us ts : List TransOp) (m m' : Machine) : Prop :=
  ∀ next, runUops (fun k => left (k + us.length)) next ts m = some (m', next)

namespace Reaches
variable {left : Nat → Leftover} {us ts ts' : List TransOp} {t : TransOp} {m m1 m' : Machine}

theorem unique (h : Reaches left us ts m m1) (h' : Reaches left us ts m m') : m1 = m' :=
  congrArg Prod.fst (Option.some.inj ((h 0).symm.trans (h' 0)))

theorem nil (left : Nat → Leftover) (us : List TransOp) (m : Machine) : Reaches left us [] m m :=
  fun _ => rfl

theorem runs (h : Reaches left us ts m m') : Runs left us ts m m' := by
  induction ts generalizing m with
  | nil =>
      cases h 0
      exact .nil left us m'
  | cons t ts ih =>
      intro next
      have hlen : left ((ts ++ us).length) = left (ts.length + us.length) := by
        rw [List.length_append]
      rw [List.cons_append, runUops, hlen]
      have h0 := h 0
      have h1 := h 1
      rw [runUops] at h0 h1
      cases hexec : t.exec (left (ts.length + us.length)) m with
      | none =>
          rw [hexec] at h0
          cases h0
      | some outcome =>
          rw [hexec] at h0 h1
          cases outcome with
          | result x f =>
              refine ih (fun rip => ?_) next
              have hrip := h rip
              rw [runUops, hexec] at hrip
              exact hrip
          | stored memory =>
              refine ih (m := { m with memory := memory }) (fun rip => ?_) next
              have hrip := h rip
              rw [runUops, hexec] at hrip
              exact hrip
          | branched rip =>
              -- a branch does not depend on the next op
              have heq := (Option.some.inj h0).symm.trans (Option.some.inj h1)
              cases congrArg Prod.snd heq
          | checkFailed x =>
              have heq := (Option.some.inj h0).symm.trans (Option.some.inj h1)
              cases congrArg Prod.snd heq

theorem of_runs (h : Runs (fun k => left (k + us.length)) [] ts m m') :
    Reaches left us ts m m' := by
  intro next
  have hnext := h next
  rw [List.append_nil] at hnext
  exact hnext

theorem append (h : Reaches left (ts' ++ us) ts m m1) (h' : Reaches left us ts' m1 m') :
    Reaches left us (ts ++ ts') m m' := by
  have hshift : Reaches (fun k => left (k + us.length)) ts' ts m m1 := by
    intro next
    have hnext := h next
    rw [List.length_append] at hnext
    simp only [Nat.add_assoc]
    exact hnext
  intro next
  exact (hshift.runs next).trans (h' next)

theorem cons (h : Reaches left (ts ++ us) [t] m m1) (h' : Reaches left us ts m1 m') :
    Reaches left us (t :: ts) m m' := h.append h'

theorem result {x : W64} {f : Flags} (h : t.exec (left us.length) m = some (.result x f)) :
    Reaches left us [t] m (t.write (left us.length) x f m) := by
  intro next
  have hlen : left (([] : List TransOp).length + us.length) = left us.length := by
    rw [List.length_nil, Nat.zero_add]
  rw [runUops, hlen, h]
  rfl

theorem stored {memory : W64 → BitVec 8}
    (h : t.exec (left us.length) m = some (.stored memory)) :
    Reaches left us [t] m { m with memory := memory } := by
  intro next
  have hlen : left (([] : List TransOp).length + us.length) = left us.length := by
    rw [List.length_nil, Nat.zero_add]
  rw [runUops, hlen, h]
  rfl

end Reaches

theorem reaches_straight {ts : List TransOp} (h : ∀ t ∈ ts, t.opcode.straight = true)
    (left : Nat → Leftover) (us : List TransOp) (m : Machine) :
    ∃ m', m.KeepsBut ts m' ∧ Reaches left us ts m m' := by
  induction ts generalizing m with
  | nil => exact ⟨m, ⟨fun _ _ _ => rfl, fun _ _ => rfl, rfl⟩, .nil left us m⟩
  | cons t ts ih =>
      have hrest := fun t' ht' => h t' (List.mem_cons_of_mem t ht')
      have hone : ∃ m1, m.KeepsBut [t] m1 ∧ Reaches left (ts ++ us) [t] m m1 := by
        cases t.exec_straight (h t List.mem_cons_self) (left (ts ++ us).length) m with
        | inl hres =>
            obtain ⟨x, f, hexec⟩ := hres
            refine ⟨_, ⟨fun r hr hne => ?_, fun r hw => ?_, t.write_context⟩, .result hexec⟩
            · exact t.write_data_ne hr (hne t List.mem_cons_self) _ _ _ _
            · exact t.write_flagsOf (hw t List.mem_cons_self) _ _ _ _
        | inr hst =>
            obtain ⟨memory, hexec⟩ := hst
            exact ⟨{ m with memory := memory }, ⟨fun _ _ _ => rfl, fun _ _ => rfl, rfl⟩,
              .stored hexec⟩
      obtain ⟨m1, hkeeps1, hrun1⟩ := hone
      obtain ⟨m', hkeeps, hrun⟩ := ih hrest m1
      refine ⟨m', ⟨fun r hr hne => ?_, fun r hw => ?_, hkeeps.context.trans hkeeps1.context⟩,
        hrun1.cons hrun⟩
      · rw [hkeeps.data r hr fun t' ht' => hne t' (List.mem_cons_of_mem t ht'),
          hkeeps1.data r hr (List.forall_mem_singleton.mpr (hne t List.mem_cons_self))]
      · rw [hkeeps.flags r fun t' ht' => hw t' (List.mem_cons_of_mem t ht'),
          hkeeps1.flags r (List.forall_mem_singleton.mpr (hw t List.mem_cons_self))]

/-- A uop around an operation. -/
structure TransOp.Around (t : TransOp) : Prop extends TransOp.SetsNone t where
  straight : t.opcode.straight = true
  temp5 : t.rd ≠ .temp5

namespace MemOperand
variable (c : DecodeContext) (size : Size) (a : MemOperand)

theorem around_address : ∀ t ∈ (a.addressGenerate c size).1, t.Around := by
  intro t ht
  have haddress := a.addressGenerate_addresses c size t ht
  refine ⟨setsNone_addressGenerate c size a t ht, ?_, ?_⟩
  · rcases haddress.opcode with hop | hop | hop
    · rw [hop]; rfl
    · rw [hop]; rfl
    · rw [hop]; rfl
  · cases haddress.rd with
    | inl hrd => rw [hrd]; rintro ⟨⟩
    | inr hrd => rw [hrd]; rintro ⟨⟩

theorem around_load {destreg : Reg} (hflag : destreg.isFlag = false) (h5 : destreg ≠ .temp5) :
    ∀ t ∈ a.operandLoad c size .ld destreg, t.Around :=
  List.forall_mem_append.mpr ⟨a.around_address c size,
    List.forall_mem_singleton.mpr ⟨⟨rfl, hflag⟩, rfl, h5⟩⟩

theorem around_store (srcreg : Reg) : ∀ t ∈ a.resultStore c size srcreg, t.Around :=
  List.forall_mem_append.mpr ⟨a.around_address c size,
    List.forall_mem_singleton.mpr ⟨⟨rfl, rfl⟩, rfl, by rintro ⟨⟩⟩⟩

end MemOperand

theorem around_extractOperand {temp : Reg} (hflag : temp.isFlag = false) (h5 : temp ≠ .temp5)
    (x : AluOperand) : ∀ t ∈ extractOperand temp x, t.Around := by
  cases x with
  | reg r =>
      rw [extractOperand]
      split
      · exact List.forall_mem_singleton.mpr ⟨⟨rfl, hflag⟩, rfl, h5⟩
      · exact fun _ => nofun
  | mem a size => exact fun _ => nofun
  | imm v => exact fun _ => nofun

section
variable (c : DecodeContext) (opcode : Opcode) (rd : RegMem) (ra : AluOperand) (setflags : SetFlags)
  (rcreg : Reg) (flagsonly isnegop : Bool) (raRbImmForm : Option W64)

theorem around_before : ∀ t ∈
    (aluRegOrMem c opcode rd ra setflags rcreg flagsonly isnegop raRbImmForm).before,
    t.Around := by
  have hload : ∀ (a : MemOperand) size, ∀ t ∈ a.operandLoad c size .ld .temp0, t.Around :=
    fun a size => a.around_load c size rfl (by rintro ⟨⟩)
  have h2 : ∀ x, ∀ t ∈ extractOperand .temp2 x, t.Around :=
    around_extractOperand rfl (by rintro ⟨⟩)
  have h3 : ∀ x, ∀ t ∈ extractOperand .temp3 x, t.Around :=
    around_extractOperand rfl (by rintro ⟨⟩)
  cases rd with
  | reg d =>
      cases ra with
      | mem a size => exact List.forall_mem_append.mpr ⟨hload a size, h2 _⟩
      | reg r => exact List.forall_mem_append.mpr ⟨h2 _, h3 _⟩
      | imm v => exact List.forall_mem_append.mpr ⟨h2 _, h3 _⟩
  | mem a size =>
      cases ra with
      | mem a' size' => exact hload a size
      | reg r => exact List.forall_mem_append.mpr ⟨hload a size, h2 _⟩
      | imm v => exact List.forall_mem_append.mpr ⟨hload a size, h2 _⟩

theorem around_after : ∀ t ∈
    (aluRegOrMem c opcode rd ra setflags rcreg flagsonly isnegop raRbImmForm).after,
    t.Around := by
  cases rd with
  | reg d =>
      have hinsert : ∀ t ∈ (if flagsonly || raRbImmForm.isSome then []
          else if d.hibyte then [insertByte (.gpr d.archReg) .temp2] else []), t.Around := by
        split
        · exact fun _ => nofun
        · split
          · exact List.forall_mem_singleton.mpr ⟨⟨rfl, rfl⟩, rfl, by rintro ⟨⟩⟩
          · exact fun _ => nofun
      cases ra with
      | mem a size => exact hinsert
      | reg r => exact hinsert
      | imm v => exact hinsert
  | mem a size =>
      have hstore : ∀ t ∈ (if flagsonly then [] else a.resultStore c size .temp0), t.Around := by
        split
        · exact fun _ => nofun
        · exact a.around_store c size .temp0
      cases ra with
      | mem a' size' => exact hstore
      | reg r => exact hstore
      | imm v => exact hstore

end

/-- The operation of an operand that the uop writes. -/
structure TransOp.Operates (t : TransOp) (opcode : Opcode) (setflags : SetFlags) (rcreg : Reg) :
    Prop where
  opcode : t.opcode = opcode
  setflags : t.setflags = setflags
  userFlags : t.nouserflags = false
  rc : t.rc = rcreg
  rd : t.rd ≠ .zero ∧ t.rd.isFlag = false

theorem operates_op (c : DecodeContext) (opcode : Opcode) (rd : RegMem) (ra : AluOperand)
    (setflags : SetFlags) (rcreg : Reg) (isnegop : Bool) :
    (aluRegOrMem c opcode rd ra setflags rcreg false isnegop none).op.Operates opcode setflags
      rcreg := by
  have hrd : ∀ d : GprName, (if d.hibyte then Reg.temp2 else .gpr d.archReg) ≠ .zero ∧
      (if d.hibyte then Reg.temp2 else .gpr d.archReg).isFlag = false := by
    intro d
    split
    · exact ⟨by rintro ⟨⟩, rfl⟩
    · exact ⟨by rintro ⟨⟩, rfl⟩
  cases rd with
  | reg d =>
      cases ra with
      | mem a size => exact ⟨rfl, rfl, rfl, rfl, hrd d⟩
      | reg r =>
          cases isnegop with
          | false => exact ⟨rfl, rfl, rfl, rfl, hrd d⟩
          | true => exact ⟨rfl, rfl, rfl, rfl, hrd d⟩
      | imm v =>
          cases isnegop with
          | false => exact ⟨rfl, rfl, rfl, rfl, hrd d⟩
          | true => exact ⟨rfl, rfl, rfl, rfl, hrd d⟩
  | mem a size =>
      cases ra with
      | mem a' size' => exact ⟨rfl, rfl, rfl, rfl, by rintro ⟨⟩, rfl⟩
      | reg r => exact ⟨rfl, rfl, rfl, rfl, by rintro ⟨⟩, rfl⟩
      | imm v => exact ⟨rfl, rfl, rfl, rfl, by rintro ⟨⟩, rfl⟩

end FeS2.Decoder
