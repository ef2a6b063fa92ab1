import FeS2.Decoder.Extension
import FeS2.Decoder.FlagGroups

/-!
The x86 ops that read flags, and those that only change flags. A reader names one group, two
groups, or a word that the groups are collected in. `pushf` takes the word of the first group for
all of them, and `cmc` reads the flags of an immediate, which has none.
-/

namespace FeS2.Decoder

/-! The decoder -/

/-- `emitop` notes whether the last uop that sets flags sets all of them; at the start of an op it
is taken to have. -/
def lastFlagsUpdateWasAtomic (transbuf : List TransOp) : Bool :=
  transbuf.foldl
    (fun atomic t => if t.setflags = .none then atomic else decide (t.setflags = .defaultAlu)) true

structure CondCodeToFlagRegs where
  req2 : Bool
  ra : Reg
  rb : Reg

def condCodeToFlagRegs : Cond → CondCodeToFlagRegs
  | .o | .no => { req2 := false, ra := .of, rb := .of }
  | .c | .nc => { req2 := false, ra := .cf, rb := .cf }
  | .e | .ne | .s | .ns | .p | .np => { req2 := false, ra := .zf, rb := .zf }
  | .be | .nbe => { req2 := true, ra := .zf, rb := .cf }
  | .l | .nl | .le | .nle => { req2 := true, ra := .zf, rb := .of }

/-- The flags of a condition, collected where it takes two groups. -/
def collectCond (cond : Cond) : List TransOp :=
  if (condCodeToFlagRegs cond).req2 then [collcc .temp0] else []

def condreg (cond : Cond) : Reg :=
  let cctfr := condCodeToFlagRegs cond
  if cctfr.req2 then .temp0 else if cctfr.ra ≠ .zero then cctfr.ra else cctfr.rb

inductive SetDest
  | reg (r : Gpr)
  | mem (a : MemOperand)

inductive FlagReader
  | jcc (cond : Cond) (riptaken : W64)
  | setcc (cond : Cond) (rd : SetDest)
  | cmovcc (cond : Cond) (rd : Gpr) (size : Size) (ra : RegMem)
  /-- `adc`, or `sbb`; with the prefix `lock`. -/
  | adc (sub locked : Bool) (rd : RegMem) (ra : AluOperand)
  /-- `rcl`, or `rcr`. -/
  | rcl (right : Bool) (rd : RegMem) (count : ShiftBy)
  | lahf
  /-- The context has the flags that are not renamed at `internalEflags`. -/
  | pushf (size : Size) (internalEflags : W64)

/-- An operand in memory has fences around its uops. -/
def fenceMem (rd : RegMem) (locked : Bool) : List TransOp :=
  match rd with
  | .reg _ => []
  | .mem _ _ => memoryFenceIfLocked locked

namespace FlagReader

/-- The uop that reads the flags, with those before and behind it. -/
def parts (c : DecodeContext) : FlagReader → AluUops
  | jcc cond riptaken =>
      { before := if lastFlagsUpdateWasAtomic [] then [] else [collcc .temp0]
        op :=
          { opcode := .br, rd := .rip, ra := (condCodeToFlagRegs cond).ra,
            rb := (condCodeToFlagRegs cond).rb, rc := .zero, size := .w64, cond := cond,
            riptaken := riptaken, ripseq := c.rip }
        after := [] }
  | setcc cond rd =>
      let op (r ra : Reg) : TransOp :=
        { opcode := .set, rd := r, ra := ra, rb := .imm, rc := condreg cond, size := .w8,
          rbimm := 1, cond := cond }
      match rd with
      | .reg r => { before := collectCond cond, op := op (.gpr r) (.gpr r), after := [] }
      | .mem a =>
          { before := collectCond cond
            op := op .temp7 .zero
            after := a.resultStore c .w8 .temp7 }
  | cmovcc cond rd size ra =>
      let op (srcreg : Reg) : TransOp :=
        { opcode := .sel, rd := .gpr rd, ra := .gpr rd, rb := srcreg, rc := condreg cond,
          size := size, cond := cond }
      match ra with
      | .reg r => { before := collectCond cond, op := op (.gpr r.archReg), after := [] }
      | .mem a asize =>
          { before := a.operandLoad c asize .ld .temp7 ++ collectCond cond
            op := op .temp7
            after := [] }
  | adc sub locked rd ra =>
      let alu := aluRegOrMem c (if sub then .sub else .add) rd ra .defaultAlu .cf false false none
      { alu with
        before := fenceMem rd locked ++ alu.before
        after := alu.after ++ fenceMem rd locked }
  | rcl right rd count =>
      ShiftInsn.parts { op := if right then .rotcr else .rotcl, rd := rd, count := count } c
  | lahf =>
      { before := [collcc .temp0], op := insertByte (.gpr .rax) .temp0, after := [] }
  | pushf size internalEflags =>
      { before :=
          (if lastFlagsUpdateWasAtomic [] then
            [{ opcode := .movccr, rd := .temp0, ra := .zero, rb := .zf, rc := .zero,
               size := .w64 }]
          else
            [collcc .temp0,
              { opcode := .movccr, rd := .temp0, ra := .zero, rb := .temp0, rc := .zero,
                size := .w64 }]) ++
          [{ opcode := .ld, rd := .temp1, ra := .ctx, rb := .imm, rc := .zero, size := .w32,
             rbimm := internalEflags, internal := true }]
        op :=
          { opcode := .or, rd := .temp1, ra := .temp1, rb := .temp0, rc := .zero, size := .w32 }
        after :=
          [{ opcode := .sub, rd := .gpr .rsp, ra := .gpr .rsp, rb := .imm, rc := .zero,
             size := .w64, rbimm := BitVec.ofNat 64 size.bytes },
            { opcode := .st, rd := .mem, ra := .gpr .rsp, rb := .imm, rc := .temp1,
              size := size }] }

end FlagReader

inductive FlagInsn
  | reader (r : FlagReader)
  | cmc
  | clc
  | stc
  | sahf
  /-- Any uops; the names of flags are no destinations. -/
  | other (ts : { ts : List TransOp // ∀ t ∈ ts, t.rd.isFlag = false })

namespace FlagInsn

/-- The word has the flag `FLAG_CF` only. -/
def movrccCf (imm : W64) : TransOp :=
  { opcode := .movrcc, rd := .temp0, ra := .zero, rb := .imm, rc := .zero, size := .w64,
    rbimm := imm, setflags := { SetFlags.none with cf := true } }

def uops (c : DecodeContext) : FlagInsn → List TransOp
  | reader r => (r.parts c).uops
  | cmc =>
      [{ opcode := .xorcc, rd := .temp0, ra := .cf, rb := .imm, rc := .zero, size := .w64,
         rbimm := 1, setflags := { SetFlags.none with cf := true } }]
  | clc => [movrccCf 0]
  | stc => [movrccCf 1]
  | sahf =>
      [extractByte .temp0 (.gpr .rax),
        { opcode := .movrcc, rd := .temp0, ra := .zero, rb := .temp0, rc := .zero, size := .w64,
          setflags := { zf := true, cf := true, of := false } }]
  | other ts => ts.1

end FlagInsn

/-! What x86 says -/

/-- The ops that also write flags, with the uop that reads them. -/
def FlagReader.writes : FlagReader → Bool
  | .adc _ _ _ _ | .rcl _ _ _ => true
  | _ => false

def FlagReader.branches : FlagReader → Bool
  | .jcc _ _ => true
  | _ => false

/-- The reader finds the flags of the architecture. -/
def FlagReader.UsesRight (c : DecodeContext) (arch : Flags) (m : Machine) (r : FlagReader) :
    Prop :=
  let op := (r.parts c).op
  match r with
  | .jcc cond _ =>
      evaluateCond (m.flagsOf op.ra) (op.rbflags m) cond = evaluateCond arch arch cond
  | .setcc cond _ | .cmovcc cond _ _ _ =>
      evaluateCond (op.rcflags m) (op.rcflags m) cond = evaluateCond arch arch cond
  | .adc _ _ _ _ | .rcl _ _ _ => (op.rcflags m).cf = arch.cf
  | .lahf => { Flags.ofWord (op.readRb m) with of := arch.of } = arch
  | .pushf _ _ => Flags.ofWord (op.readRb m) = arch

/-- The groups that an op writes, and what it leaves there. -/
def FlagInsn.x86Writes (c : DecodeContext) (left : Nat → Leftover) (m : Machine) (arch : Flags)
    (i : FlagInsn) : List FlagWrite :=
  let carry (cf : Bool) : FlagWrite :=
    { groups := { SetFlags.none with cf := true }, flags := { Flags.clear with cf := cf } }
  match i with
  | .reader r => if r.writes then flagWrites left (i.uops c) m else []
  | .other ts => flagWrites left ts.1 m
  | .cmc => [carry (!arch.cf)]
  | .clc => [carry false]
  | .stc => [carry true]
  | .sahf =>
      [{ groups := { zf := true, cf := true, of := false }
         flags := Flags.ofWord (m.data (.gpr .rax) >>> 8) }]

/-! Runs -/

/-- The groups as the architecture has them are those of the youngest writers. -/
structure FlagState where
  file : RenamedMachine
  history : List FlagWrite

structure FlagEvent where
  c : DecodeContext
  left : Nat → Leftover
  insn : FlagInsn

namespace FlagState

/-- One op after the other; `none` is a trap of the host. -/
def step (s : FlagState) (e : FlagEvent) (init : Flags) : Option FlagState :=
  (s.file.run e.left e.c.rip (e.insn.uops e.c)).map fun r =>
    { file := r.1
      history := s.history ++
        e.insn.x86Writes e.c e.left s.file.machine (archFlags init s.history) }

end FlagState

/-! What the uops leave of the flags -/

theorem exec_collcc (rd : Reg) (left : Leftover) (m : Machine) :
    (collcc rd).exec left m = some (.result m.userFlags.word m.userFlags) := rfl

/-- Collecting changes no flag. -/
theorem runUops_keepsFlags {left : Nat → Leftover} {next rip : W64} {ts : List TransOp}
    {m m' : Machine} (h : ∀ t ∈ ts, t.SetsNone ∨ t = collcc .temp0)
    (hrun : runUops left next ts m = some (m', rip)) : m'.userFlags = m.userFlags := by
  have hnone : ∀ t : TransOp, t.SetsNone → ∀ l x f m,
      (t.write l x f m).userFlags = m.userFlags := by
    intro t ht l x f m
    have hgroups : t.userGroups = .none := by
      rw [TransOp.userGroups, ht.setflags, ite_self]
    rw [TransOp.write_groups ht.rd, hgroups, SetFlags.merge_none]
  have hcollect : ∀ l m, ((collcc .temp0).write l m.userFlags.word m.userFlags m).userFlags =
      m.userFlags := fun l m => by
    rw [TransOp.write_groups rfl, SetFlags.merge_self]
  induction ts generalizing m with
  | nil =>
      cases hrun
      rfl
  | cons t ts ih =>
      have hrest := fun t' ht' => h t' (List.mem_cons_of_mem t ht')
      rw [runUops] at hrun
      cases h t List.mem_cons_self with
      | inl ht =>
          cases hexec : t.exec (left ts.length) m with
          | none =>
              rw [hexec] at hrun
              cases hrun
          | some outcome =>
              rw [hexec] at hrun
              cases outcome with
              | result x f => exact (ih hrest hrun).trans (hnone t ht _ _ _ _)
              | stored memory => exact ih (m := { m with memory := memory }) hrest hrun
              | branched target =>
                  cases hrun
                  rfl
              | checkFailed x =>
                  cases hrun
                  exact hnone t ht _ _ _ _
      | inr ht =>
          subst ht
          rw [exec_collcc] at hrun
          exact (ih hrest hrun).trans (hcollect _ _)

theorem reaches_collcc (left : Nat → Leftover) (us : List TransOp) (m : Machine) :
    ∃ m1, m1.flagsOf .temp0 = m.userFlags ∧ m1.data .temp0 = m.userFlags.word ∧
      Reaches left us [collcc .temp0] m m1 := by
  let t := collcc .temp0
  have hset : m.SetsWith .temp0 m.userFlags.word m.userFlags
      (t.write (left us.length) m.userFlags.word m.userFlags m) :=
    t.write_setsWith (by rintro ⟨⟩) rfl SetFlags.defaultAlu_ne
  exact ⟨_, hset.flags, hset.data, .result (exec_collcc _ _ _)⟩

theorem reaches_collectOwn (left : Nat → Leftover) (us : List TransOp) (m : Machine) :
    ∃ m1, m1.flagsOf .temp5 = m.userFlags ∧
      Reaches left us [{ collcc .temp5 with nouserflags := true }] m m1 := by
  let t : TransOp := { collcc .temp5 with nouserflags := true }
  have hset : m.SetsWith .temp5 m.userFlags.word m.userFlags
      (t.write (left us.length) m.userFlags.word m.userFlags m) :=
    t.write_setsWith (by rintro ⟨⟩) rfl SetFlags.defaultAlu_ne
  have hexec : t.exec (left us.length) m = some (.result m.userFlags.word m.userFlags) := rfl
  exact ⟨_, hset.flags, .result hexec⟩

/-- The register of a condition has the flags that it takes. -/
theorem reaches_collectCond (cond : Cond) (left : Nat → Leftover) (us : List TransOp)
    (m : Machine) :
    ∃ m1, evaluateCond (m1.flagsOf (condreg cond)) (m1.flagsOf (condreg cond)) cond =
        evaluateCond m.userFlags m.userFlags cond ∧
      Reaches left us (collectCond cond) m m1 := by
  have ⟨m1, hflags, _, hreach⟩ := reaches_collcc left us m
  have hsame : evaluateCond (m1.flagsOf .temp0) (m1.flagsOf .temp0) cond =
      evaluateCond m.userFlags m.userFlags cond := by rw [hflags]
  cases cond with
  | o | no | c | nc | e | ne | s | ns | p | np => exact ⟨m, rfl, .nil left us m⟩
  | be | nbe | l | nl | le | nle => exact ⟨m1, hsame, hreach⟩

/-- Uops around an operation leave the flags, and those of `temp5`. -/
theorem reaches_around {ts : List TransOp} (h : ∀ t ∈ ts, t.Around) (left : Nat → Leftover)
    (us : List TransOp) (m : Machine) :
    ∃ m1, m1.userFlags = m.userFlags ∧ m1.flagsOf .temp5 = m.flagsOf .temp5 ∧
      Reaches left us ts m m1 := by
  have ⟨m1, hkeeps, hreach⟩ := reaches_straight (fun t ht => (h t ht).straight) left us m
  have hflag : ∀ r : Reg, r.isFlag = true → m1.flagsOf r = m.flagsOf r := fun r hr =>
    hkeeps.flags r fun t ht => (h t ht).writes hr
  have htemp : m1.flagsOf .temp5 = m.flagsOf .temp5 := by
    refine hkeeps.flags _ fun t ht => ?_
    rw [TransOp.writes_eq rfl]
    exact decide_eq_false fun heq => (h t ht).temp5 heq.symm
  refine ⟨m1, ?_, htemp, hreach⟩
  rw [Machine.userFlags, hflag .zf rfl, hflag .cf rfl, hflag .of rfl]
  rfl

theorem around_fence (rd : RegMem) (locked : Bool) : ∀ t ∈ fenceMem rd locked, t.Around := by
  cases rd with
  | reg r => exact fun _ => nofun
  | mem a size =>
      cases locked with
      | false => exact fun _ => nofun
      | true => exact List.forall_mem_singleton.mpr ⟨⟨rfl, rfl⟩, rfl, by rintro ⟨⟩⟩

theorem TransOp.rcflags_eq {t : TransOp} {r : Reg} (hrc : t.rc = r) (hne : r ≠ .imm) (m : Machine) :
    t.rcflags m = m.flagsOf r := by
  rw [rcflags, hrc, if_neg hne]

/-- The word of the first group has the flags of the others. -/
def FlagReader.Meets (m : Machine) : FlagReader → Prop
  | .pushf _ _ => (m.flagsOf .zf).cf = (m.flagsOf .cf).cf ∧ (m.flagsOf .zf).of = (m.flagsOf .of).of
  | _ => True

namespace FlagReader
variable (c : DecodeContext) (left : Nat → Leftover) (m : Machine)

theorem reaches_pushf (size : Size) (internalEflags : W64) :
    ∃ m1, m1.data .temp0 = (m.flagsOf .zf).word ∧
      Reaches left (((pushf size internalEflags).parts c).op ::
        ((pushf size internalEflags).parts c).after)
        ((pushf size internalEflags).parts c).before m m1 := by
  let us := ((pushf size internalEflags).parts c).op :: ((pushf size internalEflags).parts c).after
  let movccr : TransOp :=
    { opcode := .movccr, rd := .temp0, ra := .zero, rb := .zf, rc := .zero, size := .w64 }
  let ldp : TransOp :=
    { opcode := .ld, rd := .temp1, ra := .ctx, rb := .imm, rc := .zero, size := .w32,
      rbimm := internalEflags, internal := true }
  let l := left (ldp :: us).length
  let m0 := movccr.write l (m.flagsOf .zf).word (m.flagsOf .zf) m
  have hset : m.Sets .temp0 (m.flagsOf .zf).word m0 := movccr.write_sets (by rintro ⟨⟩) rfl
  have hmov : Reaches left (ldp :: us) [movccr] m m0 := .result rfl
  have hld : ∀ t ∈ [ldp], t.opcode.straight = true := List.forall_mem_singleton.mpr rfl
  have ⟨m1, hkeeps, hreach⟩ := reaches_straight hld left us m0
  refine ⟨m1, ?_, hmov.cons hreach⟩
  rw [hkeeps.data .temp0 rfl (List.forall_mem_singleton.mpr (by rintro ⟨⟩))]
  exact hset.data

/-- The reader finds the flags of the user, `pushf` where the word of the first group has them. -/
theorem reaches (r : FlagReader) :
    ∃ m1, (r.UsesRight c m.userFlags m1 ↔ r.Meets m) ∧
      Reaches left ((r.parts c).op :: (r.parts c).after) (r.parts c).before m m1 := by
  cases r with
  | jcc cond riptaken =>
      have huses : (jcc cond riptaken).UsesRight c m.userFlags m := by cases cond <;> rfl
      exact ⟨m, iff_of_true huses trivial, .nil left _ m⟩
  | setcc cond rd =>
      have hrc : condreg cond ≠ .imm := by cases cond <;> rintro ⟨⟩
      cases rd with
      | reg r =>
          have ⟨m1, hcond, hreach⟩ := reaches_collectCond cond left
            [((setcc cond (.reg r)).parts c).op] m
          refine ⟨m1, iff_of_true ?_ trivial, hreach⟩
          change evaluateCond (TransOp.rcflags _ m1) (TransOp.rcflags _ m1) cond = _
          rw [TransOp.rcflags_eq rfl hrc]
          exact hcond
      | mem a =>
          have ⟨m1, hcond, hreach⟩ := reaches_collectCond cond left
            (((setcc cond (.mem a)).parts c).op :: ((setcc cond (.mem a)).parts c).after) m
          refine ⟨m1, iff_of_true ?_ trivial, hreach⟩
          change evaluateCond (TransOp.rcflags _ m1) (TransOp.rcflags _ m1) cond = _
          rw [TransOp.rcflags_eq rfl hrc]
          exact hcond
  | cmovcc cond rd size ra =>
      have hrc : condreg cond ≠ .imm := by cases cond <;> rintro ⟨⟩
      cases ra with
      | reg r =>
          have ⟨m1, hcond, hreach⟩ := reaches_collectCond cond left
            [((cmovcc cond rd size (.reg r)).parts c).op] m
          refine ⟨m1, iff_of_true ?_ trivial, hreach⟩
          change evaluateCond (TransOp.rcflags _ m1) (TransOp.rcflags _ m1) cond = _
          rw [TransOp.rcflags_eq rfl hrc]
          exact hcond
      | mem a asize =>
          have haround : ∀ t ∈ a.operandLoad c asize .ld .temp7, t.Around :=
            a.around_load c asize rfl (by rintro ⟨⟩)
          have ⟨m1, hflags, _, hload⟩ := reaches_around haround left
            (collectCond cond ++ [((cmovcc cond rd size (.mem a asize)).parts c).op]) m
          have ⟨m2, hcond, hreach⟩ := reaches_collectCond cond left
            [((cmovcc cond rd size (.mem a asize)).parts c).op] m1
          refine ⟨m2, iff_of_true ?_ trivial, hload.append hreach⟩
          change evaluateCond (TransOp.rcflags _ m2) (TransOp.rcflags _ m2) cond = _
          rw [TransOp.rcflags_eq rfl hrc, ← hflags]
          exact hcond
  | adc sub locked rd ra =>
      have hop := operates_op c (if sub then .sub else .add) rd ra .defaultAlu .cf false
      have ⟨m1, hflags, _, hreach⟩ := reaches_around (List.forall_mem_append.mpr
        ⟨around_fence rd locked, around_before c (if sub then .sub else .add) rd ra .defaultAlu .cf
          false false none⟩) left
        (((adc sub locked rd ra).parts c).op :: ((adc sub locked rd ra).parts c).after) m
      refine ⟨m1, iff_of_true ?_ trivial, hreach⟩
      have hrc : ((adc sub locked rd ra).parts c).op.rc = .cf := hop.rc
      change (TransOp.rcflags _ m1).cf = _
      rw [TransOp.rcflags_eq hrc (by rintro ⟨⟩), ← hflags]
      rfl
  | rcl right rd count =>
      let i : ShiftInsn := { op := if right then .rotcr else .rotcl, rd := rd, count := count }
      have hop := operates_op c (.shift i.op i.simple) rd i.ra i.setflags i.rcreg false
      have hbefore := around_before c (.shift i.op i.simple) rd i.ra i.setflags i.rcreg false false
        none
      have hcount : ∃ m1, (m1.flagsOf i.rcreg).cf = m.userFlags.cf ∧
          Reaches left ((i.alu c).op :: (i.alu c).after) (i.collect ++ (i.alu c).before) m m1 := by
        cases count with
        | imm imm =>
            have hrc : i.rcreg = .cf := by cases right <;> rfl
            have ⟨m1, hflags, _, hreach⟩ :=
              reaches_around hbefore left ((i.alu c).op :: (i.alu c).after) m
            refine ⟨m1, ?_, hreach⟩
            rw [hrc, ← hflags]
            rfl
        | cl =>
            have ⟨m1, hown, hcollect⟩ := reaches_collectOwn left
              ((i.alu c).before ++ ((i.alu c).op :: (i.alu c).after)) m
            have ⟨m2, _, htemp, hreach⟩ :=
              reaches_around hbefore left ((i.alu c).op :: (i.alu c).after) m1
            refine ⟨m2, ?_, hcollect.append hreach⟩
            change (m2.flagsOf .temp5).cf = _
            rw [htemp, hown]
      obtain ⟨m1, hflags, hreach⟩ := hcount
      refine ⟨m1, iff_of_true ?_ trivial, hreach⟩
      have hrc : ((rcl right rd count).parts c).op.rc = i.rcreg := hop.rc
      have hne : i.rcreg ≠ .imm := by
        cases count with
        | imm imm => cases right <;> rintro ⟨⟩
        | cl => rintro ⟨⟩
      change (TransOp.rcflags _ m1).cf = _
      rw [TransOp.rcflags_eq hrc hne]
      exact hflags
  | lahf =>
      have ⟨m1, _, hdata, hreach⟩ := reaches_collcc left [insertByte (.gpr .rax) .temp0] m
      refine ⟨m1, iff_of_true ?_ trivial, hreach⟩
      change ({ Flags.ofWord (m1.data .temp0) with of := m.userFlags.of } : Flags) = m.userFlags
      rw [hdata, Flags.ofWord_word]
  | pushf size internalEflags =>
      have ⟨m1, hdata, hreach⟩ := reaches_pushf c left m size internalEflags
      refine ⟨m1, ?_, hreach⟩
      change Flags.ofWord (TransOp.readRb _ m1) = m.userFlags ↔ _
      rw [TransOp.readRb, if_neg (by rintro ⟨⟩)]
      change Flags.ofWord (m1.data .temp0) = m.userFlags ↔ _
      rw [hdata, Flags.ofWord_word, Machine.userFlags, Meets]
      constructor
      · intro h
        have hcf := congrArg Flags.cf h
        have hof := congrArg Flags.of h
        exact ⟨hcf, hof⟩
      · rintro ⟨hcf, hof⟩
        rw [← hcf, ← hof]

/-- But for the branch and the arithmetic, the uops change no flag. -/
theorem uops_around {r : FlagReader} (hwrites : r.writes = false)
    (hbranches : r.branches = false) : ∀ t ∈ (r.parts c).uops, t.Around ∨ t = collcc .temp0 := by
  have hcollect : ∀ cond, ∀ t ∈ collectCond cond, t.Around ∨ t = collcc .temp0 := by
    intro cond
    rw [collectCond]
    split
    · exact List.forall_mem_singleton.mpr (.inr rfl)
    · exact fun _ => nofun
  have hset : ∀ t : TransOp, t.SetsNone → t.opcode.straight = true → t.rd ≠ .temp5 →
      t.Around ∨ t = collcc .temp0 := fun t h hs h5 => .inl ⟨h, hs, h5⟩
  cases r with
  | jcc cond riptaken => cases hbranches
  | adc sub locked rd ra => cases hwrites
  | rcl right rd count => cases hwrites
  | setcc cond rd =>
      cases rd with
      | reg r =>
          exact List.forall_mem_append.mpr ⟨hcollect cond,
            List.forall_mem_singleton.mpr (hset _ ⟨rfl, rfl⟩ rfl (by rintro ⟨⟩))⟩
      | mem a =>
          exact List.forall_mem_append.mpr ⟨hcollect cond, List.forall_mem_cons.mpr
            ⟨hset _ ⟨rfl, rfl⟩ rfl (by rintro ⟨⟩), fun t ht => .inl (a.around_store c _ _ t ht)⟩⟩
  | cmovcc cond rd size ra =>
      cases ra with
      | reg r =>
          exact List.forall_mem_append.mpr ⟨hcollect cond,
            List.forall_mem_singleton.mpr (hset _ ⟨rfl, rfl⟩ rfl (by rintro ⟨⟩))⟩
      | mem a asize =>
          have hload : ∀ t ∈ a.operandLoad c asize .ld .temp7, t.Around ∨ t = collcc .temp0 :=
            fun t ht => .inl (a.around_load c asize rfl (by rintro ⟨⟩) t ht)
          exact List.forall_mem_append.mpr ⟨List.forall_mem_append.mpr ⟨hload, hcollect cond⟩,
            List.forall_mem_singleton.mpr (hset _ ⟨rfl, rfl⟩ rfl (by rintro ⟨⟩))⟩
  | lahf =>
      exact List.forall_mem_cons.mpr ⟨.inr rfl,
        List.forall_mem_singleton.mpr (hset _ ⟨rfl, rfl⟩ rfl (by rintro ⟨⟩))⟩
  | pushf size internalEflags =>
      refine List.forall_mem_cons.mpr ⟨hset _ ⟨rfl, rfl⟩ rfl (by rintro ⟨⟩), ?_⟩
      refine List.forall_mem_cons.mpr ⟨hset _ ⟨rfl, rfl⟩ rfl (by rintro ⟨⟩), ?_⟩
      refine List.forall_mem_cons.mpr ⟨hset _ ⟨rfl, rfl⟩ rfl (by rintro ⟨⟩), ?_⟩
      refine List.forall_mem_cons.mpr ⟨hset _ ⟨rfl, rfl⟩ rfl (by rintro ⟨⟩), ?_⟩
      exact List.forall_mem_singleton.mpr (hset _ ⟨rfl, rfl⟩ rfl (by rintro ⟨⟩))

/-- The arithmetic goes on too, and no name of a flag is a destination. -/
theorem uops_straight {before after : List TransOp} {u : AluUops} {opcode : Opcode}
    {setflags : SetFlags} {rcreg : Reg} (hop : u.op.Operates opcode setflags rcreg)
    (hopcode : opcode.straight = true) (hbefore : ∀ t ∈ u.before, t.Around)
    (hafter : ∀ t ∈ u.after, t.Around)
    (hfirst : ∀ t ∈ before, t.opcode.straight = true ∧ t.rd.isFlag = false)
    (hlast : ∀ t ∈ after, t.Around) :
    ∀ t ∈ (before ++ u.before) ++ u.op :: (u.after ++ after),
      t.opcode.straight = true ∧ t.rd.isFlag = false := by
  have haround : ∀ t : TransOp, t.Around → t.opcode.straight = true ∧ t.rd.isFlag = false :=
    fun t ht => ⟨ht.straight, ht.rd⟩
  refine List.forall_mem_append.mpr ⟨List.forall_mem_append.mpr
    ⟨hfirst, fun t ht => haround t (hbefore t ht)⟩, List.forall_mem_cons.mpr
    ⟨⟨by rw [hop.opcode, hopcode], hop.rd.2⟩, List.forall_mem_append.mpr
      ⟨fun t ht => haround t (hafter t ht), fun t ht => haround t (hlast t ht)⟩⟩⟩

theorem adc_straight (sub locked : Bool) (rd : RegMem) (ra : AluOperand) :
    ∀ t ∈ ((adc sub locked rd ra).parts c).uops,
      t.opcode.straight = true ∧ t.rd.isFlag = false := by
  have hfence : ∀ t ∈ fenceMem rd locked, t.opcode.straight = true ∧ t.rd.isFlag = false :=
    fun t ht => ⟨(around_fence rd locked t ht).straight, (around_fence rd locked t ht).rd⟩
  have hopcode : (if sub then Opcode.sub else .add).straight = true := by cases sub <;> rfl
  exact uops_straight (operates_op c (if sub then .sub else .add) rd ra .defaultAlu .cf false)
    hopcode (around_before c _ rd ra _ _ _ _ _) (around_after c _ rd ra _ _ _ _ _) hfence
    (around_fence rd locked)

theorem rcl_straight (right : Bool) (rd : RegMem) (count : ShiftBy) :
    ∀ t ∈ ((rcl right rd count).parts c).uops,
      t.opcode.straight = true ∧ t.rd.isFlag = false := by
  let i : ShiftInsn := { op := if right then .rotcr else .rotcl, rd := rd, count := count }
  have hcollect : ∀ t ∈ i.collect, t.opcode.straight = true ∧ t.rd.isFlag = false := by
    cases count with
    | imm imm => exact fun _ => nofun
    | cl => exact List.forall_mem_singleton.mpr ⟨rfl, rfl⟩
  have hnone : ∀ t ∈ ([] : List TransOp), t.Around := fun _ => nofun
  have h := uops_straight (operates_op c (.shift i.op i.simple) rd i.ra i.setflags i.rcreg false)
    rfl (around_before c _ rd i.ra _ _ _ _ _) (around_after c _ rd i.ra _ _ _ _ _) hcollect hnone
  rw [List.append_nil] at h
  exact h

end FlagReader

/-! The flags behind an op -/

theorem straight_isSome {ts : List TransOp} (h : ∀ t ∈ ts, t.opcode.straight = true)
    (left : Nat → Leftover) (next : W64) (m : Machine) :
    (runUops left next ts m).isSome = true := by
  have ⟨m', _, hreach⟩ := reaches_straight h left [] m
  have hrun : runUops left next ts m = some (m', next) := hreach next
  rw [hrun]
  rfl

namespace FlagInsn
variable (c : DecodeContext) (left : Nat → Leftover) (m : Machine)

/-- Only other ops trap. -/
theorem run_isSome (i : FlagInsn) (next : W64) (hother : ∀ ts, i ≠ .other ts) :
    (runUops left next (i.uops c) m).isSome = true := by
  have hplain : ∀ r : FlagReader, r.writes = false → r.branches = false →
      (runUops left next (r.parts c).uops m).isSome = true := by
    intro r hwrites hbranches
    refine straight_isSome (fun t ht => ?_) left next m
    cases FlagReader.uops_around c hwrites hbranches t ht with
    | inl h => exact h.straight
    | inr h => rw [h]; rfl
  cases i with
  | other ts => exact absurd rfl (hother ts)
  | cmc | clc | stc | sahf => rfl
  | reader r =>
      cases r with
      | jcc cond riptaken => rfl
      | adc sub locked rd ra =>
          exact straight_isSome (fun t ht => (FlagReader.adc_straight c sub locked rd ra t ht).1)
            left next m
      | rcl right rd count =>
          exact straight_isSome (fun t ht => (FlagReader.rcl_straight c right rd count t ht).1)
            left next m
      | setcc | cmovcc | lahf | pushf => exact hplain _ rfl rfl

theorem sahf_flags (x : W64) :
    { Flags.ofWord (mask 0 x (MaskControlInfo.data { ms := 0, mc := 8, ds := 8 })) with
      of := (Flags.ofWord (x >>> 8)).of } = Flags.ofWord (x >>> 8) := by
  have hbit : ∀ i < 8, (mask 0 x (MaskControlInfo.data { ms := 0, mc := 8, ds := 8 })).getLsbD i =
      (x >>> 8).getLsbD i := by
    intro i hi
    have h := congrArg (fun y => y.getLsbD i) (mask_extractHigh x)
    simp only [BitVec.getLsbD_setWidth, hi, decide_true, Bool.true_and] at h
    exact h
  simp only [Flags.ofWord, hbit 0 (by decide), hbit 2 (by decide), hbit 6 (by decide),
    hbit 7 (by decide)]

theorem run_movrccCf (imm : W64) {next rip : W64} {m' : Machine}
    (hrun : runUops left next [movrccCf imm] m = some (m', rip)) :
    m'.userFlags = { m.userFlags with cf := imm.getLsbD 0 } := by
  cases hrun
  exact TransOp.write_groups rfl _ _ _ _

theorem run_sahf {next rip : W64} {m' : Machine}
    (hrun : runUops left next (sahf.uops c) m = some (m', rip)) :
    m'.userFlags =
      SetFlags.merge { zf := true, cf := true, of := false }
        (Flags.ofWord (m.data (.gpr .rax) >>> 8)) m.userFlags := by
  let ah := mask 0 (m.data (.gpr .rax)) (MaskControlInfo.data { ms := 0, mc := 8, ds := 8 })
  let extract := extractByte .temp0 (.gpr .rax)
  have hexec : ∃ f, extract.exec (left 1) m = some (.result ah f) := by
    have hmask := expOpMask_word (left 1).result 0 (m.data (.gpr .rax))
      (MaskControlInfo.data { ms := 0, mc := 8, ds := 8 })
    have hah : ah = _ := hmask.symm
    rw [hah]
    exact ⟨_, rfl⟩
  obtain ⟨f, hexec⟩ := hexec
  have hmid : ∃ m1, m1.data .temp0 = ah ∧ m1.userFlags = m.userFlags ∧
      runUops left next (sahf.uops c) m = runUops left next ((sahf.uops c).drop 1) m1 := by
    have hset : m.Sets .temp0 ah (extract.write (left 1) ah f m) :=
      extract.write_sets (by rintro ⟨⟩) rfl
    exact ⟨_, hset.data, TransOp.write_groups rfl _ _ _ _, runUops_result hexec⟩
  obtain ⟨m1, hdata, hflags, hrest⟩ := hmid
  rw [hrest] at hrun
  cases hrun
  rw [TransOp.write_groups rfl, hflags]
  change SetFlags.merge _ (Flags.ofWord (m1.data .temp0)) _ = _
  rw [hdata, ← sahf_flags (m.data (.gpr .rax))]
  rfl

/-- But for `cmc`, the flags behind an op are those of x86. -/
theorem run_userFlags {i : FlagInsn} (hcmc : i ≠ .cmc) {next rip : W64} {m' : Machine}
    (hrun : runUops left next (i.uops c) m = some (m', rip)) :
    m'.userFlags = (i.x86Writes c left m m.userFlags).foldl
      (fun f w => w.groups.merge w.flags f) m.userFlags := by
  cases i with
  | cmc => exact absurd rfl hcmc
  | clc => exact run_movrccCf left m 0 hrun
  | stc => exact run_movrccCf left m 1 hrun
  | sahf => exact run_sahf c left m hrun
  | other ts => exact runUops_userFlags ts.2 hrun
  | reader r =>
      rw [x86Writes]
      cases r with
      | jcc cond riptaken =>
          cases hrun
          rfl
      | adc sub locked rd ra =>
          exact runUops_userFlags
            (fun t ht => (FlagReader.adc_straight c sub locked rd ra t ht).2) hrun
      | rcl right rd count =>
          exact runUops_userFlags
            (fun t ht => (FlagReader.rcl_straight c right rd count t ht).2) hrun
      | setcc | cmovcc | lahf | pushf =>
          refine runUops_keepsFlags (fun t ht => ?_) hrun
          cases FlagReader.uops_around c rfl rfl t ht with
          | inl h => exact .inl h.toSetsNone
          | inr h => exact .inr h

/-- `cmc` leaves the carry flag. -/
theorem run_cmc {next rip : W64} {m' : Machine}
    (hrun : runUops left next (cmc.uops c) m = some (m', rip)) : m'.userFlags = m.userFlags := by
  cases hrun
  rw [TransOp.write_groups rfl]
  change ({ m.userFlags with cf := ((m.flagsOf .cf).cf != false) } : Flags) = _
  rw [Bool.bne_false]
  rfl

/-- `cmc` is never right, and `pushf` where the word of the first group has the other flags. -/
def Meets : FlagInsn → Prop
  | cmc => False
  | reader r => r.Meets m
  | clc | stc | sahf | other _ => True

end FlagInsn

namespace FlagState
variable (init : Flags)

/-- The reader finds the flags of the youngest writers, the op is done, and behind it the flags
are those of the youngest writers. -/
def Right (s : FlagState) (e : FlagEvent) : Prop :=
  (∀ r, e.insn = .reader r → ∃ m1,
      Reaches e.left ((r.parts e.c).op :: (r.parts e.c).after) (r.parts e.c).before
        s.file.machine m1 ∧ r.UsesRight e.c (archFlags init s.history) m1) ∧
    ((∀ ts, e.insn ≠ .other ts) → (s.step e init).isSome = true) ∧
    ∀ s', s.step e init = some s' → s'.file.machine.userFlags = archFlags init s'.history

variable {init} {s s' : FlagState} {e : FlagEvent}

/-- A step is the run of the uops. -/
theorem step_run (h : s.step e init = some s') : ∃ rip,
    runUops e.left e.c.rip (e.insn.uops e.c) s.file.machine = some (s'.file.machine, rip) ∧
      s'.history = s.history ++
        e.insn.x86Writes e.c e.left s.file.machine (archFlags init s.history) := by
  rw [step, Option.map_eq_some_iff] at h
  obtain ⟨r, hr, rfl⟩ := h
  refine ⟨r.2, ?_, rfl⟩
  rw [← RenamedMachine.run_machine, hr]
  rfl

theorem step_isSome (h : ∀ ts, e.insn ≠ .other ts) : (s.step e init).isSome = true := by
  have hrun := e.insn.run_isSome e.c e.left s.file.machine e.c.rip h
  rw [← RenamedMachine.run_machine, Option.isSome_map] at hrun
  rw [step, Option.isSome_map]
  exact hrun

theorem step_userFlags (hs : s.file.machine.userFlags = archFlags init s.history)
    (h : s.step e init = some s') (hcmc : e.insn ≠ .cmc) :
    s'.file.machine.userFlags = archFlags init s'.history := by
  have ⟨rip, hrun, hhistory⟩ := step_run h
  rw [hhistory, archFlags_append, ← hs]
  exact FlagInsn.run_userFlags e.c e.left s.file.machine hcmc hrun

theorem not_right_cmc (hs : s.file.machine.userFlags = archFlags init s.history)
    (hcmc : e.insn = .cmc) : ¬s.Right init e := by
  rintro ⟨-, hsome, hflags⟩
  have hother : ∀ ts, e.insn ≠ .other ts := by
    rw [hcmc]
    rintro ts ⟨⟩
  obtain ⟨s', hstep⟩ := Option.isSome_iff_exists.mp (hsome hother)
  have ⟨rip, hrun, hhistory⟩ := step_run hstep
  have hbehind := hflags s' hstep
  rw [hcmc] at hrun hhistory
  rw [hhistory, archFlags_append, ← hs, FlagInsn.run_cmc e.c e.left s.file.machine hrun] at hbehind
  have hcf := congrArg Flags.cf hbehind
  change (s.file.machine.userFlags).cf = !(s.file.machine.userFlags).cf at hcf
  cases hbit : (s.file.machine.userFlags).cf <;> rw [hbit] at hcf <;> cases hcf

/-- With the right flags before, an op is right exactly where it meets its condition. -/
theorem right_iff_meets (hs : s.file.machine.userFlags = archFlags init s.history) :
    s.Right init e ↔ e.insn.Meets s.file.machine := by
  cases hinsn : e.insn with
  | cmc => exact iff_of_false (not_right_cmc hs hinsn) id
  | reader r =>
      have ⟨m1, huses, hreach⟩ := r.reaches e.c e.left s.file.machine
      rw [hs] at huses
      constructor
      · rintro ⟨hread, -, -⟩
        obtain ⟨m2, hreach2, huses2⟩ := hread r hinsn
        rw [← hreach.unique hreach2] at huses2
        exact huses.mp huses2
      · intro hmeets
        refine ⟨fun r' hr' => ?_, step_isSome, fun s' h => step_userFlags hs h ?_⟩
        · cases hinsn.symm.trans hr'
          exact ⟨m1, hreach, huses.mpr hmeets⟩
        · rw [hinsn]
          rintro ⟨⟩
  | clc | stc | sahf | other ts =>
      refine iff_of_true ⟨fun r hr => ?_, step_isSome, fun s' h => step_userFlags hs h ?_⟩ trivial
      · cases hinsn.symm.trans hr
      · rw [hinsn]
        rintro ⟨⟩

/-- In a run from any registers, every op is right exactly if every op meets its condition. -/
theorem flagsRight_iff (file : RenamedMachine) (es : List FlagEvent) :
    EventSystem.Along (fun s e => step s e file.machine.userFlags)
        (Right file.machine.userFlags) { file := file, history := [] } es ↔
      EventSystem.Along (fun s e => step s e file.machine.userFlags)
        (fun s e => e.insn.Meets s.file.machine) { file := file, history := [] } es := by
  let tracked (s : FlagState) : Prop :=
    s.file.machine.userFlags = archFlags file.machine.userFlags s.history
  have hagree : ∀ s e, tracked s →
      (Right file.machine.userFlags s e ↔ e.insn.Meets s.file.machine) :=
    fun _ _ hs => right_iff_meets hs
  have hkept : ∀ (s : FlagState) (e : FlagEvent) (s' : FlagState), tracked s →
      Right file.machine.userFlags s e → s.step e file.machine.userFlags = some s' → tracked s' :=
    fun _ _ s' _ hright hstep => hright.2.2 s' hstep
  have hstart : tracked { file := file, history := [] } := rfl
  exact EventSystem.along_iff_along hagree hkept hstart es

end FlagState

/-- Every register is zero. -/
def RenamedMachine.zeros : RenamedMachine where
  map _ := 0
  values _ := 0
  flags _ := .clear
  free := 1
  mapped _ := Nat.zero_lt_one
  memory _ := 0
  context _ := 0

/-- `cmc` with the carry flag clear leaves it clear. -/
theorem FlagState.cmc_keeps : ¬∀ (file : RenamedMachine) (es : List FlagEvent),
    EventSystem.Along (fun s e => step s e file.machine.userFlags)
      (Right file.machine.userFlags) { file := file, history := [] } es := by
  intro h
  let e : FlagEvent :=
    { c := { rip := 0, segmentBase := none }
      left := fun _ => { carry := false, result := 0, flags := .clear }
      insn := .cmc }
  have hright := (h .zeros [e]).1
  exact not_right_cmc rfl rfl hright

end FeS2.Decoder
