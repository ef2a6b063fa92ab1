import FeS2.Decoder.FlagGroups
import FeS2.Decoder.OperandAccess

/-!
Shifts and rotates by one operand. A shift by `cl` sets the flags from its result unless `cl` is
zero, though the count that the host takes of it may be.
-/

namespace FeS2.Decoder

/-! Operands of x86 -/

namespace RegMem
variable (c : DecodeContext) (left : Nat → Leftover) (us : List TransOp)

/-- The operand; `us` are the uops from the load on. -/
def value (m : Machine) : (x : RegMem) → BitVec x.size.bits
  | .reg d => d.read m
  | .mem a size => (m.load (a.place c left us size m) size).setWidth size.bits

/-- The result is all that changes of the registers and memory; `us` are the uops from the store
on. -/
def Holds (m m' : Machine) : (x : RegMem) → BitVec x.size.bits → Prop
  | .reg d, r => m'.data (.gpr d.archReg) = d.put (m.data (.gpr d.archReg)) r ∧
      m'.memory = m.memory ∧ ∀ q, q ≠ d.archReg → m'.data (.gpr q) = m.data (.gpr q)
  | .mem a size, r => m'.memory = m.store (a.place c left us size m) size (r.setWidth 64) ∧
      ∀ q, m'.data (.gpr q) = m.data (.gpr q)

def WellFormed : RegMem → Prop
  | .reg _ => True
  | .mem a _ => a.WellFormed

end RegMem

/-- The overflow flag is left out. -/
structure Flags.SameButOf (a b : Flags) : Prop where
  cf : a.cf = b.cf
  pf : a.pf = b.pf
  zf : a.zf = b.zf
  sf : a.sf = b.sf

/-- Five bits of the count are taken, or six for whole words. -/
def x86Count (n count : Nat) : Nat := count % if n = 64 then 64 else 32

/-- The result and the flags; some of the flags are undefined for large counts. -/
def ShiftOp.x86 {n : Nat} (op : ShiftOp) (undefined before : Flags) (x : BitVec n) (count : Nat) :
    BitVec n × Flags :=
  let rt := op.host undefined before x count
  (rt.1,
    if x86Count n count = 0 then before
    else if op.isRotate then { before with cf := rt.2.1 }
    else { x86Genflags rt.1 with cf := rt.2.1 })

namespace ShiftInsn
variable (c : DecodeContext) (left : Nat → Leftover) (i : ShiftInsn) (m : Machine)

def countOf : Nat :=
  match i.count with
  | .imm imm => imm.toNat
  | .cl => (m.data (.gpr .rcx)).toNat % 256

/-- The uops from the load of an operand in memory on, and from the store on. -/
def loadUops : List TransOp :=
  match i.rd with
  | .reg _ => []
  | .mem a size => a.load c size .ld .temp0 :: (i.alu c).op :: (i.alu c).after

def storeUops : List TransOp :=
  match i.rd with
  | .reg _ => []
  | .mem a size => [a.storeOp c size .temp0]

def operand : BitVec i.rd.size.bits := i.rd.value c left (i.loadUops c) m

/-- The op leaves the result and the flags of x86. -/
def Right : Prop :=
  ∃ m' undefined, runUops left c.rip (i.parts c).uops m = some (m', c.rip) ∧
    i.rd.Holds c left (i.storeUops c) m m'
      (i.op.x86 undefined m.userFlags (i.operand c left m) (i.countOf m)).1 ∧
    m'.userFlags.SameButOf
      (i.op.x86 undefined m.userFlags (i.operand c left m) (i.countOf m)).2

/-! What the uops leave -/

/-- The flags that the uop is handed, and the count. -/
def flagsIn : Flags :=
  match i.count with
  | .cl => m.userFlags
  | .imm _ => if i.op = .rotcl ∨ i.op = .rotcr then m.flagsOf .cf else .clear

def countIn : W64 :=
  match i.count with
  | .imm imm => BitVec.ofNat 64 (immCount i.rd.size imm)
  | .cl => m.data (.gpr .rcx)

/-- What the uop computes. -/
def result : BitVec i.rd.size.bits × Flags :=
  i.op.eval i.simple (decide (i.setflags ≠ .none)) (left (i.alu c).after.length)
    (i.operand c left m) (i.countIn m) (i.flagsIn m)

/-- The flags are collected where the count is `cl`. -/
theorem reaches_collect (us : List TransOp) :
    ∃ m1, m1.userFlags = m.userFlags ∧ m.Touches [.temp5] m1 ∧ m1.memory = m.memory ∧
      (i.count = .cl → m1.flagsOf .temp5 = m.userFlags) ∧
      Reaches left us i.collect m m1 := by
  cases hcount : i.count with
  | imm imm =>
      have hcollect : i.collect = [] := by rw [collect, hcount]
      rw [hcollect]
      exact ⟨m, rfl, (Machine.Touches.refl m).mono nofun, rfl, nofun, .nil left us m⟩
  | cl =>
      let t : TransOp := { collcc .temp5 with nouserflags := true }
      have hcollect : i.collect = [t] := by rw [collect, hcount]
      have hset : m.SetsWith .temp5 m.userFlags.word m.userFlags
          (t.write (left us.length) m.userFlags.word m.userFlags m) :=
        t.write_setsWith (by rintro ⟨⟩) rfl SetFlags.defaultAlu_ne
      have hexec : t.exec (left us.length) m = some (.result m.userFlags.word m.userFlags) := rfl
      have htouch : m.Touches [.temp5] (t.write (left us.length) m.userFlags.word m.userFlags m) :=
        t.write_touches ⟨rfl, .inr rfl⟩ _ _ _ _
      rw [hcollect]
      exact ⟨_, TransOp.write_groups rfl _ _ _ _, htouch, hset.memory, fun _ => hset.flags,
        .result hexec⟩

end ShiftInsn

/-! Results -/

theorem Machine.Touches.userFlags {rs : List Reg} {m m' : Machine} (h : m.Touches rs m')
    (hrs : ∀ r ∈ rs, r.isFlag = false) : m'.userFlags = m.userFlags := by
  have hflag : ∀ r : Reg, r.isFlag = true → m'.flagsOf r = m.flagsOf r := by
    intro r hr
    refine h.flags r fun hmem => ?_
    rw [hrs r hmem] at hr
    cases hr
  unfold Machine.userFlags
  rw [hflag .zf rfl, hflag .cf rfl, hflag .of rfl]

theorem Machine.Touches.gpr {rs : List Reg} {m m' : Machine} (h : m.Touches rs m') {r : Gpr}
    (hr : .gpr r ∉ rs) : m'.data (.gpr r) = m.data (.gpr r) := h.data _ rfl hr

namespace GprName
variable (d : GprName) (left : Nat → Leftover) (us : List TransOp)

/-- What is behind an operation on a register. -/
def insertUops : List TransOp :=
  if d.hibyte then [insertByte (.gpr d.archReg) .temp2] else []

/-- The result of a uop on a register, with a high byte put back. -/
theorem reaches_result {m : Machine} {t : TransOp} {y : BitVec d.size.bits} {f : Flags}
    (hrd : t.rd = d.rareg)
    (hexec : t.exec (left (d.insertUops ++ us).length) m =
      some (.result (x86Merge d.size (m.data d.rareg) (y.setWidth 64)) f)) :
    ∃ m', m'.data (.gpr d.archReg) = d.put (m.data (.gpr d.archReg)) y ∧
      (∀ q, q ≠ d.archReg → m'.data (.gpr q) = m.data (.gpr q)) ∧ m'.memory = m.memory ∧
      m'.userFlags = t.userGroups.merge f m.userFlags ∧
      Reaches left us (t :: d.insertUops) m m' := by
  have hne : t.rd ≠ .zero := hrd ▸ d.rareg_ne.1
  have hflag : t.rd.isFlag = false := hrd ▸ d.rareg_ne.2.2
  let x := x86Merge d.size (m.data d.rareg) (y.setWidth 64)
  let m1 := t.write (left (d.insertUops ++ us).length) x f m
  have hset : m.Sets d.rareg x m1 := hrd ▸ t.write_sets hne hflag
  have hgroups : m1.userFlags = t.userGroups.merge f m.userFlags := t.write_groups hflag _ _ _ _
  have hfirst : Reaches left (d.insertUops ++ us) [t] m m1 := .result hexec
  cases d with
  | low r size =>
      refine ⟨m1, hset.data, fun q hq => hset.other _ rfl ?_, hset.memory, hgroups, hfirst⟩
      rintro ⟨⟩
      exact hq rfl
  | high r =>
      obtain ⟨m', hdata, htouch, hmem, hreach⟩ := reaches_insert r left us m1
      have hold : m1.data (.gpr r.archReg) = m.data (.gpr r.archReg) :=
        hset.other _ rfl (by rintro ⟨⟩)
      have hnew : (m1.data .temp2).setWidth 8 = y :=
        (congrArg (BitVec.setWidth 8) hset.data).trans ((x86Merge_setWidth .w8 _ _).trans
          ((BitVec.setWidth_setWidth_of_le y (by decide)).trans (BitVec.setWidth_eq y)))
      rw [hold, hnew] at hdata
      refine ⟨m', hdata, fun q hq => ?_, hmem.trans hset.memory, ?_, hfirst.cons hreach⟩
      · refine (htouch.gpr ?_).trans (hset.other _ rfl (by rintro ⟨⟩))
        rw [List.mem_singleton]
        rintro ⟨⟩
        exact hq rfl
      · refine (htouch.userFlags ?_).trans hgroups
        exact List.forall_mem_singleton.mpr rfl

end GprName

/-- Only the bytes of the size are stored. -/
theorem Machine.store_congr (m : Machine) (addr : W64) {size : Size} {x y : W64}
    (h : x.setWidth size.bits = y.setWidth size.bits) :
    m.store addr size x = m.store addr size y := by
  funext a
  unfold Machine.store
  split
  · next hlt =>
      have hbits : 8 * size.bytes = size.bits := by cases size <;> rfl
      apply BitVec.eq_of_getLsbD_eq
      intro i hi
      have hbit := congrArg (fun v => v.getLsbD (8 * (a - addr).toNat + i)) h
      rw [BitVec.getLsbD_setWidth, BitVec.getLsbD_setWidth] at hbit
      have hin : 8 * (a - addr).toNat + i < size.bits := by omega
      rw [decide_eq_true hin, Bool.true_and, Bool.true_and] at hbit
      rw [BitVec.getLsbD_extractLsb', BitVec.getLsbD_extractLsb', hbit]
  · rfl

theorem TransOp.exec_shift {t : TransOp} {op : ShiftOp} {simple : Bool} {size : Size}
    (hop : t.opcode = .shift op simple) (hsize : t.size = size) {l : Leftover} {m : Machine} :
    t.exec l m = some (.result
      (x86Merge size (m.data t.ra) ((op.eval simple (decide (t.setflags ≠ .none)) l
        ((m.data t.ra).setWidth size.bits) (t.readRb m) (t.rcflags m)).1.setWidth 64))
      (op.eval simple (decide (t.setflags ≠ .none)) l ((m.data t.ra).setWidth size.bits)
        (t.readRb m) (t.rcflags m)).2) := by
  subst hsize
  rw [exec, hop]
  rfl

namespace ShiftInsn
variable (c : DecodeContext) (left : Nat → Leftover) (i : ShiftInsn) (m : Machine)

theorem operates_alu : (i.alu c).op.Operates (.shift i.op i.simple) i.setflags i.rcreg :=
  operates_op c _ _ _ _ _ false

/-- What the shift itself finds. -/
structure Ready (m' : Machine) : Prop where
  count : (i.alu c).op.readRb m' = i.countIn m
  flags : (i.alu c).op.rcflags m' = i.flagsIn m

theorem ready {rs : List Reg} {m1 m2 : Machine} (hcollect : m.Touches [.temp5] m1)
    (htemp5 : i.count = .cl → m1.flagsOf .temp5 = m.userFlags) (h : m1.Touches rs m2)
    (hrcx : .gpr .rcx ∉ rs) (hcf : .cf ∉ rs) (hrs5 : .temp5 ∉ rs) : i.Ready c m m2 := by
  have htouch := hcollect.trans h
  obtain ⟨op, rd, count⟩ := i
  cases count with
  | imm imm =>
      constructor
      · cases rd with
        | reg d => rfl
        | mem a size => rfl
      · unfold TransOp.rcflags
        rw [(operates_alu c ⟨op, rd, .imm imm⟩).rc, rcreg, flagsIn]
        dsimp only
        split
        · refine (if_neg (by rintro ⟨⟩)).trans (htouch.flags .cf ?_)
          simpa using hcf
        · rfl
  | cl =>
      have hdata : m2.data (.gpr .rcx) = m.data (.gpr .rcx) := htouch.gpr (by simpa using hrcx)
      have hflags : m2.flagsOf .temp5 = m.userFlags := (h.flags .temp5 hrs5).trans (htemp5 rfl)
      cases rd with
      | reg d => exact ⟨hdata, hflags⟩
      | mem a size => exact ⟨hdata, hflags⟩

theorem exec_op {m1 : Machine} (hready : i.Ready c m m1)
    (hsize : (i.alu c).op.size = i.rd.size)
    (hoperand : (m1.data (i.alu c).op.ra).setWidth i.rd.size.bits = i.operand c left m) :
    (i.alu c).op.exec (left (i.alu c).after.length) m1 = some (.result
      (x86Merge i.rd.size (m1.data (i.alu c).op.ra) ((i.result c left m).1.setWidth 64))
      (i.result c left m).2) := by
  have hop := i.operates_alu c
  rw [TransOp.exec_shift hop.opcode hsize, hop.setflags, hready.count, hready.flags, hoperand]
  rfl

theorem userGroups_op : (i.alu c).op.userGroups = i.setflags := by
  have hop := i.operates_alu c
  unfold TransOp.userGroups
  rw [hop.userFlags, hop.setflags]
  refine if_neg ?_
  rintro (h | h)
  · cases h
  · exact hop.rd.1 h

/-- The uops leave the result, and of the flags those that the op sets. -/
def Leaves (m' : Machine) : Prop :=
  i.rd.Holds c left (i.storeUops c) m m' (i.result c left m).1 ∧
    m'.userFlags = i.setflags.merge (i.result c left m).2 m.userFlags

theorem reaches_reg (op : ShiftOp) (d : GprName) (count : ShiftBy) :
    ∃ m', Leaves c left ⟨op, .reg d, count⟩ m m' ∧
      Reaches left [] (parts ⟨op, .reg d, count⟩ c).uops m m' := by
  let i : ShiftInsn := ⟨op, .reg d, count⟩
  have hbefore : (i.alu c).before = extractOperand .temp2 (.reg d) := by
    cases count with
    | imm imm => exact List.append_nil _
    | cl => exact List.append_nil _
  have hafter : (i.alu c).after = d.insertUops := by
    cases count with
    | imm imm => rfl
    | cl => rfl
  have hra : (i.alu c).op.ra = d.rareg := by
    cases count with
    | imm imm => rfl
    | cl => rfl
  have hrd : (i.alu c).op.rd = d.rareg := by
    cases count with
    | imm imm => rfl
    | cl => rfl
  have hsize : (i.alu c).op.size = d.size := by
    cases count with
    | imm imm => rfl
    | cl => rfl
  obtain ⟨m1, huser1, htouch1, hmem1, htemp5, hreach1⟩ :=
    i.reaches_collect left m
      ((extractOperand .temp2 (.reg d) ++ (i.alu c).op :: d.insertUops) ++ [])
  obtain ⟨m2, hread, htouch2, hmem2, hreach2⟩ :=
    d.reaches_extract left (((i.alu c).op :: d.insertUops) ++ []) m1
  have hready := i.ready c m htouch1 htemp5 htouch2 (by simp) (by simp) (by simp)
  have htouch := htouch1.trans htouch2
  have hgpr : ∀ q, m2.data (.gpr q) = m.data (.gpr q) := fun q => htouch.gpr (by simp)
  have hoperand : (m2.data (i.alu c).op.ra).setWidth i.rd.size.bits = i.operand c left m := by
    rw [hra]
    exact hread.trans (d.read_congr (htouch1.gpr (by simp)))
  have hexec := i.exec_op c left m hready hsize hoperand
  rw [hafter, ← List.append_nil d.insertUops, hra] at hexec
  obtain ⟨m3, hdata, hother, hmem3, huser3, hreach3⟩ := d.reaches_result left [] hrd hexec
  refine ⟨m3, ⟨⟨?_, ?_, fun q hq => ?_⟩, ?_⟩, ?_⟩
  · rw [hdata, hgpr]
  · rw [hmem3, hmem2, hmem1]
  · rw [hother q hq, hgpr]
  · rw [huser3, i.userGroups_op, htouch2.userFlags (by simp [Reg.isFlag]), huser1]
  · have huops : (i.parts c).uops =
        i.collect ++ (extractOperand .temp2 (.reg d) ++ (i.alu c).op :: d.insertUops) := by
      rw [AluUops.uops, parts, hbefore, hafter, List.append_assoc]
    rw [huops]
    exact hreach1.append (hreach2.append hreach3)

theorem reaches_mem (op : ShiftOp) {a : MemOperand} (hwell : a.WellFormed) (size : Size)
    (count : ShiftBy) :
    ∃ m', Leaves c left ⟨op, .mem a size, count⟩ m m' ∧
      Reaches left [] (parts ⟨op, .mem a size, count⟩ c).uops m m' := by
  let i : ShiftInsn := ⟨op, .mem a size, count⟩
  have hbefore : (i.alu c).before = a.operandLoad c size .ld .temp0 := by
    cases count with
    | imm imm => exact List.append_nil _
    | cl => exact List.append_nil _
  have hafter : (i.alu c).after = a.resultStore c size .temp0 := by
    cases count with
    | imm imm => rfl
    | cl => rfl
  have hra : (i.alu c).op.ra = .temp0 := by
    cases count with
    | imm imm => rfl
    | cl => rfl
  have hrd : (i.alu c).op.rd = .temp0 := by
    cases count with
    | imm imm => rfl
    | cl => rfl
  have hsize : (i.alu c).op.size = size := by
    cases count with
    | imm imm => rfl
    | cl => rfl
  let rest := (i.alu c).op :: a.resultStore c size .temp0
  obtain ⟨m1, huser1, htouch1, hmem1, htemp5, hreach1⟩ :=
    i.reaches_collect left m ((a.operandLoad c size .ld .temp0 ++ rest) ++ [])
  obtain ⟨m2, hload, htouch2, hmem2, hreach2⟩ :=
    a.reaches_load c left (rest ++ []) size m1 hwell .temp0 (by rintro ⟨⟩) rfl
  have hready := i.ready c m htouch1 htemp5 htouch2 (by simp [MemOperand.addressTemps])
    (by simp [MemOperand.addressTemps]) (by simp [MemOperand.addressTemps])
  have htouch := htouch1.trans htouch2
  have hgpr : ∀ q, m2.data (.gpr q) = m.data (.gpr q) :=
    fun q => htouch.gpr (by simp [MemOperand.addressTemps])
  have hoperand : (m2.data (i.alu c).op.ra).setWidth i.rd.size.bits = i.operand c left m := by
    have huses : i.loadUops c = a.load c size .ld .temp0 :: (rest ++ []) := by
      rw [List.append_nil]
      exact congrArg _ (congrArg _ hafter)
    rw [hra, hload, operand, huses, a.place_touches c left _ size htouch1 (by simp) (by simp),
      Machine.load, hmem1]
    rfl
  have hexec := i.exec_op c left m hready hsize hoperand
  rw [hafter, ← List.append_nil (a.resultStore c size .temp0), hra] at hexec
  let x := x86Merge size (m2.data .temp0) ((i.result c left m).1.setWidth 64)
  let m3 := (i.alu c).op.write (left (a.resultStore c size .temp0 ++ []).length) x
    (i.result c left m).2 m2
  have hflag : (i.alu c).op.rd.isFlag = false := hrd ▸ rfl
  have hset : m2.Sets .temp0 x m3 := hrd ▸ TransOp.write_sets (hrd ▸ by rintro ⟨⟩) hflag
  have hgpr3 : ∀ q, m3.data (.gpr q) = m.data (.gpr q) := fun q =>
    (hset.other _ rfl (by rintro ⟨⟩)).trans (hgpr q)
  have hctx : m3.data .ctx = m.data .ctx :=
    (hset.other _ rfl (by rintro ⟨⟩)).trans
      (htouch.data .ctx rfl (by simp [MemOperand.addressTemps]))
  have hcontext : m3.context = m.context :=
    ((i.alu c).op.write_context).trans htouch.context
  obtain ⟨m4, hstore, htouch4, hreach4⟩ := a.reaches_store c left [] size m3 hwell
    .temp0 (by rintro ⟨⟩) rfl (by simp [MemOperand.addressTemps])
  refine ⟨m4, ⟨⟨?_, fun q => ?_⟩, ?_⟩, ?_⟩
  · have hmem3 : m3.memory = m.memory := hset.memory.trans (hmem2.trans hmem1)
    have hlow : x.setWidth size.bits =
        ((i.result c left m).1.setWidth 64).setWidth size.bits := x86Merge_setWidth size _ _
    rw [hstore, hset.data, a.place_congr c left _ size hgpr3 hctx hcontext,
      m3.store_congr _ hlow]
    unfold Machine.store
    rw [hmem3]
    rfl
  · rw [htouch4.gpr (by simp [MemOperand.addressTemps]), hgpr3]
  · have huser3 : m3.userFlags = (i.alu c).op.userGroups.merge (i.result c left m).2 m2.userFlags :=
      TransOp.write_groups hflag _ _ _ _
    rw [htouch4.userFlags (by simp [MemOperand.addressTemps, Reg.isFlag]), huser3, i.userGroups_op,
      htouch2.userFlags (by simp [MemOperand.addressTemps, Reg.isFlag]), huser1]
  · have huops : (i.parts c).uops = i.collect ++ (a.operandLoad c size .ld .temp0 ++ rest) := by
      rw [AluUops.uops, parts, hbefore, hafter, List.append_assoc]
    have hop : Reaches left (a.resultStore c size .temp0 ++ []) [(i.alu c).op] m2 m3 :=
      .result hexec
    rw [huops]
    exact hreach1.append (hreach2.append (hop.cons hreach4))

/-- The uops leave the result, and of the flags those that the op sets. -/
theorem runs_parts (hwell : i.rd.WellFormed) :
    ∃ m', runUops left c.rip (i.parts c).uops m = some (m', c.rip) ∧ i.Leaves c left m m' := by
  obtain ⟨op, rd, count⟩ := i
  cases rd with
  | reg d =>
      obtain ⟨m', hleaves, hreach⟩ := reaches_reg c left m op d count
      exact ⟨m', hreach c.rip, hleaves⟩
  | mem a size =>
      obtain ⟨m', hleaves, hreach⟩ := reaches_mem c left m op hwell size count
      exact ⟨m', hreach c.rip, hleaves⟩

end ShiftInsn

/-! The host and x86 -/

namespace ShiftOp
variable {n : Nat} (op : ShiftOp) (u u' f f' : Flags) (x : BitVec n) {count count' : Nat}

theorem host_count (h : x86Count n count = x86Count n count') :
    op.host u f x count = op.host u f x count' := by
  unfold x86Count at h
  unfold host
  rw [h]

theorem host_zero (h : x86Count n count = 0) : op.host u f x count = (x, f.cf, f.of) :=
  if_pos h

/-- Only the rotates through the carry flag take it. -/
theorem host_value (h : x86Count n count ≠ 0)
    (hcarry : op = .rotcl ∨ op = .rotcr → f.cf = f'.cf) :
    (op.host u f x count).1 = (op.host u' f' x count).1 := by
  unfold host
  unfold x86Count at h
  rw [if_neg h, if_neg h]
  cases op with
  | shl | shr | sar | rotl | rotr => rfl
  | rotcl | rotcr => simp [hcarry]

theorem host_carry (h : x86Count n count ≠ 0)
    (hcarry : op = .rotcl ∨ op = .rotcr → f.cf = f'.cf) (hu : u.cf = u'.cf) :
    (op.host u f x count).2.1 = (op.host u' f' x count).2.1 := by
  unfold host
  unfold x86Count at h
  rw [if_neg h, if_neg h]
  cases op with
  | shl | shr | sar | rotl | rotr => simp [hu]
  | rotcl | rotcr => simp [hcarry]

end ShiftOp

namespace ShiftInsn
variable (c : DecodeContext) (left : Nat → Leftover) (i : ShiftInsn) (m : Machine)

theorem immCount_eq (size : Size) (imm : BitVec 8) :
    immCount size imm = x86Count size.bits imm.toNat := by
  cases size <;> rfl

theorem immCount_lt (size : Size) (imm : BitVec 8) : immCount size imm < 64 := by
  unfold immCount
  split <;> omega

theorem countIn_toNat : (i.countIn m).toNat % 256 =
    match i.count with
    | .imm _ => x86Count i.rd.size.bits (i.countOf m)
    | .cl => i.countOf m := by
  unfold countIn countOf
  cases i.count with
  | imm imm =>
      have hlt := immCount_lt i.rd.size imm
      dsimp only
      rw [BitVec.toNat_ofNat, ← immCount_eq, Nat.mod_eq_of_lt (by omega),
        Nat.mod_eq_of_lt (by omega)]
  | cl => rfl

theorem x86Count_countIn : x86Count i.rd.size.bits ((i.countIn m).toNat % 256) =
    x86Count i.rd.size.bits (i.countOf m) := by
  rw [countIn_toNat]
  cases i.count with
  | imm imm => exact Nat.mod_mod _ _
  | cl => rfl

/-- A count that is taken sets the carry flag, and for shifts the others. -/
theorem setflags_taken (h : x86Count i.rd.size.bits (i.countOf m) ≠ 0) :
    i.setflags.cf = true ∧ i.setflags.zf = !i.op.isRotate := by
  unfold setflags
  unfold countOf at h
  cases hcount : i.count with
  | cl => exact ⟨rfl, rfl⟩
  | imm imm =>
      rw [hcount] at h
      dsimp only at h ⊢
      rw [← immCount_eq] at h
      rw [if_neg h]
      split
      · split
        · next hrotate => exact ⟨rfl, by rw [hrotate]; rfl⟩
        · next hrotate => exact ⟨rfl, by rw [Bool.eq_false_of_not_eq_true hrotate]; rfl⟩
      · exact ⟨rfl, rfl⟩

theorem genflags_taken (h : x86Count i.rd.size.bits (i.countOf m) ≠ 0) :
    decide (i.setflags ≠ .none) = true := by
  refine decide_eq_true fun hnone => ?_
  have hcf := (i.setflags_taken m h).1
  rw [hnone] at hcf
  cases hcf

/-- The flags that the host is given. -/
def hostFlags : Flags :=
  let left := left (i.alu c).after.length
  if decide (i.setflags ≠ .none) && !i.simple then i.flagsIn m
  else { left.host with cf := left.carry }

/-- What the host computes. -/
def hostResult : BitVec i.rd.size.bits × Bool × Bool :=
  i.op.host (left (i.alu c).after.length).host (i.hostFlags c left m) (i.operand c left m)
    ((i.countIn m).toNat % 256)

theorem hostFlags_carry (h : x86Count i.rd.size.bits (i.countOf m) ≠ 0)
    (hop : i.op = .rotcl ∨ i.op = .rotcr) : (i.hostFlags c left m).cf = m.userFlags.cf := by
  have hsimple : i.simple = false := by
    unfold simple
    cases i.count with
    | cl => rfl
    | imm imm =>
        cases hop with
        | inl hop => rw [hop]; rfl
        | inr hop => rw [hop]; rfl
  unfold hostFlags
  rw [i.genflags_taken m h, hsimple]
  dsimp only
  unfold flagsIn
  cases i.count with
  | cl => rfl
  | imm imm =>
      dsimp only
      rw [if_pos hop]
      rfl

theorem hostResult_value (u : Flags) : (i.hostResult c left m).1 =
    (i.op.host u m.userFlags (i.operand c left m) (i.countOf m)).1 := by
  unfold hostResult
  rw [i.op.host_count _ _ _ (i.x86Count_countIn m)]
  by_cases h : x86Count i.rd.size.bits (i.countOf m) = 0
  · rw [i.op.host_zero _ _ _ h, i.op.host_zero _ _ _ h]
  · exact i.op.host_value _ _ _ _ _ h (i.hostFlags_carry c left m h)

theorem hostResult_carry (h : x86Count i.rd.size.bits (i.countOf m) ≠ 0) :
    (i.hostResult c left m).2.1 = (i.op.host (left (i.alu c).after.length).host m.userFlags
      (i.operand c left m) (i.countOf m)).2.1 := by
  unfold hostResult
  rw [i.op.host_count _ _ _ (i.x86Count_countIn m)]
  exact i.op.host_carry _ _ _ _ _ h (i.hostFlags_carry c left m h) rfl

theorem result_eq : i.result c left m = ((i.hostResult c left m).1,
    if i.op.isRotate then
      if i.countIn m = 0 then i.flagsIn m
      else { i.flagsIn m with
        cf := decide (i.setflags ≠ .none) && (i.hostResult c left m).2.1
        of := decide (i.setflags ≠ .none) && (i.hostResult c left m).2.2 }
    else if (i.countIn m).toNat % 256 = 0 then i.flagsIn m
    else { x86Genflags (i.hostResult c left m).1 with
      cf := decide (i.setflags ≠ .none) && (i.hostResult c left m).2.1
      of := decide (i.setflags ≠ .none) && (i.hostResult c left m).2.2 }) := by
  unfold result ShiftOp.eval
  cases i.op.isRotate with
  | true => rfl
  | false => rfl

/-- Where the count is `cl`, and the host takes no count of it though it is not zero, a shift sets
flags from its operand. -/
def Keeps : Prop :=
  i.count = .cl → i.op.isRotate = false → i.countOf m ≠ 0 →
    x86Count i.rd.size.bits (i.countOf m) = 0 →
      m.userFlags.pf = (x86Genflags (i.operand c left m)).pf ∧
        m.userFlags.zf = (x86Genflags (i.operand c left m)).zf ∧
        m.userFlags.sf = (x86Genflags (i.operand c left m)).sf

theorem result_value (u : Flags) :
    (i.result c left m).1 = (i.op.x86 u m.userFlags (i.operand c left m) (i.countOf m)).1 := by
  rw [result_eq]
  exact i.hostResult_value c left m u

/-- Where a count is taken the flags are those of x86. -/
theorem flags_taken (h : x86Count i.rd.size.bits (i.countOf m) ≠ 0) :
    (i.setflags.merge (i.result c left m).2 m.userFlags).SameButOf
      (i.op.x86 (left (i.alu c).after.length).host m.userFlags (i.operand c left m)
        (i.countOf m)).2 := by
  have hset := i.setflags_taken m h
  have hgen := i.genflags_taken m h
  have hbyte : (i.countIn m).toNat % 256 ≠ 0 := by
    intro hzero
    rw [← i.x86Count_countIn, hzero] at h
    exact h (Nat.zero_mod _)
  have hword : i.countIn m ≠ 0 := by
    intro hzero
    rw [hzero] at hbyte
    exact hbyte rfl
  rw [result_eq, if_neg hword, if_neg hbyte, hgen, i.hostResult_carry c left m h,
    i.hostResult_value c left m (left (i.alu c).after.length).host]
  unfold ShiftOp.x86 SetFlags.merge
  dsimp only
  rw [if_neg h, hset.1, hset.2]
  cases i.op.isRotate with
  | true => exact ⟨rfl, rfl, rfl, rfl⟩
  | false => exact ⟨rfl, rfl, rfl, rfl⟩

theorem setflags_imm {imm : BitVec 8} (hcount : i.count = .imm imm)
    (h : x86Count i.rd.size.bits (i.countOf m) = 0) : i.setflags = .none := by
  unfold countOf at h
  unfold setflags
  rw [hcount] at h ⊢
  dsimp only at h ⊢
  rw [← immCount_eq] at h
  exact if_pos h

theorem hostResult_cl (hcount : i.count = .cl) (h : x86Count i.rd.size.bits (i.countOf m) = 0) :
    i.hostResult c left m = (i.operand c left m, m.userFlags.cf, m.userFlags.of) := by
  have hgen : decide (i.setflags ≠ .none) = true := by
    unfold setflags
    rw [hcount]
    cases i.op.isRotate <;> rfl
  have hsimple : i.simple = false := by
    unfold simple
    rw [hcount]
  have hflags : i.flagsIn m = m.userFlags := by
    unfold flagsIn
    rw [hcount]
  unfold hostResult hostFlags
  rw [i.op.host_count _ _ _ (i.x86Count_countIn m), i.op.host_zero _ _ _ h, hgen, hsimple, hflags]
  rfl

theorem flags_zero (h : x86Count i.rd.size.bits (i.countOf m) = 0) (u : Flags) :
    (i.setflags.merge (i.result c left m).2 m.userFlags).SameButOf
        (i.op.x86 u m.userFlags (i.operand c left m) (i.countOf m)).2 ↔ i.Keeps c left m := by
  have hbefore : (i.op.x86 u m.userFlags (i.operand c left m) (i.countOf m)).2 = m.userFlags :=
    if_pos h
  rw [hbefore]
  cases hcount : i.count with
  | imm imm =>
      rw [i.setflags_imm m hcount h, SetFlags.merge_none]
      exact iff_of_true ⟨rfl, rfl, rfl, rfl⟩ fun hcl => by
        rw [hcount] at hcl
        cases hcl
  | cl =>
      have hset : i.setflags = { zf := !i.op.isRotate, cf := true, of := false } := by
        unfold setflags
        rw [hcount]
      have hgen : decide (i.setflags ≠ .none) = true := by
        rw [hset]
        cases i.op.isRotate <;> rfl
      have hflags : i.flagsIn m = m.userFlags := by
        unfold flagsIn
        rw [hcount]
      have hbyte : (i.countIn m).toNat % 256 = i.countOf m := by
        rw [countIn_toNat, hcount]
      rw [result_eq, i.hostResult_cl c left m hcount h, hgen, hflags, hset, hbyte]
      unfold Keeps
      cases hrotate : i.op.isRotate with
      | true =>
          refine iff_of_true ?_ fun _ hfalse => by cases hfalse
          by_cases hzero : i.countIn m = 0
          · rw [if_pos rfl, if_pos hzero, SetFlags.merge_self]
            exact ⟨rfl, rfl, rfl, rfl⟩
          · rw [if_pos rfl, if_neg hzero]
            exact ⟨rfl, rfl, rfl, rfl⟩
      | false =>
          by_cases hzero : i.countOf m = 0
          · rw [if_neg (by decide), if_pos hzero, SetFlags.merge_self]
            exact iff_of_true ⟨rfl, rfl, rfl, rfl⟩ fun _ _ hne => absurd hzero hne
          · rw [if_neg (by decide), if_neg hzero]
            constructor
            · intro hsame _ _ _ _
              exact ⟨hsame.pf.symm, hsame.zf.symm, hsame.sf.symm⟩
            · intro hkeeps
              have hall := hkeeps hcount rfl hzero h
              exact ⟨rfl, hall.1.symm, hall.2.1.symm, hall.2.2.symm⟩

/-- The op leaves what x86 does, but for a shift by `cl` whose count is cut to zero. -/
theorem right_iff (hwell : i.rd.WellFormed) : i.Right c left m ↔ i.Keeps c left m := by
  obtain ⟨m', hrun, hholds, hflags⟩ := i.runs_parts c left m hwell
  by_cases h : x86Count i.rd.size.bits (i.countOf m) = 0
  · constructor
    · rintro ⟨m'', u, hrun', hholds', hflags'⟩
      cases hrun.symm.trans hrun'
      rw [hflags] at hflags'
      exact (i.flags_zero c left m h u).mp hflags'
    · intro hkeeps
      refine ⟨m', .clear, hrun, ?_, ?_⟩
      · rw [← i.result_value c left m]
        exact hholds
      · rw [hflags]
        exact (i.flags_zero c left m h .clear).mpr hkeeps
  · refine iff_of_true ⟨m', (left (i.alu c).after.length).host, hrun, ?_, ?_⟩ ?_
    · rw [← i.result_value c left m]
      exact hholds
    · rw [hflags]
      exact i.flags_taken c left m h
    · exact fun _ _ _ hzero => absurd hzero h

end ShiftInsn

end FeS2.Decoder
