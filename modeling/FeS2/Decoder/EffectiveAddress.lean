import Mathlib.Logic.Basic
import FeS2.Decoder.MemOperand

/-!
What the uops of an address add up to. A uop `add` that sets no flags is the host's `adc` with
whatever carry flag the host has, so a sum may be off by one for each of them.
-/

namespace FeS2.Decoder

/-! Carries -/

/-- What the host's carry flag adds to the result of the uop. -/
def TransOp.carry (left : Leftover) (t : TransOp) : Nat :=
  if t.opcode = .add ∧ t.setflags = .none then left.carry.toNat else 0

/-- The carries that the uops of a list pick up, with others behind them. -/
def carries (left : Nat → Leftover) (us : List TransOp) : List TransOp → Nat
  | [] => 0
  | t :: ts => t.carry (left (ts.length + us.length)) + carries left us ts

/-- Those that the uops before the last one of the list pick up. -/
def carriesBefore (left : Nat → Leftover) (us : List TransOp) : List TransOp → Nat
  | [] => 0
  | [_] => 0
  | t :: t' :: ts =>
      t.carry (left ((t' :: ts).length + us.length)) + carriesBefore left us (t' :: ts)

theorem TransOp.carry_le (left : Leftover) (t : TransOp) : t.carry left ≤ 1 := by
  unfold carry
  split
  · exact Bool.toNat_le _
  · exact Nat.zero_le _

theorem carries_le (left : Nat → Leftover) (us ts : List TransOp) :
    carries left us ts ≤ ts.length := by
  induction ts with
  | nil => exact Nat.le_refl 0
  | cons t ts ih =>
      have ht := t.carry_le (left (ts.length + us.length))
      rw [carries, List.length_cons]
      omega

theorem carries_append (left : Nat → Leftover) (us ts ts' : List TransOp) :
    carries left us (ts ++ ts') = carries left (ts' ++ us) ts + carries left us ts' := by
  induction ts with
  | nil => exact (Nat.zero_add _).symm
  | cons t ts ih =>
      rw [List.cons_append, carries, carries, ih, List.length_append, List.length_append,
        Nat.add_assoc, Nat.add_assoc]

theorem carriesBefore_le (left : Nat → Leftover) (us ts : List TransOp) :
    carriesBefore left us ts ≤ carries left us ts := by
  induction ts with
  | nil => exact Nat.le_refl 0
  | cons t ts ih =>
      cases ts with
      | nil => exact Nat.zero_le _
      | cons t' ts => exact Nat.add_le_add_left ih _

theorem carriesBefore_append (left : Nat → Leftover) (us ts : List TransOp) {ts' : List TransOp}
    (h : ts' ≠ []) :
    carriesBefore left us (ts ++ ts') = carries left (ts' ++ us) ts + carriesBefore left us ts' := by
  induction ts with
  | nil => exact (Nat.zero_add _).symm
  | cons t ts ih =>
      cases hrest : ts ++ ts' with
      | nil => exact absurd (List.append_eq_nil_iff.mp hrest).2 h
      | cons t' rest =>
          rw [List.cons_append, hrest, carriesBefore, ← hrest, ih, carries, List.length_append,
            List.length_append, Nat.add_assoc, Nat.add_assoc]

theorem carriesBefore_concat (left : Nat → Leftover) (us ts : List TransOp) (t : TransOp) :
    carriesBefore left us (ts ++ [t]) = carries left (t :: us) ts :=
  carriesBefore_append left us ts (by simp)

theorem carriesBefore_single (left : Nat → Leftover) (us : List TransOp) (t : TransOp) :
    carriesBefore left us [t] = 0 := rfl

theorem carries_single (left : Nat → Leftover) (us : List TransOp) (t : TransOp) :
    carries left us [t] = t.carry (left us.length) := by
  rw [carries, carries, List.length_nil, Nat.zero_add, Nat.add_zero]

/-- The uops run through to those behind them. -/
def Runs (left : Nat → Leftover) (us ts : List TransOp) (m m' : Machine) : Prop :=
  ∀ next, runUops left next (ts ++ us) m = runUops left next us m'

theorem Runs.nil (left : Nat → Leftover) (us : List TransOp) (m : Machine) :
    Runs left us [] m m := fun _ => rfl

theorem Runs.append {left : Nat → Leftover} {us ts ts' : List TransOp} {m m1 m' : Machine}
    (h : Runs left (ts' ++ us) ts m m1) (h' : Runs left us ts' m1 m') :
    Runs left us (ts ++ ts') m m' := by
  intro next
  rw [List.append_assoc]
  exact (h next).trans (h' next)

theorem Runs.cons {left : Nat → Leftover} {us ts : List TransOp} {t : TransOp}
    {m m1 m' : Machine} (h : Runs left (ts ++ us) [t] m m1) (h' : Runs left us ts m1 m') :
    Runs left us (t :: ts) m m' := h.append h'

/-! Single uops -/

section
variable {left : Nat → Leftover} {us : List TransOp} {m : Machine}

theorem exec_add {t : TransOp} (hop : t.opcode = .add) (hset : t.setflags = .none)
    (left : Leftover) (m : Machine) :
    t.exec left m = some (.result (x86Merge t.size (m.data t.ra)
      (m.data t.ra + t.readRb m + BitVec.ofNat 64 (t.carry left))) .clear) := by
  have hcarry : t.carry left = left.carry.toNat := if_pos ⟨hop, hset⟩
  have hbit : BitVec.ofNat 64 left.carry.toNat = (BitVec.ofBool left.carry).setWidth 64 := by
    cases left.carry <;> rfl
  rw [TransOp.exec, hop, hset, hcarry, hbit]
  refine congrArg (fun x => some (Outcome.result x Flags.clear)) (x86Merge_congr _ ?_)
  change ((_ + _ + (BitVec.ofBool left.carry).setWidth t.size.bits : BitVec t.size.bits).setWidth
    64).setWidth t.size.bits = _
  rw [BitVec.setWidth_setWidth_of_le _ t.size.bits_le, BitVec.setWidth_eq, Size.setWidth_add,
    Size.setWidth_add, BitVec.setWidth_setWidth_of_le _ t.size.bits_le]

theorem exec_adda {t : TransOp} (hop : t.opcode = .adda) (left : Leftover) (m : Machine) :
    ∃ f, t.exec left m = some (.result (x86Merge t.size (m.data t.ra)
      (m.data t.ra + t.readRb m + t.readRc m <<< t.extshift)) f) := by
  rw [TransOp.exec, hop]
  refine ⟨_, congrArg (fun x => some (Outcome.result x _)) (x86Merge_congr _ ?_)⟩
  change ((_ + _ + _ : BitVec t.size.bits).setWidth 64).setWidth t.size.bits = _
  rw [BitVec.setWidth_setWidth_of_le _ t.size.bits_le, BitVec.setWidth_eq, Size.setWidth_add,
    Size.setWidth_add]

theorem runs_result {t : TransOp} {x : W64} {f : Flags}
    (h : t.exec (left us.length) m = some (.result x f)) :
    Runs left us [t] m (t.write (left us.length) x f m) := fun _ => runUops_result h

theorem carries_other {t : TransOp} (hop : t.opcode ≠ .add) : carries left us [t] = 0 := by
  rw [carries_single]
  exact if_neg fun h => hop h.1

end

section
variable (left : Nat → Leftover) (us : List TransOp) (m : Machine)

/-- An `add` that sets no flags. -/
theorem runs_addMerge {t : TransOp} (hop : t.opcode = .add) (hset : t.setflags = .none)
    (hrd : t.rd ≠ .zero) (hflag : t.rd.isFlag = false) :
    ∃ m', m.Sets t.rd (x86Merge t.size (m.data t.ra)
        (m.data t.ra + t.readRb m + BitVec.ofNat 64 (carries left us [t]))) m' ∧
      Runs left us [t] m m' := by
  have hexec := exec_add hop hset (left us.length) m
  rw [← carries_single left us t] at hexec
  exact ⟨_, TransOp.write_sets hrd hflag, runs_result hexec⟩

theorem runs_add {t : TransOp} (hop : t.opcode = .add) (hset : t.setflags = .none)
    (hsize : t.size = .w64) (hrd : t.rd ≠ .zero) (hflag : t.rd.isFlag = false) :
    ∃ m', m.Sets t.rd (m.data t.ra + t.readRb m + BitVec.ofNat 64 (carries left us [t])) m' ∧
      Runs left us [t] m m' := by
  have h := runs_addMerge left us m hop hset hrd hflag
  rw [hsize] at h
  exact h

theorem runs_addaMerge {t : TransOp} (hop : t.opcode = .adda) (hrd : t.rd ≠ .zero)
    (hflag : t.rd.isFlag = false) :
    ∃ m', m.Sets t.rd (x86Merge t.size (m.data t.ra)
        (m.data t.ra + t.readRb m + t.readRc m <<< t.extshift)) m' ∧
      Runs left us [t] m m' := by
  have ⟨f, hexec⟩ := exec_adda hop (left us.length) m
  exact ⟨_, TransOp.write_sets hrd hflag, runs_result hexec⟩

theorem runs_adda {t : TransOp} (hop : t.opcode = .adda) (hsize : t.size = .w64)
    (hrd : t.rd ≠ .zero) (hflag : t.rd.isFlag = false) :
    ∃ m', m.Sets t.rd (m.data t.ra + t.readRb m + t.readRc m <<< t.extshift) m' ∧
      Runs left us [t] m m' := by
  have h := runs_addaMerge left us m hop hrd hflag
  rw [hsize] at h
  exact h

end

/-! Addresses -/

/-- The base of the segment of a prefix. -/
def DecodeContext.segment (c : DecodeContext) (m : Machine) : W64 :=
  match c.segmentBase with
  | some varoffs => m.context (m.data .ctx + varoffs)
  | none => 0

def addImmSized (size : Size) (rd ra : Reg) (imm : W64) : TransOp :=
  { opcode := .add, rd := rd, ra := ra, rb := .imm, rc := .zero, size := size, rbimm := imm }

namespace MemOperand
variable (c : DecodeContext) (a : MemOperand) (m : Machine)

def index : W64 :=
  match a.indexreg with
  | some r => m.data (.gpr r) <<< a.scale
  | none => 0

/-- Base, index and displacement, on whole words. -/
def sum : W64 :=
  (if a.basereg = .rip then c.rip else m.data a.basereg.archReg) + a.index m + a.offset

/-- Relative to the instruction pointer there is no index. -/
def WellFormed : Prop := a.basereg = .rip → a.indexreg = none

/-- What is added to the base before the last uop. -/
def addedBefore (size : Size) : W64 :=
  (if a.offset &&& bitmask size.sizeshift ≠ 0 then a.offset else 0) +
    if a.offset ≠ 0 then a.index m else 0

def biasIf (forceSegBias : Bool) : List TransOp × Reg :=
  if forceSegBias then biasBySegreg c a.basereg.archReg else ([], a.basereg.archReg)

/-- The uops behind those of the segment, whose sum with the base is in `basereg`. -/
def addressOnlyRest (size : Size) (destreg basereg : Reg) : List TransOp :=
  if a.basereg = .rip then [addImm destreg basereg (c.rip + a.offset)]
  else
    let immIsNotEncodable : Bool := a.offset &&& bitmask size.sizeshift ≠ 0
    let extra := if immIsNotEncodable then [addImm .temp8 basereg a.offset] else []
    let base := if immIsNotEncodable then .temp8 else basereg
    let offset := if immIsNotEncodable then 0 else a.offset
    match a.indexreg with
    | none => extra ++ [addImmSized size destreg base offset]
    | some indexreg =>
      if a.offset = 0 then
        if a.scale ≠ 0 then
          [{ opcode := .adda, rd := destreg, ra := basereg, rb := .zero, rc := .gpr indexreg,
             size := size, extshift := a.scale }]
        else
          [{ opcode := .add, rd := destreg, ra := basereg, rb := .gpr indexreg, rc := .zero,
             size := size }]
      else
        extra ++
          [{ opcode := .adda, rd := .temp8, ra := base, rb := .zero, rc := .gpr indexreg,
             size := .w64, extshift := a.scale },
            addImmSized size destreg .temp8 offset]

/-- `address_generate_and_load_or_store` with `OP_add`, which leaves the address in a register. -/
def addressOnly (forceSegBias : Bool) (size : Size) (destreg : Reg) : List TransOp :=
  (a.biasIf c forceSegBias).1 ++
    a.addressOnlyRest c size destreg (a.biasIf c forceSegBias).2

end MemOperand

/-! What the uops add up to -/

theorem MemBase.archReg_ne (b : MemBase) : b.archReg.isFlag = false ∧ b.archReg ≠ .imm ∧
    b.archReg ≠ .temp6 ∧ b.archReg ≠ .temp8 := by
  cases b with
  | zero | rip | gpr r => exact ⟨rfl, by rintro ⟨⟩, by rintro ⟨⟩, by rintro ⟨⟩⟩

section
variable (c : DecodeContext) (left : Nat → Leftover) (us : List TransOp) (m : Machine)

/-- Only the register that the base and the segment are added in changes. -/
theorem runs_bias (b : MemBase) :
    ∃ m', (∀ r, r.isFlag = false → r ≠ .temp6 → m'.data r = m.data r) ∧ m'.memory = m.memory ∧
      m'.data (biasBySegreg c b.archReg).2 = c.segment m + m.data b.archReg +
        BitVec.ofNat 64 (carries left us (biasBySegreg c b.archReg).1) ∧
      Runs left us (biasBySegreg c b.archReg).1 m m' := by
  obtain ⟨hflag, himm, h6, -⟩ := b.archReg_ne
  unfold biasBySegreg DecodeContext.segment
  cases c.segmentBase with
  | none =>
      refine ⟨m, fun _ _ _ => rfl, rfl, ?_, .nil left us m⟩
      exact ((BitVec.add_zero _).trans (BitVec.zero_add _)).symm
  | some varoffs =>
      let ld : TransOp := { opcode := .ld, rd := .temp6, ra := .ctx, rb := .imm, rc := .zero,
                            size := .w64, rbimm := varoffs, internal := true }
      let add : TransOp := { opcode := .add, rd := .temp6, ra := .temp6, rb := b.archReg,
                             rc := .zero, size := .w64 }
      have hld : ld.exec (left (add :: us).length) m =
          some (.result (m.context (m.data .ctx + varoffs)) .clear) := rfl
      have hloaded : ∃ m1, m.Sets .temp6 (m.context (m.data .ctx + varoffs)) m1 ∧
          Runs left (add :: us) [ld] m m1 :=
        ⟨_, ld.write_sets (by rintro ⟨⟩) rfl, runs_result hld⟩
      obtain ⟨m1, hsets, hrun1⟩ := hloaded
      have ⟨m', hsum, hrun⟩ := runs_add left us m1 (t := add) rfl rfl rfl
        (by rintro ⟨⟩) rfl
      have hcarries : carries left us [ld, add] = carries left us [add] := by
        rw [← List.singleton_append, carries_append, carries_other (by rintro ⟨⟩), Nat.zero_add]
      refine ⟨m', fun r hr hne => ?_, hsum.memory.trans hsets.memory, hsum.data.trans ?_,
        hrun1.cons hrun⟩
      · rw [hsum.other r hr hne, hsets.other r hr hne]
      · rw [TransOp.readRb, if_neg himm, hsets.other _ hflag h6, hcarries]
        exact congrArg (· + _ + _) hsets.data

/-- A displacement that is added before leaves none. -/
theorem runs_extra (large : Bool) (ra : Reg) (imm : W64) :
    ∃ m', (∀ r, r.isFlag = false → r ≠ .temp8 → m'.data r = m.data r) ∧ m'.memory = m.memory ∧
      m'.data (if large then .temp8 else ra) = m.data ra + (if large then imm else 0) +
        BitVec.ofNat 64 (carries left us (if large then [addImm .temp8 ra imm] else [])) ∧
      Runs left us (if large then [addImm .temp8 ra imm] else []) m m' := by
  cases large with
  | false =>
      refine ⟨m, fun _ _ _ => rfl, rfl, ?_, .nil left us m⟩
      exact ((BitVec.add_zero _).trans (BitVec.add_zero _)).symm
  | true =>
      have ⟨m', hsum, hrun⟩ := runs_add left us m
        (t := addImm .temp8 ra imm) rfl rfl rfl (by rintro ⟨⟩) rfl
      exact ⟨m', hsum.other, hsum.memory, hsum.data, hrun⟩

/-- The uops of an address but for those of the segment, whose sum with the base is in `ra`. -/
def MemOperand.addressRest (size : Size) (ra : Reg) (a : MemOperand) : List TransOp :=
  if a.basereg = .rip then [addImm .temp8 ra (c.rip + a.offset)]
  else
    match a.indexreg with
    | none => if a.immIsNotEncodable size then [addImm .temp8 ra a.offset] else []
    | some indexreg =>
      if a.offset = 0 then
        if a.scale ≠ 0 then
          [{ opcode := .adda, rd := .temp8, ra := ra, rb := .zero, rc := .gpr indexreg,
             size := .w64, extshift := a.scale }]
        else
          [{ opcode := .add, rd := .temp8, ra := ra, rb := .gpr indexreg, rc := .zero,
             size := .w64 }]
      else
        (if a.immIsNotEncodable size then [addImm .temp8 ra a.offset] else []) ++
          [{ opcode := .adda, rd := .temp8, ra := if a.immIsNotEncodable size then .temp8 else ra,
             rb := .zero, rc := .gpr indexreg, size := .w64, extshift := a.scale }]

theorem MemOperand.addressGenerate_uops (size : Size) (a : MemOperand) :
    (a.addressGenerate c size).1 = (biasBySegreg c a.basereg.archReg).1 ++
      a.addressRest c size (biasBySegreg c a.basereg.archReg).2 := by
  unfold addressGenerate addressRest
  split
  · rfl
  · cases a.indexreg with
    | none => rfl
    | some indexreg =>
        dsimp only
        split
        · split
          · rfl
          · rfl
        · exact List.append_assoc _ _ _

variable {a : MemOperand}

/-- What is added to the base. -/
theorem runs_addressRest (h : a.WellFormed) (size : Size) :
    ∃ m', (∀ r, r.isFlag = false → r ≠ .temp8 → m'.data r = m.data r) ∧ m'.memory = m.memory ∧
      m'.data (a.addressGenerate c size).2.1 + (a.addressGenerate c size).2.2 =
        m.data (biasBySegreg c a.basereg.archReg).2 +
          ((if a.basereg = .rip then c.rip else 0) + a.index m + a.offset) +
          BitVec.ofNat 64 (carries left us
            (a.addressRest c size (biasBySegreg c a.basereg.archReg).2)) ∧
      Runs left us (a.addressRest c size (biasBySegreg c a.basereg.archReg).2) m m' := by
  unfold MemOperand.addressGenerate MemOperand.addressRest MemOperand.index
  dsimp only
  generalize (biasBySegreg c a.basereg.archReg).2 = ra
  by_cases hrip : a.basereg = .rip
  · rw [if_pos hrip, if_pos hrip, if_pos hrip, h hrip]
    have ⟨m', hsum, hrun⟩ := runs_add left us m
      (t := addImm .temp8 ra (c.rip + a.offset)) rfl rfl rfl (by rintro ⟨⟩) rfl
    refine ⟨m', hsum.other, hsum.memory, ?_, hrun⟩
    have hdata : m'.data .temp8 = m.data ra + (c.rip + a.offset) +
        BitVec.ofNat 64 (carries left us [addImm .temp8 ra (c.rip + a.offset)]) := hsum.data
    dsimp only
    rw [hdata]
    grind
  · rw [if_neg hrip, if_neg hrip, if_neg hrip]
    cases hindex : a.indexreg with
    | none =>
        have ⟨m', hother, hmem, hdata, hrun⟩ :=
          runs_extra left us m (a.immIsNotEncodable size) ra a.offset
        refine ⟨m', hother, hmem, ?_, hrun⟩
        dsimp only
        rw [hdata]
        grind
    | some indexreg =>
        dsimp only
        by_cases hzero : a.offset = 0
        · rw [if_pos hzero, if_pos hzero]
          by_cases hscale : a.scale ≠ 0
          · rw [if_pos hscale, if_pos hscale]
            have ⟨m', hsum, hrun⟩ := runs_adda left us m
              (t := { opcode := .adda, rd := .temp8, ra := ra, rb := .zero, rc := .gpr indexreg,
                      size := .w64, extshift := a.scale }) rfl rfl (by rintro ⟨⟩) rfl
            refine ⟨m', hsum.other, hsum.memory, ?_, hrun⟩
            have hdata : m'.data .temp8 =
                m.data ra + 0 + m.data (.gpr indexreg) <<< a.scale := hsum.data
            rw [carries_other (by rintro ⟨⟩), hdata, hzero]
            grind
          · rw [if_neg hscale, if_neg hscale]
            have ⟨m', hsum, hrun⟩ := runs_add left us m
              (t := { opcode := .add, rd := .temp8, ra := ra, rb := .gpr indexreg, rc := .zero,
                      size := .w64 }) rfl rfl rfl (by rintro ⟨⟩) rfl
            refine ⟨m', hsum.other, hsum.memory, ?_, hrun⟩
            have hdata : m'.data .temp8 = m.data ra + m.data (.gpr indexreg) + _ := hsum.data
            rw [hdata, hzero, not_not.mp hscale, BitVec.shiftLeft_zero]
            grind
        · rw [if_neg hzero, if_neg hzero]
          let adda (base : Reg) : TransOp :=
            { opcode := .adda, rd := .temp8, ra := base, rb := .zero, rc := .gpr indexreg,
              size := .w64, extshift := a.scale }
          have ⟨m1, hother, hmem, hdata, hrun⟩ :=
            runs_extra left (adda (if a.immIsNotEncodable size then .temp8 else ra) :: us) m
              (a.immIsNotEncodable size) ra a.offset
          have ⟨m', hsum, hrun'⟩ := runs_adda left us m1
            (t := adda (if a.immIsNotEncodable size then .temp8 else ra)) rfl rfl
            (by rintro ⟨⟩) rfl
          refine ⟨m', fun r hr hne => (hsum.other r hr hne).trans (hother r hr hne),
            hsum.memory.trans hmem, ?_, hrun.append hrun'⟩
          have hsum' : m'.data .temp8 =
              m1.data (if a.immIsNotEncodable size then .temp8 else ra) + 0 +
                m1.data (.gpr indexreg) <<< a.scale := hsum.data
          rw [carries_append, carries_other (by rintro ⟨⟩), hsum',
            hother (.gpr indexreg) rfl (by rintro ⟨⟩)]
          dsimp only
          grind

/-- The base of a load or a store and its immediate add up to the address. -/
theorem runs_addressGenerate (h : a.WellFormed) (size : Size) :
    ∃ m', m.SameBut m' ∧
      m'.data (a.addressGenerate c size).2.1 + (a.addressGenerate c size).2.2 =
        c.segment m + a.sum c m +
          BitVec.ofNat 64 (carries left us (a.addressGenerate c size).1) ∧
      Runs left us (a.addressGenerate c size).1 m m' := by
  rw [a.addressGenerate_uops, carries_append, BitVec.ofNat_add]
  have ⟨m1, hother, hmem, hbias, hrun1⟩ := runs_bias c left
    (a.addressRest c size (biasBySegreg c a.basereg.archReg).2 ++ us) m a.basereg
  have ⟨m', hother', hmem', hdata, hrun⟩ := runs_addressRest c left us m1 h size
  have hindex : a.index m1 = a.index m := by
    unfold MemOperand.index
    cases a.indexreg with
    | none => rfl
    | some r =>
        dsimp only
        rw [hother (.gpr r) rfl (by rintro ⟨⟩)]
  refine ⟨m', ⟨fun r hr h6 h8 => (hother' r hr h8).trans (hother r hr h6), hmem'.trans hmem⟩, ?_,
    hrun1.append hrun⟩
  rw [hdata, hbias, hindex, MemOperand.sum]
  by_cases hrip : a.basereg = .rip
  · rw [if_pos hrip, if_pos hrip, hrip]
    have hbase : m.data MemBase.rip.archReg = 0 := rfl
    rw [hbase]
    grind
  · rw [if_neg hrip, if_neg hrip]
    grind

theorem runs_biasIf (forceSegBias : Bool) :
    ∃ m', (∀ r, r.isFlag = false → r ≠ .temp6 → m'.data r = m.data r) ∧ m'.memory = m.memory ∧
      m'.data (a.biasIf c forceSegBias).2 =
        (if forceSegBias then c.segment m else 0) + m.data a.basereg.archReg +
          BitVec.ofNat 64 (carries left us (a.biasIf c forceSegBias).1) ∧
      Runs left us (a.biasIf c forceSegBias).1 m m' := by
  cases forceSegBias with
  | true => exact runs_bias c left us m a.basereg
  | false =>
      refine ⟨m, fun _ _ _ => rfl, rfl, ?_, .nil left us m⟩
      exact ((BitVec.add_zero _).trans (BitVec.zero_add _)).symm

variable (destreg ra : Reg)

theorem runs_onlyRip (hrip : a.basereg = .rip) (size : Size) (hrd : destreg ≠ .zero)
    (hflag : destreg.isFlag = false) :
    ∃ m', m.Sets destreg (m.data ra + (c.rip + a.offset) +
        BitVec.ofNat 64 (carries left us (a.addressOnlyRest c size destreg ra))) m' ∧
      Runs left us (a.addressOnlyRest c size destreg ra) m m' := by
  unfold MemOperand.addressOnlyRest
  rw [if_pos hrip]
  exact runs_add left us m (t := addImm destreg ra (c.rip + a.offset)) rfl rfl rfl hrd hflag

theorem runs_addImmSized (size : Size) (imm : W64) (hrd : destreg ≠ .zero)
    (hflag : destreg.isFlag = false) :
    ∃ m', m.Sets destreg (x86Merge size (m.data ra) (m.data ra + imm +
        BitVec.ofNat 64 (carries left us [addImmSized size destreg ra imm]))) m' ∧
      Runs left us [addImmSized size destreg ra imm] m m' :=
  runs_addMerge left us m (t := addImmSized size destreg ra imm) rfl rfl hrd hflag

/-- The last uop adds at its size. -/
theorem runs_onlyRest (hrip : a.basereg ≠ .rip) (size : Size) (hrd : destreg ≠ .zero)
    (hflag : destreg.isFlag = false) :
    ∃ m', (∀ r, r.isFlag = false → r ≠ .temp8 → r ≠ destreg → m'.data r = m.data r) ∧
      m'.memory = m.memory ∧
      m'.data destreg = x86Merge size
        (m.data ra + a.addedBefore m size +
          BitVec.ofNat 64 (carriesBefore left us (a.addressOnlyRest c size destreg ra)))
        (m.data ra + a.index m + a.offset +
          BitVec.ofNat 64 (carries left us (a.addressOnlyRest c size destreg ra))) ∧
      Runs left us (a.addressOnlyRest c size destreg ra) m m' := by
  unfold MemOperand.addressOnlyRest MemOperand.addedBefore MemOperand.index
  rw [if_neg hrip]
  have hlarge : ∀ large : Bool, decide (a.offset &&& bitmask size.sizeshift ≠ 0) = large →
      (if a.offset &&& bitmask size.sizeshift ≠ 0 then a.offset else 0) =
        if large then a.offset else 0 := by
    rintro large rfl
    exact if_congr decide_eq_true_iff.symm rfl rfl
  cases hindex : a.indexreg with
  | none =>
      dsimp only
      rw [hlarge _ rfl]
      generalize decide (a.offset &&& bitmask size.sizeshift ≠ 0) = large
      have ⟨m1, hother, hmem, hdata, hrun⟩ := runs_extra left
        (addImmSized size destreg (if large then .temp8 else ra) (if large then 0 else a.offset) ::
          us) m large ra a.offset
      have ⟨m', hsum, hrun'⟩ := runs_addImmSized left us m1 destreg
        (if large then .temp8 else ra) size (if large then 0 else a.offset) hrd hflag
      have hcarries := carries_append left us (if large then [addImm .temp8 ra a.offset] else [])
        [addImmSized size destreg (if large then .temp8 else ra) (if large then 0 else a.offset)]
      refine ⟨m', fun r hr h8 hne => (hsum.other r hr hne).trans (hother r hr h8),
        hsum.memory.trans hmem, ?_, hrun.append hrun'⟩
      rw [hcarries, carriesBefore_concat, hsum.data, hdata, BitVec.ofNat_add]
      congr 1
      · grind
      · grind
  | some indexreg =>
      dsimp only
      by_cases hzero : a.offset = 0
      · rw [if_pos hzero]
        have hbefore : (if a.offset &&& bitmask size.sizeshift ≠ 0 then a.offset else 0) = 0 := by
          rw [hzero]
          exact ite_self 0
        by_cases hscale : a.scale ≠ 0
        · rw [if_pos hscale]
          have ⟨m', hsum, hrun⟩ := runs_addaMerge left us m
            (t := { opcode := .adda, rd := destreg, ra := ra, rb := .zero, rc := .gpr indexreg,
                    size := size, extshift := a.scale }) rfl hrd hflag
          refine ⟨m', fun r hr _ hne => hsum.other r hr hne, hsum.memory, ?_,
            hrun⟩
          have hdata : m'.data destreg = x86Merge size (m.data ra)
              (m.data ra + 0 + m.data (.gpr indexreg) <<< a.scale) := hsum.data
          rw [carries_other (by rintro ⟨⟩), carriesBefore_single, hdata, hbefore,
            if_neg (not_not.mpr hzero), hzero]
          congr 1
          · grind
          · grind
        · rw [if_neg hscale]
          have ⟨m', hsum, hrun⟩ := runs_addMerge left us m
            (t := { opcode := .add, rd := destreg, ra := ra, rb := .gpr indexreg, rc := .zero,
                    size := size }) rfl rfl hrd hflag
          refine ⟨m', fun r hr _ hne => hsum.other r hr hne, hsum.memory, ?_,
            hrun⟩
          have hdata : m'.data destreg = x86Merge size (m.data ra)
              (m.data ra + m.data (.gpr indexreg) + _) := hsum.data
          rw [carriesBefore_single, hdata, hbefore, if_neg (not_not.mpr hzero), hzero,
            not_not.mp hscale, BitVec.shiftLeft_zero]
          congr 1
          · grind
          · grind
      · rw [if_neg hzero, if_pos hzero, hlarge _ rfl]
        generalize decide (a.offset &&& bitmask size.sizeshift ≠ 0) = large
        let adda (base : Reg) : TransOp :=
          { opcode := .adda, rd := .temp8, ra := base, rb := .zero, rc := .gpr indexreg,
            size := .w64, extshift := a.scale }
        let last := addImmSized size destreg .temp8 (if large then 0 else a.offset)
        have ⟨m1, hother, hmem, hdata, hrun⟩ := runs_extra left
          (adda (if large then .temp8 else ra) :: last :: us) m large ra a.offset
        have ⟨m2, hsum, hrun'⟩ := runs_adda left (last :: us) m1
          (t := adda (if large then .temp8 else ra)) rfl rfl (by rintro ⟨⟩) rfl
        have ⟨m', hlast, hrun''⟩ := runs_addImmSized left us m2 destreg .temp8 size
          (if large then 0 else a.offset) hrd hflag
        have hcarries : carries left us ((if large then [addImm .temp8 ra a.offset] else []) ++
            [adda (if large then .temp8 else ra), last]) =
            carries left (adda (if large then .temp8 else ra) :: last :: us)
              (if large then [addImm .temp8 ra a.offset] else []) + carries left us [last] := by
          rw [carries_append, ← List.singleton_append, carries_append left us,
            carries_other (by rintro ⟨⟩), Nat.zero_add]
          rfl
        have hbase : m2.data .temp8 = m1.data (if large then .temp8 else ra) + 0 +
            m1.data (.gpr indexreg) <<< a.scale := hsum.data
        have hearlier : carriesBefore left us ((if large then [addImm .temp8 ra a.offset] else []) ++
            [adda (if large then .temp8 else ra), last]) =
            carries left (adda (if large then .temp8 else ra) :: last :: us)
              (if large then [addImm .temp8 ra a.offset] else []) := by
          rw [carriesBefore_append _ _ _ (by simp), ← List.singleton_append, carriesBefore_concat,
            carries_other (by rintro ⟨⟩)]
          rfl
        refine ⟨m', fun r hr h8 hne => ?_, hlast.memory.trans (hsum.memory.trans hmem), ?_,
          hrun.append (hrun'.cons hrun'')⟩
        · rw [hlast.other r hr hne, hsum.other r hr h8, hother r hr h8]
        · rw [hlast.data, hearlier, hbase, hdata, hother (.gpr indexreg) rfl (by rintro ⟨⟩),
            hcarries,
            BitVec.ofNat_add]
          congr 1
          · grind
          · grind

theorem addressOnlyRest_ne_nil (a : MemOperand) (size : Size) (destreg ra : Reg) :
    a.addressOnlyRest c size destreg ra ≠ [] := by
  unfold MemOperand.addressOnlyRest
  split
  · exact List.cons_ne_nil _ _
  · cases a.indexreg with
    | none => exact List.append_ne_nil_of_right_ne_nil _ (List.cons_ne_nil _ _)
    | some indexreg =>
        dsimp only
        split
        · split
          · exact List.cons_ne_nil _ _
          · exact List.cons_ne_nil _ _
        · exact List.append_ne_nil_of_right_ne_nil _ (List.cons_ne_nil _ _)

/-- What the uops leave in the register: the sum with the carries, cut to the size and, where the
size is small, below what the last uop adds to. -/
def MemOperand.addressOnlyValue (a : MemOperand) (forceSegBias : Bool) (size : Size)
    (destreg : Reg) : W64 :=
  let segment := if forceSegBias then c.segment m else 0
  let ts := a.addressOnly c forceSegBias size destreg
  let sum := segment + a.sum c m + BitVec.ofNat 64 (carries left us ts)
  if a.basereg = .rip then sum
  else
    x86Merge size
      (segment + m.data a.basereg.archReg + a.addedBefore m size +
        BitVec.ofNat 64 (carriesBefore left us ts)) sum

/-- The address that the uops leave in a register. -/
theorem runs_addressOnly (h : a.WellFormed) (forceSegBias : Bool) (size : Size)
    (hrd : destreg ≠ .zero) (hflag : destreg.isFlag = false) :
    ∃ m', (∀ r, r.isFlag = false → r ≠ .temp6 → r ≠ .temp8 → r ≠ destreg →
        m'.data r = m.data r) ∧ m'.memory = m.memory ∧
      m'.data destreg = a.addressOnlyValue c left us m forceSegBias size destreg ∧
      Runs left us (a.addressOnly c forceSegBias size destreg) m m' := by
  unfold MemOperand.addressOnlyValue MemOperand.addressOnly
  dsimp only
  rw [carries_append, carriesBefore_append _ _ _ (addressOnlyRest_ne_nil c a size destreg _)]
  have ⟨m1, hother, hmem, hbias, hrun1⟩ := runs_biasIf c left
    (a.addressOnlyRest c size destreg (a.biasIf c forceSegBias).2 ++ us) m (a := a) forceSegBias
  have hindex : a.index m1 = a.index m := by
    unfold MemOperand.index
    cases a.indexreg with
    | none => rfl
    | some r =>
        dsimp only
        rw [hother (.gpr r) rfl (by rintro ⟨⟩)]
  by_cases hrip : a.basereg = .rip
  · have ⟨m', hsum, hrun⟩ := runs_onlyRip c left us m1 destreg (a.biasIf c forceSegBias).2
      hrip size hrd hflag
    refine ⟨m', fun r hr h6 _ hne => (hsum.other r hr hne).trans (hother r hr h6),
      hsum.memory.trans hmem, ?_, hrun1.append hrun⟩
    have hbase : m.data a.basereg.archReg = 0 := hrip ▸ rfl
    have hnone : a.index m = 0 := by rw [MemOperand.index, h hrip]
    rw [if_pos hrip, hsum.data, hbias, BitVec.ofNat_add, MemOperand.sum, if_pos hrip, hbase,
      hnone]
    grind
  · have ⟨m', hother', hmem', hdata, hrun⟩ := runs_onlyRest c left us m1
      destreg (a.biasIf c forceSegBias).2 hrip size hrd hflag
    have hbefore : a.addedBefore m1 size = a.addedBefore m size := by
      rw [MemOperand.addedBefore, MemOperand.addedBefore, hindex]
    refine ⟨m', fun r hr h6 h8 hne => (hother' r hr h8 hne).trans (hother r hr h6),
      hmem'.trans hmem, ?_, hrun1.append hrun⟩
    rw [if_neg hrip, hdata, hbias, hbefore, hindex, BitVec.ofNat_add, BitVec.ofNat_add,
      MemOperand.sum, if_neg hrip]
    congr 1
    · grind
    · grind

end

theorem runs_stored {left : Nat → Leftover} {us : List TransOp} {m : Machine} {t : TransOp}
    {memory : W64 → BitVec 8}
    (h : t.exec (left us.length) m = some (.stored memory)) :
    Runs left us [t] m { m with memory := memory } := fun next => by
  change runUops left next (t :: us) m = _
  rw [runUops, h]

theorem setsNone_bias (c : DecodeContext) (basereg : Reg) :
    ∀ t ∈ (biasBySegreg c basereg).1, t.SetsNone := by
  unfold biasBySegreg
  split
  · simp only [List.forall_mem_cons, List.not_mem_nil]
    exact ⟨⟨rfl, rfl⟩, ⟨rfl, rfl⟩, fun _ => nofun⟩
  · exact fun _ => nofun

theorem setsNone_addressOnly (c : DecodeContext) (a : MemOperand) (forceSegBias : Bool)
    (size : Size) {destreg : Reg} (hrd : destreg.isFlag = false) :
    ∀ t ∈ a.addressOnly c forceSegBias size destreg, t.SetsNone := by
  have hadd : ∀ ra imm, (addImm .temp8 ra imm).SetsNone := fun _ _ => ⟨rfl, rfl⟩
  have hextra : ∀ (large : Bool) (ra : Reg) (imm : W64),
      ∀ t ∈ (if large then [addImm .temp8 ra imm] else []), t.SetsNone := by
    intro large ra imm
    cases large with
    | false => exact fun _ => nofun
    | true => exact List.forall_mem_singleton.mpr (hadd ra imm)
  unfold MemOperand.addressOnly
  rw [List.forall_mem_append]
  constructor
  · unfold MemOperand.biasIf
    split
    · exact setsNone_bias c _
    · exact fun _ => nofun
  · unfold MemOperand.addressOnlyRest
    split
    · exact List.forall_mem_singleton.mpr ⟨rfl, hrd⟩
    · cases a.indexreg with
      | none =>
          exact List.forall_mem_append.mpr
            ⟨hextra _ _ _, List.forall_mem_singleton.mpr ⟨rfl, hrd⟩⟩
      | some indexreg =>
          dsimp only
          split
          · split
            · exact List.forall_mem_singleton.mpr ⟨rfl, hrd⟩
            · exact List.forall_mem_singleton.mpr ⟨rfl, hrd⟩
          · exact List.forall_mem_append.mpr ⟨hextra _ _ _, List.forall_mem_cons.mpr
              ⟨⟨rfl, rfl⟩, List.forall_mem_singleton.mpr ⟨rfl, hrd⟩⟩⟩

theorem setsNone_addressGenerate (c : DecodeContext) (size : Size) (a : MemOperand) :
    ∀ t ∈ (a.addressGenerate c size).1, t.SetsNone := by
  have hadd : ∀ ra imm, (addImm .temp8 ra imm).SetsNone := fun _ _ => ⟨rfl, rfl⟩
  have hextra : ∀ ra, ∀ t ∈ (if a.immIsNotEncodable size then [addImm .temp8 ra a.offset] else []),
      t.SetsNone := by
    intro ra
    split
    · exact List.forall_mem_singleton.mpr (hadd ra _)
    · exact fun _ => nofun
  rw [a.addressGenerate_uops, List.forall_mem_append]
  refine ⟨setsNone_bias c _, ?_⟩
  unfold MemOperand.addressRest
  split
  · exact List.forall_mem_singleton.mpr (hadd _ _)
  · cases a.indexreg with
    | none => exact hextra _
    | some indexreg =>
        dsimp only
        split
        · split
          · exact List.forall_mem_singleton.mpr ⟨rfl, rfl⟩
          · exact List.forall_mem_singleton.mpr ⟨rfl, rfl⟩
        · exact List.forall_mem_append.mpr ⟨hextra _, List.forall_mem_singleton.mpr ⟨rfl, rfl⟩⟩

end FeS2.Decoder
