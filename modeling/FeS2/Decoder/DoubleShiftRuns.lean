import FeS2.Decoder.DoubleShiftUops

/-!
Runs of `shld` and `shrd`, and where they leave what x86 does.
-/

namespace FeS2.Decoder

theorem controlField_data (info : MaskControlInfo) :
    controlField info.data 0 = info.ms.toNat ∧ controlField info.data 1 = info.mc.toNat ∧
      controlField info.data 2 = info.ds.toNat := by
  have hbit : ∀ i < 18, info.data.getLsbD i = (info.ds ++ info.mc ++ info.ms).getLsbD i := by
    intro i hi
    rw [MaskControlInfo.data, BitVec.getLsbD_setWidth, decide_eq_true (by omega), Bool.true_and]
  have hfield : ∀ (j : Nat) (v : BitVec 6), j < 3 → (∀ i < 6,
      (info.ds ++ info.mc ++ info.ms).getLsbD (6 * j + i) = v.getLsbD i) →
        controlField info.data j = v.toNat := by
    intro j v hj hv
    rw [controlField]
    congr 1
    apply BitVec.eq_of_getLsbD_eq
    intro i hi
    rw [BitVec.getLsbD_extractLsb', decide_eq_true hi, Bool.true_and, hbit _ (by omega), hv i hi]
  refine ⟨hfield 0 _ (by decide) fun i hi => ?_, hfield 1 _ (by decide) fun i hi => ?_,
    hfield 2 _ (by decide) fun i hi => ?_⟩
  · rw [BitVec.getLsbD_append, if_pos (by omega), Nat.mul_zero, Nat.zero_add]
  · rw [BitVec.getLsbD_append, if_neg (by omega), BitVec.getLsbD_append, if_pos (by omega)]
    congr 1
    omega
  · rw [BitVec.getLsbD_append, if_neg (by omega), BitVec.getLsbD_append, if_neg (by omega)]
    congr 1
    omega

namespace DoubleShift
variable (left : Nat → Leftover) (us : List TransOp) (i : DoubleShift) (m : Machine)

/-- The count that the uops take. -/
def taken : Nat :=
  match i.count with
  | .imm b => i.imm b
  | .cl => i.clCount m

/-- What the turn of the source lacks; `us` are the uops behind those that build the control. -/
def borrow : Nat :=
  match i.count with
  | .imm _ => 0
  | .cl => (left (us.length + 2)).carry.toNat

def turn : Nat :=
  if i.isLeft then (i.size.bits - i.taken m - i.borrow left us) % i.size.bits else i.taken m

/-- What comes before the shift. -/
def prepare : List TransOp :=
  match i.count with
  | .imm _ => []
  | .cl => i.buildControl ++ [collectFlags]

structure Prepared (m' : Machine) : Prop where
  count : (i.shift.readRb m').toNat % 256 = i.taken m
  fields : ∀ m1, m1.data .temp1 = m'.data .temp1 →
    controlField (i.mask.readRc m1) 0 % i.size.bits = (if i.isLeft then 0 else i.taken m) ∧
      controlField (i.mask.readRc m1) 1 % i.size.bits = i.taken m ∧
      controlField (i.mask.readRc m1) 2 % i.size.bits = i.turn left (collectFlags :: us) m
  touches : m.Touches [.temp0, .temp1, .temp2] m'
  memory : m'.memory = m.memory
  userFlags : m'.userFlags = m.userFlags
  collected : i.count = .cl →
    m'.flagsOf .temp2 = m.userFlags ∧ (m'.data .temp0).toNat = i.taken m

theorem taken_lt : i.taken m < i.size.bits := by
  unfold taken
  cases i.count with
  | imm b => exact Nat.mod_lt _ i.size.bits_pos
  | cl => exact i.clCount_lt m

theorem prepared_imm {b : BitVec 8} (hcount : i.count = .imm b) (hb : i.imm b ≠ 0) :
    i.Prepared left us m m := by
  have hk : i.imm b < i.size.bits := Nat.mod_lt _ i.size.bits_pos
  have hle := i.size.bits_le
  have htaken : i.taken m = i.imm b := by rw [taken, hcount]
  have hborrow : i.borrow left (collectFlags :: us) = 0 := by rw [borrow, hcount]
  have hrb : i.shift.readRb m = BitVec.ofNat 64 (i.imm b) := by
    simp only [TransOp.readRb, shift, hcount, if_true]
  refine ⟨?_, fun m1 _ => ?_, (Machine.Touches.refl m).mono (by simp), rfl, rfl, fun hcl => ?_⟩
  · rw [hrb, htaken, BitVec.toNat_ofNat]
    omega
  · have hrc : i.mask.readRc m1 = (i.control (i.imm b)).data := by
      simp only [TransOp.readRc, mask, hcount, if_true]
    obtain ⟨hms, hmc, hds⟩ := controlField_data (i.control (i.imm b))
    have hfield : (BitVec.ofNat 6 (i.imm b)).toNat % i.size.bits = i.imm b := by
      rw [BitVec.toNat_ofNat, Nat.mod_eq_of_lt (a := i.imm b) (by omega), Nat.mod_eq_of_lt hk]
    rw [hrc, hms, hmc, hds, turn, htaken, hborrow, control]
    cases i.isLeft with
    | true =>
        refine ⟨Nat.zero_mod _, hfield, ?_⟩
        have hrest : i.size.bits - i.imm b < 64 := by omega
        change (BitVec.ofNat 6 (i.size.bits - i.imm b)).toNat % i.size.bits = _
        rw [BitVec.toNat_ofNat, Nat.mod_eq_of_lt (a := i.size.bits - i.imm b) (by omega)]
        rfl
    | false => exact ⟨hfield, hfield, hfield⟩
  · rw [hcount] at hcl
    cases hcl

theorem reaches_collectFlags : ∃ m', m'.flagsOf .temp2 = m.userFlags ∧ m.Touches [.temp2] m' ∧
    m'.memory = m.memory ∧ Reaches left us [collectFlags] m m' := by
  have hexec : collectFlags.exec (left us.length) m =
      some (.result m.userFlags.word m.userFlags) := rfl
  exact reaches_flags (by rintro ⟨⟩) ⟨rfl, .inr rfl⟩ SetFlags.defaultAlu_ne hexec

theorem reaches_prepare_cl (hcount : i.count = .cl) :
    ∃ m', i.Prepared left us m m' ∧ Reaches left us (i.buildControl ++ [collectFlags]) m m' := by
  obtain ⟨m1, hbuilt, hreach1⟩ := i.reaches_buildControl left (collectFlags :: us) m
  obtain ⟨m2, hflags, htouch, hmem, hreach2⟩ := reaches_collectFlags left us m1
  have htemp0 : m2.data .temp0 = m1.data .temp0 := htouch.data .temp0 rfl (by decide)
  have htemp1 : m2.data .temp1 = m1.data .temp1 := htouch.data .temp1 rfl (by decide)
  have htaken : i.taken m = i.clCount m := by rw [taken, hcount]
  have hcount2 : (m2.data .temp0).toNat = i.taken m := by rw [htemp0, hbuilt.count, htaken]
  have huser1 : m1.userFlags = m.userFlags := hbuilt.touches.userFlags (by decide)
  have hturn : i.turn left (collectFlags :: us) m = i.clTurn left (collectFlags :: us) m := by
    rw [turn, clTurn, htaken, borrow, hcount]
  refine ⟨m2, ⟨?_, fun m3 hm3 => ?_, ?_, ?_, ?_, fun _ => ⟨?_, hcount2⟩⟩, hreach1.append hreach2⟩
  · have hrb : i.shift.readRb m2 = m2.data .temp0 := by
      simp only [TransOp.readRb, shift, hcount, reduceCtorEq, if_false]
    have hlt := i.taken_lt m
    have hle := i.size.bits_le
    rw [hrb, hcount2]
    omega
  · have hrc : i.mask.readRc m3 = m3.data .temp1 := by
      simp only [TransOp.readRc, mask, hcount, reduceCtorEq, if_false]
    rw [hrc, hm3, htemp1, hbuilt.ms, hbuilt.mc, hbuilt.ds, hturn, htaken]
    exact ⟨rfl, rfl, rfl⟩
  · exact (hbuilt.touches.trans htouch).mono (by decide)
  · rw [hmem, hbuilt.memory]
  · rw [htouch.userFlags (by decide), huser1]
  · rw [hflags, huser1]

theorem reaches_prepare (hact : i.acts = true) :
    ∃ m', i.Prepared left us m m' ∧ Reaches left us i.prepare m m' := by
  cases hcount : i.count with
  | imm b =>
      have hprepare : i.prepare = [] := by rw [prepare, hcount]
      have hb : i.imm b ≠ 0 := by
        rw [acts, hcount] at hact
        exact of_decide_eq_true hact
      rw [hprepare]
      exact ⟨m, i.prepared_imm left us m hcount hb, .nil left us m⟩
  | cl =>
      have hprepare : i.prepare = i.buildControl ++ [collectFlags] := by rw [prepare, hcount]
      rw [hprepare]
      exact i.reaches_prepare_cl left us m hcount

/-- What is put into the operand `x`, where the source is `a`; `us` are the uops behind the mask. -/
def placed (x a : BitVec i.size.bits) : BitVec i.size.bits :=
  let k := i.taken m
  joined (if i.isLeft then 0 else k) k (i.turn left (collectFlags :: i.shift :: i.mask :: us) m)
    (shifted i.isLeft x k)
    (if i.rdreg = .gpr i.ra then shifted i.isLeft x k else a)

/-- What the uops up to the mask leave. -/
structure Shifted (m' : Machine) : Prop where
  data : m'.data i.rdreg = x86Merge i.size (m.data i.rdreg)
    ((i.placed left us m ((m.data i.rdreg).setWidth _) ((m.data (.gpr i.ra)).setWidth _)).setWidth
      64)
  gpr : ∀ q, .gpr q ≠ i.rdreg → m'.data (.gpr q) = m.data (.gpr q)
  ctx : m'.data .ctx = m.data .ctx
  memory : m'.memory = m.memory
  context : m'.context = m.context
  own : (m'.flagsOf i.rdreg).SameButOf { x86Genflags ((m'.data i.rdreg).setWidth i.size.bits) with
    cf := (m'.flagsOf i.rdreg).cf }
  moved : i.taken m ≠ 0 → (m'.flagsOf i.rdreg).cf =
    movedOut i.isLeft ((m.data i.rdreg).setWidth i.size.bits) (i.taken m)
  userFlags : m'.userFlags = i.coreGroups.merge (m'.flagsOf i.rdreg) m.userFlags
  collected : i.count = .cl →
    m'.flagsOf .temp2 = m.userFlags ∧ (m'.data .temp0).toNat = i.taken m

theorem rdreg_temp : i.rdreg ∉ [Reg.temp0, .temp1, .temp2] := by
  unfold rdreg
  cases i.rd with
  | reg r => simp
  | mem a => simp

theorem rdreg_ctx : i.rdreg ≠ .ctx := by
  unfold rdreg
  cases i.rd with
  | reg r => exact nofun
  | mem a => exact nofun

theorem reaches_shifted (hact : i.acts = true) : ∃ m', i.Shifted left us m m' ∧
    Reaches left us (i.prepare ++ [i.shift, i.mask]) m m' := by
  obtain ⟨m1, hready, hreach1⟩ := i.reaches_prepare left ([i.shift, i.mask] ++ us) m hact
  have hk := i.taken_lt m
  have htouch := hready.touches
  have hrdreg : m1.data i.rdreg = m.data i.rdreg :=
    htouch.data _ i.rdreg_ne.2.1 i.rdreg_temp
  have hra : m1.data (.gpr i.ra) = m.data (.gpr i.ra) := htouch.gpr (by simp)
  obtain ⟨m2, cf, hjoins, hmoved, hreach2⟩ :=
    i.reaches_core left us m1 (hready.count ▸ hk) hready.fields
  rw [hready.count, hrdreg, read, hrdreg, hra] at hjoins
  rw [hready.count, hrdreg] at hmoved
  have hresult : (m2.data i.rdreg).setWidth i.size.bits =
      i.placed left us m ((m.data i.rdreg).setWidth _) ((m.data (.gpr i.ra)).setWidth _) := by
    rw [hjoins.data, x86Merge_setWidth, BitVec.setWidth_setWidth_of_le _ i.size.bits_le,
      BitVec.setWidth_eq]
    rfl
  have hcf : (m2.flagsOf i.rdreg).cf = cf := hjoins.own.cf
  refine ⟨m2, ⟨?_, fun q hq => ?_, ?_, ?_, ?_, ?_, fun hne => ?_, ?_, fun hcl => ?_⟩,
    hreach1.append hreach2⟩
  · rw [hjoins.data, hrdreg]
    rfl
  · rw [hjoins.other _ rfl hq, htouch.gpr (by simp)]
  · rw [hjoins.other .ctx rfl i.rdreg_ctx.symm, htouch.data .ctx rfl (by decide)]
  · rw [hjoins.memory, hready.memory]
  · rw [hjoins.context, htouch.context]
  · rw [hresult, hcf]
    exact hjoins.own
  · rw [hcf, hmoved hne]
  · rw [hjoins.userFlags, hready.userFlags]
  · have htemp := i.rdreg_temp
    rw [List.mem_cons, List.mem_cons, List.mem_singleton, not_or, not_or] at htemp
    obtain ⟨hflags, hcount⟩ := hready.collected hcl
    rw [hjoins.otherFlags .temp2 rfl (Ne.symm htemp.2.2),
      hjoins.other .temp0 rfl (Ne.symm htemp.1)]
    exact ⟨hflags, hcount⟩

/-! The flags at the end -/

/-- Whether the count is zero. -/
def testCount : TransOp :=
  { opcode := .and, rd := .temp0, ra := .temp0, rb := .temp0, rc := .zero, size := .w8,
    setflags := .defaultAlu, nouserflags := true }

theorem reaches_testCount {k : Nat} (hk : k < i.size.bits) (hcount : (m.data .temp0).toNat = k) :
    ∃ m', (m'.flagsOf .temp0).zf = decide (k = 0) ∧ m.Touches [.temp0] m' ∧
      m'.memory = m.memory ∧ Reaches left us [testCount] m m' := by
  let v : BitVec 8 := (m.data .temp0).setWidth 8 &&& (m.data .temp0).setWidth 8
  have hexec : testCount.exec (left us.length) m =
      some (.result (x86Merge .w8 (m.data .temp0) (v.setWidth 64)) (x86Genflags v)) := rfl
  obtain ⟨m', hown, htouch, hmem, hreach⟩ :=
    reaches_flags (by rintro ⟨⟩) ⟨rfl, .inr rfl⟩ SetFlags.defaultAlu_ne hexec
  refine ⟨m', ?_, htouch, hmem, hreach⟩
  have hle := i.size.bits_le
  have hv : v.toNat = k := by
    have hself : v = (m.data .temp0).setWidth 8 := BitVec.and_self
    rw [hself, BitVec.toNat_setWidth, hcount]
    omega
  have hzf : (m'.flagsOf .temp0).zf = (v == 0) := congrArg Flags.zf hown
  rw [hzf, ← hv, Bool.eq_iff_iff, beq_iff_eq, decide_eq_true_iff, ← BitVec.toNat_inj]
  rfl

/-- The flags are those of `temp2` where the count is zero. -/
def select : TransOp :=
  { opcode := .sel, rd := .temp0, ra := i.rdreg, rb := .temp2, rc := .temp0, size := .w64,
    setflags := { zf := true, cf := true, of := false }, cond := .e }

theorem reaches_select {k : Nat} (hzf : (m.flagsOf .temp0).zf = decide (k = 0)) :
    ∃ m', (∀ q, m'.data (.gpr q) = m.data (.gpr q)) ∧ m'.memory = m.memory ∧
      m'.userFlags = SetFlags.merge { zf := true, cf := true, of := false }
        (if k = 0 then m.flagsOf .temp2 else m.flagsOf i.rdreg) m.userFlags ∧
      Reaches left us [i.select] m m' := by
  let istrue : Bool := (m.flagsOf .temp0).zf
  have hexec : i.select.exec (left us.length) m = some (.result
      (x86Merge .w64 (m.data i.rdreg) (if istrue then m.data .temp2 else m.data i.rdreg))
      (if istrue then m.flagsOf .temp2 else m.flagsOf i.rdreg)) := rfl
  obtain ⟨m', hputs, hreach⟩ := reaches_puts (by rintro ⟨⟩) rfl hexec
  refine ⟨m', fun q => hputs.other _ rfl (by rintro ⟨⟩), hputs.memory, ?_, hreach⟩
  have hgroups : i.select.userGroups = { zf := true, cf := true, of := false } := rfl
  have htrue : istrue = decide (k = 0) := hzf
  rw [hputs.userFlags, hgroups, htrue]
  by_cases hk : k = 0
  · rw [if_pos (decide_eq_true hk), if_pos hk]
  · rw [if_neg (by simpa using hk), if_neg hk]

theorem reaches_selectFlags {k : Nat} (hk : k < i.size.bits)
    (hcount : (m.data .temp0).toNat = k) :
    ∃ m', (∀ q, m'.data (.gpr q) = m.data (.gpr q)) ∧ m'.memory = m.memory ∧
      m'.userFlags = SetFlags.merge { zf := true, cf := true, of := false }
        (if k = 0 then m.flagsOf .temp2 else m.flagsOf i.rdreg) m.userFlags ∧
      Reaches left us i.selectFlags m m' := by
  obtain ⟨m1, hzf, htouch, hmem, hreach1⟩ :=
    i.reaches_testCount left ([i.select] ++ us) m hk hcount
  obtain ⟨m2, hgpr, hmem2, huser, hreach2⟩ := i.reaches_select left us m1 hzf
  have htemp := i.rdreg_temp
  rw [List.mem_cons, not_or] at htemp
  have hrdreg : m1.flagsOf i.rdreg = m.flagsOf i.rdreg :=
    htouch.flags _ (by simpa using htemp.1)
  refine ⟨m2, fun q => (hgpr q).trans (htouch.gpr (by simp)), hmem2.trans hmem, ?_,
    hreach1.cons hreach2⟩
  rw [huser, htouch.flags .temp2 (by decide), hrdreg, htouch.userFlags (by decide)]

/-- The flags where the operand has been stored: `f` are those that the ops found. -/
theorem reaches_afterStore {own f : Flags} {k : Nat} (hk : k < i.size.bits)
    (hown : m.flagsOf i.rdreg = own) (huser : m.userFlags = i.coreGroups.merge own f)
    (hcollected : i.count = .cl → m.flagsOf .temp2 = f ∧ (m.data .temp0).toNat = k) :
    ∃ m', (∀ q, m'.data (.gpr q) = m.data (.gpr q)) ∧ m'.memory = m.memory ∧
      m'.userFlags = i.setflags.merge (if i.count = .cl ∧ k = 0 then f else own) f ∧
      Reaches left us i.afterStore m m' := by
  cases hcount : i.count with
  | imm b =>
      have hafter : i.afterStore = [] := by rw [afterStore, hcount]
      have hgroups : i.coreGroups = i.setflags := by
        rw [coreGroups, if_neg]
        rw [hcount]
        exact nofun
      rw [hafter]
      refine ⟨m, fun _ => rfl, rfl, ?_, .nil left us m⟩
      rw [huser, hgroups, if_neg]
      exact fun h => nomatch h.1
  | cl =>
      have hafter : i.afterStore = i.selectFlags := by rw [afterStore, hcount]
      have hgroups : i.coreGroups = .none := by rw [coreGroups, if_pos hcount]
      have hset : i.setflags = { zf := true, cf := true, of := false } := by rw [setflags, hcount]
      obtain ⟨hflags, htemp0⟩ := hcollected hcount
      obtain ⟨m', hgpr, hmem, huser', hreach⟩ := i.reaches_selectFlags left us m hk htemp0
      rw [hafter]
      refine ⟨m', hgpr, hmem, ?_, hreach⟩
      rw [huser', hflags, hown, huser, hgroups, SetFlags.merge_none, hset]
      by_cases hzero : k = 0
      · rw [if_pos hzero, if_pos ⟨rfl, hzero⟩]
      · rw [if_neg hzero, if_neg fun h => hzero h.2]

end DoubleShift
end FeS2.Decoder
