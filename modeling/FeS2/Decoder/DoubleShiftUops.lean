import FeS2.Decoder.DoubleShift
import FeS2.Decoder.MaskFields

/-!
What the uops of `shld` and `shrd` compute, one after the other. The width less the count is
computed with the host's `sbb`, so a carry that is left over turns the source by one bit less.
-/

namespace FeS2.Decoder

/-! Single uops -/

/-- One register is written, with the flags of the user that the uop sets. -/
structure Machine.Puts (t : TransOp) (x : W64) (f : Flags) (m m' : Machine) : Prop extends
    Machine.Sets t.rd x m m' where
  own : t.setflags ≠ .none → m'.flagsOf t.rd = f
  otherFlags : ∀ r, r.isFlag = false → r ≠ t.rd → m'.flagsOf r = m.flagsOf r
  userFlags : m'.userFlags = t.userGroups.merge f m.userFlags
  context : m'.context = m.context

section
variable {left : Nat → Leftover} {us : List TransOp} {t : TransOp} {m : Machine} {x : W64}
  {f : Flags}

theorem reaches_puts (hrd : t.rd ≠ .zero) (hflag : t.rd.isFlag = false)
    (hexec : t.exec (left us.length) m = some (.result x f)) :
    ∃ m', m.Puts t x f m' ∧ Reaches left us [t] m m' := by
  refine ⟨_, ⟨TransOp.write_sets hrd hflag, fun hset => ?_, fun r hr hne => ?_,
    TransOp.write_groups hflag _ _ _ _, TransOp.write_context⟩, .result hexec⟩
  · exact (TransOp.write_setsWith hrd hflag hset).flags
  · refine t.write_flagsOf ?_ _ _ _ _
    rw [TransOp.writes_eq hr]
    exact decide_eq_false hne

/-- The flags of a uop that leaves those of the user alone are its own. -/
theorem reaches_flags (hrd : t.rd ≠ .zero) (hown : t.OwnFlags) (hset : t.setflags ≠ .none)
    (hexec : t.exec (left us.length) m = some (.result x f)) :
    ∃ m', m'.flagsOf t.rd = f ∧ m.Touches [t.rd] m' ∧ m'.memory = m.memory ∧
      Reaches left us [t] m m' := by
  have hwrite : m.SetsWith t.rd x f (t.write (left us.length) x f m) :=
    TransOp.write_setsWith hrd hown.1 hset
  exact ⟨_, hwrite.flags, t.write_touches hown _ _ _ _, hwrite.memory, .result hexec⟩

theorem exec_mask_word (l : Leftover) (hop : t.opcode = .maskb) (hsize : t.size = .w64)
    (hcond : t.cond = .o) :
    ∃ f, t.exec l m = some (.result (mask (m.data t.ra) (t.readRb m) (t.readRc m)) f) := by
  have hmask := expOpMask_word l.result (m.data t.ra) (t.readRb m) (t.readRc m)
  rw [← hmask]
  rw [TransOp.exec, hop]
  dsimp only
  rw [hsize, hcond]
  exact ⟨_, rfl⟩

/-- What a mask computes on operands of a size. -/
def TransOp.joins (t : TransOp) (size : Size) (m : Machine) : BitVec size.bits :=
  joined (controlField (t.readRc m) 0 % size.bits) (controlField (t.readRc m) 1 % size.bits)
    (controlField (t.readRc m) 2 % size.bits) ((m.data t.ra).setWidth size.bits)
    ((t.readRb m).setWidth size.bits)

theorem exec_joined {size : Size} (l : Leftover) (hop : t.opcode = .maskb) (hsize : t.size = size)
    (hcond : t.cond = .o) : ∃ of, t.exec l m = some (.result
      (x86Merge size (m.data t.ra) ((t.joins size m).setWidth 64))
      { x86Genflags (t.joins size m) with cf := (m.flagsOf t.ra).cf, of := of }) := by
  subst hsize
  unfold TransOp.joins
  rw [← expOpMask_joined l.result, TransOp.exec, hop]
  dsimp only
  rw [hcond]
  have hmerge : ∀ z : W64, x86Merge t.size (m.data t.ra) ((z.setWidth t.size.bits).setWidth 64) =
      x86Merge t.size (m.data t.ra) z := x86Merge_self t.size _
  rw [hmerge]
  exact ⟨_, rfl⟩

end

theorem and_bitmask_toNat (size : Size) (x : W64) :
    (x &&& bitmask (3 + size.sizeshift)).toNat = x.toNat % size.bits := by
  have hmask : (bitmask (3 + size.sizeshift)).toNat = 2 ^ (3 + size.sizeshift) - 1 := by
    cases size <;> rfl
  rw [BitVec.toNat_and, hmask, Nat.and_two_pow_sub_one_eq_mod, size.sizeshift_bits]

theorem controlField_shl (v : W64) {j : Nat} (hj : j < 2) :
    controlField (v <<< 6) (j + 1) = controlField v j := by
  rw [controlField, controlField]
  congr 1
  apply BitVec.eq_of_getLsbD_eq
  intro i hi
  have hin : 6 * (j + 1) + i < 64 := by omega
  have hback : 6 * (j + 1) + i - 6 = 6 * j + i := by omega
  have hnot : ¬ 6 * (j + 1) + i < 6 := by omega
  rw [BitVec.getLsbD_extractLsb', BitVec.getLsbD_extractLsb', BitVec.getLsbD_shiftLeft,
    decide_eq_true hin, decide_eq_false hnot, hback]
  rfl

theorem controlField_shl_zero (v : W64) : controlField (v <<< 6) 0 = 0 := by
  have hzero : (v <<< 6).extractLsb' 0 6 = 0#6 := by
    apply BitVec.eq_of_getLsbD_eq
    intro i hi
    rw [BitVec.getLsbD_extractLsb', BitVec.getLsbD_shiftLeft, Nat.zero_add, decide_eq_true hi]
    simp
  rw [controlField, Nat.mul_zero, hzero]
  rfl

theorem controlField_putField (ra rb : W64) {s j : Nat} (hs : s = 6 ∨ s = 12) (hj : j < 3) :
    controlField (mask ra rb (MaskControlInfo.data
      { ms := BitVec.ofNat 6 (64 - s), mc := 6, ds := BitVec.ofNat 6 (64 - s) })) j =
      if s = 6 * j then controlField rb 0 else controlField ra j := by
  have hbit : ∀ i < 6, ((mask ra rb (MaskControlInfo.data
      { ms := BitVec.ofNat 6 (64 - s), mc := 6, ds := BitVec.ofNat 6 (64 - s) })).extractLsb'
        (6 * j) 6).getLsbD i = if s = 6 * j then rb.getLsbD i else ra.getLsbD (6 * j + i) := by
    intro i hi
    rw [BitVec.getLsbD_extractLsb', decide_eq_true hi, Bool.true_and,
      getLsbD_putField ra rb hs (by omega)]
    by_cases hsj : s = 6 * j
    · rw [if_pos (by omega), if_pos hsj]
      congr 1
      omega
    · rw [if_neg (by omega), if_neg hsj]
  split
  · next hsj =>
      rw [controlField, controlField]
      congr 1
      apply BitVec.eq_of_getLsbD_eq
      intro i hi
      rw [hbit i hi, if_pos hsj, BitVec.getLsbD_extractLsb', decide_eq_true hi, Bool.true_and,
        Nat.mul_zero, Nat.zero_add]
  · next hsj =>
      rw [controlField, controlField]
      congr 1
      apply BitVec.eq_of_getLsbD_eq
      intro i hi
      rw [hbit i hi, if_neg hsj, BitVec.getLsbD_extractLsb', decide_eq_true hi, Bool.true_and]

theorem controlField_low (x : W64) : controlField x 0 = x.toNat % 64 := by
  rw [controlField, BitVec.extractLsb'_toNat]
  rfl

namespace DoubleShift
variable (left : Nat → Leftover) (us : List TransOp) (i : DoubleShift) (m : Machine)

/-- `cl`, cut to what numbers the bits of the operand. -/
def clCount : Nat := (m.data (.gpr .rcx)).toNat % i.size.bits

/-- How far the mask turns the source for `cl`. -/
def clTurn : Nat :=
  if i.isLeft then (i.size.bits - i.clCount m - (left (us.length + 2)).carry.toNat) % i.size.bits
  else i.clCount m

/-- The control word is in `temp1`, the count in `temp0`. -/
structure Built (m' : Machine) : Prop where
  count : (m'.data .temp0).toNat = i.clCount m
  ms : controlField (m'.data .temp1) 0 % i.size.bits = if i.isLeft then 0 else i.clCount m
  mc : controlField (m'.data .temp1) 1 % i.size.bits = i.clCount m
  ds : controlField (m'.data .temp1) 2 % i.size.bits = i.clTurn left us m
  touches : m.Touches [.temp0, .temp1, .temp2] m'
  memory : m'.memory = m.memory

theorem clCount_lt : i.clCount m < i.size.bits := Nat.mod_lt _ i.size.bits_pos

theorem reaches_cutCount : ∃ m', (m'.data .temp0).toNat = i.clCount m ∧ m.Touches [.temp0] m' ∧
    m'.memory = m.memory ∧ Reaches left us [i.cutCount] m m' := by
  have hexec : i.cutCount.exec (left us.length) m = some (.result
      (((m.data (.gpr .rcx)).setWidth 64 &&& (bitmask (3 + i.size.sizeshift)).setWidth 64).setWidth
        64) .clear) := rfl
  obtain ⟨m', hdata, htouch, hmem, hreach⟩ := reaches_temp (by rintro ⟨⟩) ⟨rfl, rfl⟩ hexec
  refine ⟨m', ?_, htouch, hmem, hreach⟩
  rw [BitVec.setWidth_eq, BitVec.setWidth_eq, BitVec.setWidth_eq] at hdata
  exact (congrArg BitVec.toNat hdata).trans (and_bitmask_toNat _ _)

theorem reaches_putField (rd ra rb : Reg) {s : Nat} (hs : s = 6 ∨ s = 12) (hrd : rd ≠ .zero)
    (hflag : rd.isFlag = false) (hrb : rb ≠ .imm) :
    ∃ m', (∀ j < 3, controlField (m'.data rd) j =
        if s = 6 * j then controlField (m.data rb) 0 else controlField (m.data ra) j) ∧
      m.Touches [rd] m' ∧ m'.memory = m.memory ∧
      Reaches left us [putField rd ra rb (BitVec.ofNat 6 (64 - s))] m m' := by
  obtain ⟨f, hexec⟩ := exec_mask_word (t := putField rd ra rb (BitVec.ofNat 6 (64 - s)))
    (left us.length) rfl rfl rfl
  obtain ⟨m', hdata, htouch, hmem, hreach⟩ := reaches_temp hrd ⟨rfl, hflag⟩ hexec
  refine ⟨m', fun j hj => ?_, htouch, hmem, hreach⟩
  have hreadRb : (putField rd ra rb (BitVec.ofNat 6 (64 - s))).readRb m = m.data rb := if_neg hrb
  have hdata' : m'.data rd = _ := hdata
  rw [hdata', hreadRb]
  exact controlField_putField _ _ hs hj

/-- The width less the count, and less the carry that is left over. -/
theorem reaches_takeCount {k : Nat} (hk : k < i.size.bits) (hcount : (m.data .temp0).toNat = k) :
    ∃ m', controlField (m'.data .temp2) 0 =
        (i.size.bits - k - (left us.length).carry.toNat) % 64 ∧
      m.Touches [.temp2] m' ∧ m'.memory = m.memory ∧
      Reaches left us [i.moveWidth, takeCount] m m' := by
  have hmov : i.moveWidth.exec (left (takeCount :: us).length) m = some (.result
      (x86Merge .w8 (m.data .zero) (((BitVec.ofNat 64 i.size.bits).setWidth 8).setWidth 64))
      .clear) := rfl
  obtain ⟨m1, hdata1, htouch1, hmem1, hreach1⟩ := reaches_temp (by rintro ⟨⟩) ⟨rfl, rfl⟩ hmov
  have htouch1 : m.Touches [.temp2] m1 := htouch1
  have hsub : takeCount.exec (left us.length) m1 = some (.result
      (x86Merge .w8 (m1.data .temp2) ((sbb ((m1.data .temp2).setWidth 8)
        ((m1.data .temp0).setWidth 8) (left us.length).carry).1.setWidth 64)) .clear) := rfl
  obtain ⟨m2, hdata2, htouch2, hmem2, hreach2⟩ := reaches_temp (by rintro ⟨⟩) ⟨rfl, rfl⟩ hsub
  refine ⟨m2, ?_, (htouch1.trans htouch2).mono ?_, hmem2.trans hmem1, hreach1.cons hreach2⟩
  · have hwidth : (m1.data .temp2).setWidth 8 = BitVec.ofNat 8 i.size.bits := by
      have hdata1' : m1.data .temp2 = _ := hdata1
      rw [hdata1']
      refine (x86Merge_setWidth .w8 _ _).trans ?_
      apply BitVec.eq_of_toNat_eq
      cases i.size <;> rfl
    have hcount1 : m1.data .temp0 = m.data .temp0 := htouch1.data .temp0 rfl (by decide)
    have hdata2' : (m2.data .temp2).setWidth 8 = BitVec.ofNat 8 i.size.bits -
        (m.data .temp0).setWidth 8 - (BitVec.ofBool (left us.length).carry).setWidth 8 := by
      have hdata2' : m2.data .temp2 = _ := hdata2
      rw [hdata2', hwidth, hcount1]
      refine (x86Merge_setWidth .w8 _ _).trans ?_
      exact (BitVec.setWidth_setWidth_of_le _ (by decide)).trans (BitVec.setWidth_eq _)
    have hlow : (m2.data .temp2).toNat % 64 = ((m2.data .temp2).setWidth 8).toNat % 64 := by
      rw [BitVec.toNat_setWidth]
      omega
    rw [controlField_low, hlow, hdata2']
    have hle := i.size.bits_le
    have hcarry : ((BitVec.ofBool (left us.length).carry).setWidth 8).toNat =
        (left us.length).carry.toNat := by
      cases (left us.length).carry <;> rfl
    have hone : (left us.length).carry.toNat ≤ 1 := Bool.toNat_le _
    rw [BitVec.toNat_sub, BitVec.toNat_sub, hcarry, BitVec.toNat_setWidth, hcount,
      BitVec.toNat_ofNat]
    omega
  · intro r hr
    exact (List.mem_append.mp hr).elim id id

theorem reaches_moveFields : ∃ m', m'.data .temp1 = m.data .temp1 <<< 6 ∧
    m.Touches [.temp1] m' ∧ m'.memory = m.memory ∧ Reaches left us [moveFields] m m' := by
  have hexec : ∃ f, moveFields.exec (left us.length) m = some (.result
      ((((m.data .temp1).setWidth 64) <<< 6).setWidth 64) f) := ⟨_, rfl⟩
  obtain ⟨f, hexec⟩ := hexec
  obtain ⟨m', hdata, htouch, hmem, hreach⟩ := reaches_temp (by rintro ⟨⟩) ⟨rfl, rfl⟩ hexec
  rw [BitVec.setWidth_eq, BitVec.setWidth_eq] at hdata
  exact ⟨m', hdata, htouch, hmem, hreach⟩

theorem reaches_buildControl :
    ∃ m', i.Built left us m m' ∧ Reaches left us i.buildControl m m' := by
  have hk := i.clCount_lt m
  have hdvd : i.size.bits ∣ 64 := by cases i.size <;> decide
  cases hleft : i.isLeft with
  | true =>
      have hbuild : i.buildControl = [i.cutCount] ++ ([i.moveWidth, takeCount] ++
          ([putField .temp1 .temp0 .temp2 58] ++ [moveFields])) := by
        rw [buildControl, if_pos hleft]
        rfl
      obtain ⟨m1, hcount1, htouch1, hmem1, hreach1⟩ := i.reaches_cutCount left
        (([i.moveWidth, takeCount] ++ ([putField .temp1 .temp0 .temp2 58] ++ [moveFields])) ++ us) m
      obtain ⟨m2, hturn2, htouch2, hmem2, hreach2⟩ := i.reaches_takeCount left
        (([putField .temp1 .temp0 .temp2 58] ++ [moveFields]) ++ us) m1 hk hcount1
      obtain ⟨m3, hfields3, htouch3, hmem3, hreach3⟩ := reaches_putField left
        ([moveFields] ++ us) m2 .temp1 .temp0 .temp2 (.inl rfl) (by rintro ⟨⟩) rfl (by rintro ⟨⟩)
      obtain ⟨m4, hdata4, htouch4, hmem4, hreach4⟩ := reaches_moveFields left us m3
      have hcount2 : m2.data .temp0 = m1.data .temp0 := htouch2.data .temp0 rfl (by decide)
      have hcount4 : m4.data .temp0 = m1.data .temp0 :=
        (htouch4.data .temp0 rfl (by decide)).trans
          ((htouch3.data .temp0 rfl (by decide)).trans hcount2)
      refine ⟨m4, ⟨?_, ?_, ?_, ?_, ?_, ?_⟩, ?_⟩
      · rw [hcount4, hcount1]
      · rw [hdata4, controlField_shl_zero, hleft]
        exact Nat.zero_mod _
      · rw [hdata4, controlField_shl _ (by decide), hfields3 0 (by decide), if_neg (by decide),
          controlField_low, hcount2, hcount1, Nat.mod_mod_of_dvd _ hdvd, Nat.mod_eq_of_lt hk]
      · have hindex : ([putField .temp1 .temp0 .temp2 58] ++ [moveFields] ++ us).length =
            us.length + 2 := rfl
        rw [hdata4, controlField_shl _ (by decide), hfields3 1 (by decide), if_pos rfl, hturn2,
          clTurn, if_pos hleft, hindex, Nat.mod_mod_of_dvd _ hdvd]
      · exact (((htouch1.trans htouch2).trans htouch3).trans htouch4).mono (by decide)
      · rw [hmem4, hmem3, hmem2, hmem1]
      · rw [hbuild]
        exact hreach1.append (hreach2.append (hreach3.append hreach4))
  | false =>
      have hbuild : i.buildControl = [i.cutCount] ++ ([putField .temp1 .temp0 .temp0 58] ++
          [putField .temp1 .temp1 .temp0 52]) := by
        rw [buildControl, hleft]
        rfl
      obtain ⟨m1, hcount1, htouch1, hmem1, hreach1⟩ := i.reaches_cutCount left
        (([putField .temp1 .temp0 .temp0 58] ++ [putField .temp1 .temp1 .temp0 52]) ++ us) m
      obtain ⟨m2, hfields2, htouch2, hmem2, hreach2⟩ := reaches_putField left
        ([putField .temp1 .temp1 .temp0 52] ++ us) m1 .temp1 .temp0 .temp0 (.inl rfl)
        (by rintro ⟨⟩) rfl (by rintro ⟨⟩)
      obtain ⟨m3, hfields3, htouch3, hmem3, hreach3⟩ := reaches_putField left us m2 .temp1 .temp1
        .temp0 (.inr rfl) (by rintro ⟨⟩) rfl (by rintro ⟨⟩)
      have hcount2 : m2.data .temp0 = m1.data .temp0 := htouch2.data .temp0 rfl (by decide)
      have hcount3 : m3.data .temp0 = m1.data .temp0 :=
        (htouch3.data .temp0 rfl (by decide)).trans hcount2
      have hlow : controlField (m1.data .temp0) 0 % i.size.bits = i.clCount m := by
        rw [controlField_low, hcount1, Nat.mod_mod_of_dvd _ hdvd, Nat.mod_eq_of_lt hk]
      refine ⟨m3, ⟨?_, ?_, ?_, ?_, ?_, ?_⟩, ?_⟩
      · rw [hcount3, hcount1]
      · rw [hfields3 0 (by decide), if_neg (by decide), hfields2 0 (by decide),
          if_neg (by decide), hlow, hleft]
        rfl
      · rw [hfields3 1 (by decide), if_neg (by decide), hfields2 1 (by decide), if_pos rfl, hlow]
      · rw [hfields3 2 (by decide), if_pos rfl, hcount2, hlow, clTurn, hleft]
        rfl
      · exact ((htouch1.trans htouch2).trans htouch3).mono (by decide)
      · rw [hmem3, hmem2, hmem1]
      · rw [hbuild]
        exact hreach1.append (hreach2.append hreach3)

/-! The shift and the mask -/

theorem x86Merge_twice (size : Size) (old z w : W64) :
    x86Merge size (x86Merge size old z) w = x86Merge size old w := by
  cases size with
  | w8 =>
      have hhigh : (old.extractLsb' 8 56 ++ z.setWidth 8).extractLsb' 8 56 = old.extractLsb' 8 56 :=
        BitVec.extractLsb'_append_eq_left
      exact congrArg (· ++ w.setWidth 8) hhigh
  | w16 =>
      have hhigh : (old.extractLsb' 16 48 ++ z.setWidth 16).extractLsb' 16 48 =
          old.extractLsb' 16 48 := BitVec.extractLsb'_append_eq_left
      exact congrArg (· ++ w.setWidth 16) hhigh
  | w32 => rfl
  | w64 => rfl

/-- The shift alone, with the bit that it moves out. -/
def shifted {n : Nat} (isLeft : Bool) (x : BitVec n) (k : Nat) : BitVec n :=
  if isLeft then x <<< k else x >>> k

def movedOut {n : Nat} (isLeft : Bool) (x : BitVec n) (k : Nat) : Bool :=
  if isLeft then x.getLsbD (n - k) else x.getLsbD (k - 1)

theorem eval_shifted {size : Size} (isLeft : Bool) (l : Leftover) (x : BitVec size.bits) (rb : W64)
    (hk : rb.toNat % 256 < size.bits) :
    (ShiftOp.eval (if isLeft then .shl else .shr) false true l x rb .clear).1 =
        shifted isLeft x (rb.toNat % 256) ∧
      (rb.toNat % 256 ≠ 0 →
        (ShiftOp.eval (if isLeft then .shl else .shr) false true l x rb .clear).2.cf =
          movedOut isLeft x (rb.toNat % 256)) := by
  have hlt : rb.toNat % 256 < if size.bits = 64 then 64 else 32 := by
    cases size with
    | w8 => exact Nat.lt_of_lt_of_le hk (by decide)
    | w16 => exact Nat.lt_of_lt_of_le hk (by decide)
    | w32 => exact hk
    | w64 => exact hk
  have hcount := Nat.mod_eq_of_lt hlt
  have hle : rb.toNat % 256 ≤ size.bits := Nat.le_of_lt hk
  by_cases hzero : rb.toNat % 256 = 0
  · refine ⟨?_, fun hne => absurd hzero hne⟩
    unfold ShiftOp.eval ShiftOp.host shifted
    rw [hzero]
    cases isLeft with
    | true => simp
    | false => simp
  · unfold ShiftOp.eval ShiftOp.host shifted movedOut
    rw [hcount]
    cases isLeft with
    | true => simp [hzero, hle, ShiftOp.isRotate]
    | false => simp [hzero, hle, ShiftOp.isRotate]

theorem setflags_ne : i.setflags ≠ .none := by
  intro hnone
  have hcf := congrArg SetFlags.cf hnone
  unfold setflags at hcf
  cases hcount : i.count with
  | imm b =>
      rw [hcount] at hcf
      cases hcf
  | cl =>
      rw [hcount] at hcf
      cases hcf

theorem rdreg_ne : i.rdreg ≠ .zero ∧ i.rdreg.isFlag = false ∧ i.rdreg ≠ .temp1 := by
  unfold rdreg
  cases i.rd with
  | reg r => exact ⟨nofun, rfl, nofun⟩
  | mem a => exact ⟨nofun, rfl, nofun⟩

/-- The groups that the shift and the mask set for the user. -/
def coreGroups : SetFlags := if i.count = .cl then .none else i.setflags

theorem userGroups_core (t : TransOp) (hset : t.setflags = i.setflags)
    (hno : t.nouserflags = decide (i.count = .cl)) (hrd : t.rd = i.rdreg) :
    t.userGroups = i.coreGroups := by
  unfold TransOp.userGroups coreGroups
  rw [hset, hno, hrd]
  by_cases hcl : i.count = .cl
  · rw [if_pos (.inl (decide_eq_true hcl)), if_pos hcl]
  · rw [if_neg, if_neg hcl]
    rintro (h | h)
    · exact hcl (of_decide_eq_true h)
    · exact i.rdreg_ne.1 h

theorem merge_twice (groups : SetFlags) (f g before : Flags) :
    groups.merge g (groups.merge f before) = groups.merge g before := by
  obtain ⟨zf, cf, of⟩ := groups
  cases zf <;> cases cf <;> cases of <;> rfl

/-- What the shift and the mask leave; `r` is the result, `cf` the bit that was moved out. -/
structure Joins (r : BitVec i.size.bits) (cf : Bool) (m' : Machine) : Prop where
  data : m'.data i.rdreg = x86Merge i.size (m.data i.rdreg) (r.setWidth 64)
  other : ∀ q, q.isFlag = false → q ≠ i.rdreg → m'.data q = m.data q
  own : (m'.flagsOf i.rdreg).SameButOf { x86Genflags r with cf := cf }
  otherFlags : ∀ q, q.isFlag = false → q ≠ i.rdreg → m'.flagsOf q = m.flagsOf q
  userFlags : m'.userFlags = i.coreGroups.merge (m'.flagsOf i.rdreg) m.userFlags
  memory : m'.memory = m.memory
  context : m'.context = m.context

/-- What the mask reads of the source: a source that is the destination has been shifted. -/
def read (k : Nat) : BitVec i.size.bits :=
  if i.rdreg = .gpr i.ra then shifted i.isLeft ((m.data i.rdreg).setWidth _) k
  else (m.data (.gpr i.ra)).setWidth _

theorem reaches_core {ms mc ds : Nat} (hk : (i.shift.readRb m).toNat % 256 < i.size.bits)
    (hms : ∀ m1, m1.data .temp1 = m.data .temp1 →
      controlField (i.mask.readRc m1) 0 % i.size.bits = ms ∧
        controlField (i.mask.readRc m1) 1 % i.size.bits = mc ∧
        controlField (i.mask.readRc m1) 2 % i.size.bits = ds) :
    ∃ m' cf, i.Joins m (joined ms mc ds
        (shifted i.isLeft ((m.data i.rdreg).setWidth _) ((i.shift.readRb m).toNat % 256))
        (i.read m ((i.shift.readRb m).toNat % 256))) cf m' ∧
      ((i.shift.readRb m).toNat % 256 ≠ 0 → cf = movedOut i.isLeft
        ((m.data i.rdreg).setWidth i.size.bits) ((i.shift.readRb m).toNat % 256)) ∧
      Reaches left us [i.shift, i.mask] m m' := by
  have hrd := i.rdreg_ne
  let k := (i.shift.readRb m).toNat % 256
  let x : BitVec i.size.bits := (m.data i.rdreg).setWidth _
  have hset : decide (i.shift.setflags ≠ .none) = true := decide_eq_true i.setflags_ne
  have hclear : i.shift.rcflags m = .clear := rfl
  obtain ⟨hvalue, hcarry⟩ := eval_shifted i.isLeft (left (i.mask :: us).length) x
    (i.shift.readRb m) hk
  have hexec : i.shift.exec (left (i.mask :: us).length) m = some (.result
      (x86Merge i.size (m.data i.rdreg) ((shifted i.isLeft x k).setWidth 64))
      (ShiftOp.eval (if i.isLeft then .shl else .shr) false true (left (i.mask :: us).length) x
        (i.shift.readRb m) .clear).2) := by
    rw [TransOp.exec_shift rfl rfl, hset, hclear, ← hvalue]
    rfl
  obtain ⟨m1, hputs1, hreach1⟩ := reaches_puts hrd.1 hrd.2.1 hexec
  obtain ⟨hms, hmc, hds⟩ := hms m1 (hputs1.other .temp1 rfl (Ne.symm hrd.2.2))
  have hsize : i.mask.size = i.size := rfl
  obtain ⟨of, hexec2⟩ := exec_joined (m := m1) (left us.length) rfl hsize rfl
  obtain ⟨m2, hputs2, hreach2⟩ := reaches_puts hrd.1 hrd.2.1 hexec2
  have hdata1 : m1.data i.rdreg =
      x86Merge i.size (m.data i.rdreg) ((shifted i.isLeft x k).setWidth 64) := hputs1.data
  have hra : (m1.data i.mask.ra).setWidth i.size.bits = shifted i.isLeft x k := by
    refine (congrArg (BitVec.setWidth i.size.bits) hdata1).trans ?_
    rw [x86Merge_setWidth, BitVec.setWidth_setWidth_of_le _ i.size.bits_le, BitVec.setWidth_eq]
  have hrb : (i.mask.readRb m1).setWidth i.size.bits = i.read m k := by
    have hreadRb : i.mask.readRb m1 = m1.data (.gpr i.ra) := rfl
    rw [hreadRb, read]
    split
    · next heq =>
        rw [← heq]
        exact hra
    · next hne => rw [hputs1.other (.gpr i.ra) rfl (Ne.symm hne)]
  have hjoins : i.mask.joins i.size m1 = joined ms mc ds (shifted i.isLeft x k) (i.read m k) := by
    unfold TransOp.joins
    rw [hms, hmc, hds, hra, hrb]
  rw [hjoins] at hputs2
  refine ⟨m2, (m1.flagsOf i.mask.ra).cf,
    ⟨?_, fun q hq hne => ?_, ?_, fun q hq hne => ?_, ?_, ?_,
      ?_⟩, fun hne => ?_, hreach1.cons hreach2⟩
  · refine hputs2.data.trans ?_
    have hold : m1.data i.mask.ra = _ := hdata1
    rw [hold, x86Merge_twice]
  · exact (hputs2.other q hq hne).trans (hputs1.other q hq hne)
  · have hown : m2.flagsOf i.rdreg = _ := hputs2.own i.setflags_ne
    rw [hown]
    exact ⟨rfl, rfl, rfl, rfl⟩
  · exact (hputs2.otherFlags q hq hne).trans (hputs1.otherFlags q hq hne)
  · have hown : m2.flagsOf i.rdreg = _ := hputs2.own i.setflags_ne
    rw [hputs2.userFlags, hputs1.userFlags, i.userGroups_core i.mask rfl rfl rfl,
      i.userGroups_core i.shift rfl rfl rfl, merge_twice, hown]
  · exact hputs2.memory.trans hputs1.memory
  · exact hputs2.context.trans hputs1.context
  · have hown : m1.flagsOf i.mask.ra = _ := hputs1.own i.setflags_ne
    rw [hown]
    exact hcarry hne

end DoubleShift
end FeS2.Decoder
