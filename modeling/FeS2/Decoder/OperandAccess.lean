import FeS2.Decoder.AluOperands
import FeS2.Decoder.Extension

/-!
Loads and stores of operands, and high bytes, as an operation finds and leaves them. What the uops
touch of the registers is a list of names.
-/

namespace FeS2.Decoder

/-- Only registers of the list change. -/
structure Machine.Touches (rs : List Reg) (m m' : Machine) : Prop where
  data : ∀ r, r.isFlag = false → r ∉ rs → m'.data r = m.data r
  flags : ∀ r, r ∉ rs → m'.flagsOf r = m.flagsOf r
  context : m'.context = m.context

namespace Machine.Touches
variable {rs rs' : List Reg} {m m1 m' : Machine}

theorem refl (m : Machine) : m.Touches [] m := ⟨fun _ _ _ => rfl, fun _ _ => rfl, rfl⟩

theorem trans (h : m.Touches rs m1) (h' : m1.Touches rs' m') : m.Touches (rs ++ rs') m' where
  data r hr hne := by
    rw [List.mem_append, not_or] at hne
    exact (h'.data r hr hne.2).trans (h.data r hr hne.1)
  flags r hne := by
    rw [List.mem_append, not_or] at hne
    exact (h'.flags r hne.2).trans (h.flags r hne.1)
  context := h'.context.trans h.context

theorem mono (h : m.Touches rs m') (hsub : ∀ r ∈ rs, r ∈ rs') : m.Touches rs' m' where
  data r hr hne := h.data r hr fun hmem => hne (hsub r hmem)
  flags r hne := h.flags r fun hmem => hne (hsub r hmem)
  context := h.context

end Machine.Touches

/-- A uop that leaves the flags of the user alone. -/
def TransOp.OwnFlags (t : TransOp) : Prop :=
  t.rd.isFlag = false ∧ (t.setflags = .none ∨ t.nouserflags = true)

theorem TransOp.OwnFlags.writes {t : TransOp} (h : t.OwnFlags) (r : Reg) :
    t.writes r = decide (r = t.rd) := by
  rw [TransOp.writes]
  cases h.2 with
  | inl hset => simp [hset, SetFlags.none]
  | inr hno => simp [hno]

theorem TransOp.SetsNone.own {t : TransOp} (h : t.SetsNone) : t.OwnFlags :=
  ⟨h.rd, .inl h.setflags⟩

theorem TransOp.write_touches {t : TransOp} (h : t.OwnFlags) (left : Leftover) (x : W64)
    (f : Flags) (m : Machine) : m.Touches [t.rd] (t.write left x f m) where
  data r hr hne := t.write_data_ne hr (fun heq => hne (heq ▸ List.mem_cons_self)) _ _ _ _
  flags r hne := by
    refine t.write_flagsOf ?_ _ _ _ _
    rw [h.writes]
    exact decide_eq_false fun heq => hne (heq ▸ List.mem_cons_self)
  context := t.write_context

theorem Machine.KeepsBut.touches {ts : List TransOp} {rs : List Reg} {m m' : Machine}
    (h : m.KeepsBut ts m') (hts : ∀ t ∈ ts, t.OwnFlags ∧ t.rd ∈ rs) : m.Touches rs m' where
  data r hr hne := h.data r hr fun t ht heq => hne (heq ▸ (hts t ht).2)
  flags r hne := by
    refine h.flags r fun t ht => ?_
    rw [(hts t ht).1.writes]
    exact decide_eq_false fun heq => hne (heq ▸ (hts t ht).2)
  context := h.context

/-- A uop that sets no flags writes its register. -/
theorem reaches_temp {left : Nat → Leftover} {us : List TransOp} {t : TransOp} {m : Machine}
    {x : W64} {f : Flags} (hrd : t.rd ≠ .zero) (hnone : t.SetsNone)
    (hexec : t.exec (left us.length) m = some (.result x f)) :
    ∃ m', m'.data t.rd = x ∧ m.Touches [t.rd] m' ∧ m'.memory = m.memory ∧
      Reaches left us [t] m m' := by
  have hset : m.Sets t.rd x (t.write (left us.length) x f m) := TransOp.write_sets hrd hnone.rd
  exact ⟨_, hset.data, t.write_touches hnone.own _ _ _ _, hset.memory, .result hexec⟩

/-! Memory -/

theorem Size.bytes_le (size : Size) : size.bytes ≤ 8 := by
  cases size <;> decide

namespace Machine

theorem readBytes_byte (memory : W64 → BitVec 8) (addr : W64) {n j : Nat} (hj : j < n)
    (hn : n ≤ 8) :
    (readBytes memory addr n).extractLsb' (8 * j) 8 = memory (addr + BitVec.ofNat 64 j) := by
  induction n generalizing addr j with
  | zero => omega
  | succ n ih =>
      apply BitVec.eq_of_getLsbD_eq
      intro i hi
      rw [readBytes, BitVec.getLsbD_extractLsb', decide_eq_true hi, Bool.true_and,
        BitVec.getLsbD_or, BitVec.getLsbD_shiftLeft, BitVec.getLsbD_setWidth,
        decide_eq_true (by omega : 8 * j + i < 64), Bool.true_and, Bool.true_and]
      cases j with
      | zero =>
          have hzero : addr + BitVec.ofNat 64 0 = addr := BitVec.add_zero addr
          rw [hzero, Nat.mul_zero, Nat.zero_add, decide_eq_true hi]
          rfl
      | succ j =>
          have hnext : addr + BitVec.ofNat 64 (j + 1) = addr + 1 + BitVec.ofNat 64 j := by
            rw [BitVec.ofNat_add]
            grind
          have hback : 8 * (j + 1) + i - 8 = 8 * j + i := by omega
          have hbyte := congrArg (·.getLsbD i) (ih (addr + 1) (j := j) (by omega) (by omega))
          rw [BitVec.getLsbD_extractLsb', decide_eq_true hi, Bool.true_and] at hbyte
          rw [decide_eq_false (by omega : ¬ 8 * (j + 1) + i < 8), hback, hbyte, hnext,
            BitVec.getLsbD_of_ge _ _ (by omega : 8 ≤ 8 * (j + 1) + i), Bool.or_false]
          rfl

/-- What is loaded may be stored again. -/
theorem store_load (m : Machine) (addr : W64) (size : Size) :
    m.store addr size (m.load addr size) = m.memory := by
  funext a
  unfold store load
  split
  · next hlt =>
      have hback : addr + BitVec.ofNat 64 (a - addr).toNat = a := by
        rw [BitVec.ofNat_toNat, BitVec.setWidth_eq]
        grind
      rw [readBytes_byte _ _ hlt size.bytes_le, hback]
  · rfl

/-- Different values are different in memory. -/
theorem store_inj (m : Machine) (addr : W64) {size : Size} {x y : W64}
    (h : m.store addr size x = m.store addr size y) :
    x.setWidth size.bits = y.setWidth size.bits := by
  apply BitVec.eq_of_getLsbD_eq
  intro i hi
  have hbytes := size.bytes_le
  rw [size.bits_eq] at hi
  have hbyte := congrFun h (addr + BitVec.ofNat 64 (i / 8))
  have hplace : (addr + BitVec.ofNat 64 (i / 8) - addr).toNat = i / 8 := by
    have hback : addr + BitVec.ofNat 64 (i / 8) - addr = BitVec.ofNat 64 (i / 8) := by grind
    rw [hback, BitVec.toNat_ofNat]
    omega
  unfold store at hbyte
  rw [hplace, if_pos (by omega), if_pos (by omega)] at hbyte
  have hbit := congrArg (fun v => v.getLsbD (i % 8)) hbyte
  rw [BitVec.getLsbD_extractLsb', BitVec.getLsbD_extractLsb', decide_eq_true (by omega),
    Bool.true_and, Bool.true_and, Nat.div_add_mod] at hbit
  rw [BitVec.getLsbD_setWidth, BitVec.getLsbD_setWidth, hbit]

/-- Where a store starts at `addr`, its bytes follow. -/
theorem store_byte (m : Machine) (addr x : W64) {size : Size} {j : Nat} (hj : j < size.bytes) :
    m.store addr size x (addr + BitVec.ofNat 64 j) = x.extractLsb' (8 * j) 8 := by
  have hbytes := size.bytes_le
  have hback : addr + BitVec.ofNat 64 j - addr = BitVec.ofNat 64 j := by grind
  have hplace : (addr + BitVec.ofNat 64 j - addr).toNat = j := by
    rw [hback, BitVec.toNat_ofNat]
    omega
  unfold store
  rw [hplace, if_pos hj]

/-- A load is the number of its bytes. -/
theorem load_eq_iff (m : Machine) (addr x : W64) (size : Size) :
    m.load addr size = (x.setWidth size.bits).setWidth 64 ↔
      ∀ j < size.bytes, m.memory (addr + BitVec.ofNat 64 j) = x.extractLsb' (8 * j) 8 := by
  have hbits := size.bits_eq
  have hbytes := size.bytes_le
  constructor
  · intro hload j hj
    have hbyte : (m.load addr size).extractLsb' (8 * j) 8 = m.memory (addr + BitVec.ofNat 64 j) :=
      readBytes_byte m.memory addr hj hbytes
    rw [← hbyte, hload]
    apply BitVec.eq_of_getLsbD_eq
    intro i hi
    rw [BitVec.getLsbD_extractLsb', BitVec.getLsbD_extractLsb', BitVec.getLsbD_setWidth,
      BitVec.getLsbD_setWidth, decide_eq_true (by omega : 8 * j + i < 64),
      decide_eq_true (by omega : 8 * j + i < size.bits), Bool.true_and, Bool.true_and]
  · intro hall
    rw [← m.load_setWidth addr size]
    apply congrArg (BitVec.setWidth 64)
    apply BitVec.eq_of_getLsbD_eq
    intro i hi
    have hbyte : (m.load addr size).extractLsb' (8 * (i / 8)) 8 =
        m.memory (addr + BitVec.ofNat 64 (i / 8)) :=
      readBytes_byte m.memory addr (by omega) hbytes
    rw [hall (i / 8) (by omega)] at hbyte
    have hbit := congrArg (fun v => v.getLsbD (i % 8)) hbyte
    rw [BitVec.getLsbD_extractLsb', BitVec.getLsbD_extractLsb', decide_eq_true (by omega),
      Bool.true_and, Bool.true_and, Nat.div_add_mod] at hbit
    rw [BitVec.getLsbD_setWidth, BitVec.getLsbD_setWidth, hbit]

/-- Two stores after which each place holds what the one on it has put there. -/
structure SameStore (m : Machine) (size : Size) (a x b y : W64) : Prop where
  first : ({ m with memory := m.store b size y } : Machine).load a size =
    (x.setWidth size.bits).setWidth 64
  second : ({ m with memory := m.store a size x } : Machine).load b size =
    (y.setWidth size.bits).setWidth 64

theorem store_eq_iff (m : Machine) (size : Size) (a x b y : W64) :
    m.store a size x = m.store b size y ↔ m.SameStore size a x b y := by
  constructor
  · intro heq
    constructor
    · rw [load_eq_iff]
      intro j hj
      exact (congrFun heq _).symm.trans (m.store_byte a x hj)
    · rw [load_eq_iff]
      intro j hj
      exact (congrFun heq _).trans (m.store_byte b y hj)
  · rintro ⟨hfirst, hsecond⟩
    rw [load_eq_iff] at hfirst hsecond
    have hback : ∀ base p : W64, base + BitVec.ofNat 64 (p - base).toNat = p := by
      intro base p
      rw [BitVec.ofNat_toNat, BitVec.setWidth_eq]
      grind
    funext p
    by_cases ha : (p - a).toNat < size.bytes
    · have hp := hfirst _ ha
      have hself := m.store_byte a x ha
      rw [hback] at hp hself
      exact hself.trans hp.symm
    · by_cases hb : (p - b).toNat < size.bytes
      · have hp := hsecond _ hb
        have hself := m.store_byte b y hb
        rw [hback] at hp hself
        exact hp.trans hself.symm
      · unfold store
        rw [if_neg ha, if_neg hb]

end Machine

/-! Accesses -/

theorem carries_shift (left : Nat → Leftover) (us ts : List TransOp) :
    carries (fun k => left (k + us.length)) [] ts = carries left us ts := by
  induction ts with
  | nil => rfl
  | cons t ts ih =>
      rw [carries, carries, ih]
      rfl

namespace MemOperand
variable (c : DecodeContext) (left : Nat → Leftover) (us : List TransOp) (size : Size)
  (a : MemOperand) (m : Machine)

/-- Where an access leads with the uops `us` from it on: the address, with what the uops of it
pick up from the carry flag of the host. -/
def place : W64 :=
  c.segment m + a.sum c m + BitVec.ofNat 64 (carries left us (a.addressGenerate c size).1)

theorem place_congr {m m' : Machine} (hgpr : ∀ r, m'.data (.gpr r) = m.data (.gpr r))
    (hctx : m'.data .ctx = m.data .ctx) (hcontext : m'.context = m.context) :
    a.place c left us size m' = a.place c left us size m := by
  have hsegment : c.segment m' = c.segment m := by
    unfold DecodeContext.segment
    rw [hctx, hcontext]
  have hindex : a.index m' = a.index m := by
    unfold index
    cases a.indexreg with
    | none => rfl
    | some r => exact congrArg (fun x : W64 => x <<< a.scale) (hgpr r)
  have hbase : m'.data a.basereg.archReg = m.data a.basereg.archReg := by
    cases a.basereg with
    | zero | rip => rfl
    | gpr r => exact hgpr r
  unfold place sum
  rw [hsegment, hindex, hbase]

theorem place_touches {m m' : Machine} {rs : List Reg} (h : m.Touches rs m')
    (hgpr : ∀ r, .gpr r ∉ rs) (hctx : .ctx ∉ rs) :
    a.place c left us size m' = a.place c left us size m :=
  a.place_congr c left us size (fun r => h.data _ rfl (hgpr r)) (h.data .ctx rfl hctx) h.context

/-- The registers that the uops of an address write. -/
def addressTemps : List Reg := [.temp6, .temp8]

theorem reaches_address (h : a.WellFormed) :
    ∃ m1, m1.data (a.addressGenerate c size).2.1 + (a.addressGenerate c size).2.2 =
        a.place c left us size m ∧
      m.Touches addressTemps m1 ∧ m1.memory = m.memory ∧
      Reaches left us (a.addressGenerate c size).1 m m1 := by
  have ⟨m1, hsame, hdata, hrun⟩ :=
    runs_addressGenerate c (fun k => left (k + us.length)) [] m h size
  have hreach : Reaches left us (a.addressGenerate c size).1 m m1 := .of_runs hrun
  have ⟨m2, hkeeps, hreach2⟩ :=
    reaches_straight (fun t ht => (a.around_address c size t ht).straight) left us m
  rw [hreach2.unique hreach] at hkeeps
  refine ⟨m1, ?_, hkeeps.touches fun t ht => ?_, hsame.memory, hreach⟩
  · rw [hdata, carries_shift]
    rfl
  · refine ⟨(setsNone_addressGenerate c size a t ht).own, ?_⟩
    cases (a.addressGenerate_addresses c size t ht).rd with
    | inl hrd => rw [hrd]; exact List.mem_cons_self
    | inr hrd => rw [hrd]; exact List.mem_cons_of_mem _ List.mem_cons_self

theorem reaches_load (h : a.WellFormed) (destreg : Reg) (hrd : destreg ≠ .zero)
    (hflag : destreg.isFlag = false) :
    ∃ m1, m1.data destreg =
        m.load (a.place c left (a.load c size .ld destreg :: us) size m) size ∧
      m.Touches (addressTemps ++ [destreg]) m1 ∧ m1.memory = m.memory ∧
      Reaches left us (a.operandLoad c size .ld destreg) m m1 := by
  let ld := a.load c size .ld destreg
  have ⟨m1, hplace, htouch, hmem, hreach⟩ := a.reaches_address c left (ld :: us) size m h
  let x := m1.load (m1.data ld.ra + ld.rbimm) size
  have hexec : ld.exec (left us.length) m1 = some (.result x .clear) := rfl
  have hset : m1.Sets destreg x (ld.write (left us.length) x .clear m1) := ld.write_sets hrd hflag
  refine ⟨_, hset.data.trans ?_, htouch.trans (ld.write_touches ⟨hflag, .inl rfl⟩ _ _ _ _),
    hset.memory.trans hmem, hreach.append (.result hexec)⟩
  have haddr : m1.data ld.ra + ld.rbimm = a.place c left (ld :: us) size m := hplace
  change m1.load (m1.data ld.ra + ld.rbimm) size = _
  rw [haddr, Machine.load, hmem]
  rfl

theorem reaches_store (h : a.WellFormed) (srcreg : Reg) (himm : srcreg ≠ .imm)
    (hflag : srcreg.isFlag = false) (htemp : srcreg ∉ addressTemps) :
    ∃ m1, m1.memory =
        m.store (a.place c left (a.storeOp c size srcreg :: us) size m) size (m.data srcreg) ∧
      m.Touches addressTemps m1 ∧ Reaches left us (a.resultStore c size srcreg) m m1 := by
  let st := a.storeOp c size srcreg
  have ⟨m1, hplace, htouch, hmem, hreach⟩ := a.reaches_address c left (st :: us) size m h
  have hrc : st.readRc m1 = m.data srcreg := by
    have hread : st.readRc m1 = m1.data srcreg := if_neg himm
    rw [hread]
    exact htouch.data srcreg hflag htemp
  have hexec : st.exec (left us.length) m1 =
      some (.stored (m1.store (m1.data st.ra + st.rbimm) size (st.readRc m1))) := rfl
  refine ⟨{ m1 with memory := m1.store (m1.data st.ra + st.rbimm) size (st.readRc m1) }, ?_,
    ⟨htouch.data, htouch.flags, htouch.context⟩, hreach.append (.stored hexec)⟩
  have haddr : m1.data st.ra + st.rbimm = a.place c left (st :: us) size m := hplace
  rw [haddr, hrc]
  unfold Machine.store
  rw [hmem]

end MemOperand
/-! Registers -/

namespace GprName

/-- The part of the register that the name stands for. -/
def read (m : Machine) : (d : GprName) → BitVec d.size.bits
  | .low r size => (m.data (.gpr r)).setWidth size.bits
  | .high r => (m.data (.gpr r.archReg)).extractLsb' 8 8

theorem read_congr (d : GprName) {m m' : Machine}
    (h : m'.data (.gpr d.archReg) = m.data (.gpr d.archReg)) : d.read m' = d.read m := by
  cases d with
  | low r size => exact congrArg (BitVec.setWidth size.bits) h
  | high r => exact congrArg (BitVec.extractLsb' 8 8) h

/-- Where a uop reads the register. -/
def rareg (d : GprName) : Reg := if d.hibyte then .temp2 else .gpr d.archReg

theorem rareg_ne (d : GprName) : d.rareg ≠ .zero ∧ d.rareg ≠ .imm ∧ d.rareg.isFlag = false := by
  cases d with
  | low r size => exact ⟨by rintro ⟨⟩, by rintro ⟨⟩, rfl⟩
  | high r => exact ⟨by rintro ⟨⟩, by rintro ⟨⟩, rfl⟩

/-- The operand of the uop is the part of the register. -/
theorem reaches_extract (d : GprName) (left : Nat → Leftover) (us : List TransOp) (m : Machine) :
    ∃ m1, (m1.data d.rareg).setWidth d.size.bits = d.read m ∧ m.Touches [.temp2] m1 ∧
      m1.memory = m.memory ∧ Reaches left us (extractOperand .temp2 (.reg d)) m m1 := by
  cases d with
  | low r size => exact ⟨m, rfl, (Machine.Touches.refl m).mono nofun, rfl, .nil left us m⟩
  | high r =>
      let t := extractByte .temp2 (.gpr r.archReg)
      let x := mask 0 (m.data (.gpr r.archReg)) (MaskControlInfo.data { ms := 0, mc := 8, ds := 8 })
      have hexec : ∃ f, t.exec (left us.length) m = some (.result x f) := by
        have hmask := expOpMask_word (left us.length).result 0 (m.data (.gpr r.archReg))
          (MaskControlInfo.data { ms := 0, mc := 8, ds := 8 })
        have hx : x = _ := hmask.symm
        rw [hx]
        exact ⟨_, rfl⟩
      obtain ⟨f, hexec⟩ := hexec
      have hset : m.Sets .temp2 x (t.write (left us.length) x f m) :=
        t.write_sets (by rintro ⟨⟩) rfl
      refine ⟨_, ?_, t.write_touches ⟨rfl, .inl rfl⟩ _ _ _ _, hset.memory, .result hexec⟩
      change ((t.write (left us.length) x f m).data .temp2).setWidth 8 = _
      rw [hset.data, mask_extractHigh]
      apply BitVec.eq_of_getLsbD_eq
      intro i hi
      rw [BitVec.getLsbD_setWidth, BitVec.getLsbD_ushiftRight, read, BitVec.getLsbD_extractLsb',
        decide_eq_true hi]

/-- The register with its part replaced; four bytes clear the others. -/
def put (old : W64) : (d : GprName) → BitVec d.size.bits → W64
  | .low _ size, x => x86Merge size old (x.setWidth 64)
  | .high _, x => old.extractLsb' 16 48 ++ (x : BitVec 8) ++ old.setWidth 8

theorem mask_put (old rb : W64) :
    mask old rb (MaskControlInfo.data { ms := 56, mc := 8, ds := 56 }) =
      old.extractLsb' 16 48 ++ rb.setWidth 8 ++ old.setWidth 8 := by
  have hmask : mask old rb (MaskControlInfo.data { ms := 56, mc := 8, ds := 56 }) =
      (old &&& ~~~0xFF00) ||| (rb.rotateRight 56 &&& 0xFF00) := rfl
  have hbit : ∀ i < 64, (0xFF00 : W64).getLsbD i = (decide (8 ≤ i) && decide (i < 16)) := by decide
  rw [hmask]
  apply BitVec.eq_of_getLsbD_eq
  intro i hi
  rw [getLsbD_mix _ _ _ hi, hbit i hi, BitVec.getLsbD_append, BitVec.getLsbD_append,
    BitVec.getLsbD_extractLsb', BitVec.getLsbD_setWidth, BitVec.getLsbD_setWidth,
    BitVec.getLsbD_rotateRight]
  by_cases hlow : i < 8
  · simp [hlow, show ¬ 8 ≤ i by omega]
  · by_cases hmid : i < 16
    · have hturn : ¬ i < 64 - 56 % 64 := by omega
      simp [hlow, hmid, show 8 ≤ i by omega, show i - 8 < 8 by omega, hi]
    · have hhigh : i - 8 - 8 < 48 := by omega
      have hback : 16 + (i - 8 - 8) = i := by omega
      simp [hlow, hmid, show ¬ i - 8 < 8 by omega, hhigh, hback]

/-- The high byte is put back behind the operation. -/
theorem reaches_insert (r : HighByte) (left : Nat → Leftover) (us : List TransOp) (m : Machine) :
    ∃ m1, m1.data (.gpr r.archReg) =
        (GprName.high r).put (m.data (.gpr r.archReg)) ((m.data .temp2).setWidth 8) ∧
      m.Touches [.gpr r.archReg] m1 ∧ m1.memory = m.memory ∧
      Reaches left us [insertByte (.gpr r.archReg) .temp2] m m1 := by
  let t := insertByte (.gpr r.archReg) .temp2
  let x := mask (m.data (.gpr r.archReg)) (m.data .temp2)
    (MaskControlInfo.data { ms := 56, mc := 8, ds := 56 })
  have hexec : ∃ f, t.exec (left us.length) m = some (.result x f) := by
    have hmask := expOpMask_word (left us.length).result (m.data (.gpr r.archReg))
      (m.data .temp2) (MaskControlInfo.data { ms := 56, mc := 8, ds := 56 })
    have hx : x = _ := hmask.symm
    rw [hx]
    exact ⟨_, rfl⟩
  obtain ⟨f, hexec⟩ := hexec
  have hset : m.Sets (.gpr r.archReg) x (t.write (left us.length) x f m) :=
    t.write_sets (by rintro ⟨⟩) rfl
  refine ⟨_, hset.data.trans ?_, t.write_touches ⟨rfl, .inl rfl⟩ _ _ _ _, hset.memory,
    .result hexec⟩
  exact mask_put _ _

end GprName
end FeS2.Decoder
