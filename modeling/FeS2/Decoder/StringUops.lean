import FeS2.Decoder.StringLoop

/-!
One trip of a repeated string instruction: what its uops do to the counter and the addresses, and
where fetch goes on. The additions set no flags, so a carry of the host gets into them.
-/

namespace FeS2.Decoder

/-- A carry that the host has left for an addition to a register. -/
def carriesInto (left : Nat → Leftover) (r : Gpr) : List TransOp → Bool
  | [] => false
  | t :: ts =>
      t.opcode = .add && t.rd = .gpr r && (left ts.length).carry || carriesInto left r ts

theorem carriesInto_cons {left : Nat → Leftover} {r : Gpr} {t : TransOp} (ts : List TransOp)
    (h : t.opcode ≠ .add) : carriesInto left r (t :: ts) = carriesInto left r ts := by
  rw [carriesInto, decide_eq_false h]
  rfl

theorem carriesInto_none {left : Nat → Leftover} {r : Gpr} {ts : List TransOp}
    (h : ∀ t ∈ ts, t.opcode ≠ .add) : carriesInto left r ts = false := by
  induction ts with
  | nil => rfl
  | cons t ts ih =>
      rw [carriesInto_cons ts (h t List.mem_cons_self)]
      exact ih fun s hs => h s (List.mem_cons_of_mem t hs)

def Machine.counters (m : Machine) : Counters :=
  { rcx := m.data (.gpr .rcx), rsi := m.data (.gpr .rsi), rdi := m.data (.gpr .rdi) }

theorem Machine.Sets.gpr {rd : Reg} {x : W64} {m m' : Machine} (h : m.Sets rd x m') (r : Gpr) :
    m'.data (.gpr r) = if rd = .gpr r then x else m.data (.gpr r) := by
  split
  · rename_i heq
    exact heq ▸ h.data
  · rename_i hne
    exact h.other _ rfl (Ne.symm hne)

theorem Machine.Sets.counters {rd : Reg} {x : W64} {m m' : Machine} (h : m.Sets rd x m')
    (hrd : ∀ r, rd ≠ .gpr r) : m'.counters = m.counters := by
  simp [Machine.counters, h.gpr, hrd]

theorem Machine.Sets.load {rd : Reg} {x : W64} {m m' : Machine} (h : m.Sets rd x m') (addr : W64)
    (size : Size) : m'.load addr size = m.load addr size := by
  rw [Machine.load, h.memory, Machine.load]

@[simp] theorem Machine.data_memory (m : Machine) (memory : W64 → BitVec 8) (r : Reg) :
    ({ m with memory := memory } : Machine).data r = m.data r := rfl

theorem Size.setWidth_low (size : Size) (y : BitVec size.bits) :
    (y.setWidth 64).setWidth size.bits = y := by
  rw [BitVec.setWidth_setWidth_of_le _ size.bits_le, BitVec.setWidth_eq]

namespace StringInsn
variable (i : StringInsn) (m : Machine) (l : Leftover)

section
variable (left : Nat → Leftover) (r : Gpr) (ts : List TransOp)

@[simp] theorem carriesInto_load (rd : Reg) (addr : Gpr) :
    carriesInto left r (i.load rd addr :: ts) = carriesInto left r ts :=
  carriesInto_cons ts (by rintro ⟨⟩)

@[simp] theorem carriesInto_store (value : Reg) :
    carriesInto left r (i.store value :: ts) = carriesInto left r ts :=
  carriesInto_cons ts (by rintro ⟨⟩)

@[simp] theorem carriesInto_compare (ra rb : Reg) :
    carriesInto left r (i.compare ra rb :: ts) = carriesInto left r ts :=
  carriesInto_cons ts (by rintro ⟨⟩)

@[simp] theorem carriesInto_merge :
    carriesInto left r (i.merge :: ts) = carriesInto left r ts :=
  carriesInto_cons ts (by rintro ⟨⟩)

@[simp] theorem carriesInto_advance (dirflag : Bool) (r' : Gpr) :
    carriesInto left r (i.advance dirflag r' :: ts) =
      (decide (r' = r) && (left ts.length).carry || carriesInto left r ts) := by
  simp [carriesInto, advance]

end

/-! What the uops compute -/

theorem load_exec (rd : Reg) (addr : Gpr) : (i.load rd addr).exec l m =
    some (.result (m.load (m.data (.gpr addr)) i.size) .clear) := by
  have haddr : m.data (.gpr addr) + 0 = m.data (.gpr addr) := BitVec.add_zero _
  exact congrArg (fun x => some (Outcome.result (m.load x i.size) .clear)) haddr

theorem advance_exec (dirflag : Bool) (r : Gpr) : (i.advance dirflag r).exec l m =
    some (.result (i.passed dirflag l.carry (m.data (.gpr r))) .clear) := by
  have hset : decide ((i.advance dirflag r).setflags ≠ .none) = false := decide_eq_false (· rfl)
  rw [TransOp.exec]
  dsimp only
  rw [hset]
  refine congrArg (fun x => some (Outcome.result x .clear)) (x86Merge_congr _ ?_)
  have hcarry : ((BitVec.ofBool l.carry).setWidth 64).setWidth i.addrSize.bits =
      (BitVec.ofBool l.carry).setWidth i.addrSize.bits :=
    BitVec.setWidth_setWidth_of_le _ i.addrSize.bits_le
  rw [Size.setWidth_add, Size.setWidth_add]
  exact (Size.setWidth_low _ _).trans (congrArg
    ((m.data (.gpr r)).setWidth _ + (i.increment dirflag).setWidth _ + ·) hcarry.symm)

/-- A subtraction finds no carry: it loads the flags of `REG_zero`. -/
theorem sub_exec {t : TransOp} (hop : t.opcode = .sub) (hrc : t.rc = .zero)
    (hset : t.setflags ≠ .none) : ∃ f, t.exec l m = some (.result (x86Merge t.size (m.data t.ra)
      (m.data t.ra - t.readRb m)) f) ∧
    f.zf = ((m.data t.ra).setWidth t.size.bits == (t.readRb m).setWidth t.size.bits) := by
  have hgen : decide (t.setflags ≠ .none) = true := decide_eq_true hset
  have hflags : t.rcflags m = .clear := by rw [TransOp.rcflags, hrc]; rfl
  have hnone : ∀ x : BitVec t.size.bits, x - (BitVec.ofBool false).setWidth _ = x := fun x => by
    simp
  have hlow : ((m.data t.ra).setWidth t.size.bits - (t.readRb m).setWidth t.size.bits -
      (BitVec.ofBool false).setWidth t.size.bits) =
      (m.data t.ra - t.readRb m).setWidth t.size.bits := by
    rw [hnone, Size.setWidth_sub]
  refine ⟨(withFlags (sbb ((m.data t.ra).setWidth t.size.bits) ((t.readRb m).setWidth t.size.bits)
    false)).2, ?_, ?_⟩
  · rw [TransOp.exec, hop]
    dsimp only
    rw [hgen, hflags]
    refine congrArg (fun x => some (Outcome.result x _)) (x86Merge_congr _ ?_)
    exact (Size.setWidth_low _ _).trans hlow
  · rw [withFlags, sbb]
    dsimp only
    rw [x86Genflags, hnone, Bool.eq_iff_iff, beq_iff_eq, beq_iff_eq]
    exact BitVec.sub_eq_iff_eq_add.trans (by rw [BitVec.ofNat_eq_ofNat, BitVec.zero_add])

theorem orxf_exec : i.orxf.exec l m = some (.result 0 ((m.flagsOf (.gpr .rcx)).or
    (if i.rep = .repz then (m.flagsOf .temp2).not else m.flagsOf .temp2))) := by
  rw [TransOp.exec, orxf]
  cases i.rep <;> rfl

theorem chk_exec : i.chk.exec l m =
    some (if i.count m.counters = 0 then .checkFailed skipBlock else .result 0 .clear) := by
  have hzero : (m.data .zero).setWidth i.addrSize.bits = 0 := BitVec.setWidth_zero _ _
  have hnone : ∀ x : BitVec i.addrSize.bits, x - 0 - (BitVec.ofBool false).setWidth _ = x :=
    fun x => by simp
  have hlow : i.count m.counters - (m.data .zero).setWidth i.addrSize.bits -
      (BitVec.ofBool false).setWidth i.addrSize.bits = i.count m.counters := by
    rw [hzero, hnone]
  have hexec : i.chk.exec l m = some (if !(i.count m.counters -
      (m.data .zero).setWidth i.addrSize.bits -
      (BitVec.ofBool false).setWidth i.addrSize.bits == 0) then .result 0 .clear
      else .checkFailed skipBlock) := rfl
  rw [hexec, hlow]
  by_cases h : i.count m.counters = 0
  · rw [if_pos h, h]
    rfl
  · rw [if_neg h, beq_false_of_ne h]
    rfl

/-! The iteration -/

section
variable (left : Nat → Leftover) (next : W64) (ts : List TransOp)

theorem run_load (rd : Reg) (addr : Gpr) (hrd : rd ≠ .zero) (hflag : rd.isFlag = false) :
    ∃ m', m.Sets rd (m.load (m.data (.gpr addr)) i.size) m' ∧
      runUops left next (i.load rd addr :: ts) m = runUops left next ts m' :=
  ⟨_, TransOp.write_sets (t := i.load rd addr) hrd hflag, runUops_result (i.load_exec m _ rd addr)⟩

theorem run_store (value : Reg) : ∃ memory, runUops left next (i.store value :: ts) m =
    runUops left next ts { m with memory := memory } := ⟨_, rfl⟩

theorem run_advance (dirflag : Bool) (r : Gpr) :
    ∃ m', m.Sets (.gpr r) (i.passed dirflag (left ts.length).carry (m.data (.gpr r))) m' ∧
      runUops left next (i.advance dirflag r :: ts) m = runUops left next ts m' :=
  ⟨_, TransOp.write_sets (t := i.advance dirflag r) (by rintro ⟨⟩) rfl,
    runUops_result (i.advance_exec m _ dirflag r)⟩

theorem run_merge : ∃ x m', m.Sets (.gpr .rax) x m' ∧
    runUops left next (i.merge :: ts) m = runUops left next ts m' :=
  ⟨_, _, TransOp.write_sets (t := i.merge) (by rintro ⟨⟩) rfl, runUops_result rfl⟩

theorem run_compare (ra rb : Reg) (hrb : rb ≠ .imm) : ∃ x f m', m.SetsWith .temp2 x f m' ∧
    f.zf = ((m.data ra).setWidth i.size.bits == (m.data rb).setWidth i.size.bits) ∧
    runUops left next (i.compare ra rb :: ts) m = runUops left next ts m' := by
  have hread : (i.compare ra rb).readRb m = m.data rb := if_neg hrb
  obtain ⟨f, hexec, hzf⟩ := sub_exec m (left ts.length) (t := i.compare ra rb) rfl rfl
    SetFlags.defaultAlu_ne
  rw [hread] at hexec hzf
  exact ⟨_, f, _, TransOp.write_setsWith (t := i.compare ra rb) (by rintro ⟨⟩) rfl
    SetFlags.defaultAlu_ne, hzf, runUops_result hexec⟩

end

/-- The elements are the same. -/
def same (src dst : W64) : Bool :=
  let low (x : W64) : BitVec i.size.bits := x.setWidth _
  if i.op = .cmps then low (m.load src i.size) == low (m.load dst i.size)
  else low (m.load dst i.size) == low (m.data (.gpr .rax))

/-- What the uops of an iteration do. -/
structure Iterated (dirflag : Bool) (carry : Gpr → Bool) (m m' : Machine) : Prop where
  counters : m'.counters = { i.step dirflag carry m.counters with rcx := m.counters.rcx }
  memory : i.compares → m'.memory = m.memory
  rax : i.compares → m'.data (.gpr .rax) = m.data (.gpr .rax)
  compared : i.compares →
    (m'.flagsOf .temp2).zf = i.same m (m.data (.gpr .rsi)) (m.data (.gpr .rdi))

section
variable {i} {left : Nat → Leftover} {next : W64} {ts : List TransOp} {m}

theorem run_movs (dirflag : Bool) (hop : i.op = .movs)
    (hts : ∀ r, carriesInto left r ts = false) :
    ∃ m', i.Iterated dirflag (fun r => carriesInto left r (i.body dirflag ++ ts)) m m' ∧
      runUops left next (i.body dirflag ++ ts) m = runUops left next ts m' := by
  have hno : i.compares = false := by rw [compares, hop]; rfl
  rw [body, hop]
  obtain ⟨m1, h1, hrun1⟩ := i.run_load m left next (i.store .temp0 :: i.advance dirflag .rsi ::
    i.advance dirflag .rdi :: ts) .temp0 .rsi (by rintro ⟨⟩) rfl
  obtain ⟨memory, hrun2⟩ := i.run_store m1 left next (i.advance dirflag .rsi ::
    i.advance dirflag .rdi :: ts) .temp0
  obtain ⟨m3, h3, hrun3⟩ := i.run_advance { m1 with memory := memory } left next
    (i.advance dirflag .rdi :: ts) dirflag .rsi
  obtain ⟨m4, h4, hrun4⟩ := i.run_advance m3 left next ts dirflag .rdi
  refine ⟨m4, ?_, hrun1.trans (hrun2.trans (hrun3.trans hrun4))⟩
  constructor
  · simp [Machine.counters, step, uses, hop, h4.gpr, h3.gpr, h1.gpr, hts]
  · simp [hno]
  · simp [hno]
  · simp [hno]

theorem run_cmps (dirflag : Bool) (hop : i.op = .cmps)
    (hts : ∀ r, carriesInto left r ts = false) :
    ∃ m', i.Iterated dirflag (fun r => carriesInto left r (i.body dirflag ++ ts)) m m' ∧
      runUops left next (i.body dirflag ++ ts) m = runUops left next ts m' := by
  rw [body, hop]
  obtain ⟨m1, h1, hrun1⟩ := i.run_load m left next (i.load .temp1 .rdi :: i.advance dirflag .rsi ::
    i.advance dirflag .rdi :: i.compare .temp0 .temp1 :: ts) .temp0 .rsi (by rintro ⟨⟩) rfl
  obtain ⟨m2, h2, hrun2⟩ := i.run_load m1 left next (i.advance dirflag .rsi ::
    i.advance dirflag .rdi :: i.compare .temp0 .temp1 :: ts) .temp1 .rdi (by rintro ⟨⟩) rfl
  obtain ⟨m3, h3, hrun3⟩ := i.run_advance m2 left next
    (i.advance dirflag .rdi :: i.compare .temp0 .temp1 :: ts) dirflag .rsi
  obtain ⟨m4, h4, hrun4⟩ := i.run_advance m3 left next (i.compare .temp0 .temp1 :: ts) dirflag .rdi
  obtain ⟨x, f, m5, h5, hzf, hrun5⟩ :=
    i.run_compare m4 left next ts .temp0 .temp1 (by rintro ⟨⟩)
  have hsrc : m4.data .temp0 = m.load (m.data (.gpr .rsi)) i.size := by
    rw [h4.other .temp0 rfl (by rintro ⟨⟩), h3.other .temp0 rfl (by rintro ⟨⟩),
      h2.other .temp0 rfl (by rintro ⟨⟩), h1.data]
  have hdst : m4.data .temp1 = m.load (m.data (.gpr .rdi)) i.size := by
    rw [h4.other .temp1 rfl (by rintro ⟨⟩), h3.other .temp1 rfl (by rintro ⟨⟩), h2.data, h1.load,
      h1.other (.gpr .rdi) rfl (by rintro ⟨⟩)]
  refine ⟨m5, ?_, hrun1.trans (hrun2.trans (hrun3.trans (hrun4.trans hrun5)))⟩
  constructor
  · simp [Machine.counters, step, uses, hop, h5.gpr, h4.gpr, h3.gpr, h2.gpr, h1.gpr, hts]
  · intro
    rw [h5.memory, h4.memory, h3.memory, h2.memory, h1.memory]
  · simp [h5.gpr, h4.gpr, h3.gpr, h2.gpr, h1.gpr]
  · intro
    rw [h5.flags, hzf, hsrc, hdst, same, if_pos hop]

theorem run_stos (dirflag : Bool) (hop : i.op = .stos)
    (hts : ∀ r, carriesInto left r ts = false) :
    ∃ m', i.Iterated dirflag (fun r => carriesInto left r (i.body dirflag ++ ts)) m m' ∧
      runUops left next (i.body dirflag ++ ts) m = runUops left next ts m' := by
  have hno : i.compares = false := by rw [compares, hop]; rfl
  rw [body, hop]
  obtain ⟨memory, hrun1⟩ := i.run_store m left next (i.advance dirflag .rdi :: ts) (.gpr .rax)
  obtain ⟨m2, h2, hrun2⟩ := i.run_advance { m with memory := memory } left next ts dirflag .rdi
  refine ⟨m2, ?_, hrun1.trans hrun2⟩
  constructor
  · simp [Machine.counters, step, uses, hop, h2.gpr, hts]
  · simp [hno]
  · simp [hno]
  · simp [hno]

theorem run_lods (dirflag : Bool) (hop : i.op = .lods)
    (hts : ∀ r, carriesInto left r ts = false) :
    ∃ m', i.Iterated dirflag (fun r => carriesInto left r (i.body dirflag ++ ts)) m m' ∧
      runUops left next (i.body dirflag ++ ts) m = runUops left next ts m' := by
  have hno : i.compares = false := by rw [compares, hop]; rfl
  rw [body, hop]
  dsimp only
  split
  · obtain ⟨m1, h1, hrun1⟩ := i.run_load m left next (i.advance dirflag .rsi :: ts)
      (.gpr .rax) .rsi (by rintro ⟨⟩) rfl
    obtain ⟨m2, h2, hrun2⟩ := i.run_advance m1 left next ts dirflag .rsi
    refine ⟨m2, ?_, hrun1.trans hrun2⟩
    constructor
    · simp [Machine.counters, step, uses, hop, h2.gpr, h1.gpr, hts]
    · simp [hno]
    · simp [hno]
    · simp [hno]
  · obtain ⟨m1, h1, hrun1⟩ := i.run_load m left next (i.merge :: i.advance dirflag .rsi :: ts)
      .temp0 .rsi (by rintro ⟨⟩) rfl
    obtain ⟨x, m2, h2, hrun2⟩ := i.run_merge m1 left next (i.advance dirflag .rsi :: ts)
    obtain ⟨m3, h3, hrun3⟩ := i.run_advance m2 left next ts dirflag .rsi
    refine ⟨m3, ?_, hrun1.trans (hrun2.trans hrun3)⟩
    constructor
    · simp [Machine.counters, step, uses, hop, h3.gpr, h2.gpr, h1.gpr, hts]
    · simp [hno]
    · simp [hno]
    · simp [hno]

theorem run_scas (dirflag : Bool) (hop : i.op = .scas)
    (hts : ∀ r, carriesInto left r ts = false) :
    ∃ m', i.Iterated dirflag (fun r => carriesInto left r (i.body dirflag ++ ts)) m m' ∧
      runUops left next (i.body dirflag ++ ts) m = runUops left next ts m' := by
  rw [body, hop]
  obtain ⟨m1, h1, hrun1⟩ := i.run_load m left next (i.advance dirflag .rdi ::
    i.compare .temp1 (.gpr .rax) :: ts) .temp1 .rdi (by rintro ⟨⟩) rfl
  obtain ⟨m2, h2, hrun2⟩ := i.run_advance m1 left next
    (i.compare .temp1 (.gpr .rax) :: ts) dirflag .rdi
  obtain ⟨x, f, m3, h3, hzf, hrun3⟩ :=
    i.run_compare m2 left next ts .temp1 (.gpr .rax) (by rintro ⟨⟩)
  have hdst : m2.data .temp1 = m.load (m.data (.gpr .rdi)) i.size := by
    rw [h2.other .temp1 rfl (by rintro ⟨⟩), h1.data]
  have hrax : m2.data (.gpr .rax) = m.data (.gpr .rax) := by
    rw [h2.other (.gpr .rax) rfl (by rintro ⟨⟩), h1.other (.gpr .rax) rfl (by rintro ⟨⟩)]
  refine ⟨m3, ?_, hrun1.trans (hrun2.trans hrun3)⟩
  constructor
  · simp [Machine.counters, step, uses, hop, h3.gpr, h2.gpr, h1.gpr, hts]
  · intro
    rw [h3.memory, h2.memory, h1.memory]
  · simp [h3.gpr, h2.gpr, h1.gpr]
  · intro
    rw [h3.flags, hzf, hdst, hrax, same, if_neg (by rw [hop]; decide)]

theorem run_body (next : W64) (m : Machine) (dirflag : Bool)
    (hts : ∀ r, carriesInto left r ts = false) :
    ∃ m', i.Iterated dirflag (fun r => carriesInto left r (i.body dirflag ++ ts)) m m' ∧
      runUops left next (i.body dirflag ++ ts) m = runUops left next ts m' := by
  cases hop : i.op with
  | movs => exact run_movs dirflag hop hts
  | cmps => exact run_cmps dirflag hop hts
  | stos => exact run_stos dirflag hop hts
  | lods => exact run_lods dirflag hop hts
  | scas => exact run_scas dirflag hop hts

end

/-! The trip -/

/-- What the same or another element says to the prefix. -/
def stops (same : Bool) : Bool := if i.rep = .repz then !same else same

/-- The comparison ends the loop. -/
def breaks (src dst : W64) : Bool := i.compares && i.stops (i.same m src dst)

section
variable (left : Nat → Leftover) (next : W64)

theorem run_sub (ts : List TransOp) : ∃ f m', m.SetsWith (.gpr .rcx)
      (x86Merge i.addrSize m.counters.rcx (m.counters.rcx - 1)) f m' ∧
    f.zf = decide (i.count m'.counters = 0) ∧
    runUops left next (i.sub :: ts) m = runUops left next ts m' := by
  obtain ⟨f, hexec, hzf⟩ := sub_exec m (left ts.length) (t := i.sub) rfl rfl SetFlags.zfOnly_ne
  have hset : m.SetsWith (.gpr .rcx) (x86Merge i.addrSize m.counters.rcx (m.counters.rcx - 1)) f
      (i.sub.write (left ts.length) (x86Merge i.addrSize m.counters.rcx (m.counters.rcx - 1)) f m) :=
    TransOp.write_setsWith (t := i.sub) (by rintro ⟨⟩) rfl SetFlags.zfOnly_ne
  refine ⟨f, _, hset, ?_, runUops_result hexec⟩
  have hcount : i.count (i.sub.write (left ts.length)
      (x86Merge i.addrSize m.counters.rcx (m.counters.rcx - 1)) f m).counters =
      m.counters.rcx.setWidth i.addrSize.bits - (1 : W64).setWidth i.addrSize.bits := by
    rw [← Size.setWidth_sub, ← x86Merge_setWidth i.addrSize m.counters.rcx]
    exact congrArg _ hset.data
  rw [hcount, hzf, Bool.eq_iff_iff, beq_iff_eq, decide_eq_true_iff, BitVec.sub_eq_iff_eq_add,
    BitVec.ofNat_eq_ofNat, BitVec.zero_add]
  rfl

theorem run_orxf (ts : List TransOp) : ∃ f m', m.SetsWith .temp0 0 f m' ∧
    f.zf = ((m.flagsOf (.gpr .rcx)).zf || i.stops (m.flagsOf .temp2).zf) ∧
    runUops left next (i.orxf :: ts) m = runUops left next ts m' := by
  refine ⟨_, _, TransOp.write_setsWith (t := i.orxf) (by rintro ⟨⟩) rfl SetFlags.defaultAlu_ne, ?_,
    runUops_result (i.orxf_exec m _)⟩
  rw [Flags.or, stops]
  split <;> rfl

theorem run_br : runUops left next [i.br] m = some (m,
    if (m.flagsOf (if i.compares then .temp0 else .gpr .rcx)).zf then i.rip else i.ripstart) := by
  have hrun : runUops left next [i.br] m = some (m,
      if !(m.flagsOf (if i.compares then .temp0 else .gpr .rcx)).zf then i.ripstart else i.rip) :=
    rfl
  rw [hrun]
  cases (m.flagsOf (if i.compares then .temp0 else .gpr .rcx)).zf <;> rfl

theorem run_tail : ∃ m',
    m'.counters =
      { m.counters with rcx := x86Merge i.addrSize m.counters.rcx (m.counters.rcx - 1) } ∧
    m'.memory = m.memory ∧ m'.data (.gpr .rax) = m.data (.gpr .rax) ∧
    runUops left next i.tail m = some (m',
      if i.count m'.counters = 0 ∨ i.compares ∧ i.stops (m.flagsOf .temp2).zf then i.rip
      else i.ripstart) := by
  obtain ⟨f, m1, h1, hzf, hrun1⟩ := i.run_sub m left next
    ((if i.compares then [i.orxf] else []) ++ [i.br])
  have hcounters : m1.counters =
      { m.counters with rcx := x86Merge i.addrSize m.counters.rcx (m.counters.rcx - 1) } := by
    simp [Machine.counters, h1.gpr]
  have hrax : m1.data (.gpr .rax) = m.data (.gpr .rax) := h1.other _ rfl (by rintro ⟨⟩)
  have hflags : (m1.flagsOf (.gpr .rcx)).zf = decide (i.count m1.counters = 0) := h1.flags ▸ hzf
  have htail : i.tail = i.sub :: ((if i.compares then [i.orxf] else []) ++ [i.br]) := rfl
  rw [htail, hrun1]
  by_cases hcmp : i.compares = true
  · obtain ⟨f', m2, h2, hzf', hrun2⟩ := i.run_orxf m1 left next [i.br]
    have hsame : m2.counters = m1.counters := h2.counters (by rintro _ ⟨⟩)
    have hrax' : m2.data (.gpr .rax) = m1.data (.gpr .rax) := h2.other _ rfl (by rintro ⟨⟩)
    refine ⟨m2, hsame.trans hcounters, h2.memory.trans h1.memory, hrax'.trans hrax, ?_⟩
    rw [if_pos hcmp, List.singleton_append, hrun2, run_br, if_pos hcmp, h2.flags, hzf', hflags,
      hsame, h1.otherFlags .temp2 rfl (by rintro ⟨⟩)]
    simp [hcmp]
  · refine ⟨m1, hcounters, h1.memory, hrax, ?_⟩
    rw [if_neg hcmp, List.nil_append, run_br, if_neg hcmp, hflags]
    simp [hcmp]

end

/-- What a trip does. -/
structure Trip (dirflag : Bool) (carry : Gpr → Bool) (m m' : Machine) : Prop where
  counters : m'.counters = i.step dirflag carry m.counters
  memory : i.compares → m'.memory = m.memory
  rax : i.compares → m'.data (.gpr .rax) = m.data (.gpr .rax)

theorem same_congr {m m' : Machine} (hmemory : m'.memory = m.memory)
    (hrax : m'.data (.gpr .rax) = m.data (.gpr .rax)) (src dst : W64) :
    i.same m' src dst = i.same m src dst := by
  have hload : ∀ addr size, m'.load addr size = m.load addr size := fun addr size => by
    rw [Machine.load, hmemory, Machine.load]
  rw [same, same, hload, hload, hrax]

theorem run_chk (left : Nat → Leftover) (next : W64) (ts : List TransOp)
    (hcount : i.count m.counters ≠ 0) :
    ∃ m', m.Sets .temp0 0 m' ∧ runUops left next (i.chk :: ts) m = runUops left next ts m' := by
  have hexec := i.chk_exec m (left ts.length)
  rw [if_neg hcount] at hexec
  exact ⟨_, TransOp.write_sets (t := i.chk) (by rintro ⟨⟩) rfl, runUops_result hexec⟩

/-- A trip with a counter left is an iteration, and goes back for more. -/
theorem run_trip {dirflag : Bool} {uops : List TransOp} (left : Nat → Leftover)
    (h : i.uops dirflag = some uops) (hrep : i.rep ≠ .none) (hcount : i.count m.counters ≠ 0) :
    ∃ m', i.Trip dirflag (fun r => carriesInto left r uops) m m' ∧
      runUops left i.rip uops m = some (m',
        if i.count m'.counters = 0 ∨ i.breaks m m.counters.rsi m.counters.rdi then i.rip
        else i.ripstart) := by
  obtain ⟨hnone, -⟩ | ⟨-, rfl⟩ := uops_eq h
  · exact absurd hnone hrep
  have htail : ∀ r, carriesInto left r i.tail = false := fun r =>
    carriesInto_none fun t ht => tail_no_add ht
  have hcarry : ∀ r, carriesInto left r (i.chk :: i.body dirflag ++ i.tail) =
      carriesInto left r (i.body dirflag ++ i.tail) := fun r => carriesInto_cons _ (by rintro ⟨⟩)
  obtain ⟨m1, h1, hrun1⟩ := i.run_chk m left i.rip (i.body dirflag ++ i.tail) hcount
  obtain ⟨m2, h2, hrun2⟩ := run_body i.rip m1 dirflag htail
  obtain ⟨m3, hcounters, hmemory, hrax, hrun3⟩ := i.run_tail m2 left i.rip
  have hsame : m1.counters = m.counters := h1.counters (by rintro _ ⟨⟩)
  have hraxsame : m1.data (.gpr .rax) = m.data (.gpr .rax) := h1.other _ rfl (by rintro ⟨⟩)
  refine ⟨m3, ⟨?_, fun hcmp => ?_, fun hcmp => ?_⟩, ?_⟩
  · rw [hcounters, h2.counters, hsame]
    simp only [hcarry]
    rfl
  · exact hmemory.trans ((h2.memory hcmp).trans h1.memory)
  · exact hrax.trans ((h2.rax hcmp).trans hraxsame)
  · rw [List.cons_append, hrun1, hrun2, hrun3]
    by_cases hcmp : i.compares = true
    · have hzf := h2.compared hcmp
      rw [i.same_congr h1.memory hraxsame] at hzf
      have hsi : m1.data (.gpr .rsi) = m.counters.rsi := congrArg Counters.rsi hsame
      have hdi : m1.data (.gpr .rdi) = m.counters.rdi := congrArg Counters.rdi hsame
      rw [hzf, hsi, hdi, breaks, hcmp, Bool.true_and]
      simp
    · simp [breaks, hcmp]

/-- A trip without a counter left is none, and leaves the instruction. -/
theorem run_skip {dirflag : Bool} {uops : List TransOp} (left : Nat → Leftover)
    (h : i.uops dirflag = some uops) (hrep : i.rep ≠ .none) (hcount : i.count m.counters = 0) :
    ∃ m', m'.counters = m.counters ∧ runUops left i.rip uops m = some (m', i.rip) := by
  obtain ⟨hnone, -⟩ | ⟨-, rfl⟩ := uops_eq h
  · exact absurd hnone hrep
  have hexec := i.chk_exec m (left (i.body dirflag ++ i.tail).length)
  rw [if_pos hcount] at hexec
  have hlast : ((i.body dirflag ++ i.tail).getLastD i.chk).ripseq = i.rip := by
    have happend : i.body dirflag ++ i.tail =
        (i.body dirflag ++ i.sub :: (if i.compares then [i.orxf] else [])) ++ [i.br] := by
      rw [tail, List.append_assoc]
    rw [happend, List.getLastD_concat]
    rfl
  refine ⟨i.chk.write (left (i.body dirflag ++ i.tail).length) skipBlock .clear m, ?_, ?_⟩
  · have hset : m.Sets .temp0 skipBlock
        (i.chk.write (left (i.body dirflag ++ i.tail).length) skipBlock .clear m) :=
      TransOp.write_sets (t := i.chk) (by rintro ⟨⟩) rfl
    exact hset.counters (by rintro _ ⟨⟩)
  · rw [List.cons_append, runUops, hexec]
    dsimp only
    rw [hlast]

end StringInsn
end FeS2.Decoder
