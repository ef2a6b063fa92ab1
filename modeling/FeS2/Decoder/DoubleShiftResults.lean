import FeS2.Decoder.DoubleShiftRuns

/-!
Where `shld` and `shrd` leave what x86 does, and with them all shifts and rotates.
-/

namespace FeS2.Decoder

theorem Flags.SameButOf.refl (f : Flags) : f.SameButOf f := ⟨rfl, rfl, rfl, rfl⟩

/-- The flags of the result alone. -/
structure Flags.SameResult (a b : Flags) : Prop where
  pf : a.pf = b.pf
  zf : a.zf = b.zf
  sf : a.sf = b.sf

/-- The user finds nothing changed. -/
structure Machine.Rests (m m' : Machine) : Prop where
  gpr : ∀ q, m'.data (.gpr q) = m.data (.gpr q)
  memory : m'.memory = m.memory
  userFlags : m'.userFlags = m.userFlags

theorem x86Merge_eq_self (size : Size) (old : W64) :
    x86Merge size old ((old.setWidth size.bits).setWidth 64) = old ↔
      (size = .w32 → old.extractLsb' 32 32 = 0) := by
  rw [x86Merge_self]
  cases size with
  | w8 =>
      let x : BitVec (56 + 8) := old
      have hparts : x.extractLsb' 8 56 ++ x.extractLsb' 0 8 = x :=
        BitVec.extractLsb'_append_extractLsb'
      refine iff_of_true ?_ fun h => absurd h (by decide)
      rw [x86Merge, BitVec.setWidth_eq_extractLsb' (by decide)]
      exact hparts
  | w16 =>
      let x : BitVec (48 + 16) := old
      have hparts : x.extractLsb' 16 48 ++ x.extractLsb' 0 16 = x :=
        BitVec.extractLsb'_append_extractLsb'
      refine iff_of_true ?_ fun h => absurd h (by decide)
      rw [x86Merge, BitVec.setWidth_eq_extractLsb' (by decide)]
      exact hparts
  | w32 =>
      have hlt := old.isLt
      rw [x86Merge, ← BitVec.toNat_inj, ← BitVec.toNat_inj, BitVec.toNat_setWidth,
        BitVec.toNat_setWidth, BitVec.extractLsb'_toNat, Nat.shiftRight_eq_div_pow]
      constructor
      · intro hsame _
        change old.toNat / 2 ^ 32 % 2 ^ 32 = 0
        omega
      · intro hclear
        have hzero : old.toNat / 2 ^ 32 % 2 ^ 32 = 0 := hclear rfl
        omega
  | w64 => exact iff_of_true rfl fun h => absurd h (by decide)

/-- What an op has loaded may be stored again. -/
theorem Machine.store_loaded (m : Machine) (addr : W64) (size : Size) :
    m.store addr size (((m.load addr size).setWidth size.bits).setWidth 64) = m.memory := by
  refine (m.store_congr addr ?_).trans (m.store_load addr size)
  rw [BitVec.setWidth_setWidth_of_le _ size.bits_le, BitVec.setWidth_eq]

namespace DoubleShift
variable (c : DecodeContext) (left : Nat → Leftover) (i : DoubleShift) (m : Machine)

/-! The operand -/

/-- What the operand holds, at the size of the op. -/
def found : BitVec i.size.bits :=
  match i.rd with
  | .reg r => (m.data (.gpr r)).setWidth _
  | .mem a => (m.load (a.place c left (i.loadUops c) i.size m) i.size).setWidth _

def given : BitVec i.size.bits := (m.data (.gpr i.ra)).setWidth _

/-- The destination holds the result, and nothing else changes. -/
def Kept (m' : Machine) (r : BitVec i.size.bits) : Prop :=
  match i.rd with
  | .reg g => (RegMem.reg (.low g i.size)).Holds c left (i.storeUops c) m m' r
  | .mem a => (RegMem.mem a i.size).Holds c left (i.storeUops c) m m' r

theorem right_iff_kept : i.Right c left m ↔
    ∃ m' undefined, runUops left c.rip (i.uops c) m = some (m', c.rip) ∧
      i.Kept c left m m' (x86 i.isLeft undefined m.userFlags (i.found c left m) (i.given m)
        (i.countOf m)).1 ∧
      m'.userFlags.SameButOf (x86 i.isLeft undefined m.userFlags (i.found c left m) (i.given m)
        (i.countOf m)).2 := by
  obtain ⟨isLeft, rd, ra, size, word, count⟩ := i
  cases rd with
  | reg r => exact Iff.rfl
  | mem a => exact Iff.rfl

theorem Kept.unique {i : DoubleShift} {m' : Machine} {r s : BitVec i.size.bits}
    (hr : i.Kept c left m m' r) (hs : i.Kept c left m m' s) : r = s := by
  have hwide : ∀ z : BitVec i.size.bits, (z.setWidth 64).setWidth i.size.bits = z := by
    intro z
    rw [BitVec.setWidth_setWidth_of_le _ i.size.bits_le, BitVec.setWidth_eq]
  obtain ⟨isLeft, rd, ra, size, word, count⟩ := i
  cases rd with
  | reg g =>
      have hput : x86Merge size (m.data (.gpr g)) (r.setWidth 64) =
          x86Merge size (m.data (.gpr g)) (s.setWidth 64) := hr.1.symm.trans hs.1
      have hlow := congrArg (BitVec.setWidth size.bits) hput
      rw [x86Merge_setWidth, x86Merge_setWidth] at hlow
      exact (hwide r).symm.trans (hlow.trans (hwide s))
  | mem a =>
      have hlow := m.store_inj _ (hr.1.symm.trans hs.1)
      exact (hwide r).symm.trans (hlow.trans (hwide s))

/-! What the uops leave -/

/-- The uops behind the mask. -/
def behind : List TransOp := i.store c ++ i.afterStore

theorem uops_eq : i.uops c = i.load c ++ i.afterLoad c := by
  cases hcount : i.count with
  | imm b =>
      rw [uops, afterLoad, hcount]
      dsimp only
      by_cases hb : i.imm b = 0
      · rw [if_pos hb, if_pos hb]
      · rw [if_neg hb, if_neg hb]
  | cl => rw [uops, afterLoad, hcount]

theorem afterLoad_acts (hact : i.acts = true) :
    i.afterLoad c = (i.prepare ++ [i.shift, i.mask]) ++ i.behind c := by
  unfold behind
  cases hcount : i.count with
  | imm b =>
      have hb : i.imm b ≠ 0 := by
        rw [acts, hcount] at hact
        exact of_decide_eq_true hact
      have hload : i.afterLoad c = i.shift :: i.mask :: i.store c := by
        rw [afterLoad, hcount]
        exact if_neg hb
      have hprepare : i.prepare = [] := by rw [prepare, hcount]
      have hafter : i.afterStore = [] := by rw [afterStore, hcount]
      rw [hload, hprepare, hafter, List.append_nil]
      rfl
  | cl =>
      have hload : i.afterLoad c = i.buildControl ++ collectFlags :: i.shift :: i.mask ::
          (i.store c ++ i.selectFlags) := by rw [afterLoad, hcount]
      have hprepare : i.prepare = i.buildControl ++ [collectFlags] := by rw [prepare, hcount]
      have hafter : i.afterStore = i.selectFlags := by rw [afterStore, hcount]
      rw [hload, hprepare, hafter]
      simp only [List.append_assoc, List.cons_append, List.nil_append]

theorem taken_congr {m1 : Machine} (h : ∀ q, m1.data (.gpr q) = m.data (.gpr q)) :
    i.taken m1 = i.taken m := by
  unfold taken clCount
  rw [h]

theorem placed_congr {m1 : Machine} (h : ∀ q, m1.data (.gpr q) = m.data (.gpr q))
    (us : List TransOp) (x a : BitVec i.size.bits) :
    i.placed left us m1 x a = i.placed left us m x a := by
  unfold placed turn
  rw [i.taken_congr m h]

/-- The result that the uops compute. -/
def result : BitVec i.size.bits :=
  i.placed left (i.behind c) m (i.found c left m) (i.given m)

/-- The flags that the mask leaves. -/
structure Own (own : Flags) : Prop where
  same : own.SameButOf { x86Genflags (i.result c left m) with cf := own.cf }
  moved : i.taken m ≠ 0 → own.cf = movedOut i.isLeft (i.found c left m) (i.taken m)

def Leaves (m' : Machine) : Prop :=
  ∃ own, i.Own c left m own ∧ i.Kept c left m m' (i.result c left m) ∧
    m'.userFlags = i.setflags.merge
      (if i.count = .cl ∧ i.taken m = 0 then m.userFlags else own) m.userFlags

theorem reaches_reg {i : DoubleShift} {g : Gpr} (hrd : i.rd = .reg g) (hact : i.acts = true) :
    ∃ m', i.Leaves c left m m' ∧ Reaches left [] (i.uops c) m m' := by
  have hload : i.load c = [] := by rw [load, hrd]
  have hstore : i.store c = [] := by rw [store, hrd]
  have hrdreg : i.rdreg = .gpr g := by rw [rdreg, hrd]
  have hbehind : i.behind c = i.afterStore := by rw [behind, hstore, List.nil_append]
  have hfound : i.found c left m = (m.data i.rdreg).setWidth _ := by rw [found, hrdreg, hrd]
  obtain ⟨m1, hshifted, hreach1⟩ := i.reaches_shifted left (i.behind c) m hact
  obtain ⟨m2, hgpr2, hmem2, huser2, hreach2⟩ := i.reaches_afterStore left [] m1 (i.taken_lt m) rfl
    hshifted.userFlags hshifted.collected
  have hresult : i.result c left m =
      i.placed left (i.behind c) m ((m.data i.rdreg).setWidth _) (i.given m) := by
    rw [result, hfound]
  have hlow : (m1.data i.rdreg).setWidth i.size.bits = i.result c left m := by
    rw [hshifted.data, x86Merge_setWidth, BitVec.setWidth_setWidth_of_le _ i.size.bits_le,
      BitVec.setWidth_eq, hresult]
    rfl
  refine ⟨m2, ⟨m1.flagsOf i.rdreg, ⟨?_, fun hne => ?_⟩, ?_, huser2⟩, ?_⟩
  · rw [← hlow]
    exact hshifted.own
  · rw [hshifted.moved hne, hfound]
  · have hdata : m2.data (.gpr g) =
        x86Merge i.size (m.data (.gpr g)) ((i.result c left m).setWidth 64) := by
      rw [hgpr2, ← hrdreg, hshifted.data, hresult]
      rfl
    unfold Kept
    rw [hrd]
    refine ⟨hdata, hmem2.trans hshifted.memory, fun q hq => (hgpr2 q).trans (hshifted.gpr q ?_)⟩
    rw [hrdreg]
    rintro ⟨⟩
    exact hq rfl
  · have hfirst : Reaches left (i.behind c ++ []) (i.prepare ++ [i.shift, i.mask]) m m1 := by
      rw [List.append_nil]
      exact hreach1
    rw [← hbehind] at hreach2
    rw [i.uops_eq, i.afterLoad_acts c hact, hload, List.nil_append]
    exact hfirst.append hreach2

theorem reaches_mem {i : DoubleShift} {a : MemOperand} (hrd : i.rd = .mem a)
    (hwell : a.WellFormed) (hact : i.acts = true) :
    ∃ m', i.Leaves c left m m' ∧ Reaches left [] (i.uops c) m m' := by
  have hload : i.load c = a.operandLoad c i.size .ld .temp4 := by rw [load, hrd]
  have hstore : i.store c = a.resultStore c i.size .temp4 := by rw [store, hrd]
  have hrdreg : i.rdreg = .temp4 := by rw [rdreg, hrd]
  obtain ⟨m1, hdata1, htouch1, hmem1, hreach1⟩ :=
    a.reaches_load c left (i.afterLoad c ++ []) i.size m hwell .temp4 (by rintro ⟨⟩) rfl
  have hgpr1 : ∀ q, m1.data (.gpr q) = m.data (.gpr q) :=
    fun q => htouch1.gpr (by simp [MemOperand.addressTemps])
  have huser1 : m1.userFlags = m.userFlags :=
    htouch1.userFlags (by simp [MemOperand.addressTemps, Reg.isFlag])
  obtain ⟨m2, hshifted, hreach2⟩ := i.reaches_shifted left (i.behind c) m1 hact
  obtain ⟨m3, hmem3, htouch3, hreach3⟩ := a.reaches_store c left (i.afterStore ++ []) i.size m2
    hwell .temp4 (by rintro ⟨⟩) rfl (by simp [MemOperand.addressTemps])
  have hgpr2 : ∀ q, m2.data (.gpr q) = m.data (.gpr q) := by
    intro q
    refine (hshifted.gpr q ?_).trans (hgpr1 q)
    rw [hrdreg]
    rintro ⟨⟩
  have hctx2 : m2.data .ctx = m.data .ctx :=
    hshifted.ctx.trans (htouch1.data .ctx rfl (by simp [MemOperand.addressTemps]))
  have hown3 : m3.flagsOf i.rdreg = m2.flagsOf i.rdreg := by
    rw [hrdreg]
    exact htouch3.flags .temp4 (by simp [MemOperand.addressTemps])
  have huser3 : m3.userFlags = i.coreGroups.merge (m2.flagsOf i.rdreg) m.userFlags := by
    rw [htouch3.userFlags (by simp [MemOperand.addressTemps, Reg.isFlag]), hshifted.userFlags,
      huser1]
  have htaken : i.taken m1 = i.taken m := i.taken_congr m hgpr1
  have hcollected3 : i.count = .cl →
      m3.flagsOf .temp2 = m.userFlags ∧ (m3.data .temp0).toNat = i.taken m := by
    intro hcl
    obtain ⟨hflags, hcount⟩ := hshifted.collected hcl
    rw [htouch3.flags .temp2 (by simp [MemOperand.addressTemps]),
      htouch3.data .temp0 rfl (by simp [MemOperand.addressTemps]), hflags, hcount, huser1, htaken]
    exact ⟨rfl, rfl⟩
  obtain ⟨m4, hgpr4, hmem4, huser4, hreach4⟩ :=
    i.reaches_afterStore left [] m3 (i.taken_lt m) hown3 huser3 hcollected3
  have hfound : i.found c left m = (m1.data i.rdreg).setWidth _ := by
    rw [found, hrdreg, hdata1, loadUops, hrd, List.append_nil]
  have hgiven : i.given m = (m1.data (.gpr i.ra)).setWidth _ := by rw [given, hgpr1]
  have hresult : i.result c left m =
      i.placed left (i.behind c) m1 ((m1.data i.rdreg).setWidth _)
        ((m1.data (.gpr i.ra)).setWidth _) := by
    rw [result, hfound, hgiven, i.placed_congr left m hgpr1]
  have hdata2 := hshifted.data
  rw [← hresult] at hdata2
  have hlow : (m2.data i.rdreg).setWidth i.size.bits = i.result c left m := by
    rw [hdata2, x86Merge_setWidth, BitVec.setWidth_setWidth_of_le _ i.size.bits_le,
      BitVec.setWidth_eq]
  refine ⟨m4, ⟨m2.flagsOf i.rdreg, ⟨?_, fun hne => ?_⟩, ?_, huser4⟩, ?_⟩
  · rw [← hlow]
    exact hshifted.own
  · rw [← htaken] at hne ⊢
    rw [hshifted.moved hne, hfound]
  · unfold Kept
    rw [hrd]
    refine ⟨?_, fun q => ?_⟩
    · have hbytes : ((m2.data .temp4).setWidth i.size.bits : BitVec i.size.bits) =
          ((i.result c left m).setWidth 64).setWidth i.size.bits := by
        rw [← hrdreg, hlow, BitVec.setWidth_setWidth_of_le _ i.size.bits_le, BitVec.setWidth_eq]
      have hacts : i.storeUops c = a.storeOp c i.size .temp4 :: i.afterStore := by
        rw [storeUops, hrd]
        exact if_pos hact
      rw [hmem4, hmem3, a.place_congr c left _ i.size hgpr2 hctx2
        (hshifted.context.trans htouch1.context), m2.store_congr _ hbytes, List.append_nil, hacts]
      unfold Machine.store
      rw [hshifted.memory, hmem1]
      rfl
    · rw [hgpr4, htouch3.gpr (by simp [MemOperand.addressTemps]), hgpr2]
  · have hlast := hreach3.append hreach4
    rw [← hstore] at hlast
    have hcore : Reaches left (i.behind c ++ []) (i.prepare ++ [i.shift, i.mask]) m1 m2 := by
      rw [List.append_nil]
      exact hreach2
    have hrest := hcore.append hlast
    rw [← i.afterLoad_acts c hact] at hrest
    rw [i.uops_eq, hload]
    exact hreach1.append hrest

/-- A uop with no action. -/
theorem reaches_noAction (us : List TransOp) :
    ∃ m', m.Touches [.temp0] m' ∧ m'.memory = m.memory ∧ Reaches left us [noAction] m m' := by
  have hexec : noAction.exec (left us.length) m = some (.result 0 .clear) := rfl
  obtain ⟨m', _, htouch, hmem, hreach⟩ := reaches_temp (by rintro ⟨⟩) ⟨rfl, rfl⟩ hexec
  exact ⟨m', htouch, hmem, hreach⟩

theorem afterLoad_rests (hact : i.acts = false) : i.afterLoad c = [noAction] := by
  unfold acts at hact
  unfold afterLoad
  cases hcount : i.count with
  | imm b =>
      rw [hcount] at hact
      have hb : i.imm b = 0 := by simpa using hact
      exact if_pos hb
  | cl =>
      rw [hcount] at hact
      cases hact

theorem reaches_rests (hwell : i.destination.WellFormed) (hact : i.acts = false) :
    ∃ m', m.Rests m' ∧ Reaches left [] (i.uops c) m m' := by
  have huops : i.uops c = i.load c ++ [noAction] := by
    rw [uops_eq, i.afterLoad_rests c hact]
  obtain ⟨m1, htouch1, hmem1, hreach1⟩ : ∃ m1, m.Touches (MemOperand.addressTemps ++ [.temp4]) m1 ∧
      m1.memory = m.memory ∧ Reaches left ([noAction] ++ []) (i.load c) m m1 := by
    cases hrd : i.rd with
    | reg g =>
        have hload : i.load c = [] := by rw [load, hrd]
        rw [hload]
        exact ⟨m, (Machine.Touches.refl m).mono nofun, rfl, .nil left _ m⟩
    | mem a =>
        have hload : i.load c = a.operandLoad c i.size .ld .temp4 := by rw [load, hrd]
        rw [destination, hrd] at hwell
        obtain ⟨m1, _, htouch, hmem, hreach⟩ :=
          a.reaches_load c left ([noAction] ++ []) i.size m hwell .temp4 (by rintro ⟨⟩) rfl
        rw [hload]
        exact ⟨m1, htouch, hmem, hreach⟩
  obtain ⟨m2, htouch2, hmem2, hreach2⟩ := reaches_noAction left m1 []
  refine ⟨m2, ⟨fun q => ?_, hmem2.trans hmem1, ?_⟩, ?_⟩
  · rw [htouch2.gpr (by simp), htouch1.gpr (by simp [MemOperand.addressTemps])]
  · rw [htouch2.userFlags (by decide), htouch1.userFlags (by decide)]
  · rw [huops]
    exact hreach1.append hreach2

/-! Against x86 -/

/-- A register of four bytes is cleared above them. -/
def HighClear : Prop :=
  match i.rd with
  | .reg g => i.size = .w32 → (m.data (.gpr g)).extractLsb' 32 32 = 0
  | .mem _ => True

theorem kept_rests {i : DoubleShift} {m' : Machine} (h : m.Rests m') (hact : i.acts = false) :
    i.Kept c left m m' (i.found c left m) ↔ i.HighClear m := by
  have hstore : i.storeUops c = i.loadUops c := by
    unfold storeUops loadUops
    cases i.rd with
    | reg g => rfl
    | mem a => exact if_neg (by rw [hact]; decide)
  obtain ⟨isLeft, rd, ra, size, word, count⟩ := i
  cases rd with
  | reg g =>
      refine Iff.trans ?_ (x86Merge_eq_self size (m.data (.gpr g)))
      constructor
      · intro hkept
        exact hkept.1.symm.trans (h.gpr g)
      · intro hself
        exact ⟨(h.gpr g).trans hself.symm, h.memory, fun q _ => h.gpr q⟩
  | mem a =>
      refine iff_of_true ⟨?_, h.gpr⟩ trivial
      rw [h.memory, hstore]
      exact (m.store_loaded _ size).symm

/-! Counts -/

theorem taken_eq : i.taken m = x86Count i.size.bits (i.countOf m) % i.size.bits := by
  have hdvd : ∀ limit : Nat, i.size.bits ∣ limit → ∀ k, k % limit % i.size.bits = k % i.size.bits :=
    fun limit h k => Nat.mod_mod_of_dvd k h
  have hcut : ∀ k, x86Count i.size.bits k % i.size.bits = k % i.size.bits := by
    intro k
    unfold x86Count
    apply hdvd
    cases i.size <;> decide
  have hbyte : i.size.bits ∣ 256 := by cases i.size <;> decide
  rw [hcut]
  unfold taken countOf clCount
  cases i.count with
  | imm b => rfl
  | cl => exact (hdvd 256 hbyte _).symm

/-- A count that is cut to zero is zero, or the sixteen bits of the operand. -/
theorem taken_zero (h : i.taken m = 0) : x86Count i.size.bits (i.countOf m) = 0 ∨
    x86Count i.size.bits (i.countOf m) = i.size.bits := by
  rw [taken_eq] at h
  unfold x86Count at h ⊢
  have hword := i.word
  cases hsize : i.size with
  | w8 => exact absurd hsize hword
  | w16 =>
      rw [hsize] at h
      change _ % 32 % 16 = 0 at h
      change _ % 32 = 0 ∨ _ % 32 = 16
      omega
  | w32 =>
      rw [hsize] at h
      change _ % 32 % 32 = 0 at h
      change _ % 32 = 0 ∨ _
      omega
  | w64 =>
      rw [hsize] at h
      change _ % 64 % 64 = 0 at h
      change _ % 64 = 0 ∨ _
      omega

theorem taken_of_lt (h : x86Count i.size.bits (i.countOf m) < i.size.bits) :
    i.taken m = x86Count i.size.bits (i.countOf m) := by
  rw [taken_eq, Nat.mod_eq_of_lt h]

theorem acts_iff : i.acts = false ↔ i.count ≠ .cl ∧ i.taken m = 0 := by
  unfold acts taken
  cases i.count with
  | imm b => simp
  | cl => simp

/-! Bits -/

/-- Where the mask takes bit `j` of those that it puts into the operand. -/
def turned (j : Nat) : Nat :=
  if i.isLeft then
    (j + i.turn left (collectFlags :: i.shift :: i.mask :: i.behind c) m) % i.size.bits
  else j

/-- The bits that are put into the operand are those of the source. -/
def Turned (k : Nat) : Prop :=
  ∀ j < k, (if i.rdreg = .gpr i.ra then shifted i.isLeft (i.found c left m) k
      else i.given m).getLsbD (i.turned c left m j) =
    (i.given m).getLsbD (if i.isLeft then j + (i.size.bits - k) else j)

end DoubleShift

theorem joined_left_iff {n : Nat} (hn : n ≤ 64) {k : Nat} (hk : k < n) (turn : Nat)
    (x s a : BitVec n) : joined 0 k turn (x <<< k) s = (x <<< k) ||| (a >>> (n - k)) ↔
      ∀ j < k, s.getLsbD ((j + turn) % n) = a.getLsbD (j + (n - k)) := by
  have hbit : ∀ i < n, (joined 0 k turn (x <<< k) s).getLsbD i =
      if i < k then s.getLsbD ((i + turn) % n) else (x <<< k).getLsbD i := by
    intro i hi
    rw [getLsbD_joined hn (by omega) _ _ hi, Nat.add_zero, Nat.mod_eq_of_lt hi]
  have hwant : ∀ i < n, ((x <<< k) ||| (a >>> (n - k))).getLsbD i =
      if i < k then a.getLsbD (i + (n - k)) else (x <<< k).getLsbD i := by
    intro i hi
    rw [BitVec.getLsbD_or, BitVec.getLsbD_ushiftRight, BitVec.getLsbD_shiftLeft,
      Nat.add_comm (n - k) i]
    by_cases hik : i < k
    · simp [hik]
    · rw [if_neg hik, BitVec.getLsbD_of_ge a _ (by omega), Bool.or_false]
  constructor
  · intro heq j hj
    have hboth := (hbit j (by omega)).symm.trans ((congrArg (·.getLsbD j) heq).trans
      (hwant j (by omega)))
    rwa [if_pos hj, if_pos hj] at hboth
  · intro hall
    apply BitVec.eq_of_getLsbD_eq
    intro i hi
    rw [hbit i hi, hwant i hi]
    split
    · next hik => exact hall i hik
    · rfl

theorem joined_right_iff {n : Nat} (hn : n ≤ 64) {k : Nat} (hk : k < n) (x s a : BitVec n) :
    joined k k k (x >>> k) s = (x >>> k) ||| (a <<< (n - k)) ↔
      ∀ j < k, s.getLsbD j = a.getLsbD j := by
  have hbit : ∀ i < n, (joined k k k (x >>> k) s).getLsbD i =
      if n - k ≤ i then s.getLsbD (i - (n - k)) else (x >>> k).getLsbD i := by
    intro i hi
    rw [getLsbD_joined hn (by omega) _ _ hi]
    by_cases hik : n - k ≤ i
    · have hwrap : (i + k) % n = i - (n - k) := by
        rw [Nat.mod_eq_sub_mod (by omega), Nat.mod_eq_of_lt (by omega)]
        omega
      rw [hwrap, if_pos (by omega), if_pos hik]
    · rw [Nat.mod_eq_of_lt (by omega), if_neg (by omega), if_neg hik]
  have hwant : ∀ i < n, ((x >>> k) ||| (a <<< (n - k))).getLsbD i =
      if n - k ≤ i then a.getLsbD (i - (n - k)) else (x >>> k).getLsbD i := by
    intro i hi
    rw [BitVec.getLsbD_or, BitVec.getLsbD_ushiftRight, BitVec.getLsbD_shiftLeft,
      decide_eq_true hi, Bool.true_and]
    by_cases hik : n - k ≤ i
    · rw [if_pos hik, BitVec.getLsbD_of_ge x _ (by omega), Bool.false_or,
        decide_eq_false (by omega)]
      rfl
    · rw [if_neg hik, decide_eq_true (by omega)]
      simp
  constructor
  · intro heq j hj
    have hboth := (hbit (n - k + j) (by omega)).symm.trans
      ((congrArg (·.getLsbD (n - k + j)) heq).trans (hwant (n - k + j) (by omega)))
    rwa [if_pos (by omega), if_pos (by omega), Nat.add_sub_cancel_left] at hboth
  · intro hall
    apply BitVec.eq_of_getLsbD_eq
    intro i hi
    rw [hbit i hi, hwant i hi]
    split
    · exact hall _ (by omega)
    · rfl

namespace DoubleShift
variable (c : DecodeContext) (left : Nat → Leftover) (i : DoubleShift) (m : Machine)

theorem result_zero (h : i.taken m = 0) : i.result c left m = i.found c left m := by
  have hshift : shifted i.isLeft (i.found c left m) 0 = i.found c left m := by
    unfold shifted
    cases i.isLeft with
    | true => exact BitVec.shiftLeft_zero _
    | false => exact BitVec.ushiftRight_zero _
  unfold result placed
  rw [h]
  apply BitVec.eq_of_getLsbD_eq
  intro j hj
  rw [getLsbD_joined i.size.bits_le (by decide) _ _ hj, if_neg (Nat.not_lt_zero _), hshift]

theorem result_iff (hk : i.taken m < i.size.bits) :
    i.result c left m = shiftedIn i.isLeft (i.found c left m) (i.given m) (i.taken m) ↔
      i.Turned c left m (i.taken m) := by
  unfold result placed shiftedIn Turned turned
  cases hleft : i.isLeft with
  | true => exact joined_left_iff i.size.bits_le hk _ _ _ _
  | false =>
      have hturn : i.turn left (collectFlags :: i.shift :: i.mask :: i.behind c) m = i.taken m := by
        rw [turn, hleft]
        rfl
      rw [hturn]
      exact joined_right_iff i.size.bits_le hk _ _ _

/-! What x86 leaves -/

theorem x86_zero {n : Nat} (isLeft : Bool) (u : BitVec n × Flags) (before : Flags) (x a : BitVec n)
    {count : Nat} (h : x86Count n count = 0) : x86 isLeft u before x a count = (x, before) :=
  if_pos h

theorem x86_above {n : Nat} (isLeft : Bool) (u : BitVec n × Flags) (before : Flags) (x a : BitVec n)
    {count : Nat} (h : n < x86Count n count) : x86 isLeft u before x a count = u := by
  unfold x86
  exact (if_neg (by omega)).trans (if_pos h)

theorem x86_within {n : Nat} (isLeft : Bool) (u : BitVec n × Flags) (before : Flags)
    (x a : BitVec n) {count : Nat} (h : x86Count n count ≠ 0) (hle : x86Count n count ≤ n) :
    x86 isLeft u before x a count = (shiftedIn isLeft x a (x86Count n count),
      { x86Genflags (shiftedIn isLeft x a (x86Count n count)) with
        cf := movedOut isLeft x (x86Count n count) }) := by
  unfold x86
  exact (if_neg h).trans (if_neg (by omega))

/-- An immediate count of zero finds a register of four bytes clear above them; a count of the width
finds the result and its flags in place; a smaller one is of a source whose bits the mask takes,
and an immediate one other than one finds the flags of the result. Above the width nothing is
asked. -/
def Keeps : Prop :=
  let n := i.size.bits
  let k := x86Count n (i.countOf m)
  let x := i.found c left m
  let r := shiftedIn i.isLeft x (i.given m) k
  (k = 0 → i.count ≠ .cl → i.HighClear m) ∧
    (k = n → r = x ∧ m.userFlags.SameButOf { x86Genflags r with cf := movedOut i.isLeft x k }) ∧
    (0 < k → k < n → i.Turned c left m k ∧
      (i.count ≠ .cl → k ≠ 1 → m.userFlags.SameResult (x86Genflags r)))

/-- The op is right where its result and the flags are those of x86. -/
theorem right_iff_result {i : DoubleShift} {m' : Machine} {r : BitVec i.size.bits}
    (hrun : runUops left c.rip (i.uops c) m = some (m', c.rip)) (hkept : i.Kept c left m m' r) :
    i.Right c left m ↔ ∃ u, (x86 i.isLeft u m.userFlags (i.found c left m) (i.given m)
        (i.countOf m)).1 = r ∧
      m'.userFlags.SameButOf
        (x86 i.isLeft u m.userFlags (i.found c left m) (i.given m) (i.countOf m)).2 := by
  rw [right_iff_kept]
  constructor
  · rintro ⟨m'', u, hrun', hkept', hflags⟩
    cases hrun.symm.trans hrun'
    exact ⟨u, hkept'.unique c left m hkept, hflags⟩
  · rintro ⟨u, hr, hflags⟩
    refine ⟨m', u, hrun, ?_, hflags⟩
    rw [hr]
    exact hkept

/-- Where nothing is moved into the operand the op leaves it and the flags. -/
theorem right_still {i : DoubleShift} {m' : Machine}
    (hrun : runUops left c.rip (i.uops c) m = some (m', c.rip))
    (hkept : i.Kept c left m m' (i.found c left m)) (hflags : m'.userFlags = m.userFlags)
    (htaken : i.taken m = 0) (hhigh : i.count ≠ .cl → i.HighClear m) :
    i.Right c left m ↔ i.Keeps c left m := by
  have hpos := i.size.bits_pos
  rw [right_iff_result c left m hrun hkept, hflags]
  unfold Keeps
  cases i.taken_zero m htaken with
  | inl hzero =>
      refine iff_of_true ⟨(i.found c left m, m.userFlags), ?_⟩
        ⟨fun _ => hhigh, fun hwidth => ?_, fun hlt => ?_⟩
      · rw [x86_zero _ _ _ _ _ hzero]
        exact ⟨rfl, .refl _⟩
      · rw [hzero] at hwidth
        omega
      · rw [hzero] at hlt
        omega
  | inr hwidth =>
      have hne : x86Count i.size.bits (i.countOf m) ≠ 0 := by omega
      simp only [x86_within _ _ _ _ _ hne (Nat.le_of_eq hwidth)]
      constructor
      · rintro ⟨_, hr, hsame⟩
        exact ⟨fun _ => hhigh, fun _ => ⟨hr, hsame⟩, fun _ hlt => absurd hwidth (Nat.ne_of_lt hlt)⟩
      · rintro ⟨_, hall, _⟩
        exact ⟨(i.found c left m, m.userFlags), hall hwidth⟩

theorem setflags_of : i.setflags.cf = true ∧
    (i.setflags.zf = true ↔ i.count = .cl ∨ i.taken m = 1) := by
  unfold setflags taken
  cases i.count with
  | imm b => simp
  | cl => simp

/-- The flags that the op sets where it takes a count. -/
theorem flags_iff {own : Flags} {r : BitVec i.size.bits} {cf : Bool}
    (hown : own.SameButOf { x86Genflags r with cf := cf }) :
    (i.setflags.merge own m.userFlags).SameButOf { x86Genflags r with cf := cf } ↔
      (i.count ≠ .cl → i.taken m ≠ 1 → m.userFlags.SameResult (x86Genflags r)) := by
  obtain ⟨hcf, hzf⟩ := i.setflags_of m
  by_cases hset : i.setflags.zf = true
  · refine iff_of_true ⟨?_, ?_, ?_, ?_⟩ fun hcl hone => ?_
    · rw [SetFlags.merge, hcf]
      exact hown.cf
    · rw [SetFlags.merge, hset]
      exact hown.pf
    · rw [SetFlags.merge, hset]
      exact hown.zf
    · rw [SetFlags.merge, hset]
      exact hown.sf
    · cases hzf.mp hset with
      | inl h => exact absurd h hcl
      | inr h => exact absurd h hone
  · have hnone : i.count ≠ .cl ∧ i.taken m ≠ 1 := by rwa [hzf, not_or] at hset
    have hmerge : i.setflags.merge own m.userFlags = { m.userFlags with
        cf := own.cf, of := (i.setflags.merge own m.userFlags).of } := by
      unfold SetFlags.merge
      rw [hcf, Bool.eq_false_of_not_eq_true hset]
      rfl
    rw [hmerge]
    constructor
    · intro hsame _ _
      exact ⟨hsame.pf, hsame.zf, hsame.sf⟩
    · intro hkeeps
      have hresult := hkeeps hnone.1 hnone.2
      exact ⟨hown.cf, hresult.pf, hresult.zf, hresult.sf⟩

theorem right_acts {i : DoubleShift} {m' : Machine}
    (hrun : runUops left c.rip (i.uops c) m = some (m', c.rip)) (hleaves : i.Leaves c left m m')
    (hact : i.acts = true) : i.Right c left m ↔ i.Keeps c left m := by
  obtain ⟨own, hown, hkept, huser⟩ := hleaves
  by_cases hzero : i.taken m = 0
  · have hcl : i.count = .cl := by
      by_contra hne
      have hrests := (i.acts_iff m).mpr ⟨hne, hzero⟩
      rw [hact] at hrests
      cases hrests
    rw [i.result_zero c left m hzero] at hkept
    rw [if_pos ⟨hcl, hzero⟩, SetFlags.merge_self] at huser
    exact right_still c left m hrun hkept huser hzero fun hne => absurd hcl hne
  rw [if_neg fun h => hzero h.2] at huser
  rw [right_iff_result c left m hrun hkept, huser]
  by_cases habove : i.size.bits < x86Count i.size.bits (i.countOf m)
  · refine iff_of_true ⟨(i.result c left m, i.setflags.merge own m.userFlags), ?_⟩
      ⟨fun hz => ?_, fun hwidth => ?_, fun _ hlt => ?_⟩
    · rw [x86_above _ _ _ _ _ habove]
      exact ⟨rfl, .refl _⟩
    · omega
    · omega
    · omega
  have hne : x86Count i.size.bits (i.countOf m) ≠ 0 := by
    intro hnone
    rw [taken_eq, hnone] at hzero
    exact hzero (Nat.zero_mod _)
  have hnotwidth : x86Count i.size.bits (i.countOf m) ≠ i.size.bits := by
    intro hwidth
    rw [taken_eq, hwidth] at hzero
    exact hzero (Nat.mod_self _)
  have hlt : x86Count i.size.bits (i.countOf m) < i.size.bits := by omega
  have htaken := i.taken_of_lt m hlt
  have hturned := i.result_iff c left m (i.taken_lt m)
  rw [htaken] at hturned
  simp only [x86_within _ _ _ _ _ hne (Nat.le_of_lt hlt)]
  have hflags : i.result c left m = shiftedIn i.isLeft (i.found c left m) (i.given m)
      (x86Count i.size.bits (i.countOf m)) →
        own.SameButOf { x86Genflags (shiftedIn i.isLeft (i.found c left m) (i.given m)
          (x86Count i.size.bits (i.countOf m))) with
            cf := movedOut i.isLeft (i.found c left m) (x86Count i.size.bits (i.countOf m)) } := by
    intro hr
    rw [← hr, ← htaken, ← hown.moved hzero]
    exact hown.same
  constructor
  · rintro ⟨_, hr, hsame⟩
    have hresult := (i.flags_iff m (hflags hr.symm)).mp hsame
    rw [htaken] at hresult
    exact ⟨fun hz => absurd hz hne, fun hwidth => absurd hwidth hnotwidth,
      fun _ _ => ⟨hturned.mp hr.symm, hresult⟩⟩
  · rintro ⟨_, _, hkeeps⟩
    obtain ⟨hbits, hresult⟩ := hkeeps (Nat.pos_of_ne_zero hne) hlt
    have hr := hturned.mpr hbits
    refine ⟨(i.result c left m, m.userFlags), hr.symm, (i.flags_iff m (hflags hr)).mpr ?_⟩
    rw [htaken]
    exact hresult

/-- Where `shld` and `shrd` leave what x86 does. -/
theorem right_iff (hwell : i.destination.WellFormed) : i.Right c left m ↔ i.Keeps c left m := by
  cases hact : i.acts with
  | true =>
      obtain ⟨m', hleaves, hreach⟩ : ∃ m', i.Leaves c left m m' ∧
          Reaches left [] (i.uops c) m m' := by
        cases hrd : i.rd with
        | reg g => exact reaches_reg c left m hrd hact
        | mem a =>
            rw [destination, hrd] at hwell
            exact reaches_mem c left m hrd hwell hact
      exact right_acts c left m (hreach c.rip) hleaves hact
  | false =>
      obtain ⟨m', hrests, hreach⟩ := i.reaches_rests c left m hwell hact
      obtain ⟨hcl, hzero⟩ := (i.acts_iff m).mp hact
      by_cases hhigh : i.HighClear m
      · have hkept := (kept_rests c left m hrests hact).mpr hhigh
        exact right_still c left m (hreach c.rip) hkept hrests.userFlags hzero fun _ => hhigh
      · have hsize : i.size = .w32 := by
          by_contra hne
          apply hhigh
          unfold HighClear
          cases i.rd with
          | reg g => exact fun h => absurd h hne
          | mem a => trivial
        have hnone : x86Count i.size.bits (i.countOf m) = 0 := by
          cases i.taken_zero m hzero with
          | inl h => exact h
          | inr h =>
              rw [hsize] at h
              change _ % 32 = 32 at h
              omega
        constructor
        · intro hright
          obtain ⟨m'', u, hrun, hkept, _⟩ := (i.right_iff_kept c left m).mp hright
          cases (hreach c.rip).symm.trans hrun
          rw [x86_zero _ _ _ _ _ hnone] at hkept
          exact absurd ((kept_rests c left m hrests hact).mp hkept) hhigh
        · intro hkeeps
          exact absurd (hkeeps.1 hnone hcl) hhigh

end DoubleShift
/-! All of them -/

inductive ShiftOrRotate
  | single (i : ShiftInsn)
  | double (i : DoubleShift)

namespace ShiftOrRotate
variable (c : DecodeContext) (left : Nat → Leftover) (m : Machine)

def WellFormed : ShiftOrRotate → Prop
  | single i => i.rd.WellFormed
  | double i => i.destination.WellFormed

/-- The op leaves the result and the flags of x86, and nothing else changes. -/
def Right : ShiftOrRotate → Prop
  | single i => i.Right c left m
  | double i => i.Right c left m

def Keeps : ShiftOrRotate → Prop
  | single i => i.Keeps c left m
  | double i => i.Keeps c left m

/-- Where the shifts and rotates leave what x86 does. -/
theorem leaves_x86_iff (i : ShiftOrRotate) (hwell : i.WellFormed) :
    i.Right c left m ↔ i.Keeps c left m := by
  cases i with
  | single i => exact i.right_iff c left m hwell
  | double i => exact i.right_iff c left m hwell

/-- `rol eax, 1`. -/
theorem leaves_x86_rol :
    (single ⟨.rotl, .reg (.low .rax .w32), .imm 1⟩).WellFormed ∧
      (single ⟨.rotl, .reg (.low .rax .w32), .imm 1⟩).Right ⟨0, none⟩
        (fun _ => ⟨false, 0, .clear, .clear⟩)
        ⟨fun _ => 0, fun _ => .clear, fun _ => 0, fun _ => 0⟩ :=
  ⟨trivial, (leaves_x86_iff _ _ _ (single ⟨.rotl, .reg (.low .rax .w32), .imm 1⟩) trivial).mpr
    nofun⟩

/-- `shl eax, cl` takes no count where `cl` is 32, but sets the zero flag from `eax`. -/
theorem shl_cl_sets_flags :
    ¬ ∀ (i : ShiftOrRotate) (c : DecodeContext) (left : Nat → Leftover) (m : Machine),
      i.WellFormed → i.Right c left m := by
  intro hall
  let i : ShiftInsn := ⟨.shl, .reg (.low .rax .w32), .cl⟩
  have hright := hall (single i) ⟨0, none⟩
    (fun _ => ⟨false, 0, .clear, .clear⟩)
    ⟨fun r => if r = .gpr .rcx then 32 else 0, fun _ => .clear, fun _ => 0, fun _ => 0⟩ trivial
  have hkeeps := (i.right_iff _ _ _ trivial).mp hright rfl rfl (by decide) (by decide)
  exact absurd hkeeps.2.1 (by decide)

end ShiftOrRotate
end FeS2.Decoder
