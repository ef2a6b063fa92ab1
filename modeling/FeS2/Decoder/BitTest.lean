import FeS2.Decoder.AddressForms

/-!
`bt`, `bts`, `btr` and `btc`. The uop of a register takes the index modulo 64 whatever the size,
and the byte of an operand in memory is found from the whole index register, or from the immediate
as it is fetched.
-/

namespace FeS2.Decoder

/-! Places of bits -/

inductive BitPlace
  | reg (r : Gpr) (i : Nat)
  | mem (a : W64) (i : Nat)
  deriving DecidableEq

namespace Machine

def bitAt (m : Machine) : BitPlace → Bool
  | .reg r i => (m.data (.gpr r)).getLsbD i
  | .mem a i => (m.memory a).getLsbD i

end Machine

namespace BitOp

/-- What becomes of the bit. -/
def apply : BitOp → Bool → Bool
  | .bt, b => b
  | .bts, _ => true
  | .btr, _ => false
  | .btc, b => !b

/-- The carry flag gets the bit, and no other one changes. -/
structure Changes (op : BitOp) (p : BitPlace) (m m' : Machine) : Prop where
  carry : (m'.flagsOf .cf).cf = m.bitAt p
  bits : ∀ q, m'.bitAt q = if q = p then op.apply (m.bitAt q) else m.bitAt q
  zf : m'.flagsOf .zf = m.flagsOf .zf
  of : m'.flagsOf .of = m.flagsOf .of

/-- An op on one place passes for one on another when both hold the same bit, which stays. -/
theorem Changes.iff {op : BitOp} {p : BitPlace} {m m' : Machine} (h : op.Changes p m m')
    (q : BitPlace) :
    op.Changes q m m' ↔ p = q ∨ m.bitAt p = m.bitAt q ∧ op.apply (m.bitAt q) = m.bitAt q := by
  constructor
  · intro h'
    by_cases heq : p = q
    · exact .inl heq
    · have hsame : m.bitAt p = m.bitAt q := h.carry.symm.trans h'.carry
      have hp := h.bits p
      rw [if_pos rfl, h'.bits p, if_neg heq, hsame] at hp
      exact .inr ⟨hsame, hp.symm⟩
  · rintro (rfl | ⟨hsame, hstays⟩)
    · exact h
    · refine ⟨h.carry.trans hsame, fun r => ?_, h.zf, h.of⟩
      have hr : ∀ s, m.bitAt s = m.bitAt q →
          (if r = s then op.apply (m.bitAt r) else m.bitAt r) = m.bitAt r := by
        intro s hs
        by_cases hrs : r = s
        · rw [if_pos hrs, hrs, hs, hstays]
        · exact if_neg hrs
      rw [h.bits r, hr p hsame, hr q rfl]

theorem getLsbD_eval {n : Nat} {op : BitOp} (hop : op ≠ .bt) (ra rb : BitVec n) {i : Nat}
    (hi : i < n) :
    (op.eval ra rb).1.getLsbD i =
      if i = rb.toNat % n then op.apply (ra.getLsbD i) else ra.getLsbD i := by
  have hpow : (BitVec.twoPow n (rb.toNat % n)).getLsbD i = decide (i = rb.toNat % n) := by
    have hlt : rb.toNat % n < n := Nat.mod_lt _ (by omega)
    rw [BitVec.getLsbD_twoPow, decide_eq_true hlt, Bool.true_and]
    exact decide_eq_decide.mpr eq_comm
  have hbit : (op.eval ra rb).1.getLsbD i =
      if decide (i = rb.toNat % n) then op.apply (ra.getLsbD i) else ra.getLsbD i := by
    cases op with
    | bt => exact absurd rfl hop
    | bts =>
        rw [eval, BitVec.getLsbD_or, hpow]
        cases decide (i = rb.toNat % n) <;> simp [apply]
    | btr =>
        rw [eval, BitVec.getLsbD_and, BitVec.getLsbD_not, hpow, decide_eq_true hi]
        cases decide (i = rb.toNat % n) <;> simp [apply]
    | btc =>
        rw [eval, BitVec.getLsbD_xor, hpow]
        cases decide (i = rb.toNat % n) <;> simp [apply]
  rw [hbit]
  exact if_congr decide_eq_true_iff rfl rfl

end BitOp

/-! The uops -/

namespace BitIndex

def operand : BitIndex → Reg × W64
  | .reg r => (.gpr r, 0)
  | .imm v => (.imm, v)

/-- The word that the uop takes the index from. -/
def word (m : Machine) : BitIndex → W64
  | .reg r => m.data (.gpr r)
  | .imm v => v

end BitIndex

/-- Only the carry flag is set. -/
def bitUop (op : BitOp) (rd ra : Reg) (size : Size) (index : BitIndex) : TransOp :=
  { opcode := .bit op, rd := rd, ra := ra, rb := index.operand.1, rc := .zero, size := size,
    rbimm := index.operand.2, setflags := { SetFlags.none with cf := true } }

/-- On the byte at a base and an offset. -/
def bitOnByte (op : BitOp) (base : Reg) (offset : W64) (index : BitIndex) : List TransOp :=
  [{ opcode := .ld, rd := .temp0, ra := base, rb := .imm, rc := .zero, size := .w8,
     rbimm := offset },
    bitUop op .temp0 .temp0 .w8 index] ++
    if op = .bt then []
    else
      [{ opcode := .st, rd := .mem, ra := base, rb := .imm, rc := .temp0, size := .w8,
         rbimm := offset }]

/-- The byte index is that of the whole register. -/
def addByteIndex (ra : Gpr) : List TransOp :=
  [{ opcode := .shift .sar false, rd := .temp2, ra := .gpr ra, rb := .imm, rc := .zero,
     size := .w64, rbimm := 3 },
    { opcode := .add, rd := .temp2, ra := .temp1, rb := .temp2, rc := .zero, size := .w64,
      rbimm := 3 }]

inductive BitDest
  | reg (rd : Gpr)
  | mem (f : { f : X86Address // f.WellFormed })

structure BitTest where
  op : BitOp
  size : Size
  dest : BitDest
  index : BitIndex

namespace BitTest
variable (d : TraceDecoder) (h : InsnHead) (t : BitTest)

def insn : X86Insn :=
  match t.dest, t.index with
  | .reg rd, ra => .bt t.op t.size rd ra
  | .mem f, .reg ra => .btMem t.op { addr := f.1.operand, size := t.size } ra
  | .mem f, .imm v => .btMemImm t.op { addr := f.1.operand, size := t.size } v

def onMem : List TransOp :=
  match t.index with
  | .reg ra => addByteIndex ra ++ bitOnByte t.op .temp2 0 (.reg ra)
  | .imm v => bitOnByte t.op .temp1 (v.sshiftRight 3) (.imm (v &&& bitmask 3))

/-- The bits of the operand, in a register or in memory; `bt` is not locked. -/
def uops : List TransOp :=
  match t.dest with
  | .reg rd => [bitUop t.op (if t.op = .bt then .temp0 else .gpr rd) (.gpr rd) .w64 t.index]
  | .mem f =>
      let locked := h.lock && t.op != .bt
      memoryFenceIfLocked locked ++
        (f.1.operand.addressOnly (h.context d) true h.addrSize .temp1 ++
          (t.onMem ++ memoryFenceIfLocked locked))

theorem memoryFenceIfLocked_map (locked : Bool) :
    (memoryFenceIfLocked locked).map TransOp.uop = InsnHead.memoryFenceIfLocked locked := by
  cases locked <;> rfl

theorem bitOnByte_map (op : BitOp) {base : Reg} (hbase : base ≠ .ctx) (offset : W64)
    (index : BitIndex) :
    (bitOnByte op base offset index).map TransOp.uop =
      [.ld, .op] ++ if op = .bt then [] else [.st] := by
  have hld : ∀ t : TransOp, t.opcode = .ld → t.ra = base → t.uop = .ld := by
    intro t hop hra
    rw [TransOp.uop, hop, hra]
    exact if_neg hbase
  rw [bitOnByte, List.map_append, List.map_cons, hld _ rfl rfl]
  split <;> rfl

/-- They are the uops that the op is counted with. -/
theorem uops_map : (t.uops d h).map TransOp.uop = h.uops d t.insn := by
  obtain ⟨op, size, dest, index⟩ := t
  cases dest with
  | reg rd => rfl
  | mem f =>
      rw [uops]
      dsimp only
      rw [List.map_append, List.map_append, List.map_append, memoryFenceIfLocked_map]
      cases index with
      | reg ra =>
          rw [onMem]
          dsimp only
          rw [List.map_append, bitOnByte_map op (by rintro ⟨⟩)]
          change _ = InsnHead.memoryFenceIfLocked (h.lock && op != .bt) ++ _ ++ _ ++ _ ++ _
          simp only [List.append_assoc]
          rfl
      | imm v =>
          rw [onMem]
          dsimp only
          rw [bitOnByte_map op (by rintro ⟨⟩)]
          change _ = InsnHead.memoryFenceIfLocked (h.lock && op != .bt) ++ _ ++ _ ++ _ ++ _
          simp only [List.append_assoc]
          rfl

end BitTest

/-! Runs -/

/-- The registers and memory stay. -/
structure Machine.Keeps (m m' : Machine) : Prop where
  data : ∀ r, m'.data (.gpr r) = m.data (.gpr r)
  memory : m'.memory = m.memory

theorem Machine.Keeps.trans {m m1 m' : Machine} (h : m.Keeps m1) (h' : m1.Keeps m') : m.Keeps m' :=
  ⟨fun r => (h'.data r).trans (h.data r), h'.memory.trans h.memory⟩

theorem Machine.Keeps.bitAt {m m' : Machine} (h : m.Keeps m') (p : BitPlace) :
    m'.bitAt p = m.bitAt p := by
  cases p with
  | reg r i => exact congrArg (fun x => x.getLsbD i) (h.data r)
  | mem a i => exact congrArg (fun memory => (memory a).getLsbD i) h.memory

theorem Machine.Sets.keeps {rd : Reg} {x : W64} {m m' : Machine} (h : m.Sets rd x m')
    (hrd : ∀ r, Reg.gpr r ≠ rd) : m.Keeps m' :=
  ⟨fun r => h.other (.gpr r) rfl (hrd r), h.memory⟩

/-- What an address is made of stays. -/
structure Machine.KeepsAddress (m m' : Machine) : Prop extends Machine.Keeps m m' where
  ctx : m'.data .ctx = m.data .ctx
  context : m'.context = m.context

theorem Machine.KeepsAddress.addressOnlyValue {m m' : Machine} (h : m.KeepsAddress m')
    (c : DecodeContext) (left : Nat → Leftover) (us : List TransOp) (a : MemOperand)
    (forceSegBias : Bool) (size : Size) (destreg : Reg) :
    a.addressOnlyValue c left us m' forceSegBias size destreg =
      a.addressOnlyValue c left us m forceSegBias size destreg := by
  have hsegment : c.segment m' = c.segment m := by
    unfold DecodeContext.segment
    rw [h.ctx, h.context]
  have hindex : a.index m' = a.index m := by
    unfold MemOperand.index
    cases a.indexreg with
    | none => rfl
    | some r => exact congrArg (fun x : W64 => x <<< a.scale) (h.data r)
  have hbase : m'.data a.basereg.archReg = m.data a.basereg.archReg := by
    cases a.basereg with
    | zero | rip => rfl
    | gpr r => exact h.data r
  unfold MemOperand.addressOnlyValue MemOperand.sum MemOperand.addedBefore
  rw [hsegment, hindex, hbase]

section
variable (left : Nat → Leftover) (us : List TransOp) (m : Machine)

theorem runs_memoryFenceIfLocked (locked : Bool) :
    ∃ m', m.KeepsAddress m' ∧ m'.flagsOf .cf = m.flagsOf .cf ∧
      Runs left us (memoryFenceIfLocked locked) m m' := by
  cases locked with
  | false => exact ⟨m, ⟨⟨fun _ => rfl, rfl⟩, rfl, rfl⟩, rfl, .nil left us m⟩
  | true =>
      have hsets : m.Sets .temp0 0 (mf.write (left us.length) 0 .clear m) :=
        mf.write_sets (by rintro ⟨⟩) rfl
      have hkeeps : m.KeepsAddress (mf.write (left us.length) 0 .clear m) :=
        ⟨hsets.keeps (by rintro r ⟨⟩), hsets.other .ctx rfl (by rintro ⟨⟩), rfl⟩
      exact ⟨_, hkeeps, mf.write_flagsOf rfl _ _ _ _, runs_result rfl⟩

theorem readRb_bitUop (op : BitOp) (rd ra : Reg) (size : Size) (index : BitIndex) (m : Machine) :
    (bitUop op rd ra size index).readRb m = index.word m := by
  cases index with
  | reg r => exact if_neg (by rintro ⟨⟩)
  | imm v => exact if_pos rfl

/-- The uop on a bit. -/
theorem runs_bitUop (op : BitOp) (rd ra : Reg) (size : Size) (index : BitIndex)
    (hrd : rd ≠ .zero) (hflag : rd.isFlag = false) :
    ∃ m', m.Sets rd (x86Merge size (m.data ra) ((op.eval ((m.data ra).setWidth size.bits)
        ((index.word m).setWidth size.bits)).1.setWidth 64)) m' ∧
      (m'.flagsOf .cf).cf = ((m.data ra).setWidth size.bits).getLsbD
        (((index.word m).setWidth size.bits).toNat % size.bits) ∧
      Runs left us [bitUop op rd ra size index] m m' := by
  let t := bitUop op rd ra size index
  have hexec : t.exec (left us.length) m = some (t.aluop m op.eval) := rfl
  rw [TransOp.aluop, readRb_bitUop] at hexec
  have hwrites : t.writes .cf = true := by simp [t, bitUop, TransOp.writes, SetFlags.none]
  refine ⟨_, t.write_sets hrd hflag, ?_, runs_result hexec⟩
  rw [t.write_flagsOf_self hwrites hrd (by rintro ⟨⟩) (by rintro ⟨⟩)]
  rfl

theorem load_byte (m : Machine) (a : W64) : m.load a .w8 = (m.memory a).setWidth 64 := by
  change 0#64 <<< 8 ||| _ = _
  rw [BitVec.zero_shiftLeft, BitVec.zero_or]

theorem store_byte (m : Machine) (a b value : W64) :
    m.store a .w8 value b = if b = a then value.setWidth 8 else m.memory b := by
  have hlt : (b - a).toNat < Size.w8.bytes ↔ b = a := by
    change (b - a).toNat < 1 ↔ b = a
    bv_omega
  rw [Machine.store]
  by_cases h : b = a
  · rw [if_pos (hlt.mpr h), if_pos h, h, BitVec.sub_self]
    exact (BitVec.setWidth_eq_extractLsb' (by decide)).symm
  · rw [if_neg fun hlt' => h (hlt.mp hlt'), if_neg h]

/-- The operand with the bit changed. -/
theorem getLsbD_eval_at {n : Nat} {op : BitOp} (hop : op ≠ .bt) (hn : 0 < n) (ra rb : BitVec n)
    {at' : Nat → BitPlace} (hinj : ∀ i j, at' i = at' j ↔ i = j) (i : Nat) :
    (op.eval ra rb).1.getLsbD i =
      if at' i = at' (rb.toNat % n) then op.apply (ra.getLsbD i) else ra.getLsbD i := by
  rw [if_congr (hinj i _) rfl rfl]
  by_cases hi : i < n
  · exact BitOp.getLsbD_eval hop ra rb hi
  · have hlt := Nat.mod_lt rb.toNat hn
    have hne : i ≠ rb.toNat % n := by omega
    rw [if_neg hne, BitVec.getLsbD_of_ge _ _ (by omega), BitVec.getLsbD_of_ge _ _ (by omega)]

theorem mem_inj (a : W64) (i j : Nat) : BitPlace.mem a i = .mem a j ↔ i = j :=
  ⟨fun h => by cases h; rfl, congrArg _⟩

theorem reg_inj (r : Gpr) (i j : Nat) : BitPlace.reg r i = .reg r j ↔ i = j :=
  ⟨fun h => by cases h; rfl, congrArg _⟩

theorem toNat_byte_mod (x : W64) : (x.setWidth 8).toNat % 8 = x.toNat % 8 := by
  rw [BitVec.toNat_setWidth]
  omega

theorem toNat_lowbits (v : W64) : (v &&& bitmask 3).toNat % 8 = v.toNat % 8 := by
  rw [BitVec.toNat_and]
  change (v.toNat &&& (2 ^ 3 - 1)) % 8 = _
  rw [Nat.and_two_pow_sub_one_eq_mod]
  exact Nat.mod_mod _ 8

/-- On the byte, the place is at the base and the offset. -/
theorem runs_bitOnByte (op : BitOp) {base : Reg} (hbase : base = .temp1 ∨ base = .temp2)
    (offset : W64) (index : BitIndex) :
    ∃ m', (m'.flagsOf .cf).cf =
        m.bitAt (.mem (m.data base + offset) ((index.word m).toNat % 8)) ∧
      (∀ q, m'.bitAt q = if q = .mem (m.data base + offset) ((index.word m).toNat % 8)
        then op.apply (m.bitAt q) else m.bitAt q) ∧
      Runs left us (bitOnByte op base offset index) m m' := by
  have hbase0 : base ≠ .temp0 ∧ base.isFlag = false := by
    cases hbase with
    | inl h => exact ⟨h ▸ by rintro ⟨⟩, h ▸ rfl⟩
    | inr h => exact ⟨h ▸ by rintro ⟨⟩, h ▸ rfl⟩
  let rest : List TransOp :=
    if op = .bt then []
    else
      [{ opcode := .st, rd := .mem, ra := base, rb := .imm, rc := .temp0, size := .w8,
         rbimm := offset }]
  let ld : TransOp := { opcode := .ld, rd := .temp0, ra := base, rb := .imm, rc := .zero,
                        size := .w8, rbimm := offset }
  let bit := bitUop op .temp0 .temp0 .w8 index
  let a := m.data base + offset
  have hld : ld.exec (left ([bit] ++ (rest ++ us)).length) m =
      some (.result (m.load a .w8) .clear) := rfl
  have hloaded : m.Sets .temp0 (m.load a .w8)
      (ld.write (left ([bit] ++ (rest ++ us)).length) (m.load a .w8) .clear m) :=
    ld.write_sets (by rintro ⟨⟩) rfl
  have hrun1 : Runs left ([bit] ++ (rest ++ us)) [ld] m _ := runs_result hld
  generalize ld.write (left ([bit] ++ (rest ++ us)).length) (m.load a .w8) .clear m = m1
    at hloaded hrun1
  have ⟨m2, hchanged, hcf, hrun2⟩ := runs_bitUop left (rest ++ us) m1 op .temp0 .temp0
    .w8 index (by rintro ⟨⟩) rfl
  have hrun12 : Runs left (rest ++ us) [ld, bit] m m2 := hrun1.append hrun2
  have hkeeps : m.Keeps m2 := (hloaded.keeps (by rintro r ⟨⟩)).trans
    (hchanged.keeps (by rintro r ⟨⟩))
  have hword : index.word m1 = index.word m := by
    cases index with
    | reg r => exact hloaded.other (.gpr r) rfl (by rintro ⟨⟩)
    | imm v => rfl
  have hbyte : (m1.data .temp0).setWidth 8 = m.memory a := by
    rw [hloaded.data, load_byte, BitVec.setWidth_setWidth_of_le _ (by decide), BitVec.setWidth_eq]
  have hcarry : (m2.flagsOf .cf).cf = m.bitAt (.mem a ((index.word m).toNat % 8)) := by
    change _ = ((m1.data .temp0).setWidth 8).getLsbD (((index.word m1).setWidth 8).toNat % 8) at hcf
    rw [hcf, hbyte, hword, toNat_byte_mod]
    rfl
  by_cases hop : op = .bt
  · have hrest : rest = [] := if_pos hop
    rw [hrest] at hrun12
    refine ⟨m2, hcarry, fun q => ?_, ?_⟩
    · rw [hkeeps.bitAt, hop]
      exact (ite_self _).symm
    · rw [bitOnByte, if_pos hop]
      exact hrun12
  · let t : TransOp := { opcode := .st, rd := .mem, ra := base, rb := .imm, rc := .temp0,
                         size := .w8, rbimm := offset }
    have hrest : rest = [t] := if_neg hop
    rw [hrest] at hrun12
    have hstore : t.exec (left us.length) m2 =
        some (.stored (m2.store (m2.data base + offset) .w8 (m2.data .temp0))) := rfl
    have hdata : m2.data base = m.data base := by
      rw [hchanged.other base hbase0.2 hbase0.1, hloaded.other base hbase0.2 hbase0.1]
    rw [hdata] at hstore
    have hvalue : (m2.data .temp0).setWidth 8 =
        (op.eval (m.memory a) ((index.word m).setWidth 8)).1 := by
      have hresult : m2.data .temp0 = x86Merge .w8 _ ((op.eval ((m1.data .temp0).setWidth 8)
          ((index.word m1).setWidth 8)).1.setWidth 64) := hchanged.data
      have hmerged := congrArg (BitVec.setWidth 8) hresult
      rw [hmerged.trans (x86Merge_setWidth .w8 _ _), hbyte, hword]
      exact (BitVec.setWidth_setWidth_of_le _ (by decide)).trans (BitVec.setWidth_eq _)
    refine ⟨{ m2 with memory := m2.store a .w8 (m2.data .temp0) }, hcarry, fun q => ?_, ?_⟩
    · cases q with
      | reg r i =>
          rw [if_neg (by rintro ⟨⟩)]
          exact congrArg (fun x => x.getLsbD i) (hkeeps.data r)
      | mem b i =>
          change (m2.store a .w8 (m2.data .temp0) b).getLsbD i = _
          rw [store_byte, hvalue, hkeeps.memory]
          by_cases hb : b = a
          · rw [if_pos hb, hb, getLsbD_eval_at hop (Nat.succ_pos 7) _ _ (mem_inj a), toNat_byte_mod]
            rfl
          · have hne : BitPlace.mem b i ≠ .mem a ((index.word m).toNat % 8) :=
              fun h => hb (by cases h; rfl)
            rw [if_neg hb, if_neg hne]
            rfl
    · rw [bitOnByte, if_neg hop]
      exact hrun12.append (runs_stored hstore)

/-- The byte index is added to the address in `temp1`. -/
theorem runs_addByteIndex (ra : Gpr) :
    ∃ m', m.Keeps m' ∧
      m'.data .temp2 = m.data .temp1 + (m.data (.gpr ra)).sshiftRight 3 +
        BitVec.ofNat 64 (carries left us (addByteIndex ra)) ∧
      Runs left us (addByteIndex ra) m m' := by
  let sar : TransOp := { opcode := .shift .sar false, rd := .temp2, ra := .gpr ra, rb := .imm,
                         rc := .zero, size := .w64, rbimm := 3 }
  let add : TransOp := { opcode := .add, rd := .temp2, ra := .temp1, rb := .temp2, rc := .zero,
                         size := .w64, rbimm := 3 }
  have hsar : ∃ f, sar.exec (left (add :: us).length) m =
      some (.result ((m.data (.gpr ra)).sshiftRight 3) f) := by
    refine ⟨_, congrArg (fun x => some (Outcome.result x _)) ?_⟩
    change ((m.data (.gpr ra)).setWidth 64 |>.sshiftRight 3).setWidth 64 = _
    rw [BitVec.setWidth_eq, BitVec.setWidth_eq]
  obtain ⟨f, hsar⟩ := hsar
  let m1 := sar.write (left (add :: us).length) ((m.data (.gpr ra)).sshiftRight 3) f m
  have hshifted : m.Sets .temp2 ((m.data (.gpr ra)).sshiftRight 3) m1 :=
    sar.write_sets (by rintro ⟨⟩) rfl
  have ⟨m', hsum, hrun⟩ := runs_add left us m1 (t := add) rfl rfl rfl (by rintro ⟨⟩) rfl
  refine ⟨m', (hshifted.keeps (by rintro r ⟨⟩)).trans (hsum.keeps (by rintro r ⟨⟩)), ?_,
    (runs_result hsar).cons hrun⟩
  have hcarries : carries left us (addByteIndex ra) = carries left us [add] := by
    change carries left us ([sar] ++ [add]) = _
    rw [carries_append, carries_other (by rintro ⟨⟩), Nat.zero_add]
  have hdata := hsum.data
  rw [TransOp.readRb, if_neg (by rintro ⟨⟩)] at hdata
  rw [hcarries, hdata, hshifted.data, hshifted.other _ rfl (by rintro ⟨⟩)]

end

namespace BitTest
variable (d : TraceDecoder) (h : InsnHead) (t : BitTest) (left : Nat → Leftover) (m : Machine)

/-- The uops behind the address. -/
def behindAddress : List TransOp :=
  t.onMem ++ memoryFenceIfLocked (h.lock && t.op != .bt)

/-- The address that the uops of the operand leave. -/
def operandAddress (f : X86Address) : W64 :=
  f.operand.addressOnlyValue (h.context d) left (t.behindAddress h) m true h.addrSize .temp1

/-- The carry that the byte index picks up. -/
def indexCarries (ra : Gpr) : Nat :=
  carries left (bitOnByte t.op .temp2 0 (.reg ra) ++ memoryFenceIfLocked (h.lock && t.op != .bt))
    (addByteIndex ra)

/-- The bit that the uops change. -/
def place : BitPlace :=
  match t.dest with
  | .reg rd => .reg rd ((t.index.word m).toNat % 64)
  | .mem f =>
    match t.index with
    | .reg ra =>
        .mem (t.operandAddress d h left m f.1 + (m.data (.gpr ra)).sshiftRight 3 +
            BitVec.ofNat 64 (t.indexCarries h left ra))
          ((m.data (.gpr ra)).toNat % 8)
    | .imm v => .mem (t.operandAddress d h left m f.1 + v.sshiftRight 3) (v.toNat % 8)

/-- The bit that x86 addresses: a register in memory counts from the operand, with a sign, and
what is left of it counts within the operand. -/
def x86Place : BitPlace :=
  match t.dest with
  | .reg rd => .reg rd ((t.index.word m).toNat % t.size.bits)
  | .mem f =>
    let address := (h.context d).segment m + f.1.effective d.rip m h.truncates
    match t.index with
    | .reg ra =>
        let offset := ((m.data (.gpr ra)).setWidth t.size.bits).toInt
        .mem (address + BitVec.ofInt 64 (offset / 8)) (offset % 8).toNat
    | .imm v =>
        let offset := v.toNat % t.size.bits
        .mem (address + BitVec.ofNat 64 (offset / 8)) (offset % 8)

/-- Only the carry flag is written. -/
theorem uops_writes {r : Reg} (hr : r = .zf ∨ r = .of) : ∀ u ∈ t.uops d h, u.writes r = false := by
  have hflag : r.isFlag = true := by rcases hr with rfl | rfl <;> rfl
  have hbit : ∀ (rd ra : Reg) (size : Size) (index : BitIndex), rd.isFlag = false →
      (bitUop t.op rd ra size index).writes r = false := by
    intro rd ra size index hrd
    rcases hr with rfl | rfl <;> cases rd <;> first | rfl | cases hrd
  have hfence : ∀ locked, ∀ u ∈ memoryFenceIfLocked locked, u.writes r = false := by
    intro locked
    cases locked with
    | false => exact fun _ => nofun
    | true => exact List.forall_mem_singleton.mpr (TransOp.SetsNone.writes ⟨rfl, rfl⟩ hflag)
  have hbyte : ∀ base offset index, ∀ u ∈ bitOnByte t.op base offset index,
      u.writes r = false := by
    intro base offset index
    refine List.forall_mem_append.mpr ⟨List.forall_mem_cons.mpr
      ⟨TransOp.SetsNone.writes ⟨rfl, rfl⟩ hflag,
        List.forall_mem_singleton.mpr (hbit _ _ _ _ rfl)⟩, ?_⟩
    split
    · exact fun _ => nofun
    · exact List.forall_mem_singleton.mpr (TransOp.SetsNone.writes ⟨rfl, rfl⟩ hflag)
  unfold uops
  cases t.dest with
  | reg rd =>
      refine List.forall_mem_singleton.mpr (hbit _ _ _ _ ?_)
      split <;> rfl
  | mem f =>
      refine List.forall_mem_append.mpr ⟨hfence _, List.forall_mem_append.mpr
        ⟨fun u hu => (setsNone_addressOnly _ _ _ _ rfl u hu).writes hflag,
          List.forall_mem_append.mpr ⟨?_, hfence _⟩⟩⟩
      unfold onMem
      cases t.index with
      | reg ra =>
          refine List.forall_mem_append.mpr ⟨List.forall_mem_cons.mpr
            ⟨TransOp.SetsNone.writes ⟨rfl, rfl⟩ hflag, List.forall_mem_singleton.mpr
              (TransOp.SetsNone.writes ⟨rfl, rfl⟩ hflag)⟩, hbyte _ _ _⟩
      | imm v => exact hbyte _ _ _

/-- On a register. -/
theorem runs_reg (rd : Gpr) (hdest : t.dest = .reg rd) :
    ∃ m', (m'.flagsOf .cf).cf = m.bitAt (t.place d h left m) ∧
      (∀ q, m'.bitAt q = if q = t.place d h left m then t.op.apply (m.bitAt q) else m.bitAt q) ∧
      Runs left [] (t.uops d h) m m' := by
  unfold uops place
  rw [hdest]
  dsimp only
  let rd' := if t.op = .bt then .temp0 else Reg.gpr rd
  have hrd : rd' ≠ .zero ∧ rd'.isFlag = false := by
    by_cases hop : t.op = .bt
    · have hrd' : rd' = .temp0 := if_pos hop
      rw [hrd']
      exact ⟨by rintro ⟨⟩, rfl⟩
    · have hrd' : rd' = .gpr rd := if_neg hop
      rw [hrd']
      exact ⟨by rintro ⟨⟩, rfl⟩
  have ⟨m', hsets, hcf, hrun⟩ := runs_bitUop left [] m t.op rd' (.gpr rd) .w64 t.index
    hrd.1 hrd.2
  change _ = ((m.data (.gpr rd)).setWidth 64).getLsbD (((t.index.word m).setWidth 64).toNat % 64)
    at hcf
  rw [BitVec.setWidth_eq, BitVec.setWidth_eq] at hcf
  refine ⟨m', hcf, fun q => ?_, hrun⟩
  by_cases hop : t.op = .bt
  · have hrd' : rd' = .temp0 := if_pos hop
    rw [hrd'] at hsets
    rw [(hsets.keeps (by rintro r ⟨⟩)).bitAt, hop]
    exact (ite_self _).symm
  · have hrd' : rd' = .gpr rd := if_neg hop
    rw [hrd'] at hsets
    cases q with
    | mem a i =>
        rw [if_neg (by rintro ⟨⟩)]
        exact congrArg (fun memory => (memory a).getLsbD i) hsets.memory
    | reg r i =>
        by_cases hr : r = rd
        · have hdata : m'.data (.gpr rd) = (t.op.eval (m.data (.gpr rd)) (t.index.word m)).1 := by
            have hdata : m'.data (.gpr rd) = ((t.op.eval ((m.data (.gpr rd)).setWidth 64)
              ((t.index.word m).setWidth 64)).1.setWidth 64) := hsets.data
            rw [hdata, BitVec.setWidth_eq, BitVec.setWidth_eq, BitVec.setWidth_eq]
          change (m'.data (.gpr r)).getLsbD i = _
          rw [hr, hdata, getLsbD_eval_at hop (Nat.succ_pos 63) _ _ (reg_inj rd)]
          rfl
        · have hne : BitPlace.reg r i ≠ .reg rd ((t.index.word m).toNat % 64) :=
            fun h => hr (by cases h; rfl)
          rw [if_neg hne]
          exact congrArg (fun x => x.getLsbD i)
            (hsets.other (.gpr r) rfl fun h => hr (by cases h; rfl))

/-- On memory. -/
theorem runs_mem (f : { f : X86Address // f.WellFormed }) (hdest : t.dest = .mem f) :
    ∃ m', (m'.flagsOf .cf).cf = m.bitAt (t.place d h left m) ∧
      (∀ q, m'.bitAt q = if q = t.place d h left m then t.op.apply (m.bitAt q) else m.bitAt q) ∧
      Runs left [] (t.uops d h) m m' := by
  let locked := h.lock && t.op != .bt
  let fence := memoryFenceIfLocked locked
  have ⟨m1, hkeeps1, _, hrun1⟩ := runs_memoryFenceIfLocked left
    (f.1.operand.addressOnly (h.context d) true h.addrSize .temp1 ++ (t.onMem ++ fence) ++ [])
    m locked
  have ⟨m2, hother, hmem, haddress, hrun2⟩ := runs_addressOnly (h.context d) left
    (t.onMem ++ fence ++ []) m1 .temp1 (f.1.operand_wellFormed f.2) true h.addrSize
    (by rintro ⟨⟩) rfl
  have hkeeps2 : m.Keeps m2 := hkeeps1.toKeeps.trans
    ⟨fun r => hother (.gpr r) rfl (by rintro ⟨⟩) (by rintro ⟨⟩) (by rintro ⟨⟩), hmem⟩
  have hvalue : m2.data .temp1 = t.operandAddress d h left m f.1 := by
    rw [haddress, hkeeps1.addressOnlyValue, List.append_nil]
    rfl
  have hplaced : ∃ m3, (m3.flagsOf .cf).cf = m.bitAt (t.place d h left m) ∧
      (∀ q, m3.bitAt q = if q = t.place d h left m then t.op.apply (m.bitAt q) else m.bitAt q) ∧
      Runs left (fence ++ []) t.onMem m2 m3 := by
    unfold place onMem
    rw [hdest]
    cases hindex : t.index with
    | imm v =>
        have ⟨m3, hcarry, hbits, hrun⟩ := runs_bitOnByte left (fence ++ []) m2 t.op
          (.inl rfl) (v.sshiftRight 3) (.imm (v &&& bitmask 3))
        have hplace : BitPlace.mem (m2.data .temp1 + v.sshiftRight 3)
            ((BitIndex.word m2 (.imm (v &&& bitmask 3))).toNat % 8) =
            .mem (t.operandAddress d h left m f.1 + v.sshiftRight 3) (v.toNat % 8) := by
          rw [hvalue]
          exact congrArg _ (toNat_lowbits v)
        rw [hplace] at hcarry hbits
        refine ⟨m3, hcarry.trans (hkeeps2.bitAt _), fun q => ?_, hrun⟩
        rw [hbits q, hkeeps2.bitAt]
    | reg ra =>
        have ⟨m3, hkeeps3, hsum, hrun3⟩ := runs_addByteIndex left
          (bitOnByte t.op .temp2 0 (.reg ra) ++ (fence ++ [])) m2 ra
        have ⟨m4, hcarry, hbits, hrun4⟩ := runs_bitOnByte left (fence ++ []) m3 t.op
          (.inr rfl) 0 (.reg ra)
        have hkeeps := hkeeps2.trans hkeeps3
        have hplace : BitPlace.mem (m3.data .temp2 + 0)
            ((BitIndex.word m3 (.reg ra)).toNat % 8) =
            .mem (t.operandAddress d h left m f.1 + (m.data (.gpr ra)).sshiftRight 3 +
              BitVec.ofNat 64 (t.indexCarries h left ra)) ((m.data (.gpr ra)).toNat % 8) := by
          rw [BitIndex.word, hkeeps.data, hsum, hkeeps2.data, hvalue, List.append_nil]
          exact congrArg (BitPlace.mem · _) (BitVec.add_zero _)
        rw [hplace] at hcarry hbits
        refine ⟨m4, hcarry.trans (hkeeps.bitAt _), fun q => ?_, hrun3.append hrun4⟩
        rw [hbits q, hkeeps.bitAt]
  obtain ⟨m3, hcarry, hbits, hrun3⟩ := hplaced
  have ⟨m', hkeeps', hcf, hrun'⟩ := runs_memoryFenceIfLocked left [] m3 locked
  refine ⟨m', ?_, fun q => ?_, ?_⟩
  · rw [hcf, hcarry]
  · rw [hkeeps'.toKeeps.bitAt, hbits]
  · unfold uops
    rw [hdest]
    exact hrun1.append (hrun2.append (hrun3.append hrun'))

theorem runs_uops : ∃ m', t.op.Changes (t.place d h left m) m m' ∧
    Runs left [] (t.uops d h) m m' := by
  have hruns : ∃ m', (m'.flagsOf .cf).cf = m.bitAt (t.place d h left m) ∧
      (∀ q, m'.bitAt q = if q = t.place d h left m then t.op.apply (m.bitAt q) else m.bitAt q) ∧
      Runs left [] (t.uops d h) m m' := by
    cases hdest : t.dest with
    | reg rd => exact t.runs_reg d h left m rd hdest
    | mem f => exact t.runs_mem d h left m f hdest
  obtain ⟨m', hcarry, hbits, hrun⟩ := hruns
  have hend : runUops left d.rip (t.uops d h) m = some (m', d.rip) := by
    have hend := hrun d.rip
    rw [List.append_nil] at hend
    exact hend
  exact ⟨m', ⟨hcarry, hbits, runUops_flagsOf (t.uops_writes d h (.inl rfl)) hend,
    runUops_flagsOf (t.uops_writes d h (.inr rfl)) hend⟩, hrun⟩

/-- The op does what x86 says. -/
def Right : Prop :=
  ∃ m', runUops left d.rip (t.uops d h) m = some (m', d.rip) ∧
    t.op.Changes (t.x86Place d h m) m m'

/-- An op is right exactly when its bit is the one of x86, or holds the same and both stay. -/
theorem leavesX86Results_iff : t.Right d h left m ↔
    t.place d h left m = t.x86Place d h m ∨
      m.bitAt (t.place d h left m) = m.bitAt (t.x86Place d h m) ∧
        t.op.apply (m.bitAt (t.x86Place d h m)) = m.bitAt (t.x86Place d h m) := by
  have ⟨m', hchanges, hrun⟩ := t.runs_uops d h left m
  exact (AddressUse.exists_run_iff d left m hrun _).trans (hchanges.iff _)

/-- `bts eax, ecx`. -/
def btsEaxEcx : BitTest where
  op := .bts
  size := .w32
  dest := .reg .rax
  index := .reg .rcx

/-- At 32 bits the index 32 is that of bit 0, and the uop sets bit 32. -/
theorem btsEaxEcx_wrong : ¬btsEaxEcx.Right (.plain true) (.loadByte true 0xc8) (fun _ => .quiet)
    { Machine.zeros with regs := fun r => if r = .gpr .rcx then 32 else 0 } := by
  rintro ⟨m', hrun, hchanges⟩
  cases hrun
  have hbit : false = true := hchanges.bits (.reg .rax 0)
  cases hbit

end BitTest
end FeS2.Decoder
