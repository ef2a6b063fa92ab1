import FeS2.Decoder.StackInsn

/-!
What the uops of the stack instructions leave. Each moves the stack pointer with the host's `adc`
or `sbb`, which take the carry flag that they find left over.
-/

namespace FeS2.Decoder

def Leftover.carryWord (l : Leftover) : W64 := BitVec.ofNat 64 l.carry.toNat

/-! Single uops -/

theorem Machine.Touches.gprs_eq {rs : List Reg} {m m' : Machine} (h : m.Touches rs m')
    (hrs : ∀ q, .gpr q ∉ rs) : StackInsn.gprs m' = StackInsn.gprs m :=
  funext fun q => h.data _ rfl (hrs q)

theorem Machine.Touches.gprs_update {m m' : Machine} {r : Gpr} (h : m.Touches [.gpr r] m') :
    StackInsn.gprs m' = Function.update (StackInsn.gprs m) r (m'.data (.gpr r)) := by
  funext q
  by_cases hq : q = r
  · rw [hq, Function.update_self]
    rfl
  · rw [Function.update_of_ne hq]
    refine h.data _ rfl ?_
    rw [List.mem_singleton]
    rintro ⟨⟩
    exact hq rfl

theorem Reaches.branch {left : Nat → Leftover} {ts : List TransOp} {t : TransOp}
    {m m1 : Machine} {rip : W64} (h : Reaches left [t] ts m m1)
    (hexec : t.exec (left 0) m1 = some (.branched rip)) (next : W64) :
    runUops left next (ts ++ [t]) m = some (m1, rip) := by
  rw [h.runs next, runUops, List.length_nil, hexec]

namespace StackInsn
variable (left : Nat → Leftover) (us : List TransOp) (m : Machine)

/-- The stack pointer, moved by a uop. -/
def lowered (z : Size) (imm : W64) (l : Leftover) (x : W64) : W64 :=
  x86Merge z x (x - imm - l.carryWord)

def raised (z : Size) (imm : W64) (l : Leftover) (x : W64) : W64 :=
  x86Merge z x (x + imm + l.carryWord)

theorem reaches_stored {srcreg : Reg} (himm : srcreg ≠ .imm) (size : Size) :
    Reaches left us [store srcreg size] m
      { m with memory := m.store (m.data (.gpr .rsp) - size.word) size (m.data srcreg) } := by
  refine .stored ?_
  have hread : (store srcreg size).readRc m = m.data srcreg := if_neg himm
  have haddr : m.data (.gpr .rsp) - size.word = m.data (.gpr .rsp) + -size.word :=
    BitVec.sub_eq_add_neg _ _
  rw [haddr, ← hread]
  rfl

theorem carryWord_narrow (l : Leftover) (z : Size) :
    (BitVec.ofBool l.carry).setWidth z.bits = l.carryWord.setWidth z.bits := by
  unfold Leftover.carryWord
  cases l.carry <;> cases z <;> rfl

theorem setWidth_sub_word {n : Nat} (h : n ≤ 64) (x y : W64) :
    (x - y).setWidth n = x.setWidth n - y.setWidth n := by
  rw [BitVec.sub_eq_add_neg, BitVec.setWidth_add _ _ h, BitVec.setWidth_neg_of_le h,
    ← BitVec.sub_eq_add_neg]

theorem reaches_lower (size : Size) (imm : W64) :
    ∃ m', m'.data (.gpr .rsp) = lowered size imm (left us.length) (m.data (.gpr .rsp)) ∧
      m.Touches [.gpr .rsp] m' ∧ m'.memory = m.memory ∧
      Reaches left us [move .sub size imm] m m' := by
  have hexec : (move .sub size imm).exec (left us.length) m = some (.result
      (x86Merge size (m.data (.gpr .rsp)) (((m.data (.gpr .rsp)).setWidth size.bits -
        imm.setWidth size.bits - (BitVec.ofBool (left us.length).carry).setWidth size.bits).setWidth
          64)) .clear) := rfl
  obtain ⟨m', hdata, htouch, hmem, hreach⟩ := reaches_temp (by rintro ⟨⟩) ⟨rfl, rfl⟩ hexec
  refine ⟨m', hdata.trans ?_, htouch, hmem, hreach⟩
  rw [lowered, carryWord_narrow]
  apply x86Merge_congr
  rw [BitVec.setWidth_setWidth_of_le _ size.bits_le, BitVec.setWidth_eq,
    setWidth_sub_word size.bits_le, setWidth_sub_word size.bits_le]

theorem reaches_raise (size : Size) (imm : W64) :
    ∃ m', m'.data (.gpr .rsp) = raised size imm (left us.length) (m.data (.gpr .rsp)) ∧
      m.Touches [.gpr .rsp] m' ∧ m'.memory = m.memory ∧
      Reaches left us [move .add size imm] m m' := by
  have hexec : (move .add size imm).exec (left us.length) m = some (.result
      (x86Merge size (m.data (.gpr .rsp)) (((m.data (.gpr .rsp)).setWidth size.bits +
        imm.setWidth size.bits + (BitVec.ofBool (left us.length).carry).setWidth size.bits).setWidth
          64)) .clear) := rfl
  obtain ⟨m', hdata, htouch, hmem, hreach⟩ := reaches_temp (by rintro ⟨⟩) ⟨rfl, rfl⟩ hexec
  refine ⟨m', hdata.trans ?_, htouch, hmem, hreach⟩
  rw [raised, carryWord_narrow]
  apply x86Merge_congr
  rw [BitVec.setWidth_setWidth_of_le _ size.bits_le, BitVec.setWidth_eq,
    BitVec.setWidth_add _ _ size.bits_le, BitVec.setWidth_add _ _ size.bits_le]

theorem reaches_loaded (destreg : Reg) (hrd : destreg ≠ .zero) (hflag : destreg.isFlag = false)
    (base : Gpr) (size : Size) :
    ∃ m', m'.data destreg = m.load (m.data (.gpr base)) size ∧ m.Touches [destreg] m' ∧
      m'.memory = m.memory ∧ Reaches left us [load destreg base size] m m' := by
  have hexec : (load destreg base size).exec (left us.length) m =
      some (.result (m.load (m.data (.gpr base) + 0) size) .clear) := rfl
  have haddr : m.data (.gpr base) + 0 = m.data (.gpr base) := BitVec.add_zero _
  rw [haddr] at hexec
  exact reaches_temp hrd ⟨rfl, hflag⟩ hexec

theorem reaches_immediate (rdreg : Reg) (hrd : rdreg ≠ .zero) (hflag : rdreg.isFlag = false)
    (imm : W64) :
    ∃ m', m'.data rdreg = imm ∧ m.Touches [rdreg] m' ∧ m'.memory = m.memory ∧
      Reaches left us [immediate rdreg imm] m m' := by
  have hexec : (immediate rdreg imm).exec (left us.length) m =
      some (.result ((imm.setWidth 64).setWidth 64) .clear) := rfl
  rw [BitVec.setWidth_eq, BitVec.setWidth_eq] at hexec
  exact reaches_temp hrd ⟨rfl, hflag⟩ hexec

theorem reaches_moveGpr (rd rb : Gpr) (size : Size) :
    ∃ m', m'.data (.gpr rd) = x86Merge size 0 (m.data (.gpr rb)) ∧ m.Touches [.gpr rd] m' ∧
      m'.memory = m.memory ∧ Reaches left us [moveGpr rd rb size] m m' := by
  have hexec : (moveGpr rd rb size).exec (left us.length) m = some (.result
      (x86Merge size 0 (((m.data (.gpr rb)).setWidth size.bits).setWidth 64)) .clear) := rfl
  rw [x86Merge_self] at hexec
  exact reaches_temp (by rintro ⟨⟩) ⟨rfl, rfl⟩ hexec

/-! Pushes and pops -/

/-- A value that a register holds is pushed. -/
theorem reaches_push {left : Nat → Leftover} {us ts : List TransOp} {m m1 : Machine} {v : W64}
    (srcreg : Reg) (himm : srcreg ≠ .imm) (size z : Size) (hgprs : gprs m1 = gprs m)
    (hmem : m1.memory = m.memory) (hdata : m1.data srcreg = v)
    (hreach : Reaches left ([store srcreg size, move .sub z size.word] ++ us) ts m m1) :
    ∃ m', gprs m' = Function.update (gprs m) .rsp
          (lowered z size.word (left us.length) (m.data (.gpr .rsp))) ∧
      m'.memory = m.store (m.data (.gpr .rsp) - size.word) size v ∧
      (∀ r, r.isFlag = false → (∀ q, r ≠ .gpr q) → m'.data r = m1.data r) ∧
      Reaches left us (ts ++ [store srcreg size, move .sub z size.word]) m m' := by
  have hrsp : m1.data (.gpr .rsp) = m.data (.gpr .rsp) := congrFun hgprs .rsp
  have hstore := reaches_stored left ([move .sub z size.word] ++ us) m1 himm size
  obtain ⟨m2, hdata2, htouch2, hmem2, hreach2⟩ := reaches_lower left us
    { m1 with memory := m1.store (m1.data (.gpr .rsp) - size.word) size (m1.data srcreg) } z
    size.word
  refine ⟨m2, ?_, ?_, fun r hr hne => ?_, hreach.append (hstore.cons hreach2)⟩
  · have hsame : gprs { m1 with
        memory := m1.store (m1.data (.gpr .rsp) - size.word) size (m1.data srcreg) } = gprs m :=
      hgprs
    have hlowered : m2.data (.gpr .rsp) = lowered z size.word (left us.length)
        (m1.data (.gpr .rsp)) := hdata2
    rw [htouch2.gprs_update, hsame, hlowered, hrsp]
  · rw [hmem2, hdata, hrsp]
    unfold Machine.store
    rw [hmem]
  · exact htouch2.data r hr (by rw [List.mem_singleton]; exact hne .rsp)

/-- What a register and the stack pointer are after a pop. -/
def popGpr (r : Gpr) (size z : Size) (l : Leftover) : Gpr → W64 :=
  let x := m.load (m.data (.gpr .rsp)) size
  if r = .rsp then Function.update (gprs m) .rsp x
  else Function.update (Function.update (gprs m) r x) .rsp
    (raised z size.word l (m.data (.gpr .rsp)))

theorem reaches_popReg (r : Gpr) (size z : Size) :
    ∃ m', gprs m' = popGpr m r size z (left us.length) ∧ m'.memory = m.memory ∧
      Reaches left us (popReg r size z) m m' := by
  unfold popReg popGpr
  by_cases hr : r = .rsp
  · rw [if_pos hr, if_pos hr, hr]
    obtain ⟨m1, hdata1, htouch1, hmem1, hreach1⟩ :=
      reaches_loaded left us m (.gpr .rsp) (by rintro ⟨⟩) rfl .rsp size
    exact ⟨m1, by rw [htouch1.gprs_update, hdata1], hmem1, hreach1⟩
  · rw [if_neg hr, if_neg hr]
    obtain ⟨m1, hdata1, htouch1, hmem1, hreach1⟩ := reaches_loaded left
      ([move .add z size.word] ++ us) m (.gpr r) (by rintro ⟨⟩) rfl .rsp size
    obtain ⟨m2, hdata2, htouch2, hmem2, hreach2⟩ := reaches_raise left us m1 z size.word
    have hrsp : m1.data (.gpr .rsp) = m.data (.gpr .rsp) := by
      refine htouch1.data _ rfl ?_
      rw [List.mem_singleton]
      rintro ⟨⟩
      exact hr rfl
    rw [hrsp] at hdata2
    refine ⟨m2, ?_, hmem2.trans hmem1, hreach1.cons hreach2⟩
    rw [htouch2.gprs_update, htouch1.gprs_update, hdata1, hdata2]

/-! The whole op -/

end StackInsn

namespace InsnHead
variable (h : InsnHead)

/-- Outside 64-bit mode there is no REX byte. -/
theorem use64_of_mode64 (hrex : h.rex.mode64 = true) : h.use64 = true := by
  unfold rex at hrex
  cases huse : h.use64 with
  | true => rfl
  | false =>
      rw [huse] at hrex
      cases hrex

theorem pushSize_vSize : h.pushSize h.vSize = h.opSize := by
  have hrex := h.use64_of_mode64
  unfold pushSize vSize opSize modeSize
  cases hmode : h.rex.mode64 with
  | true =>
      rw [hrex hmode]
      rfl
  | false => cases h.use64 <;> cases h.opsizePrefix <;> rfl

theorem pushSize_regSize : h.pushSize h.regSize = h.opSize := by
  have hrex := h.use64_of_mode64
  unfold pushSize regSize vSize opSize modeSize
  cases hmode : h.rex.mode64 with
  | true =>
      rw [hrex hmode]
      rfl
  | false => cases h.use64 <;> cases h.opsizePrefix <;> rfl

end InsnHead

namespace StackInsn
variable (c : DecodeContext) (h : InsnHead) (m : Machine) (left : Nat → Leftover)

/-- What the uops take for an operand; `us` are those behind its load. -/
def brought (temp : Reg) (us : List TransOp) : StackOperand → W64
  | .reg r => m.data (.gpr r)
  | .mem f =>
      let a := f.operand
      m.load (a.place c left (a.load c h.opSize .ld temp :: us) h.opSize m) h.opSize

/-- Where an operand is popped to. -/
def storePlace (f : StackAddress) : W64 :=
  let a := popTarget f.operand h.opSize
  a.place c left [a.storeOp c h.opSize .temp7, move .add .w64 h.opSize.word] h.opSize m

def pushes (size z : Size) (l : Leftover) (v rip : W64) : StackEffect where
  gpr := Function.update (gprs m) .rsp (lowered z size.word l (m.data (.gpr .rsp)))
  memory := m.store (m.data (.gpr .rsp) - size.word) size v
  rip := rip

/-- What the uops leave. -/
def leaves : StackInsn → StackEffect
  | push r => pushes m h.opSize h.modeSize (left 0) (m.data (.gpr r)) c.rip
  | pop r => ⟨popGpr m r h.opSize h.modeSize (left 0), m.memory, c.rip⟩
  | pushImm byte v =>
      pushes m h.prefixSize .w64 (left 0) (signext64 v (if byte then 8 else 32)) c.rip
  | pushEv ra =>
      pushes m h.opSize h.modeSize (left 0) (brought c h m left .temp7
        [store .temp7 h.opSize, move .sub h.modeSize h.opSize.word] ra) c.rip
  | popEv rd =>
      match rd with
      | .reg r => ⟨popGpr m r h.opSize .w64 (left 0), m.memory, c.rip⟩
      | .mem f =>
          { gpr := Function.update (gprs m) .rsp
              (raised .w64 h.opSize.word (left 0) (m.data (.gpr .rsp)))
            memory := m.store (storePlace c h m left f) h.opSize
              (m.load (m.data (.gpr .rsp)) h.opSize)
            rip := c.rip }
  | call disp => pushes m h.modeSize h.modeSize (left 1) c.rip (c.rip + disp)
  | jmp disp => branched m (c.rip + disp)
  | callEv ra =>
      let lowered := lowered h.modeSize h.modeSize.word (left 1) (m.data (.gpr .rsp))
      pushes m h.modeSize h.modeSize (left 1) c.rip <|
        match ra with
        | .reg r => Function.update (gprs m) .rsp lowered r
        | .mem f =>
            brought c h m left .temp0 (pushRip c h .temp6 ++ [jmpReg .temp0 h.opSize]) (.mem f)
  | jmpEv ra => branched m (brought c h m left .temp0 [jmpReg .temp0 h.opSize] ra)
  | ret addend =>
      { gpr := Function.update (gprs m) .rsp
          (raised .w64 (h.prefixSize.word + addend.setWidth 64) (left 1) (m.data (.gpr .rsp)))
        memory := m.memory
        rip := m.load (m.data (.gpr .rsp)) h.prefixSize }
  | enter bytes =>
      let frame := lowered .w64 h.prefixSize.word (left 2) (m.data (.gpr .rsp))
      { gpr := Function.update
          (Function.update (Function.update (gprs m) .rsp frame) .rbp
            (x86Merge h.prefixSize 0 frame)) .rsp
              (lowered h.prefixSize (bytes.setWidth 64) (left 0) frame)
        memory := m.store (m.data (.gpr .rsp) - h.prefixSize.word) h.prefixSize
          (m.data (.gpr .rbp))
        rip := c.rip }
  | leave =>
      let frame := x86Merge h.prefixSize 0 (m.data (.gpr .rbp))
      { gpr := Function.update
          (Function.update (Function.update (gprs m) .rsp frame) .rbp
            (m.load frame h.prefixSize)) .rsp (raised .w64 h.prefixSize.word (left 0) frame)
        memory := m.memory
        rip := c.rip }

/-- The uops run to the effect. -/
def Runs (i : StackInsn) : Prop :=
  ∃ m' next, runUops left c.rip (i.uops c h) m = some (m', next) ∧
    (⟨gprs m', m'.memory, next⟩ : StackEffect) = i.leaves c h m left

theorem Runs.of {i : StackInsn} {m' : Machine} {gpr : Gpr → W64} {memory : W64 → BitVec 8}
    (hreach : Reaches left [] (i.uops c h) m m') (hgprs : gprs m' = gpr)
    (hmem : m'.memory = memory) (hleaves : i.leaves c h m left = ⟨gpr, memory, c.rip⟩) :
    Runs c h m left i := by
  refine ⟨m', c.rip, hreach c.rip, ?_⟩
  rw [hleaves, hgprs, hmem]

theorem reaches_pushGpr (r : Gpr) :
    ∃ m', gprs m' = (pushes m h.opSize h.modeSize (left 0) (m.data (.gpr r)) c.rip).gpr ∧
      m'.memory = (pushes m h.opSize h.modeSize (left 0) (m.data (.gpr r)) c.rip).memory ∧
      Reaches left [] [store (.gpr r) h.opSize, move .sub h.modeSize h.opSize.word] m m' := by
  let pushed := [store (.gpr r) h.opSize, move .sub h.modeSize h.opSize.word]
  have hstart : Reaches left (pushed ++ []) [] m m := .nil left _ m
  obtain ⟨m', hgprs, hmem, _, hreach⟩ := reaches_push (.gpr r) (by rintro ⟨⟩) h.opSize h.modeSize
    rfl rfl rfl hstart
  exact ⟨m', hgprs, hmem, hreach⟩

theorem runs_push (r : Gpr) : Runs c h m left (push r) := by
  obtain ⟨m', hgprs, hmem, hreach⟩ := reaches_pushGpr c h m left r
  refine .of c h m left ?_ hgprs hmem rfl
  rw [uops, h.pushSize_regSize]
  exact hreach

theorem runs_pop (r : Gpr) : Runs c h m left (pop r) := by
  obtain ⟨m', hgprs, hmem, hreach⟩ := reaches_popReg left [] m r h.opSize h.modeSize
  refine .of c h m left ?_ hgprs hmem rfl
  rw [uops, h.pushSize_regSize]
  exact hreach

theorem runs_pushImm (byte : Bool) (v : W64) : Runs c h m left (pushImm byte v) := by
  obtain ⟨m1, hdata1, htouch1, hmem1, hreach1⟩ := reaches_immediate left
    ([store .temp0 h.prefixSize, move .sub .w64 h.prefixSize.word] ++ []) m .temp0
    (by rintro ⟨⟩) rfl (signext64 v (if byte then 8 else 32))
  obtain ⟨m2, hgprs2, hmem2, _, hreach2⟩ := reaches_push .temp0 (by rintro ⟨⟩) h.prefixSize .w64
    (htouch1.gprs_eq (by simp)) hmem1 hdata1 hreach1
  exact .of c h m left hreach2 hgprs2 hmem2 rfl

theorem gpr_not_addressTemps {r : Reg} (hr : ∀ q, r ≠ .gpr q) (q : Gpr) :
    .gpr q ∉ MemOperand.addressTemps ++ [r] := by
  rw [List.mem_append, List.mem_singleton, not_or]
  exact ⟨by simp [MemOperand.addressTemps], (hr q).symm⟩

theorem runs_pushEv (ra : StackOperand) : Runs c h m left (pushEv ra) := by
  cases ra with
  | reg r =>
      obtain ⟨m', hgprs, hmem, hreach⟩ := reaches_pushGpr c h m left r
      refine .of c h m left ?_ hgprs hmem rfl
      rw [uops, h.pushSize_vSize]
      exact hreach
  | mem f =>
      obtain ⟨m1, hdata1, htouch1, hmem1, hreach1⟩ := f.operand.reaches_load c left
        ([store .temp7 h.opSize, move .sub h.modeSize h.opSize.word] ++ []) h.opSize m
        (f.operand_wellFormed f.wellFormed) .temp7 (by rintro ⟨⟩) rfl
      obtain ⟨m2, hgprs2, hmem2, _, hreach2⟩ := reaches_push .temp7 (by rintro ⟨⟩) h.opSize
        h.modeSize (htouch1.gprs_eq (gpr_not_addressTemps (by rintro q ⟨⟩))) hmem1 hdata1 hreach1
      refine .of c h m left ?_ hgprs2 hmem2 rfl
      rw [uops, h.pushSize_vSize]
      exact hreach2

theorem runs_popEv (rd : StackOperand) : Runs c h m left (popEv rd) := by
  cases rd with
  | reg r =>
      obtain ⟨m', hgprs, hmem, hreach⟩ := reaches_popReg left [] m r h.opSize .w64
      refine .of c h m left ?_ hgprs hmem rfl
      rw [uops, h.pushSize_vSize]
      exact hreach
  | mem f =>
      let up := move .add .w64 h.opSize.word
      let target := popTarget f.operand h.opSize
      obtain ⟨m1, hdata1, htouch1, hmem1, hreach1⟩ := reaches_loaded left
        (target.resultStore c h.opSize .temp7 ++ [up] ++ []) m .temp7 (by rintro ⟨⟩) rfl .rsp
        h.opSize
      obtain ⟨m2, hmem2, htouch2, hreach2⟩ := target.reaches_store c left ([up] ++ []) h.opSize m1
        (f.operand_wellFormed f.wellFormed) .temp7 (by rintro ⟨⟩) rfl
        (by simp [MemOperand.addressTemps])
      obtain ⟨m3, hdata3, htouch3, hmem3, hreach3⟩ := reaches_raise left [] m2 .w64 h.opSize.word
      have hgprs1 : gprs m1 = gprs m := htouch1.gprs_eq (by simp)
      have hgprs2 : gprs m2 = gprs m :=
        (htouch2.gprs_eq (by simp [MemOperand.addressTemps])).trans hgprs1
      have hplace : target.place c left (target.storeOp c h.opSize .temp7 :: ([up] ++ []))
          h.opSize m1 = storePlace c h m left f :=
        target.place_touches c left _ h.opSize htouch1 (by simp) (by simp)
      refine .of c h m left (?_ : Reaches _ _ _ _ m3) ?_ ?_ rfl
      · rw [uops, h.pushSize_vSize]
        exact hreach1.cons (hreach2.append hreach3)
      · have hrsp : m2.data (.gpr .rsp) = m.data (.gpr .rsp) := congrFun hgprs2 .rsp
        rw [htouch3.gprs_update, hgprs2, hdata3, hrsp]
        rfl
      · rw [hmem3, hmem2, hplace, hdata1]
        unfold Machine.store
        rw [hmem1]

theorem reaches_pushRip {us ts : List TransOp} {m1 : Machine} (temp : Reg) (hzero : temp ≠ .zero)
    (himm : temp ≠ .imm) (hflag : temp.isFlag = false) (htemp : ∀ q, temp ≠ .gpr q)
    (hgprs : gprs m1 = gprs m) (hmem : m1.memory = m.memory)
    (hreach : Reaches left (pushRip c h temp ++ us) ts m m1) :
    ∃ m', gprs m' = Function.update (gprs m) .rsp
          (lowered h.modeSize h.modeSize.word (left us.length) (m.data (.gpr .rsp))) ∧
      m'.memory = m.store (m.data (.gpr .rsp) - h.modeSize.word) h.modeSize c.rip ∧
      (∀ r, r.isFlag = false → (∀ q, r ≠ .gpr q) → r ≠ temp → m'.data r = m1.data r) ∧
      Reaches left us (ts ++ pushRip c h temp) m m' := by
  let pushed := [store temp h.modeSize, move .sub h.modeSize h.modeSize.word]
  obtain ⟨m2, hdata2, htouch2, hmem2, hreach2⟩ :=
    reaches_immediate left (pushed ++ us) m1 temp hzero hflag c.rip
  have hbefore : Reaches left ([immediate temp c.rip] ++ (pushed ++ us)) ts m m1 := hreach
  have hstart := hbefore.append hreach2
  have hgprs2 : gprs m2 = gprs m :=
    (htouch2.gprs_eq fun q => by rw [List.mem_singleton]; exact (htemp q).symm).trans hgprs
  obtain ⟨m3, hgprs3, hmem3, hother3, hreach3⟩ := reaches_push temp himm h.modeSize h.modeSize
    hgprs2 (hmem2.trans hmem) hdata2 hstart
  refine ⟨m3, hgprs3, hmem3, fun r hr hne hnt => ?_, ?_⟩
  · rw [hother3 r hr hne]
    exact htouch2.data r hr (by rw [List.mem_singleton]; exact hnt)
  · rw [List.append_assoc] at hreach3
    exact hreach3

theorem Runs.branch {i : StackInsn} {ts : List TransOp} {t : TransOp} {m' : Machine}
    {gpr : Gpr → W64} {memory : W64 → BitVec 8} {rip : W64} (huops : i.uops c h = ts ++ [t])
    (hreach : Reaches left [t] ts m m') (hexec : t.exec (left 0) m' = some (.branched rip))
    (hgprs : gprs m' = gpr) (hmem : m'.memory = memory)
    (hleaves : i.leaves c h m left = ⟨gpr, memory, rip⟩) : Runs c h m left i := by
  refine ⟨m', rip, ?_, ?_⟩
  · rw [huops]
    exact hreach.branch hexec c.rip
  · rw [hleaves, hgprs, hmem]

theorem runs_call (disp : W64) : Runs c h m left (call disp) := by
  have hstart : Reaches left (pushRip c h .temp0 ++ [bru (c.rip + disp)]) [] m m := .nil left _ m
  obtain ⟨m1, hgprs, hmem, _, hreach⟩ := reaches_pushRip c h m left .temp0 (by rintro ⟨⟩)
    (by rintro ⟨⟩) rfl (by rintro q ⟨⟩) rfl rfl hstart
  exact .branch c h m left rfl hreach rfl hgprs hmem rfl

theorem runs_jmp (disp : W64) : Runs c h m left (jmp disp) := by
  have hstart : Reaches left [bru (c.rip + disp)] [] m m := .nil left _ m
  exact .branch c h m left rfl hstart rfl rfl rfl rfl

theorem runs_callEv (ra : StackOperand) :
    Runs c h m left (callEv ra) := by
  cases ra with
  | reg r =>
      have hstart : Reaches left (pushRip c h .temp6 ++ [jmpReg (.gpr r) h.opSize]) [] m m :=
        .nil left _ m
      obtain ⟨m1, hgprs, hmem, _, hreach⟩ := reaches_pushRip c h m left .temp6 (by rintro ⟨⟩)
        (by rintro ⟨⟩) rfl (by rintro q ⟨⟩) rfl rfl hstart
      have hexec : (jmpReg (.gpr r) h.opSize).exec (left 0) m1 = some (.branched (gprs m1 r)) := rfl
      rw [hgprs] at hexec
      refine .branch c h m left ?_ hreach hexec hgprs hmem rfl
      rw [uops, h.pushSize_vSize]
      rfl
  | mem f =>
      obtain ⟨m1, hdata1, htouch1, hmem1, hreach1⟩ := f.operand.reaches_load c left
        (pushRip c h .temp6 ++ [jmpReg .temp0 h.opSize]) h.opSize m
        (f.operand_wellFormed f.wellFormed) .temp0 (by rintro ⟨⟩) rfl
      obtain ⟨m2, hgprs2, hmem2, hother2, hreach2⟩ := reaches_pushRip c h m left .temp6
        (by rintro ⟨⟩) (by rintro ⟨⟩) rfl (by rintro q ⟨⟩)
        (htouch1.gprs_eq (gpr_not_addressTemps (by rintro q ⟨⟩))) hmem1 hreach1
      have hexec : (jmpReg .temp0 h.opSize).exec (left 0) m2 = some (.branched (m2.data .temp0)) :=
        rfl
      rw [hother2 .temp0 rfl (by rintro q ⟨⟩) (by rintro ⟨⟩), hdata1] at hexec
      refine .branch c h m left ?_ hreach2 hexec hgprs2 hmem2 rfl
      rw [uops, h.pushSize_vSize, List.append_assoc]

theorem runs_jmpEv (ra : StackOperand) :
    Runs c h m left (jmpEv ra) := by
  cases ra with
  | reg r =>
      have hexec : (jmpReg (.gpr r) h.opSize).exec (left 0) m =
          some (.branched (m.data (.gpr r))) := rfl
      refine .branch c h m left ?_ (.nil left _ m) hexec rfl rfl rfl
      rw [uops, h.pushSize_vSize]
      rfl
  | mem f =>
      obtain ⟨m1, hdata1, htouch1, hmem1, hreach1⟩ := f.operand.reaches_load c left
        [jmpReg .temp0 h.opSize] h.opSize m
        (f.operand_wellFormed f.wellFormed) .temp0 (by rintro ⟨⟩) rfl
      have hexec : (jmpReg .temp0 h.opSize).exec (left 0) m1 = some (.branched (m1.data .temp0)) :=
        rfl
      rw [hdata1] at hexec
      refine .branch c h m left ?_ hreach1 hexec
        (htouch1.gprs_eq (gpr_not_addressTemps (by rintro q ⟨⟩))) hmem1 rfl
      rw [uops, h.pushSize_vSize]

theorem runs_ret (addend : BitVec 16) : Runs c h m left (ret addend) := by
  let imm := h.prefixSize.word + addend.setWidth 64
  obtain ⟨m1, hdata1, htouch1, hmem1, hreach1⟩ := reaches_loaded left
    ([move .add .w64 imm] ++ [jmpReg .temp7 .w64]) m .temp7 (by rintro ⟨⟩) rfl .rsp h.prefixSize
  obtain ⟨m2, hdata2, htouch2, hmem2, hreach2⟩ :=
    reaches_raise left [jmpReg .temp7 .w64] m1 .w64 imm
  have hgprs1 : gprs m1 = gprs m := htouch1.gprs_eq (by simp)
  have hrsp : m1.data (.gpr .rsp) = m.data (.gpr .rsp) := congrFun hgprs1 .rsp
  have htemp : m2.data .temp7 = m1.data .temp7 := htouch2.data _ rfl (by simp)
  have hexec : (jmpReg .temp7 .w64).exec (left 0) m2 = some (.branched (m2.data .temp7)) := rfl
  rw [htemp, hdata1] at hexec
  refine .branch c h m left rfl (hreach1.append hreach2) hexec ?_ (hmem2.trans hmem1) rfl
  rw [htouch2.gprs_update, hgprs1, hdata2, hrsp]
  rfl

theorem runs_enter (bytes : BitVec 16) : Runs c h m left (enter bytes) := by
  let size := h.prefixSize
  let last := move .sub size (bytes.setWidth 64)
  have hstart : Reaches left ([store (.gpr .rbp) size, move .sub .w64 size.word] ++
      [moveGpr .rbp .rsp size, last]) [] m m := .nil left _ m
  obtain ⟨m1, hgprs1, hmem1, _, hreach1⟩ := reaches_push (.gpr .rbp) (by rintro ⟨⟩) size .w64
    rfl rfl rfl hstart
  obtain ⟨m2, hdata2, htouch2, hmem2, hreach2⟩ := reaches_moveGpr left [last] m1 .rbp .rsp size
  obtain ⟨m3, hdata3, htouch3, hmem3, hreach3⟩ :=
    reaches_lower left [] m2 size (bytes.setWidth 64)
  have hframe : m1.data (.gpr .rsp) =
      lowered .w64 size.word (left 2) (m.data (.gpr .rsp)) := by
    have hrsp := congrFun hgprs1 .rsp
    rw [Function.update_self] at hrsp
    exact hrsp
  have hrsp2 : m2.data (.gpr .rsp) = m1.data (.gpr .rsp) := htouch2.data _ rfl (by simp)
  refine .of c h m left (hreach1.append (hreach2.append hreach3)) ?_
    (hmem3.trans (hmem2.trans hmem1)) rfl
  rw [htouch3.gprs_update, htouch2.gprs_update, hgprs1, hdata3, hrsp2, hdata2, hframe]
  rfl

theorem runs_leave : Runs c h m left leave := by
  let size := h.prefixSize
  let frame := x86Merge size 0 (m.data (.gpr .rbp))
  let up := move .add .w64 size.word
  let pop := load (.gpr .rbp) .rsp size
  obtain ⟨m1, _, htouch1, hmem1, hreach1⟩ := reaches_loaded left
    ([moveGpr .rsp .rbp size] ++ ([pop] ++ [up]) ++ []) m .temp0 (by rintro ⟨⟩) rfl .rbp size
  obtain ⟨m2, hdata2, htouch2, hmem2, hreach2⟩ :=
    reaches_moveGpr left ([pop] ++ [up] ++ []) m1 .rsp .rbp size
  obtain ⟨m3, hdata3, htouch3, hmem3, hreach3⟩ :=
    reaches_loaded left [up] m2 (.gpr .rbp) (by rintro ⟨⟩) rfl .rsp size
  obtain ⟨m4, hdata4, htouch4, hmem4, hreach4⟩ := reaches_raise left [] m3 .w64 size.word
  have hgprs1 : gprs m1 = gprs m := htouch1.gprs_eq (by simp)
  have hrbp : m1.data (.gpr .rbp) = m.data (.gpr .rbp) := congrFun hgprs1 .rbp
  have hframe : m2.data (.gpr .rsp) = frame := by rw [hdata2, hrbp]
  have hrsp3 : m3.data (.gpr .rsp) = frame :=
    (htouch3.data _ rfl (by simp)).trans hframe
  have hload : m2.load frame size = m.load frame size := by
    rw [Machine.load, hmem2, hmem1]
    rfl
  have hpop : Reaches left [] ([pop] ++ [up]) m2 m4 := hreach3.append hreach4
  refine .of c h m left (hreach1.cons (hreach2.append hpop)) ?_
    (hmem4.trans (hmem3.trans (hmem2.trans hmem1))) rfl
  rw [htouch4.gprs_update, htouch3.gprs_update, htouch2.gprs_update, hgprs1, hdata4, hrsp3, hdata3,
    hframe, hload]
  rfl

theorem runs (i : StackInsn) : Runs c h m left i := by
  cases i with
  | push r => exact runs_push c h m left r
  | pop r => exact runs_pop c h m left r
  | pushImm byte v => exact runs_pushImm c h m left byte v
  | pushEv ra => exact runs_pushEv c h m left ra
  | popEv rd => exact runs_popEv c h m left rd
  | call disp => exact runs_call c h m left disp
  | jmp disp => exact runs_jmp c h m left disp
  | callEv ra => exact runs_callEv c h m left ra
  | jmpEv ra => exact runs_jmpEv c h m left ra
  | ret addend => exact runs_ret c h m left addend
  | enter bytes => exact runs_enter c h m left bytes
  | leave => exact runs_leave c h m left

/-- x86 is right exactly where it is what the uops leave. -/
theorem right_iff (i : StackInsn) :
    Right c h m left i ↔ i.leaves c h m left = i.x86 c h m := by
  obtain ⟨m', next, hrun, hleaves⟩ := runs c h m left i
  constructor
  · rintro ⟨m'', next', hrun', hx86⟩
    rw [hrun, Option.some_inj, Prod.mk.injEq] at hrun'
    obtain ⟨rfl, rfl⟩ := hrun'
    exact hleaves.symm.trans hx86
  · intro hx86
    exact ⟨m', next, hrun, hleaves.trans hx86⟩

end StackInsn
end FeS2.Decoder
