import FeS2.Decoder.StackUops

/-!
When the stack instructions do what x86 says: no carry flag is left over, addresses and stack
pointers are not cut in 32-bit mode, and sixteen bits leave nothing above them.
-/

namespace FeS2.Decoder

/-! Cut words -/

theorem Leftover.carryWord_eq (l : Leftover) : l.carryWord = if l.carry then 1 else 0 := by
  unfold carryWord
  cases l.carry <;> rfl

theorem Leftover.sub_carryWord {l : Leftover} (hcarry : l.carry = false) (x : W64) :
    x - l.carryWord = x := by
  rw [l.carryWord_eq, hcarry]
  exact BitVec.sub_zero x

theorem Leftover.add_carryWord {l : Leftover} (hcarry : l.carry = false) (x : W64) :
    x + l.carryWord = x := by
  rw [l.carryWord_eq, hcarry]
  exact BitVec.add_zero x

/-- A carry is seen in the last bit. -/
theorem Leftover.setWidth_sub_iff (l : Leftover) (x : W64) :
    (x - l.carryWord).setWidth 1 = x.setWidth 1 ↔ l.carry = false := by
  rw [l.carryWord_eq, StackInsn.setWidth_sub_word (by decide)]
  generalize x.setWidth 1 = b
  cases l.carry <;> revert b <;> decide

theorem Leftover.setWidth_add_iff (l : Leftover) (x : W64) :
    (x + l.carryWord).setWidth 1 = x.setWidth 1 ↔ l.carry = false := by
  rw [l.carryWord_eq, BitVec.setWidth_add _ _ (by decide)]
  generalize x.setWidth 1 = b
  cases l.carry <;> revert b <;> decide

/-- Different sizes move the stack pointer to different places, with a carry and without one. -/
theorem Leftover.sub_word_inj (l : Leftover) (x : W64) {size size' : Size} (hsize : size ≠ .w8)
    (hsize' : size' ≠ .w8)
    (heq : (x - size.word - l.carryWord).setWidth 3 = (x - size'.word).setWidth 3) :
    size = size' := by
  rw [l.carryWord_eq, StackInsn.setWidth_sub_word (by decide),
    StackInsn.setWidth_sub_word (by decide), StackInsn.setWidth_sub_word (by decide)] at heq
  revert heq hsize hsize'
  generalize x.setWidth 3 = y
  cases l.carry <;> cases size <;> cases size' <;> revert y <;> decide

theorem Leftover.add_word_inj (l : Leftover) (x : W64) {size size' : Size} (hsize : size ≠ .w8)
    (hsize' : size' ≠ .w8)
    (heq : (x + size.word + l.carryWord).setWidth 3 = (x + size'.word).setWidth 3) :
    size = size' := by
  rw [l.carryWord_eq, BitVec.setWidth_add _ _ (by decide), BitVec.setWidth_add _ _ (by decide),
    BitVec.setWidth_add _ _ (by decide)] at heq
  revert heq hsize hsize'
  generalize x.setWidth 3 = y
  cases l.carry <;> cases size <;> cases size' <;> revert y <;> decide

namespace InsnHead
variable (h : InsnHead)

theorem cut_setWidth (x : W64) {n : Nat} (hn : n ≤ 32) : (h.cut x).setWidth n = x.setWidth n := by
  unfold cut
  cases h.use64 with
  | true => rfl
  | false =>
      rw [if_neg (by decide), BitVec.setWidth_setWidth_of_le _ (hn.trans (by decide)),
        BitVec.setWidth_setWidth_of_le _ hn]

theorem cut_cut (x : W64) : h.cut (h.cut x) = h.cut x := by
  unfold cut
  cases h.use64 with
  | true => rfl
  | false =>
      have hlow : ((x.setWidth 32).setWidth 64).setWidth 32 = x.setWidth 32 := by
        rw [BitVec.setWidth_setWidth_of_le _ (by decide), BitVec.setWidth_eq]
      exact congrArg (BitVec.setWidth 64) hlow

theorem modeSize_merge (x y : W64) : x86Merge h.modeSize x y = h.cut y := by
  unfold modeSize cut
  cases h.use64 <;> rfl

theorem opSize_cases : h.opSize = h.modeSize ∨ h.opSize = .w16 := by
  have hrex := h.use64_of_mode64
  unfold opSize modeSize
  cases hmode : h.rex.mode64 with
  | true =>
      rw [hrex hmode]
      exact .inl rfl
  | false =>
      cases h.opsizePrefix with
      | true => exact .inr rfl
      | false => exact .inl rfl

/-- A REX prefix for 64 bits takes no part in `enter`, `leave`, `ret` and pushes of immediates. -/
theorem prefixSize_cases : h.prefixSize = h.opSize ∨
    h.prefixSize = .w16 ∧ h.opSize = .w64 ∧ h.use64 = true := by
  have hrex := h.use64_of_mode64
  unfold prefixSize opSize modeSize
  cases hmode : h.rex.mode64 with
  | true =>
      rw [hrex hmode]
      cases h.opsizePrefix with
      | true => exact .inr ⟨rfl, rfl, rfl⟩
      | false => exact .inl rfl
  | false => exact .inl rfl

end InsnHead

namespace StackInsn
variable (h : InsnHead) (imm : W64) (l : Leftover) (x : W64)

theorem lowered_mode : lowered h.modeSize imm l x = h.cut (x - imm) ↔ l.carry = false := by
  rw [lowered, h.modeSize_merge]
  constructor
  · intro heq
    have hbit := congrArg (BitVec.setWidth 1) heq
    rw [h.cut_setWidth _ (by decide), h.cut_setWidth _ (by decide)] at hbit
    exact (l.setWidth_sub_iff _).mp hbit
  · intro hcarry
    rw [Leftover.sub_carryWord hcarry]

theorem lowered_whole : lowered .w64 imm l x = h.cut (x - imm) ↔
    l.carry = false ∧ h.cut (x - imm) = x - imm := by
  have hmerge : lowered .w64 imm l x = x - imm - l.carryWord := rfl
  rw [hmerge]
  constructor
  · intro heq
    have hbit := congrArg (BitVec.setWidth 1) heq
    rw [h.cut_setWidth _ (by decide)] at hbit
    have hcarry := (l.setWidth_sub_iff _).mp hbit
    rw [Leftover.sub_carryWord hcarry] at heq
    exact ⟨hcarry, heq.symm⟩
  · rintro ⟨hcarry, hcut⟩
    rw [Leftover.sub_carryWord hcarry, hcut]

theorem raised_mode : raised h.modeSize imm l x = h.cut (x + imm) ↔ l.carry = false := by
  rw [raised, h.modeSize_merge]
  constructor
  · intro heq
    have hbit := congrArg (BitVec.setWidth 1) heq
    rw [h.cut_setWidth _ (by decide), h.cut_setWidth _ (by decide)] at hbit
    exact (l.setWidth_add_iff _).mp hbit
  · intro hcarry
    rw [Leftover.add_carryWord hcarry]

theorem raised_whole : raised .w64 imm l x = h.cut (x + imm) ↔
    l.carry = false ∧ h.cut (x + imm) = x + imm := by
  have hmerge : raised .w64 imm l x = x + imm + l.carryWord := rfl
  rw [hmerge]
  constructor
  · intro heq
    have hbit := congrArg (BitVec.setWidth 1) heq
    rw [h.cut_setWidth _ (by decide)] at hbit
    have hcarry := (l.setWidth_add_iff _).mp hbit
    rw [Leftover.add_carryWord hcarry] at heq
    exact ⟨hcarry, heq.symm⟩
  · rintro ⟨hcarry, hcut⟩
    rw [Leftover.add_carryWord hcarry, hcut]

end StackInsn

/-! Merged registers -/

/-- What has zeros above the size is what x86 merges, where nothing was above sixteen bits. -/
theorem zeroExtended_merge {size : Size} (hsize : size ≠ .w8) (old x y : W64) :
    x86Merge size 0 x = x86Merge size old y ↔
      x.setWidth size.bits = y.setWidth size.bits ∧ (size = .w16 → old.toNat < 2 ^ 16) := by
  cases size with
  | w8 => exact absurd rfl hsize
  | w16 =>
      have hhigh : (0 : W64).extractLsb' 16 48 = old.extractLsb' 16 48 ↔ old.toNat < 2 ^ 16 := by
        have hold := old.isLt
        rw [← BitVec.toNat_inj, BitVec.extractLsb'_toNat, BitVec.extractLsb'_toNat,
          Nat.shiftRight_eq_div_pow, Nat.shiftRight_eq_div_pow]
        change 0 = _ ↔ _
        omega
      rw [x86Merge_word_eq, hhigh]
      exact and_congr_right fun _ => ⟨fun hlt _ => hlt, fun hlt => hlt rfl⟩
  | w32 =>
      refine (AddressUse.zeroExtended_eq_iff x y).trans ⟨fun heq => ⟨heq, ?_⟩, fun heq => heq.1⟩
      rintro ⟨⟩
  | w64 =>
      refine ⟨fun heq => ⟨congrArg _ heq, ?_⟩, fun heq => ?_⟩
      · rintro ⟨⟩
      · have hwhole : x.setWidth 64 = y.setWidth 64 := heq.1
        rw [BitVec.setWidth_eq, BitVec.setWidth_eq] at hwhole
        exact hwhole

theorem x86Merge_lowBits (size : Size) (rd x : W64) {n : Nat} (hn : n ≤ 8) :
    (x86Merge size rd x).setWidth n = x.setWidth n := by
  have hsize : n ≤ size.bits := hn.trans (by cases size <;> decide)
  rw [← BitVec.setWidth_setWidth_of_le (x86Merge size rd x) hsize, x86Merge_setWidth,
    BitVec.setWidth_setWidth_of_le _ hsize]

theorem loaded_merge {size : Size} (hsize : size ≠ .w8) (m : Machine) (a b old : W64) :
    m.load a size = x86Merge size old (m.load b size) ↔
      m.load a size = m.load b size ∧ (size = .w16 → old.toNat < 2 ^ 16) := by
  have hload : ∀ addr, x86Merge size 0 (m.load addr size) = m.load addr size := by
    intro addr
    rw [x86Merge_zero, m.load_setWidth]
  have hsame : (m.load a size).setWidth size.bits = (m.load b size).setWidth size.bits ↔
      m.load a size = m.load b size := by
    constructor
    · intro heq
      rw [← m.load_setWidth a, ← m.load_setWidth b, heq]
    · exact congrArg _
  have hmerge := zeroExtended_merge hsize old (m.load a size) (m.load b size)
  rw [hload, hsame] at hmerge
  exact hmerge

namespace StackInsn
variable (c : DecodeContext) (h : InsnHead) (m : Machine) (left : Nat → Leftover)

theorem opSize_ne : h.opSize ≠ .w8 := by
  cases h.opSize_cases with
  | inl hmode =>
      rw [hmode]
      unfold InsnHead.modeSize
      split <;> rintro ⟨⟩
  | inr hsize =>
      rw [hsize]
      rintro ⟨⟩

theorem prefixSize_ne : h.prefixSize ≠ .w8 := by
  cases h.prefixSize_cases with
  | inl hsize =>
      rw [hsize]
      exact opSize_ne h
  | inr hsize =>
      rw [hsize.1]
      rintro ⟨⟩

theorem modeSize_ne : h.modeSize ≠ .w8 := by
  unfold InsnHead.modeSize
  split <;> rintro ⟨⟩

/-! The conditions -/

/-- A push is where x86 pushes, or leaves the same. -/
def SamePush (v w : W64) : Prop :=
  let place := m.data (.gpr .rsp) - h.opSize.word
  m.SameStore h.opSize place v (h.cut place) w

/-- What is loaded at the stack pointer is on top of the stack. -/
def SameTop : Prop := m.load (m.data (.gpr .rsp)) h.opSize = top h m

/-- The stack pointer is not cut. -/
def Uncut (x : W64) : Prop := h.cut x = x

/-- Of a register that gets sixteen bits nothing else is set. -/
def NothingAbove (x : W64) : Prop := h.opSize = .w16 → (h.cut x).toNat < 2 ^ 16

/-- What a pop to a register needs. -/
def PopMeets (r : Gpr) (l : Leftover) (moved : Bool) : Prop :=
  let next := m.data (.gpr .rsp) + h.opSize.word
  SameTop h m ∧
    if r = .rsp then NothingAbove h next
    else NothingAbove h (m.data (.gpr r)) ∧ l.carry = false ∧ (moved = true → Uncut h next)

def Meets : StackInsn → Prop
  | push r => (left 0).carry = false ∧ SamePush h m (m.data (.gpr r)) (m.data (.gpr r))
  | pop r => PopMeets h m r (left 0) false
  | pushImm _ _ =>
      h.prefixSize = h.opSize ∧ (left 0).carry = false ∧
        Uncut h (m.data (.gpr .rsp) - h.opSize.word)
  | pushEv ra =>
      (left 0).carry = false ∧
        SamePush h m (brought c h m left .temp7
          [store .temp7 h.opSize, move .sub h.modeSize h.opSize.word] ra) (operand c h m ra)
  | popEv rd =>
      match rd with
      | .reg r => PopMeets h m r (left 0) true
      | .mem f =>
          (left 0).carry = false ∧ Uncut h (m.data (.gpr .rsp) + h.opSize.word) ∧
            m.SameStore h.opSize (storePlace c h m left f) (m.load (m.data (.gpr .rsp)) h.opSize)
              (popPlace c h m f) (top h m)
  | call disp =>
      h.opSize = h.modeSize ∧ (left 1).carry = false ∧ SamePush h m c.rip c.rip ∧
        c.rip + disp = target h (c.rip + disp)
  | jmp disp => c.rip + disp = target h (c.rip + disp)
  | callEv ra =>
      h.opSize = h.modeSize ∧ (left 1).carry = false ∧ SamePush h m c.rip c.rip ∧
        match ra with
        | .reg r => r ≠ .rsp ∧ m.data (.gpr r) = target h (m.data (.gpr r))
        | .mem f =>
            brought c h m left .temp0 (pushRip c h .temp6 ++ [jmpReg .temp0 h.opSize]) (.mem f) =
              operand c h m (.mem f)
  | jmpEv ra =>
      match ra with
      | .reg r => m.data (.gpr r) = target h (m.data (.gpr r))
      | .mem f =>
          brought c h m left .temp0 [jmpReg .temp0 h.opSize] (.mem f) = operand c h m (.mem f)
  | ret addend =>
      h.prefixSize = h.opSize ∧ (left 1).carry = false ∧ SameTop h m ∧
        Uncut h (m.data (.gpr .rsp) + h.opSize.word + addend.setWidth 64)
  | enter bytes =>
      let frame := m.data (.gpr .rsp) - h.opSize.word
      let rbp := m.data (.gpr .rbp)
      h.prefixSize = h.opSize ∧ (left 2).carry = false ∧ (left 0).carry = false ∧
        SamePush h m rbp rbp ∧ NothingAbove h rbp ∧
        (h.opSize = .w16 → Uncut h frame ∧ bytes.toNat ≤ frame.toNat % 2 ^ 16)
  | leave =>
      let rbp := m.data (.gpr .rbp)
      h.prefixSize = h.opSize ∧ (left 0).carry = false ∧ NothingAbove h rbp ∧
        Uncut h (h.cut rbp + h.opSize.word)

/-! Pushes -/

theorem pushes_iff {size : Size} (hsize : size = h.opSize) (l : Leftover) (v w rip rip' : W64) :
    pushes m size h.modeSize l v rip = pushed h m w rip' ↔
      l.carry = false ∧ SamePush h m v w ∧ rip = rip' := by
  subst hsize
  rw [pushes, pushed, StackEffect.mk.injEq, (Function.update_injective _ _).eq_iff, down,
    lowered_mode, Machine.store_eq_iff]
  rfl

/-- The return address is pushed at the size of the mode. -/
theorem pushes_modeSize_iff (l : Leftover) (v w rip rip' : W64) :
    pushes m h.modeSize h.modeSize l v rip = pushed h m w rip' ↔
      h.opSize = h.modeSize ∧ l.carry = false ∧ SamePush h m v w ∧ rip = rip' := by
  constructor
  · intro heq
    have hrsp := congrFun (congrArg StackEffect.gpr heq) .rsp
    unfold pushes pushed at hrsp
    dsimp only at hrsp
    rw [Function.update_self, Function.update_self, lowered, h.modeSize_merge, down] at hrsp
    have hlow := congrArg (BitVec.setWidth 3) hrsp
    rw [h.cut_setWidth _ (by decide), h.cut_setWidth _ (by decide)] at hlow
    have hsize := l.sub_word_inj _ (modeSize_ne h) (opSize_ne h) hlow
    exact ⟨hsize.symm, (pushes_iff h m hsize l v w rip rip').mp heq⟩
  · rintro ⟨hsize, hmeets⟩
    exact (pushes_iff h m hsize.symm l v w rip rip').mpr hmeets

/-- An immediate is pushed with the stack pointer moved on whole words. -/
theorem pushes_whole_iff (l : Leftover) (v rip : W64) :
    pushes m h.prefixSize .w64 l v rip = pushed h m v rip ↔
      h.prefixSize = h.opSize ∧ l.carry = false ∧
        Uncut h (m.data (.gpr .rsp) - h.opSize.word) := by
  rw [pushes, pushed, StackEffect.mk.injEq, (Function.update_injective _ _).eq_iff]
  constructor
  · rintro ⟨hrsp, -⟩
    have hlow := congrArg (BitVec.setWidth 3) hrsp
    rw [down, h.cut_setWidth _ (by decide)] at hlow
    have hsize := l.sub_word_inj _ (prefixSize_ne h) (opSize_ne h) hlow
    rw [hsize] at hrsp
    exact ⟨hsize, (lowered_whole h _ _ _).mp hrsp⟩
  · rintro ⟨hsize, hwhole⟩
    rw [hsize]
    refine ⟨(lowered_whole h _ _ _).mpr hwhole, ?_, rfl⟩
    rw [down, hwhole.2]

/-! Pops -/

theorem update_pair {r : Gpr} (hr : r ≠ .rsp) (f : Gpr → W64) (x y v w : W64) :
    Function.update (Function.update f r x) .rsp y =
        Function.update (Function.update f r v) .rsp w ↔ x = v ∧ y = w := by
  constructor
  · intro heq
    have hreg := congrFun heq r
    have hrsp := congrFun heq .rsp
    rw [Function.update_of_ne hr, Function.update_of_ne hr, Function.update_self,
      Function.update_self] at hreg
    rw [Function.update_self, Function.update_self] at hrsp
    exact ⟨hreg, hrsp⟩
  · rintro ⟨rfl, rfl⟩
    rfl

theorem update_two {r : Gpr} (hr : r ≠ .rsp) (f : Gpr → W64) (x y v w : W64) :
    Function.update (Function.update f r x) .rsp y =
        Function.update (Function.update f .rsp w) r v ↔ x = v ∧ y = w := by
  rw [Function.update_comm hr.symm]
  exact update_pair hr f x y v w

theorem popGpr_iff (r : Gpr) (moved : Bool) (l : Leftover) (rip : W64) :
    (⟨popGpr m r h.opSize (if moved then .w64 else h.modeSize) l, m.memory, rip⟩ :
      StackEffect) = popped h m r rip ↔ PopMeets h m r l moved := by
  have hmerge := loaded_merge (opSize_ne h) m (m.data (.gpr .rsp)) (h.cut (m.data (.gpr .rsp)))
  have hgpr : (⟨popGpr m r h.opSize (if moved then .w64 else h.modeSize) l, m.memory, rip⟩ :
      StackEffect) = popped h m r rip ↔
      popGpr m r h.opSize (if moved then .w64 else h.modeSize) l = (popped h m r rip).gpr := by
    rw [popped, StackEffect.mk.injEq]
    exact ⟨fun heq => heq.1, fun heq => ⟨heq, rfl, rfl⟩⟩
  rw [hgpr, popGpr, popped, PopMeets]
  by_cases hr : r = .rsp
  · subst hr
    rw [if_pos rfl, if_pos rfl]
    dsimp only
    rw [Function.update_self, Function.update_idem, (Function.update_injective _ _).eq_iff, top,
      hmerge, up, h.cut_cut]
    rfl
  · rw [if_neg hr, if_neg hr]
    dsimp only
    rw [Function.update_of_ne hr, update_two hr, top, hmerge]
    have hmoved : raised (if moved then .w64 else h.modeSize) h.opSize.word l
        (m.data (.gpr .rsp)) = up h m ↔
        l.carry = false ∧ (moved = true → Uncut h (m.data (.gpr .rsp) + h.opSize.word)) := by
      cases moved with
      | true =>
          rw [if_pos rfl, up, raised_whole]
          exact and_congr_right fun _ => ⟨fun hcut _ => hcut, fun hcut => hcut rfl⟩
      | false =>
          rw [if_neg (by decide), up, raised_mode]
          exact ⟨fun hcarry => ⟨hcarry, by rintro ⟨⟩⟩, fun hmeets => hmeets.1⟩
    rw [hmoved, and_assoc]
    rfl

/-! Branches -/

theorem load_target (addr : W64) : target h (m.load addr h.opSize) = m.load addr h.opSize :=
  m.load_setWidth addr h.opSize

theorem branched_iff (rip rip' : W64) : branched m rip = branched m rip' ↔ rip = rip' := by
  rw [branched, branched, StackEffect.mk.injEq]
  exact ⟨fun heq => heq.2.2, fun heq => ⟨rfl, rfl, heq⟩⟩

theorem ret_iff (addend : BitVec 16) :
    (ret addend).leaves c h m left = (ret addend).x86 c h m ↔ (ret addend).Meets c h m left := by
  let rsp := m.data (.gpr .rsp)
  let wide := addend.setWidth 64
  have hswap : ∀ size : Size, rsp + (size.word + wide) = rsp + wide + size.word := by
    intro size
    grind
  rw [leaves, x86, StackEffect.mk.injEq, (Function.update_injective _ _).eq_iff, Meets]
  constructor
  · rintro ⟨hrsp, -, hrip⟩
    have hlow := congrArg (BitVec.setWidth 3) hrsp
    have hleft : raised .w64 (h.prefixSize.word + wide) (left 1) rsp =
        rsp + wide + h.prefixSize.word + (left 1).carryWord := by
      rw [← hswap]
      rfl
    have hright : rsp + h.opSize.word + wide = rsp + wide + h.opSize.word := by grind
    rw [hleft, hright, h.cut_setWidth _ (by decide)] at hlow
    have hsize := (left 1).add_word_inj _ (prefixSize_ne h) (opSize_ne h) hlow
    rw [hsize] at hrsp hrip
    have hassoc : rsp + h.opSize.word + wide = rsp + (h.opSize.word + wide) :=
      BitVec.add_assoc _ _ _
    rw [hassoc] at hrsp
    have hraised := (raised_whole h _ _ _).mp hrsp
    refine ⟨hsize, hraised.1, hrip, ?_⟩
    rw [hassoc]
    exact hraised.2
  · rintro ⟨hsize, hcarry, htop, huncut⟩
    rw [hsize]
    refine ⟨?_, rfl, htop⟩
    have hassoc : rsp + h.opSize.word + wide = rsp + (h.opSize.word + wide) :=
      BitVec.add_assoc _ _ _
    rw [hassoc] at huncut ⊢
    exact (raised_whole h _ _ _).mpr ⟨hcarry, huncut⟩

/-! Frames -/

theorem toNat_mergeWord (rd x : W64) :
    (x86Merge .w16 rd x).toNat = rd.toNat / 2 ^ 16 * 2 ^ 16 + x.toNat % 2 ^ 16 := by
  have hrd := rd.isLt
  have hlow : (x.setWidth 16).toNat < 2 ^ 16 := (x.setWidth 16).isLt
  have happend : (x86Merge .w16 rd x).toNat =
      (rd.extractLsb' 16 48).toNat <<< 16 ||| (x.setWidth 16).toNat := BitVec.toNat_append _ _
  rw [happend, ← Nat.shiftLeft_add_eq_or_of_lt hlow, Nat.shiftLeft_eq, BitVec.toNat_setWidth,
    BitVec.extractLsb'_toNat, Nat.shiftRight_eq_div_pow]
  omega

/-- Words are taken modulo the addresses of the mode. -/
theorem exists_toNat_cut :
    ∃ w, (w = 2 ^ 64 ∨ w = 2 ^ 32) ∧ ∀ x, (h.cut x).toNat = x.toNat % w := by
  unfold InsnHead.cut
  cases h.use64 with
  | true => exact ⟨2 ^ 64, .inl rfl, fun x => (Nat.mod_eq_of_lt x.isLt).symm⟩
  | false =>
      refine ⟨2 ^ 32, .inr rfl, fun x => ?_⟩
      rw [if_neg (by decide), BitVec.toNat_setWidth, BitVec.toNat_setWidth]
      omega

/-- Where only sixteen bits are lowered nothing may be borrowed from those above. -/
theorem lowered_word_iff (frame : W64) (bytes : BitVec 16) (l : Leftover) :
    lowered .w16 (bytes.setWidth 64) l frame = h.cut (frame - bytes.setWidth 64) ↔
      l.carry = false ∧ Uncut h frame ∧ bytes.toNat ≤ frame.toNat % 2 ^ 16 := by
  have hframe := frame.isLt
  have hbytes := bytes.isLt
  have hwide : (bytes.setWidth 64).toNat = bytes.toNat := BitVec.toNat_setWidth_of_le (by decide)
  have hclear : l.carry = false → (lowered .w16 (bytes.setWidth 64) l frame =
      h.cut (frame - bytes.setWidth 64) ↔
        Uncut h frame ∧ bytes.toNat ≤ frame.toNat % 2 ^ 16) := by
    intro hcarry
    obtain ⟨w, hw, hcut⟩ := exists_toNat_cut h
    rw [lowered, Leftover.sub_carryWord hcarry, Uncut, ← BitVec.toNat_inj, ← BitVec.toNat_inj,
      toNat_mergeWord, hcut, hcut, BitVec.toNat_sub, hwide]
    cases hw with
    | inl hw =>
        rw [hw]
        omega
    | inr hw =>
        rw [hw]
        omega
  constructor
  · intro heq
    have hbit := congrArg (BitVec.setWidth 1) heq
    rw [lowered, x86Merge_lowBits _ _ _ (by decide), h.cut_setWidth _ (by decide)] at hbit
    have hcarry := (l.setWidth_sub_iff _).mp hbit
    exact ⟨hcarry, (hclear hcarry).mp heq⟩
  · rintro ⟨hcarry, hfits⟩
    exact (hclear hcarry).mpr hfits

theorem modeSize_ne_word : h.modeSize ≠ .w16 := by
  unfold InsnHead.modeSize
  split <;> rintro ⟨⟩

/-- The stack pointer is lowered at the size of the operand. -/
theorem lowered_opSize_iff (frame : W64) (bytes : BitVec 16) (l : Leftover) :
    lowered h.opSize (bytes.setWidth 64) l frame = h.cut (frame - bytes.setWidth 64) ↔
      l.carry = false ∧
        (h.opSize = .w16 → Uncut h frame ∧ bytes.toNat ≤ frame.toNat % 2 ^ 16) := by
  cases h.opSize_cases with
  | inl hmode =>
      rw [hmode, lowered_mode]
      exact ⟨fun hcarry => ⟨hcarry, fun hword => absurd hword (modeSize_ne_word h)⟩,
        fun hmeets => hmeets.1⟩
  | inr hword =>
      rw [hword, lowered_word_iff]
      exact and_congr_right fun _ => ⟨fun hfits _ => hfits, fun hfits => hfits rfl⟩

theorem cut_opSize (x : W64) : (h.cut x).setWidth h.opSize.bits = x.setWidth h.opSize.bits := by
  have hmode : (h.cut x).setWidth h.modeSize.bits = x.setWidth h.modeSize.bits := by
    rw [← h.modeSize_merge x x, x86Merge_setWidth]
  cases h.opSize_cases with
  | inl hsize => rw [hsize, hmode]
  | inr hsize =>
      rw [hsize]
      exact h.cut_setWidth x (by decide)

theorem cut_sub (x y : W64) : h.cut (h.cut x - y) = h.cut (x - y) := by
  rw [← h.modeSize_merge 0, ← h.modeSize_merge 0 (x - y)]
  apply x86Merge_congr
  rw [setWidth_sub_word h.modeSize.bits_le, setWidth_sub_word h.modeSize.bits_le,
    ← h.modeSize_merge x x, x86Merge_setWidth]

theorem cut_add (x y : W64) : h.cut (h.cut x + y) = h.cut (x + y) := by
  rw [← h.modeSize_merge 0, ← h.modeSize_merge 0 (x + y)]
  apply x86Merge_congr
  rw [BitVec.setWidth_add _ _ h.modeSize.bits_le, BitVec.setWidth_add _ _ h.modeSize.bits_le,
    ← h.modeSize_merge x x, x86Merge_setWidth]

/-- The base pointer that `enter` leaves. -/
theorem frame_iff (size : Size) (l : Leftover) (rbp rsp : W64) (hsize : size ≠ .w8) :
    x86Merge size 0 (lowered .w64 size.word l rsp) =
        x86Merge h.opSize (h.cut rbp) (h.cut (rsp - h.opSize.word)) ↔
      size = h.opSize ∧ l.carry = false ∧ NothingAbove h rbp := by
  have hframe : lowered .w64 size.word l rsp = rsp - size.word - l.carryWord := rfl
  rw [hframe]
  constructor
  · intro heq
    have hlow := congrArg (BitVec.setWidth 3) heq
    rw [x86Merge_lowBits _ _ _ (by decide), x86Merge_lowBits _ _ _ (by decide),
      h.cut_setWidth _ (by decide)] at hlow
    have hsame := l.sub_word_inj _ hsize (opSize_ne h) hlow
    have hbit := congrArg (BitVec.setWidth 1) heq
    rw [x86Merge_lowBits _ _ _ (by decide), x86Merge_lowBits _ _ _ (by decide),
      h.cut_setWidth _ (by decide), hsame] at hbit
    rw [hsame, zeroExtended_merge (opSize_ne h)] at heq
    exact ⟨hsame, (l.setWidth_sub_iff _).mp hbit, heq.2⟩
  · rintro ⟨hsame, hcarry, habove⟩
    rw [hsame, Leftover.sub_carryWord hcarry, zeroExtended_merge (opSize_ne h), cut_opSize]
    exact ⟨rfl, habove⟩

theorem enter_iff (bytes : BitVec 16) :
    (enter bytes).leaves c h m left = (enter bytes).x86 c h m ↔
      (enter bytes).Meets c h m left := by
  let place := m.data (.gpr .rsp) - h.opSize.word
  have hdown : down h m = h.cut place := rfl
  rw [leaves, x86, StackEffect.mk.injEq, Function.update_comm (by decide : Gpr.rsp ≠ .rbp),
    Function.update_idem,
    update_pair (by decide), hdown, cut_sub, frame_iff h _ _ _ _ (prefixSize_ne h), Meets]
  constructor
  · rintro ⟨⟨⟨hsize, hcarry, habove⟩, hrsp⟩, hmem, -⟩
    rw [hsize] at hrsp hmem
    have hframe : lowered .w64 h.opSize.word (left 2) (m.data (.gpr .rsp)) = place :=
      Leftover.sub_carryWord hcarry _
    rw [hframe, lowered_opSize_iff] at hrsp
    exact ⟨hsize, hcarry, hrsp.1, (m.store_eq_iff _ _ _ _ _).mp hmem, habove, hrsp.2⟩
  · rintro ⟨hsize, hcarry, hcarry', hpush, habove, hfits⟩
    have hframe : lowered .w64 h.opSize.word (left 2) (m.data (.gpr .rsp)) = place :=
      Leftover.sub_carryWord hcarry _
    rw [hsize, hframe, lowered_opSize_iff]
    exact ⟨⟨⟨rfl, hcarry, habove⟩, hcarry', hfits⟩, (m.store_eq_iff _ _ _ _ _).mpr hpush, rfl⟩

/-- A register with nothing above its size is the one that the mode sees. -/
theorem NothingAbove.merge {x : W64} (habove : NothingAbove h x) :
    x86Merge h.opSize 0 x = h.cut x := by
  cases h.opSize_cases with
  | inl hmode => rw [hmode, h.modeSize_merge]
  | inr hword =>
      have hlt := habove hword
      have hlow : (h.cut x).setWidth 16 = x.setWidth 16 := h.cut_setWidth x (by decide)
      rw [hword, x86Merge_zero]
      change (x.setWidth 16).setWidth 64 = _
      rw [← hlow]
      apply BitVec.eq_of_toNat_eq
      rw [BitVec.toNat_setWidth, BitVec.toNat_setWidth]
      omega

theorem leave_iff :
    leave.leaves c h m left = leave.x86 c h m ↔ leave.Meets c h m left := by
  let rbp := m.data (.gpr .rbp)
  have hraised : ∀ size l x, raised .w64 size l x = x + size + l.carryWord := fun _ _ _ => rfl
  rw [leaves, x86, StackEffect.mk.injEq, Meets, Function.update_comm (by decide : Gpr.rsp ≠ .rbp),
    Function.update_idem,
    update_two (by decide)]
  constructor
  · rintro ⟨⟨hload, hrsp⟩, -⟩
    have hlow := congrArg (BitVec.setWidth 3) hrsp
    rw [hraised, h.cut_setWidth _ (by decide), BitVec.setWidth_add rbp _ (by decide),
      ← x86Merge_lowBits h.prefixSize 0 rbp (by decide),
      ← BitVec.setWidth_add _ _ (by decide)] at hlow
    have hsize := (left 0).add_word_inj _ (prefixSize_ne h) (opSize_ne h) hlow
    rw [hsize, loaded_merge (opSize_ne h)] at hload
    have habove : NothingAbove h rbp := hload.2
    rw [hsize, habove.merge h, ← cut_add, raised_whole] at hrsp
    exact ⟨hsize, hrsp.1, habove, hrsp.2⟩
  · rintro ⟨hsize, hcarry, habove, huncut⟩
    rw [hsize, NothingAbove.merge h habove, loaded_merge (opSize_ne h), ← cut_add, raised_whole]
    exact ⟨⟨⟨rfl, habove⟩, hcarry, huncut⟩, rfl, rfl⟩

/-! Results -/

theorem popEv_mem_iff (f : StackAddress) :
    (popEv (.mem f)).leaves c h m left = (popEv (.mem f)).x86 c h m ↔
      (popEv (.mem f)).Meets c h m left := by
  rw [leaves, x86, StackEffect.mk.injEq, (Function.update_injective _ _).eq_iff, up, raised_whole,
    Machine.store_eq_iff, Meets, and_assoc]
  constructor
  · rintro ⟨hcarry, hcut, hstore, -⟩
    exact ⟨hcarry, hcut, hstore⟩
  · rintro ⟨hcarry, hcut, hstore⟩
    exact ⟨hcarry, hcut, hstore, rfl⟩

/-- A target in the stack pointer is lost. -/
theorem lowered_ne_target (l : Leftover) (hcarry : l.carry = false) (size : Size) (x : W64) :
    lowered size size.word l x ≠ target h x := by
  intro heq
  have hlow := congrArg (BitVec.setWidth 4) heq
  have hbits : 4 ≤ h.opSize.bits := by cases h.opSize <;> decide
  rw [lowered, Leftover.sub_carryWord hcarry, x86Merge_lowBits _ _ _ (by decide), target,
    BitVec.setWidth_setWidth_of_le _ (by decide), BitVec.setWidth_setWidth_of_le _ hbits,
    setWidth_sub_word (by decide)] at hlow
  revert hlow
  generalize x.setWidth 4 = y
  cases size <;> revert y <;> decide

theorem callEv_iff (ra : StackOperand) :
    (callEv ra).leaves c h m left = (callEv ra).x86 c h m ↔ (callEv ra).Meets c h m left := by
  cases ra with
  | mem f =>
      rw [leaves, x86, pushes_modeSize_iff, operand, load_target]
      rfl
  | reg r =>
      rw [leaves, x86, pushes_modeSize_iff, Meets, operand]
      refine and_congr_right fun _ => and_congr_right fun hcarry => and_congr_right fun _ => ?_
      by_cases hr : r = .rsp
      · rw [hr, Function.update_self]
        exact ⟨fun heq => absurd heq (lowered_ne_target h _ hcarry _ _),
          fun hmeets => absurd rfl hmeets.1⟩
      · rw [Function.update_of_ne hr]
        exact ⟨fun heq => ⟨hr, heq⟩, fun hmeets => hmeets.2⟩

theorem leaves_eq_iff (i : StackInsn) :
    i.leaves c h m left = i.x86 c h m ↔ i.Meets c h m left := by
  cases i with
  | push r =>
      rw [leaves, x86, pushes_iff h m rfl, eq_self, and_true]
      rfl
  | pop r => exact popGpr_iff h m r false (left 0) c.rip
  | pushImm byte v => exact pushes_whole_iff h m (left 0) _ c.rip
  | pushEv ra =>
      rw [leaves, x86, pushes_iff h m rfl, eq_self, and_true]
      rfl
  | popEv rd =>
      cases rd with
      | reg r => exact popGpr_iff h m r true (left 0) c.rip
      | mem f => exact popEv_mem_iff c h m left f
  | call disp => exact pushes_modeSize_iff h m (left 1) c.rip c.rip _ _
  | jmp disp => exact branched_iff m _ _
  | callEv ra => exact callEv_iff c h m left ra
  | jmpEv ra =>
      cases ra with
      | reg r => exact branched_iff m _ _
      | mem f =>
          rw [leaves, x86, branched_iff, operand, load_target]
          rfl
  | ret addend => exact ret_iff c h m left addend
  | enter bytes => exact enter_iff c h m left bytes
  | leave => exact leave_iff c h m left

/-- The uops leave what x86 does exactly under the conditions. -/
theorem stack_right_iff (i : StackInsn) : Right c h m left i ↔ i.Meets c h m left :=
  (right_iff c h m left i).trans (leaves_eq_iff c h m left i)

/-! Operands in memory -/

/-- The address of an operand is that of x86 where its uops pick up no carry and x86 does not cut
it. -/
theorem place_iff (f : StackAddress) (us : List TransOp) (size : Size) :
    f.operand.place c left us size m = c.segment m + f.effective c.rip m h.truncates ↔
      carries left us (f.operand.addressGenerate c size).1 = 0 ∧
        (h.truncates = true → (f.sum c.rip m).toNat < 2 ^ 32) := by
  have hcarries : carries left us (f.operand.addressGenerate c size).1 < 2 ^ 16 :=
    Nat.lt_of_le_of_lt ((carries_le left us _).trans (f.operand.addressGenerate_length c size))
      (by decide)
  rw [MemOperand.place, f.operand_sum m f.wellFormed, BitVec.add_assoc, BitVec.add_right_inj]
  exact AddressUse.add_ofNat_eq_effective m f.toX86Address c.rip h.truncates hcarries

/-- The stack pointer that a pop leaves. -/
def moved : Machine := { m with regs := Function.update m.regs (.gpr .rsp) (up h m) }

theorem moved_data (r : Gpr) :
    (moved h m).data (.gpr r) = Function.update (gprs m) .rsp (up h m) r := by
  by_cases hr : r = .rsp
  · rw [hr, Function.update_self]
    exact Function.update_self (.gpr .rsp) (up h m) m.regs
  · have hne : Reg.gpr r ≠ .gpr .rsp := by
      rintro ⟨⟩
      exact hr rfl
    rw [Function.update_of_ne hr]
    exact Function.update_of_ne hne (up h m) m.regs

/-- The address with the size added where the base is the stack pointer is the one with the stack
pointer moved. -/
theorem storePlace_iff (f : StackAddress)
    (huncut : Uncut h (m.data (.gpr .rsp) + h.opSize.word)) :
    storePlace c h m left f = popPlace c h m f ↔
      carries left [(popTarget f.operand h.opSize).storeOp c h.opSize .temp7,
          move .add .w64 h.opSize.word]
        ((popTarget f.operand h.opSize).addressGenerate c h.opSize).1 = 0 ∧
        (h.truncates = true → (f.sum c.rip (moved h m)).toNat < 2 ^ 32) := by
  let g : X86Address :=
    { f.toX86Address with disp := if f.base = some .rsp then f.disp + h.opSize.word else f.disp }
  have hwell : g.WellFormed := f.wellFormed
  have hoperand : popTarget f.operand h.opSize = g.operand := by
    have hbase : f.operand.basereg = .gpr .rsp ↔ f.base = some .rsp := by
      unfold X86Address.operand
      cases hrel : f.ripRelative with
      | true =>
          rw [(f.wellFormed hrel).1]
          exact ⟨by rintro ⟨⟩, by rintro ⟨⟩⟩
      | false => cases f.base <;> simp
    unfold popTarget
    rw [if_congr hbase rfl rfl]
    rfl
  have hsum : g.sum c.rip m = f.sum c.rip (moved h m) := by
    have hindex : f.index.map (fun r => (moved h m).data (.gpr r) * BitVec.ofNat 64 (2 ^ f.scale)) =
        f.index.map fun r => m.data (.gpr r) * BitVec.ofNat 64 (2 ^ f.scale) := by
      cases hr : f.index with
      | none => rfl
      | some r =>
          have hne : r ≠ .rsp := fun heq => f.index_ne (heq ▸ hr)
          rw [Option.map_some, Option.map_some, moved_data, Function.update_of_ne hne]
          rfl
    have hdisp : g.disp = if f.base = some .rsp then f.disp + h.opSize.word else f.disp := rfl
    have hbase : g.base = f.base := rfl
    rw [X86Address.sum, X86Address.sum, hindex, hdisp, hbase]
    cases hr : f.base with
    | none =>
        have hne : (none : Option Gpr) ≠ some .rsp := by rintro ⟨⟩
        rw [if_neg hne]
        rfl
    | some r =>
        rw [Option.map_some, Option.map_some, moved_data]
        by_cases hrsp : r = .rsp
        · rw [hrsp, if_pos rfl, Function.update_self, up, huncut, Option.getD_some,
            Option.getD_some]
          grind
        · rw [if_neg fun heq => hrsp (Option.some_inj.mp heq), Function.update_of_ne hrsp]
          rfl
  have hcarries : carries left [g.operand.storeOp c h.opSize .temp7, move .add .w64 h.opSize.word]
      (g.operand.addressGenerate c h.opSize).1 < 2 ^ 16 :=
    Nat.lt_of_le_of_lt ((carries_le left _ _).trans (g.operand.addressGenerate_length c h.opSize))
      (by decide)
  rw [storePlace, hoperand, MemOperand.place, g.operand_sum m hwell, hsum, BitVec.add_assoc]
  exact (BitVec.add_right_inj _).trans (AddressUse.add_ofNat_eq_effective (moved h m)
    f.toX86Address c.rip h.truncates hcarries)

end StackInsn

namespace InsnHead

/-- `66 58`. -/
def popWord : InsnHead := { loadByte true 0 with opsizePrefix := true, op := 0x58 }

end InsnHead

namespace StackInsn

/-- `pop ax` clears the upper bits of `rax`. -/
theorem pop_ax_clears : ¬ Right { rip := 0, segmentBase := none } .popWord
    { Machine.zeros with regs := fun _ => -1 } (fun _ => .quiet) (pop .rax) := by
  rw [right_iff]
  intro heq
  have hrax := congrFun (congrArg StackEffect.gpr heq) .rax
  have hclear : (0 : W64) = 0xffffffffffff0000 := hrax
  exact absurd hclear (by decide)

end StackInsn
end FeS2.Decoder
