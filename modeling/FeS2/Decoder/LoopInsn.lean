import FeS2.Decoder.Uops

/-!
`loop`, `loopz` and `loopnz`. Their uops are those of `jcxz`: the counter is tested and stays as
it is, and the branch is taken where it is zero.
-/

namespace FeS2.Decoder

inductive LoopOp
  | loopnz
  | loopz
  | loop
  deriving DecidableEq

/-- What the decoder has of a loop instruction: the mode, the prefixes, the address behind it and
the displacement. -/
structure LoopInsn where
  op : LoopOp
  use64 : Bool
  mode64 : Bool
  addrsizePrefix : Bool
  rip : W64
  imm : BitVec 8

namespace LoopInsn

def target (i : LoopInsn) : W64 := i.rip + i.imm.signExtend 64

/-- The size of the counter the decoder takes; it looks for `rex.mode64`. -/
def size (i : LoopInsn) : Size :=
  if i.mode64 then if i.addrsizePrefix then .w32 else .w64
  else if i.addrsizePrefix then .w16 else .w32

def testop (i : LoopInsn) : TransOp :=
  { opcode := .and, rd := .temp1, ra := .gpr .rcx, rb := .gpr .rcx, rc := .zero, size := i.size,
    setflags := .defaultAlu, nouserflags := true }

def mergeop (i : LoopInsn) : TransOp :=
  { opcode := if i.op = .loopnz then .ornotcc else .orcc, rd := .temp1, ra := .temp1, rb := .zf,
    rc := .zero, size := .w64, setflags := .defaultAlu, nouserflags := true }

def transop (i : LoopInsn) : TransOp :=
  { opcode := .br, rd := .rip, ra := .temp1, rb := .zero, rc := .zero, size := .w64, cond := .e,
    riptaken := i.target, ripseq := i.rip }

def uops (i : LoopInsn) : List TransOp :=
  [i.testop] ++ (if i.op = .loop then [] else [i.mergeop]) ++ [i.transop]

/-! The instruction -/

/-- The size of the counter. -/
def addrSize (i : LoopInsn) : Size :=
  if i.use64 then if i.addrsizePrefix then .w32 else .w64
  else if i.addrsizePrefix then .w16 else .w32

def count (i : LoopInsn) (m : Machine) : BitVec i.addrSize.bits := (m.data (.gpr .rcx)).setWidth _

def takes (i : LoopInsn) (m : Machine) : Bool :=
  i.count m - 1 ≠ 0 &&
    match i.op with
    | .loop => true
    | .loopz => (m.flagsOf .zf).zf
    | .loopnz => !(m.flagsOf .zf).zf

structure Loops (i : LoopInsn) (m m' : Machine) (rip : W64) : Prop where
  counter : i.count m' = i.count m - 1
  flags : ∀ r, r.isFlag → m'.flagsOf r = m.flagsOf r
  branch : rip = if i.takes m then i.target else i.rip

/-! What the uops do -/

/-- The condition the branch is on. -/
def zeroOrFlag (i : LoopInsn) (m : Machine) : Bool :=
  (m.data (.gpr .rcx)).setWidth i.size.bits == 0 ||
    match i.op with
    | .loop => false
    | .loopz => (m.flagsOf .zf).zf
    | .loopnz => !(m.flagsOf .zf).zf

variable (i : LoopInsn) (left : Nat → Leftover) (m : Machine)

theorem uops_rd {t : TransOp} (ht : t ∈ i.uops) : t.rd = .temp1 ∨ t.rd = .rip := by
  rw [uops, List.mem_append, List.mem_append] at ht
  cases ht with
  | inr hbr =>
      right
      rw [List.mem_singleton.mp hbr]
      rfl
  | inl hflags =>
      left
      cases hflags with
      | inl htest =>
          rw [List.mem_singleton.mp htest]
          rfl
      | inr hmerge =>
          split at hmerge
          · cases hmerge
          · rw [List.mem_singleton.mp hmerge]
            rfl

theorem testop_exec (l : Leftover) : ∃ x f, i.testop.exec l m = some (.result x f) ∧
    f.zf = ((m.data (.gpr .rcx)).setWidth i.size.bits == 0) := by
  have hset : decide (i.testop.setflags ≠ .none) = true := decide_eq_true SetFlags.defaultAlu_ne
  refine ⟨_, _, rfl, ?_⟩
  dsimp only
  rw [hset]
  exact congrArg (· == 0) BitVec.and_self

theorem mergeop_exec (l : Leftover) : i.mergeop.exec l m = some (.result 0
    ((m.flagsOf .temp1).or (if i.op = .loopnz then (m.flagsOf .zf).not else m.flagsOf .zf))) := by
  rw [TransOp.exec, mergeop]
  cases i.op <;> rfl

theorem transop_run (next : W64) : runUops left next [i.transop] m =
    some (m, if (m.flagsOf .temp1).zf then i.target else i.rip) := rfl

/-- The flags stay, and the branch is taken where the counter is zero or the flag stops it. -/
theorem uops_run (next : W64) : ∃ m', (∀ r, r.isFlag = true → m'.flagsOf r = m.flagsOf r) ∧
    runUops left next i.uops m = some (m', if i.zeroOrFlag m then i.target else i.rip) := by
  obtain ⟨x, f, hexec, hzf⟩ := i.testop_exec m
    (left ((if i.op = .loop then [] else [i.mergeop]) ++ [i.transop]).length)
  obtain ⟨m1, hm1, huser1, hrun1⟩ := runUops_ownFlags next hexec
    (by decide : Reg.temp1 ≠ .zero) rfl SetFlags.defaultAlu_ne rfl
  have hflags1 : m1.flagsOf .temp1 = f := hm1.flags
  have huops : i.uops = i.testop :: ((if i.op = .loop then [] else [i.mergeop]) ++ [i.transop]) := rfl
  rw [huops, hrun1]
  by_cases hop : i.op = .loop
  · refine ⟨m1, huser1, ?_⟩
    rw [if_pos hop, List.nil_append, transop_run, hflags1, hzf, zeroOrFlag, hop, Bool.or_false]
  · obtain ⟨m2, hm2, huser2, hrun2⟩ := runUops_ownFlags next
      (i.mergeop_exec m1 (left [i.transop].length)) (by decide : Reg.temp1 ≠ .zero) rfl SetFlags.defaultAlu_ne rfl
    have hflags2 : m2.flagsOf .temp1 = _ := hm2.flags
    refine ⟨m2, fun r hr => (huser2 r hr).trans (huser1 r hr), ?_⟩
    rw [if_neg hop, List.singleton_append, hrun2, transop_run, hflags2, Flags.or, hflags1, hzf,
      huser1 .zf rfl, zeroOrFlag]
    cases hcase : i.op with
    | loop => exact absurd hcase hop
    | loopz => rfl
    | loopnz => rfl

/-- No uop writes the counter. -/
theorem counter_kept {m m' : Machine} {rip : W64}
    (hrun : runUops left i.rip i.uops m = some (m', rip)) :
    m'.data (.gpr .rcx) = m.data (.gpr .rcx) := by
  refine runUops_data rfl (fun t ht => ?_) hrun
  cases i.uops_rd ht with
  | inl h => exact h ▸ (by decide)
  | inr h => exact h ▸ (by decide)

/-- The counter is never decremented. -/
theorem never_loops :
    ¬ ∃ m' rip, runUops left i.rip i.uops m = some (m', rip) ∧ i.Loops m m' rip := by
  rintro ⟨m', rip, hrun, hloops⟩
  have hcounter := hloops.counter
  rw [count, count, i.counter_kept left hrun] at hcounter
  have hone : (1 : BitVec i.addrSize.bits) = 0 := by grind
  have hnat := congrArg BitVec.toNat hone
  rw [BitVec.ofNat_eq_ofNat, BitVec.toNat_one i.addrSize.bits_pos] at hnat
  exact absurd hnat (by simp)

/-- Two turns left of a `loop` back by 16 bytes. -/
def twoLeft : LoopInsn :=
  { op := .loop, use64 := true, mode64 := false, addrsizePrefix := false, rip := 0x1000,
    imm := -16 }

theorem loop_stays : ¬ ∀ (i : LoopInsn) left m,
    ∃ m' rip, runUops left i.rip i.uops m = some (m', rip) ∧ i.Loops m m' rip := by
  intro h
  obtain ⟨m', rip, hrun, hloops⟩ := h twoLeft
    (fun _ => { carry := false, result := 0, flags := .clear })
    { regs := fun _ => 2, flags := fun _ => .clear, memory := fun _ => 0 }
  have hcounter := hloops.counter
  rw [count, count, counter_kept twoLeft _ hrun] at hcounter
  exact absurd hcounter (by decide)

end LoopInsn
end FeS2.Decoder
