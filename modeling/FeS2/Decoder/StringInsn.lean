import FeS2.Decoder.Uops

/-!
The string instructions. A repeated one is a loop of trips through the decoder: each starts with
a check of the counter, and ends with a branch back to its own address.
-/

namespace FeS2.Decoder

inductive StringOp
  | movs
  | cmps
  | stos
  | lods
  | scas
  deriving DecidableEq

inductive Rep
  | none
  | repz
  | repnz
  deriving DecidableEq

/-- What the decoder has of a string instruction; `PFX_REPNZ` counts before `PFX_REPZ`. -/
structure StringInsn where
  op : StringOp
  rep : Rep
  bytewise : Bool
  use64 : Bool
  mode64 : Bool
  opsizePrefix : Bool
  addrsizePrefix : Bool
  ripstart : W64
  rip : W64
  moved : rip ≠ ripstart

namespace StringInsn
variable (i : StringInsn)

def size : Size :=
  if i.bytewise then .w8 else if i.mode64 then .w64 else if i.opsizePrefix then .w16 else .w32

def addrSize : Size :=
  if i.use64 then if i.addrsizePrefix then .w32 else .w64
  else if i.addrsizePrefix then .w16 else .w32

def increment (dirflag : Bool) : W64 :=
  if dirflag then -BitVec.ofNat 64 i.size.bytes else BitVec.ofNat 64 i.size.bytes

def compares : Bool := i.op = .cmps || i.op = .scas

/-! The decoder -/

/-- `EXCEPTION_SkipBlock`. -/
def skipBlock : W64 := 10

def chk : TransOp :=
  { opcode := .chkSub, rd := .temp0, ra := .gpr .rcx, rb := .zero, rc := .imm, size := i.addrSize,
    rcimm := skipBlock, cond := .ne }

def load (rd : Reg) (addr : Gpr) : TransOp :=
  { opcode := .ld, rd := rd, ra := .gpr addr, rb := .imm, rc := .zero, size := i.size }

def store (value : Reg) : TransOp :=
  { opcode := .st, rd := .mem, ra := .gpr .rdi, rb := .imm, rc := value, size := i.size }

def advance (dirflag : Bool) (r : Gpr) : TransOp :=
  { opcode := .add, rd := .gpr r, ra := .gpr r, rb := .imm, rc := .zero, size := i.addrSize,
    rbimm := i.increment dirflag }

def compare (ra rb : Reg) : TransOp :=
  { opcode := .sub, rd := .temp2, ra := ra, rb := rb, rc := .zero, size := i.size,
    setflags := .defaultAlu }

def merge : TransOp :=
  { opcode := .mov, rd := .gpr .rax, ra := .gpr .rax, rb := .temp0, rc := .zero, size := i.size }

def body (dirflag : Bool) : List TransOp :=
  match i.op with
  | .movs => [i.load .temp0 .rsi, i.store .temp0, i.advance dirflag .rsi, i.advance dirflag .rdi]
  | .cmps =>
      [i.load .temp0 .rsi, i.load .temp1 .rdi, i.advance dirflag .rsi, i.advance dirflag .rdi,
        i.compare .temp0 .temp1]
  | .stos => [i.store (.gpr .rax), i.advance dirflag .rdi]
  | .lods =>
      (if i.size = .w32 ∨ i.size = .w64 then [i.load (.gpr .rax) .rsi]
        else [i.load .temp0 .rsi, i.merge]) ++ [i.advance dirflag .rsi]
  | .scas =>
      [i.load .temp1 .rdi, i.advance dirflag .rdi, i.compare .temp1 (.gpr .rax)]

def sub : TransOp :=
  { opcode := .sub, rd := .gpr .rcx, ra := .gpr .rcx, rb := .imm, rc := .zero, size := i.addrSize,
    rbimm := 1, setflags := .zfOnly, nouserflags := true }

def orxf : TransOp :=
  { opcode := if i.rep = .repz then .ornotcc else .orcc, rd := .temp0, ra := .gpr .rcx,
    rb := .temp2, rc := .zero, size := if i.op = .cmps ∧ ¬ i.use64 then .w32 else .w64,
    setflags := .defaultAlu, nouserflags := true }

def br : TransOp :=
  { opcode := .br, rd := .rip, ra := if i.compares then .temp0 else .gpr .rcx, rb := .zero,
    rc := .zero, size := if i.op = .movs then i.addrSize else .w64, cond := .ne,
    riptaken := i.ripstart, ripseq := i.rip }

/-- The count and the way back. The flags of the merge are all set, so none are collected. -/
def tail : List TransOp := i.sub :: (if i.compares then [i.orxf] else []) ++ [i.br]

/-- `none` is an invalid opcode. -/
def uops (dirflag : Bool) : Option (List TransOp) :=
  match i.rep with
  | .none => some (i.body dirflag)
  | .repz => some (i.chk :: i.body dirflag ++ i.tail)
  | .repnz => if i.compares then some (i.chk :: i.body dirflag ++ i.tail) else none

/-! The additions -/

variable {i : StringInsn} {dirflag : Bool} {uops : List TransOp} {t : TransOp}

theorem uops_eq (h : i.uops dirflag = some uops) : i.rep = .none ∧ uops = i.body dirflag ∨
    i.rep ≠ .none ∧ uops = i.chk :: i.body dirflag ++ i.tail := by
  rw [StringInsn.uops] at h
  cases hrep : i.rep with
  | none =>
      rw [hrep] at h
      exact .inl ⟨rfl, (Option.some.inj h).symm⟩
  | repz =>
      rw [hrep] at h
      exact .inr ⟨nofun, (Option.some.inj h).symm⟩
  | repnz =>
      rw [hrep] at h
      dsimp only at h
      split at h
      · exact .inr ⟨nofun, (Option.some.inj h).symm⟩
      · cases h

theorem mem_uops (h : i.uops dirflag = some uops) (ht : t ∈ uops) :
    t = i.chk ∨ t ∈ i.body dirflag ∨ t ∈ i.tail := by
  cases uops_eq h with
  | inl hone => exact .inr (.inl (hone.2 ▸ ht))
  | inr hrep =>
      rw [hrep.2, List.cons_append, List.mem_cons, List.mem_append] at ht
      exact ht

theorem tail_no_add (ht : t ∈ i.tail) : t.opcode ≠ .add := by
  rw [tail, List.cons_append, List.mem_cons, List.mem_append, List.mem_singleton] at ht
  intro hadd
  rcases ht with rfl | horxf | rfl
  · cases hadd
  · split at horxf
    · rw [List.mem_singleton.mp horxf] at hadd
      rw [orxf] at hadd
      dsimp only at hadd
      split at hadd <;> cases hadd
    · cases horxf
  · cases hadd

theorem body_add : ∀ t ∈ i.body dirflag, t.opcode = .add → t.rbimm = i.increment dirflag := by
  rw [body]
  cases i.op with
  | movs => simp [load, store, advance]
  | cmps => simp [load, advance, compare]
  | stos => simp [store, advance]
  | scas => simp [load, advance, compare]
  | lods =>
      dsimp only
      split
      · simp [load, advance]
      · simp [load, advance, merge]

/-- The additions are those of the increment. -/
theorem add_increment (h : i.uops dirflag = some uops) (ht : t ∈ uops) (hadd : t.opcode = .add) :
    t.rbimm = i.increment dirflag := by
  rcases mem_uops h ht with rfl | hbody | htail
  · cases hadd
  · exact body_add t hbody hadd
  · exact absurd hadd (tail_no_add htail)

/-- Every string instruction moves an address. -/
theorem exists_advance (h : i.uops dirflag = some uops) : ∃ r, i.advance dirflag r ∈ uops := by
  have hbody : ∃ r, i.advance dirflag r ∈ i.body dirflag := by
    rw [body]
    cases i.op with
    | movs => exact ⟨.rsi, by simp⟩
    | cmps => exact ⟨.rsi, by simp⟩
    | stos => exact ⟨.rdi, by simp⟩
    | lods => exact ⟨.rsi, by simp⟩
    | scas => exact ⟨.rdi, by simp⟩
  obtain ⟨r, hr⟩ := hbody
  refine ⟨r, ?_⟩
  cases uops_eq h with
  | inl hone => exact hone.2 ▸ hr
  | inr hrep => exact hrep.2 ▸ List.mem_append_left _ (List.mem_cons_of_mem _ hr)

end StringInsn
end FeS2.Decoder
