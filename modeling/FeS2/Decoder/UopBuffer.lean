import FeS2.Decoder.Expansion

/-!
The translation of one x86 op from its bytes, and when its uops fit into the buffer.
-/

namespace FeS2.Decoder

def onebyteHasModrm (n : Nat) : Bool :=
  (n < 0x40 && n % 8 < 4) || [0x62, 0x63, 0x69, 0x6b].contains n || inrange n 0x80 0x8f ||
    [0xc0, 0xc1].contains n || inrange n 0xc4 0xc7 || inrange n 0xd0 0xd3 || inrange n 0xd8 0xdf ||
    [0xf6, 0xf7, 0xfe, 0xff].contains n

def twobyteHasModrm (n : Nat) : Bool :=
  inrange n 0x00 0x03 || n = 0x0d || n = 0x0f || inrange n 0x10 0x18 || inrange n 0x20 0x24 ||
    n = 0x26 || inrange n 0x28 0x2f || inrange n 0x40 0x76 || inrange n 0x7c 0x7f ||
    inrange n 0x90 0x9f || inrange n 0xa3 0xa7 || inrange n 0xab 0xaf || inrange n 0xb0 0xb7 ||
    inrange n 0xba 0xbf || inrange n 0xc0 0xc7 || inrange n 0xd0 0xfe

def twobyteUsesSSEPrefix (n : Nat) : Bool :=
  inrange n 0x10 0x17 || inrange n 0x28 0x2f || inrange n 0x50 0x76 || inrange n 0x7c 0x7f ||
    n = 0xc2 || inrange n 0xc4 0xc6 || inrange n 0xd0 0xfe

/-- The prefix selects the page of a vector opcode. -/
def ssePage (p : Prefixes) : Nat :=
  if p.has .data then 0x500 else if p.has .repnz then 0x400 else if p.has .repz then 0x200
  else 0x300

namespace InsnHead

/-- Up to the ModRM byte. -/
def fetchHead (use64 : Bool) : Fetch InsnHead := do
  let p ← decodePrefixes use64 {}
  let first := (← Fetch.fetch1).toNat
  let (op, needModrm, usesSse) ←
    if first = 0x0f then do
      let second := (← Fetch.fetch1).toNat
      let usesSse := twobyteUsesSSEPrefix second
      pure (second + (if usesSse then ssePage p else 0x100), twobyteHasModrm second, usesSse)
    else pure (first, onebyteHasModrm first, false)
  let modrm := ModRMByte.ofByte (← if needModrm then Fetch.fetch1 else pure 0)
  let op := if inrange op 0xd8 0xdf then 0x600 + bits op 0 3 * 16 + modrm.reg else op
  return { use64 := use64, prefixes := p, opsizePrefix := !usesSse && p.has .data,
           addrsizePrefix := p.has .addr, op := op, modrm := modrm }

def decode (dirflag : Bool) (h : InsnHead) : Fetch X86Insn :=
  if h.op < 0x200 then do
    match ← h.decodeFast with
    | some i => return i
    | none => h.decodeComplex dirflag
  else if h.op < 0x600 then h.decodeSse
  else h.decodeX87

/-- How many uops the address takes in front of the load or the store. -/
def addressCost (h : InsnHead) (m : Mem) : Nat :=
  (if h.prefixes.segment.isSome then 2 else 0) +
    if m.addr.basereg = .rip then 1
    else if m.addr.indexreg = none then if m.addr.immIsNotEncodable m.size then 1 else 0
    else if m.addr.offset = 0 then 1
    else if m.addr.immIsNotEncodable m.size then 2 else 1

end InsnHead

namespace TraceDecoder
variable (d : TraceDecoder)

/-- `none` where the decoder throws. -/
def decode (bytes : List Byte) : Option (InsnHead × X86Insn) :=
  (InsnHead.fetchHead d.use64 bytes).bind fun (h, bytes) =>
    (h.decode d.dirflag bytes).map fun (i, _) => (h, i)

/-- The uops with those that are cracked as three, whether there is room or not. -/
def expansion (bytes : List Byte) : Option (List Uop) :=
  (d.decode bytes).map fun (h, i) => (h.uops d i).flatMap d.split

/-- `none` inside is a failed assertion of `emitop`. -/
def translate (bytes : List Byte) : Option (Option (List Uop)) :=
  (d.decode bytes).map fun (h, i) => (h.uops d i).foldlM d.put []

/-- The ops that have too many uops: double shifts by `cl` of an operand in memory with a long
address, and, when loads and stores are cracked, the ops below. -/
def Overflows (h : InsnHead) : X86Insn → Prop
  | .shiftDouble left (.mem m) .cl =>
      if d.splitUnalignedMemops then if left then 1 ≤ h.addressCost m else 2 ≤ h.addressCost m
      else if left then 3 ≤ h.addressCost m else 4 ≤ h.addressCost m
  | .xchg (.mem m) _ | .cmpxchg m _ => d.splitUnalignedMemops = true ∧ 3 ≤ h.addressCost m
  | .xadd m _ => d.splitUnalignedMemops = true ∧ 4 ≤ h.addressCost m
  | .alu op (.mem m) _ =>
      d.splitUnalignedMemops = true ∧ h.lock = true ∧ op ≠ .cmp ∧ 4 ≤ h.addressCost m
  | .not (.mem m) | .neg (.mem m) | .incDec (.mem m) =>
      d.splitUnalignedMemops = true ∧ h.lock = true ∧ 4 ≤ h.addressCost m
  | .fpArith form x87op (.mem m) =>
      d.splitUnalignedMemops = true ∧
        if x87op = 3 then form = .dc → 1 ≤ h.addressCost m
        else if form = .dc then 3 ≤ h.addressCost m else 2 ≤ h.addressCost m
  | .fpArith form x87op _ => d.splitUnalignedMemops = true ∧ (form = .de ∨ x87op = 3)
  | .fiArith x87op m =>
      d.splitUnalignedMemops = true ∧
        if x87op = 3 then 1 ≤ h.addressCost m else 3 ≤ h.addressCost m
  | .fucom pop => d.splitUnalignedMemops = true ∧ pop = true
  | .fxch | .fucompp => d.splitUnalignedMemops = true
  | _ => False

/-! The number of uops -/

def count (us : List Uop) : Nat := (us.flatMap d.split).length

/-- What a load or a store counts. -/
def memop : Nat := if d.splitUnalignedMemops then 3 else 1

@[simp] theorem count_nil : d.count [] = 0 := rfl

@[simp] theorem count_append (us vs : List Uop) : d.count (us ++ vs) = d.count us + d.count vs := by
  rw [count, List.flatMap_append, List.length_append]
  rfl

@[simp] theorem count_op (us : List Uop) : d.count (.op :: us) = 1 + d.count us := by
  change (d.split .op ++ us.flatMap d.split).length = _
  rw [List.length_append, split, if_neg (by simp)]
  rfl

@[simp] theorem count_ldContext (us : List Uop) :
    d.count (.ldContext :: us) = 1 + d.count us := by
  change (d.split .ldContext ++ us.flatMap d.split).length = _
  rw [List.length_append, split, if_neg (by simp)]
  rfl

@[simp] theorem count_ld (us : List Uop) : d.count (.ld :: us) = d.memop + d.count us := by
  change (d.split .ld ++ us.flatMap d.split).length = _
  rw [List.length_append, split, memop]
  cases d.splitUnalignedMemops <;> rfl

@[simp] theorem count_st (us : List Uop) : d.count (.st :: us) = d.memop + d.count us := by
  change (d.split .st ++ us.flatMap d.split).length = _
  rw [List.length_append, split, memop]
  cases d.splitUnalignedMemops <;> rfl

/-- The assertion holds for as long as there is room. -/
theorem foldlM_emitop (us transbuf : List Uop) (h : transbuf.length ≤ maxTransopsPerUserInsn) :
    us.foldlM emitop transbuf =
      if transbuf.length + us.length ≤ maxTransopsPerUserInsn then some (transbuf ++ us)
      else none := by
  induction us generalizing transbuf with
  | nil =>
    rw [List.append_nil, List.length_nil, Nat.add_zero, if_pos h]
    rfl
  | cons u us ih =>
    rw [List.foldlM_cons, emitop]
    by_cases hroom : transbuf.length < maxTransopsPerUserInsn
    · have hlen : (transbuf ++ [u]).length = transbuf.length + 1 := List.length_append
      rw [if_pos hroom]
      change us.foldlM emitop (transbuf ++ [u]) = _
      rw [ih _ (hlen ▸ hroom), hlen, List.append_assoc, List.length_cons]
      congr 1
      exact propext (by omega)
    · rw [if_neg hroom, if_neg (by rw [List.length_cons]; omega)]
      rfl

theorem foldlM_put (us transbuf : List Uop) :
    us.foldlM d.put transbuf = (us.flatMap d.split).foldlM emitop transbuf := by
  induction us generalizing transbuf with
  | nil => rfl
  | cons u us ih =>
    rw [List.foldlM_cons, List.flatMap_cons, List.foldlM_append]
    congr 1
    funext b
    exact ih b

theorem foldlM_put_isSome (us : List Uop) :
    (us.foldlM d.put []).isSome = true ↔ d.count us ≤ maxTransopsPerUserInsn := by
  rw [foldlM_put, foldlM_emitop _ _ (Nat.zero_le _)]
  change (if 0 + d.count us ≤ maxTransopsPerUserInsn then _ else none : Option (List Uop)).isSome =
    true ↔ _
  rw [Nat.zero_add]
  split
  · next h => exact ⟨fun _ => h, fun _ => rfl⟩
  · next h =>
    constructor
    · intro hn
      cases hn
    · intro hle
      exact absurd hle h

end TraceDecoder

namespace InsnHead
variable (d : TraceDecoder) (h : InsnHead)
open TraceDecoder

theorem addressCost_le (m : Mem) : h.addressCost m ≤ 4 := by
  unfold addressCost
  grind

/-- The uops of an address are not cracked. -/
theorem count_addressUops (m : Mem) : d.count (h.addressUops d m) = h.addressCost m := by
  have hbias : ∀ r, d.count ((biasBySegreg (h.context d) r).1.map TransOp.uop) =
      if h.prefixes.segment.isSome then 2 else 0 := by
    intro r
    unfold biasBySegreg context
    cases h.prefixes.segment with
    | none => rfl
    | some x =>
      change d.count [.ldContext, .op] = 2
      rw [count_ldContext, count_op, count_nil]
  have hop : d.count [.op] = 1 := by rw [count_op, count_nil]
  have hops : d.count [.op, .op] = 2 := by rw [count_op, count_op, count_nil]
  unfold addressUops addressCost MemOperand.addressGenerate
  split
  · next hrip =>
    rw [List.map_append, count_append, hbias]
    exact congrArg _ hop
  · next hbase =>
    dsimp only
    cases m.addr.indexreg with
    | none =>
      rw [if_pos rfl]
      dsimp only
      rw [List.map_append, count_append, hbias]
      by_cases hlarge : m.addr.immIsNotEncodable m.size = true
      · rw [if_pos hlarge, if_pos hlarge]
        exact congrArg _ hop
      · rw [if_neg hlarge, if_neg hlarge]
        rfl
    | some indexreg =>
      rw [if_neg (Option.some_ne_none indexreg)]
      dsimp only
      by_cases hzero : m.addr.offset = 0
      · rw [if_pos hzero, if_pos hzero]
        by_cases hscale : m.addr.scale ≠ 0
        · rw [if_pos hscale, List.map_append, count_append, hbias]
          exact congrArg _ hop
        · rw [if_neg hscale, List.map_append, count_append, hbias]
          exact congrArg _ hop
      · rw [if_neg hzero, if_neg hzero, List.append_assoc, List.map_append, count_append, hbias]
        by_cases hlarge : m.addr.immIsNotEncodable m.size = true
        · simp only [if_pos hlarge]
          exact congrArg _ hops
        · simp only [if_neg hlarge]
          exact congrArg _ hop

@[simp] theorem count_operandLoad (m : Mem) :
    d.count (h.operandLoad d m) = h.addressCost m + d.memop := by
  rw [operandLoad, count_append, count_addressUops, count_ld, count_nil, Nat.add_zero]

@[simp] theorem count_resultStore (m : Mem) :
    d.count (h.resultStore d m) = h.addressCost m + d.memop := by
  rw [resultStore, count_append, count_addressUops, count_st, count_nil, Nat.add_zero]

theorem count_extractHigh_le (o : Operand) : d.count (extractHigh o) ≤ 1 := by
  unfold extractHigh
  split
  · split <;> simp
  · simp

theorem count_collect_le : d.count (collect d) ≤ 1 := by
  unfold collect
  split <;> simp

theorem count_collectFor_le (condcode : Nat) : d.count (collectFor condcode) ≤ 1 := by
  unfold collectFor
  split <;> simp

@[simp] theorem count_memoryFenceIfLocked (locked : Bool) :
    d.count (memoryFenceIfLocked locked) = if locked then 1 else 0 := by
  cases locked <;> simp [memoryFenceIfLocked]

@[simp] theorem count_x87LoadStack : d.count x87LoadStack = 1 + d.memop := by
  simp [x87LoadStack]

@[simp] theorem count_x87StoreStack : d.count x87StoreStack = 2 + d.memop := by
  simp [x87StoreStack]
  omega

@[simp] theorem count_x87PopStack : d.count x87PopStack = 2 := by simp [x87PopStack]

@[simp] theorem count_x87PopIf (pop : Bool) : d.count (x87PopIf pop) = if pop then 2 else 0 := by
  cases pop <;> simp [x87PopIf]

@[simp] theorem count_x87CompareResult : d.count x87CompareResult = d.memop + 2 := by
  simp [x87CompareResult]

@[simp] theorem count_x87Result (x87op : Nat) :
    d.count (x87Result x87op) = d.memop + 2 + if x87op = 3 then 2 else 0 := by
  unfold x87Result
  by_cases hcompare : x87op = 2 ∨ x87op = 3
  · rw [if_pos hcompare]
    simp
  · rw [if_neg hcompare, if_neg (fun heq => hcompare (.inr heq)), count_x87StoreStack]
    omega

theorem count_opCount_le (n : OpCount) : d.count n.uops ≤ 2 := by
  cases n <;> simp [OpCount.uops]

theorem count_addressOnly_le (force : Bool) (m : Mem) :
    d.count (h.addressOnly d force m) ≤ 5 := by
  have hbias : d.count ((m.addr.biasIf (h.context d) force).1.map TransOp.uop) ≤ 2 := by
    unfold MemOperand.biasIf biasBySegreg context
    cases force with
    | false => exact Nat.zero_le _
    | true =>
      cases h.prefixes.segment with
      | none => exact Nat.zero_le _
      | some x =>
        change d.count [.ldContext, .op] ≤ 2
        simp
  have hop : ∀ n, d.count (List.replicate n .op) = n := by
    intro n
    induction n with
    | zero => rfl
    | succ n ih => rw [List.replicate_succ, count_op, ih, Nat.add_comm]
  have hrest : ∀ ra, ∃ n ≤ 3,
      (m.addr.addressOnlyRest (h.context d) m.size .temp1 ra).map TransOp.uop =
        List.replicate n .op := by
    intro ra
    unfold MemOperand.addressOnlyRest
    split
    · exact ⟨1, by decide, rfl⟩
    · dsimp only
      generalize decide (m.addr.offset &&& bitmask m.size.sizeshift ≠ 0) = large
      cases m.addr.indexreg with
      | none =>
        cases large with
        | false => exact ⟨1, by decide, rfl⟩
        | true => exact ⟨2, by decide, rfl⟩
      | some indexreg =>
        dsimp only
        split
        · split
          · exact ⟨1, by decide, rfl⟩
          · exact ⟨1, by decide, rfl⟩
        · cases large with
          | false => exact ⟨2, by decide, rfl⟩
          | true => exact ⟨3, by decide, rfl⟩
  obtain ⟨n, hn, heq⟩ := hrest (m.addr.biasIf (h.context d) force).2
  rw [addressOnly, MemOperand.addressOnly, List.map_append, count_append, heq, hop]
  omega

theorem memop_cases : (d.splitUnalignedMemops = true ∧ d.memop = 3) ∨
    (d.splitUnalignedMemops = false ∧ d.memop = 1) := by
  unfold memop
  cases d.splitUnalignedMemops <;> simp

theorem count_loadIfMem_le (o : Operand) : d.count (h.loadIfMem d o) ≤ 4 + d.memop := by
  unfold loadIfMem
  split
  · rw [count_operandLoad]
    exact Nat.add_le_add_right (h.addressCost_le _) _
  · exact Nat.zero_le _

theorem count_storeIfMem_le (o : Operand) : d.count (h.storeIfMem d o) ≤ 4 + d.memop := by
  unfold storeIfMem
  split
  · rw [count_resultStore]
    exact Nat.add_le_add_right (h.addressCost_le _) _
  · exact Nat.zero_le _

/-- Into a register there is one load at most. -/
theorem count_aluRegOrMem_reg (r : ArchReg) (ra : Operand) (flagsonly raRbImmForm : Bool) :
    d.count (h.aluRegOrMem d (.reg r) ra flagsonly raRbImmForm) ≤ 7 + d.memop := by
  have hrd := count_extractHigh_le d (.reg r)
  have hra := count_extractHigh_le d ra
  have hback : d.count (if (flagsonly || raRbImmForm) = true then [] else extractHigh (.reg r)) ≤
      1 := by
    split
    · exact Nat.zero_le _
    · exact hrd
  unfold aluRegOrMem
  cases ra with
  | mem m =>
      have hcost := h.addressCost_le m
      simp only [count_append, count_operandLoad, count_op, count_nil]
      omega
  | reg r' =>
      simp only [count_append, count_op, count_nil]
      omega
  | imm v =>
      simp only [count_append, count_op, count_nil]
      omega

/-- Into memory there is a load, a store, and one uop more for the second byte of a register. -/
theorem count_aluRegOrMem_mem (m : Mem) (ra : Operand) (flagsonly raRbImmForm : Bool) :
    ∃ k ≤ 1, d.count (h.aluRegOrMem d (.mem m) ra flagsonly raRbImmForm) =
      h.addressCost m + d.memop + 1 + k + if flagsonly then 0 else h.addressCost m + d.memop := by
  refine ⟨d.count (extractHigh ra), count_extractHigh_le d ra, ?_⟩
  have hstore : d.count (if flagsonly = true then [] else h.resultStore d m) =
      if flagsonly then 0 else h.addressCost m + d.memop := by
    cases flagsonly with
    | true => rfl
    | false => exact count_resultStore d h m
  unfold aluRegOrMem
  cases ra with
  | mem m' =>
      simp only [count_append, count_operandLoad, count_op, count_nil, hstore, extractHigh]
  | reg r' =>
      simp only [count_append, count_operandLoad, count_op, count_nil, hstore]
      omega
  | imm v =>
      simp only [count_append, count_operandLoad, count_op, count_nil, hstore]
      omega

theorem count_fenced_mem (m : Mem) (us : List Uop) :
    d.count (h.fenced (.mem m) us) = d.count us + if h.lock then 2 else 0 := by
  rw [fenced, count_append, count_append, count_memoryFenceIfLocked]
  split
  · omega
  · omega

theorem count_moveRegOrMem_le (rd ra : Operand) :
    d.count (h.moveRegOrMem d rd ra) ≤ 5 + d.memop := by
  have hra := count_extractHigh_le d ra
  have hcost := h.addressCost_le
  unfold moveRegOrMem
  split
  · next r m =>
    have hm := hcost m
    have hmove : d.count (if 2 ≤ r.size.sizeshift then [] else [.op]) ≤ 1 := by split <;> simp
    rw [count_append, count_operandLoad]
    omega
  · rw [count_op, count_nil]
    omega
  · next m v =>
    have hm := hcost m
    rw [count_op, count_resultStore]
    omega
  · next m r =>
    have hm := hcost m
    rw [count_append, count_resultStore]
    omega
  · exact Nat.zero_le _

theorem count_stringUops_le (op : StringOp) (rep : Bool) :
    d.count (h.stringUops op rep) ≤ 8 + 2 * d.memop := by
  unfold stringUops
  cases op with
  | movs => cases rep <;> simp <;> omega
  | cmps => cases rep <;> simp <;> omega
  | stos => cases rep <;> simp <;> omega
  | scas => cases rep <;> simp <;> omega
  | lods =>
      have hload : d.count (if 2 ≤ h.stringSize.sizeshift then [.ld] else [.ld, .op]) ≤
          d.memop + 1 := by
        split <;> simp
      cases rep <;> simp <;> omega

theorem count_popUops_le (r : ArchReg) : d.count (popUops r) ≤ d.memop + 1 := by
  unfold popUops
  split <;> simp

theorem count_signextRegOrMem_le (zeroext : Bool) (rasize : Size) (rd : ArchReg) (ra : Operand) :
    d.count (h.signextRegOrMem d zeroext rasize rd ra) ≤ 5 + d.memop := by
  have hra := count_extractHigh_le d ra
  unfold signextRegOrMem
  split
  · next m =>
    have hm := h.addressCost_le { m with size := rasize }
    have hmove : d.count
        (if rd.size = .w64 ∨ (rd.size = .w32 ∧ zeroext = true) then [] else [.op]) ≤ 1 := by
      split <;> simp
    rw [count_append, count_operandLoad]
    omega
  · rw [count_append, count_op, count_nil]
    omega

theorem fenced_reg (r : ArchReg) (us : List Uop) : h.fenced (.reg r) us = us := rfl

/-- A locked op on memory has two fences. -/
theorem count_locked_iff (m : Mem) (ra : Operand) :
    d.count (h.fenced (.mem m) (h.aluRegOrMem d (.mem m) ra false false)) ≤ 16 ↔
      ¬(d.splitUnalignedMemops = true ∧ h.lock = true ∧ 4 ≤ h.addressCost m) := by
  obtain ⟨k, hk, hcount⟩ := count_aluRegOrMem_mem d h m ra false false
  have hm := h.addressCost_le m
  rw [count_fenced_mem, hcount, if_neg Bool.false_ne_true]
  cases memop_cases d with
  | inl hsplit =>
      rw [hsplit.1, hsplit.2]
      cases h.lock with
      | true => simp only [if_true, true_and]; omega
      | false => simp; omega
  | inr hsplit =>
      rw [hsplit.1, hsplit.2]
      cases h.lock with
      | true => simp; omega
      | false => simp; omega

attribute [local simp] uops Overflows in
theorem count_alu_iff (op : AluOp) (rd ra : Operand) :
    d.count (h.uops d (.alu op rd ra)) ≤ 16 ↔ ¬d.Overflows h (.alu op rd ra) := by
  have hmem := memop_cases d
  have hcost := h.addressCost_le
  have halu := count_aluRegOrMem_reg d h
  rw [uops]
  by_cases hcmp : op = .cmp
  · rw [if_pos hcmp]
    cases rd with
    | imm v => exact iff_of_true (Nat.zero_le _) id
    | reg r =>
        have hr := halu r ra true false
        exact iff_of_true (by omega) id
    | mem m =>
        have hm := hcost m
        obtain ⟨k, hk, hcount⟩ := count_aluRegOrMem_mem d h m ra true false
        rw [if_pos rfl] at hcount
        refine iff_of_true (by omega) fun hover => hover.2.2.1 hcmp
  · rw [if_neg hcmp]
    cases rd with
    | imm v => exact iff_of_true (Nat.zero_le _) id
    | reg r =>
        have hr := halu r ra false false
        exact iff_of_true (by rw [fenced_reg]; omega) id
    | mem m =>
        rw [count_locked_iff, Overflows]
        exact not_congr ⟨fun hover => ⟨hover.1, hover.2.1, hcmp, hover.2.2⟩,
          fun hover => ⟨hover.1, hover.2.1, hover.2.2.2⟩⟩

theorem count_shift_le (n : Nat) (rd : Operand) (ra : ShiftCount) :
    d.count (h.uops d (.shift n rd ra)) ≤ 16 := by
  have hmem := memop_cases d
  have hcost := h.addressCost_le
  have halu := count_aluRegOrMem_reg d h
  cases rd with
  | imm v => cases ra <;> simp [uops, aluRegOrMem]
  | reg r =>
      cases ra with
      | imm k =>
          have hr := halu r (.imm (BitVec.ofNat 64 k)) false false
          rw [uops]
          omega
      | cl =>
          have hr := halu r (.reg (.gpr .w8 .rcx)) false false
          rw [uops, count_op]
          omega
  | mem m =>
      have hm := hcost m
      cases ra with
      | imm k =>
          obtain ⟨j, hj, hcount⟩ :=
            count_aluRegOrMem_mem d h m (.imm (BitVec.ofNat 64 k)) false false
          rw [if_neg Bool.false_ne_true] at hcount
          rw [uops]
          omega
      | cl =>
          -- `cl` is not the second byte of its register
          rw [uops]
          simp [aluRegOrMem, extractHigh, ArchReg.hibyte]
          omega

theorem count_shiftDouble_iff (left : Bool) (rd : Operand) (ra : ShiftCount) :
    d.count (h.uops d (.shiftDouble left rd ra)) ≤ 16 ↔
      ¬d.Overflows h (.shiftDouble left rd ra) := by
  have hmem := memop_cases d
  have hcost := h.addressCost_le
  have hload := count_loadIfMem_le d h
  have hstore := count_storeIfMem_le d h
  cases ra with
  | imm k =>
      have hl := hload rd
      have hs := hstore rd
      refine iff_of_true ?_ (by cases rd <;> exact id)
      rw [uops, shiftDoubleUops]
      split <;> simp <;> omega
  | cl =>
      cases rd with
      | imm v | reg r =>
          refine iff_of_true ?_ id
          cases left <;> simp [uops, shiftDoubleUops, loadIfMem, storeIfMem]
      | mem m =>
          have hm := hcost m
          cases hmem with
          | inl hsplit =>
              cases left <;>
                simp [uops, shiftDoubleUops, loadIfMem, storeIfMem, Overflows, hsplit] <;> omega
          | inr hsplit =>
              cases left <;>
                simp [uops, shiftDoubleUops, loadIfMem, storeIfMem, Overflows, hsplit] <;> omega

theorem count_fpArith_iff (form : FpForm) (n : Nat) (ra : Operand) :
    d.count (h.uops d (.fpArith form n ra)) ≤ 16 ↔ ¬d.Overflows h (.fpArith form n ra) := by
  have hmem := memop_cases d
  have hcost := h.addressCost_le
  cases ra with
  | imm v | reg r =>
      cases hmem with
      | inl hsplit =>
          cases form <;> by_cases hn : n = 3 <;> simp [uops, Overflows, hsplit, hn]
      | inr hsplit =>
          cases form <;> by_cases hn : n = 3 <;> simp [uops, Overflows, hsplit, hn]
  | mem m =>
      have hm := hcost m
      cases hmem with
      | inl hsplit =>
          cases form <;> by_cases hn : n = 3 <;>
            simp [uops, Overflows, hsplit, hn] <;> omega
      | inr hsplit =>
          cases form <;> by_cases hn : n = 3 <;>
            simp [uops, Overflows, hsplit, hn] <;> omega

/-- The uops of an op fit into the buffer, but for those that overflow. -/
theorem count_uops_iff (i : X86Insn) :
    d.count (h.uops d i) ≤ maxTransopsPerUserInsn ↔ ¬d.Overflows h i := by
  have hmem := memop_cases d
  have hcost := h.addressCost_le
  have hload := count_loadIfMem_le d h
  have hstore := count_storeIfMem_le d h
  have hcollect := count_collect_le d
  have hcollectFor := count_collectFor_le d
  have hops := count_opCount_le d
  have halu := count_aluRegOrMem_reg d h
  have hmove := count_moveRegOrMem_le d h
  have haddr := count_addressOnly_le d h
  unfold maxTransopsPerUserInsn
  cases i with
  | alu op rd ra => exact count_alu_iff d h op rd ra
  | incDecReg r | nop | cbw | sahf | lahf | movImm r v | setCarry | bt n r | bswap r | xchgA r |
    hlt | fence | emms | rdtsc | ftos | fstswAx | ffreep =>
      exact iff_of_true (by simp [uops]) id
  | push r | pushImm v | enter v | leave | fldConst | fsqrt | fsign | ftst =>
      refine iff_of_true ?_ id
      simp [uops]
      omega
  | pop r =>
      have hr := count_popUops_le d r
      refine iff_of_true ?_ id
      rw [uops]
      omega
  | movx zeroext rasize rd ra =>
      have hext := count_signextRegOrMem_le d h zeroext rasize rd ra
      refine iff_of_true ?_ id
      rw [uops]
      omega
  | imulImm rd ra v =>
      have hr := halu rd ra false true
      refine iff_of_true ?_ id
      rw [uops]
      omega
  | imul rd ra | bitScan rd ra =>
      have hr := halu rd ra false false
      refine iff_of_true ?_ id
      rw [uops]
      omega
  | jcc n | jmp | call | ret =>
      refine iff_of_true ?_ id
      simp [uops]
      omega
  | mov rd ra =>
      have hm := hmove rd ra
      refine iff_of_true ?_ id
      rw [uops]
      omega
  | test rd ra =>
      refine iff_of_true ?_ id
      rw [uops]
      cases rd with
      | imm v => exact Nat.zero_le _
      | reg r =>
          have hr := halu r ra true false
          omega
      | mem m =>
          have hm := hcost m
          obtain ⟨k, hk, hcount⟩ := count_aluRegOrMem_mem d h m ra true false
          rw [if_pos rfl] at hcount
          omega
  | lea r m =>
      have hm := haddr false m
      refine iff_of_true ?_ id
      rw [uops]
      omega
  | popEv rd =>
      refine iff_of_true ?_ id
      cases rd with
      | imm v => exact Nat.zero_le _
      | reg r =>
          have hr := count_popUops_le d r
          rw [uops]
          omega
      | mem m =>
          have hm := hcost (h.popTarget m)
          simp [uops]
          omega
  | cwd size =>
      refine iff_of_true ?_ id
      rw [uops]
      split <;> simp
  | movMoffs m | fnstcw m | stmxcsr m | fstswMem m | prefetch m | fldcw m | fild n m =>
      have hm := hcost m
      refine iff_of_true ?_ id
      simp [uops, count_addressUops]
      omega
  | shift n rd ra => exact iff_of_true (count_shift_le d h n rd ra) id
  | not rd | neg rd =>
      rw [uops]
      cases rd with
      | imm v => exact iff_of_true (Nat.zero_le _) id
      | reg r =>
          have hr := halu r (.reg r) false false
          exact iff_of_true (by rw [fenced_reg]; omega) id
      | mem m =>
          rw [count_locked_iff]
          rfl
  | incDec rd =>
      rw [uops]
      cases rd with
      | imm v => exact iff_of_true (Nat.zero_le _) id
      | reg r =>
          have hr := halu r (.imm 1) false false
          exact iff_of_true (by rw [fenced_reg]; omega) id
      | mem m =>
          rw [count_locked_iff]
          rfl
  | callEv ra | jmpEv ra =>
      have hl := hload (h.widen ra)
      refine iff_of_true ?_ id
      simp [uops]
      omega
  | pushEv ra =>
      have hl := hload (h.widen ra)
      refine iff_of_true ?_ id
      simp [uops]
      omega
  | cmov n rd ra =>
      have hl := hload ra
      have hc := hcollectFor n
      refine iff_of_true ?_ id
      simp [uops]
      omega
  | setcc n rd =>
      have hl := hstore (.resize .w8 rd)
      have hc := hcollectFor n
      refine iff_of_true ?_ id
      simp [uops]
      omega
  | xchg rd ra =>
      cases rd with
      | imm v | reg r => exact iff_of_true (by simp [uops]) id
      | mem m =>
          have hm := hcost m
          have hmerge : d.count (if 2 ≤ ra.size.sizeshift then [] else [.op]) ≤ 1 := by
            split <;> simp
          cases hmem with
          | inl hsplit => simp [uops, Overflows, hsplit]; omega
          | inr hsplit => simp [uops, Overflows, hsplit]; omega
  | movSeg rd =>
      have hl := hstore rd
      refine iff_of_true ?_ id
      simp [uops]
      omega
  | pushf =>
      refine iff_of_true ?_ id
      simp [uops]
      omega
  | string op rep =>
      have hs := count_stringUops_le d h op rep
      refine iff_of_true ?_ id
      rw [uops]
      omega
  | loop op =>
      refine iff_of_true ?_ id
      rw [uops]
      split <;> simp
  | jcxz => exact iff_of_true (by simp [uops]) id
  | mul rd | div rd =>
      have hl := hload rd
      refine iff_of_true ?_ id
      rw [uops]
      split <;> simp <;> omega
  | btMem op m ra | btMemImm op m v =>
      have hm := haddr true { m with size := h.addrSize }
      refine iff_of_true ?_ id
      simp only [uops, count_append, count_memoryFenceIfLocked, count_op, count_ld, count_nil]
      split <;> split <;> simp <;> omega
  | shiftDouble left rd ra => exact count_shiftDouble_iff d h left rd ra
  | cmpxchg m ra | xadd m ra =>
      have hm := hcost m
      cases hmem with
      | inl hsplit => simp [uops, Overflows, hsplit]; omega
      | inr hsplit => simp [uops, Overflows, hsplit]; omega
  | sse pair onMem onReg ra =>
      have hn := hops onMem
      have hn' := hops onReg
      refine iff_of_true ?_ id
      cases ra with
      | imm v | reg r => exact hn'.trans (by omega)
      | mem m =>
          have hm := hcost m
          have hm' := hcost (high m)
          cases pair <;> simp [uops] <;> omega
  | sseStore pair onReg rd =>
      have hn' := hops onReg
      refine iff_of_true ?_ id
      cases rd with
      | imm v | reg r => exact hn'.trans (by omega)
      | mem m =>
          have hm := hcost m
          have hm' := hcost (high m)
          cases pair <;> simp [uops] <;> omega
  | sseRegs n =>
      have hn := hops n
      refine iff_of_true ?_ id
      rw [uops]
      omega
  | unpckhpd ra =>
      refine iff_of_true ?_ id
      cases ra with
      | imm v | reg r => simp [uops]
      | mem m =>
          have hm := hcost (high m)
          simp [uops]
          omega
  | fpArith form n ra => exact count_fpArith_iff d h form n ra
  | fucom pop | fxch | fucompp =>
      cases hmem with
      | inl hsplit => simp [uops, Overflows, hsplit] <;> grind
      | inr hsplit => simp [uops, Overflows, hsplit] <;> grind
  | fld32 ra | fld64 ra =>
      refine iff_of_true ?_ id
      cases ra with
      | imm v | reg r => simp [uops] <;> omega
      | mem m =>
          have hm := hcost m
          simp [uops]
          omega
  | fistp64 m => 
      have hm := hcost m
      refine iff_of_true ?_ id
      simp [uops]
      omega
  | fst32 pop rd | fst64 pop rd =>
      refine iff_of_true ?_ id
      cases rd with
      | imm v | reg r => cases pop <;> simp [uops] <;> omega
      | mem m =>
          have hm := hcost m
          cases pop <;> simp [uops] <;> omega
  | fist pop m =>
      have hm := hcost m
      refine iff_of_true ?_ id
      simp [uops]
      split <;> omega
  | fcmov collect => 
      refine iff_of_true ?_ id
      simp [uops]
      split <;> simp <;> omega
  | fiArith n m =>
      have hm := hcost m
      cases hmem with
      | inl hsplit => by_cases hn : n = 3 <;> simp [uops, Overflows, hsplit, hn] <;> omega
      | inr hsplit => by_cases hn : n = 3 <;> simp [uops, Overflows, hsplit, hn] <;> omega
  | fcomi pop => 
      refine iff_of_true ?_ id
      simp [uops]
      split <;> simp <;> omega

end InsnHead

namespace TraceDecoder
variable (d : TraceDecoder)

/-- An op of these bytes has no more uops than there is room for, and the assertion of `emitop`
does not fail. -/
def Bounded (bytes : List Byte) : Prop :=
  (∀ us, d.expansion bytes = some us → us.length ≤ maxTransopsPerUserInsn) ∧
    d.translate bytes ≠ some none

/-- The bytes that the decoder accepts are bounded but for those of an op that overflows. -/
theorem bounded_iff (bytes : List Byte) :
    d.Bounded bytes ↔ ∀ h i, d.decode bytes = some (h, i) → ¬d.Overflows h i := by
  unfold Bounded expansion translate
  cases hdecode : d.decode bytes with
  | none => exact ⟨fun _ h i hsome => (Option.some_ne_none _ hsome.symm).elim,
      fun _ => ⟨fun us hsome => (Option.some_ne_none _ hsome.symm).elim,
        fun hsome => Option.some_ne_none _ hsome.symm⟩⟩
  | some hi =>
      obtain ⟨h, i⟩ := hi
      have hiff := h.count_uops_iff d i
      have hroom := d.foldlM_put_isSome (h.uops d i)
      constructor
      · rintro ⟨hlen, -⟩ h' i' heq
        cases heq
        exact hiff.mp (hlen _ rfl)
      · intro hfits
        have hle := hiff.mpr (hfits h i rfl)
        refine ⟨fun us heq => ?_, fun hfail => ?_⟩
        · cases heq
          exact hle
        · have hsome := hroom.mpr hle
          have hnone : (h.uops d i).foldlM d.put [] = none := Option.some.inj hfail
          rw [hnone] at hsome
          cases hsome

/-- In 64-bit mode, with loads and stores whole. -/
def wholeMemops : TraceDecoder where
  use64 := true
  dirflag := false
  splitUnalignedMemops := false
  lastFlagsUpdateWasAtomic := true
  segmentOffset _ := 0
  rip := 0

/-- `shld fs:[rax + rbx * 2 + 1], eax, cl`. -/
def longShld : List Byte := [0x64, 0x0f, 0xa5, 0x44, 0x58, 0x01]

theorem longShld_length : (wholeMemops.expansion longShld).map List.length = some 20 := by decide

theorem shld_overflows : ¬∀ (d : TraceDecoder) (bytes : List Byte), d.Bounded bytes := by
  intro h
  obtain ⟨us, hus, hlen⟩ := Option.map_eq_some_iff.mp longShld_length
  have hbound := (h wholeMemops longShld).1 us hus
  rw [hlen] at hbound
  exact absurd hbound (by decide)

end TraceDecoder
end FeS2.Decoder
