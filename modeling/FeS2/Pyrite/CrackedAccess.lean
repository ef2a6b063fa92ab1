import FeS2.Pyrite.UnalignedAccess

/-!
The two parts of a cracked access beside the access itself. A store shifts the
data of its high part by the wrong amount; a load leaves out the extension where
it does not cross, and the merge where it sign-extends.
-/

namespace FeS2.Pyrite
open DoubleWord LoadStoreWindow

/-! Words by their bytes -/

namespace DoubleWord

theorem byte_shiftLeft_lt (v : BitVec 64) {i k : Nat} (h : i < k) : byte (v <<< (k * 8)) i = 0 := by
  apply BitVec.eq_of_getLsbD_eq
  intro j hj
  have hlt : 8 * i + j < k * 8 := by omega
  simp only [getLsbD_byte _ _ hj, BitVec.getLsbD_shiftLeft, hlt, decide_true, Bool.not_true,
    Bool.and_false, Bool.false_and]
  exact BitVec.getLsbD_zero.symm

theorem byte_or (v w : BitVec 64) (i : Nat) : byte (v ||| w) i = byte v i ||| byte w i := by
  apply BitVec.eq_of_getLsbD_eq
  intro j hj
  simp only [getLsbD_byte _ _ hj, BitVec.getLsbD_or]

/-- A byte of sign bits. -/
def signByte (b : BitVec 8) : BitVec 8 := if b.msb then 0xff else 0

theorem getLsbD_signByte (b : BitVec 8) {j : Nat} (hj : j < 8) :
    (signByte b).getLsbD j = b.msb := by
  unfold signByte
  split
  · rename_i hb
    rw [hb, show (0xff : BitVec 8) = BitVec.allOnes 8 from rfl, BitVec.getLsbD_allOnes]
    exact decide_eq_true hj
  · rename_i hb
    rw [Bool.eq_false_iff.mpr hb]
    exact BitVec.getLsbD_zero

theorem byte_signext64 (v : BitVec 64) {n i : Nat} (hpos : 0 < n) (hn : n ≤ 8) (hi : i < 8) :
    byte (signext64 v (8 * n)) i = if i < n then byte v i else signByte (byte v (n - 1)) := by
  apply BitVec.eq_of_getLsbD_eq
  intro j hj
  have hmsb : (v <<< (64 - 8 * n)).msb = (byte v (n - 1)).msb := by
    simp only [BitVec.msb_eq_getLsbD_last, getLsbD_byte _ _ (show 8 - 1 < 8 by decide),
      BitVec.getLsbD_shiftLeft]
    rw [show 64 - 1 - (64 - 8 * n) = 8 * (n - 1) + (8 - 1) by omega,
      decide_eq_false (show ¬ 64 - 1 < 64 - 8 * n by omega)]
    simp
  rw [getLsbD_byte _ _ hj, signext64, BitVec.getLsbD_sshiftRight, hmsb,
    decide_eq_false (show ¬ 64 ≤ 8 * i + j by omega), Bool.not_false, Bool.true_and]
  by_cases h : i < n
  · rw [if_pos (by omega), if_pos h, getLsbD_byte _ _ hj, BitVec.getLsbD_shiftLeft,
      decide_eq_true (show 64 - 8 * n + (8 * i + j) < 64 by omega),
      decide_eq_false (show ¬ 64 - 8 * n + (8 * i + j) < 64 - 8 * n by omega)]
    simp
  · rw [if_neg (by omega), if_neg h, getLsbD_signByte _ hj]

theorem setAddress_eq {address size : Nat} (hpos : 0 < size) (hle : size ≤ 8) :
    setAddress address size =
      if address % blockBytes + size ≤ blockBytes then ({ address := address, size := size }, 0)
      else ({ address := address, size := blockBytes - address % blockBytes },
        address % blockBytes + size - blockBytes) := by
  unfold setAddress blockBytes
  simp only
  split
  · rename_i hover
    split
    · rw [show (address + size) % 64 = 0 by omega, Nat.sub_zero]
    · rw [show (address + size) % 64 = address % 64 + size - 64 by omega,
        show size - (address % 64 + size - 64) = 64 - address % 64 by omega]
  · rename_i hover
    rw [if_pos (by omega)]

/-- A fresh operand with a value. -/
theorem setValue_fresh {address size : Nat} (hpos : 0 < size) (hle : size ≤ 8) (v : BitVec 64) :
    ∃ dw, ({ address := address, size := size } : DoubleWord).setValue v = some dw ∧
      dw.address = address ∧ dw.size = size ∧
      (∀ a, dw.byteAt a =
        if address ≤ a ∧ a < address + size then some (byte v (a - address)) else none) ∧
      ∀ i < 8, byte dw.value i = if i < size then byte v i else 0 := by
  obtain ⟨dw, hdw, haddr, hsize, hfull, hbytes⟩ := @setValue_spec
    { address := address, size := size } v rfl (Nat.pos_iff_ne_zero.mp hpos) hle
  refine ⟨dw, hdw, haddr, hsize, fun a => ?_, fun i hi => ?_⟩
  · split
    · rename_i ha
      exact hbytes a ha
    · rename_i ha
      rw [hfull.byteAt, if_neg]
      unfold Covers
      rw [haddr, hsize]
      exact ha
  · have hvalue : dw.value = v &&& MASKS (BitVec.ofNat 8 ((1 <<< size) - 1)) := by
      unfold setValue at hdw
      simp only at hdw
      split at hdw
      · cases hdw
      · obtain rfl := Option.some.inj hdw
        rfl
    rw [hvalue, byte_and_MASKS _ _ hi, getLsbD_sizeMask hle]
    simp only [decide_eq_true_eq]

end DoubleWord

namespace LoadStoreWindow

theorem operandOf_normal {p n : Nat} (hpos : 0 < n) (hn : n ≤ 8)
    (h : p % blockBytes + n ≤ blockBytes) :
    operandOf .LDST_ALIGN_NORMAL p n = some { address := p, size := n } := by
  simp only [operandOf, setAddress_eq hpos hn, if_pos h, ne_eq, not_true_eq_false, if_false]

theorem operandOf_lo {p n : Nat} (hpos : 0 < n) (hn : n ≤ 8) :
    operandOf .LDST_ALIGN_LO p n =
      some { address := p, size := n - (p % blockBytes + n - blockBytes) } := by
  have hlt : p % blockBytes < blockBytes := Nat.mod_lt _ (by decide)
  simp only [operandOf, setAddress_eq hpos hn]
  split
  · rename_i h
    rw [show p % blockBytes + n - blockBytes = 0 by omega, Nat.sub_zero, setAddress_eq hpos hn,
      if_pos h]
  · rename_i h
    rw [setAddress_eq (by unfold blockBytes at *; omega) (by omega), if_pos (by omega)]

theorem operandOf_hi {p n : Nat} (hpos : 0 < n) (hn : n ≤ 8) :
    operandOf .LDST_ALIGN_HI p n =
      some (if p % blockBytes + n ≤ blockBytes then {}
        else { address := p - p % blockBytes, size := p % blockBytes + n - blockBytes }) := by
  simp only [operandOf, setAddress_eq hpos hn]
  by_cases h : p % blockBytes + n ≤ blockBytes
  · simp only [if_pos h, ne_eq, not_true_eq_false, if_false]
  · have hbase : (p - p % blockBytes) % blockBytes = 0 := by
      unfold blockBytes
      omega
    have hover : p % blockBytes + n - blockBytes ≠ 0 := by omega
    have hfit : p % blockBytes + n - blockBytes ≤ 8 := by
      have hlt : p % blockBytes < blockBytes := Nat.mod_lt _ (by decide)
      omega
    simp only [if_neg h, ne_eq, hover, not_false_eq_true, if_true]
    rw [setAddress_eq (by omega) hfit, hbase, if_pos (by unfold blockBytes; omega)]

end LoadStoreWindow

/-! Addresses -/

section
variable {frame : Nat → Option Nat} {addr : BitVec 64} {p p' i : Nat}

theorem toNat_add_ofNat (addr : BitVec 64) (i : Nat) :
    (addr + BitVec.ofNat 64 i).toNat = (addr.toNat + i) % 2 ^ 64 := by
  rw [BitVec.toNat_add, BitVec.toNat_ofNat, Nat.add_mod_mod]

theorem translate_offset (h : translateAddress frame addr = some p) :
    p % blockBytes = addr.toNat % blockBytes := by
  obtain ⟨f, _, rfl⟩ := Option.map_eq_some_iff.mp h
  unfold blockBytes
  omega

theorem translate_within (h : translateAddress frame addr = some p)
    (hi : addr.toNat % blockBytes + i < blockBytes) :
    translateAddress frame (addr + BitVec.ofNat 64 i) = some (p + i) := by
  obtain ⟨f, hf, rfl⟩ := Option.map_eq_some_iff.mp h
  have hlt := addr.isLt
  unfold blockBytes at *
  rw [translateAddress, toNat_add_ofNat, blockBytes,
    show (addr.toNat + i) % 2 ^ 64 / 64 = addr.toNat / 64 by omega, hf, Option.map_some,
    show (addr.toNat + i) % 2 ^ 64 % 64 = addr.toNat % 64 + i by omega, Nat.add_assoc]

theorem translate_beyond (h : translateAddress frame (addr + BitVec.ofNat 64 blockBytes) = some p')
    (hi : blockBytes ≤ addr.toNat % blockBytes + i) (hlt : i < blockBytes) :
    translateAddress frame (addr + BitVec.ofNat 64 i) =
      some (p' - p' % blockBytes + (addr.toNat % blockBytes + i - blockBytes)) := by
  obtain ⟨f, hf, rfl⟩ := Option.map_eq_some_iff.mp h
  have haddr := addr.isLt
  rw [toNat_add_ofNat] at hf ⊢
  unfold blockBytes at *
  rw [translateAddress, toNat_add_ofNat, blockBytes,
    show (addr.toNat + i) % 2 ^ 64 / 64 = (addr.toNat + 64) % 2 ^ 64 / 64 by omega, hf,
    Option.map_some]
  congr 1
  omega

end

/-! Stores -/

/-- An access as the decoder makes it: the registers of the cracking are its own. -/
structure MemTransOp.Decoded (op : MemTransOp) : Prop where
  cond : op.cond = .LDST_ALIGN_NORMAL
  rc : op.rc ≠ REG_temp9

theorem numBytes_pos (op : MemTransOp) : 0 < op.numBytes := by
  have h : ∀ k : Fin 4, 0 < 1 <<< k.val := by decide
  exact h op.size

theorem numBytes_le (op : MemTransOp) : op.numBytes ≤ 8 := by
  have h : ∀ k : Fin 4, 1 <<< k.val ≤ 8 := by decide
  exact h op.size

theorem findSome_range {β : Type} {f : Nat → Option β} {n i : Nat} (hi : i < n)
    (h : ∀ j < n, j ≠ i → f j = none) : (List.range n).findSome? f = f i := by
  induction n with
  | zero => omega
  | succ n ih =>
      rw [List.range_succ, List.findSome?_append]
      by_cases hn : i = n
      · have hnone : (List.range n).findSome? f = none := by
          rw [List.findSome?_eq_none_iff]
          intro j hj
          have hj := List.mem_range.mp hj
          exact h j (by omega) (by omega)
        rw [hnone, hn]
        simp
      · rw [ih (by omega) fun j hj => h j (by omega)]
        have hlast : f n = none := h n (by omega) (fun he => hn he.symm)
        simp [hlast]

section
variable {frame : Nat → Option Nat} {memory : Nat → BitVec 8} {addr : BitVec 64}
  {op : MemTransOp} {regs : Registers} {p p' n : Nat}

theorem overflowOf_lt (addr : BitVec 64) (hpos : 0 < n) (hn : n ≤ 8) : overflowOf addr n < n := by
  unfold overflowOf blockBytes
  omega

theorem storeBytes_eq (hpos : 0 < n) (hn : n ≤ 8) (hlo : translateAddress frame addr = some p)
    (hhi : translateAddress frame (addr + BitVec.ofNat 64 blockBytes) = some p')
    (v : BitVec 64) (a : Nat) :
    storeBytes frame addr n v a =
      if p ≤ a ∧ a < p + (n - overflowOf addr n) then some (byte v (a - p))
      else if p' - p' % blockBytes ≤ a ∧ a < p' - p' % blockBytes + overflowOf addr n then
        some (byte v (n - overflowOf addr n + (a - (p' - p' % blockBytes))))
      else none := by
  have hoff := translate_offset hlo
  have hover := overflowOf_lt addr hpos hn
  have hlow : ∀ i, i < n - overflowOf addr n →
      translateAddress frame (addr + BitVec.ofNat 64 i) = some (p + i) := by
    intro i hi
    refine translate_within hlo ?_
    unfold overflowOf at hi
    have hlt : addr.toNat % blockBytes < blockBytes := Nat.mod_lt _ (by decide)
    omega
  have hhigh : ∀ i, n - overflowOf addr n ≤ i → i < n →
      translateAddress frame (addr + BitVec.ofNat 64 i) =
        some (p' - p' % blockBytes + (i - (n - overflowOf addr n))) := by
    intro i hi hlt
    unfold overflowOf at hi ⊢
    unfold blockBytes at *
    rw [translate_beyond hhi (by unfold blockBytes; omega) (by unfold blockBytes; omega)]
    congr 1
    unfold blockBytes
    omega
  have hother : ∀ i < n, ∀ b, translateAddress frame (addr + BitVec.ofNat 64 i) = some b →
      (i < n - overflowOf addr n ∧ b = p + i) ∨
        (n - overflowOf addr n ≤ i ∧
          b = p' - p' % blockBytes + (i - (n - overflowOf addr n))) := by
    intro i hi b hb
    by_cases h : i < n - overflowOf addr n
    · rw [hlow i h] at hb
      exact .inl ⟨h, (Option.some.inj hb).symm⟩
    · rw [hhigh i (by omega) hi] at hb
      exact .inr ⟨by omega, (Option.some.inj hb).symm⟩
  unfold storeBytes
  split
  · rename_i ha
    rw [findSome_range (i := a - p) (by omega), hlow _ (by omega), if_pos (by congr 1; omega)]
    intro j hj hne
    rw [if_neg]
    intro hj'
    rcases hother j hj a hj' with ⟨_, rfl⟩ | ⟨hle, rfl⟩
    · omega
    · unfold overflowOf at *
      unfold blockBytes at *
      omega
  · rename_i ha
    split
    · rename_i hb
      rw [findSome_range (i := n - overflowOf addr n + (a - (p' - p' % blockBytes)))
        (by omega), hhigh _ (by omega) (by omega),
        if_pos (by congr 1; omega)]
      intro j hj hne
      rw [if_neg]
      intro hj'
      rcases hother j hj a hj' with ⟨hlt, rfl⟩ | ⟨_, h⟩
      · omega
      · omega
    · rename_i hb
      rw [List.findSome?_eq_none_iff]
      intro j hj
      have hj := List.mem_range.mp hj
      rw [if_neg]
      intro hj'
      rcases hother j hj a hj' with ⟨_, rfl⟩ | ⟨_, rfl⟩
      · omega
      · omega

/-- One of the two parts of an access, at the address that the first uop leaves in `REG_temp9`. -/
def MemTransOp.part (cond : LdstAlign) (op : MemTransOp) : MemTransOp :=
  { op with ra := REG_temp9, rb := REG_imm, rbimm := 0, cond := cond }

/-- The registers when the parts run. -/
def MemTransOp.based (op : MemTransOp) (regs : Registers) : Registers :=
  Function.update regs REG_temp9 (op.address regs)

/-- The first uop of a cracked access. -/
def MemTransOp.baseOp (op : MemTransOp) : MemTransOp :=
  { op with
    opcode := .OP_add, size := size64, cond := .LDST_ALIGN_NORMAL, rd := REG_temp9, rc := REG_zero }

theorem put_store (hst : op.opcode = .OP_st) :
    op.put true = [op.baseOp, op.part .LDST_ALIGN_HI, op.part .LDST_ALIGN_LO] := by
  cases op
  cases hst
  rfl

theorem readRc_part (hop : op.Decoded) (cond : LdstAlign) :
    (op.part cond).readRc (op.based regs) = op.readRc regs := by
  unfold MemTransOp.readRc
  simp only [MemTransOp.part, MemTransOp.based, Function.update_of_ne hop.rc]

theorem based_temp9 (op : MemTransOp) (regs : Registers) :
    op.based regs REG_temp9 = op.address regs := by
  unfold MemTransOp.based
  rw [Function.update_self]

theorem addressGenerate_lo (hcond : op.cond = .LDST_ALIGN_LO)
    (hlo : translateAddress frame (regs op.ra) = some p) :
    op.addressGenerate frame regs =
      some { address := p, size := op.numBytes - overflowOf (regs op.ra) op.numBytes } := by
  unfold MemTransOp.addressGenerate MemTransOp.address
  simp only [hcond]
  rw [hlo, Option.bind_some, operandOf_lo (numBytes_pos op) (numBytes_le op), translate_offset hlo]
  rfl

theorem addressGenerate_hi (hcond : op.cond = .LDST_ALIGN_HI)
    (hhi : translateAddress frame (regs op.ra + BitVec.ofNat 64 blockBytes) = some p') :
    op.addressGenerate frame regs =
      some (if overflowOf (regs op.ra) op.numBytes = 0 then {}
        else { address := p' - p' % blockBytes, size := overflowOf (regs op.ra) op.numBytes }) := by
  have hoff : p' % blockBytes = (regs op.ra).toNat % blockBytes := by
    rw [translate_offset hhi, toNat_add_ofNat]
    unfold blockBytes
    omega
  have hover : overflowOf (regs op.ra) op.numBytes =
      p' % blockBytes + op.numBytes - blockBytes := by
    rw [hoff]
    rfl
  unfold MemTransOp.addressGenerate MemTransOp.address
  simp only [hcond]
  rw [hhi, Option.bind_some, operandOf_hi (numBytes_pos op) (numBytes_le op), hover]
  congr 1
  refine if_congr ?_ rfl rfl
  omega

/-- A part of a store: its operand holds a stretch of the data. -/
theorem executeStore_part {address size : Nat} (hle : size ≤ 8)
    (hgen : op.addressGenerate frame regs =
      some (if size = 0 then {} else { address := address, size := size })) :
    ∃ dw, op.executeStore frame regs = some dw ∧ ∀ a, dw.byteAt a =
      if address ≤ a ∧ a < address + size then
        some (byte (op.readRc regs)
          ((if op.cond = .LDST_ALIGN_HI then size else 0) + (a - address)))
      else none := by
  by_cases hsize : size = 0
  · refine ⟨{}, ?_, fun a => ?_⟩
    · simp only [MemTransOp.executeStore, hgen, if_pos hsize, Option.bind_some]
      rfl
    · rw [if_neg (by omega), byteAt_of_empty rfl]
  · obtain ⟨dw, hdw, _, _, hbytes, _⟩ := @setValue_fresh address size (by omega) hle
      (if op.cond = .LDST_ALIGN_HI then op.readRc regs >>> (size * 8) else op.readRc regs)
    refine ⟨dw, ?_, fun a => ?_⟩
    · simp only [MemTransOp.executeStore, hgen, hsize, if_false, Option.bind_some]
      exact hdw
    · rw [hbytes]
      split
      · split
        · rw [byte_shiftRight, Nat.add_comm]
        · rw [Nat.zero_add]
      · rfl

/-- What the two parts of a store write. -/
theorem crackedStore_written (hop : op.Decoded) (hst : op.opcode = .OP_st)
    (hlo : translateAddress frame (op.address regs) = some p)
    (hhi : translateAddress frame (op.address regs + BitVec.ofNat 64 blockBytes) = some p') :
    ∃ t, AccessState.executeAll frame memory (op.put true) { regs := regs } = some t ∧
      ∀ a, t.written a =
        if p ≤ a ∧ a < p + (op.numBytes - overflowOf (op.address regs) op.numBytes) then
          some (byte (op.readRc regs) (a - p))
        else if p' - p' % blockBytes ≤ a ∧
            a < p' - p' % blockBytes + overflowOf (op.address regs) op.numBytes then
          some (byte (op.readRc regs) (overflowOf (op.address regs) op.numBytes +
            (a - (p' - p' % blockBytes))))
        else none := by
  have hlt := overflowOf_lt (op.address regs) (numBytes_pos op) (numBytes_le op)
  have hle := numBytes_le op
  have hbase := based_temp9 op regs
  rw [← hbase] at hlo hhi hlt ⊢
  obtain ⟨hi, hexHi, hhiBytes⟩ := @executeStore_part frame (op.part .LDST_ALIGN_HI)
    (op.based regs) (p' - p' % blockBytes) (overflowOf (op.based regs REG_temp9) op.numBytes)
    (by omega) (addressGenerate_hi rfl hhi)
  obtain ⟨lo, hexLo, hloBytes⟩ := @executeStore_part frame (op.part .LDST_ALIGN_LO)
    (op.based regs) p (op.numBytes - overflowOf (op.based regs REG_temp9) op.numBytes) (by omega)
    (by rw [if_neg (by omega)]; exact addressGenerate_lo rfl hlo)
  rw [readRc_part hop] at hhiBytes hloBytes
  have hput := put_store hst
  refine ⟨{ regs := op.based regs, stores := [hi, lo] }, ?_, fun a => ?_⟩
  · have hag : AccessState.execute frame memory { regs := regs } op.baseOp =
        some { regs := op.based regs } := by
      rw [MemTransOp.based, MemTransOp.address, hop.cond]
      rfl
    have hstore : ∀ (cond : LdstAlign) (s : AccessState),
        AccessState.execute frame memory s (op.part cond) =
          ((op.part cond).executeStore frame s.regs).map fun dw =>
            { s with stores := s.stores ++ [dw] } := by
      intro cond s
      unfold AccessState.execute
      rw [show (op.part cond).opcode = .OP_st from hst]
    unfold AccessState.executeAll
    rw [hput, List.foldlM_cons, hag, Option.bind_eq_bind, Option.bind_some, List.foldlM_cons,
      hstore, hexHi, Option.map_some, Option.bind_eq_bind, Option.bind_some, List.foldlM_cons,
      hstore, hexLo, Option.map_some, Option.bind_eq_bind, Option.bind_some, List.foldlM_nil]
    rfl
  · change (lo.byteAt a).or ((hi.byteAt a).or none) = _
    rw [hloBytes, hhiBytes, Option.or_none]
    split
    · rw [Option.some_or]
      congr 2
      exact Nat.zero_add _
    · rw [Option.none_or]
      rfl

/-- The store itself, where it does not cross. -/
theorem uncrackedStore_written (hop : op.Decoded) (hst : op.opcode = .OP_st)
    (hlo : translateAddress frame (op.address regs) = some p)
    (hin : overflowOf (op.address regs) op.numBytes = 0) :
    ∃ t, AccessState.executeAll frame memory (op.put false) { regs := regs } = some t ∧
      ∀ p', translateAddress frame (op.address regs + BitVec.ofNat 64 blockBytes) = some p' →
        t.written = storeBytes frame (op.address regs) op.numBytes (op.readRc regs) := by
  have hpos := numBytes_pos op
  have hle := numBytes_le op
  have hgen : op.addressGenerate frame regs = some { address := p, size := op.numBytes } := by
    unfold MemTransOp.addressGenerate
    rw [hlo, Option.bind_some, hop.cond, operandOf_normal hpos hle]
    rw [translate_offset hlo]
    unfold overflowOf at hin
    omega
  obtain ⟨dw, hex, hbytes⟩ := @executeStore_part frame op regs p op.numBytes hle
    (by rw [hgen, if_neg (by omega)])
  refine ⟨{ regs := regs, stores := [dw] }, ?_, fun p' hhi => ?_⟩
  · unfold AccessState.executeAll
    change [op].foldlM _ _ = _
    rw [List.foldlM_cons, AccessState.execute, hst]
    simp only [hex, Option.map_some]
    rfl
  · funext a
    rw [storeBytes_eq hpos hle hlo hhi, hin]
    change (dw.byteAt a).or none = _
    rw [hbytes, hop.cond, Option.or_none, Nat.sub_zero]
    split
    · congr 2
      exact Nat.zero_add _
    · rw [if_neg (by omega)]

/-- A cracked store is the store exactly if the bytes of its high part, which start as many
bytes up as it is long, are the ones that belong there. -/
theorem cracked_store_iff (hop : op.Decoded) (hst : op.opcode = .OP_st)
    (hlo : translateAddress frame (op.address regs) = some p)
    (hhi : translateAddress frame (op.address regs + BitVec.ofNat 64 blockBytes) = some p') :
    ∃ t, AccessState.executeAll frame memory (op.put true) { regs := regs } = some t ∧
      (t.written = storeBytes frame (op.address regs) op.numBytes (op.readRc regs) ↔
        ∀ j < overflowOf (op.address regs) op.numBytes,
          byte (op.readRc regs) (overflowOf (op.address regs) op.numBytes + j) =
            byte (op.readRc regs)
              (op.numBytes - overflowOf (op.address regs) op.numBytes + j)) := by
  obtain ⟨t, ht, hwritten⟩ := crackedStore_written hop hst hlo hhi
  have hsingle := storeBytes_eq (numBytes_pos op) (numBytes_le op) hlo hhi (op.readRc regs)
  have hoff := translate_offset hlo
  refine ⟨t, ht, fun h j hj => ?_, fun h => ?_⟩
  · -- the bytes of the next block
    have ha := congrFun h (p' - p' % blockBytes + j)
    have hlow : ¬ (p ≤ p' - p' % blockBytes + j ∧ p' - p' % blockBytes + j <
        p + (op.numBytes - overflowOf (op.address regs) op.numBytes)) := by
      have hle := numBytes_le op
      unfold overflowOf blockBytes at *
      omega
    have hhigh : p' - p' % blockBytes ≤ p' - p' % blockBytes + j ∧ p' - p' % blockBytes + j <
        p' - p' % blockBytes + overflowOf (op.address regs) op.numBytes := by
      omega
    rw [hwritten, hsingle, if_neg hlow, if_pos hhigh, if_neg hlow, if_pos hhigh,
      Nat.add_sub_cancel_left] at ha
    exact Option.some.inj ha
  · funext a
    rw [hwritten, hsingle]
    split
    · rfl
    · split
      · rename_i ha
        rw [h _ (by omega)]
      · rfl

end

/-- `rax` to the address in `rcx`. -/
def storeRax (size : Fin 4) : MemTransOp :=
  { opcode := .OP_st, size := size, ra := REG_rcx, rb := REG_imm, rc := REG_rax }

/-- The address in `rcx`, the value in `rax`. -/
def storeRegisters (addr value : BitVec 64) : Registers :=
  fun r => if r = REG_rcx then addr else if r = REG_rax then value else 0

theorem storeRax_decoded (size : Fin 4) : (storeRax size).Decoded :=
  ⟨rfl, show REG_rax ≠ REG_temp9 by decide⟩

/-- Two bytes across the end of a block: one in each, and the shift is right. -/
theorem cracked_store_iff_twoBytes :
    ∃ t, AccessState.executeAll some (fun _ => 0) ((storeRax 1).put true)
        { regs := storeRegisters 63 0x2211 } = some t ∧
      t.written = storeBytes some 63 2 0x2211 := by
  obtain ⟨t, ht, hiff⟩ := @cracked_store_iff some (fun _ => 0) (storeRax 1)
    (storeRegisters 63 0x2211) 63 127 (storeRax_decoded 1) rfl rfl rfl
  exact ⟨t, ht, hiff.mpr (by decide)⟩

/-- Eight bytes, five of them in the next block: these are taken from byte 5 on, not 3. -/
theorem cracked_store_wrong_data : ¬ ∀ frame memory op regs t, MemTransOp.Decoded op →
    op.opcode = .OP_st →
      AccessState.executeAll frame memory (op.put true) { regs := regs } = some t →
        t.written = storeBytes frame (op.address regs) op.numBytes (op.readRc regs) := by
  intro h
  have hrun : (AccessState.executeAll some (fun _ => 0) ((storeRax 3).put true)
      { regs := storeRegisters 61 0x8877665544332211 }).map (·.written 64) = some (some 0x66) := by
    decide
  obtain ⟨t, ht, hbyte⟩ := Option.map_eq_some_iff.mp hrun
  have hsame := congrFun (h some (fun _ => 0) (storeRax 3)
    (storeRegisters 61 0x8877665544332211) t (storeRax_decoded 3) rfl ht) 64
  rw [hbyte] at hsame
  exact absurd hsame (by decide)

end FeS2.Pyrite
