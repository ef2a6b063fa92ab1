import FeS2.Pyrite.CrackedAccess
import FeS2.Pyrite.LoadValues

/-!
The value of a cracked load, byte by byte. The low part brings eight bytes, or
all up to the end of the block; nothing cuts them to the size of the load or
extends them where the high part is empty, and a sign-extending high part
extends its own bytes without the low ones.
-/

namespace FeS2.Pyrite
open DoubleWord LoadStoreWindow

/-- The byte above the bytes of a load. -/
def fillByte (opcode : MemOpcode) (last : BitVec 8) : BitVec 8 :=
  if opcode = .OP_ldx then signByte last else 0

section
variable {frame : Nat → Option Nat} {memory : Nat → BitVec 8} {addr : BitVec 64}
  {op : MemTransOp} {regs : Registers} {p p' n i : Nat}

theorem byte_loadValue (opcode : MemOpcode) (hpos : 0 < n) (hn : n ≤ 8) (hi : i < 8) :
    byte (loadValue frame memory opcode addr n) i =
      if i < n then byteFrom frame memory addr i
      else fillByte opcode (byteFrom frame memory addr (n - 1)) := by
  have hbytes : ∀ k < 8, byte (ofBytes fun i => if i < n then byteFrom frame memory addr i else 0)
      k = if k < n then byteFrom frame memory addr k else 0 :=
    fun k hk => byte_ofBytes _ hk
  unfold loadValue fillByte
  simp only
  split
  · rw [byte_signext64 _ hpos hn hi, hbytes i hi, hbytes (n - 1) (by omega),
      if_pos (show n - 1 < n by omega)]
    split <;> rfl
  · exact hbytes i hi

/-- The bytes of an access, where they are in memory. -/
theorem byteFrom_within (hlo : translateAddress frame addr = some p)
    (hi : addr.toNat % blockBytes + i < blockBytes) :
    byteFrom frame memory addr i = memory (p + i) := by
  unfold byteFrom
  rw [translate_within hlo hi]
  rfl

theorem byteFrom_beyond
    (hhi : translateAddress frame (addr + BitVec.ofNat 64 blockBytes) = some p')
    (hi : blockBytes ≤ addr.toNat % blockBytes + i) (hlt : i < blockBytes) :
    byteFrom frame memory addr i =
      memory (p' - p' % blockBytes + (addr.toNat % blockBytes + i - blockBytes)) := by
  unfold byteFrom
  rw [translate_beyond hhi hi hlt]
  rfl

/-- A load of an operand with bytes, and what it reads. -/
theorem completeLoad_part {address size : Nat} (hpos : 0 < size) (hle : size ≤ 8)
    (hgen : op.addressGenerate frame regs = some { address := address, size := size }) :
    ∃ dw, op.completeLoad frame memory regs = some (op.loadResult (op.readRb regs) dw) ∧
      dw.size = size ∧
      ∀ i < 8, byte dw.value i = if i < size then memory (address + i) else 0 := by
  obtain ⟨dw, hdw, _, hsize, _, hvalue⟩ := @setValue_fresh address size hpos hle
    (readFromSimicsMemory memory address size)
  refine ⟨dw, ?_, hsize, fun i hi => ?_⟩
  · have hne : ¬ size = 0 := by omega
    simp only [MemTransOp.completeLoad, hgen, Option.bind_some, hne, if_false, hdw, Option.map_some]
  · rw [hvalue i hi]
    split
    · rename_i h
      exact byte_readFromSimicsMemory memory address h hle
    · rfl

/-- The load itself, where it does not cross. -/
theorem uncrackedLoad_value (hop : op.Decoded) (hld : op.opcode.isload) (hrd : op.rd ≠ REG_zero)
    (hlo : translateAddress frame (op.address regs) = some p)
    (hin : overflowOf (op.address regs) op.numBytes = 0) :
    ∃ t, AccessState.executeAll frame memory (op.put false) { regs := regs } = some t ∧
      t.regs op.rd = loadValue frame memory op.opcode (op.address regs) op.numBytes := by
  have hpos := numBytes_pos op
  have hle := numBytes_le op
  have hoff := translate_offset hlo
  unfold overflowOf at hin
  have hgen : op.addressGenerate frame regs = some { address := p, size := op.numBytes } := by
    unfold MemTransOp.addressGenerate
    rw [hlo, Option.bind_some, hop.cond, operandOf_normal hpos hle]
    omega
  obtain ⟨dw, hex, _, hbytes⟩ := @completeLoad_part frame memory op regs p op.numBytes hpos hle hgen
  have hexec : AccessState.execute frame memory { regs := regs } op =
      (op.completeLoad frame memory regs).map
        (AccessState.setReg op.rd { regs := regs }) := by
    unfold AccessState.execute
    cases hopcode : op.opcode <;> simp [hopcode, MemOpcode.isload] at hld ⊢
  have hvalue : op.loadResult (op.readRb regs) dw =
      loadValue frame memory op.opcode (op.address regs) op.numBytes := by
    have hread : ∀ i < 8, byte dw.value i =
        if i < op.numBytes then byteFrom frame memory (op.address regs) i else 0 := by
      intro i hi
      rw [hbytes i hi]
      refine ite_congr rfl (fun h => ?_) fun _ => rfl
      have hblock : (op.address regs).toNat % blockBytes + i < blockBytes := by omega
      exact (byteFrom_within hlo hblock).symm
    apply eq_of_bytes
    intro i hi
    rw [byte_loadValue _ hpos hle hi]
    unfold MemTransOp.loadResult fillByte
    rw [hop.cond]
    split
    · rw [byte_signext64 _ hpos hle hi, hread i hi, hread (op.numBytes - 1) (by omega),
        if_pos (show op.numBytes - 1 < op.numBytes by omega)]
      split <;> rfl
    · rw [if_neg (by decide)]
      exact hread i hi
  refine ⟨AccessState.setReg op.rd { regs := regs } (op.loadResult (op.readRb regs) dw), ?_, ?_⟩
  · unfold AccessState.executeAll
    change [op].foldlM _ _ = _
    rw [List.foldlM_cons, hexec, hex]
    rfl
  · unfold AccessState.setReg
    rw [if_neg hrd]
    simp only [Function.update_self]
    exact hvalue

/-- The byte that a cracked load puts at place `i` of the register. -/
def crackedByte (frame : Nat → Option Nat) (memory : Nat → BitVec 8) (opcode : MemOpcode)
    (addr : BitVec 64) (n i : Nat) : BitVec 8 :=
  if overflowOf addr n = 0 then
    if addr.toNat % blockBytes + i < blockBytes then byteFrom frame memory addr i else 0
  else if opcode = .OP_ldx then
    if i < overflowOf addr n then byteFrom frame memory addr (n - overflowOf addr n + i) else 0
  else if i < n then byteFrom frame memory addr i
  else 0

def MemTransOp.lowPart (op : MemTransOp) : MemTransOp :=
  { op.part .LDST_ALIGN_LO with rd := REG_temp4, size := size64 }

def MemTransOp.highPart (op : MemTransOp) : MemTransOp :=
  { op.part .LDST_ALIGN_HI with rb := REG_temp4 }

theorem put_load (hld : op.opcode.isload) (hctx : op.ra ≠ REG_ctx) :
    op.put true = [op.baseOp, op.lowPart, op.highPart] := by
  unfold MemTransOp.put MemTransOp.splitUnaligned
  simp only [hld, hctx, ne_eq, not_false_eq_true, decide_true, Bool.and_self, Bool.true_or, if_true]
  rfl

theorem execute_load {s : AccessState} (hld : op.opcode.isload) :
    AccessState.execute frame memory s op =
      (op.completeLoad frame memory s.regs).map (s.setReg op.rd) := by
  unfold AccessState.execute
  cases hopcode : op.opcode <;> simp [hopcode, MemOpcode.isload] at hld ⊢

/-- The low part brings the bytes up to the end of the block, eight at most. -/
theorem lowPart_value (hlo : translateAddress frame (op.address regs) = some p) :
    ∃ v, op.lowPart.completeLoad frame memory (op.based regs) = some v ∧
      ∀ i < 8, byte v i =
        if (op.address regs).toNat % blockBytes + i < blockBytes then
          byteFrom frame memory (op.address regs) i
        else 0 := by
  have hbase := based_temp9 op regs
  have hnum : op.lowPart.numBytes = 8 := rfl
  have hlt := overflowOf_lt (op.address regs) (show 0 < 8 by decide) le_rfl
  have hgen := @addressGenerate_lo frame op.lowPart (op.based regs) p rfl
    (by rw [← hlo, ← hbase]; rfl)
  rw [hnum, show (op.based regs) op.lowPart.ra = op.address regs from hbase] at hgen
  obtain ⟨dw, hex, _, hbytes⟩ := @completeLoad_part frame memory op.lowPart (op.based regs) p
    (8 - overflowOf (op.address regs) 8) (by omega) (by omega) hgen
  refine ⟨_, hex, fun i hi => ?_⟩
  have hvalue : byte (op.lowPart.loadResult (op.lowPart.readRb (op.based regs)) dw) i =
      byte dw.value i := by
    unfold MemTransOp.loadResult
    split
    · rw [hnum, byte_signext64 _ (by decide) le_rfl hi, if_pos hi]
    · rw [if_neg (show op.lowPart.cond ≠ .LDST_ALIGN_HI by simp [MemTransOp.lowPart,
        MemTransOp.part])]
  rw [hvalue, hbytes i hi]
  unfold overflowOf blockBytes
  by_cases h : (op.address regs).toNat % 64 + i < 64
  · rw [if_pos h, if_pos (by omega)]
    exact (byteFrom_within hlo (by unfold blockBytes; omega)).symm
  · rw [if_neg h, if_neg (by omega)]

/-- The high part takes the low one over, or puts its bytes above it. -/
theorem highPart_value {regs' : Registers} (hra : regs' REG_temp9 = op.address regs)
    (hhi : translateAddress frame (op.address regs + BitVec.ofNat 64 blockBytes) = some p')
    (hrb : ∀ i < 8, byte (regs' REG_temp4) i =
      if (op.address regs).toNat % blockBytes + i < blockBytes then
        byteFrom frame memory (op.address regs) i
      else 0) :
    ∃ v, op.highPart.completeLoad frame memory regs' = some v ∧ ∀ i < 8, byte v i =
      crackedByte frame memory op.opcode (op.address regs) op.numBytes i := by
  have hpos := numBytes_pos op
  have hle := numBytes_le op
  have hlt := overflowOf_lt (op.address regs) hpos hle
  have hgen := @addressGenerate_hi frame op.highPart regs' p' rfl
    (by rw [← hhi, ← hra]; rfl)
  rw [show regs' op.highPart.ra = op.address regs from hra,
    show op.highPart.numBytes = op.numBytes from rfl] at hgen
  have hreadRb : op.highPart.readRb regs' = regs' REG_temp4 := rfl
  unfold crackedByte
  by_cases hover : overflowOf (op.address regs) op.numBytes = 0
  · refine ⟨regs' REG_temp4, ?_, fun i hi => ?_⟩
    · rw [if_pos hover] at hgen
      simp only [MemTransOp.completeLoad, hgen, Option.bind_some, if_true, hreadRb]
    · rw [if_pos hover]
      exact hrb i hi
  · rw [if_neg hover] at hgen
    obtain ⟨dw, hex, hsize, hbytes⟩ := @completeLoad_part frame memory op.highPart regs'
      (p' - p' % blockBytes) (overflowOf (op.address regs) op.numBytes) (by omega) (by omega) hgen
    have hread : ∀ k < overflowOf (op.address regs) op.numBytes,
        memory (p' - p' % blockBytes + k) = byteFrom frame memory (op.address regs)
          (op.numBytes - overflowOf (op.address regs) op.numBytes + k) := by
      intro k hk
      unfold overflowOf blockBytes at *
      rw [byteFrom_beyond hhi (by unfold blockBytes; omega) (by unfold blockBytes; omega)]
      congr 1
      unfold blockBytes
      omega
    refine ⟨_, hex, fun i hi => ?_⟩
    rw [if_neg hover]
    unfold MemTransOp.loadResult
    rw [show op.highPart.opcode = op.opcode from rfl,
      show op.highPart.numBytes = op.numBytes from rfl]
    split
    · -- its own bytes extended: they end below the sign
      have htop : byte dw.value (op.numBytes - 1) = 0 := by
        rw [hbytes _ (by omega), if_neg]
        unfold overflowOf blockBytes at *
        omega
      rw [byte_signext64 _ hpos hle hi, htop]
      by_cases hin : i < overflowOf (op.address regs) op.numBytes
      · rw [if_pos (by omega), if_pos hin, hbytes i hi, if_pos hin, hread i hin]
      · rw [if_neg hin]
        split
        · rw [hbytes i hi, if_neg hin]
        · rfl
    · rw [if_pos (show op.highPart.cond = .LDST_ALIGN_HI from rfl), hsize, hreadRb, byte_or,
        hrb i hi]
      by_cases hlow : i < op.numBytes - overflowOf (op.address regs) op.numBytes
      · have hblock : (op.address regs).toNat % blockBytes + i < blockBytes := by
          unfold overflowOf at hlow hover
          omega
        rw [if_pos hblock, byte_shiftLeft_lt _ hlow, if_pos (by omega)]
        exact BitVec.or_zero
      · have hblock : ¬ (op.address regs).toNat % blockBytes + i < blockBytes := by
          unfold overflowOf blockBytes at *
          omega
        rw [if_neg hblock, byte_shiftLeft _ hi (by omega), hbytes _ (by omega)]
        refine BitVec.zero_or.trans ?_
        by_cases hin : i < op.numBytes
        · rw [if_pos (by omega), if_pos hin, hread _ (by omega)]
          congr 1
          omega
        · rw [if_neg (by omega), if_neg hin]

/-- The register after the two parts of a load. -/
theorem crackedLoad_value (hop : op.Decoded) (hld : op.opcode.isload) (hctx : op.ra ≠ REG_ctx)
    (hrd : op.rd ≠ REG_zero)
    (hlo : translateAddress frame (op.address regs) = some p)
    (hhi : translateAddress frame (op.address regs + BitVec.ofNat 64 blockBytes) = some p') :
    ∃ t, AccessState.executeAll frame memory (op.put true) { regs := regs } = some t ∧
      ∀ i < 8, byte (t.regs op.rd) i =
        crackedByte frame memory op.opcode (op.address regs) op.numBytes i := by
  obtain ⟨low, hlow, hlowBytes⟩ := @lowPart_value frame memory op regs p hlo
  have htemp4 : Function.update (op.based regs) REG_temp4 low REG_temp4 = low :=
    Function.update_self _ _ _
  have htemp9 : Function.update (op.based regs) REG_temp4 low REG_temp9 = op.address regs := by
    rw [Function.update_of_ne (show REG_temp9 ≠ REG_temp4 by decide), based_temp9]
  obtain ⟨v, hhigh, hbytes⟩ := @highPart_value frame memory op regs p' _ htemp9 hhi
    (by rw [htemp4]; exact hlowBytes)
  refine ⟨AccessState.setReg op.rd
    { regs := Function.update (op.based regs) REG_temp4 low } v, ?_, fun i hi => ?_⟩
  · have hag : AccessState.execute frame memory { regs := regs } op.baseOp =
        some { regs := op.based regs } := by
      rw [MemTransOp.based, MemTransOp.address, hop.cond]
      rfl
    unfold AccessState.executeAll
    rw [put_load hld hctx, List.foldlM_cons, hag, Option.bind_eq_bind, Option.bind_some,
      List.foldlM_cons, execute_load (show op.lowPart.opcode.isload from hld), hlow,
      Option.map_some, Option.bind_eq_bind, Option.bind_some, List.foldlM_cons,
      execute_load (show op.highPart.opcode.isload from hld)]
    change ((op.highPart.completeLoad frame memory
      (Function.update (op.based regs) REG_temp4 low)).map _).bind _ = _
    rw [hhigh]
    rfl
  · unfold AccessState.setReg
    rw [if_neg hrd]
    simp only [Function.update_self]
    exact hbytes i hi

/-- When the cracked load has the bytes of the load: nothing above the bytes of a load that does
not cross but what extends them, and nothing but zeros in one that crosses and is
sign-extended. -/
def CracksExactly (frame : Nat → Option Nat) (memory : Nat → BitVec 8) (opcode : MemOpcode)
    (addr : BitVec 64) (n : Nat) : Prop :=
  if overflowOf addr n = 0 then
    ∀ i < 8, n ≤ i →
      (if addr.toNat % blockBytes + i < blockBytes then byteFrom frame memory addr i else 0) =
        fillByte opcode (byteFrom frame memory addr (n - 1))
  else opcode = .OP_ldx → ∀ i < n, byteFrom frame memory addr i = 0

/-- A crossing sign-extended load keeps its high bytes alone: these are the value only if all
bytes are zero, each being the one so many places further up. -/
theorem zero_of_shifted {f : Nat → BitVec 8} {o : Nat} (ho : o < n)
    (h : ∀ i < n, f i = if i < o then f (n - o + i) else 0) : ∀ i < n, f i = 0 := by
  intro i hi
  by_cases hin : i < o
  · rw [h i hi, if_pos hin]
    exact zero_of_shifted ho h _ (by omega)
  · rw [h i hi, if_neg hin]
termination_by i => n - i

theorem crackedByte_iff {opcode : MemOpcode} (hpos : 0 < n) (hn : n ≤ 8) :
    (∀ i < 8, crackedByte frame memory opcode addr n i =
      byte (loadValue frame memory opcode addr n) i) ↔
      CracksExactly frame memory opcode addr n := by
  have hlt := overflowOf_lt addr hpos hn
  unfold crackedByte CracksExactly
  by_cases hover : overflowOf addr n = 0
  · simp only [if_pos hover]
    constructor
    · intro h i hi hni
      rw [h i hi, byte_loadValue opcode hpos hn hi, if_neg (by omega)]
    · intro h i hi
      rw [byte_loadValue opcode hpos hn hi]
      by_cases hin : i < n
      · have hblock : addr.toNat % blockBytes + i < blockBytes := by
          unfold overflowOf at hover
          omega
        rw [if_pos hblock, if_pos hin]
      · rw [if_neg hin]
        exact h i hi (by omega)
  · simp only [if_neg hover]
    by_cases hldx : opcode = .OP_ldx
    · subst hldx
      simp only [if_true, true_implies]
      constructor
      · intro h
        refine zero_of_shifted hlt fun i hi => ?_
        rw [h i (by omega), byte_loadValue .OP_ldx hpos hn (by omega), if_pos hi]
      · intro h i hi
        have hzero : fillByte .OP_ldx (byteFrom frame memory addr (n - 1)) = 0 := by
          rw [h _ (by omega)]
          rfl
        rw [byte_loadValue .OP_ldx hpos hn hi, hzero]
        by_cases hin : i < overflowOf addr n
        · rw [if_pos hin, if_pos (by omega), h _ (by omega), h _ (by omega)]
        · rw [if_neg hin]
          split
          · rename_i hin'
            exact (h i hin').symm
          · rfl
    · refine iff_of_true (fun i hi => ?_) fun h => absurd h hldx
      rw [if_neg hldx, byte_loadValue opcode hpos hn hi, fillByte, if_neg hldx]

/-- A cracked load has the value of the load exactly if what the parts leave above its bytes, or
lose of them, makes no difference. -/
theorem cracked_load_iff (hop : op.Decoded) (hld : op.opcode.isload) (hctx : op.ra ≠ REG_ctx)
    (hrd : op.rd ≠ REG_zero)
    (hlo : translateAddress frame (op.address regs) = some p)
    (hhi : translateAddress frame (op.address regs + BitVec.ofNat 64 blockBytes) = some p') :
    ∃ t, AccessState.executeAll frame memory (op.put true) { regs := regs } = some t ∧
      (t.regs op.rd = loadValue frame memory op.opcode (op.address regs) op.numBytes ↔
        CracksExactly frame memory op.opcode (op.address regs) op.numBytes) := by
  obtain ⟨t, ht, hbytes⟩ := @crackedLoad_value frame memory op regs p p' hop hld hctx hrd hlo hhi
  refine ⟨t, ht, ?_⟩
  rw [← crackedByte_iff (numBytes_pos op) (numBytes_le op)]
  constructor
  · intro h i hi
    rw [← hbytes i hi, h]
  · intro h
    apply eq_of_bytes
    intro i hi
    rw [hbytes i hi, h i hi]

end

/-- `rax` from the address in `rcx`. -/
def loadRax (opcode : MemOpcode) (size : Fin 4) : MemTransOp :=
  { opcode := opcode, size := size, rd := REG_rax, ra := REG_rcx, rb := REG_imm }

def addressIn (addr : BitVec 64) : Registers := fun r => if r = REG_rcx then addr else 0

theorem loadRax_decoded (opcode : MemOpcode) (size : Fin 4) : (loadRax opcode size).Decoded :=
  ⟨rfl, show REG_zero ≠ REG_temp9 by decide⟩

/-- Four bytes that cross, zero-extended. -/
theorem cracked_load_iff_crossing :
    ∃ t, AccessState.executeAll some (fun _ => 0x88) ((loadRax .OP_ld 2).put true)
        { regs := addressIn 62 } = some t ∧
      t.regs REG_rax = loadValue some (fun _ => 0x88) .OP_ld 62 4 := by
  obtain ⟨t, ht, hiff⟩ := @cracked_load_iff some (fun _ => 0x88) (loadRax .OP_ld 2)
    (addressIn 62) 62 126 (loadRax_decoded .OP_ld 2) rfl (by decide) (by decide) rfl rfl
  refine ⟨t, ht, hiff.mpr ?_⟩
  unfold CracksExactly
  rw [if_neg (by decide)]
  intro h
  cases h

/-- Two bytes across the end of a block, sign-extended: the low one is lost. -/
theorem cracked_load_not_merged : ¬ ∀ frame memory op regs t, MemTransOp.Decoded op →
    op.opcode.isload → op.ra ≠ REG_ctx → op.rd ≠ REG_zero →
      AccessState.executeAll frame memory (op.put true) { regs := regs } = some t →
        t.regs op.rd = loadValue frame memory op.opcode (op.address regs) op.numBytes := by
  intro h
  have hrun : (AccessState.executeAll some (fun _ => 0x11) ((loadRax .OP_ldx 1).put true)
      { regs := addressIn 63 }).map (·.regs REG_rax) = some 0x11 := by
    decide
  obtain ⟨t, ht, hvalue⟩ := Option.map_eq_some_iff.mp hrun
  have hsame := h some (fun _ => 0x11) (loadRax .OP_ldx 1) (addressIn 63) t
    (loadRax_decoded .OP_ldx 1) rfl (by decide) (by decide) ht
  rw [show (loadRax .OP_ldx 1).rd = REG_rax from rfl, hvalue] at hsame
  exact absurd hsame (by decide)

end FeS2.Pyrite
