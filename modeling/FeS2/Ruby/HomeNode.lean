import Mathlib.Algebra.Group.Nat.Defs
import FeS2.Common.Address

/-!
Where the directory entry of a block lives: the home node and the index in the table of that
node are cut from the address by bit ranges that the parameters fix. A parameter set is accepted
when the start of the simulator, down to the first `printConfig`, gets through: no check of
`init_simulator` fails and no shift on the way has a count for which it is undefined.
-/

namespace FeS2.Ruby
open FeS2.Common

/-- The parameters that the mapping reads. `NUM_NODES` is an `int`. -/
structure Param where
  NUM_NODES : Int
  NUM_NODES_BITS : Int
  MEMORY_SIZE_BITS : Int
  DATA_BLOCK_BITS : Int
  num_nodes_lt : NUM_NODES < 2147483648

/-- The loop of `log_int`. -/
def logLoop (n : Nat) : Nat :=
  if n ≥ 2 then logLoop (n >>> 1) + 1 else 0
termination_by n
decreasing_by rw [Nat.shiftRight_eq_div_pow]; omega

def logInt (n : Int) : Option Nat :=
  if n > 0 then some (logLoop n.toNat) else none

def isPowerOf2 (n : Int) : Option Bool := do
  let bits ← logInt n
  some (n = (1 <<< bits : Nat))

/-- `int64(1) << count`. -/
def shiftInt64 (count : Int) : Option Nat :=
  if 0 ≤ count ∧ count < 63 then some (1 <<< count.toNat) else none

/-- `1 << count`. -/
def shiftInt (count : Int) : Option Nat :=
  if 0 ≤ count ∧ count < 31 then some (1 <<< count.toNat) else none

/-- The table of one directory. -/
structure DirectoryTable (ε : Type) where
  m_id : Int
  m_size : Nat
  m_entries : Nat → Option ε

namespace Param

def initSimulator (p : Param) : Option Param :=
  if p.NUM_NODES = 0 then none
  else
    (isPowerOf2 p.NUM_NODES).bind fun power =>
      if power = false then none
      else if p.NUM_NODES_BITS ≠ 0 then none
      else (logInt p.NUM_NODES).map fun bits : Nat => { p with NUM_NODES_BITS := (bits : Int) }

def memoryModuleBits (p : Param) : Int :=
  p.MEMORY_SIZE_BITS - p.DATA_BLOCK_BITS - p.NUM_NODES_BITS

/-- The constructor of a directory. -/
def directoryMemory {ε : Type} (p : Param) (id : Int) : Option (DirectoryTable ε) := do
  let size ← shiftInt64 p.memoryModuleBits
  some { m_id := id, m_size := size, m_entries := fun _ => none }

/-- The sizes that `printConfig` prints: of the memory, of a block and of a table. -/
def printConfig (p : Param) : Option (Nat × Nat × Nat) := do
  let bytes ← shiftInt64 p.MEMORY_SIZE_BITS
  let blockBytes ← shiftInt p.DATA_BLOCK_BITS
  let lines ← shiftInt64 p.memoryModuleBits
  some (bytes, blockBytes, lines)

/-- `rubyInit`, as far as the parameters here decide it. -/
def rubyInit (p : Param) : Option Param := do
  let q ← p.initSimulator
  let _ ← q.printConfig
  some q

def mapAddressToHomeNode (p : Param) (addr : Address) : Option Int := do
  let bits ← addr.bitSelect p.DATA_BLOCK_BITS (p.DATA_BLOCK_BITS + p.NUM_NODES_BITS - 1)
  let id := (bits.setWidth 32).toInt
  if id < p.NUM_NODES ∧ id ≥ 0 then some id else none

def memoryModuleIndex (p : Param) (addr : Address) : Option Int := do
  let bits ← addr.bitSelect (p.DATA_BLOCK_BITS + p.NUM_NODES_BITS) Address.width
  some bits.toInt

def isPresent {ε : Type} (p : Param) (t : DirectoryTable ε) (addr : Address) : Option Bool := do
  let home ← p.mapAddressToHomeNode addr
  some (home = t.m_id)

/-- The entry of an address, made on demand. -/
def lookup {ε : Type} (p : Param) (entry : ε) (t : DirectoryTable ε) (addr : Address) :
    Option (ε × DirectoryTable ε) := do
  let here ← p.isPresent t addr
  let index ← p.memoryModuleIndex addr
  if here = true ∧ 0 ≤ index ∧ index < t.m_size then
    match t.m_entries index.toNat with
    | some e => some (e, t)
    | none =>
      some (entry,
        { t with m_entries := fun i => if i = index.toNat then some entry else t.m_entries i })
  else none

/-- An address of the memory: below `2 ^ MEMORY_SIZE_BITS`. -/
def InMemory (p : Param) (addr : Address) : Prop :=
  addr.m_address.toNat < 2 ^ p.MEMORY_SIZE_BITS.toNat

/-- A block address: its offset in a block of the configured size is zero. -/
def BlockAligned (p : Param) (addr : Address) : Prop :=
  addr.m_address.toNat % 2 ^ p.DATA_BLOCK_BITS.toNat = 0

/-- An accepted parameter set: the bit ranges of block offset, home node and index fill the
memory's addresses, one after the other. -/
structure Accepted (p : Param) (block node index : Nat) : Prop where
  block_bits : p.DATA_BLOCK_BITS = block
  node_bits : p.NUM_NODES_BITS = node
  memory_bits : p.MEMORY_SIZE_BITS = (block + node + index : Nat)
  nodes : p.NUM_NODES = (2 ^ node : Nat)
  memory_lt : block + node + index < 63

theorem logInt_of_isPowerOf2 {n : Int} (h : isPowerOf2 n = some true) :
    ∃ bits, logInt n = some bits ∧ n = (2 ^ bits : Nat) := by
  unfold isPowerOf2 at h
  cases hl : logInt n with
  | none => rw [hl] at h; cases h
  | some bits =>
    rw [hl] at h
    refine ⟨bits, rfl, ?_⟩
    have hn : n = (1 <<< bits : Nat) := of_decide_eq_true (Option.some.inj h)
    rw [Nat.one_shiftLeft] at hn
    exact hn

theorem initSimulator_cases {p q : Param} (h : p.initSimulator = some q) :
    ∃ bits : Nat, p.NUM_NODES = (2 ^ bits : Nat) ∧ q = { p with NUM_NODES_BITS := bits } := by
  unfold initSimulator at h
  split at h
  · cases h
  · cases hp : isPowerOf2 p.NUM_NODES with
    | none => simp [hp] at h
    | some power =>
      cases power with
      | false => simp [hp] at h
      | true =>
        have ⟨bits, hl, hn⟩ := logInt_of_isPowerOf2 hp
        by_cases hz : p.NUM_NODES_BITS = 0
        · refine ⟨bits, hn, ?_⟩
          simpa [hp, hl, hz] using h.symm
        · simp [hp, hz] at h

theorem shiftInt64_isSome {count : Int} {x : Nat} (h : shiftInt64 count = some x) :
    0 ≤ count ∧ count < 63 ∧ x = 2 ^ count.toNat := by
  unfold shiftInt64 at h
  split at h
  · rename_i hc
    refine ⟨hc.1, hc.2, ?_⟩
    rw [← Nat.one_shiftLeft]
    exact (Option.some.inj h).symm
  · cases h

theorem shiftInt_isSome {count : Int} {x : Nat} (h : shiftInt count = some x) :
    0 ≤ count ∧ count < 31 := by
  unfold shiftInt at h
  split at h
  · assumption
  · cases h

theorem rubyInit_accepted {p q : Param} (h : p.rubyInit = some q) :
    ∃ block node index, q.Accepted block node index := by
  unfold rubyInit at h
  cases hi : p.initSimulator with
  | none => rw [hi] at h; cases h
  | some q' =>
    have ⟨node, hn, hq⟩ := initSimulator_cases hi
    rw [hi] at h
    unfold printConfig at h
    cases hm : shiftInt64 q'.MEMORY_SIZE_BITS with
    | none => simp [hm] at h
    | some bytes =>
      cases hb : shiftInt q'.DATA_BLOCK_BITS with
      | none => simp [hm, hb] at h
      | some blockBytes =>
        cases hk : shiftInt64 q'.memoryModuleBits with
        | none => simp [hm, hb, hk] at h
        | some lines =>
          have hqq : q' = q := by simpa [hm, hb, hk] using h
          have hm' := shiftInt64_isSome hm
          have hb' := shiftInt_isSome hb
          have hk' := shiftInt64_isSome hk
          have hnode : q'.NUM_NODES_BITS = node := by rw [hq]
          have hnodes : q'.NUM_NODES = (2 ^ node : Nat) := by rw [hq]; exact hn
          rw [hqq] at hm' hb' hk' hnode hnodes
          unfold memoryModuleBits at hk'
          exact ⟨q.DATA_BLOCK_BITS.toNat, node,
            (q.MEMORY_SIZE_BITS - q.DATA_BLOCK_BITS - node).toNat,
            { block_bits := by omega
              node_bits := hnode
              memory_bits := by omega
              nodes := hnodes
              memory_lt := by omega }⟩

namespace Accepted
variable {p : Param} {block node index : Nat}

theorem node_lt (h : p.Accepted block node index) : 2 ^ node < 2147483648 := by
  have := p.num_nodes_lt
  rw [h.nodes] at this
  omega

theorem homeNode (h : p.Accepted block node index) (addr : Address) :
    p.mapAddressToHomeNode addr =
      some ((addr.m_address.toNat / 2 ^ block % 2 ^ node : Nat) : Int) := by
  have ⟨x, hx⟩ := addr.bitSelect_isSome block node
  have hval := addr.bitSelect_toNat hx
  have hlt : x.toNat < 2 ^ node := by
    rw [hval]
    exact Nat.mod_lt _ (Nat.two_pow_pos node)
  have hnode := h.node_lt
  have hid : (x.setWidth 32).toInt = x.toNat := by
    have hset : (x.setWidth 32).toNat = x.toNat := by
      rw [BitVec.toNat_setWidth, Nat.mod_eq_of_lt (by omega)]
    rw [BitVec.toInt_eq_toNat_of_lt (by omega), hset]
  unfold mapAddressToHomeNode
  rw [h.block_bits, h.node_bits, hx, ← hval]
  simp only [Option.bind_eq_bind, Option.bind_some, hid]
  apply if_pos
  rw [h.nodes]
  omega

theorem moduleIndex (h : p.Accepted block node index) {addr : Address} (ha : p.InMemory addr) :
    p.memoryModuleIndex addr =
      some ((addr.m_address.toNat / 2 ^ (block + node) : Nat) : Int) := by
  have hlt := h.memory_lt
  have hw : addr.bitSelect ((block : Int) + node) Address.width =
      some (addr.m_address >>> (block + node)) :=
    addr.bitSelect_width (by omega)
  have hsmall : addr.m_address.toNat < 2 ^ 62 := by
    unfold InMemory at ha
    rw [h.memory_bits] at ha
    exact ha.trans_le (Nat.pow_le_pow_right (by decide) (by omega))
  have hdiv : addr.m_address.toNat / 2 ^ (block + node) ≤ addr.m_address.toNat :=
    Nat.div_le_self _ _
  have hx : (addr.m_address >>> (block + node)).toNat =
      addr.m_address.toNat / 2 ^ (block + node) := by
    rw [BitVec.toNat_ushiftRight, Nat.shiftRight_eq_div_pow]
  unfold memoryModuleIndex
  rw [h.block_bits, h.node_bits, hw, ← hx]
  simp only [Option.bind_eq_bind, Option.bind_some]
  rw [BitVec.toInt_eq_toNat_of_lt (by omega)]

/-- The number of a block is its index followed by its home node: no bit is lost, none is used
twice. -/
theorem block_number (block node n : Nat) :
    2 ^ node * (n / 2 ^ (block + node)) + n / 2 ^ block % 2 ^ node = n / 2 ^ block := by
  rw [Nat.pow_add, ← Nat.div_div_eq_div_mul]
  exact Nat.div_add_mod _ _

theorem index_lt (h : p.Accepted block node index) {addr : Address} (ha : p.InMemory addr) :
    addr.m_address.toNat / 2 ^ (block + node) < 2 ^ index := by
  apply Nat.div_lt_of_lt_mul
  rw [← Nat.pow_add]
  unfold InMemory at ha
  rw [h.memory_bits] at ha
  exact ha

theorem directoryMemory_size {ε : Type} (h : p.Accepted block node index) (id : Int) :
    ∃ t, p.directoryMemory (ε := ε) id = some t ∧ t.m_id = id ∧ t.m_size = 2 ^ index := by
  have hlt := h.memory_lt
  have hbits : p.memoryModuleBits = index := by
    unfold memoryModuleBits
    rw [h.block_bits, h.node_bits, h.memory_bits]
    omega
  have hshift : shiftInt64 p.memoryModuleBits = some (2 ^ index) := by
    unfold shiftInt64
    rw [hbits, if_pos (by omega), Nat.one_shiftLeft]
    rfl
  unfold directoryMemory
  rw [hshift]
  exact ⟨_, rfl, rfl, rfl⟩

/-- The pair tells the block. -/
theorem same_block (h : p.Accepted block node index) {a b : Address}
    (ha : p.InMemory a) (hb : p.InMemory b)
    (hhome : p.mapAddressToHomeNode a = p.mapAddressToHomeNode b)
    (hindex : p.memoryModuleIndex a = p.memoryModuleIndex b) :
    a.m_address.toNat / 2 ^ block = b.m_address.toNat / 2 ^ block := by
  rw [h.homeNode, h.homeNode] at hhome
  rw [h.moduleIndex ha, h.moduleIndex hb] at hindex
  have h1 := Int.ofNat.inj (Option.some.inj hhome)
  have h2 := Int.ofNat.inj (Option.some.inj hindex)
  rw [← block_number block node, ← block_number block node b.m_address.toNat, h1, h2]

/-- The home directory of an address never refuses it. -/
theorem lookup_home {ε : Type} (h : p.Accepted block node index) {addr : Address}
    (ha : p.InMemory addr) (entry : ε) {t : DirectoryTable ε} (hsize : t.m_size = 2 ^ index)
    (hid : p.mapAddressToHomeNode addr = some t.m_id) :
    ∃ e t', p.lookup entry t addr = some (e, t') ∧ t'.m_size = t.m_size ∧
      t'.m_entries (addr.m_address.toNat / 2 ^ (block + node)) = some e := by
  have hlt := h.index_lt ha
  have hrange : 0 ≤ ((addr.m_address.toNat / 2 ^ (block + node) : Nat) : Int) ∧
      ((addr.m_address.toNat / 2 ^ (block + node) : Nat) : Int) < t.m_size := by
    rw [hsize]
    exact ⟨Int.natCast_nonneg _, Int.ofNat_lt.mpr hlt⟩
  unfold lookup isPresent
  rw [hid, h.moduleIndex ha]
  simp only [Option.bind_eq_bind, Option.bind_some, decide_true, true_and, if_pos hrange,
    Int.toNat_natCast]
  cases he : t.m_entries (addr.m_address.toNat / 2 ^ (block + node)) with
  | some e => exact ⟨e, t, rfl, rfl, he⟩
  | none => exact ⟨entry, _, rfl, rfl, if_pos rfl⟩

end Accepted

/-- What the entry of an address is found by: a directory that there is, and a place in its
table. -/
structure Located (p : Param) (addr : Address) : Prop where
  home : ∃ id, p.mapAddressToHomeNode addr = some id ∧ 0 ≤ id ∧ id < p.NUM_NODES
  entry : ∀ {ε : Type} (id : Int), ∃ (t : DirectoryTable ε) (i : Int),
    p.directoryMemory id = some t ∧ p.memoryModuleIndex addr = some i ∧ 0 ≤ i ∧ i < t.m_size

/-- In an accepted configuration every address of the memory has a home and a place there, and
no two blocks share them. -/
theorem mapping_injective {p q : Param} (h : p.rubyInit = some q) :
    (∀ a, q.InMemory a → q.Located a) ∧
    ∀ a b, q.InMemory a → q.InMemory b → q.BlockAligned a → q.BlockAligned b → a ≠ b →
      (q.mapAddressToHomeNode a, q.memoryModuleIndex a) ≠
        (q.mapAddressToHomeNode b, q.memoryModuleIndex b) := by
  have ⟨block, node, index, hq⟩ := rubyInit_accepted h
  constructor
  · intro a ha
    refine { home := ⟨_, hq.homeNode a, ?_, ?_⟩, entry := ?_ }
    · omega
    · rw [hq.nodes]
      have := Nat.mod_lt (a.m_address.toNat / 2 ^ block) (Nat.two_pow_pos node)
      omega
    · intro ε id
      have ⟨t, ht, _, hsize⟩ := hq.directoryMemory_size (ε := ε) id
      have hlt := hq.index_lt ha
      exact ⟨t, _, ht, hq.moduleIndex ha, Int.natCast_nonneg _, by rw [hsize]; omega⟩
  · intro a b ha hb hla hlb hne hpair
    have hsame := hq.same_block ha hb (congrArg Prod.fst hpair) (congrArg Prod.snd hpair)
    apply hne
    unfold BlockAligned at hla hlb
    rw [hq.block_bits, Int.toNat_natCast] at hla hlb
    apply Address.ext_toNat
    rw [← Nat.div_add_mod a.m_address.toNat (2 ^ block),
      ← Nat.div_add_mod b.m_address.toNat (2 ^ block), hsame, hla, hlb]

/-- Four nodes, blocks of 64 bytes and a megabyte. -/
def fourNodes : Param where
  NUM_NODES := 4
  NUM_NODES_BITS := 0
  MEMORY_SIZE_BITS := 20
  DATA_BLOCK_BITS := 6
  num_nodes_lt := by omega

theorem fourNodes_rubyInit : fourNodes.rubyInit = some { fourNodes with NUM_NODES_BITS := 2 } := by
  have hlog : logInt fourNodes.NUM_NODES = some 2 := by simp [fourNodes, logInt, logLoop]
  have hpower : isPowerOf2 fourNodes.NUM_NODES = some true := by
    unfold isPowerOf2
    rw [hlog]
    rfl
  have hinit : fourNodes.initSimulator = some { fourNodes with NUM_NODES_BITS := 2 } := by
    unfold initSimulator
    rw [hpower, hlog]
    rfl
  unfold rubyInit
  rw [hinit]
  rfl

theorem mapping_fourNodes :
    Located { fourNodes with NUM_NODES_BITS := 2 } ⟨0x2c0⟩ ∧
      (mapAddressToHomeNode { fourNodes with NUM_NODES_BITS := 2 } ⟨0x2c0⟩,
          memoryModuleIndex { fourNodes with NUM_NODES_BITS := 2 } ⟨0x2c0⟩) ≠
        (mapAddressToHomeNode { fourNodes with NUM_NODES_BITS := 2 } ⟨0x3c0⟩,
          memoryModuleIndex { fourNodes with NUM_NODES_BITS := 2 } ⟨0x3c0⟩) :=
  ⟨(mapping_injective fourNodes_rubyInit).1 _ (by simp [InMemory, fourNodes]),
    (mapping_injective fourNodes_rubyInit).2 _ _ (by simp [InMemory, fourNodes])
      (by simp [InMemory, fourNodes]) (by simp [BlockAligned, fourNodes])
      (by simp [BlockAligned, fourNodes]) (by decide)⟩

end Param
end FeS2.Ruby
