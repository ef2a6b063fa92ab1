import Mathlib.Data.List.Nodup
import Mathlib.Data.List.Perm.Subperm
import Mathlib.Logic.Function.Basic
import FeS2.Common.Address
import FeS2.Library.EventSystem
import FeS2.Ruby.Messages

/-!
The tag arrays of a cache. A way is free when its permission is `NotPresent`, and keeps the tag
of the block it last held. The data of the blocks are left out. An assertion that fails ends the
simulation: `none`.
-/

namespace FeS2.Ruby
open FeS2.Common EventSystem

structure CacheEntry where
  Address : Address
  LastRef : Nat
  Permission : AccessPermission
  deriving DecidableEq, Repr

structure CacheMemory where
  DATA_BLOCK_BITS : Nat
  m_cache_num_set_bits : Nat
  m_cache_assoc : Nat
  m_cache : Nat → Nat → CacheEntry
  /-- `1 << numSetBits` is an `int`. -/
  set_bits_lt : m_cache_num_set_bits < 31

namespace CacheMemory

/-- The constructor, with the default entry in every way. -/
def construct (blockBits numSetBits cacheAssoc : Nat) (h : numSetBits < 31) : CacheMemory where
  DATA_BLOCK_BITS := blockBits
  m_cache_num_set_bits := numSetBits
  m_cache_assoc := cacheAssoc
  m_cache _ _ := { Address := ⟨0⟩, LastRef := 0, Permission := .NotPresent }
  set_bits_lt := h

def addressToCacheSet (c : CacheMemory) (address : Address) : Option Nat :=
  if address.IsLine then
    (address.bitSelect c.DATA_BLOCK_BITS (c.DATA_BLOCK_BITS + c.m_cache_num_set_bits - 1)).bind
      fun temp =>
        if temp.toInt < (1 <<< c.m_cache_num_set_bits : Nat) ∧ temp.toInt ≥ 0 then
          some temp.toInt.toNat
        else none
  else none

def findTagInSet (c : CacheMemory) (cacheSet : Nat) (tag : Address) : Option Nat :=
  (List.range c.m_cache_assoc).find? fun i =>
    (c.m_cache cacheSet i).Address = tag ∧ (c.m_cache cacheSet i).Permission ≠ .NotPresent

def isTagPresent (c : CacheMemory) (address : Address) : Option Bool :=
  (c.addressToCacheSet address).map fun cacheSet => (c.findTagInSet cacheSet address).isSome

def cacheAvail (c : CacheMemory) (address : Address) : Option Bool :=
  (c.addressToCacheSet address).map fun cacheSet =>
    (List.range c.m_cache_assoc).any fun i =>
      (c.m_cache cacheSet i).Address = address ∨ (c.m_cache cacheSet i).Permission = .NotPresent

/-- Set and way of the entry of a block. -/
def lookup (c : CacheMemory) (address : Address) : Option (Nat × Nat) :=
  (c.addressToCacheSet address).bind fun cacheSet =>
    (c.findTagInSet cacheSet address).map fun loc => (cacheSet, loc)

def setEntry (c : CacheMemory) (cacheSet way : Nat) (entry : CacheEntry) : CacheMemory :=
  { c with
    m_cache := fun s i => if s = cacheSet ∧ i = way then entry else c.m_cache s i }

/-- That no way is free is the error at the end of the loop. -/
def allocate (time : Nat) (c : CacheMemory) (address : Address) : Option CacheMemory :=
  if c.isTagPresent address = some false ∧ c.cacheAvail address = some true then
    (c.addressToCacheSet address).bind fun cacheSet =>
      ((List.range c.m_cache_assoc).find? fun i =>
          (c.m_cache cacheSet i).Permission = .NotPresent).map fun i =>
        c.setEntry cacheSet i { Address := address, LastRef := time, Permission := .Invalid }
  else none

def deallocate (c : CacheMemory) (address : Address) : Option CacheMemory :=
  (c.lookup address).map fun (cacheSet, loc) =>
    c.setEntry cacheSet loc { c.m_cache cacheSet loc with Permission := .NotPresent }

def changePermission (c : CacheMemory) (address : Address) (new_perm : AccessPermission) :
    Option CacheMemory :=
  if new_perm = .Read_Write ∨ new_perm = .Read_Only ∨ new_perm = .Invalid then
    (c.lookup address).map fun (cacheSet, loc) =>
      c.setEntry cacheSet loc { c.m_cache cacheSet loc with Permission := new_perm }
  else none

def setMRU (time : Nat) (c : CacheMemory) (address : Address) : Option CacheMemory :=
  (c.lookup address).map fun (cacheSet, loc) =>
    c.setEntry cacheSet loc { c.m_cache cacheSet loc with LastRef := time }

def tryCacheAccess (time : Nat) (c : CacheMemory) (address : Address) (type : CacheRequestType) :
    Option (Bool × CacheMemory) :=
  (c.addressToCacheSet address).map fun cacheSet =>
    match c.findTagInSet cacheSet address with
    | none => (false, c)
    | some loc =>
      let entry := c.m_cache cacheSet loc
      let c' := c.setEntry cacheSet loc { entry with LastRef := time }
      if entry.Permission = .Read_Write then (true, c')
      else if entry.Permission = .Read_Only ∧ (type = .LD ∨ type = .IFETCH) then (true, c')
      else (false, c')

/-- One round of the loop of `cacheProbe`, with `smallest_index`. -/
def probeStep (c : CacheMemory) (cacheSet smallest i : Nat) : Option Nat :=
  if (c.m_cache cacheSet i).Permission ≠ .NotPresent then
    if (c.m_cache cacheSet i).LastRef < (c.m_cache cacheSet smallest).LastRef then some i
    else some smallest
  else none

/-- Without a way to start from, the reference to way 0 is out of bounds. -/
def cacheProbe (c : CacheMemory) (address : Address) : Option Address :=
  if c.cacheAvail address = some false ∧ 0 < c.m_cache_assoc then
    (c.addressToCacheSet address).bind fun cacheSet =>
      ((List.range c.m_cache_assoc).foldlM (c.probeStep cacheSet) 0).map fun smallest =>
        (c.m_cache cacheSet smallest).Address
  else none

/-! What the searches of a set find. -/

def Present (c : CacheMemory) (cacheSet i : Nat) : Prop :=
  (c.m_cache cacheSet i).Permission ≠ .NotPresent

/-- The way holds the block. -/
def Holds (c : CacheMemory) (cacheSet i : Nat) (address : Address) : Prop :=
  i < c.m_cache_assoc ∧ (c.m_cache cacheSet i).Address = address ∧ c.Present cacheSet i

theorem addressToCacheSet_isSome (c : CacheMemory) {address : Address} (h : address.IsLine) :
    ∃ cacheSet, c.addressToCacheSet address = some cacheSet := by
  have ⟨x, hx⟩ := address.bitSelect_isSome c.DATA_BLOCK_BITS c.m_cache_num_set_bits
  have hlt : x.toNat < 2 ^ c.m_cache_num_set_bits := by
    rw [address.bitSelect_toNat hx]
    exact Nat.mod_lt _ (Nat.two_pow_pos _)
  have hpow : 2 ^ c.m_cache_num_set_bits ≤ 2 ^ 30 :=
    Nat.pow_le_pow_right (by decide) (by have := c.set_bits_lt; omega)
  have hint : x.toInt = x.toNat := BitVec.toInt_eq_toNat_of_lt (by omega)
  unfold addressToCacheSet
  rw [if_pos h, hx]
  simp only [Option.bind_some]
  rw [if_pos]
  · exact ⟨_, rfl⟩
  · rw [hint, Nat.one_shiftLeft]
    omega

theorem findTagInSet_eq_some {c : CacheMemory} {cacheSet i : Nat} {tag : Address}
    (h : c.findTagInSet cacheSet tag = some i) : c.Holds cacheSet i tag := by
  have hp := List.find?_some h
  have hi := List.mem_of_find?_eq_some h
  have hp' := of_decide_eq_true hp
  exact ⟨List.mem_range.mp hi, hp'.1, hp'.2⟩

theorem findTagInSet_isSome {c : CacheMemory} {cacheSet i : Nat} {tag : Address}
    (h : c.Holds cacheSet i tag) : (c.findTagInSet cacheSet tag).isSome := by
  unfold findTagInSet
  rw [List.find?_isSome]
  exact ⟨i, List.mem_range.mpr h.1, decide_eq_true h.2⟩

theorem lookup_eq_some {c : CacheMemory} {address : Address} {cacheSet i : Nat}
    (h : c.lookup address = some (cacheSet, i)) :
    c.addressToCacheSet address = some cacheSet ∧ c.Holds cacheSet i address := by
  unfold lookup at h
  cases hs : c.addressToCacheSet address with
  | none => simp [hs] at h
  | some s =>
    cases hf : c.findTagInSet s address with
    | none => simp [hs, hf] at h
    | some j =>
      have hpair : s = cacheSet ∧ j = i := by simpa [hs, hf] using h
      rw [hpair.1, hpair.2] at hf
      rw [hpair.1]
      exact ⟨rfl, findTagInSet_eq_some hf⟩

theorem cacheAvail_eq_false {c : CacheMemory} {address : Address} {cacheSet : Nat}
    (hs : c.addressToCacheSet address = some cacheSet) :
    c.cacheAvail address = some false ↔
      ∀ i, i < c.m_cache_assoc →
        (c.m_cache cacheSet i).Address ≠ address ∧ c.Present cacheSet i := by
  unfold cacheAvail
  rw [hs, Option.map_some, Option.some_inj, List.any_eq_false]
  simp only [List.mem_range, decide_eq_true_eq, not_or]
  exact Iff.rfl

@[simp] theorem setEntry_addressToCacheSet (c : CacheMemory) (cacheSet i : Nat)
    (entry : CacheEntry) (address : Address) :
    (c.setEntry cacheSet i entry).addressToCacheSet address = c.addressToCacheSet address := rfl

@[simp] theorem setEntry_assoc (c : CacheMemory) (cacheSet i : Nat) (entry : CacheEntry) :
    (c.setEntry cacheSet i entry).m_cache_assoc = c.m_cache_assoc := rfl

theorem setEntry_same (c : CacheMemory) (cacheSet i : Nat) (entry : CacheEntry) :
    (c.setEntry cacheSet i entry).m_cache cacheSet i = entry :=
  if_pos ⟨rfl, rfl⟩

theorem setEntry_other (c : CacheMemory) {cacheSet i s j : Nat} (entry : CacheEntry)
    (h : ¬(s = cacheSet ∧ j = i)) :
    (c.setEntry cacheSet i entry).m_cache s j = c.m_cache s j :=
  if_neg h

/-- The loop of `cacheProbe` ends with the first way of the smallest time. -/
theorem probeLoop_min {c : CacheMemory} {cacheSet : Nat} {ways : List Nat} {k v : Nat}
    (h : ways.foldlM (c.probeStep cacheSet) k = some v) :
    (v = k ∨ v ∈ ways) ∧
      (c.m_cache cacheSet v).LastRef ≤ (c.m_cache cacheSet k).LastRef ∧
      ∀ i ∈ ways, (c.m_cache cacheSet v).LastRef ≤ (c.m_cache cacheSet i).LastRef := by
  induction ways generalizing k with
  | nil =>
    have hk : k = v := by simpa using h
    rw [hk]
    exact ⟨.inl rfl, Nat.le_refl _, by simp⟩
  | cons i rest ih =>
    simp only [List.foldlM_cons, Option.bind_eq_bind, Option.bind_eq_some_iff] at h
    have ⟨k', hk, hrest⟩ := h
    have ⟨hmem, hle, hall⟩ := ih hrest
    unfold probeStep at hk
    split at hk
    · split at hk
      · have hk' : i = k' := Option.some.inj hk
        rw [← hk'] at hmem hle
        refine ⟨.inr (List.mem_cons.mpr hmem), by omega, ?_⟩
        intro j hj
        cases List.mem_cons.mp hj with
        | inl h0 => rw [h0]; exact hle
        | inr h0 => exact hall j h0
      · have hk' : k = k' := Option.some.inj hk
        rw [← hk'] at hmem hle
        refine ⟨?_, hle, ?_⟩
        · cases hmem with
          | inl h0 => exact .inl h0
          | inr h0 => exact .inr (List.mem_cons_of_mem _ h0)
        · intro j hj
          cases List.mem_cons.mp hj with
          | inl h0 => rw [h0]; omega
          | inr h0 => exact hall j h0
    · cases hk

theorem probeLoop_isSome {c : CacheMemory} {cacheSet : Nat} {ways : List Nat} (k : Nat)
    (h : ∀ i ∈ ways, c.Present cacheSet i) :
    ∃ v, ways.foldlM (c.probeStep cacheSet) k = some v := by
  induction ways generalizing k with
  | nil => exact ⟨k, rfl⟩
  | cons i rest ih =>
    have hrest := fun k => ih k fun j hj => h j (List.mem_cons_of_mem _ hj)
    have hi : (c.m_cache cacheSet i).Permission ≠ .NotPresent := h i List.mem_cons_self
    simp only [List.foldlM_cons, Option.bind_eq_bind]
    unfold probeStep
    rw [if_pos hi]
    split
    · exact hrest i
    · exact hrest k

end CacheMemory

inductive CacheOp
  | advance (cycles : Nat)
  | allocate (address : Address)
  | deallocate (address : Address)
  | changePermission (address : Address) (new_perm : AccessPermission)
  | setMRU (address : Address)
  | tryCacheAccess (address : Address) (type : CacheRequestType)
  deriving DecidableEq

/-- A cache in a simulation, with the blocks allocated and not deallocated since and the time
each was last used: of its allocation, of `setMRU`, or of an access. -/
structure CacheRun where
  cache : CacheMemory
  time : Nat
  lastUse : Address → Option Nat

namespace CacheRun

def use (s : CacheRun) (address : Address) : Address → Option Nat :=
  fun a => if a = address then some s.time else s.lastUse a

def step (s : CacheRun) : CacheOp → Option CacheRun
  | .advance cycles => some { s with time := s.time + cycles }
  | .allocate address =>
    (s.cache.allocate s.time address).map fun c =>
      { s with cache := c, lastUse := s.use address }
  | .deallocate address =>
    (s.cache.deallocate address).map fun c =>
      { s with cache := c, lastUse := fun a => if a = address then none else s.lastUse a }
  | .changePermission address new_perm =>
    (s.cache.changePermission address new_perm).map fun c => { s with cache := c }
  | .setMRU address =>
    (s.cache.setMRU s.time address).map fun c => { s with cache := c, lastUse := s.use address }
  | .tryCacheAccess address type =>
    (s.cache.tryCacheAccess s.time address type).map fun r =>
      { s with
        cache := r.2
        lastUse := if (s.lastUse address).isSome then s.use address else s.lastUse }

def init (c : CacheMemory) : CacheRun where
  cache := c
  time := 0
  lastUse _ := none

/-- The ways hold the blocks in use and no others, each in its set and once, with the time of
its last use. -/
structure Tracks (s : CacheRun) : Prop where
  entry : ∀ cacheSet i a, s.cache.Holds cacheSet i a →
    s.cache.addressToCacheSet a = some cacheSet ∧
      s.lastUse a = some (s.cache.m_cache cacheSet i).LastRef
  unique : ∀ cacheSet i j a, s.cache.Holds cacheSet i a → s.cache.Holds cacheSet j a → i = j
  found : ∀ a, (s.lastUse a).isSome → ∃ cacheSet i, s.cache.Holds cacheSet i a

theorem init_tracks (c : CacheMemory) (h : ∀ cacheSet i, ¬c.Present cacheSet i) :
    (init c).Tracks where
  entry cacheSet i a hi := absurd hi.2.2 (h cacheSet i)
  unique cacheSet i j a hi _ := absurd hi.2.2 (h cacheSet i)
  found a ha := by cases ha

namespace Tracks
variable {s : CacheRun} {a : Address} {cacheSet i : Nat}

/-- A way that is free or holds the block already is given the block. -/
theorem put (h : s.Tracks) (hset : s.cache.addressToCacheSet a = some cacheSet)
    (hi : i < s.cache.m_cache_assoc)
    (hslot : ∀ b, s.cache.Holds cacheSet i b → b = a)
    (hothers : ∀ j, s.cache.Holds cacheSet j a → j = i)
    {e : CacheEntry} (htag : e.Address = a) (hpresent : e.Permission ≠ .NotPresent) :
    Tracks
      { s with
        cache := s.cache.setEntry cacheSet i e
        lastUse := fun b => if b = a then some e.LastRef else s.lastUse b } := by
  have hnew : ∀ b, (s.cache.setEntry cacheSet i e).Holds cacheSet i b → b = a := by
    intro b hb
    have hb' := hb.2.1
    rw [CacheMemory.setEntry_same] at hb'
    rw [← hb', htag]
  have hold : ∀ t j b, ¬(t = cacheSet ∧ j = i) →
      ((s.cache.setEntry cacheSet i e).Holds t j b ↔ s.cache.Holds t j b) := by
    intro t j b hne
    unfold CacheMemory.Holds CacheMemory.Present
    rw [CacheMemory.setEntry_other _ _ hne]
    rfl
  have hout : ∀ t j, ¬(t = cacheSet ∧ j = i) → ¬s.cache.Holds t j a := by
    intro t j hne hj
    have ht := (h.entry t j a hj).1
    rw [hset] at ht
    have ht' : cacheSet = t := Option.some.inj ht
    rw [← ht'] at hj
    exact hne ⟨ht'.symm, hothers j hj⟩
  refine { entry := ?_, unique := ?_, found := ?_ }
  · intro t j b hj
    by_cases hslot' : t = cacheSet ∧ j = i
    · rw [hslot'.1, hslot'.2] at hj ⊢
      rw [hnew b hj, CacheMemory.setEntry_same]
      exact ⟨hset, if_pos rfl⟩
    · have hj' := (hold t j b hslot').mp hj
      have hb : b ≠ a := by
        intro hb
        rw [hb] at hj'
        exact hout t j hslot' hj'
      rw [CacheMemory.setEntry_other _ _ hslot']
      simp only [if_neg hb]
      exact h.entry t j b hj'
  · intro t j k b hj hk
    by_cases hj0 : t = cacheSet ∧ j = i
    · by_cases hk0 : t = cacheSet ∧ k = i
      · rw [hj0.2, hk0.2]
      · rw [hj0.1, hj0.2] at hj
        rw [hnew b hj] at hk
        exact absurd ((hold t k a hk0).mp hk) (hout t k hk0)
    · by_cases hk0 : t = cacheSet ∧ k = i
      · rw [hk0.1, hk0.2] at hk
        rw [hnew b hk] at hj
        exact absurd ((hold t j a hj0).mp hj) (hout t j hj0)
      · exact h.unique t j k b ((hold t j b hj0).mp hj) ((hold t k b hk0).mp hk)
  · intro b hb
    by_cases hba : b = a
    · refine ⟨cacheSet, i, hi, ?_, ?_⟩
      · rw [CacheMemory.setEntry_same, htag, hba]
      · unfold CacheMemory.Present
        rw [CacheMemory.setEntry_same]
        exact hpresent
    · simp only [if_neg hba] at hb
      have ⟨t, j, hj⟩ := h.found b hb
      refine ⟨t, j, (hold t j b ?_).mpr hj⟩
      rintro ⟨rfl, rfl⟩
      exact hba (hslot b hj)

/-- The way of a block is given new contents, the block stays. -/
theorem touch (h : s.Tracks) (hl : s.cache.lookup a = some (cacheSet, i)) {e : CacheEntry}
    (htag : e.Address = (s.cache.m_cache cacheSet i).Address)
    (hpresent : e.Permission ≠ .NotPresent) :
    Tracks
      { s with
        cache := s.cache.setEntry cacheSet i e
        lastUse := fun b => if b = a then some e.LastRef else s.lastUse b } := by
  have ⟨hset, hi⟩ := CacheMemory.lookup_eq_some hl
  apply h.put hset hi.1
  · intro b hb
    rw [← hb.2.1, hi.2.1]
  · intro j hj
    exact h.unique cacheSet j i a hj hi
  · rw [htag, hi.2.1]
  · exact hpresent

/-- The way of a block is freed, its tag stays. -/
theorem drop (h : s.Tracks) (hl : s.cache.lookup a = some (cacheSet, i)) {e : CacheEntry}
    (hfree : e.Permission = .NotPresent) :
    Tracks
      { s with
        cache := s.cache.setEntry cacheSet i e
        lastUse := fun b => if b = a then none else s.lastUse b } := by
  have ⟨hset, hi⟩ := CacheMemory.lookup_eq_some hl
  have hold : ∀ t j b, (s.cache.setEntry cacheSet i e).Holds t j b ↔
      s.cache.Holds t j b ∧ ¬(t = cacheSet ∧ j = i) := by
    intro t j b
    by_cases hne : t = cacheSet ∧ j = i
    · rw [hne.1, hne.2]
      unfold CacheMemory.Holds CacheMemory.Present
      rw [CacheMemory.setEntry_same, hfree]
      simp
    · unfold CacheMemory.Holds CacheMemory.Present
      rw [CacheMemory.setEntry_other _ _ hne]
      simp [hne]
  refine { entry := ?_, unique := ?_, found := ?_ }
  · intro t j b hj
    have ⟨hj', hne⟩ := (hold t j b).mp hj
    have ⟨hb, hlast⟩ := h.entry t j b hj'
    have hba : b ≠ a := by
      intro hba
      rw [hba, hset] at hb
      have ht : cacheSet = t := Option.some.inj hb
      rw [hba, ← ht] at hj'
      exact hne ⟨ht.symm, h.unique cacheSet j i a hj' hi⟩
    rw [CacheMemory.setEntry_other _ _ hne]
    simp only [if_neg hba]
    exact ⟨hb, hlast⟩
  · intro t j k b hj hk
    exact h.unique t j k b ((hold t j b).mp hj).1 ((hold t k b).mp hk).1
  · intro b hb
    by_cases hba : b = a
    · simp [hba] at hb
    · simp only [if_neg hba] at hb
      have ⟨t, j, hj⟩ := h.found b hb
      refine ⟨t, j, (hold t j b).mpr ⟨hj, ?_⟩⟩
      rintro ⟨rfl, rfl⟩
      apply hba
      rw [← hj.2.1, hi.2.1]

end Tracks
end CacheRun
end FeS2.Ruby
