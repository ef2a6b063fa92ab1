import Mathlib.Algebra.BigOperators.Group.Finset.Piecewise
import Mathlib.Algebra.BigOperators.Fin
import FeS2.Library.RefCount

/-!
The physical register file with its reference counts and the logical register
files that name its registers. A function is `none` where an assertion of the
source fails. Values, flags, writers and wait lists of the registers do not
take part in allocation and are left out; the ready bits do.
-/

namespace FeS2.Pyrite
open RefCount

abbrev PhysName := Int
abbrev LogicalName := Fin 80

def REG_NULL_SRC : PhysName := -1
def REG_NULL_DEST : PhysName := -2

def REG_rax : LogicalName := 0
def REG_rcx : LogicalName := 1
def REG_rdx : LogicalName := 2
def REG_rbx : LogicalName := 3
def REG_rsp : LogicalName := 4
def REG_rbp : LogicalName := 5
def REG_rsi : LogicalName := 6
def REG_rdi : LogicalName := 7
def REG_fptos : LogicalName := 48
def REG_fpsw : LogicalName := 49
def REG_fptags : LogicalName := 50
def REG_fpstack : LogicalName := 51
def REG_ctx : LogicalName := 55
def REG_rip : LogicalName := 56
def REG_flags : LogicalName := 57
def REG_zero : LogicalName := 63
def REG_temp4 : LogicalName := 68
def REG_zf : LogicalName := 72
def REG_cf : LogicalName := 73
def REG_of : LogicalName := 74
def REG_imm : LogicalName := 75
def REG_temp9 : LogicalName := 78

/-- `REG_r8` to `REG_r15`. -/
def extendedRegisters : List LogicalName := [8, 9, 10, 11, 12, 13, 14, 15]

/-- `REG_temp0` to `REG_temp10`. -/
def temporaryRegisters : List LogicalName := [64, 65, 66, 67, 68, 69, 70, 71, 77, 78, 79]

/-- The head of `freeList` is the back of the source's vector. -/
structure PhysicalFile where
  refCounts : PhysName → Int := fun _ => 0
  ready : PhysName → Bool := fun _ => false
  freeList : List PhysName := []
  size : Nat := 0

def IsNull (num : PhysName) : Prop := num = REG_NULL_DEST ∨ num = REG_NULL_SRC

instance (num : PhysName) : Decidable (IsNull num) :=
  inferInstanceAs (Decidable (_ ∨ _))

namespace PhysicalFile

def incrementRefCount (num : PhysName) (pf : PhysicalFile) : Option PhysicalFile :=
  if IsNull num then none
  else some { pf with refCounts := Function.update pf.refCounts num (pf.refCounts num + 1) }

def deAllocate (num : PhysName) (pf : PhysicalFile) : PhysicalFile :=
  { pf with
    ready := Function.update pf.ready num false
    freeList := num :: pf.freeList }

def decrementRefCount (num : PhysName) (pf : PhysicalFile) : Option PhysicalFile :=
  if IsNull num then none
  else
    let pf' := { pf with refCounts := Function.update pf.refCounts num (pf.refCounts num - 1) }
    some (if pf'.refCounts num = 0 then deAllocate num pf' else pf')

def allocate (pf : PhysicalFile) : Option (PhysName × PhysicalFile) :=
  match pf.freeList with
  | num :: rest => if pf.ready num then none else some (num, { pf with freeList := rest })
  | [] =>
      some (pf.size, { pf with
        refCounts := Function.update pf.refCounts pf.size 0
        ready := Function.update pf.ready pf.size false
        size := pf.size + 1 })

/-- The part of `setValue` that allocation sees: the register becomes ready. -/
def setValue (num : PhysName) (pf : PhysicalFile) : Option PhysicalFile :=
  if IsNull num ∨ pf.ready num ∨ pf.refCounts num = 0 then none
  else some { pf with ready := Function.update pf.ready num true }

def Known (pf : PhysicalFile) (num : PhysName) : Prop := 0 ≤ num ∧ num < pf.size

/-- What `allocate` asserts of the register it takes off the free list. -/
def Idle (pf : PhysicalFile) : Prop := ∀ num ∈ pf.freeList, pf.ready num = false

/-- No register is forgotten and no register on the free list becomes ready. -/
structure Follows (pf pf' : PhysicalFile) : Prop where
  size_le : pf.size ≤ pf'.size
  idle : pf.Idle → pf'.Idle

variable {pf pf' pf'' : PhysicalFile} {num : PhysName}

theorem Follows.refl (pf : PhysicalFile) : Follows pf pf := ⟨le_rfl, id⟩

theorem Follows.trans (h : Follows pf pf') (h' : Follows pf' pf'') : Follows pf pf'' :=
  ⟨h.size_le.trans h'.size_le, h'.idle ∘ h.idle⟩

theorem incrementRefCount_follows (h : pf.incrementRefCount num = some pf') :
    Follows pf pf' := by
  unfold incrementRefCount at h
  split at h
  · cases h
  · obtain rfl := Option.some.inj h
    exact ⟨le_rfl, id⟩

theorem decrementRefCount_follows (h : pf.decrementRefCount num = some pf') :
    Follows pf pf' := by
  unfold decrementRefCount at h
  split at h
  · cases h
  · obtain rfl := Option.some.inj h
    split
    · refine ⟨le_rfl, fun hidle q hq => ?_⟩
      simp only [deAllocate, Function.update_apply] at hq ⊢
      split
      · rfl
      · rename_i hne
        exact hidle q ((List.mem_cons.mp hq).resolve_left hne)
    · exact ⟨le_rfl, id⟩

theorem allocate_follows (h : pf.allocate = some (num, pf')) : Follows pf pf' := by
  unfold allocate at h
  split at h
  · rename_i q rest hfree
    split at h
    · cases h
    · obtain ⟨_, rfl⟩ := Prod.mk.inj (Option.some.inj h)
      exact ⟨le_rfl, fun hidle q' hq' => hidle q' (hfree ▸ List.mem_cons_of_mem q hq')⟩
  · rename_i hfree
    obtain ⟨_, rfl⟩ := Prod.mk.inj (Option.some.inj h)
    refine ⟨Nat.le_succ _, fun _ q hq => ?_⟩
    rw [hfree] at hq
    cases hq

theorem allocate_isSome (h : pf.Idle) : ∃ r, pf.allocate = some r := by
  unfold allocate
  split
  · rename_i num rest hfree
    simp [h num (by simp [hfree])]
  · exact ⟨_, rfl⟩

end PhysicalFile

abbrev LogicalFile := LogicalName → PhysName

/-- A logical file together with the physical file it refers to. -/
structure Mapped where
  map : LogicalFile
  file : PhysicalFile

/-- The entry of the file a name stands for: `zf` is renamed under `flags`. -/
def slot (num : LogicalName) : LogicalName := if num = REG_zf then REG_flags else num

namespace Mapped

def getMapping (num : LogicalName) (r : Mapped) : Option PhysName :=
  if num = REG_rip then none else some (r.map (slot num))

def incrementRefCount (num : PhysName) (r : Mapped) : Option Mapped :=
  (r.file.incrementRefCount num).map fun pf => { r with file := pf }

def decrementRefCount (num : PhysName) (r : Mapped) : Option Mapped :=
  (r.file.decrementRefCount num).map fun pf => { r with file := pf }

def setMapping (num : LogicalName) (physReg : PhysName) (r : Mapped) : Option Mapped :=
  if num = REG_rip then none
  else
    let old := r.map (slot num)
    let released := if IsNull old then some r else r.decrementRefCount old
    released.bind fun r =>
      (r.incrementRefCount physReg).map fun r =>
        { r with map := Function.update r.map (slot num) physReg }

def getNewMapping (num : LogicalName) (r : Mapped) : Option (PhysName × Mapped) :=
  if num = REG_rip then none
  else
    r.file.allocate.bind fun (newPreg, pf) =>
      (setMapping num newPreg { r with file := pf }).map fun r => (newPreg, r)

end Mapped

namespace Mapped
variable {r r' : Mapped} {p : PhysName} {num : LogicalName}

theorem incrementRefCount_follows (h : r.incrementRefCount p = some r') :
    r.file.Follows r'.file := by
  obtain ⟨pf, hpf, rfl⟩ := Option.map_eq_some_iff.mp h
  exact PhysicalFile.incrementRefCount_follows hpf

theorem decrementRefCount_follows (h : r.decrementRefCount p = some r') :
    r.file.Follows r'.file := by
  obtain ⟨pf, hpf, rfl⟩ := Option.map_eq_some_iff.mp h
  exact PhysicalFile.decrementRefCount_follows hpf

theorem setMapping_follows (h : setMapping num p r = some r') : r.file.Follows r'.file := by
  unfold setMapping at h
  split at h
  · cases h
  obtain ⟨r1, h1, h⟩ := Option.bind_eq_some_iff.mp h
  obtain ⟨r2, h2, rfl⟩ := Option.map_eq_some_iff.mp h
  have hinc := incrementRefCount_follows h2
  split at h1
  · obtain rfl := Option.some.inj h1
    exact hinc
  · exact (decrementRefCount_follows h1).trans hinc

theorem getNewMapping_follows (h : getNewMapping num r = some (p, r')) :
    r.file.Follows r'.file := by
  unfold getNewMapping at h
  split at h
  · cases h
  obtain ⟨⟨q, pf⟩, halloc, h⟩ := Option.bind_eq_some_iff.mp h
  obtain ⟨r1, h1, hq⟩ := Option.map_eq_some_iff.mp h
  obtain ⟨_, rfl⟩ := Prod.mk.inj hq
  exact (PhysicalFile.allocate_follows halloc).trans (setMapping_follows h1)

end Mapped

/-! The references a logical file holds -/

def ref (num : PhysName) : Multiset PhysName := if IsNull num then 0 else {num}

theorem ref_of_not_null {num : PhysName} (h : ¬ IsNull num) : ref num = {num} := if_neg h

theorem ref_of_null {num : PhysName} (h : IsNull num) : ref num = 0 := if_pos h

theorem mem_ref {p q : PhysName} : p ∈ ref q ↔ ¬ IsNull q ∧ p = q := by
  unfold ref
  split <;> simp_all

def mapRefs (m : LogicalFile) : Multiset PhysName := ∑ r, ref (m r)

/-- The references of a file other than the one of entry `r`. -/
def otherRefs (m : LogicalFile) (r : LogicalName) : Multiset PhysName :=
  ∑ x ∈ Finset.univ.erase r, ref (m x)

theorem mapRefs_split (m : LogicalFile) (r : LogicalName) :
    mapRefs m = ref (m r) + otherRefs m r :=
  (Finset.add_sum_erase _ _ (Finset.mem_univ r)).symm

theorem mapRefs_update (m : LogicalFile) (r : LogicalName) (p : PhysName) :
    mapRefs (Function.update m r p) = ref p + otherRefs m r := by
  rw [mapRefs_split _ r, Function.update_self]
  congr 1
  apply Finset.sum_congr rfl
  intro x hx
  rw [Function.update_of_ne (Finset.ne_of_mem_erase hx)]

theorem mem_mapRefs {m : LogicalFile} {r : LogicalName} (h : ¬ IsNull (m r)) :
    m r ∈ mapRefs m := by
  rw [mapRefs_split m r, ref_of_not_null h]
  simp

theorem mem_otherRefs {m : LogicalFile} {x r : LogicalName} (hx : x ≠ r) (h : ¬ IsNull (m x)) :
    m x ∈ otherRefs m r := by
  unfold otherRefs
  rw [Multiset.mem_sum]
  exact ⟨x, by simp [hx], mem_ref.mpr ⟨h, rfl⟩⟩

theorem exists_of_mem_mapRefs {m : LogicalFile} {p : PhysName} (h : p ∈ mapRefs m) :
    ∃ r, m r = p ∧ ¬ IsNull p := by
  unfold mapRefs at h
  obtain ⟨r, _, hr⟩ := Multiset.mem_sum.mp h
  obtain ⟨hnull, rfl⟩ := mem_ref.mp hr
  exact ⟨r, rfl, hnull⟩

theorem count_mapRefs (m : LogicalFile) {p : PhysName} (h : ¬ IsNull p) :
    (mapRefs m).count p = (Finset.univ.filter fun r => m r = p).card := by
  have hone : ∀ r, (ref (m r)).count p = if m r = p then 1 else 0 := by
    intro r
    by_cases hr : m r = p
    · simp [hr, ref_of_not_null h]
    · rw [if_neg hr, Multiset.count_eq_zero, mem_ref]
      exact fun hmem => hr hmem.2.symm
  simp only [mapRefs, Multiset.count_sum', hone, Finset.sum_boole, Nat.cast_id]

/-! The accounting rules of the two files -/

/-- The counts are those of the references of the map and of the ledger `L`. -/
def Mapped.Accounts (r : Mapped) (L : Multiset PhysName) : Prop :=
  Balanced r.file.refCounts r.file.freeList r.file.Known (mapRefs r.map + L)

namespace Mapped
variable {r r' : Mapped} {L : Multiset PhysName} {p : PhysName} {num : LogicalName}

theorem Accounts.of_eq {L' : Multiset PhysName} (h : r.Accounts L) (hL : L = L') :
    r.Accounts L' := hL ▸ h

theorem incrementRefCount_eq (h : r.incrementRefCount p = some r') :
    ¬ IsNull p ∧ r'.map = r.map := by
  simp only [incrementRefCount, PhysicalFile.incrementRefCount, Option.map_eq_some_iff] at h
  obtain ⟨pf, hpf, rfl⟩ := h
  split at hpf
  · cases hpf
  · exact ⟨‹_›, rfl⟩

theorem decrementRefCount_map (h : r.decrementRefCount p = some r') : r'.map = r.map := by
  obtain ⟨pf, _, rfl⟩ := Option.map_eq_some_iff.mp h
  rfl

theorem decrementRefCount_isSome (h : ¬ IsNull p) :
    ∃ r', r.decrementRefCount p = some r' := by
  simp [decrementRefCount, PhysicalFile.decrementRefCount, h]

theorem incrementRefCount_isSome (h : ¬ IsNull p) :
    ∃ r', r.incrementRefCount p = some r' := by
  simp [incrementRefCount, PhysicalFile.incrementRefCount, h]

private theorem balanced_increment
    (hb : Balanced r.file.refCounts r.file.freeList r.file.Known L) (hp : p ∈ L)
    (h : r.incrementRefCount p = some r') :
    Balanced r'.file.refCounts r'.file.freeList r'.file.Known ({p} + L) := by
  simp only [incrementRefCount, PhysicalFile.incrementRefCount, Option.map_eq_some_iff] at h
  obtain ⟨pf, hpf, rfl⟩ := h
  split at hpf
  · cases hpf
  · obtain rfl := Option.some.inj hpf
    exact hb.retain hp

private theorem balanced_decrement {known : PhysName → Prop}
    (hb : Balanced r.file.refCounts r.file.freeList known ({p} + L))
    (h : r.decrementRefCount p = some r') :
    Balanced r'.file.refCounts r'.file.freeList known L ∧ r'.file.size = r.file.size := by
  simp only [decrementRefCount, PhysicalFile.decrementRefCount, Option.map_eq_some_iff] at h
  obtain ⟨pf, hpf, rfl⟩ := h
  split at hpf
  · cases hpf
  · obtain rfl := Option.some.inj hpf
    have hrel := hb.release
    simp only [Function.update_self]
    split
    · rename_i hz
      rw [if_pos hz] at hrel
      exact ⟨hrel, rfl⟩
    · rename_i hz
      rw [if_neg hz] at hrel
      exact ⟨hrel, rfl⟩

theorem Accounts.increment (hb : r.Accounts L) (hp : p ∈ mapRefs r.map + L)
    (h : r.incrementRefCount p = some r') : r'.Accounts ({p} + L) := by
  have hmap := (incrementRefCount_eq h).2
  refine (balanced_increment hb hp h).congr (fun _ => Iff.rfl) ?_
  rw [hmap]
  abel

theorem Accounts.decrement (hb : r.Accounts ({p} + L))
    (h : r.decrementRefCount p = some r') : r'.Accounts L := by
  have hmap := decrementRefCount_map h
  have hb' : Balanced r.file.refCounts r.file.freeList r.file.Known
      ({p} + (mapRefs r.map + L)) := Balanced.congr hb (fun _ => Iff.rfl) (by abel)
  obtain ⟨hdec, hsize⟩ := balanced_decrement hb' h
  refine hdec.congr (fun b => ?_) (by rw [hmap])
  simp only [PhysicalFile.Known, hsize]

/-- Dropping the old mapping of an entry, in any phase of a remapping. -/
private theorem balanced_releaseOld {known : PhysName → Prop} {e : LogicalName} {pf : PhysicalFile}
    (hb : Balanced pf.refCounts pf.freeList known (mapRefs r.map + L))
    (h : (if IsNull (r.map e) then some { r with file := pf }
      else decrementRefCount (r.map e) { r with file := pf }) = some r') :
    Balanced r'.file.refCounts r'.file.freeList known (otherRefs r.map e + L) ∧
      r'.map = r.map ∧ r'.file.size = pf.size := by
  split at h
  · rename_i hnull
    obtain rfl := Option.some.inj h
    refine ⟨hb.congr (fun _ => Iff.rfl) ?_, rfl, rfl⟩
    rw [mapRefs_split r.map e, ref_of_null hnull, zero_add]
  · rename_i hnull
    have hb' : Balanced pf.refCounts pf.freeList known
        ({r.map e} + (otherRefs r.map e + L)) := by
      refine hb.congr (fun _ => Iff.rfl) ?_
      rw [mapRefs_split r.map e, ref_of_not_null hnull, add_assoc]
    have hmap := decrementRefCount_map h
    obtain ⟨hdec, hsize⟩ := balanced_decrement hb' h
    exact ⟨hdec, hmap, hsize⟩

theorem setMapping_isSome (hnum : num ≠ REG_rip) (hp : ¬ IsNull p) :
    ∃ r', setMapping num p r = some r' := by
  simp only [setMapping, if_neg hnum]
  obtain ⟨r1, h1⟩ : ∃ r1, (if IsNull (r.map (slot num)) then some r
      else decrementRefCount (r.map (slot num)) r) = some r1 := by
    split
    · exact ⟨r, rfl⟩
    · exact decrementRefCount_isSome ‹_›
  obtain ⟨r2, h2⟩ : ∃ r2, incrementRefCount p r1 = some r2 := incrementRefCount_isSome hp
  simp [h1, h2]

theorem setMapping_map (h : setMapping num p r = some r') :
    num ≠ REG_rip ∧ ¬ IsNull p ∧ r'.map = Function.update r.map (slot num) p := by
  simp only [setMapping] at h
  split at h
  · cases h
  · rename_i hnum
    obtain ⟨r1, h1, h⟩ := Option.bind_eq_some_iff.mp h
    obtain ⟨r2, h2, rfl⟩ := Option.map_eq_some_iff.mp h
    obtain ⟨hp, hmap2⟩ := incrementRefCount_eq h2
    have hmap1 : r1.map = r.map := by
      split at h1
      · exact congrArg Mapped.map (Option.some.inj h1).symm
      · exact decrementRefCount_map h1
    exact ⟨hnum, hp, by rw [hmap2, hmap1]⟩

/-- Remapping an entry to a register that is named elsewhere too. -/
theorem Accounts.setMapping (hb : r.Accounts L) (hp : p ∈ otherRefs r.map (slot num) + L)
    (h : setMapping num p r = some r') : r'.Accounts L := by
  obtain ⟨hnum, hnull, hmap⟩ := setMapping_map h
  simp only [Mapped.setMapping, if_neg hnum] at h
  obtain ⟨r1, h1, h⟩ := Option.bind_eq_some_iff.mp h
  obtain ⟨r2, h2, rfl⟩ := Option.map_eq_some_iff.mp h
  obtain ⟨hb1, hmap1, hsize⟩ := balanced_releaseOld hb h1
  have hb1' : Balanced r1.file.refCounts r1.file.freeList r1.file.Known
      (otherRefs r.map (slot num) + L) := by
    refine hb1.congr (fun b => ?_) rfl
    simp only [PhysicalFile.Known, hsize]
  have hb2 := balanced_increment hb1' hp h2
  refine hb2.congr (fun _ => Iff.rfl) ?_
  rw [hmap, mapRefs_update, ref_of_not_null hnull, add_assoc]

private theorem known_succ (n : Nat) (b : Int) :
    (0 ≤ b ∧ b < n) ∨ b = n ↔ 0 ≤ b ∧ b < (n + 1 : Nat) := by
  push_cast
  omega

/-- After an allocation the register is off the free list and belongs to nobody yet. -/
theorem Accounts.allocate {pf : PhysicalFile} (hb : r.Accounts L)
    (h : r.file.allocate = some (p, pf)) :
    ∃ known : PhysName → Prop, ¬ known p ∧ (∀ b, known b ∨ b = p ↔ pf.Known b) ∧
      Balanced pf.refCounts pf.freeList known (mapRefs r.map + L) := by
  unfold PhysicalFile.allocate at h
  split at h
  · rename_i num' rest hfree
    split at h
    · cases h
    · obtain ⟨rfl, rfl⟩ : num' = p ∧ _ = pf := by simpa using h
      have hb' : Balanced r.file.refCounts (num' :: rest) r.file.Known (mapRefs r.map + L) :=
        hfree ▸ hb
      refine ⟨_, fun hk => hk.2 rfl, fun b => ?_, hb'.take⟩
      have hnumKnown : r.file.Known num' := ((hb'.free_iff num').mp List.mem_cons_self).1
      constructor
      · rintro (⟨hk, _⟩ | rfl)
        · exact hk
        · exact hnumKnown
      · intro hk
        by_cases hbq : b = num'
        · exact Or.inr hbq
        · exact Or.inl ⟨hk, hbq⟩
  · rename_i hfree
    obtain ⟨rfl, rfl⟩ : (r.file.size : PhysName) = p ∧ _ = pf := by simpa using h
    refine ⟨r.file.Known, fun hk => ?_, fun b => ?_, ?_⟩
    · exact lt_irrefl _ hk.2
    · exact known_succ r.file.size b
    · have hzero : r.file.refCounts r.file.size = 0 := by
        rw [hb.count_eq, Int.natCast_eq_zero, Multiset.count_eq_zero]
        intro hmem
        exact lt_irrefl _ (hb.known_of_mem _ hmem).2
      simp only
      rw [← hzero, Function.update_eq_self]
      exact hb

theorem not_null_of_nonneg (h : 0 ≤ p) : ¬ IsNull p := by
  rintro (hp | hp) <;> rw [hp] at h <;> exact absurd h (by decide)

/-- A fresh register is named by no reference of the ledger. -/
theorem Accounts.allocate_fresh {pf : PhysicalFile} (hb : r.Accounts L)
    (h : r.file.allocate = some (p, pf)) : ¬ IsNull p ∧ p ∉ mapRefs r.map + L := by
  obtain ⟨known, hfresh, hknown, hbal⟩ := hb.allocate h
  exact ⟨not_null_of_nonneg ((hknown p).mp (Or.inr rfl)).1,
    fun hmem => hfresh (hbal.known_of_mem p hmem)⟩

theorem Accounts.getNewMapping (hb : r.Accounts L)
    (h : getNewMapping num r = some (p, r')) :
    r'.Accounts L ∧ r'.map = Function.update r.map (slot num) p ∧
      num ≠ REG_rip ∧ 0 ≤ p := by
  simp only [Mapped.getNewMapping] at h
  split at h
  · cases h
  rename_i hnum
  obtain ⟨⟨q, pf⟩, halloc, h⟩ := Option.bind_eq_some_iff.mp h
  obtain ⟨r1, h1, hq⟩ := Option.map_eq_some_iff.mp h
  obtain ⟨rfl, rfl⟩ : q = p ∧ r1 = r' := by simpa using hq
  obtain ⟨known, hfresh, hknown, hbal⟩ := hb.allocate halloc
  obtain ⟨_, hnull, hmap⟩ := setMapping_map h1
  simp only [Mapped.setMapping, if_neg hnum] at h1
  obtain ⟨r2, h2, h1⟩ := Option.bind_eq_some_iff.mp h1
  obtain ⟨r3, h3, rfl⟩ := Option.map_eq_some_iff.mp h1
  obtain ⟨hb2, hmap2, hsize⟩ := balanced_releaseOld hbal h2
  have hknownq : pf.Known q := (hknown q).mp (Or.inr rfl)
  simp only [incrementRefCount, PhysicalFile.incrementRefCount, if_neg hnull,
    Option.map_some, Option.some.injEq] at h3
  refine ⟨?_, hmap, hnum, hknownq.1⟩
  subst h3
  refine (hb2.adopt hfresh).congr (fun b => ?_) ?_
  · rw [hknown b]
    simp only [PhysicalFile.Known, hsize]
  · rw [hmap, mapRefs_update, ref_of_not_null hnull, add_assoc]

end Mapped
end FeS2.Pyrite
