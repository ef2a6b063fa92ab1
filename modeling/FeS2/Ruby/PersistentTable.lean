import Mathlib.Data.Finset.Erase
import Mathlib.Data.Finset.Insert
import Mathlib.Data.Finset.Max

/-!
The persistent table of a node, its entry for one block. `none` is a failed
assertion. What a table says of a node is what it asks for, if it is starving,
and whether it is marked.
-/

namespace FeS2.Ruby

inductive AccessType
  | Read
  | Write
  deriving DecidableEq, Repr

structure PersistentTableEntry (ι : Type) where
  starving : Finset ι := ∅
  marked : Finset ι := ∅
  requestToWrite : Finset ι := ∅
  deriving DecidableEq

abbrev PersistentTable (ι : Type) := Option (PersistentTableEntry ι)

namespace PersistentTable
variable {ι : Type} [DecidableEq ι]

def persistentRequestLock (locker : ι) (type : AccessType) :
    PersistentTable ι → Option (PersistentTable ι)
  | none =>
      some (some {
        starving := {locker}
        requestToWrite := if type = .Write then {locker} else ∅ })
  | some entry =>
      if locker ∈ entry.starving then none
      else
        let entry := { entry with
          starving := insert locker entry.starving
          requestToWrite :=
            if type = .Write then insert locker entry.requestToWrite else entry.requestToWrite }
        if entry.marked ⊆ entry.starving then some (some entry) else none

def persistentRequestUnlock (unlocker : ι) : PersistentTable ι → Option (PersistentTable ι)
  | none => none
  | some entry =>
      if unlocker ∉ entry.starving ∨ ¬ entry.marked ⊆ entry.starving then none
      else
        let entry : PersistentTableEntry ι := {
          starving := entry.starving.erase unlocker
          marked := entry.marked.erase unlocker
          requestToWrite := entry.requestToWrite.erase unlocker }
        if ¬ entry.marked ⊆ entry.starving then none
        else if entry.starving = ∅ then (if entry.marked = ∅ then some none else none)
        else some (some entry)

def okToIssueStarving (id : ι) : PersistentTable ι → Bool
  | none => true
  | some entry => if id ∈ entry.starving then false else entry.marked = ∅

def markEntries : PersistentTable ι → Option (PersistentTable ι)
  | none => some none
  | some entry =>
      if entry.marked = ∅ then some (some { entry with marked := entry.starving }) else none

def isLocked (table : PersistentTable ι) : Bool := table.isSome

def findSmallest {ι : Type} [LinearOrder ι] (table : PersistentTable ι) : Option ι :=
  table.bind fun entry => if h : entry.starving.Nonempty then some (entry.starving.min' h) else none

def typeOfSmallest {ι : Type} [LinearOrder ι] (table : PersistentTable ι) : AccessType :=
  match table, findSmallest table with
  | some entry, some p => if p ∈ entry.requestToWrite then .Write else .Read
  | _, _ => .Read

/-! What a table says -/

def starving (table : PersistentTable ι) : Finset ι := (table.map (·.starving)).getD ∅

def marked (table : PersistentTable ι) : Finset ι := (table.map (·.marked)).getD ∅

def requestToWrite (table : PersistentTable ι) : Finset ι := (table.map (·.requestToWrite)).getD ∅

/-- What a node starves for. -/
def asks (table : PersistentTable ι) (p : ι) : Option AccessType :=
  if p ∈ starving table then some (if p ∈ requestToWrite table then .Write else .Read) else none

/-- An entry is there for starving nodes only. -/
structure Wf (table : PersistentTable ι) : Prop where
  nonempty : ∀ entry, table = some entry → entry.starving.Nonempty
  marked : marked table ⊆ starving table
  requestToWrite : requestToWrite table ⊆ starving table

variable {table table' : PersistentTable ι} {p : ι} {type : AccessType}

theorem asks_eq_none : asks table p = none ↔ p ∉ starving table := by
  unfold asks
  split <;> simp_all

theorem mem_starving : p ∈ starving table ↔ asks table p ≠ none := by
  rw [ne_eq, asks_eq_none, not_not]

theorem asks_congr (hs : p ∈ starving table ↔ p ∈ starving table')
    (hw : p ∈ requestToWrite table ↔ p ∈ requestToWrite table') : asks table p = asks table' p := by
  unfold asks
  simp only [hs, hw]

theorem Wf.mem_requestToWrite (h : Wf table) :
    p ∈ PersistentTable.requestToWrite table ↔ asks table p = some .Write := by
  unfold asks
  constructor
  · intro hw
    rw [if_pos (h.requestToWrite hw), if_pos hw]
  · intro hw
    split at hw
    · split at hw
      · assumption
      · cases hw
    · cases hw

omit [DecidableEq ι] in
theorem wf_none : Wf (none : PersistentTable ι) :=
  ⟨fun _ h => (nomatch h), Finset.empty_subset _, Finset.empty_subset _⟩

/-- Tables that say the same of every node. -/
theorem Wf.sets_eq (h : Wf table) (h' : Wf table') (heq : ∀ p, asks table p = asks table' p) :
    starving table = starving table' ∧
      PersistentTable.requestToWrite table = PersistentTable.requestToWrite table' := by
  refine ⟨?_, ?_⟩
  · ext p
    rw [mem_starving, mem_starving, heq]
  · ext p
    rw [h.mem_requestToWrite, h'.mem_requestToWrite, heq]

/-- A node that does not starve locks. -/
theorem Wf.lock (h : Wf table) (type : AccessType) (hp : asks table p = none) :
    ∃ table', persistentRequestLock p type table = some table' ∧ Wf table' ∧
      (∀ q, asks table' q = if q = p then some type else asks table q) ∧
      PersistentTable.marked table' = PersistentTable.marked table := by
  cases table with
  | none =>
      refine ⟨_, rfl, ⟨fun entry he => ?_, Finset.empty_subset _, ?_⟩, fun q => ?_, rfl⟩
      · cases he
        exact Finset.singleton_nonempty p
      · cases type <;> simp [PersistentTable.requestToWrite, starving]
      · by_cases hq : q = p
        · cases type <;> simp [asks, starving, PersistentTable.requestToWrite, hq]
        · simp [asks, starving, hq]
  | some entry =>
      have hp : p ∉ entry.starving := asks_eq_none.mp hp
      have hmarked : entry.marked ⊆ insert p entry.starving :=
        fun q hq => Finset.mem_insert_of_mem (h.marked hq)
      refine ⟨some { entry with
        starving := insert p entry.starving
        requestToWrite :=
          if type = .Write then insert p entry.requestToWrite else entry.requestToWrite }, ?_,
        ⟨fun entry he => ?_, hmarked, ?_⟩, fun q => ?_, rfl⟩
      · simp only [persistentRequestLock, if_neg hp, if_pos hmarked]
      · cases he
        exact Finset.insert_nonempty _ _
      · have hw : entry.requestToWrite ⊆ entry.starving := h.requestToWrite
        cases type
        · exact fun q hq => Finset.mem_insert_of_mem (hw hq)
        · exact Finset.insert_subset_insert p hw
      · have hw : p ∉ entry.requestToWrite := fun hm => hp (h.requestToWrite hm)
        by_cases hq : q = p
        · cases type <;> simp [asks, starving, PersistentTable.requestToWrite, hq, hw]
        · rw [if_neg hq]
          refine asks_congr ?_ ?_
          · simp [starving, hq]
          · cases type <;> simp [PersistentTable.requestToWrite, hq]

/-- A starving node unlocks. -/
theorem Wf.unlock (h : Wf table) (hp : asks table p ≠ none) :
    ∃ table', persistentRequestUnlock p table = some table' ∧ Wf table' ∧
      (∀ q, asks table' q = if q = p then none else asks table q) ∧
      PersistentTable.marked table' = (PersistentTable.marked table).erase p := by
  cases table with
  | none => exact absurd rfl hp
  | some entry =>
      have hp : p ∈ entry.starving := mem_starving.mpr hp
      have hmarked : entry.marked ⊆ entry.starving := h.marked
      have hmarked' : entry.marked.erase p ⊆ entry.starving.erase p :=
        Finset.erase_subset_erase p hmarked
      have hcond : ¬ (p ∉ entry.starving ∨ ¬ entry.marked ⊆ entry.starving) := by
        simp [hp, hmarked]
      by_cases hempty : entry.starving.erase p = ∅
      · have hnone : entry.marked.erase p = ∅ :=
          Finset.subset_empty.mp (hempty ▸ hmarked')
        refine ⟨none, ?_, wf_none, fun q => ?_, hnone.symm⟩
        · simp [persistentRequestUnlock, hp, hmarked, hempty, hnone]
        · have hq : q ∈ entry.starving → q = p := fun hq => by
            by_contra hne
            exact Finset.notMem_empty q (hempty ▸ Finset.mem_erase.mpr ⟨hne, hq⟩)
          by_cases hqp : q = p
          · rw [if_pos hqp]
            rfl
          · rw [if_neg hqp]
            exact (asks_eq_none.mpr fun hm => hqp (hq hm)).symm
      · refine ⟨some {
          starving := entry.starving.erase p
          marked := entry.marked.erase p
          requestToWrite := entry.requestToWrite.erase p }, ?_,
          ⟨fun entry he => ?_, hmarked', ?_⟩, fun q => ?_, rfl⟩
        · simp only [persistentRequestUnlock, if_neg hcond, hmarked', not_true, if_false, hempty]
        · cases he
          exact Finset.nonempty_iff_ne_empty.mpr hempty
        · exact Finset.erase_subset_erase p h.requestToWrite
        · by_cases hq : q = p
          · simp [asks, starving, hq]
          · rw [if_neg hq]
            refine asks_congr ?_ ?_
            · simp [starving, hq]
            · simp [PersistentTable.requestToWrite, hq]

theorem okToIssueStarving_iff (id : ι) : okToIssueStarving id table ↔
    asks table id = none ∧ PersistentTable.marked table = ∅ := by
  cases table with
  | none => simp [okToIssueStarving, asks, starving, PersistentTable.marked]
  | some entry =>
      by_cases hid : id ∈ entry.starving <;>
        simp [okToIssueStarving, asks, starving, PersistentTable.marked, hid]

/-- Every starving node gets a mark. -/
theorem Wf.mark (h : Wf table) (hm : PersistentTable.marked table = ∅) :
    ∃ table', markEntries table = some table' ∧ Wf table' ∧ (∀ q, asks table' q = asks table q) ∧
      PersistentTable.marked table' = starving table := by
  cases table with
  | none => exact ⟨none, rfl, wf_none, fun _ => rfl, rfl⟩
  | some entry =>
      have hm : entry.marked = ∅ := hm
      refine ⟨some { entry with marked := entry.starving }, ?_,
        ⟨fun entry he => ?_, Finset.Subset.refl _, h.requestToWrite⟩, fun _ => rfl, rfl⟩
      · simp only [markEntries, hm, if_true]
      · cases he
        exact h.nonempty entry rfl

end PersistentTable
end FeS2.Ruby
