import FeS2.Ruby.CacheController

/-!
The cache memories of a node, seen from one block: two of the first level and one
of the second. The controllers of the token and of the hammer protocol share their
actions on them and the order in which the mandatory queue makes room.
-/

namespace FeS2.Ruby

structure CacheHierarchy (E : Type) where
  l1I : Option E := none
  l1D : Option E := none
  l2 : Option E := none
  deriving DecidableEq

namespace CacheHierarchy
variable {E : Type} {c c' : CacheHierarchy E} {e blank : E} {f : E → E}

def isCacheTagPresent (c : CacheHierarchy E) : Bool :=
  c.l2.isSome || c.l1D.isSome || c.l1I.isSome

def getCacheEntry (c : CacheHierarchy E) : Option E :=
  if c.l2.isSome then c.l2 else if c.l1D.isSome then c.l1D else c.l1I

/-- Writes through the reference that `getCacheEntry` returns. -/
def modifyEntry (f : E → E) (c : CacheHierarchy E) : CacheHierarchy E :=
  if c.l2.isSome then { c with l2 := c.l2.map f }
  else if c.l1D.isSome then { c with l1D := c.l1D.map f }
  else { c with l1I := c.l1I.map f }

/-- The assertions of `getState` and `setState` on the tags. -/
def exclusive (c : CacheHierarchy E) : Bool :=
  !(c.l1D.isSome && c.l1I.isSome) && !(c.l1I.isSome && c.l2.isSome) &&
    !(c.l1D.isSome && c.l2.isSome)

def allocateL1D (blank : E) (c : CacheHierarchy E) : CacheHierarchy E :=
  if c.l1D.isSome then c else { c with l1D := some blank }

def allocateL1I (blank : E) (c : CacheHierarchy E) : CacheHierarchy E :=
  if c.l1I.isSome then c else { c with l1I := some blank }

def allocateL2 (blank : E) (c : CacheHierarchy E) : Option (CacheHierarchy E) :=
  if c.l2.isSome then none else some { c with l2 := some blank }

def deallocateL1 (c : CacheHierarchy E) : Option (CacheHierarchy E) :=
  if c.l1D.isSome then some { c with l1D := none } else c.l1I.map fun _ => { c with l1I := none }

def deallocateL2 (c : CacheHierarchy E) : Option (CacheHierarchy E) :=
  c.l2.map fun _ => { c with l2 := none }

def copyFromL1toL2 (c : CacheHierarchy E) : Option (CacheHierarchy E) :=
  c.l2.bind fun _ =>
    if c.l1D.isSome then some { c with l2 := c.l1D }
    else c.l1I.map fun entry => { c with l2 := some entry }

def copyFromL2toL1 (c : CacheHierarchy E) : Option (CacheHierarchy E) :=
  c.l2.bind fun entry =>
    if c.l1D.isSome then some { c with l1D := some entry }
    else c.l1I.map fun _ => { c with l1I := some entry }

/-! In-ports -/

/-- What other blocks leave to this one. `stalls`: the block that would have to leave
the second level for it cannot send. -/
structure Room where
  l1Avail : Bool
  l2Avail : Bool
  stalls : Bool
  deriving DecidableEq

/-- What the mandatory queue triggers. -/
inductive Demand
  | request (type : CacheRequestType)
  | L1_to_L2
  | L2_to_L1D
  | L2_to_L1I
  | L2_Replacement
  deriving DecidableEq

/-- The event for this block when a request for it is at the head of the mandatory queue;
`none` if only other blocks move. -/
def mandatoryQueue (type : CacheRequestType) (room : Room) (c : CacheHierarchy E) :
    Option Demand :=
  let (rightL1, wrongL1, l2_to_L1) :=
    if type = .IFETCH then (c.l1I, c.l1D, Demand.L2_to_L1I) else (c.l1D, c.l1I, Demand.L2_to_L1D)
  if wrongL1.isSome && room.l2Avail then some .L1_to_L2
  -- a replacement that stalls falls through to the checks below
  else if wrongL1.isSome && !room.stalls then none
  else if rightL1.isSome then some (.request type)
  else if room.l1Avail then
    if c.l2.isSome then some l2_to_L1 else some (.request type)
  else none

/-- The event for this block when it has to make room for another one. -/
def makeRoom (c : CacheHierarchy E) : Option Demand :=
  if c.l2.isSome then some .L2_Replacement
  else if c.l1D.isSome || c.l1I.isSome then some .L1_to_L2
  else none

/-! The entry -/

theorem getCacheEntry_isSome : c.getCacheEntry.isSome = c.isCacheTagPresent := by
  obtain ⟨l1I, l1D, l2⟩ := c
  cases l2 <;> cases l1D <;> cases l1I <;> rfl

theorem getCacheEntry_modifyEntry : (c.modifyEntry f).getCacheEntry = c.getCacheEntry.map f := by
  obtain ⟨l1I, l1D, l2⟩ := c
  cases l2 <;> cases l1D <;> cases l1I <;> rfl

theorem exclusive_modifyEntry : (c.modifyEntry f).exclusive = c.exclusive := by
  obtain ⟨l1I, l1D, l2⟩ := c
  cases l2 <;> cases l1D <;> cases l1I <;> rfl

theorem getCacheEntry_l1D (hx : c.exclusive) (h : c.l1D = some e) : c.getCacheEntry = some e := by
  obtain ⟨l1I, l1D, l2⟩ := c
  obtain rfl : l1D = some e := h
  cases l2 <;> cases l1I <;> first | rfl | cases hx

theorem getCacheEntry_l1I (hx : c.exclusive) (h : c.l1I = some e) : c.getCacheEntry = some e := by
  obtain ⟨l1I, l1D, l2⟩ := c
  obtain rfl : l1I = some e := h
  cases l2 <;> cases l1D <;> first | rfl | cases hx

/-- A write to the first data cache is one through the reference. -/
theorem map_l1D (hx : c.exclusive) (h : c.l1D.isSome) :
    { c with l1D := c.l1D.map f } = c.modifyEntry f := by
  obtain ⟨l1I, l1D, l2⟩ := c
  cases l1D with
  | none => cases h
  | some e =>
      cases l2 with
      | none => rfl
      | some e' => cases l1I <;> cases hx

/-- Only an absent block gets a new entry, or the assertions on the tags fail. -/
theorem allocateL1D_exclusive (h : (c.allocateL1D blank).exclusive) :
    c.exclusive ∧ (c.allocateL1D blank).getCacheEntry = some (c.getCacheEntry.getD blank) := by
  obtain ⟨l1I, l1D, l2⟩ := c
  cases l2 <;> cases l1D <;> cases l1I <;> first | exact ⟨rfl, rfl⟩ | cases h

theorem allocateL1I_exclusive (h : (c.allocateL1I blank).exclusive) :
    c.exclusive ∧ (c.allocateL1I blank).getCacheEntry = some (c.getCacheEntry.getD blank) := by
  obtain ⟨l1I, l1D, l2⟩ := c
  cases l2 <;> cases l1D <;> cases l1I <;> first | exact ⟨rfl, rfl⟩ | cases h

/-- A block that leaves the second level is gone. -/
theorem deallocateL2_spec (hx : c.exclusive) (h : c.deallocateL2 = some c') :
    c'.exclusive ∧ c'.getCacheEntry = none := by
  obtain ⟨l1I, l1D, l2⟩ := c
  cases l2 <;> cases l1D <;> cases l1I <;> cases hx <;> cases h
  exact ⟨rfl, rfl⟩

/-- A block that moves to the second level keeps its entry. -/
theorem moveToL2_spec (hx : c.exclusive)
    (h : ((c.allocateL2 blank).bind copyFromL1toL2).bind deallocateL1 = some c') :
    c'.exclusive ∧ c'.getCacheEntry = c.getCacheEntry := by
  obtain ⟨l1I, l1D, l2⟩ := c
  cases l2 <;> cases l1D <;> cases l1I <;> cases hx <;> cases h <;> exact ⟨rfl, rfl⟩

/-- A block that moves to the first level keeps its entry. -/
theorem moveToL1D_spec (hx : c.exclusive)
    (h : (c.allocateL1D blank).copyFromL2toL1.bind deallocateL2 = some c') :
    c'.exclusive ∧ c'.getCacheEntry = c.getCacheEntry := by
  obtain ⟨l1I, l1D, l2⟩ := c
  cases l2 <;> cases l1D <;> cases l1I <;> cases hx <;> cases h
  exact ⟨rfl, rfl⟩

theorem moveToL1I_spec (hx : c.exclusive)
    (h : (c.allocateL1I blank).copyFromL2toL1.bind deallocateL2 = some c') :
    c'.exclusive ∧ c'.getCacheEntry = c.getCacheEntry := by
  obtain ⟨l1I, l1D, l2⟩ := c
  cases l2 <;> cases l1D <;> cases l1I <;> cases hx <;> cases h
  exact ⟨rfl, rfl⟩

/-- A demand that moves the block finds it there. -/
theorem mandatoryQueue_present {type : CacheRequestType} {room : Room} {d : Demand}
    (h : c.mandatoryQueue type room = some d) (hd : ∀ t, d ≠ .request t) :
    c.isCacheTagPresent := by
  obtain ⟨l1I, l1D, l2⟩ := c
  obtain ⟨a, b, e⟩ := room
  cases l2 <;> cases l1D <;> cases l1I <;> simp [isCacheTagPresent]
  cases type <;> cases a <;> simp [mandatoryQueue] at h <;> exact hd _ h.symm

theorem makeRoom_present {d : Demand} (h : c.makeRoom = some d) : c.isCacheTagPresent := by
  obtain ⟨l1I, l1D, l2⟩ := c
  cases l2 <;> cases l1D <;> cases l1I <;> first | rfl | cases h

end CacheHierarchy
end FeS2.Ruby
