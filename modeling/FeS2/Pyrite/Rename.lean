import FeS2.Pyrite.RegFile

/-!
Renaming, squashing and committing one uop: the register part of
`DynamicInst`. `Renames` is what renaming does to a logical file; a squash
undoes it exactly and a commit replays it on the retire map.
-/

namespace FeS2.Pyrite

inductive StageType
  | FETCH_STAGE
  | DECODE_STAGE
  | WAIT_RA_STAGE
  | WAIT_RB_STAGE
  | WAIT_RC_STAGE
  | READY_STAGE
  | EXECUTE_STAGE
  | MEMORY_STAGE
  | COMPLETE_STAGE
  | RETIRE_STAGE
  deriving DecidableEq, Repr

/-- The classes of the opcode stand for the opcode. -/
structure TransOp where
  isnop : Bool := false
  isstore : Bool := false
  isfence : Bool := false
  isbranch : Bool := false
  setflags : Fin 8 := 0
  nouserflags : Bool := false
  rd : LogicalName := REG_zero
  ra : LogicalName := REG_zero
  rb : LogicalName := REG_zero
  rc : LogicalName := REG_zero
  deriving DecidableEq

def FLAG_CF : Nat := 0x001
def FLAG_OF : Nat := 0x800
def FLAG_ZAPS : Nat := 0x0d4

def setflagsToX86Flags : Fin 8 → Nat :=
  ![0, FLAG_ZAPS, FLAG_CF, FLAG_CF ||| FLAG_ZAPS, FLAG_OF, FLAG_OF ||| FLAG_ZAPS,
    FLAG_OF ||| FLAG_CF, FLAG_OF ||| FLAG_CF ||| FLAG_ZAPS]

namespace TransOp

def uopWritesDestinationRegister (op : TransOp) : Bool :=
  if op.isstore then false else if op.isfence then false else true

def uopIsLegal (op : TransOp) : Bool :=
  !(op.rb = REG_ctx || op.rc = REG_ctx || op.rd = REG_ctx)

/-- The test around every update of a flag mapping. -/
def writesFlag (op : TransOp) (flag : Nat) : Bool :=
  (op.setflags ≠ 0 && !op.nouserflags) && (setflagsToX86Flags op.setflags &&& flag) ≠ 0

/-- The uop gets a new physical register for its destination. -/
def renamesDest (op : TransOp) : Bool :=
  op.uopWritesDestinationRegister && !op.isbranch && op.rd ≠ REG_zero

end TransOp

structure DynamicInst where
  transOp : TransOp
  raPreg : PhysName := REG_NULL_SRC
  rbPreg : PhysName := REG_NULL_SRC
  rcPreg : PhysName := REG_NULL_SRC
  rdPreg : PhysName := REG_NULL_DEST
  rdPregOld : PhysName := REG_NULL_DEST
  rofPregOld : PhysName := REG_NULL_DEST
  rcfPregOld : PhysName := REG_NULL_DEST
  rzapsfPregOld : PhysName := REG_NULL_DEST
  stage : StageType := .FETCH_STAGE
  deriving DecidableEq

namespace DynamicInst

def isRenamed (u : DynamicInst) : Bool := u.stage ≠ .FETCH_STAGE
def isRetired (u : DynamicInst) : Bool := u.stage = .RETIRE_STAGE

/-- A source or an old destination: its mapping, with a reference to it. -/
def renameSource (num : LogicalName) (r : Mapped) : Option (PhysName × Mapped) :=
  (r.getMapping num).bind fun p => (r.incrementRefCount p).map fun r => (p, r)

def renameOperand (num : LogicalName) (r : Mapped) : Option (PhysName × Mapped) :=
  if num = REG_imm then some (REG_NULL_SRC, r) else renameSource num r

def renameFlag (op : TransOp) (flag : Nat) (num : LogicalName) (rdPreg : PhysName) (r : Mapped) :
    Option (PhysName × Mapped) :=
  if op.writesFlag flag then
    (renameSource num r).bind fun (old, r) => (r.setMapping num rdPreg).map fun r => (old, r)
  else some (REG_NULL_DEST, r)

def rename (u : DynamicInst) (r : Mapped) : Option (DynamicInst × Mapped) := do
  let op := u.transOp
  let (ra, r) ← renameSource op.ra r
  let (rb, r) ← renameOperand op.rb r
  let (rc, r) ← renameOperand op.rc r
  if op.uopWritesDestinationRegister && op.isbranch && (op.setflags ≠ 0 && !op.nouserflags) then
    none
  else if op.renamesDest then
    let (rdOld, r) ← renameSource op.rd r
    if rdOld ≤ REG_NULL_SRC then
      none
    else
      let (rd, r) ← r.getNewMapping op.rd
      let (rof, r) ← renameFlag op FLAG_OF REG_of rd r
      let (rcf, r) ← renameFlag op FLAG_CF REG_cf rd r
      let (rzapsf, r) ← renameFlag op FLAG_ZAPS REG_zf rd r
      some ({ u with
        raPreg := ra, rbPreg := rb, rcPreg := rc, rdPreg := rd, rdPregOld := rdOld,
        rofPregOld := rof, rcfPregOld := rcf, rzapsfPregOld := rzapsf,
        stage := .DECODE_STAGE }, r)
  else
    some ({ u with raPreg := ra, rbPreg := rb, rcPreg := rc, stage := .DECODE_STAGE }, r)

def completeAtDecode (u : DynamicInst) : DynamicInst := { u with stage := .COMPLETE_STAGE }

def dropSource (p : PhysName) (r : Mapped) : Option Mapped :=
  if p ≠ REG_NULL_SRC then r.decrementRefCount p else some r

/-- Remap one entry and give up a reference: a squash maps the old register back,
a commit maps the new one in the retire map. -/
def remap (num : LogicalName) (preg old : PhysName) (r : Mapped) : Option Mapped :=
  (r.setMapping num preg).bind fun r => r.decrementRefCount old

def remapFlag (op : TransOp) (flag : Nat) (num : LogicalName) (preg old : PhysName)
    (r : Mapped) : Option Mapped :=
  if op.writesFlag flag then remap num preg old r else some r

def unwindRegisters (u : DynamicInst) (r : Mapped) : Option Mapped :=
  if u.isRenamed && !u.isRetired then do
    let r ← dropSource u.raPreg r
    let r ← dropSource u.rbPreg r
    let r ← dropSource u.rcPreg r
    if u.rdPreg ≠ REG_NULL_DEST then
      let r ← remapFlag u.transOp FLAG_OF REG_of u.rofPregOld u.rofPregOld r
      let r ← remapFlag u.transOp FLAG_CF REG_cf u.rcfPregOld u.rcfPregOld r
      let r ← remapFlag u.transOp FLAG_ZAPS REG_zf u.rzapsfPregOld u.rzapsfPregOld r
      remap u.transOp.rd u.rdPregOld u.rdPregOld r
    else some r
  else some r

def commit (u : DynamicInst) (r : Mapped) : Option Mapped :=
  if u.stage ≠ .COMPLETE_STAGE then none
  else do
    let r ← dropSource u.raPreg r
    let r ← dropSource u.rbPreg r
    let r ← dropSource u.rcPreg r
    if u.rdPreg ≠ REG_NULL_DEST then
      let r ← remapFlag u.transOp FLAG_OF REG_of u.rdPreg u.rofPregOld r
      let r ← remapFlag u.transOp FLAG_CF REG_cf u.rdPreg u.rcfPregOld r
      let r ← remapFlag u.transOp FLAG_ZAPS REG_zf u.rdPreg u.rzapsfPregOld r
      remap u.transOp.rd u.rdPreg u.rdPregOld r
    else some r

/-! What a renamed uop holds and what it did to the map -/

def heldSource (p : PhysName) : Multiset PhysName := if p = REG_NULL_SRC then 0 else {p}

def heldFlag (op : TransOp) (flag : Nat) (old : PhysName) : Multiset PhysName :=
  if op.writesFlag flag then {old} else 0

/-- The references a renamed uop holds until it is squashed or retired. -/
def held (u : DynamicInst) : Multiset PhysName :=
  heldSource u.raPreg + heldSource u.rbPreg + heldSource u.rcPreg +
    if u.rdPreg = REG_NULL_DEST then 0
    else heldFlag u.transOp FLAG_OF u.rofPregOld + heldFlag u.transOp FLAG_CF u.rcfPregOld +
      heldFlag u.transOp FLAG_ZAPS u.rzapsfPregOld + {u.rdPregOld}

def mapFlag (op : TransOp) (flag : Nat) (num : LogicalName) (p : PhysName) (m : LogicalFile) :
    LogicalFile :=
  if op.writesFlag flag then Function.update m (slot num) p else m

/-- The map before and after the renaming of `u`. -/
inductive Renames (u : DynamicInst) (m m' : LogicalFile) : Prop
  | none (h : u.rdPreg = REG_NULL_DEST) (hm' : m' = m)
  | dest (h : 0 ≤ u.rdPreg) (hold : ¬ IsNull u.rdPregOld) (hrd : u.transOp.rd ≠ REG_rip)
      (rd : u.rdPregOld = m (slot u.transOp.rd))
      (m1 : LogicalFile) (hm1 : m1 = Function.update m (slot u.transOp.rd) u.rdPreg)
      (rof : u.transOp.writesFlag FLAG_OF → u.rofPregOld = m1 REG_of ∧ ¬ IsNull u.rofPregOld)
      (m2 : LogicalFile) (hm2 : m2 = mapFlag u.transOp FLAG_OF REG_of u.rdPreg m1)
      (rcf : u.transOp.writesFlag FLAG_CF → u.rcfPregOld = m2 REG_cf ∧ ¬ IsNull u.rcfPregOld)
      (m3 : LogicalFile) (hm3 : m3 = mapFlag u.transOp FLAG_CF REG_cf u.rdPreg m2)
      (rzapsf : u.transOp.writesFlag FLAG_ZAPS →
        u.rzapsfPregOld = m3 REG_flags ∧ ¬ IsNull u.rzapsfPregOld)
      (hm' : m' = mapFlag u.transOp FLAG_ZAPS REG_zf u.rdPreg m3)

/-- A uop between its renaming and its retirement. -/
structure Live (u : DynamicInst) : Prop where
  renamed : u.stage ≠ .FETCH_STAGE
  notRetired : u.stage ≠ .RETIRE_STAGE
  ra : ¬ IsNull u.raPreg ∨ u.raPreg = REG_NULL_SRC
  rb : ¬ IsNull u.rbPreg ∨ u.rbPreg = REG_NULL_SRC
  rc : ¬ IsNull u.rcPreg ∨ u.rcPreg = REG_NULL_SRC
  olds : ∀ p ∈ [u.rdPregOld, u.rofPregOld, u.rcfPregOld, u.rzapsfPregOld],
    ¬ IsNull p → p ∈ u.held

@[simp] theorem slot_of : slot REG_of = REG_of := by decide
@[simp] theorem slot_cf : slot REG_cf = REG_cf := by decide
@[simp] theorem slot_zf : slot REG_zf = REG_flags := by decide

/-! Maps: what renaming did is undone by the old registers and repeated on the
retire map by the new one. -/

theorem mapFlag_self {op : TransOp} {flag : Nat} {num e : LogicalName} {p : PhysName}
    {m : LogicalFile} (h : m e = p) : mapFlag op flag num p m e = p := by
  unfold mapFlag
  split
  · by_cases he : e = slot num
    · simp [he]
    · rw [Function.update_of_ne he, h]
  · exact h

theorem mapFlag_of_ne {op : TransOp} {flag : Nat} {num e : LogicalName} {p : PhysName}
    {m : LogicalFile} (h : e ≠ slot num) : mapFlag op flag num p m e = m e := by
  unfold mapFlag
  split
  · exact Function.update_of_ne h _ _
  · rfl

theorem mapFlag_congr {op : TransOp} {flag : Nat} {num e : LogicalName} {p : PhysName}
    {m m' : LogicalFile} (h : m e = m' e) :
    mapFlag op flag num p m e = mapFlag op flag num p m' e := by
  by_cases he : e = slot num
  · subst he
    unfold mapFlag
    split
    · rw [Function.update_self, Function.update_self]
    · exact h
  · rw [mapFlag_of_ne he, mapFlag_of_ne he, h]

theorem mapFlag_undo {op : TransOp} {flag : Nat} {num : LogicalName} {p old : PhysName}
    {m m' : LogicalFile} (hold : op.writesFlag flag → old = m (slot num))
    (hm : m' (slot num) = mapFlag op flag num p m (slot num)) :
    mapFlag op flag num old m' (slot num) = m (slot num) := by
  unfold mapFlag at hm ⊢
  split
  · rename_i hw
    rw [Function.update_self, hold hw]
  · rename_i hw
    rwa [if_neg hw] at hm

theorem mem_heldFlag {op : TransOp} {flag : Nat} {num : LogicalName} {p old : PhysName}
    {m : LogicalFile} (hold : op.writesFlag flag → old = m (slot num))
    (hne : mapFlag op flag num p m (slot num) ≠ m (slot num)) :
    m (slot num) ∈ heldFlag op flag old := by
  unfold mapFlag at hne
  split at hne
  · rename_i hw
    rw [heldFlag, if_pos hw, hold hw]
    exact Multiset.mem_singleton_self _
  · exact absurd rfl hne

/-- The three flag groups of an op, each with a register of its own. -/
def mapFlags (op : TransOp) (pof pcf pzapsf : PhysName) (m : LogicalFile) : LogicalFile :=
  mapFlag op FLAG_ZAPS REG_zf pzapsf (mapFlag op FLAG_CF REG_cf pcf (mapFlag op FLAG_OF REG_of pof m))

section
variable {op : TransOp} {pof pcf pzapsf : PhysName} {m : LogicalFile}

theorem of_ne_cf : slot REG_of ≠ slot REG_cf := by decide
theorem of_ne_zf : slot REG_of ≠ slot REG_zf := by decide
theorem cf_ne_zf : slot REG_cf ≠ slot REG_zf := by decide

theorem mapFlags_of :
    mapFlags op pof pcf pzapsf m (slot REG_of) = mapFlag op FLAG_OF REG_of pof m (slot REG_of) := by
  rw [mapFlags, mapFlag_of_ne of_ne_zf, mapFlag_of_ne of_ne_cf]

theorem mapFlags_cf :
    mapFlags op pof pcf pzapsf m (slot REG_cf) = mapFlag op FLAG_CF REG_cf pcf m (slot REG_cf) := by
  rw [mapFlags, mapFlag_of_ne cf_ne_zf]
  exact mapFlag_congr (mapFlag_of_ne of_ne_cf.symm)

theorem mapFlags_zf :
    mapFlags op pof pcf pzapsf m (slot REG_zf)
      = mapFlag op FLAG_ZAPS REG_zf pzapsf m (slot REG_zf) := by
  refine mapFlag_congr ?_
  rw [mapFlag_of_ne cf_ne_zf.symm, mapFlag_of_ne of_ne_zf.symm]

theorem mapFlags_other {e : LogicalName} (hof : e ≠ slot REG_of) (hcf : e ≠ slot REG_cf)
    (hzf : e ≠ slot REG_zf) : mapFlags op pof pcf pzapsf m e = m e := by
  rw [mapFlags, mapFlag_of_ne hzf, mapFlag_of_ne hcf, mapFlag_of_ne hof]

/-- Where two maps agree, giving the flags the same registers keeps them so. -/
theorem mapFlags_congr {e : LogicalName} {m' : LogicalFile} (h : m e = m' e) :
    mapFlags op pof pcf pzapsf m e = mapFlags op pof pcf pzapsf m' e :=
  mapFlag_congr (mapFlag_congr (mapFlag_congr h))

end

/-- Renaming is the new register in the entries of the destination and of the flags. -/
theorem Renames.redo {u : DynamicInst} {m m' : LogicalFile} (h : Renames u m m')
    (hrd : u.rdPreg ≠ REG_NULL_DEST) :
    Function.update (mapFlags u.transOp u.rdPreg u.rdPreg u.rdPreg m) (slot u.transOp.rd) u.rdPreg
      = m' := by
  cases h with
  | none hnone => exact absurd hnone hrd
  | dest _ _ _ _ m1 hm1 _ m2 hm2 _ m3 hm3 _ hm' =>
      subst hm1 hm2 hm3 hm'
      funext x
      by_cases hx : x = slot u.transOp.rd
      · rw [hx, Function.update_self]
        exact (mapFlag_self (mapFlag_self (mapFlag_self (Function.update_self _ _ _)))).symm
      · rw [Function.update_of_ne hx]
        exact mapFlags_congr (Function.update_of_ne hx _ _).symm

theorem Renames.rd_not_null {u : DynamicInst} {m m' : LogicalFile} (h : Renames u m m')
    (hrd : u.rdPreg ≠ REG_NULL_DEST) : ¬ IsNull u.rdPreg := by
  cases h with
  | none hnone => exact absurd hnone hrd
  | dest hnn => exact Mapped.not_null_of_nonneg hnn

theorem Renames.rd_mapped {u : DynamicInst} {m m' : LogicalFile} (h : Renames u m m')
    (hrd : u.rdPreg ≠ REG_NULL_DEST) : m' (slot u.transOp.rd) = u.rdPreg := by
  rw [← h.redo hrd, Function.update_self]

/-- The old registers are those of the map before, but for the entry of the destination. -/
theorem Renames.olds {u : DynamicInst} {m m' : LogicalFile} (h : Renames u m m')
    (hrd : u.rdPreg ≠ REG_NULL_DEST) :
    u.rdPregOld = m (slot u.transOp.rd) ∧
      (slot REG_of ≠ slot u.transOp.rd → u.transOp.writesFlag FLAG_OF →
        u.rofPregOld = m (slot REG_of)) ∧
      (slot REG_cf ≠ slot u.transOp.rd → u.transOp.writesFlag FLAG_CF →
        u.rcfPregOld = m (slot REG_cf)) ∧
      (slot REG_zf ≠ slot u.transOp.rd → u.transOp.writesFlag FLAG_ZAPS →
        u.rzapsfPregOld = m (slot REG_zf)) := by
  cases h with
  | none hnone => exact absurd hnone hrd
  | dest _ _ _ rd m1 hm1 rof m2 hm2 rcf m3 hm3 rzapsf _ =>
      subst hm1 hm2 hm3
      refine ⟨rd, fun hne hw => ?_, fun hne hw => ?_, fun hne hw => ?_⟩
      · rw [(rof hw).1]
        exact Function.update_of_ne hne _ _
      · rw [(rcf hw).1]
        exact (mapFlag_of_ne of_ne_cf.symm).trans (Function.update_of_ne hne _ _)
      · rw [(rzapsf hw).1]
        exact ((mapFlag_of_ne cf_ne_zf.symm).trans (mapFlag_of_ne of_ne_zf.symm)).trans
          (Function.update_of_ne hne _ _)

/-- The old registers, mapped back in the order of a squash, give the map before. -/
theorem Renames.undo {u : DynamicInst} {m m' : LogicalFile} (h : Renames u m m')
    (hrd : u.rdPreg ≠ REG_NULL_DEST) :
    Function.update (mapFlags u.transOp u.rofPregOld u.rcfPregOld u.rzapsfPregOld m')
      (slot u.transOp.rd) u.rdPregOld = m := by
  obtain ⟨rd, rof, rcf, rzapsf⟩ := h.olds hrd
  funext x
  by_cases hx : x = slot u.transOp.rd
  · rw [hx, Function.update_self, rd]
  have hm' : m' x = mapFlags u.transOp u.rdPreg u.rdPreg u.rdPreg m x := by
    rw [← h.redo hrd, Function.update_of_ne hx]
  rw [Function.update_of_ne hx]
  by_cases hof : x = slot REG_of
  · subst hof
    exact mapFlags_of.trans (mapFlag_undo (rof hx) (hm'.trans mapFlags_of))
  by_cases hcf : x = slot REG_cf
  · subst hcf
    exact mapFlags_cf.trans (mapFlag_undo (rcf hx) (hm'.trans mapFlags_cf))
  by_cases hzf : x = slot REG_zf
  · subst hzf
    exact mapFlags_zf.trans (mapFlag_undo (rzapsf hx) (hm'.trans mapFlags_zf))
  · rw [mapFlags_other hof hcf hzf, hm', mapFlags_other hof hcf hzf]

/-- A register that `u` takes out of an entry of the map is held by `u`. -/
theorem Renames.held_of_changed {u : DynamicInst} {m m' : LogicalFile} (h : Renames u m m')
    {e : LogicalName} (hne : m' e ≠ m e) : m e ∈ u.held := by
  have hrd : u.rdPreg ≠ REG_NULL_DEST := by
    intro hnull
    cases h with
    | none _ hm' => exact hne (congrFun hm' e)
    | dest hnn => exact absurd (hnull ▸ hnn) (by decide)
  obtain ⟨rd, rof, rcf, rzapsf⟩ := h.olds hrd
  simp only [held, if_neg hrd, Multiset.mem_add]
  by_cases hx : e = slot u.transOp.rd
  · exact Or.inr (Or.inr (Multiset.mem_singleton.mpr (by rw [hx, rd])))
  rw [← h.redo hrd, Function.update_of_ne hx] at hne
  by_cases hof : e = slot REG_of
  · subst hof
    rw [mapFlags_of] at hne
    exact Or.inr (Or.inl (Or.inl (Or.inl (mem_heldFlag (rof hx) hne))))
  by_cases hcf : e = slot REG_cf
  · subst hcf
    rw [mapFlags_cf] at hne
    exact Or.inr (Or.inl (Or.inl (Or.inr (mem_heldFlag (rcf hx) hne))))
  by_cases hzf : e = slot REG_zf
  · subst hzf
    rw [mapFlags_zf] at hne
    exact Or.inr (Or.inl (Or.inr (mem_heldFlag (rzapsf hx) hne)))
  · exact absurd (mapFlags_other hof hcf hzf) hne

/-! Accounts: every operation moves references between the map and the uop. -/

section
variable {r r' : Mapped} {L : Multiset PhysName} {p old : PhysName} {num : LogicalName}
  {op : TransOp} {flag : Nat}

theorem renameSource_spec (hb : r.Accounts L) (h : renameSource num r = some (p, r')) :
    r'.Accounts ({p} + L) ∧ r'.map = r.map ∧ p = r.map (slot num) ∧ ¬ IsNull p ∧
      num ≠ REG_rip := by
  obtain ⟨q, hq, h⟩ := Option.bind_eq_some_iff.mp h
  obtain ⟨r1, h1, hr⟩ := Option.map_eq_some_iff.mp h
  obtain ⟨rfl, rfl⟩ : q = p ∧ r1 = r' := by simpa using hr
  unfold Mapped.getMapping at hq
  split at hq
  · cases hq
  rename_i hnum
  have hp : q = r.map (slot num) := (Option.some.inj hq).symm
  obtain ⟨hnull, hmap⟩ := Mapped.incrementRefCount_eq h1
  refine ⟨hb.increment ?_ h1, hmap, hp, hnull, hnum⟩
  rw [hp] at hnull ⊢
  exact Multiset.mem_add.mpr (Or.inl (mem_mapRefs hnull))

theorem renameOperand_spec (hb : r.Accounts L) (h : renameOperand num r = some (p, r')) :
    r'.Accounts (heldSource p + L) ∧ r'.map = r.map ∧ (¬ IsNull p ∨ p = REG_NULL_SRC) := by
  unfold renameOperand at h
  split at h
  · obtain ⟨rfl, rfl⟩ : REG_NULL_SRC = p ∧ r = r' := by simpa using h
    exact ⟨by simpa [heldSource] using hb, rfl, Or.inr rfl⟩
  · obtain ⟨hacc, hmap, _, hnull, _⟩ := renameSource_spec hb h
    refine ⟨?_, hmap, Or.inl hnull⟩
    rwa [heldSource, if_neg fun hp => hnull (Or.inr hp)]

theorem renameFlag_spec {rd : PhysName} {e : LogicalName} (hb : r.Accounts L)
    (hrd : r.map e = rd) (h : renameFlag op flag num rd r = some (old, r')) :
    r'.Accounts (heldFlag op flag old + L) ∧ r'.map = mapFlag op flag num rd r.map ∧
      (op.writesFlag flag → old = r.map (slot num) ∧ ¬ IsNull old) ∧
      (¬ IsNull old → old ∈ heldFlag op flag old) := by
  unfold renameFlag at h
  split at h
  · rename_i hw
    obtain ⟨⟨q, r1⟩, h1, h⟩ := Option.bind_eq_some_iff.mp h
    obtain ⟨r2, h2, hr⟩ := Option.map_eq_some_iff.mp h
    obtain ⟨rfl, rfl⟩ : q = old ∧ r2 = r' := by simpa using hr
    obtain ⟨hacc, hmap, hq, hnull, _⟩ := renameSource_spec hb h1
    obtain ⟨_, hrdnull, hmap2⟩ := Mapped.setMapping_map h2
    rw [heldFlag, if_pos hw, mapFlag, if_pos hw]
    refine ⟨hacc.setMapping ?_ h2, by rw [hmap2, hmap], fun _ => ⟨hq, hnull⟩, by simp⟩
    -- the new register is still named by entry `e`, or was the old one itself
    by_cases he : slot num = e
    · simp [hq, he, hrd]
    · have hentry : r1.map e = rd := by rw [hmap, hrd]
      rw [← hentry] at hrdnull ⊢
      exact Multiset.mem_add.mpr (Or.inl (mem_otherRefs (Ne.symm he) hrdnull))
  · rename_i hw
    obtain ⟨rfl, rfl⟩ : REG_NULL_DEST = old ∧ r = r' := by simpa using h
    rw [heldFlag, if_neg hw, mapFlag, if_neg hw, zero_add]
    exact ⟨hb, rfl, fun hw' => absurd hw' hw, fun hnull => absurd (Or.inl rfl) hnull⟩

theorem dropSource_spec (hb : r.Accounts (heldSource p + L))
    (hp : ¬ IsNull p ∨ p = REG_NULL_SRC) :
    ∃ r', dropSource p r = some r' ∧ r'.map = r.map ∧ r'.Accounts L := by
  unfold dropSource
  by_cases hsrc : p = REG_NULL_SRC
  · simp only [hsrc, heldSource, if_true, zero_add] at hb
    exact ⟨r, by simp [hsrc], rfl, hb⟩
  · rw [heldSource, if_neg hsrc] at hb
    obtain ⟨r', h⟩ := Mapped.decrementRefCount_isSome (r := r) (hp.resolve_right hsrc)
    exact ⟨r', by simp [hsrc, h], Mapped.decrementRefCount_map h, hb.decrement h⟩

theorem remap_spec (hb : r.Accounts ({old} + L)) (hnum : num ≠ REG_rip) (hp : ¬ IsNull p)
    (hold : ¬ IsNull old) (hmem : p ∈ {old} + L) :
    ∃ r', remap num p old r = some r' ∧ r'.map = Function.update r.map (slot num) p ∧
      r'.Accounts L := by
  obtain ⟨r1, h1⟩ := Mapped.setMapping_isSome (r := r) hnum hp
  obtain ⟨r2, h2⟩ := Mapped.decrementRefCount_isSome (r := r1) hold
  refine ⟨r2, by simp [remap, h1, h2], ?_, ?_⟩
  · rw [Mapped.decrementRefCount_map h2, (Mapped.setMapping_map h1).2.2]
  · exact (hb.setMapping (Multiset.mem_add.mpr (Or.inr hmem)) h1).decrement h2

theorem remapFlag_spec (hb : r.Accounts (heldFlag op flag old + L)) (hnum : num ≠ REG_rip)
    (h : op.writesFlag flag → ¬ IsNull p ∧ ¬ IsNull old ∧ p ∈ {old} + L) :
    ∃ r', remapFlag op flag num p old r = some r' ∧ r'.map = mapFlag op flag num p r.map ∧
      r'.Accounts L := by
  unfold remapFlag mapFlag
  by_cases hw : op.writesFlag flag
  · obtain ⟨hp, hold, hmem⟩ := h hw
    rw [heldFlag, if_pos hw] at hb
    simp only [if_pos hw]
    exact remap_spec hb hnum hp hold hmem
  · rw [heldFlag, if_neg hw, zero_add] at hb
    simp only [if_neg hw]
    exact ⟨r, rfl, rfl, hb⟩

end

/-! No operation of a uop forgets a register. -/

section
variable {u u' : DynamicInst} {r r' : Mapped} {p old : PhysName} {num : LogicalName}
  {op : TransOp} {flag : Nat}

theorem renameSource_follows (h : renameSource num r = some (p, r')) :
    r.file.Follows r'.file := by
  obtain ⟨q, _, h⟩ := Option.bind_eq_some_iff.mp h
  obtain ⟨r1, h1, hr⟩ := Option.map_eq_some_iff.mp h
  obtain ⟨_, rfl⟩ := Prod.mk.inj hr
  exact Mapped.incrementRefCount_follows h1

theorem renameOperand_follows (h : renameOperand num r = some (p, r')) :
    r.file.Follows r'.file := by
  unfold renameOperand at h
  split at h
  · obtain ⟨_, rfl⟩ := Prod.mk.inj (Option.some.inj h)
    exact .refl _
  · exact renameSource_follows h

theorem renameFlag_follows (h : renameFlag op flag num p r = some (old, r')) :
    r.file.Follows r'.file := by
  unfold renameFlag at h
  split at h
  · obtain ⟨⟨q, r1⟩, h1, h⟩ := Option.bind_eq_some_iff.mp h
    obtain ⟨r2, h2, hr⟩ := Option.map_eq_some_iff.mp h
    obtain ⟨_, rfl⟩ := Prod.mk.inj hr
    exact (renameSource_follows h1).trans (Mapped.setMapping_follows h2)
  · obtain ⟨_, rfl⟩ := Prod.mk.inj (Option.some.inj h)
    exact .refl _

theorem rename_follows (h : rename u r = some (u', r')) : r.file.Follows r'.file := by
  simp only [rename, Option.bind_eq_bind] at h
  obtain ⟨⟨ra, r1⟩, h1, h⟩ := Option.bind_eq_some_iff.mp h
  obtain ⟨⟨rb, r2⟩, h2, h⟩ := Option.bind_eq_some_iff.mp h
  obtain ⟨⟨rc, r3⟩, h3, h⟩ := Option.bind_eq_some_iff.mp h
  have hsrc := ((renameSource_follows h1).trans (renameOperand_follows h2)).trans
    (renameOperand_follows h3)
  split at h
  · cases h
  split at h
  · obtain ⟨⟨rdOld, r4⟩, h4, h⟩ := Option.bind_eq_some_iff.mp h
    simp only at h
    split at h
    · cases h
    obtain ⟨⟨rd, r5⟩, h5, h⟩ := Option.bind_eq_some_iff.mp h
    obtain ⟨⟨rof, r6⟩, h6, h⟩ := Option.bind_eq_some_iff.mp h
    obtain ⟨⟨rcf, r7⟩, h7, h⟩ := Option.bind_eq_some_iff.mp h
    obtain ⟨⟨rzapsf, r8⟩, h8, h⟩ := Option.bind_eq_some_iff.mp h
    obtain ⟨_, rfl⟩ := Prod.mk.inj (Option.some.inj h)
    exact hsrc.trans <| (renameSource_follows h4).trans <|
      (Mapped.getNewMapping_follows h5).trans <| (renameFlag_follows h6).trans <|
      (renameFlag_follows h7).trans (renameFlag_follows h8)
  · obtain ⟨_, rfl⟩ := Prod.mk.inj (Option.some.inj h)
    exact hsrc

theorem dropSource_follows (h : dropSource p r = some r') : r.file.Follows r'.file := by
  unfold dropSource at h
  split at h
  · exact Mapped.decrementRefCount_follows h
  · obtain rfl := Option.some.inj h
    exact .refl _

theorem remap_follows (h : remap num p old r = some r') : r.file.Follows r'.file := by
  obtain ⟨r1, h1, h⟩ := Option.bind_eq_some_iff.mp h
  exact (Mapped.setMapping_follows h1).trans (Mapped.decrementRefCount_follows h)

theorem remapFlag_follows (h : remapFlag op flag num p old r = some r') :
    r.file.Follows r'.file := by
  unfold remapFlag at h
  split at h
  · exact remap_follows h
  · obtain rfl := Option.some.inj h
    exact .refl _

theorem unwindRegisters_follows (h : unwindRegisters u r = some r') :
    r.file.Follows r'.file := by
  unfold unwindRegisters at h
  split at h
  · simp only [Option.bind_eq_bind] at h
    obtain ⟨r1, h1, h⟩ := Option.bind_eq_some_iff.mp h
    obtain ⟨r2, h2, h⟩ := Option.bind_eq_some_iff.mp h
    obtain ⟨r3, h3, h⟩ := Option.bind_eq_some_iff.mp h
    have hsrc := ((dropSource_follows h1).trans (dropSource_follows h2)).trans
      (dropSource_follows h3)
    split at h
    · obtain ⟨r4, h4, h⟩ := Option.bind_eq_some_iff.mp h
      obtain ⟨r5, h5, h⟩ := Option.bind_eq_some_iff.mp h
      obtain ⟨r6, h6, h⟩ := Option.bind_eq_some_iff.mp h
      exact hsrc.trans <| (remapFlag_follows h4).trans <| (remapFlag_follows h5).trans <|
        (remapFlag_follows h6).trans (remap_follows h)
    · obtain rfl := Option.some.inj h
      exact hsrc
  · obtain rfl := Option.some.inj h
    exact .refl _

theorem commit_follows (h : commit u r = some r') : r.file.Follows r'.file := by
  unfold commit at h
  split at h
  · cases h
  simp only [Option.bind_eq_bind] at h
  obtain ⟨r1, h1, h⟩ := Option.bind_eq_some_iff.mp h
  obtain ⟨r2, h2, h⟩ := Option.bind_eq_some_iff.mp h
  obtain ⟨r3, h3, h⟩ := Option.bind_eq_some_iff.mp h
  have hsrc := ((dropSource_follows h1).trans (dropSource_follows h2)).trans
    (dropSource_follows h3)
  split at h
  · obtain ⟨r4, h4, h⟩ := Option.bind_eq_some_iff.mp h
    obtain ⟨r5, h5, h⟩ := Option.bind_eq_some_iff.mp h
    obtain ⟨r6, h6, h⟩ := Option.bind_eq_some_iff.mp h
    exact hsrc.trans <| (remapFlag_follows h4).trans <| (remapFlag_follows h5).trans <|
      (remapFlag_follows h6).trans (remap_follows h)
  · obtain rfl := Option.some.inj h
    exact hsrc

end

/-- Renaming leaves the balance: the references it takes are those the uop then holds. -/
theorem rename_spec {op : TransOp} {u : DynamicInst} {r r' : Mapped} {L : Multiset PhysName}
    (hb : r.Accounts L) (h : rename { transOp := op } r = some (u, r')) :
    r'.Accounts (u.held + L) ∧ Renames u r.map r'.map ∧ Live u ∧
      u.stage = .DECODE_STAGE ∧ u.transOp = op := by
  simp only [rename, Option.bind_eq_bind] at h
  obtain ⟨⟨ra, r1⟩, h1, h⟩ := Option.bind_eq_some_iff.mp h
  obtain ⟨⟨rb, r2⟩, h2, h⟩ := Option.bind_eq_some_iff.mp h
  obtain ⟨⟨rc, r3⟩, h3, h⟩ := Option.bind_eq_some_iff.mp h
  obtain ⟨b1, m1, _, hra, _⟩ := renameSource_spec hb h1
  obtain ⟨b2, m2, hrb⟩ := renameOperand_spec b1 h2
  obtain ⟨b3, m3, hrc⟩ := renameOperand_spec b2 h3
  have hsrc : heldSource ra = {ra} := if_neg fun h => hra (Or.inr h)
  have hmap3 : r3.map = r.map := by rw [m3, m2, m1]
  split at h
  · cases h
  split at h
  · obtain ⟨⟨rdOld, r4⟩, h4, h⟩ := Option.bind_eq_some_iff.mp h
    obtain ⟨b4, m4, hrd, hrdnull, hrip⟩ := renameSource_spec b3 h4
    simp only at h
    split at h
    · cases h
    obtain ⟨⟨rd, r5⟩, h5, h⟩ := Option.bind_eq_some_iff.mp h
    obtain ⟨b5, m5, _, hfresh⟩ := b4.getNewMapping h5
    obtain ⟨⟨rof, r6⟩, h6, h⟩ := Option.bind_eq_some_iff.mp h
    obtain ⟨⟨rcf, r7⟩, h7, h⟩ := Option.bind_eq_some_iff.mp h
    obtain ⟨⟨rzapsf, r8⟩, h8, h⟩ := Option.bind_eq_some_iff.mp h
    -- the entry of the destination names the new register through all three flag groups
    have e5 : r5.map (slot op.rd) = rd := by rw [m5, Function.update_self]
    obtain ⟨b6, m6, hof, hof'⟩ := renameFlag_spec b5 e5 h6
    have e6 : r6.map (slot op.rd) = rd := by rw [m6]; exact mapFlag_self e5
    obtain ⟨b7, m7, hcf, hcf'⟩ := renameFlag_spec b6 e6 h7
    have e7 : r7.map (slot op.rd) = rd := by rw [m7]; exact mapFlag_self e6
    obtain ⟨b8, m8, hzf, hzf'⟩ := renameFlag_spec b7 e7 h8
    obtain ⟨rfl, rfl⟩ : _ = u ∧ r8 = r' := by simpa using h
    have hrdne : rd ≠ REG_NULL_DEST := by
      intro hnull
      rw [hnull] at hfresh
      exact absurd hfresh (by decide)
    refine ⟨b8.of_eq ?_, ?_, ⟨by simp, by simp, Or.inl hra, hrb, hrc, ?_⟩, rfl, rfl⟩
    · simp only [held, if_neg hrdne, hsrc]
      abel
    · rw [m8]
      rw [m4, hmap3] at m5
      exact .dest hfresh hrdnull hrip (by rw [hrd, hmap3]) r5.map m5 hof r6.map m6 hcf r7.map m7
        hzf rfl
    · simp only [List.forall_mem_cons, held, if_neg hrdne, Multiset.mem_add]
      exact ⟨fun _ => by simp, fun hn => by simp [hof' hn], fun hn => by simp [hcf' hn],
        fun hn => by simp [hzf' hn], by simp⟩
  · obtain ⟨rfl, rfl⟩ : _ = u ∧ r3 = r' := by simpa using h
    refine ⟨b3.of_eq ?_, ?_, ⟨by simp, by simp, Or.inl hra, hrb, hrc, by simp [IsNull]⟩, rfl, rfl⟩
    · simp only [held, if_true, hsrc]
      abel
    · rw [hmap3]
      exact .none rfl rfl

section
variable {u : DynamicInst} {r : Mapped} {m : LogicalFile} {L : Multiset PhysName}

/-- The three sources of a uop are given up first, by a squash as by a commit. -/
theorem dropSources_spec {S : Multiset PhysName} (hlive : Live u)
    (hb : r.Accounts
      (heldSource u.raPreg + heldSource u.rbPreg + heldSource u.rcPreg + S)) :
    ∃ r1 r2 r3, dropSource u.raPreg r = some r1 ∧ dropSource u.rbPreg r1 = some r2 ∧
      dropSource u.rcPreg r2 = some r3 ∧ r3.map = r.map ∧ r3.Accounts S := by
  obtain ⟨r1, h1, m1, b1⟩ := dropSource_spec
    (hb.of_eq (show _ = heldSource u.raPreg + (heldSource u.rbPreg + (heldSource u.rcPreg + S))
      by abel)) hlive.ra
  obtain ⟨r2, h2, m2, b2⟩ := dropSource_spec b1 hlive.rb
  obtain ⟨r3, h3, m3, b3⟩ := dropSource_spec b2 hlive.rc
  exact ⟨r1, r2, r3, h1, h2, h3, by rw [m3, m2, m1], b3⟩

/-- A squash of the youngest uop never fails and gives back the map before its renaming. -/
theorem unwindRegisters_spec (hlive : Live u) (hren : Renames u m r.map)
    (hb : r.Accounts (u.held + L)) :
    ∃ r', unwindRegisters u r = some r' ∧ r'.map = m ∧ r'.Accounts L := by
  have hguard : (u.isRenamed && !u.isRetired) = true := by
    simp [isRenamed, isRetired, hlive.renamed, hlive.notRetired]
  rw [held, add_assoc] at hb
  obtain ⟨r1, r2, r3, h1, h2, h3, m3, b3⟩ := dropSources_spec hlive hb
  simp only [unwindRegisters, hguard, if_true, h1, h2, h3, Option.bind_eq_bind, Option.bind_some]
  by_cases hrd : u.rdPreg = REG_NULL_DEST
  · cases hren with
    | none _ hm =>
        rw [if_pos hrd, zero_add] at b3
        exact ⟨r3, by simp [hrd], m3.trans hm, b3⟩
    | dest hnn => exact absurd (hrd ▸ hnn) (by decide)
  · have hundo := hren.undo hrd
    cases hren with
    | none hnone => exact absurd hnone hrd
    | dest _ hold hrip _ m1 _ rof m2 _ rcf m3' _ rzapsf _ =>
        rw [if_neg hrd] at b3
        obtain ⟨r4, h4, m4, b4⟩ := remapFlag_spec (p := u.rofPregOld)
          (b3.of_eq (show _ = heldFlag u.transOp FLAG_OF u.rofPregOld +
            (heldFlag u.transOp FLAG_CF u.rcfPregOld +
              (heldFlag u.transOp FLAG_ZAPS u.rzapsfPregOld + ({u.rdPregOld} + L))) by abel))
          (show REG_of ≠ REG_rip by decide) fun hw => ⟨(rof hw).2, (rof hw).2, by simp⟩
        obtain ⟨r5, h5, m5, b5⟩ := remapFlag_spec (p := u.rcfPregOld) b4
          (show REG_cf ≠ REG_rip by decide) fun hw => ⟨(rcf hw).2, (rcf hw).2, by simp⟩
        obtain ⟨r6, h6, m6, b6⟩ := remapFlag_spec (p := u.rzapsfPregOld) b5
          (show REG_zf ≠ REG_rip by decide) fun hw => ⟨(rzapsf hw).2, (rzapsf hw).2, by simp⟩
        obtain ⟨r7, h7, m7, b7⟩ := remap_spec (p := u.rdPregOld) b6 hrip hold hold (by simp)
        refine ⟨r7, by simp [hrd, h4, h5, h6, h7], ?_, b7⟩
        rw [m7, m6, m5, m4, m3]
        exact hundo

/-- A commit never fails and does to the retire map what renaming did to the map then. -/
theorem commit_spec {m' : LogicalFile} (hstage : u.stage = .COMPLETE_STAGE) (hlive : Live u)
    (hren : Renames u r.map m') (hb : r.Accounts (u.held + L))
    (hrdL : u.rdPreg ≠ REG_NULL_DEST → u.rdPreg ∈ L) :
    ∃ r', commit u r = some r' ∧ r'.map = m' ∧ r'.Accounts L := by
  rw [held, add_assoc] at hb
  obtain ⟨r1, r2, r3, h1, h2, h3, m3, b3⟩ := dropSources_spec hlive hb
  simp only [commit, hstage, h1, h2, h3, Option.bind_eq_bind, Option.bind_some, ne_eq,
    not_true_eq_false, if_false]
  by_cases hrd : u.rdPreg = REG_NULL_DEST
  · cases hren with
    | none _ hm' =>
        rw [if_pos hrd, zero_add] at b3
        exact ⟨r3, by simp [hrd], m3.trans hm'.symm, b3⟩
    | dest hnn => exact absurd (hrd ▸ hnn) (by decide)
  · have hredo := hren.redo hrd
    have hnull := hren.rd_not_null hrd
    cases hren with
    | none hnone => exact absurd hnone hrd
    | dest _ hold hrip _ m1 _ rof m2 _ rcf m3' _ rzapsf _ =>
        have hmem := hrdL hrd
        rw [if_neg hrd] at b3
        obtain ⟨r4, h4, m4, b4⟩ := remapFlag_spec (p := u.rdPreg)
          (b3.of_eq (show _ = heldFlag u.transOp FLAG_OF u.rofPregOld +
            (heldFlag u.transOp FLAG_CF u.rcfPregOld +
              (heldFlag u.transOp FLAG_ZAPS u.rzapsfPregOld + ({u.rdPregOld} + L))) by abel))
          (show REG_of ≠ REG_rip by decide) fun hw => ⟨hnull, (rof hw).2, by simp [hmem]⟩
        obtain ⟨r5, h5, m5, b5⟩ := remapFlag_spec (p := u.rdPreg) b4
          (show REG_cf ≠ REG_rip by decide) fun hw => ⟨hnull, (rcf hw).2, by simp [hmem]⟩
        obtain ⟨r6, h6, m6, b6⟩ := remapFlag_spec (p := u.rdPreg) b5
          (show REG_zf ≠ REG_rip by decide) fun hw => ⟨hnull, (rzapsf hw).2, by simp [hmem]⟩
        obtain ⟨r7, h7, m7, b7⟩ := remap_spec (p := u.rdPreg) b6 hrip hnull hold (by simp [hmem])
        refine ⟨r7, by simp [hrd, h4, h5, h6, h7], ?_, b7⟩
        rw [m7, m6, m5, m4, m3]
        exact hredo

end

end DynamicInst
end FeS2.Pyrite
