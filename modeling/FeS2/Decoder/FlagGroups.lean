import FeS2.Library.EventSystem
import FeS2.Library.LastWriter
import FeS2.Decoder.RenamedRegs
import FeS2.Decoder.ShiftInsn

/-!
The flags over runs of x86 ops. Each of the three groups is renamed by itself, and every physical
register carries a whole flags word, so a flag is right in the register of its own group only.
-/

namespace FeS2.Decoder

/-! What the user flags are -/

def SetFlags.merge (groups : SetFlags) (new old : Flags) : Flags where
  cf := if groups.cf then new.cf else old.cf
  pf := if groups.zf then new.pf else old.pf
  zf := if groups.zf then new.zf else old.zf
  sf := if groups.zf then new.sf else old.sf
  of := if groups.of then new.of else old.of

theorem SetFlags.merge_none (new old : Flags) : SetFlags.none.merge new old = old := rfl

theorem SetFlags.merge_self (groups : SetFlags) (f : Flags) : groups.merge f f = f := by
  simp [merge]

/-- Some groups, and a flags word for them. -/
structure FlagWrite where
  groups : SetFlags
  flags : Flags

/-- A flag as the youngest one left it that writes its group. -/
def lastFlag (group : SetFlags → Bool) (flag : Flags → Bool) (ws : List FlagWrite) : Option Bool :=
  LastWriter.lastWrite
    (fun q => ws[q]?.bind fun w => if group w.groups then some (flag w.flags) else none) 0 ws.length

def archFlags (init : Flags) (ws : List FlagWrite) : Flags where
  cf := (lastFlag (·.cf) (·.cf) ws).getD init.cf
  pf := (lastFlag (·.zf) (·.pf) ws).getD init.pf
  zf := (lastFlag (·.zf) (·.zf) ws).getD init.zf
  sf := (lastFlag (·.zf) (·.sf) ws).getD init.sf
  of := (lastFlag (·.of) (·.of) ws).getD init.of

theorem lastFlag_concat (group : SetFlags → Bool) (flag : Flags → Bool) (ws : List FlagWrite)
    (w : FlagWrite) (init : Bool) :
    (lastFlag group flag (ws ++ [w])).getD init =
      if group w.groups then flag w.flags else (lastFlag group flag ws).getD init := by
  have hbefore : ∀ q, 0 ≤ q → q < 0 + ws.length → (ws ++ [w])[q]? = ws[q]? := by
    intro q _ hq
    exact List.getElem?_append_left (by omega)
  have hlast : (ws ++ [w])[0 + ws.length]? = some w := by
    rw [Nat.zero_add, List.getElem?_append_right (Nat.le_refl _), Nat.sub_self]
    rfl
  rw [lastFlag, List.length_append, List.length_singleton, LastWriter.lastWrite_succ, hlast,
    LastWriter.lastWrite_congr fun q hlo hq => by rw [hbefore q hlo hq]]
  change ((if group w.groups then some (flag w.flags) else none).or (lastFlag group flag ws)).getD
    init = _
  cases group w.groups with
  | true => rfl
  | false => rfl

theorem archFlags_concat (init : Flags) (ws : List FlagWrite) (w : FlagWrite) :
    archFlags init (ws ++ [w]) = w.groups.merge w.flags (archFlags init ws) := by
  simp only [archFlags, lastFlag_concat, SetFlags.merge]

theorem archFlags_append (init : Flags) (ws vs : List FlagWrite) :
    archFlags init (ws ++ vs) =
      vs.foldl (fun f w => w.groups.merge w.flags f) (archFlags init ws) := by
  induction vs generalizing ws with
  | nil => rw [List.append_nil, List.foldl_nil]
  | cons v vs ih => rw [List.append_cons, ih, archFlags_concat, List.foldl_cons]

/-- Each flag as its own name gives it. -/
def Machine.userFlags (m : Machine) : Flags :=
  { m.flagsOf .zf with cf := (m.flagsOf .cf).cf, of := (m.flagsOf .of).of }

/-- The groups that a uop sets for the user. -/
def TransOp.userGroups (t : TransOp) : SetFlags :=
  if t.nouserflags ∨ t.rd = .zero then .none else t.setflags

/-- A name of a flag is mapped to the result if the uop sets the flag for the user. -/
theorem TransOp.writes_group {t : TransOp} (hflag : t.rd.isFlag = false) :
    t.writes .zf = (!t.nouserflags && t.setflags.zf) ∧
      t.writes .cf = (!t.nouserflags && t.setflags.cf) ∧
      t.writes .of = (!t.nouserflags && t.setflags.of) := by
  have hne : ∀ r : Reg, r.isFlag = true → r ≠ t.rd := by
    rintro r hr rfl
    rw [hflag] at hr
    cases hr
  have hwrites : ∀ r : Reg, r.isFlag = true → t.writes r = (!t.nouserflags &&
      (t.setflags.zf && r = .zf || t.setflags.cf && r = .cf || t.setflags.of && r = .of)) := by
    intro r hr
    rw [writes, decide_eq_false (hne r hr), Bool.false_or]
  rw [hwrites .zf rfl, hwrites .cf rfl, hwrites .of rfl]
  simp

/-- What a uop leaves of the user flags. -/
theorem TransOp.write_groups {t : TransOp} (hflag : t.rd.isFlag = false) (left : Leftover)
    (x : W64) (f : Flags) (m : Machine) :
    (t.write left x f m).userFlags = t.userGroups.merge f m.userFlags := by
  by_cases hzero : t.rd = .zero
  · rw [write, if_pos hzero, userGroups, if_pos (.inr hzero), SetFlags.merge_none]
  have hflags : ∀ r, r.isFlag = true → (t.write left x f m).flagsOf r =
      if t.writes r then if t.setflags = .none then left.flags else f else m.flagsOf r := by
    intro r hr
    have hne : r ≠ .zero := by
      rintro rfl
      cases hr
    rw [write, if_neg hzero, Machine.flagsOf, if_neg hne, Machine.flagsOf, if_neg hne]
  obtain ⟨hzf, hcf, hof⟩ := writes_group hflag
  rw [Machine.userFlags, hflags .zf rfl, hflags .cf rfl, hflags .of rfl, hzf, hcf, hof,
    userGroups]
  cases hno : t.nouserflags with
  | true =>
      have hnone : (if true = true ∨ t.rd = .zero then SetFlags.none else t.setflags) = .none :=
        if_pos (.inl rfl)
      rw [hnone]
      rfl
  | false =>
      have huser : ¬(false = true ∨ t.rd = .zero) := by
        rintro (h | h)
        · cases h
        · exact hzero h
      have hown : (if false = true ∨ t.rd = .zero then SetFlags.none else t.setflags) =
          t.setflags := if_neg huser
      rw [hown]
      by_cases hset : t.setflags = .none
      · rw [hset]
        rfl
      · rw [if_neg hset]
        generalize t.setflags = g
        obtain ⟨zf, cf, of⟩ := g
        cases zf <;> cases cf <;> cases of <;> rfl

/-- What uops write of the user flags, in their order. -/
def flagWrites (left : Nat → Leftover) : List TransOp → Machine → List FlagWrite
  | [], _ => []
  | t :: ts, m =>
      match t.exec (left ts.length) m with
      | some (.result x f) =>
          { groups := t.userGroups, flags := f } ::
            flagWrites left ts (t.write (left ts.length) x f m)
      | some (.stored memory) => flagWrites left ts { m with memory := memory }
      | some (.checkFailed _) => [{ groups := t.userGroups, flags := .clear }]
      | _ => []

/-- The user flags are those of the youngest writers. -/
theorem runUops_userFlags {left : Nat → Leftover} {next rip : W64} {ts : List TransOp}
    {m m' : Machine} (h : ∀ t ∈ ts, t.rd.isFlag = false)
    (hrun : runUops left next ts m = some (m', rip)) :
    m'.userFlags = (flagWrites left ts m).foldl (fun f w => w.groups.merge w.flags f)
      m.userFlags := by
  induction ts generalizing m with
  | nil =>
      cases hrun
      rfl
  | cons t ts ih =>
      have ht := h t List.mem_cons_self
      have hrest := fun t' ht' => h t' (List.mem_cons_of_mem t ht')
      rw [runUops] at hrun
      rw [flagWrites]
      cases hexec : t.exec (left ts.length) m with
      | none =>
          rw [hexec] at hrun
          cases hrun
      | some outcome =>
          rw [hexec] at hrun
          cases outcome with
          | result x f =>
              dsimp only
              rw [List.foldl_cons, ← TransOp.write_groups ht (left ts.length) x f m]
              exact ih hrest hrun
          | stored memory => exact ih (m := { m with memory := memory }) hrest hrun
          | branched target =>
              cases hrun
              rfl
          | checkFailed x =>
              cases hrun
              exact TransOp.write_groups ht _ _ _ _

end FeS2.Decoder
