import FeS2.Decoder.StringInsn

/-!
The direction flag of the decoder and that of the program. The decoder takes its own from the
context it is made with, whose flags are not read yet, and never again. Where it cannot decode an
instruction, the simulator executes it and the flags in the context are read anew.
-/

namespace FeS2.Decoder

inductive Insn
  | cld
  | std
  | popf (df : Bool)
  | string (i : StringInsn)
  | other (uops : List TransOp)

namespace Insn

/-- The direction flag when the instruction has been executed. -/
def executed (df : Bool) : Insn → Bool
  | .cld => false
  | .std => true
  | .popf df => df
  | .string _ | .other _ => df

def nop : TransOp :=
  { opcode := .nop, rd := .temp0, ra := .zero, rb := .zero, rc := .zero, size := .w64 }

/-- The uops of an instruction; `none` is an exception of the decoder. -/
def decode (dirflag : Bool) : Insn → Option (List TransOp)
  | .cld => if dirflag then none else some [nop]
  | .std => if dirflag then some [nop] else none
  | .popf _ => none
  | .string i => i.uops dirflag
  | .other uops => some uops

end Insn

/-- A processor with the instructions it has fetched, the oldest first, the direction flag of its
context and that of the simulated machine. -/
structure Fetcher where
  dirflag : Bool
  internalDf : Bool
  df : Bool
  window : List (Insn × List TransOp)

namespace Fetcher

/-- `dirflag = ((ctx.internal_eflags & FLAG_DF) != 0)`, of a context with no flag set. -/
def construct (df : Bool) : Fetcher :=
  { dirflag := false, internalDf := false, df := df, window := [] }

inductive Event
  | fetch (i : Insn)
  | retire
  | squash (left : Nat)
  | reset
  | emulate (i : Insn)

/-- Fetch goes on along any path, also a wrong one; an instruction is retired when the simulator
has executed it. One that was not decoded is executed with nothing left in the window, and then,
as after any other mismatch, the registers are read anew. -/
def apply (f : Fetcher) : Event → Fetcher
  | .fetch i =>
      match i.decode f.dirflag with
      | none => f
      | some uops => { f with window := f.window ++ [(i, uops)] }
  | .retire =>
      match f.window with
      | [] => f
      | (i, _) :: window => { f with df := i.executed f.df, window := window }
  | .squash left => { f with window := f.window.take left }
  | .reset => { f with internalDf := f.df, window := [] }
  | .emulate i => { f with df := i.executed f.df, internalDf := i.executed f.df, window := [] }

/-- A string instruction as it is retired: its uops and the direction flag it finds. -/
structure Retired where
  insn : StringInsn
  uops : List TransOp
  df : Bool

def retired (f : Fetcher) : Event → Option Retired
  | .retire =>
      match f.window with
      | (.string i, uops) :: _ => some { insn := i, uops := uops, df := f.df }
      | _ => none
  | _ => none

/-- The string instructions retired in a run. -/
def strings : List Event → Fetcher → List Retired
  | [], _ => []
  | e :: es, f => (f.retired e).toList ++ strings es (f.apply e)

/-- The increments of the addresses have the sign of the direction flag. -/
def Retired.Follows (r : Retired) : Prop :=
  ∀ t ∈ r.uops, t.opcode = .add → if r.df then t.rbimm.toInt < 0 else 0 < t.rbimm.toInt

/-! The decoder's flag stays clear -/

structure Forward (f : Fetcher) : Prop where
  dirflag : f.dirflag = false
  decoded : ∀ p ∈ f.window, p.1.decode false = some p.2

theorem construct_forward (df : Bool) : (construct df).Forward where
  dirflag := rfl
  decoded := fun _ hp => absurd hp List.not_mem_nil

theorem Forward.apply {f : Fetcher} (h : f.Forward) (e : Event) : (f.apply e).Forward := by
  cases e with
  | fetch i =>
      rw [Fetcher.apply]
      cases hdecode : i.decode f.dirflag with
      | none => exact h
      | some uops =>
          refine ⟨h.dirflag, fun p hp => ?_⟩
          rw [List.mem_append, List.mem_singleton] at hp
          cases hp with
          | inl hold => exact h.decoded p hold
          | inr hnew =>
              rw [hnew]
              exact h.dirflag ▸ hdecode
  | retire =>
      rw [Fetcher.apply]
      split
      · exact h
      · rename_i i uops window heq
        exact ⟨h.dirflag, fun p hp => h.decoded p (heq ▸ List.mem_cons_of_mem _ hp)⟩
  | squash left => exact ⟨h.dirflag, fun p hp => h.decoded p (List.mem_of_mem_take hp)⟩
  | reset => exact ⟨h.dirflag, fun _ hp => absurd hp List.not_mem_nil⟩
  | emulate i => exact ⟨h.dirflag, fun _ hp => absurd hp List.not_mem_nil⟩

theorem increment_pos (i : StringInsn) : 0 < (i.increment false).toInt := by
  rw [StringInsn.increment, if_neg (by decide)]
  cases i.size <;> decide

theorem follows_iff {r : Retired} (h : r.insn.uops false = some r.uops) :
    r.Follows ↔ r.df = false := by
  constructor
  · intro hfollows
    obtain ⟨reg, hmem⟩ := StringInsn.exists_advance h
    have hsign := hfollows _ hmem rfl
    cases hdf : r.df with
    | false => rfl
    | true =>
        rw [hdf, if_pos rfl] at hsign
        exact absurd (increment_pos r.insn) (Int.not_lt.mpr (Int.le_of_lt hsign))
  · intro hdf t ht hadd
    rw [if_neg (by simp [hdf]), StringInsn.add_increment h ht hadd]
    exact increment_pos r.insn

theorem Forward.retired {f : Fetcher} (h : f.Forward) {e : Event} {r : Retired}
    (hr : f.retired e = some r) : r.insn.uops false = some r.uops := by
  cases e with
  | retire =>
      rw [Fetcher.retired] at hr
      split at hr
      · rename_i i uops window heq
        cases hr
        exact h.decoded (.string i, uops) (heq ▸ List.mem_cons_self)
      · cases hr
  | fetch | squash | reset | emulate => cases hr

theorem Forward.strings {f : Fetcher} (h : f.Forward) (es : List Event) :
    ∀ r ∈ strings es f, r.insn.uops false = some r.uops := by
  induction es generalizing f with
  | nil => exact fun _ hr => absurd hr List.not_mem_nil
  | cons e es ih =>
      intro r hr
      rw [Fetcher.strings, List.mem_append, Option.mem_toList] at hr
      cases hr with
      | inl hnow => exact h.retired hnow
      | inr hlater => exact ih (h.apply e) r hlater

/-- String instructions go the right way as long as the flag is clear at each of them. -/
theorem follows_throughout_iff (df : Bool) (es : List Event) :
    (∀ r ∈ strings es (construct df), r.Follows) ↔
      ∀ r ∈ strings es (construct df), r.df = false := by
  have hdecoded := (construct_forward df).strings es
  exact ⟨fun h r hr => (follows_iff (hdecoded r hr)).mp (h r hr),
    fun h r hr => (follows_iff (hdecoded r hr)).mpr (h r hr)⟩

theorem repMovsb_moved : (0x1002 : W64) ≠ 0x1000 := by decide

/-- `rep movsb`, backwards by the program's flag. -/
def repMovsb : StringInsn :=
  { op := .movs, rep := .repz, bytewise := true, use64 := true, mode64 := false,
    opsizePrefix := false, addrsizePrefix := false, ripstart := 0x1000, rip := 0x1002,
    moved := repMovsb_moved }

theorem backward_goes_forward : ¬ ∀ df es, ∀ r ∈ strings es (construct df), r.Follows := by
  intro h
  have hrun := h false [.emulate .std, .fetch (.string repMovsb), .retire]
    { insn := repMovsb, uops := repMovsb.chk :: repMovsb.body false ++ repMovsb.tail, df := true }
    List.mem_cons_self
  have hsign := hrun (repMovsb.advance false .rsi) (by decide) rfl
  exact absurd hsign (by decide)

end Fetcher
end FeS2.Decoder
