import FeS2.Library.EventSystem
import FeS2.Pyrite.Rename

/-!
The register side of a processor: both logical files, the physical file and the
window from its tail to its rename point, the youngest uop first. `fetched` is
the rest of the window. A step is one uop renamed, completed or retired, a
squash of the youngest uops by a flush or by a replay, or a reset. A squash from
queue position zero, whose loop the source never leaves, ends here like any other.
-/

namespace FeS2.Pyrite
open RefCount DynamicInst

namespace Mapped

def setValue (num : PhysName) (r : Mapped) : Option Mapped :=
  (r.file.setValue num).map fun pf => { r with file := pf }

def resetPyriteRegister (num : LogicalName) (r : Mapped) : Option Mapped :=
  (r.getNewMapping num).bind fun (preg, r) => r.setValue preg

def resetXmm (i : Nat) (r : Mapped) : Option Mapped :=
  if h : 16 + 2 * i + 1 < 80 then
    (r.getNewMapping ⟨16 + 2 * i, by omega⟩).bind fun (low, r) =>
      (r.getNewMapping ⟨16 + 2 * i + 1, h⟩).bind fun (high, r) =>
        (r.setValue low).bind fun r => r.setValue high
  else none

/-- `of`, `cf` and `zf` start in the register of `flags`. -/
def aliasFlags (r : Mapped) : Option Mapped :=
  (r.getMapping REG_flags).bind fun flags =>
    (r.setMapping REG_of flags).bind fun r =>
      (r.setMapping REG_cf flags).bind fun r => r.setMapping REG_zf flags

def resetRegisters (nums : List LogicalName) (r : Mapped) : Option Mapped :=
  nums.foldlM (fun r num => resetPyriteRegister num r) r

/-- The logical and physical file right after their own resets. -/
def cleared : Mapped := ⟨fun _ => REG_NULL_SRC, {}⟩

/-- Up to the copy into the retire map. -/
def resetFrontEnd (is64bit : Bool) (numXmm : Nat) : Option Mapped :=
  (cleared.resetRegisters ([REG_zero, REG_rax, REG_rbx, REG_rcx, REG_rdx, REG_rsp, REG_rbp,
      REG_rsi, REG_rdi, REG_flags] ++ if is64bit then extendedRegisters else [])).bind fun r =>
  r.aliasFlags.bind fun r =>
  ((List.range numXmm).foldlM (fun r i => resetXmm i r) r).bind fun r =>
  r.resetRegisters (temporaryRegisters ++
    [REG_ctx, REG_fpstack, REG_fpsw, REG_fptos, REG_fptags])

end Mapped

namespace LogicalFile

def dropAll (m : LogicalFile) (pf : PhysicalFile) : Option PhysicalFile :=
  (List.finRange 80).foldlM
    (fun pf i => if IsNull (m i) then some pf else pf.decrementRefCount (m i)) pf

def retainAll (m : LogicalFile) (pf : PhysicalFile) : Option PhysicalFile :=
  (List.finRange 80).foldlM
    (fun pf i => if IsNull (m i) then some pf else pf.incrementRefCount (m i)) pf

end LogicalFile

structure RegisterState where
  frontEndMap : LogicalFile := fun _ => REG_NULL_SRC
  retireMap : LogicalFile := fun _ => REG_NULL_SRC
  physicalFile : PhysicalFile := {}
  renamed : List DynamicInst := []
  fetched : List TransOp := []

namespace RegisterState

inductive Event
  | fetch (op : TransOp)
  | rename
  | complete (i : Nat)
  | retire
  | flushPipeline (n : Nat)
  | replay (n : Nat)
  | reset (is64bit : Bool) (numXmm : Nat)

def rename (s : RegisterState) : Option RegisterState :=
  match s.fetched with
  | [] => none
  | op :: rest =>
      if !op.uopIsLegal then none
      else if op.isnop then
        some { s with
          renamed := { transOp := op, stage := .COMPLETE_STAGE } :: s.renamed, fetched := rest }
      else
        (DynamicInst.rename { transOp := op } ⟨s.frontEndMap, s.physicalFile⟩).map fun (u, r) =>
          { s with
            frontEndMap := r.map, physicalFile := r.file,
            renamed := u :: s.renamed, fetched := rest }

/-- The end of an execution: the destination is written and becomes ready. -/
def complete (i : Nat) (s : RegisterState) : Option RegisterState :=
  match s.renamed[i]? with
  | none => none
  | some u =>
      if u.stage = .COMPLETE_STAGE then none
      else
        (if u.rdPreg = REG_NULL_DEST then some s.physicalFile
          else s.physicalFile.setValue u.rdPreg).map fun pf =>
          { s with
            physicalFile := pf, renamed := s.renamed.set i { u with stage := .COMPLETE_STAGE } }

/-- The oldest uop commits and leaves the window. -/
def retire (s : RegisterState) : Option RegisterState :=
  match s.renamed.getLast? with
  | none => none
  | some u =>
      (u.commit ⟨s.retireMap, s.physicalFile⟩).map fun r =>
        { s with retireMap := r.map, physicalFile := r.file, renamed := s.renamed.dropLast }

/-- The `n` youngest renamed uops are squashed, the youngest first. -/
def squash : Nat → RegisterState → Option RegisterState
  | 0, s => some s
  | n + 1, s =>
      match s.renamed with
      | [] => none
      | u :: us =>
          (u.unwindRegisters ⟨s.frontEndMap, s.physicalFile⟩).bind fun r =>
            squash n { s with frontEndMap := r.map, physicalFile := r.file, renamed := us }

def flushPipeline (n : Nat) (s : RegisterState) : Option RegisterState :=
  (squash n s).map fun s' => { s' with fetched := [] }

/-- The squashed uops stay in the window, to be renamed again. -/
def replay (n : Nat) (s : RegisterState) : Option RegisterState :=
  (squash n s).map fun s' =>
    { s' with fetched := ((s.renamed.take n).reverse.map (·.transOp)) ++ s.fetched }

def reset (is64bit : Bool) (numXmm : Nat) (s : RegisterState) : Option RegisterState :=
  (squash s.renamed.length s).bind fun _ =>
    (Mapped.resetFrontEnd is64bit numXmm).bind fun r =>
      -- `m_retire_map = m_front_end_map`, the retire map being empty since its own reset
      (LogicalFile.dropAll (fun _ => REG_NULL_SRC) r.file).bind fun pf =>
        (LogicalFile.retainAll r.map pf).map fun pf =>
          { frontEndMap := r.map, retireMap := r.map, physicalFile := pf }

def step (s : RegisterState) : Event → Option RegisterState
  | .fetch op => some { s with fetched := s.fetched ++ [op] }
  | .rename => s.rename
  | .complete i => s.complete i
  | .retire => s.retire
  | .flushPipeline n => s.flushPipeline n
  | .replay n => s.replay n
  | .reset is64bit numXmm => s.reset is64bit numXmm

end RegisterState
end FeS2.Pyrite
