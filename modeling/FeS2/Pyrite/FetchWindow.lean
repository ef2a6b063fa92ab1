import FeS2.Library.EventSystem

/-!
The window as fetch and branch resolution see it, oldest uop first. Positions
count from the tail of the window. The decoder, the predictors, the values that
uops compute and the violations that the load/store queue finds are the
environment and come with the events.
-/

namespace FeS2.Pyrite

abbrev Waddr := BitVec 64

/-- `resolved` is the target of the latest resolution. The code does not keep it. -/
structure WindowUop where
  rip : Waddr
  ripseq : Waddr := 0
  isbranch : Bool := false
  ischeck : Bool := false
  isload : Bool := false
  startsX86Op : Bool := false
  endsX86Op : Bool := false
  predTarget : Waddr := 0
  complete : Bool := false
  mispredicted : Bool := false
  checkException : Bool := false
  resolved : Option Waddr := none
  deriving DecidableEq

namespace WindowUop

/-- What a squash clears of a uop that stays in the window. -/
def squash (u : WindowUop) : WindowUop :=
  { u with complete := false, mispredicted := false, checkException := false }

/-- What its execution records in a branch. -/
def resolve (actualTarget : Waddr) (u : WindowUop) : WindowUop :=
  { u with
    mispredicted := actualTarget ≠ u.predTarget
    resolved := some actualTarget
    complete := true }

/-- Where the code has sent fetch after this branch. -/
def target (u : WindowUop) : Waddr := u.resolved.getD u.predTarget

end WindowUop

/-- The uop the decoder makes, before it has a place in the window. -/
structure DecodedUop where
  ripseq : Waddr := 0
  isbranch : Bool := false
  ischeck : Bool := false
  isload : Bool := false
  deriving DecidableEq

inductive Violation
  | none
  | loadOrdering
  | loadConsistency
  deriving DecidableEq

structure FetchWindow where
  window : List WindowUop := []
  qRename : Nat := 0
  qRetire : Nat := 0
  fetchRip : Waddr

namespace FetchWindow

inductive Event
  | fetch (uops : List DecodedUop) (size pred : Waddr)
  | rename
  | complete (q : Nat) (excepting : Bool)
  | resolveBranch (q : Nat) (actualTarget : Waddr)
  | alignmentException (q : Nat)
  | retire (violation : Violation)
  | reset (rip : Waddr)

def flushPipeline (qFirstBad : Nat) (s : FetchWindow) : FetchWindow :=
  { s with
    window := s.window.take qFirstBad
    qRename := qFirstBad
    qRetire := min s.qRetire qFirstBad }

/-- The uops past the rename point have nothing to undo. -/
def replay (qFirstReplayed : Nat) (s : FetchWindow) : FetchWindow :=
  { s with
    window := s.window.take qFirstReplayed ++
      (s.window.drop qFirstReplayed).map WindowUop.squash
    qRename := qFirstReplayed
    qRetire := min s.qRetire qFirstReplayed }

/-- The search of `dyn_first`, towards older uops. -/
def firstOfX86Op (w : List WindowUop) : Nat → Option Nat
  | 0 => w[0]?.bind fun u => if u.startsX86Op then some 0 else none
  | q + 1 => w[q + 1]?.bind fun u => if u.startsX86Op then some (q + 1) else firstOfX86Op w q

/-- The search of `dyn_last`, towards younger uops. -/
def lastOfX86Op (w : List WindowUop) (q : Nat) : Option Nat :=
  ((w.drop q).findIdx? (·.endsX86Op)).map (· + q)

def toWindow (rip pred : Waddr) (first last : Bool) (op : DecodedUop) : WindowUop :=
  { rip := rip, ripseq := op.ripseq, isbranch := op.isbranch, ischeck := op.ischeck
    isload := op.isload, startsX86Op := first, endsX86Op := last, predTarget := pred }

/-- One x86 instruction in the window. Only its last uop may be a branch. -/
def x86Op (rip pred : Waddr) : Bool → List DecodedUop → Option (List WindowUop)
  | _, [] => none
  | first, [op] => some [toWindow rip pred first true op]
  | first, op :: ops =>
      if op.isbranch then none
      else (x86Op rip pred false ops).map fun us => toWindow rip pred first false op :: us

def endsInBranch (us : List WindowUop) : Bool := (us.getLast?.map (·.isbranch)).getD false

/-- `decodeCurrentX86Instruction` for the instruction at `fetchRip`. -/
def fetch (uops : List DecodedUop) (size pred : Waddr) (s : FetchWindow) : Option FetchWindow :=
  (x86Op s.fetchRip pred true uops).map fun us =>
    { s with
      window := s.window ++ us
      fetchRip := if endsInBranch us then pred else s.fetchRip + size }

def rename (s : FetchWindow) : Option FetchWindow :=
  if s.qRename < s.window.length then some { s with qRename := s.qRename + 1 } else none

/-- The uop at `q` if it is renamed and has not completed. -/
def pending (q : Nat) (s : FetchWindow) : Option WindowUop :=
  if q < s.qRename then s.window[q]?.bind fun u => if u.complete then none else some u else none

def resolveBranch (q : Nat) (actualTarget : Waddr) (s : FetchWindow) : Option FetchWindow :=
  (s.pending q).bind fun u =>
    if !u.isbranch then none
    else
      let u := u.resolve actualTarget
      let s := { s with window := s.window.set q u }
      if q + 1 < s.window.length then
        if u.mispredicted then some { flushPipeline (q + 1) s with fetchRip := actualTarget } else some s
      else some { s with fetchRip := actualTarget }

def checkException (q : Nat) (s : FetchWindow) : Option FetchWindow :=
  (lastOfX86Op s.window q).bind fun last =>
    if last ≤ q then none
    else
      s.window[last]?.bind fun dynLast =>
        let s := flushPipeline (q + 1) { s with fetchRip := dynLast.ripseq }
        some { s with window := s.window.modify q fun u =>
          { u with endsX86Op := true, checkException := true } }

/-- The completion of any uop but a branch. -/
def complete (q : Nat) (excepting : Bool) (s : FetchWindow) : Option FetchWindow :=
  (s.pending q).bind fun u =>
    if u.isbranch then none
    else
      let handled :=
        if u.ischeck && excepting then
          if u.endsX86Op then
            some { s with window := s.window.modify q fun u => { u with checkException := true } }
          else s.checkException q
        else some s
      handled.map fun s =>
        { s with window := s.window.modify q fun u => { u with complete := true } }

/-- The x86 op of `q` leaves the window and is fetched again. -/
def refetch (q : Nat) (s : FetchWindow) : Option FetchWindow :=
  (firstOfX86Op s.window q).bind fun first =>
    s.window[first]?.map fun dynFirst => flushPipeline first { s with fetchRip := dynFirst.rip }

def alignmentException (q : Nat) (s : FetchWindow) : Option FetchWindow :=
  (s.pending q).bind fun _ => s.refetch q

def commit (s : FetchWindow) : FetchWindow :=
  { s with
    window := s.window.drop (s.qRetire + 1)
    qRename := s.qRename - (s.qRetire + 1)
    qRetire := 0 }

/-- The check of an excepting uop, then the commit of a whole x86 op. -/
def retireChecked (u : WindowUop) (s : FetchWindow) : Option FetchWindow :=
  if u.ischeck && !u.checkException && u.endsX86Op then s.refetch s.qRetire
  else if u.endsX86Op then some s.commit
  else some { s with qRetire := s.qRetire + 1 }

def retire (violation : Violation) (s : FetchWindow) : Option FetchWindow :=
  if s.qRetire < s.qRename then
    s.window[s.qRetire]?.bind fun u =>
      if !u.complete || (violation ≠ .none && !u.isload) then none
      else
        match violation with
        | .loadOrdering => some (replay s.qRetire s)
        | .loadConsistency => retireChecked u (replay (s.qRetire + 1) s)
        | .none => retireChecked u s
  else none

def step (s : FetchWindow) : Event → Option FetchWindow
  | .fetch uops size pred => s.fetch uops size pred
  | .rename => s.rename
  | .complete q excepting => s.complete q excepting
  | .resolveBranch q actualTarget => s.resolveBranch q actualTarget
  | .alignmentException q => s.alignmentException q
  | .retire violation => s.retire violation
  | .reset rip => some { fetchRip := rip }

end FetchWindow
end FeS2.Pyrite
