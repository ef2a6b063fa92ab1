import FeS2.Pyrite.FetchWindow

/-!
The direct branch predictor, and the conditional branches of the window with
what it has recorded for each. The decoder and the values that the branches
compute come with the events. A replay leaves the predictor as it is; the
branches it runs again resolve again.
-/

namespace FeS2.Pyrite

/-- Entries in the order of their keys. -/
structure SquashableMap (α : Type) where
  entries : List (Nat × α) := []
  sorted : entries.Pairwise fun a b => a.1 < b.1 := by exact List.Pairwise.nil

namespace SquashableMap
variable {α : Type}

def find? (q : Nat) (m : SquashableMap α) : Option α :=
  (m.entries.find? fun e => e.1 = q).map (·.2)

def insert (q : Nat) (a : α) (m : SquashableMap α) : SquashableMap α where
  entries := m.entries.filter (fun e => e.1 < q) ++
    (q, a) :: m.entries.filter fun e => q < e.1
  sorted := by
    have hold : ∀ e ∈ m.entries.filter fun e => e.1 < q, e.1 < q := fun e he => by
      simpa using (List.mem_filter.mp he).2
    have hnew : ∀ e ∈ m.entries.filter fun e => q < e.1, q < e.1 := fun e he => by
      simpa using (List.mem_filter.mp he).2
    refine List.pairwise_append.mpr ⟨m.sorted.filter _, List.pairwise_cons.mpr
      ⟨hnew, m.sorted.filter _⟩, fun e he x hx => ?_⟩
    rcases List.mem_cons.mp hx with rfl | hx
    · exact hold e he
    · exact (hold e he).trans (hnew x hx)

def squash (firstBad : Nat) (m : SquashableMap α) : SquashableMap α where
  entries := m.entries.filter fun e => e.1 < firstBad
  sorted := m.sorted.filter _

/-- Nothing older may still be in the map. -/
def commit (q : Nat) (m : SquashableMap α) : Option (SquashableMap α) :=
  if m.entries.all fun e => q ≤ e.1 then
    some { entries := m.entries.filter fun e => e.1 ≠ q, sorted := m.sorted.filter _ }
  else none

variable {m : SquashableMap α}

theorem entries_insert (q : Nat) (a : α) (m : SquashableMap α) :
    (m.insert q a).entries = m.entries.filter (fun e => e.1 < q) ++
      (q, a) :: m.entries.filter fun e => q < e.1 := rfl

theorem find?_split {before after : List (Nat × α)} {q : Nat} {a : α}
    (h : m.entries = before ++ (q, a) :: after) : m.find? q = some a := by
  have hs := m.sorted
  rw [h, List.pairwise_append] at hs
  have hbefore : before.find? (fun e => e.1 = q) = none := by
    rw [List.find?_eq_none]
    intro e he
    have hlt := hs.2.2 e he (q, a) List.mem_cons_self
    simpa using hlt.ne
  rw [find?, h, List.find?_append, hbefore, Option.none_or, List.find?_cons_of_pos (by simp)]
  rfl

theorem insert_split {before after : List (Nat × α)} {q : Nat} {a : α}
    (h : m.entries = before ++ (q, a) :: after) (a' : α) :
    (m.insert q a').entries = before ++ (q, a') :: after := by
  have hs := m.sorted
  rw [h, List.pairwise_append, List.pairwise_cons] at hs
  obtain ⟨-, ⟨hafter, -⟩, hbefore⟩ := hs
  have hlt : ∀ e ∈ before, e.1 < q := fun e he => hbefore e he (q, a) List.mem_cons_self
  have hgt : ∀ e ∈ after, q < e.1 := fun e he => hafter e he
  have h1 : m.entries.filter (fun e => e.1 < q) = before := by
    rw [h, List.filter_append, List.filter_eq_self.mpr fun e he => by simpa using hlt e he,
      List.filter_eq_nil_iff.mpr, List.append_nil]
    intro e he
    rcases List.mem_cons.mp he with rfl | he
    · simp
    · simpa using (hgt e he).le
  have h2 : m.entries.filter (fun e => q < e.1) = after := by
    rw [h, List.filter_append, List.filter_eq_nil_iff.mpr fun e he => by simpa using (hlt e he).le,
      List.nil_append, List.filter_cons_of_neg (by simp),
      List.filter_eq_self.mpr fun e he => by simpa using hgt e he]
  rw [entries_insert, h1, h2]

theorem insert_last {q : Nat} (h : ∀ e ∈ m.entries, e.1 < q) (a : α) :
    (m.insert q a).entries = m.entries ++ [(q, a)] := by
  rw [entries_insert, List.filter_eq_self.mpr fun e he => by simpa using h e he,
    List.filter_eq_nil_iff.mpr fun e he => by simpa using (h e he).le]

end SquashableMap

structure GshareParams where
  historyLength : Nat
  numBits : Nat
  history_pos : 0 < historyLength
  history_lt : historyLength < 31
  numBits_lt : numBits < 31

/-- The direct predictor of `PredictorSet`. -/
def directPredictor : GshareParams :=
  { historyLength := 8, numBits := 12
    history_pos := by decide, history_lt := by decide, numBits_lt := by decide }

namespace GshareParams

def tableSize (p : GshareParams) : Nat := 1 <<< p.numBits

def historyMask (p : GshareParams) : BitVec 32 := (1 : BitVec 32) <<< p.historyLength - 1

/-- A history with one more outcome. -/
def push (p : GshareParams) (history : BitVec 32) (taken : Bool) : BitVec 32 :=
  p.historyMask &&& ((history <<< 1) + if taken then 1 else 0)

def hash (p : GshareParams) (history : BitVec 32) (rip : Waddr) : Nat :=
  let topHistory : BitVec 32 :=
    if p.numBits = p.historyLength then 0
    else if p.numBits > p.historyLength then history <<< (p.numBits - p.historyLength)
    else history >>> (p.historyLength - p.numBits)
  let mixed := (rip <<< 8) ^^^ (rip >>> 3) ^^^ history.setWidth 64 ^^^ topHistory.setWidth 64
  (mixed.setWidth 32 &&& BitVec.ofNat 32 (p.tableSize - 1)).toNat

end GshareParams

structure GshareRecord where
  index : Nat
  history : BitVec 32

structure GsharePredictor (p : GshareParams) where
  history : BitVec 32 := 0
  committedHistory : BitVec 32 := 0
  inflights : SquashableMap GshareRecord := {}
  table : List Nat := List.replicate p.tableSize 1

namespace GsharePredictor
variable {p : GshareParams}

def predict (rip : Waddr) (qPtr : Nat) (g : GsharePredictor p) : Bool × GsharePredictor p :=
  let hashedRip := p.hash g.history rip
  let pred : Bool := g.table.getD hashedRip 0 ≥ 2
  let history := p.push g.history pred
  (pred, { g with
    history := history
    inflights := g.inflights.insert qPtr { index := hashedRip, history := history } })

def resolve (qPtr : Nat) (taken : Bool) (g : GsharePredictor p) : Option (GsharePredictor p) :=
  (g.inflights.find? qPtr).map fun record =>
    let history := (record.history &&& ~~~1) + if taken then 1 else 0
    { g with inflights := g.inflights.insert qPtr { record with history := history } }

def squash (firstBad : Nat) (g : GsharePredictor p) : GsharePredictor p :=
  let inflights := g.inflights.squash firstBad
  { g with
    inflights := inflights
    history := (inflights.entries.getLast?.map (·.2.history)).getD g.committedHistory }

def update (taken : Bool) (counter : Nat) : Nat :=
  (if taken then [1, 2, 3, 3] else [0, 0, 1, 2]).getD counter 0

def commit (qPtr : Nat) (g : GsharePredictor p) : Option (GsharePredictor p) :=
  (g.inflights.find? qPtr).bind fun record =>
    let counter := g.table.getD record.index 0
    if counter < 4 then
      (g.inflights.commit qPtr).map fun inflights =>
        { g with
          table := g.table.set record.index (update (record.history.getLsbD 0) counter)
          committedHistory := record.history
          inflights := inflights }
    else none

end GsharePredictor

/-- A conditional branch of the window. `resolved` is what its latest resolution told the
predictor. The code does not keep it. -/
structure CondBranch where
  qPtr : Nat
  riptaken : Waddr
  ripseq : Waddr
  predicted : Bool
  resolved : Option Bool := none

namespace CondBranch

def predTarget (b : CondBranch) : Waddr := if b.predicted then b.riptaken else b.ripseq

def outcome (b : CondBranch) : Bool := b.resolved.getD b.predicted

end CondBranch

/-- What the decoder says of the conditional branch that ends an x86 op. -/
structure DecodedBranch where
  rip : Waddr
  riptaken : Waddr
  ripseq : Waddr

/-- `committed` is the outcome of every branch that has retired. The code does not keep it. -/
structure BranchWindow (p : GshareParams) where
  direct : GsharePredictor p := {}
  branches : List CondBranch := []
  qHead : Nat := 0
  qTail : Nat := 0
  committed : List Bool := []

namespace BranchWindow
variable {p : GshareParams}

/-- A flush from an alignment or a check exception, or from a branch of another kind, comes
with its position. -/
inductive Event
  | fetch (numUops : Nat) (branch : Option DecodedBranch)
  | resolveBranch (q : Nat) (actualTarget : Waddr)
  | flushPipeline (qFirstBad : Nat)
  | retireBranch (q : Nat)
  | commitX86Op (q : Nat)
  | reset

def fetch (numUops : Nat) (s : BranchWindow p) : Option DecodedBranch → BranchWindow p
  | none => { s with qHead := s.qHead + numUops }
  | some d =>
      let q := s.qHead + numUops - 1
      let r := s.direct.predict d.rip q
      { s with
        direct := r.2
        branches := s.branches ++
          [{ qPtr := q, riptaken := d.riptaken, ripseq := d.ripseq, predicted := r.1 }]
        qHead := s.qHead + numUops }

def flushPipeline (qFirstBad : Nat) (s : BranchWindow p) : BranchWindow p :=
  { s with
    direct := s.direct.squash qFirstBad
    branches := s.branches.filter fun b => b.qPtr < qFirstBad
    qHead := qFirstBad }

def resolveBranch (q : Nat) (actualTarget : Waddr) (s : BranchWindow p) :
    Option (BranchWindow p) :=
  (s.branches.find? fun b => b.qPtr = q).bind fun b =>
    let taken : Bool := actualTarget ≠ b.ripseq
    (s.direct.resolve q taken).map fun direct =>
      let s := { s with
        direct := direct
        branches := s.branches.map fun b =>
          if b.qPtr = q then { b with resolved := some taken } else b }
      if q + 1 < s.qHead ∧ actualTarget ≠ b.predTarget then s.flushPipeline (q + 1) else s

/-- A branch tells the predictor that it retires before its x86 op commits. -/
def retireBranch (q : Nat) (s : BranchWindow p) : Option (BranchWindow p) :=
  (s.branches.find? fun b => b.qPtr = q).bind fun b =>
    (s.direct.commit q).map fun direct =>
      { s with
        direct := direct
        branches := s.branches.filter fun b => b.qPtr ≠ q
        committed := s.committed ++ [b.outcome] }

def commitX86Op (q : Nat) (s : BranchWindow p) : Option (BranchWindow p) :=
  if s.qTail ≤ q ∧ q < s.qHead ∧ s.branches.all (fun b => q < b.qPtr) then
    some { s with qTail := q + 1 }
  else none

/-- `resetUopBuf` and `resetPyriteState`. -/
def reset (s : BranchWindow p) : BranchWindow p :=
  { s with direct := s.direct.squash s.qTail, branches := [], qHead := s.qTail }

def step (s : BranchWindow p) : Event → Option (BranchWindow p)
  | .fetch numUops branch => if numUops = 0 then none else some (s.fetch numUops branch)
  | .resolveBranch q actualTarget => s.resolveBranch q actualTarget
  | .flushPipeline qFirstBad =>
      if s.qTail ≤ qFirstBad ∧ qFirstBad ≤ s.qHead then some (s.flushPipeline qFirstBad) else none
  | .retireBranch q => s.retireBranch q
  | .commitX86Op q => s.commitX86Op q
  | .reset => some s.reset

end BranchWindow
end FeS2.Pyrite
