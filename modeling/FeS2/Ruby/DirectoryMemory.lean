import Mathlib.Data.List.Perm.Subperm
import FeS2.Library.EventSystem

/-!
The DRAM side of the directory memory: requests of the directory become DRAM
transactions, refused transactions wait in `transQueue`, and a completion is
matched to a pending request by address alone. DRAM itself is the environment:
whether it accepts a transaction, and which accepted transaction it completes
next, are part of the event. `called`, `issued`, `handed` and `completed` are
histories that the code does not keep and never reads.
-/

namespace FeS2.Ruby

inductive TransactionType
  | DATA_READ
  | DATA_WRITE
  deriving DecidableEq, Repr

/-- `number` counts the calls of `dramOperation`; it only names the transaction
for the statements below. -/
structure Transaction (α : Type) where
  transactionType : TransactionType
  address : α
  number : Nat
  deriving DecidableEq, Repr

structure DirectoryMemory (μ α : Type) where
  pendingTrans : List μ := []
  transQueue : List (Transaction α) := []
  wakeup : Bool := false
  /-- Messages put on the fromDram queue of the directory, oldest first. -/
  fromDram : List μ := []
  /-- Transactions DRAM has accepted and not yet completed. -/
  inDram : List (Transaction α) := []
  called : List μ := []
  issued : List (Transaction α) := []
  handed : List (Transaction α) := []
  completed : List (Transaction α) := []

namespace DirectoryMemory
variable {μ α : Type}

def addTransaction (accept : Bool) (tr : Transaction α) (m : DirectoryMemory μ α) :
    Bool × DirectoryMemory μ α :=
  if accept then
    (true, { m with inDram := m.inDram ++ [tr], handed := m.handed ++ [tr] })
  else (false, m)

/-- The retry of the oldest waiting transaction inside `dram_complete`. -/
def retryFront (accept : Bool) (m : DirectoryMemory μ α) : DirectoryMemory μ α :=
  match m.transQueue with
  | [] => m
  | tr :: rest =>
      let r := addTransaction accept tr m
      if r.1 then { r.2 with transQueue := rest } else r.2

/-! What the retry can change, and what it leaves alone. -/

@[simp] theorem retryFront_pendingTrans (b : Bool) (m : DirectoryMemory μ α) :
    (retryFront b m).pendingTrans = m.pendingTrans := by
  unfold retryFront; split <;> cases b <;> rfl

@[simp] theorem retryFront_fromDram (b : Bool) (m : DirectoryMemory μ α) :
    (retryFront b m).fromDram = m.fromDram := by
  unfold retryFront; split <;> cases b <;> rfl

@[simp] theorem retryFront_called (b : Bool) (m : DirectoryMemory μ α) :
    (retryFront b m).called = m.called := by
  unfold retryFront; split <;> cases b <;> rfl

@[simp] theorem retryFront_issued (b : Bool) (m : DirectoryMemory μ α) :
    (retryFront b m).issued = m.issued := by
  unfold retryFront; split <;> cases b <;> rfl

@[simp] theorem retryFront_completed (b : Bool) (m : DirectoryMemory μ α) :
    (retryFront b m).completed = m.completed := by
  unfold retryFront; split <;> cases b <;> rfl

theorem retryFront_queue (b : Bool) (m : DirectoryMemory μ α) :
    ∃ sent, (retryFront b m).handed = m.handed ++ sent ∧
      m.transQueue = sent ++ (retryFront b m).transQueue := by
  unfold retryFront
  split
  · rename_i hq
    exact ⟨[], by simp, by simp⟩
  · rename_i tr rest hq
    cases b
    · exact ⟨[], by simp [addTransaction], by simp [addTransaction]⟩
    · exact ⟨[tr], by simp [addTransaction], by simp [addTransaction, hq]⟩

variable [DecidableEq α] (getAddress : μ → α)

/-- The flag `write` is not looked at, as in the source. -/
def dramComplete (retry : Bool) (addr : α) (_write : Bool) (m : DirectoryMemory μ α) :
    DirectoryMemory μ α :=
  let it := m.pendingTrans.find? fun msg => getAddress msg = addr
  let m := retryFront retry m
  match it with
  | none => m
  | some msg =>
      { m with
        pendingTrans := m.pendingTrans.eraseP fun msg => getAddress msg = addr
        fromDram := m.fromDram ++ [msg] }

def dramOperation (direct retry : Bool) (msg : μ) (ttype : TransactionType)
    (m : DirectoryMemory μ α) : DirectoryMemory μ α :=
  let m := if m.wakeup = false then { m with wakeup := true } else m
  let addr := getAddress msg
  let tr : Transaction α := ⟨ttype, addr, m.issued.length⟩
  let m := { m with called := m.called ++ [msg], issued := m.issued ++ [tr] }
  let r := addTransaction direct tr m
  let m := if r.1 then r.2 else { r.2 with transQueue := r.2.transQueue ++ [tr] }
  let m := { m with pendingTrans := m.pendingTrans ++ [msg] }
  dramComplete getAddress retry addr (ttype = .DATA_WRITE) m

def read (direct retry : Bool) (msg : μ) (m : DirectoryMemory μ α) : DirectoryMemory μ α :=
  dramOperation getAddress direct retry msg .DATA_READ m

def write (direct retry : Bool) (msg : μ) (m : DirectoryMemory μ α) : DirectoryMemory μ α :=
  dramOperation getAddress direct retry msg .DATA_WRITE m

def readComplete (retry : Bool) (addr : α) (m : DirectoryMemory μ α) : DirectoryMemory μ α :=
  dramComplete getAddress retry addr false m

def writeComplete (retry : Bool) (addr : α) (m : DirectoryMemory μ α) : DirectoryMemory μ α :=
  dramComplete getAddress retry addr true m

/-- The scheduled wakeup. What `update` makes DRAM do are events of their own. -/
def wakeUp (m : DirectoryMemory μ α) : DirectoryMemory μ α :=
  if m.pendingTrans.isEmpty && m.transQueue.isEmpty then { m with wakeup := false } else m

/-- `direct` is the answer of DRAM to the new transaction, `retry` its answer to
the oldest waiting one. -/
inductive Event (μ α : Type)
  | request (msg : μ) (direct retry : Bool)
  | complete (tr : Transaction α) (retry : Bool)
  | wakeup
  deriving DecidableEq

/-- `kind` tells which of `read` and `write` the directory calls for a message.
DRAM completes only what it has accepted, once, with the callback of its kind. -/
def step (kind : μ → TransactionType) (m : DirectoryMemory μ α) :
    Event μ α → Option (DirectoryMemory μ α)
  | .request msg direct retry =>
      match kind msg with
      | .DATA_READ => some (read getAddress direct retry msg m)
      | .DATA_WRITE => some (write getAddress direct retry msg m)
  | .complete tr retry =>
      if tr ∈ m.inDram then
        let m := { m with inDram := m.inDram.erase tr, completed := m.completed ++ [tr] }
        match tr.transactionType with
        | .DATA_READ => some (readComplete getAddress retry tr.address m)
        | .DATA_WRITE => some (writeComplete getAddress retry tr.address m)
      else none
  | .wakeup => some (wakeUp m)

def init : DirectoryMemory μ α := {}

variable {getAddress} {kind : μ → TransactionType}

theorem step_request (m : DirectoryMemory μ α) (msg : μ) (direct retry : Bool) :
    step getAddress kind m (.request msg direct retry) =
      some (dramOperation getAddress direct retry msg (kind msg) m) := by
  cases h : kind msg <;> simp [step, read, write, h]

theorem step_complete {m m' : DirectoryMemory μ α} {tr : Transaction α} {retry : Bool}
    (h : step getAddress kind m (.complete tr retry) = some m') :
    tr ∈ m.inDram ∧ ∃ write, m' = dramComplete getAddress retry tr.address write
      { m with inDram := m.inDram.erase tr, completed := m.completed ++ [tr] } := by
  simp only [step] at h
  split at h
  · rename_i hmem
    refine ⟨hmem, ?_⟩
    split at h
    · exact ⟨false, (Option.some.inj h).symm⟩
    · exact ⟨true, (Option.some.inj h).symm⟩
  · cases h

/-- With no request pending, a completion only retries the waiting queue. -/
theorem dramComplete_of_no_pending {m : DirectoryMemory μ α} (h : m.pendingTrans = [])
    (retry : Bool) (addr : α) (w : Bool) :
    dramComplete getAddress retry addr w m = retryFront retry m := by
  simp [dramComplete, h]

/-- The state in which `dram_operation` calls `dram_complete`. -/
def afterIssue (direct : Bool) (msg : μ) (addr : α) (ttype : TransactionType)
    (m : DirectoryMemory μ α) : DirectoryMemory μ α :=
  let tr : Transaction α := ⟨ttype, addr, m.issued.length⟩
  { m with
    wakeup := true
    called := m.called ++ [msg]
    issued := m.issued ++ [tr]
    inDram := if direct then m.inDram ++ [tr] else m.inDram
    handed := if direct then m.handed ++ [tr] else m.handed
    transQueue := if direct then m.transQueue else m.transQueue ++ [tr]
    pendingTrans := m.pendingTrans ++ [msg] }

theorem dramOperation_eq (direct retry : Bool) (msg : μ) (ttype : TransactionType)
    (m : DirectoryMemory μ α) :
    dramOperation getAddress direct retry msg ttype m =
      dramComplete getAddress retry (getAddress msg) (ttype = .DATA_WRITE)
        (afterIssue direct msg (getAddress msg) ttype m) := by
  obtain ⟨p, q, w, f, i, c, is, h, co⟩ := m
  cases w <;> cases direct <;> rfl

/-- The completion that `dram_operation` makes itself finds the message it has
just queued, so with nothing else pending the message leaves at once. -/
theorem dramOperation_of_no_pending {m : DirectoryMemory μ α} (h : m.pendingTrans = [])
    (direct retry : Bool) (msg : μ) (ttype : TransactionType) :
    dramOperation getAddress direct retry msg ttype m =
      { retryFront retry (afterIssue direct msg (getAddress msg) ttype m) with
        pendingTrans := []
        fromDram := m.fromDram ++ [msg] } := by
  rw [dramOperation_eq]
  have hp : (afterIssue direct msg (getAddress msg) ttype m).pendingTrans = [msg] := by
    simp [afterIssue, h]
  have hf : (afterIssue direct msg (getAddress msg) ttype m).fromDram = m.fromDram := rfl
  simp [dramComplete, hp, hf]

/-- Nothing is ever pending between two events, and the fromDram queue has
received every message passed to `read` or `write`, in the order of the calls. -/
theorem reachable_enqueued_at_once {m : DirectoryMemory μ α}
    (h : EventSystem.Reachable (step getAddress kind) init m) :
    m.pendingTrans = [] ∧ m.fromDram = m.called := by
  refine EventSystem.reachable_invariant
    (I := fun m => m.pendingTrans = [] ∧ m.fromDram = m.called) ⟨rfl, rfl⟩ ?_ h
  rintro m e m' ⟨hp, hf⟩ he
  cases e with
  | request msg direct retry =>
      rw [step_request, dramOperation_of_no_pending hp] at he
      obtain rfl := Option.some.inj he
      simp [afterIssue, hf]
  | complete tr retry =>
      obtain ⟨_, w, rfl⟩ := step_complete he
      rw [dramComplete_of_no_pending (by exact hp)]
      simp [hp, hf]
  | wakeup =>
      obtain rfl := Option.some.inj he
      unfold wakeUp
      split <;> exact ⟨hp, hf⟩

end DirectoryMemory
end FeS2.Ruby
