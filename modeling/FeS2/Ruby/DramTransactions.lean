import FeS2.Ruby.DirectoryMemory

/-!
What the directory memory promises about its DRAM transactions: a request
message comes back once and only after DRAM has done its transaction, and the
transactions of one block reach DRAM in the order of their issue. The first
promise is kept only by runs that make no request, since `dram_operation`
completes its own request; the second exactly when DRAM never takes a new
transaction directly while an older one of the block waits.
-/

namespace FeS2.Ruby.DirectoryMemory
open EventSystem
variable {μ α : Type} [DecidableEq α] {getAddress : μ → α} {kind : μ → TransactionType}

/-- The accounting of one state: no message is put on the fromDram queue more
often than it was passed to `read` or `write`, none is missing once DRAM and
the waiting queue are empty, and for every address and kind no more messages
have left than transactions have been completed. -/
structure Accounted (getAddress : μ → α) (kind : μ → TransactionType)
    (m : DirectoryMemory μ α) : Prop where
  once : m.fromDram.Subperm m.called
  all : m.transQueue = [] → m.inDram = [] → m.fromDram.Perm m.called
  afterCompletion : ∀ addr ttype,
    m.fromDram.countP (fun msg => getAddress msg = addr ∧ kind msg = ttype) ≤
      m.completed.countP (fun tr => tr.address = addr ∧ tr.transactionType = ttype)

def Event.IsRequest : Event μ α → Prop
  | .request _ _ _ => True
  | _ => False

/-- DRAM has never been asked for anything. -/
structure Untouched (m : DirectoryMemory μ α) : Prop where
  called : m.called = []
  pendingTrans : m.pendingTrans = []
  fromDram : m.fromDram = []
  inDram : m.inDram = []
  completed : m.completed = []

theorem Untouched.accounted {m : DirectoryMemory μ α} (h : Untouched m) :
    Accounted getAddress kind m where
  once := by simp [h.fromDram]
  all _ _ := by simp [h.fromDram, h.called]
  afterCompletion _ _ := by simp [h.fromDram]

theorem Untouched.step {m m' : DirectoryMemory μ α} {e : Event μ α} (h : Untouched m)
    (hC : ¬ e.IsRequest) (he : step getAddress kind m e = some m') : Untouched m' := by
  cases e with
  | request msg direct retry => exact absurd trivial hC
  | complete tr retry =>
      obtain ⟨hmem, _⟩ := step_complete he
      rw [h.inDram] at hmem
      cases hmem
  | wakeup =>
      obtain rfl := Option.some.inj he
      unfold wakeUp
      split <;> exact ⟨h.called, h.pendingTrans, h.fromDram, h.inDram, h.completed⟩

/-- The first request already leaves before DRAM has completed anything. -/
theorem Untouched.request_not_accounted {m : DirectoryMemory μ α} (h : Untouched m)
    (msg : μ) (direct retry : Bool) : ∃ m',
      DirectoryMemory.step getAddress kind m (.request msg direct retry) = some m' ∧
        ¬ Accounted getAddress kind m' := by
  refine ⟨_, step_request m msg direct retry, ?_⟩
  intro hacc
  have hcount := hacc.afterCompletion (getAddress msg) (kind msg)
  rw [dramOperation_of_no_pending h.pendingTrans] at hcount
  simp [h.fromDram, h.completed, afterIssue] at hcount

/-- The directory memory accounts for its requests throughout a run if and only
if the run makes none. -/
theorem accounted_throughout_iff_no_request {es : List (Event μ α)}
    {m : DirectoryMemory μ α} (h : run (step getAddress kind) init es = some m) :
    Throughout (step getAddress kind) (Accounted getAddress kind) init es ↔
      ∀ msg direct retry, .request msg direct retry ∉ es := by
  have hiff : Throughout (step getAddress kind) (Accounted getAddress kind) init es ↔
      Along (step getAddress kind) (fun _ e => ¬ e.IsRequest) init es := by
    apply throughout_iff_along (I := Untouched)
    · exact fun _ hm => hm.accounted
    · exact fun _ _ _ hm hC he => hm.step hC he
    · intro m e hm hC
      cases e with
      | request msg direct retry => exact hm.request_not_accounted msg direct retry
      | complete _ _ => exact absurd id hC
      | wakeup => exact absurd id hC
    · exact ⟨rfl, rfl, rfl, rfl, rfl⟩
  rw [hiff, along_event_iff (C := fun e => ¬ e.IsRequest) h]
  constructor
  · exact fun hall msg direct retry hmem => hall _ hmem trivial
  · intro hnone e hmem
    cases e with
    | request msg direct retry => exact absurd hmem (hnone msg direct retry)
    | complete _ _ => exact id
    | wakeup => exact id

/-- One read of block 64, accepted by DRAM: its message is on the fromDram queue
although DRAM has completed nothing. -/
theorem read_leaves_before_completion :
    ¬ (∀ (es : List (Event (TransactionType × Nat) Nat)) m,
      run (step Prod.snd Prod.fst) init es = some m → Accounted Prod.snd Prod.fst m) := by
  intro hall
  have h := hall [.request (.DATA_READ, 64) true false] _ rfl
  exact absurd (h.afterCompletion 64 .DATA_READ) (by decide)

/-- A run of one wakeup makes no request and is accounted for. -/
theorem accounted_throughout_wakeup :
    run (step Prod.snd Prod.fst) init [.wakeup] =
        some (init : DirectoryMemory (TransactionType × Nat) Nat) ∧
      Throughout (step Prod.snd Prod.fst) (Accounted Prod.snd Prod.fst)
        (init : DirectoryMemory (TransactionType × Nat) Nat) [.wakeup] :=
  ⟨rfl, (accounted_throughout_iff_no_request rfl).mpr (by simp)⟩

/-! The order of issue -/

/-- The transactions of every block have been handed to DRAM in the order in
which the directory issued them, none of them left out in between. -/
def OrderKept (m : DirectoryMemory μ α) : Prop :=
  ∀ addr, (m.handed.filter fun tr => tr.address = addr) <+:
    (m.issued.filter fun tr => tr.address = addr)

/-- A request that DRAM accepts directly finds no transaction of its block in
the waiting queue. -/
def DirectOnlyWhenNoneWaits (getAddress : μ → α) (m : DirectoryMemory μ α) :
    Event μ α → Prop
  | .request msg true _ => ∀ tr ∈ m.transQueue, tr.address ≠ getAddress msg
  | _ => True

structure Ordered (m : DirectoryMemory μ α) : Prop where
  pendingTrans : m.pendingTrans = []
  split : ∀ addr, (m.issued.filter fun tr => tr.address = addr) =
    (m.handed.filter fun tr => tr.address = addr) ++
      (m.transQueue.filter fun tr => tr.address = addr)
  number_lt : ∀ tr ∈ m.issued, tr.number < m.issued.length

theorem Ordered.orderKept {m : DirectoryMemory μ α} (h : Ordered m) : OrderKept m := by
  intro addr
  rw [h.split addr]
  exact List.prefix_append _ _

/-- Retrying the oldest waiting transaction keeps every block in order. -/
theorem split_retryFront {m : DirectoryMemory μ α} (retry : Bool) (addr : α)
    (h : (m.issued.filter fun tr => tr.address = addr) =
      (m.handed.filter fun tr => tr.address = addr) ++
        (m.transQueue.filter fun tr => tr.address = addr)) :
    (m.issued.filter fun tr => tr.address = addr) =
      ((retryFront retry m).handed.filter fun tr => tr.address = addr) ++
        ((retryFront retry m).transQueue.filter fun tr => tr.address = addr) := by
  obtain ⟨sent, hh, hq⟩ := retryFront_queue retry m
  rw [h, hh, hq]
  simp only [List.filter_append, List.append_assoc]

theorem Ordered.retryFront {m : DirectoryMemory μ α} (h : Ordered m) (retry : Bool) :
    Ordered (retryFront retry m) where
  pendingTrans := by simpa using h.pendingTrans
  split addr := by simpa using split_retryFront retry addr (h.split addr)
  number_lt := by simpa using h.number_lt

theorem Ordered.issue {m : DirectoryMemory μ α} (h : Ordered m) {msg : μ} {direct retry : Bool}
    (hC : DirectOnlyWhenNoneWaits getAddress m (.request msg direct retry))
    (ttype : TransactionType) (addr : α) :
    ((afterIssue direct msg (getAddress msg) ttype m).issued.filter
        fun tr => tr.address = addr) =
      ((afterIssue direct msg (getAddress msg) ttype m).handed.filter
          fun tr => tr.address = addr) ++
        ((afterIssue direct msg (getAddress msg) ttype m).transQueue.filter
          fun tr => tr.address = addr) := by
  cases direct with
  | false => simp [afterIssue, List.filter_append, h.split addr]
  | true =>
      by_cases ha : getAddress msg = addr
      · have hnone : (m.transQueue.filter fun tr => tr.address = addr) = [] := by
          rw [List.filter_eq_nil_iff]
          intro tr hmem
          simpa using ha ▸ hC tr hmem
        simp [afterIssue, List.filter_append, h.split addr, hnone]
      · simp [afterIssue, List.filter_append, h.split addr, ha]

theorem Ordered.step {m m' : DirectoryMemory μ α} {e : Event μ α} (h : Ordered m)
    (hC : DirectOnlyWhenNoneWaits getAddress m e)
    (he : step getAddress kind m e = some m') : Ordered m' := by
  cases e with
  | request msg direct retry =>
      rw [step_request, dramOperation_of_no_pending h.pendingTrans] at he
      obtain rfl := Option.some.inj he
      refine ⟨rfl, fun addr => ?_, ?_⟩
      · simpa using split_retryFront retry addr (h.issue hC (kind msg) addr)
      · intro tr hmem
        simp only [retryFront_issued, afterIssue, List.mem_append, List.mem_singleton,
          List.length_append, List.length_singleton] at hmem ⊢
        rcases hmem with hmem | rfl
        · exact Nat.lt_succ_of_lt (h.number_lt tr hmem)
        · exact Nat.lt_succ_self _
  | complete tr retry =>
      obtain ⟨_, w, rfl⟩ := step_complete he
      rw [dramComplete_of_no_pending (by exact h.pendingTrans)]
      refine Ordered.retryFront ?_ retry
      exact ⟨h.pendingTrans, h.split, h.number_lt⟩
  | wakeup =>
      obtain rfl := Option.some.inj he
      unfold wakeUp
      split <;> exact ⟨h.pendingTrans, h.split, h.number_lt⟩

/-- A direct acceptance past a waiting transaction of the block is out of order:
the next transaction due for the block is the waiting one. -/
theorem Ordered.overtake {m : DirectoryMemory μ α} (h : Ordered m) {msg : μ} (retry : Bool)
    {waiting : Transaction α} (hmem : waiting ∈ m.transQueue)
    (haddr : waiting.address = getAddress msg) : ∃ m',
      DirectoryMemory.step getAddress kind m (.request msg true retry) = some m' ∧
        ¬ OrderKept m' := by
  refine ⟨_, step_request m msg true retry, ?_⟩
  rw [dramOperation_of_no_pending h.pendingTrans]
  intro hkept
  have hpre := hkept (getAddress msg)
  obtain ⟨sent, hh, _⟩ := retryFront_queue retry (afterIssue true msg (getAddress msg) (kind msg) m)
  simp only [retryFront_issued, hh] at hpre
  simp only [afterIssue, if_true, List.filter_append, h.split (getAddress msg),
    List.append_assoc, List.prefix_append_right_inj] at hpre
  -- the head of the waiting transactions of the block would have to be the new one
  obtain ⟨first, rest, hwait⟩ : ∃ first rest,
      (m.transQueue.filter fun tr => tr.address = getAddress msg) = first :: rest := by
    apply List.exists_cons_of_ne_nil
    exact List.ne_nil_of_mem (List.mem_filter.mpr ⟨hmem, by simpa using haddr⟩)
  have hfirst : first ∈ m.issued := by
    have : first ∈ m.issued.filter fun tr => tr.address = getAddress msg := by
      rw [h.split, hwait]
      simp
    exact (List.mem_filter.mp this).1
  have hnumber := h.number_lt first hfirst
  rw [hwait] at hpre
  simp only [decide_true, List.filter_cons_of_pos, List.filter_nil, List.cons_append,
    List.nil_append, List.cons_prefix_cons] at hpre
  rw [← hpre.1] at hnumber
  exact absurd hnumber (Nat.lt_irrefl _)

/-- The transactions of each block reach DRAM in issue order throughout a run if
and only if no request of the run is accepted directly past a waiting one. -/
theorem orderKept_throughout_iff (es : List (Event μ α)) :
    Throughout (step getAddress kind) OrderKept init es ↔
      Along (step getAddress kind) (DirectOnlyWhenNoneWaits getAddress) init es := by
  apply throughout_iff_along (I := Ordered)
  · exact fun _ hm => hm.orderKept
  · exact fun _ _ _ hm hC he => hm.step hC he
  · intro m e hm hC
    cases e with
    | request msg direct retry =>
        cases direct with
        | false => exact absurd trivial hC
        | true =>
            obtain ⟨tr, hmem, haddr⟩ : ∃ tr ∈ m.transQueue, tr.address = getAddress msg := by
              by_contra hno
              exact hC fun tr hmem haddr => hno ⟨tr, hmem, haddr⟩
            exact hm.overtake retry hmem haddr
    | complete _ _ => exact absurd trivial hC
    | wakeup => exact absurd trivial hC
  · exact ⟨rfl, fun _ => rfl, by simp [init]⟩

/-- DRAM refuses a read of block 64 twice, then has room again when the write of
the block is issued: the write goes first. -/
theorem write_overtakes_waiting_read :
    ¬ (∀ (es : List (Event (TransactionType × Nat) Nat)) m,
      run (step Prod.snd Prod.fst) init es = some m → OrderKept m) := by
  intro hall
  have h := hall [.request (.DATA_READ, 64) false false, .request (.DATA_WRITE, 64) true false]
    _ rfl
  exact absurd (h 64) (by decide)

end FeS2.Ruby.DirectoryMemory
