import Mathlib.Data.List.AList
import FeS2.Common.Address
import FeS2.Library.EventSystem
import FeS2.Ruby.Messages

/-!
The sequencer of a processor: requests that miss wait in one of two tables, by line, for the
callback of the cache controller. Whether a request hits is up to the caches, and when a callback
comes up to the controller. The lists of what was accepted and called back are histories that the
code does not keep; their tickets tell requests apart. A failing assertion is `none`.
-/

namespace FeS2.Ruby
open FeS2.Common EventSystem

/-- `Map`, the hash map of the source. -/
abbrev Map (κ ν : Type) := AList fun _ : κ => ν

namespace Map
variable {κ ν : Type}

def size (t : Map κ ν) : Nat := t.entries.length

def values (t : Map κ ν) : List ν := t.entries.map Sigma.snd

theorem length_values (t : Map κ ν) : (values t).length = size t := List.length_map _

variable [DecidableEq κ]

theorem mem_values {t : Map κ ν} {v : ν} : v ∈ values t ↔ ∃ k, t.lookup k = some v := by
  unfold values
  rw [List.mem_map]
  constructor
  · rintro ⟨⟨k, u⟩, hmem, rfl⟩
    exact ⟨k, AList.mem_lookup_iff.mpr hmem⟩
  · rintro ⟨k, hk⟩
    exact ⟨⟨k, v⟩, AList.mem_lookup_iff.mp hk, rfl⟩

theorem values_insert {t : Map κ ν} {k : κ} (v : ν) (h : k ∉ t) :
    values (t.insert k v) = v :: values t := by
  unfold values
  rw [AList.entries_insert_of_notMem h]
  rfl

theorem values_erase {t : Map κ ν} {k : κ} {v : ν} (h : t.lookup k = some v) :
    List.Perm (values t) (v :: values (t.erase k)) := by
  have hk : k ∈ t := AList.lookup_isSome.mp (by rw [h]; rfl)
  have ⟨u, l, r, hl, heq, herase⟩ := List.exists_of_kerase (AList.mem_keys.mp hk)
  have hv : u = v := by
    have hmem : ⟨k, u⟩ ∈ t.entries := by
      rw [heq]
      exact List.mem_append_right _ List.mem_cons_self
    have hu := AList.mem_lookup_iff.mpr hmem
    rw [h] at hu
    exact (Option.some.inj hu).symm
  unfold values
  change List.Perm _ (v :: (List.kerase k t.entries).map Sigma.snd)
  rw [herase, heq, hv, List.map_append, List.map_append]
  exact List.perm_middle

end Map

/-- `rest` is what only the driver and the controller read. -/
structure CacheMsg (ρ : Type) where
  Address : Address
  Type' : CacheRequestType
  Prefetch : Bool
  rest : ρ

/-- An accepted request. -/
structure Issued (ρ : Type) where
  ticket : Nat
  request : CacheMsg ρ

/-- Stores and atomics go to the write table. -/
def CacheRequestType.isWrite : CacheRequestType → Bool
  | .ST | .ATOMIC => true
  | .LD | .IFETCH => false

structure SequencerParams where
  SEQUENCER_OUTSTANDING_REQUESTS : Int
  INSTR_PREFETCH_NUM_LINES : Nat
  DATA_BLOCK_BITS : Nat

structure Sequencer (ρ : Type) where
  m_outstanding_count : Int
  m_writeRequestTable : Map Address (Issued ρ)
  m_readRequestTable : Map Address (Issued ρ)
  accepted : List (Issued ρ)
  /-- Calls of `hitCallback`. -/
  called : List (Issued ρ)
  /-- Calls of the driver's `hitCallback`. -/
  driver : List (Issued ρ)

namespace Issued
variable {ρ : Type}

def line (i : Issued ρ) : Address := i.request.Address.makeLineAddress

def isWrite (i : Issued ρ) : Bool := i.request.Type'.isWrite

end Issued

namespace Sequencer
variable {ρ : Type}

def init : Sequencer ρ where
  m_outstanding_count := 0
  m_writeRequestTable := ∅
  m_readRequestTable := ∅
  accepted := []
  called := []
  driver := []

def table (s : Sequencer ρ) (write : Bool) : Map Address (Issued ρ) :=
  if write then s.m_writeRequestTable else s.m_readRequestTable

def setTable (s : Sequencer ρ) (write : Bool) (t : Map Address (Issued ρ)) : Sequencer ρ :=
  if write then { s with m_writeRequestTable := t } else { s with m_readRequestTable := t }

/-- The assertion at both ends of `insertRequest` and `removeRequest`. -/
def CountAgrees (s : Sequencer ρ) : Prop :=
  s.m_outstanding_count =
    (Map.size s.m_writeRequestTable + Map.size s.m_readRequestTable : Nat)

instance (s : Sequencer ρ) : Decidable s.CountAgrees := inferInstanceAs (Decidable (_ = _))

/-- Whether the entry was already there, which is then replaced. -/
def insertRequest (i : Issued ρ) (s : Sequencer ρ) : Option (Bool × Sequencer ρ) :=
  if s.CountAgrees then
    let s' := s.setTable i.isWrite ((s.table i.isWrite).insert i.line i)
    if i.line ∈ s.table i.isWrite then some (true, s')
    else
      let s' := { s' with m_outstanding_count := s.m_outstanding_count + 1 }
      if s'.CountAgrees then some (false, s') else none
  else none

def removeRequest (i : Issued ρ) (s : Sequencer ρ) : Option (Sequencer ρ) :=
  if s.CountAgrees ∧ i.line ∈ s.table i.isWrite then
    let s' := s.setTable i.isWrite ((s.table i.isWrite).erase i.line)
    let s' := { s' with m_outstanding_count := s.m_outstanding_count - 1 }
    if s'.CountAgrees then some s' else none
  else none

/-- A prefetch goes no further. -/
def hitCallback (i : Issued ρ) (s : Sequencer ρ) : Sequencer ρ :=
  { s with
    called := s.called ++ [i]
    driver := if i.request.Prefetch then s.driver else s.driver ++ [i] }

/-- `writeCallback` and `readCallback`, which differ in the table and in the types they assert. -/
def callback (write : Bool) (address : Address) (s : Sequencer ρ) : Option (Sequencer ρ) :=
  if address.IsLine then
    ((s.table write).lookup address).bind fun i =>
      (s.removeRequest i).bind fun s =>
        if i.isWrite = write then some (s.hitCallback i) else none
  else none

def writeCallback (address : Address) (s : Sequencer ρ) : Option (Sequencer ρ) :=
  s.callback true address

def readCallback (address : Address) (s : Sequencer ρ) : Option (Sequencer ρ) :=
  s.callback false address

def isReady (p : SequencerParams) (request : CacheMsg ρ) (s : Sequencer ρ) : Bool :=
  s.m_outstanding_count < p.SEQUENCER_OUTSTANDING_REQUESTS &&
    request.Address.makeLineAddress ∉ s.table request.Type'.isWrite

/-- `hit` is the answer of the primary cache. -/
def doRequest (hit : Bool) (request : CacheMsg ρ) (s : Sequencer ρ) : Option (Sequencer ρ) :=
  let i : Issued ρ := { ticket := s.accepted.length, request := request }
  let s := { s with accepted := s.accepted ++ [i] }
  if hit then some (s.hitCallback i) else (s.insertRequest i).map Prod.snd

/-- The `i`-th line after that of a request, to be prefetched. -/
def prefetchRequest (p : SequencerParams) (request : CacheMsg ρ) (i : Nat) : CacheMsg ρ :=
  { request with
    Address :=
      { m_address := request.Address.makeLineAddress.m_address +
          BitVec.ofNat 64 ((i + 1) * 1 <<< p.DATA_BLOCK_BITS) }
    Prefetch := true }

/-- One round of the prefetch loop: a prefetch does not prefetch. -/
def prefetchNext (p : SequencerParams) (hits : Nat → Bool) (request : CacheMsg ρ)
    (s : Sequencer ρ) (i : Nat) : Option (Sequencer ρ) :=
  let new_request := prefetchRequest p request i
  if s.isReady p new_request then s.doRequest (hits i) new_request else some s

def makeRequest (p : SequencerParams) (hit : Bool) (hits : Nat → Bool) (request : CacheMsg ρ)
    (s : Sequencer ρ) : Option (Sequencer ρ) :=
  if s.isReady p request then
    (s.doRequest hit request).bind fun s =>
      if hit = false ∧ request.Prefetch = false ∧ request.Type' = .IFETCH then
        (List.range p.INSTR_PREFETCH_NUM_LINES).foldlM (prefetchNext p hits request) s
      else some s
  else none

inductive Event (ρ : Type)
  | makeRequest (request : CacheMsg ρ) (hit : Bool) (hits : Nat → Bool)
  | writeCallback (address : Address)
  | readCallback (address : Address)

def step (p : SequencerParams) (s : Sequencer ρ) : Event ρ → Option (Sequencer ρ)
  | .makeRequest request hit hits => s.makeRequest p hit hits request
  | .writeCallback address => s.writeCallback address
  | .readCallback address => s.readCallback address

/-! The tables -/

def outstanding (s : Sequencer ρ) : List (Issued ρ) :=
  Map.values s.m_writeRequestTable ++ Map.values s.m_readRequestTable

section
variable {s s' : Sequencer ρ} {i : Issued ρ} {w : Bool}

theorem countAgrees_iff : s.CountAgrees ↔ s.m_outstanding_count = (s.outstanding.length : Nat) := by
  unfold CountAgrees outstanding
  rw [List.length_append, Map.length_values, Map.length_values]

theorem mem_outstanding : i ∈ s.outstanding ↔ ∃ w a, (s.table w).lookup a = some i := by
  unfold outstanding
  rw [List.mem_append, Map.mem_values, Map.mem_values]
  constructor
  · intro h
    cases h with
    | inl h => exact ⟨true, h⟩
    | inr h => exact ⟨false, h⟩
  · rintro ⟨w, h⟩
    cases w with
    | true => exact .inl h
    | false => exact .inr h

@[simp] theorem setTable_count (s : Sequencer ρ) (w : Bool) (t : Map Address (Issued ρ)) :
    (s.setTable w t).m_outstanding_count = s.m_outstanding_count := by
  cases w <;> rfl

@[simp] theorem setTable_accepted (s : Sequencer ρ) (w : Bool) (t : Map Address (Issued ρ)) :
    (s.setTable w t).accepted = s.accepted := by
  cases w <;> rfl

@[simp] theorem setTable_called (s : Sequencer ρ) (w : Bool) (t : Map Address (Issued ρ)) :
    (s.setTable w t).called = s.called := by
  cases w <;> rfl

@[simp] theorem setTable_driver (s : Sequencer ρ) (w : Bool) (t : Map Address (Issued ρ)) :
    (s.setTable w t).driver = s.driver := by
  cases w <;> rfl

theorem table_setTable (s : Sequencer ρ) (w v : Bool) (t : Map Address (Issued ρ)) :
    (s.setTable w t).table v = if v = w then t else s.table v := by
  cases w <;> cases v <;> rfl

theorem outstanding_insert (i : Issued ρ) {a : Address} (h : a ∉ s.table w) :
    List.Perm (s.setTable w ((s.table w).insert a i)).outstanding (i :: s.outstanding) := by
  cases w with
  | true =>
    change a ∉ s.m_writeRequestTable at h
    change List.Perm (Map.values (AList.insert a i s.m_writeRequestTable) ++ _) _
    rw [Map.values_insert i h]
    exact List.Perm.refl _
  | false =>
    change a ∉ s.m_readRequestTable at h
    change List.Perm (_ ++ Map.values (AList.insert a i s.m_readRequestTable)) _
    rw [Map.values_insert i h]
    exact List.perm_middle

theorem outstanding_erase {a : Address} (h : (s.table w).lookup a = some i) :
    List.Perm s.outstanding (i :: (s.setTable w ((s.table w).erase a)).outstanding) := by
  cases w with
  | true => exact (Map.values_erase h).append_right _
  | false => exact ((Map.values_erase h).append_left _).trans List.perm_middle

/-- The table `insertRequest` makes of a free line. -/
def inserted (i : Issued ρ) (s : Sequencer ρ) : Sequencer ρ :=
  { s.setTable i.isWrite ((s.table i.isWrite).insert i.line i) with
    m_outstanding_count := s.m_outstanding_count + 1 }

def removed (i : Issued ρ) (s : Sequencer ρ) : Sequencer ρ :=
  { s.setTable i.isWrite ((s.table i.isWrite).erase i.line) with
    m_outstanding_count := s.m_outstanding_count - 1 }

@[simp] theorem inserted_accepted (i : Issued ρ) : (s.inserted i).accepted = s.accepted :=
  setTable_accepted s _ _

@[simp] theorem inserted_called (i : Issued ρ) : (s.inserted i).called = s.called :=
  setTable_called s _ _

@[simp] theorem inserted_driver (i : Issued ρ) : (s.inserted i).driver = s.driver :=
  setTable_driver s _ _

@[simp] theorem removed_accepted (i : Issued ρ) : (s.removed i).accepted = s.accepted :=
  setTable_accepted s _ _

@[simp] theorem removed_called (i : Issued ρ) : (s.removed i).called = s.called :=
  setTable_called s _ _

@[simp] theorem removed_driver (i : Issued ρ) : (s.removed i).driver = s.driver :=
  setTable_driver s _ _

theorem inserted_outstanding (h : i.line ∉ s.table i.isWrite) :
    List.Perm (s.inserted i).outstanding (i :: s.outstanding) :=
  outstanding_insert i h

theorem removed_outstanding (h : (s.table i.isWrite).lookup i.line = some i) :
    List.Perm s.outstanding (i :: (s.removed i).outstanding) :=
  outstanding_erase h

theorem inserted_count (hc : s.CountAgrees) (h : i.line ∉ s.table i.isWrite) :
    (s.inserted i).CountAgrees := by
  have hlen := (inserted_outstanding h).length_eq
  rw [countAgrees_iff] at hc ⊢
  rw [List.length_cons] at hlen
  rw [hlen]
  change s.m_outstanding_count + 1 = _
  omega

theorem removed_count (hc : s.CountAgrees) (h : (s.table i.isWrite).lookup i.line = some i) :
    (s.removed i).CountAgrees := by
  have hlen := (removed_outstanding h).length_eq
  rw [countAgrees_iff] at hc ⊢
  rw [List.length_cons] at hlen
  change s.m_outstanding_count - 1 = _
  omega

theorem insertRequest_free (hc : s.CountAgrees) (h : i.line ∉ s.table i.isWrite) :
    s.insertRequest i = some (false, s.inserted i) := by
  unfold insertRequest
  rw [if_pos hc]
  dsimp only
  rw [if_neg h]
  exact if_pos (inserted_count hc h)

theorem removeRequest_held (hc : s.CountAgrees)
    (h : (s.table i.isWrite).lookup i.line = some i) :
    s.removeRequest i = some (s.removed i) := by
  have hmem : i.line ∈ s.table i.isWrite := AList.lookup_isSome.mp (by rw [h]; rfl)
  unfold removeRequest
  rw [if_pos ⟨hc, hmem⟩]
  exact if_pos (removed_count hc h)

theorem inserted_table (s : Sequencer ρ) (i : Issued ρ) (v : Bool) :
    (s.inserted i).table v =
      if v = i.isWrite then (s.table i.isWrite).insert i.line i else s.table v :=
  table_setTable s _ v _

theorem removed_table (s : Sequencer ρ) (i : Issued ρ) (v : Bool) :
    (s.removed i).table v =
      if v = i.isWrite then (s.table i.isWrite).erase i.line else s.table v :=
  table_setTable s _ v _

theorem inserted_lookup {v : Bool} {a : Address} {j : Issued ρ}
    (h : ((s.inserted i).table v).lookup a = some j) :
    (a = i.line ∧ v = i.isWrite ∧ j = i) ∨ (s.table v).lookup a = some j := by
  rw [inserted_table] at h
  split at h
  case isTrue hv =>
    by_cases ha : a = i.line
    · rw [ha, AList.lookup_insert] at h
      exact .inl ⟨ha, hv, (Option.some.inj h).symm⟩
    · rw [AList.lookup_insert_ne ha] at h
      exact .inr (hv ▸ h)
  case isFalse => exact .inr h

theorem removed_lookup {v : Bool} {a : Address} {j : Issued ρ}
    (h : ((s.removed i).table v).lookup a = some j) : (s.table v).lookup a = some j := by
  rw [removed_table] at h
  split at h
  case isTrue hv =>
    by_cases ha : a = i.line
    · rw [ha, AList.lookup_erase] at h
      cases h
    · rw [AList.lookup_erase_ne ha] at h
      exact hv ▸ h
  case isFalse => exact h

end

/-- The books of a sequencer: the count is right, an entry is in its table under its line, each
accepted request was called back once or is in the tables once, and the driver heard of all but the
prefetches. -/
structure Books (s : Sequencer ρ) : Prop where
  count : s.CountAgrees
  keys : ∀ w a i, (s.table w).lookup a = some i → a = i.line ∧ i.isWrite = w
  once : List.Perm (s.called ++ s.outstanding) s.accepted
  tickets : s.accepted.map Issued.ticket = List.range s.accepted.length
  driver : s.driver = s.called.filter fun i => !i.request.Prefetch

theorem init_books : Books (init (ρ := ρ)) where
  count := rfl
  keys w a i h := by cases w <;> cases h
  once := List.Perm.refl _
  tickets := rfl
  driver := rfl

namespace Books
variable {s s' : Sequencer ρ} {i : Issued ρ} {w : Bool} {a : Address} {p : SequencerParams}
  {request : CacheMsg ρ}

/-- What `hitCallback` adds to the histories. -/
theorem driver_hit (h : s.driver = s.called.filter fun i => !i.request.Prefetch) (i : Issued ρ) :
    (s.hitCallback i).driver =
      (s.hitCallback i).called.filter fun i => !i.request.Prefetch := by
  unfold hitCallback
  dsimp only
  rw [List.filter_append, ← h]
  cases hp : i.request.Prefetch <;> simp [hp]

theorem accept_tickets (h : s.Books) (request : CacheMsg ρ) :
    (s.accepted ++ [Issued.mk s.accepted.length request]).map Issued.ticket =
      List.range (s.accepted ++ [Issued.mk s.accepted.length request]).length := by
  rw [List.map_append, h.tickets, List.length_append]
  exact List.range_succ.symm

theorem doRequest_hit (h : s.Books) (request : CacheMsg ρ) :
    ∃ s', s.doRequest true request = some s' ∧ s'.Books ∧
      s'.accepted = s.accepted ++ [⟨s.accepted.length, request⟩] := by
  refine ⟨_, rfl, ?_, rfl⟩
  refine { count := h.count, keys := h.keys, once := ?_, tickets := h.accept_tickets request,
           driver := driver_hit h.driver _ }
  change List.Perm ((s.called ++ [_]) ++ s.outstanding) (s.accepted ++ [_])
  rw [List.append_assoc]
  exact (List.perm_middle.trans (h.once.cons _)).trans (List.perm_append_singleton _ _).symm

theorem doRequest_miss (h : s.Books) (hready : s.isReady p request = true) :
    ∃ s', s.doRequest false request = some s' ∧ s'.Books ∧
      s'.accepted = s.accepted ++ [⟨s.accepted.length, request⟩] := by
  have hfree : request.Address.makeLineAddress ∉ s.table request.Type'.isWrite := by
    unfold isReady at hready
    simpa using (Bool.and_eq_true_iff.mp hready).2
  let i : Issued ρ := ⟨s.accepted.length, request⟩
  let s₁ : Sequencer ρ := { s with accepted := s.accepted ++ [i] }
  have hinsert : s₁.insertRequest i = some (false, s₁.inserted i) :=
    insertRequest_free h.count hfree
  refine ⟨s₁.inserted i, ?_, ?_, inserted_accepted i⟩
  · change (s₁.insertRequest i).map Prod.snd = _
    rw [hinsert]
    rfl
  · refine { count := inserted_count (s := s₁) h.count hfree, keys := ?_, once := ?_,
             tickets := ?_, driver := ?_ }
    · intro w a j hj
      cases inserted_lookup hj with
      | inl hnew =>
        cases hnew.2.2
        exact ⟨hnew.1, hnew.2.1.symm⟩
      | inr hold => exact h.keys w a j hold
    · have hout := inserted_outstanding (s := s₁) (i := i) hfree
      rw [inserted_called, inserted_accepted]
      exact (((hout.append_left _).trans List.perm_middle).trans (h.once.cons i)).trans
        (List.perm_append_singleton _ _).symm
    · rw [inserted_accepted]
      exact h.accept_tickets request
    · rw [inserted_driver, inserted_called]
      exact h.driver

theorem doRequest_books (h : s.Books) (hit : Bool) (hready : s.isReady p request = true) :
    ∃ s', s.doRequest hit request = some s' ∧ s'.Books ∧
      s'.accepted = s.accepted ++ [⟨s.accepted.length, request⟩] := by
  cases hit with
  | true => exact h.doRequest_hit request
  | false => exact h.doRequest_miss hready

theorem prefetchNext_books (h : s.Books) (request : CacheMsg ρ) (hits : Nat → Bool) (i : Nat) :
    ∃ s', prefetchNext p hits request s i = some s' ∧ s'.Books ∧ s.accepted <+: s'.accepted := by
  unfold prefetchNext
  dsimp only
  split
  case isTrue hready =>
    have ⟨s', hs, hb, ha⟩ := h.doRequest_books (hits i) hready
    exact ⟨s', hs, hb, ha ▸ List.prefix_append _ _⟩
  case isFalse => exact ⟨s, rfl, h, List.prefix_refl _⟩

theorem prefetches_books (hits : Nat → Bool) (l : List Nat) (h : s.Books) :
    ∃ s', l.foldlM (prefetchNext p hits request) s = some s' ∧ s'.Books ∧
      s.accepted <+: s'.accepted := by
  induction l generalizing s with
  | nil => exact ⟨s, rfl, h, List.prefix_refl _⟩
  | cons i l ih =>
    have ⟨s₁, h₁, hb₁, ha₁⟩ := h.prefetchNext_books (p := p) request hits i
    have ⟨s₂, h₂, hb₂, ha₂⟩ := ih hb₁
    refine ⟨s₂, ?_, hb₂, ha₁.trans ha₂⟩
    rw [List.foldlM_cons, h₁]
    exact h₂

/-- A request that is ready is accepted, with its prefetches, and no assertion fails. -/
theorem makeRequest_books (h : s.Books) (hit : Bool) (hits : Nat → Bool)
    (hready : s.isReady p request = true) :
    ∃ s', s.makeRequest p hit hits request = some s' ∧ s'.Books ∧
      s.accepted ++ [⟨s.accepted.length, request⟩] <+: s'.accepted := by
  have ⟨s₁, h₁, hb₁, ha₁⟩ := h.doRequest_books hit hready
  unfold makeRequest
  rw [if_pos hready, h₁, ← ha₁]
  dsimp only [Option.bind_some]
  split
  case isTrue => exact prefetches_books hits _ hb₁
  case isFalse => exact ⟨s₁, rfl, hb₁, List.prefix_refl _⟩

/-- The callback of an entry is served: the entry goes, and nothing else. -/
theorem callback_held (h : s.Books) (hline : a.IsLine) (hi : (s.table w).lookup a = some i) :
    s.callback w a = some ((s.removed i).hitCallback i) := by
  have ⟨ha, hw⟩ := h.keys w a i hi
  cases ha
  cases hw
  unfold callback
  rw [if_pos hline, hi, Option.bind_some, removeRequest_held h.count hi, Option.bind_some]
  exact if_pos rfl

theorem callback_books (h : s.Books) (hi : (s.table w).lookup a = some i) :
    ((s.removed i).hitCallback i).Books := by
  have ⟨ha, hw⟩ := h.keys w a i hi
  cases ha
  cases hw
  refine { count := removed_count h.count hi, keys := ?_, once := ?_, tickets := ?_,
           driver := driver_hit ?_ i }
  · intro w a j hj
    exact h.keys w a j (removed_lookup hj)
  · have hout := removed_outstanding hi
    change List.Perm (((s.removed i).called ++ [i]) ++ (s.removed i).outstanding)
      (s.removed i).accepted
    rw [removed_called, removed_accepted, List.append_assoc]
    exact (hout.symm.append_left s.called).trans h.once
  · change (s.removed i).accepted.map Issued.ticket = List.range (s.removed i).accepted.length
    rw [removed_accepted]
    exact h.tickets
  · rw [removed_driver, removed_called]
    exact h.driver

theorem callback_cases {s' : Sequencer ρ} (hs : s.callback w a = some s') :
    a.IsLine ∧ ∃ i, (s.table w).lookup a = some i := by
  unfold callback at hs
  split at hs
  case isTrue hline =>
    have ⟨i, hi, _⟩ := Option.bind_eq_some_iff.mp hs
    exact ⟨hline, i, hi⟩
  case isFalse => cases hs

theorem callback_preserves (h : s.Books) {s' : Sequencer ρ} (hs : s.callback w a = some s') :
    s'.Books := by
  have ⟨hline, i, hi⟩ := callback_cases hs
  rw [h.callback_held hline hi] at hs
  cases hs
  exact h.callback_books hi

theorem makeRequest_ready {hit : Bool} {hits : Nat → Bool} {s' : Sequencer ρ}
    (hs : s.makeRequest p hit hits request = some s') : s.isReady p request = true := by
  unfold makeRequest at hs
  split at hs
  case isTrue hready => exact hready
  case isFalse => cases hs

theorem step_books (h : s.Books) {e : Event ρ} {s' : Sequencer ρ} (hs : step p s e = some s') :
    s'.Books := by
  cases e with
  | makeRequest request hit hits =>
    have ⟨s₁, h₁, hb, _⟩ := h.makeRequest_books hit hits (makeRequest_ready hs)
    cases h₁.symm.trans hs
    exact hb
  | writeCallback address => exact h.callback_preserves hs
  | readCallback address => exact h.callback_preserves hs

end Books

theorem run_books {p : SequencerParams} {events : List (Event ρ)} {s : Sequencer ρ}
    (hs : run (step p) init events = some s) : s.Books :=
  run_invariant (I := Books) (fun _ _ _ h _ hs => h.step_books hs) init_books
    (along_true _ _ _) hs

/-- How often a request was called back, and how many entries it has. -/
def calls (s : Sequencer ρ) (i : Issued ρ) : Nat :=
  s.called.countP fun j => j.ticket = i.ticket

def entries (s : Sequencer ρ) (i : Issued ρ) : Nat :=
  s.outstanding.countP fun j => j.ticket = i.ticket

/-- What holds in every state: `callback` is `writeCallback` or `readCallback`. -/
structure Sound (p : SequencerParams) (s : Sequencer ρ) : Prop where
  count : s.m_outstanding_count =
    (Map.size s.m_writeRequestTable + Map.size s.m_readRequestTable : Nat)
  once : ∀ i ∈ s.accepted, s.calls i + s.entries i = 1
  known : ∀ i, i ∈ s.called ∨ i ∈ s.outstanding → i ∈ s.accepted
  heard : s.driver = s.called.filter fun i => !i.request.Prefetch
  alone : ∀ i j, i ∈ s.outstanding → j ∈ s.outstanding → i.line = j.line →
    i.isWrite = j.isWrite → i = j
  accepts : ∀ request hit hits, s.isReady p request = true →
    ∃ s', s.makeRequest p hit hits request = some s' ∧
      s.accepted ++ [⟨s.accepted.length, request⟩] <+: s'.accepted
  answers : ∀ i ∈ s.outstanding, ∃ s', s.callback i.isWrite i.line = some s' ∧
    s'.called = s.called ++ [i] ∧ s'.accepted = s.accepted ∧
    List.Perm s.outstanding (i :: s'.outstanding) ∧ i.line ∉ s'.table i.isWrite

namespace Books
variable {s : Sequencer ρ} {i j : Issued ρ}

theorem held (h : s.Books) (hi : i ∈ s.outstanding) :
    (s.table i.isWrite).lookup i.line = some i := by
  have ⟨w, a, hl⟩ := mem_outstanding.mp hi
  have ⟨ha, hw⟩ := h.keys w a i hl
  rw [hw, ← ha]
  exact hl

theorem calls_entries (h : s.Books) (hi : i ∈ s.accepted) : s.calls i + s.entries i = 1 := by
  have hnodup : (s.accepted.map Issued.ticket).Nodup := by
    rw [h.tickets]
    exact List.nodup_range
  have hone := List.count_eq_one_of_mem hnodup (List.mem_map_of_mem (f := Issued.ticket) hi)
  unfold calls entries
  rw [← List.countP_append, h.once.countP_eq, ← hone, List.count, List.countP_map]
  rfl

theorem answered (h : s.Books) (hi : i ∈ s.outstanding) :
    ∃ s', s.callback i.isWrite i.line = some s' ∧ s'.called = s.called ++ [i] ∧
      s'.accepted = s.accepted ∧ List.Perm s.outstanding (i :: s'.outstanding) ∧
      i.line ∉ s'.table i.isWrite := by
  have hl := h.held hi
  refine ⟨_, h.callback_held (Address.makeLineAddress_isLine _) hl, ?_, ?_,
    removed_outstanding hl, ?_⟩
  · change (s.removed i).called ++ [i] = _
    rw [removed_called]
  · exact removed_accepted i
  · change i.line ∉ (s.removed i).table i.isWrite
    rw [removed_table, if_pos rfl]
    exact fun hmem => (AList.mem_erase.mp hmem).1 rfl

theorem sound (h : s.Books) (p : SequencerParams) : s.Sound p where
  count := h.count
  once i hi := h.calls_entries hi
  known i hi := h.once.subset (List.mem_append.mpr hi)
  heard := h.driver
  alone i j hi hj hline hwrite := by
    have hl := h.held hi
    rw [hline, hwrite, h.held hj] at hl
    exact (Option.some.inj hl).symm
  accepts request hit hits hready := by
    have ⟨s', hs, _, ha⟩ := h.makeRequest_books hit hits hready
    exact ⟨s', hs, ha⟩
  answers i hi := h.answered hi

end Books

/-- Over every run of requests and callbacks. -/
theorem bookkeeping (p : SequencerParams) (events : List (Event ρ)) :
    Throughout (step p) (Sound p) init events :=
  fun _ _ _ hs => (run_books hs).sound p

end Sequencer
end FeS2.Ruby
