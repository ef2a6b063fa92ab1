import FeS2.Library.Network
import FeS2.Ruby.CacheView

/-!
The directory protocol by what its parties show of themselves, and what holds of
it: the directory works at one request at a time. How far that has come says who
holds the block, who may still have a copy of it, and what is on the networks.
-/

namespace FeS2.Ruby
open L1Cache

structure Protocol (ι D : Type) where
  view : ι → View D
  directory : Directory.Entry ι D
  requests : Multiset (RequestMsg ι D)
  forwards : Multiset (ι × RequestMsg ι D)
  responses : Multiset (ι × ResponseMsg ι D)
  unblocks : Multiset (ResponseMsg ι D)
  current : D

namespace Protocol
variable {ι D : Type}

inductive ReadStage (ι D : Type)
  | forwarded
  | data (m : ResponseMsg ι D)
  | done (exclusive : Bool)

inductive WriteStage (ι D : Type)
  | forwarded
  | data (m : ResponseMsg ι D)
  | acks
  | done

/-- The request at the directory. Of a write, `V` are the sharers whose invalidations are on
the way, and `A` those whose acks are. -/
inductive Txn (ι D : Type)
  | idle
  | read (r : ι) (stage : ReadStage ι D)
  | write (r : ι) (V A : Finset ι) (stage : WriteStage ι D)

/-- What a cache waits for. -/
inductive Role (ι D : Type)
  | none
  | request (m : RequestMsg ι D)
  | reader
  | writer
  | released

/-! Who has the block -/

def Txn.holds (t : Txn ι D) (e : Directory.Entry ι D) (i : ι) : Prop :=
  match t with
  | .idle | .read _ .forwarded | .read _ (.done false) | .write _ _ _ .forwarded => i ∈ e.owner
  | .read _ (.data m) => m.type = .DATA ∧ i ∈ e.owner
  | .write _ _ _ (.data _) => False
  | .read r (.done true) | .write r _ _ .acks | .write r _ _ .done => i = r

def Txn.shares (t : Txn ι D) (e : Directory.Entry ι D) (i : ι) : Prop :=
  match t with
  | .idle | .read _ .forwarded => i ∈ e.sharers
  | .read r (.data m) => m.type = .DATA ∧ (i = r ∨ i ∈ e.sharers)
  | .read r (.done false) => i = r ∨ i ∈ e.sharers
  | .read _ (.done true) | .write _ _ _ .done => False
  | .write r V _ .forwarded | .write r V _ (.data _) => i ∈ V ∨ i = r ∧ i ∈ e.sharers
  | .write _ V _ .acks => i ∈ V

/-- The memory is up to date. -/
def Txn.atMemory (t : Txn ι D) (e : Directory.Entry ι D) : Prop :=
  match t with
  | .idle | .read _ .forwarded | .read _ (.done false) => e.owner = ∅
  | .read _ (.data m) => m.type = .DATA ∧ e.owner = ∅ ∨ m.type = .DATA_EXCLUSIVE_CLEAN
  | .read _ (.done true) | .write _ _ _ _ => False

/-- States without a readable copy. -/
def isBlind : State → Bool
  | .NP | .I | .IM | .IS | .II => true
  | _ => false

def isShared : State → Bool
  | .S | .SM => true
  | _ => false

/-- What is at the owner is also in memory. -/
def isClean (i : ι) (role : Role ι D) (v : View D) : Prop :=
  v.state = .E ∨ v.state = .O_C ∨ role = .request (requestMsg .PUT_CLEAN i v.data)

structure Holder (none : Prop) (i : ι) (role : Role ι D) (v : View D) (memory current : D) :
    Prop where
  owner : v.state.isOwner
  data : v.data = current
  alone : v.state.isExclusive → none
  unreleased : role ≠ .released
  clean : isClean i role v → memory = current

def Rights (t : Txn ι D) (e : Directory.Entry ι D) (current : D) (i : ι) (role : Role ι D)
    (v : View D) : Prop :=
  (t.holds e i → Holder (∀ j, ¬ t.shares e j) i role v e.dataBlk current) ∧
  (¬ t.holds e i → isBlind v.state ∨ isShared v.state ∧ t.shares e i ∧ v.data = current)

/-! What a cache waits for -/

def Txn.reads (t : Txn ι D) (i : ι) : Prop :=
  match t with
  | .read r .forwarded | .read r (.data _) => i = r
  | _ => False

def Txn.writes (t : Txn ι D) (i : ι) : Prop :=
  match t with
  | .write r _ _ .forwarded | .write r _ _ (.data _) | .write r _ _ .acks => i = r
  | _ => False

/-- The count of the writer: the acks that have come, less those that are due once it knows. -/
def Txn.pending [DecidableEq ι] (t : Txn ι D) (e : Directory.Entry ι D) : Int :=
  match t with
  | .write r V A .forwarded | .write r V A (.data _) =>
      Directory.acksFor e r - (V.card + A.card)
  | .write _ V A .acks => 0 - (V.card + A.card)
  | _ => 0

def Txn.triggers [DecidableEq ι] (t : Txn ι D) : Nat :=
  match t with
  | .write _ V A .acks => if V = ∅ ∧ A = ∅ then 1 else 0
  | _ => 0

def Node [DecidableEq ι] [Inhabited D] (t : Txn ι D) (e : Directory.Entry ι D) (i : ι)
    (role : Role ι D) (v : View D) : Prop :=
  match role with
  | .none => v.state = .NP ∨ v.state.isStable
  | .request m =>
      v.trigger = 0 ∧
        (v.state = .IS ∧ m = requestMsg .GETS i default ∨
          v.state.takesAck ∧ m = requestMsg .GETX i default ∧ v.pending = 0 ∨
          v.state = .II ∧
            (m = requestMsg .PUT_CLEAN i v.data ∨ m = requestMsg .PUT_DIRTY i v.data))
  | .reader => v.state = .IS ∧ v.trigger = 0 ∧ t.reads i
  | .writer =>
      v.state.takesAck ∧ v.pending = t.pending e ∧ v.trigger = t.triggers ∧ t.writes i
  | .released => v.state = .II

/-! The directory -/

def atRest [DecidableEq ι] (e : Directory.Entry ι D) : Directory.State :=
  if e.owner = ∅ then (if e.sharers = ∅ then .I else .S)
  else (if e.sharers = ∅ then .M else .O)

def reading [DecidableEq ι] (e : Directory.Entry ι D) : Directory.State :=
  if e.owner = ∅ then (if e.sharers = ∅ then .IS else .SS)
  else (if e.sharers = ∅ then .MO else .OO)

def writing [DecidableEq ι] (e : Directory.Entry ι D) : Directory.State :=
  if e.owner = ∅ then (if e.sharers = ∅ then .IM else .SM)
  else (if e.sharers = ∅ then .MM else .OM)

structure Sound (e : Directory.Entry ι D) : Prop where
  one : ∀ i ∈ e.owner, e.owner = {i}
  apart : ∀ i ∈ e.owner, i ∉ e.sharers

def TxnOk [DecidableEq ι] (t : Txn ι D) (e : Directory.Entry ι D) (current : D) : Prop :=
  match t with
  | .idle => e.directoryState = atRest e
  | .read r stage =>
      e.directoryState = reading e ∧ r ∉ e.owner ∧
        match stage with
        | .forwarded => e.owner.Nonempty
        | .data m =>
            m.dataBlk = current ∧ (m.type = .DATA ∨ e.sharers = ∅ ∧
              (m.type = .DATA_EXCLUSIVE_CLEAN ∨ m.type = .DATA_EXCLUSIVE_DIRTY))
        | .done exclusive => exclusive → e.sharers = ∅
  | .write r V A stage =>
      e.directoryState = writing e ∧ Disjoint V A ∧ V ∪ A ⊆ e.sharers.erase r ∧
        match stage with
        | .forwarded => e.owner.Nonempty
        | .data m =>
            m.dataBlk = current ∧ m.acks = Directory.acksFor e r ∧
              (m.type = .DATA ∨ m.type = .DATA_EXCLUSIVE_CLEAN)
        | .acks => True
        | .done => V = ∅ ∧ A = ∅

/-! The networks -/

section
variable [DecidableEq ι] [Inhabited D]

def forwardMsg (type : CoherenceRequestType) (e : Directory.Entry ι D) (r : ι) : RequestMsg ι D :=
  { type := type, requestor := r, dataBlk := default, acks := Directory.acksFor e r }

def wbAck (i : ι) : ResponseMsg ι D :=
  { type := .WB_ACK, sender := .cache i, dataBlk := default, acks := 0 }

def Txn.forwards (t : Txn ι D) (e : Directory.Entry ι D) (x : ι × RequestMsg ι D) : Prop :=
  match t with
  | .read r .forwarded => ∃ q ∈ e.owner, x = (q, forwardMsg .GETS e r)
  | .write r V _ .forwarded =>
      (∃ q ∈ e.owner, x = (q, forwardMsg .GETX e r)) ∨ ∃ j ∈ V, x = (j, requestMsg .INV r default)
  | .write r V _ _ => ∃ j ∈ V, x = (j, requestMsg .INV r default)
  | _ => False

def Txn.responses (t : Txn ι D) (x : ι × ResponseMsg ι D) : Prop :=
  match t with
  | .read r (.data m) => x = (r, m)
  | .write r _ A (.data m) => x = (r, m) ∨ ∃ j ∈ A, x = (r, ack j)
  | .write r _ A _ => ∃ j ∈ A, x = (r, ack j)
  | _ => False

def Txn.unblocks (t : Txn ι D) (m : ResponseMsg ι D) : Prop :=
  match t with
  | .read r (.done exclusive) =>
      m = unblockMsg (if exclusive then .UNBLOCK_EXCLUSIVE else .UNBLOCK) r
  | .write r _ _ .done => m = unblockMsg .UNBLOCK_EXCLUSIVE r
  | _ => False

structure Inv (t : Txn ι D) (w : ι → Role ι D) (p : Protocol ι D) : Prop where
  sound : Sound p.directory
  txn : TxnOk t p.directory p.current
  reader : ∀ i, t.reads i → w i = .reader
  writer : ∀ i, t.writes i → w i = .writer
  node : ∀ i, Node t p.directory i (w i) (p.view i)
  rights : ∀ i, Rights t p.directory p.current i (w i) (p.view i)
  memory : t.atMemory p.directory → p.directory.dataBlk = p.current
  requests : Network.Carries p.requests fun m => ∃ i, w i = .request m
  forwards : Network.Carries p.forwards (t.forwards p.directory)
  responses : Network.Carries p.responses fun x =>
    (∃ i, w i = .released ∧ x = (i, wbAck i)) ∨ t.responses x
  unblocks : Network.Carries p.unblocks t.unblocks

end
end Protocol
end FeS2.Ruby
