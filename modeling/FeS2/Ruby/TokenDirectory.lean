import Mathlib.Data.Finset.Card
import FeS2.Ruby.TokenCache

/-!
The directory controller of the token protocol, seen from one block. Besides the
tokens it keeps probable owners, sharers and requestors, to forward requests to.
-/

namespace FeS2.Ruby
namespace Token
namespace Directory

inductive State
  | O
  | NO
  | L
  deriving DecidableEq, Repr

inductive Event
  | GETX
  | GETS
  | Lockdown
  | Unlockdown
  | Data_Owner
  | Data_Shared
  | Ack
  | Ack_Owner
  | Exclusive_Completion
  | Owned_Completion
  | Shared_Completion
  deriving DecidableEq, Repr

end Directory

structure Directory (ι D : Type) where
  directoryState : Directory.State := .O
  dataBlk : D
  tokens : ℕ := max_tokens
  owner : Finset ι := ∅
  sharers : Finset ι := ∅
  pending : Finset ι := ∅
  deriving DecidableEq

namespace Directory
variable {ι D : Type} [LinearOrder ι]

def setState (state : State) (entry : Directory ι D) : Except Failure (Directory ι D) :=
  if (state = .L → entry.tokens = 0) ∧ (entry.owner.card = 0 ∨ entry.owner.card = 1) ∧
      entry.tokens ≤ max_tokens ∧
      (state = .O → entry.tokens ≥ 1 ∧ entry.tokens ≥ max_tokens / 2) then
    .ok { entry with directoryState := state }
  else .error .assertion

inductive Action
  | a_sendTokens
  | aa_sendTokensToStarver
  | b_forwardToSharers
  | c_forwardToOwner
  | d_sendDataWithAllTokens
  | dd_sendDataWithAllTokensToStarver
  | f_incrementTokens
  | i_popIncomingCompletionQueue
  | j_popIncomingRequestQueue
  | k_popIncomingResponseQueue
  | l_popIncomingPersistentQueue
  | m_writeDataToMemory
  | n_checkIncomingMsg
  | p_completionOwnerWriteback
  | q_completionCleanWriteback
  | r_bounceResponse
  | s_bounceDatalessOwnerToken
  | v_completionExclusive
  | w_completionOwned
  | x_completionShared
  deriving DecidableEq, Repr

inductive InMsg (ι D : Type)
  | persistent (p : ι)
  | request (m : RequestMsg ι)
  | response (m : ResponseMsg ι D)
  | completion (m : CompletionMsg ι)

structure Context (ι D : Type) where
  inMsg : InMsg ι D
  table : PersistentTable ι
  entry : Directory ι D
  popped : Bool := false
  requests : Multiset (NodeID ι × RequestMsg ι) := 0
  responses : Multiset (NodeID ι × ResponseMsg ι D) := 0

namespace Context

def requestMsg (x : Context ι D) : Except Failure (RequestMsg ι) :=
  match x.inMsg with
  | .request m => .ok m
  | _ => .error .assertion

def responseMsg (x : Context ι D) : Except Failure (ResponseMsg ι D) :=
  match x.inMsg with
  | .response m => .ok m
  | _ => .error .assertion

def completionMsg (x : Context ι D) : Except Failure (CompletionMsg ι) :=
  match x.inMsg with
  | .completion m => .ok m
  | _ => .error .assertion

def starver (x : Context ι D) : Except Failure ι :=
  match x.table.findSmallest with
  | some p => .ok p
  | none => .error .assertion

def send (dest : ι) (m : ResponseMsg ι D) (x : Context ι D) : Context ι D :=
  { x with responses := (.cache dest, m) ::ₘ x.responses }

def setTokens (tokens : ℕ) (x : Context ι D) : Context ι D :=
  { x with entry.tokens := tokens }

end Context

/-- Tokens without data. -/
def ack [Inhabited D] (entry : Directory ι D) : ResponseMsg ι D :=
  { type := .ACK, sender := .directory, tokens := entry.tokens, dataBlk := default, dirty := false,
    messageSize := .Response_Control }

/-- The owner token and the data. -/
def data (entry : Directory ι D) : ResponseMsg ι D :=
  { type := .DATA_OWNER, sender := .directory, tokens := entry.tokens, dataBlk := entry.dataBlk,
    dirty := false, messageSize := .Response_Data }

/-- The owner token meets the data again. -/
def reassociated (entry : Directory ι D) (m : ResponseMsg ι D) : ResponseMsg ι D :=
  { type := .DATA_OWNER, sender := .directory, tokens := m.tokens, dataBlk := entry.dataBlk,
    dirty := m.dirty, messageSize := .Response_Data }

/-- To the caches that may have to see the request, and have not seen it. -/
def forward (caches : Finset ι) (m : RequestMsg ι) (x : Context ι D) : Context ι D :=
  let forwarded : RequestMsg ι :=
    { type := m.type, requestor := m.requestor
      destination := ((caches ∪ x.entry.pending).image NodeID.cache).erase (.cache m.requestor) \
        m.destination }
  { x with requests := forwarded.copies + x.requests }

/-- A cache that has given tokens back needs to see no more requests. -/
def removeSender (sender : NodeID ι) (entry : Directory ι D) : Directory ι D :=
  let entry := match sender with
    | .cache id =>
        { entry with sharers := entry.sharers.erase id, pending := entry.pending.erase id }
    | .directory => entry
  if entry.tokens = max_tokens then { entry with sharers := ∅, owner := ∅, pending := ∅ }
  else entry

/-- The assertions on a returned owner token. -/
def checkIncomingMsg [DecidableEq D] (entry : Directory ι D) (m : ResponseMsg ι D) : Bool :=
  m.type = .ACK_OWNER && !m.dirty && m.messageSize = .Writeback_Control &&
    entry.dataBlk = m.dataBlk

def Action.perform [DecidableEq D] [Inhabited D] (x : Context ι D) :
    Action → Except Failure (Context ι D)
  | .a_sendTokens =>
      if x.entry.tokens > 0 then do
        let inMsg ← x.requestMsg
        .ok ((x.send inMsg.requestor (ack x.entry)).setTokens 0)
      else .ok x
  | .aa_sendTokensToStarver =>
      if x.entry.tokens > 0 then do
        let starver ← x.starver
        .ok ((x.send starver (ack x.entry)).setTokens 0)
      else .ok x
  | .b_forwardToSharers => do
      let inMsg ← x.requestMsg
      .ok (forward (x.entry.sharers ∪ x.entry.owner) inMsg x)
  | .c_forwardToOwner => do
      let inMsg ← x.requestMsg
      .ok (forward x.entry.owner inMsg x)
  | .d_sendDataWithAllTokens => do
      let inMsg ← x.requestMsg
      if x.entry.tokens > 0 then .ok ((x.send inMsg.requestor (data x.entry)).setTokens 0)
      else .error .tokenCount
  | .dd_sendDataWithAllTokensToStarver => do
      let starver ← x.starver
      if x.entry.tokens > 0 then .ok ((x.send starver (data x.entry)).setTokens 0)
      else .error .tokenCount
  | .f_incrementTokens => do
      let inMsg ← x.responseMsg
      if inMsg.tokens ≥ 1 then .ok (x.setTokens (x.entry.tokens + inMsg.tokens))
      else .error .tokenCount
  | .i_popIncomingCompletionQueue | .k_popIncomingResponseQueue => .ok { x with popped := true }
  | .j_popIncomingRequestQueue => do
      let inMsg ← x.requestMsg
      .ok { x with entry.pending := insert inMsg.requestor x.entry.pending, popped := true }
  | .l_popIncomingPersistentQueue =>
      match x.inMsg with
      | .persistent p => .ok { x with entry.pending := insert p x.entry.pending, popped := true }
      | _ => .error .assertion
  | .m_writeDataToMemory => do
      let inMsg ← x.responseMsg
      .ok { x with entry.dataBlk := inMsg.dataBlk }
  | .n_checkIncomingMsg => do
      let inMsg ← x.responseMsg
      if checkIncomingMsg x.entry inMsg then .ok x else .error .incomingMsg
  | .p_completionOwnerWriteback => do
      let inMsg ← x.responseMsg
      .ok { x with entry := removeSender inMsg.sender { x.entry with owner := ∅ } }
  | .q_completionCleanWriteback => do
      let inMsg ← x.responseMsg
      .ok { x with entry := removeSender inMsg.sender x.entry }
  | .r_bounceResponse => do
      let inMsg ← x.responseMsg
      let starver ← x.starver
      .ok (x.send starver { inMsg with sender := .directory })
  | .s_bounceDatalessOwnerToken => do
      let inMsg ← x.responseMsg
      if checkIncomingMsg x.entry inMsg then
        let starver ← x.starver
        .ok (x.send starver (reassociated x.entry inMsg))
      else .error .incomingMsg
  | .v_completionExclusive => do
      let inMsg ← x.completionMsg
      .ok { x with entry := { x.entry with
        owner := {inMsg.sender}
        sharers := {inMsg.sender}
        pending := x.entry.pending.erase inMsg.sender } }
  | .w_completionOwned => do
      let inMsg ← x.completionMsg
      .ok { x with entry := { x.entry with
        owner := {inMsg.sender}
        sharers := insert inMsg.sender x.entry.sharers
        pending := x.entry.pending.erase inMsg.sender } }
  | .x_completionShared => do
      let inMsg ← x.completionMsg
      .ok { x with entry := { x.entry with
        sharers := insert inMsg.sender x.entry.sharers
        pending := x.entry.pending.erase inMsg.sender } }

def transition : State → Event → Option (State × List Action)
  -- Trans. from O
  | .O, .GETX =>
      some (.NO, [.d_sendDataWithAllTokens, .b_forwardToSharers, .j_popIncomingRequestQueue])
  | .O, .GETS => some (.NO, [.d_sendDataWithAllTokens, .j_popIncomingRequestQueue])
  | .O, .Lockdown =>
      some (.L, [.dd_sendDataWithAllTokensToStarver, .l_popIncomingPersistentQueue])
  | .O, .Data_Shared | .O, .Ack => some (.O, collect)
  -- Trans. from NO
  | .NO, .GETX => some (.NO, [.a_sendTokens, .b_forwardToSharers, .j_popIncomingRequestQueue])
  | .NO, .GETS => some (.NO, [.c_forwardToOwner, .j_popIncomingRequestQueue])
  | .NO, .Lockdown => some (.L, [.aa_sendTokensToStarver, .l_popIncomingPersistentQueue])
  | .NO, .Data_Owner => some (.O, .m_writeDataToMemory :: ownerWriteback)
  | .NO, .Ack_Owner => some (.O, .n_checkIncomingMsg :: ownerWriteback)
  | .NO, .Data_Shared | .NO, .Ack => some (.NO, collect)
  -- Trans. from L
  | .L, .GETX | .L, .GETS => some (.L, [.j_popIncomingRequestQueue])
  | .L, .Lockdown => some (.L, [.l_popIncomingPersistentQueue])
  | .L, .Data_Owner | .L, .Data_Shared | .L, .Ack =>
      some (.L, [.r_bounceResponse, .k_popIncomingResponseQueue])
  | .L, .Ack_Owner => some (.L, [.s_bounceDatalessOwnerToken, .k_popIncomingResponseQueue])
  | .L, .Unlockdown => some (.NO, [.l_popIncomingPersistentQueue])
  -- Completion Messages
  | state, .Exclusive_Completion =>
      some (state, [.v_completionExclusive, .i_popIncomingCompletionQueue])
  | state, .Owned_Completion => some (state, [.w_completionOwned, .i_popIncomingCompletionQueue])
  | state, .Shared_Completion => some (state, [.x_completionShared, .i_popIncomingCompletionQueue])
  | _, _ => none
where
  collect := [.f_incrementTokens, .q_completionCleanWriteback, .k_popIncomingResponseQueue]
  ownerWriteback :=
    [.f_incrementTokens, .p_completionOwnerWriteback, .k_popIncomingResponseQueue]

def doTransition [DecidableEq D] [Inhabited D] (event : Event) (x : Context ι D) :
    Except Failure (Context ι D) :=
  match transition x.entry.directoryState event with
  | none => .error .invalidTransition
  | some (next, actions) => do
      let x ← actions.foldlM Action.perform x
      let entry ← setState next x.entry
      .ok { x with entry := entry }

/-! In-ports -/

/-- The event of a persistent message, after it is applied to the table. -/
def persistentNetwork (table : PersistentTable ι) : Event :=
  if table.isLocked then .Lockdown else .Unlockdown

def requestNetwork (m : RequestMsg ι) : Event :=
  match m.type with
  | .GETS => .GETS
  | .GETX => .GETX

def responseNetwork (m : ResponseMsg ι D) : Event :=
  match m.type with
  | .DATA_OWNER => .Data_Owner
  | .ACK => .Ack
  | .DATA_SHARED => .Data_Shared
  | .ACK_OWNER => .Ack_Owner

def completionNetwork (m : CompletionMsg ι) : Event :=
  match m.result with
  | .Owned => .Owned_Completion
  | .Shared => .Shared_Completion
  | .Exclusive => .Exclusive_Completion

end Directory
end Token
end FeS2.Ruby
