import Mathlib.Data.Multiset.AddSub
import FeS2.Ruby.CacheHierarchy
import FeS2.Ruby.PersistentArbitration

/-!
The cache controller of the token protocol, seen from one block. The TBE's count of
requests, its reissue timer and the persistent table of the node are those of
`PersistentArbitration`. Counters of outstanding requests, latencies, profiles and the
training of the predictor are left out. What the predictor adds to the destinations of
a request is up to the environment.
-/

namespace FeS2.Ruby
namespace Token

def max_tokens : ℕ := 1024

inductive CoherenceRequestType
  | GETX
  | GETS
  deriving DecidableEq, Repr

inductive CoherenceResponseType
  | DATA_OWNER
  | DATA_SHARED
  | ACK
  | ACK_OWNER
  deriving DecidableEq, Repr

inductive CoherenceCompletionType
  | Exclusive
  | Owned
  | Shared
  deriving DecidableEq, Repr

inductive MessageSizeType
  | Response_Data
  | Response_Control
  | Writeback_Data
  | Writeback_Control
  deriving DecidableEq, Repr

structure RequestMsg (ι : Type) where
  type : CoherenceRequestType
  requestor : ι
  destination : Finset (NodeID ι)
  deriving DecidableEq

/-- Its destination is one node, which stands next to it on the network. -/
structure ResponseMsg (ι D : Type) where
  type : CoherenceResponseType
  sender : NodeID ι
  tokens : ℕ
  dataBlk : D
  dirty : Bool
  messageSize : MessageSizeType
  deriving DecidableEq

structure CompletionMsg (ι : Type) where
  result : CoherenceCompletionType
  sender : ι
  deriving DecidableEq

/-- Once for each destination. -/
def RequestMsg.copies {ι : Type} (m : RequestMsg ι) : Multiset (NodeID ι × RequestMsg ι) :=
  m.destination.val.map fun n => (n, m)

/-- What stops a run: an event without a transition, an assertion on a count of tokens in an
action that sends them, one on a returned owner token, or any other. -/
inductive Failure
  | invalidTransition
  | tokenCount
  | incomingMsg
  | assertion
  deriving DecidableEq, Repr

/-- Parameters of the predictor. -/
structure Config where
  tokenReissueThreshold : ℕ
  tokenCompletionEnabled : Bool

namespace L1Cache

inductive State
  | NP
  | I
  | S
  | O
  | M
  | MM
  | M_W
  | MM_W
  | IM
  | SM
  | OM
  | IS
  | I_L
  | S_L
  | IM_L
  | SM_L
  | IS_L
  deriving DecidableEq, Repr

inductive Event
  | Load
  | Ifetch
  | Store
  | L2_Replacement
  | L1_to_L2
  | L2_to_L1D
  | L2_to_L1I
  | Data_Shared
  | Data_Shared_All_Tokens
  | Data_Owner
  | Data_Owner_All_Tokens
  | Ack
  | Ack_All_Tokens
  | Transient_GETX
  | Transient_GETS
  | Persistent_GETX
  | Persistent_GETS
  | Own_Lock_or_Unlock
  | Request_Timeout
  | Use_Timeout
  deriving DecidableEq, Repr

structure Entry (D : Type) where
  permission : AccessPermission
  dataBlk : D
  cacheState : State
  dirty : Bool
  tokens : ℕ
  deriving DecidableEq

/-- An entry as `allocate` leaves it. -/
def Entry.blank {D : Type} [Inhabited D] : Entry D :=
  { permission := .Invalid, dataBlk := default, cacheState := .I, dirty := false, tokens := 0 }

end L1Cache

/-- What a cache holds of the block. -/
structure L1Cache (D : Type) where
  memories : CacheHierarchy (L1Cache.Entry D) := {}
  tbeState : Option L1Cache.State := none
  useTimer : Bool := false
  deriving DecidableEq

namespace L1Cache
variable {ι D : Type} [LinearOrder ι]

def getCacheEntry (c : L1Cache D) : Option (Entry D) := c.memories.getCacheEntry

def modifyEntry (f : Entry D → Entry D) (c : L1Cache D) : L1Cache D :=
  { c with memories := c.memories.modifyEntry f }

def getTokens (c : L1Cache D) : ℕ := (c.getCacheEntry.map (·.tokens)).getD 0

def getState (id : ι) (table : PersistentTable ι) (c : L1Cache D) : Except Failure State :=
  if c.memories.exclusive then
    match c.tbeState, c.getCacheEntry with
    | some state, _ => .ok state
    | none, some entry => .ok entry.cacheState
    | none, none =>
        if table.isLocked && table.findSmallest ≠ some id then .ok .I_L else .ok .NP
  else .error .assertion

def State.permission : State → AccessPermission
  | .MM | .MM_W => .Read_Write
  | .S | .O | .M | .M_W | .SM | .SM_L | .OM => .Read_Only
  | _ => .Invalid

/-- With a request under way that may time out. -/
def State.requesting : State → Bool
  | .IS | .IM | .SM | .OM | .IS_L | .IM_L | .SM_L => true
  | _ => false

def timersAsserted (threshold : ℕ) (tbe : Option TokenTBE) (reissueTimer useTimer : Bool)
    (state : State) : Bool :=
  (if useTimer then state = .M_W || state = .MM_W else state ≠ .M_W && state ≠ .MM_W) &&
  (if reissueTimer then state.requesting
    else match tbe with
      | some tbe => if tbe.issueCount < threshold then !state.requesting else true
      | none => true) &&
  (match tbe with
    | some tbe => if tbe.issueCount > threshold then !reissueTimer else true
    | none => true)

/-- What `setState` asserts of an entry. The check on states that are both O and OM is in the
code, and says nothing. -/
def tokensAsserted (id : ι) (table : PersistentTable ι) (state : State) (tokens : ℕ) : Bool :=
  decide (tokens ≤ max_tokens) &&
  (match state with
    | .I_L | .IM_L | .IS_L =>
        tokens = 0 && table.isLocked && table.findSmallest ≠ some id
    | .S_L | .SM_L =>
        tokens = 1 && table.isLocked && table.findSmallest ≠ some id &&
          table.typeOfSmallest = .Read
    | _ => if table.isLocked then table.findSmallest = some id else true) &&
  (if state = .MM || state = .M || state = .MM_W || state = .M_W then tokens = max_tokens
    else true) &&
  (if state = .NP then tokens = 0 else true) &&
  (if state = .S || state = .SM then decide (tokens > 0) else true) &&
  (if state = .O && state = .OM then decide (tokens ≥ 1 ∧ tokens ≥ max_tokens / 2) else true)

def asserted (threshold : ℕ) (id : ι) (arb : PersistentArbitration ι) (state : State)
    (c : L1Cache D) : Bool :=
  c.memories.exclusive &&
  timersAsserted threshold (arb.tbes id) (arb.reissueTimer id) c.useTimer state &&
  (if c.tbeState.isSome then
    state ≠ .I && state ≠ .S && state ≠ .O && state ≠ .MM && state ≠ .M else true) &&
  (match c.getCacheEntry with
    | some entry => tokensAsserted id (arb.tables (.cache id)) state entry.tokens
    | none => true)

def setState (threshold : ℕ) (id : ι) (arb : PersistentArbitration ι) (state : State)
    (c : L1Cache D) : Except Failure (L1Cache D) :=
  if asserted threshold id arb state c then
    .ok ({ c with tbeState := c.tbeState.map fun _ => state }.modifyEntry
      fun entry => { entry with cacheState := state, permission := state.permission })
  else .error .assertion

inductive Action
  | a_issueRequest
  | b_bounceResponse
  | c_cleanReplacement
  | cc_dirtyReplacement
  | d_sendDataWithToken
  | dd_sendDataWithAllTokens
  | e_sendAckWithCollectedTokens
  | ee_sendDataWithAllTokens
  | f_sendAckWithAllButOneTokens
  | ff_sendDataWithAllButOneTokens
  | g_bounceResponseToStarver
  | h_load_hit
  | hh_store_hit
  | i_allocateTBE
  | j_unsetReissueTimer
  | jj_unsetUseTimer
  | k_popMandatoryQueue
  | l_popPersistentQueue
  | m_popRequestQueue
  | n_popResponseQueue
  | o_scheduleUseTimeout
  | q_updateTokensFromResponse
  | s_deallocateTBE
  | t_sendAckWithCollectedTokens
  | u_writeDataToCache
  | gg_deallocateL1CacheBlock
  | ii_allocateL1DCacheBlock
  | pp_allocateL1ICacheBlock
  | vv_allocateL2CacheBlock
  | rr_deallocateL2CacheBlock
  | ss_copyFromL1toL2
  | tt_copyFromL2toL1
  | uu_profileMiss
  | w_assertIncomingDataAndCacheDataMatch
  | x_completionOwner
  | xx_completionExclusive
  | yy_completionShared
  | zz_recycleMandatoryQueue
  deriving DecidableEq, Repr

/-- The message at the head of the port that triggers the event. -/
inductive InMsg (ι D : Type)
  | timer
  | persistent (p : ι)
  | request (m : RequestMsg ι)
  | response (m : ResponseMsg ι D)
  | mandatory (type : CacheRequestType)

/-- A transition under way: the cache, and what it has sent. `driver` is what the driver makes
of the block in a store, `prediction` what the predictor says. -/
structure Context (ι D : Type) where
  id : ι
  driver : D → D
  prediction : Finset ι
  inMsg : InMsg ι D
  arb : PersistentArbitration ι
  cache : L1Cache D
  popped : Bool := false
  requests : Multiset (NodeID ι × RequestMsg ι) := 0
  responses : Multiset (NodeID ι × ResponseMsg ι D) := 0
  completions : Multiset (CompletionMsg ι) := 0

namespace Context

/-- `peek` finds the message. -/
def requestMsg (x : Context ι D) : Except Failure (RequestMsg ι) :=
  match x.inMsg with
  | .request m => .ok m
  | _ => .error .assertion

def responseMsg (x : Context ι D) : Except Failure (ResponseMsg ι D) :=
  match x.inMsg with
  | .response m => .ok m
  | _ => .error .assertion

def entry (x : Context ι D) : Except Failure (Entry D) :=
  match x.cache.getCacheEntry with
  | some entry => .ok entry
  | none => .error .assertion

def findSmallest (x : Context ι D) : Option ι := (x.arb.tables (.cache x.id)).findSmallest

/-- A starving node other than this one. -/
def starver (x : Context ι D) : Except Failure ι :=
  match x.findSmallest with
  | some p => if p = x.id then .error .assertion else .ok p
  | none => .error .assertion

def setTokens (tokens : ℕ) (x : Context ι D) : Context ι D :=
  { x with cache := x.cache.modifyEntry fun entry => { entry with tokens := tokens } }

def sendResponse (dest : NodeID ι) (m : ResponseMsg ι D) (x : Context ι D) : Context ι D :=
  { x with responses := (dest, m) ::ₘ x.responses }

def setMemories (x : Context ι D) : Option (CacheHierarchy (Entry D)) → Except Failure (Context ι D)
  | some memories => .ok { x with cache.memories := memories }
  | none => .error .assertion

end Context

def accessType : CacheRequestType → AccessType
  | .LD | .IFETCH => .Read
  | .ST | .ATOMIC => .Write

variable [Inhabited D]

/-- A control message with tokens. -/
def ack (x : Context ι D) (tokens : ℕ) (size : MessageSizeType) : ResponseMsg ι D :=
  { type := .ACK, sender := .cache x.id, tokens := tokens, dataBlk := default, dirty := false,
    messageSize := size }

def data (x : Context ι D) (type : CoherenceResponseType) (entry : Entry D) (tokens : ℕ)
    (size : MessageSizeType) : ResponseMsg ι D :=
  { type := type, sender := .cache x.id, tokens := tokens, dataBlk := entry.dataBlk,
    dirty := entry.dirty, messageSize := size }

/-- Every token the entry has, if it has any. -/
def sendCollectedTokens (dest : NodeID ι) (size : MessageSizeType) (entry : Entry D)
    (x : Context ι D) : Context ι D :=
  if entry.tokens > 0 then (x.sendResponse dest (ack x entry.tokens size)).setTokens 0
  else x.setTokens 0

def issueRequest (cfg : Config) (tbe : TokenTBE) (x : Context ι D) :
    Except Failure (Context ι D) :=
  let arb := x.arb.a_issueRequest cfg.tokenReissueThreshold x.id tbe
  -- a timer that is set is not set again, nor left set with a persistent request
  if x.arb.reissueTimer x.id || arb.failed then .error .assertion
  else
    let x := { x with arb := arb }
    if tbe.issueCount < cfg.tokenReissueThreshold then
      let m : RequestMsg ι :=
        { type := if tbe.accessType = .Read then .GETS else .GETX
          requestor := x.id
          destination := (insert .directory (x.prediction.image .cache)).erase (.cache x.id) }
      .ok { x with requests := m.copies + x.requests }
    else .ok x

def deallocateTBE (cfg : Config) (tbe : TokenTBE) (x : Context ι D) :
    Except Failure (Context ι D) :=
  let arb := x.arb.s_deallocateTBE cfg.tokenReissueThreshold x.id tbe
  if arb.failed then .error .assertion
  else .ok { x with arb := arb, cache.tbeState := none }

def completion (cfg : Config) (result : CoherenceCompletionType) (x : Context ι D) :
    Context ι D :=
  if cfg.tokenCompletionEnabled then
    { x with completions := { result := result, sender := x.id } ::ₘ x.completions }
  else x

def Action.perform [DecidableEq D] (cfg : Config) (x : Context ι D) :
    Action → Except Failure (Context ι D)
  | .a_issueRequest =>
      match x.arb.tbes x.id with
      | some tbe => issueRequest cfg tbe x
      | none => .error .assertion
  | .b_bounceResponse => do
      let inMsg ← x.responseMsg
      .ok (x.sendResponse .directory { inMsg with sender := .cache x.id })
  | .c_cleanReplacement => do
      let entry ← x.entry
      .ok (if entry.tokens > 0 then sendCollectedTokens .directory .Writeback_Control entry x else x)
  | .cc_dirtyReplacement => do
      let entry ← x.entry
      let m := if entry.dirty then data x .DATA_OWNER entry entry.tokens .Writeback_Data
        else data x .ACK_OWNER entry entry.tokens .Writeback_Control
      .ok ((x.sendResponse .directory m).setTokens 0)
  | .d_sendDataWithToken => do
      let inMsg ← x.requestMsg
      let entry ← x.entry
      if entry.tokens - 1 ≥ 1 then
        .ok ((x.sendResponse (.cache inMsg.requestor)
          (data x .DATA_SHARED entry 1 .Response_Data)).setTokens (entry.tokens - 1))
      else .error .tokenCount
  | .dd_sendDataWithAllTokens => do
      let inMsg ← x.requestMsg
      let entry ← x.entry
      if entry.tokens ≥ 1 then
        .ok ((x.sendResponse (.cache inMsg.requestor)
          (data x .DATA_OWNER entry entry.tokens .Response_Data)).setTokens 0)
      else .error .tokenCount
  | .e_sendAckWithCollectedTokens => do
      let starver ← x.starver
      let entry ← x.entry
      .ok (sendCollectedTokens (.cache starver) .Response_Control entry x)
  | .ee_sendDataWithAllTokens => do
      let starver ← x.starver
      let entry ← x.entry
      if entry.tokens > 0 then
        .ok ((x.sendResponse (.cache starver)
          (data x .DATA_OWNER entry entry.tokens .Response_Data)).setTokens 0)
      else .error .tokenCount
  | .f_sendAckWithAllButOneTokens => do
      let starver ← x.starver
      let entry ← x.entry
      if entry.tokens > 0 then
        let x := if entry.tokens > 1 then
            x.sendResponse (.cache starver) (ack x (entry.tokens - 1) .Response_Control)
          else x
        .ok (x.setTokens 1)
      else .error .tokenCount
  | .ff_sendDataWithAllButOneTokens => do
      let starver ← x.starver
      let entry ← x.entry
      if entry.tokens > 0 then
        .ok (if entry.tokens > 1 then
            (x.sendResponse (.cache starver)
              (data x .DATA_OWNER entry (entry.tokens - 1) .Response_Data)).setTokens 1
          else x)
      else .error .tokenCount
  | .g_bounceResponseToStarver => do
      let starver ← x.starver
      let inMsg ← x.responseMsg
      .ok (x.sendResponse (.cache starver) { inMsg with sender := .cache x.id })
  | .h_load_hit => do
      let _ ← x.entry
      .ok x
  | .hh_store_hit => do
      let _ ← x.entry
      .ok { x with
        cache := x.cache.modifyEntry fun entry =>
          { entry with dataBlk := x.driver entry.dataBlk, dirty := true } }
  | .i_allocateTBE =>
      match x.inMsg, x.cache.tbeState with
      | .mandatory type, none =>
          .ok { x with
            arb := x.arb.setTBE x.id (some { issueCount := 0, accessType := accessType type })
            cache.tbeState := some .I }
      | _, _ => .error .assertion
  | .j_unsetReissueTimer => .ok { x with arb := x.arb.setReissueTimer x.id false }
  | .jj_unsetUseTimer =>
      if x.cache.useTimer then .ok { x with cache.useTimer := false } else .error .assertion
  | .k_popMandatoryQueue => .ok x
  | .l_popPersistentQueue | .m_popRequestQueue | .n_popResponseQueue => .ok { x with popped := true }
  | .o_scheduleUseTimeout =>
      if x.cache.useTimer then .error .assertion else .ok { x with cache.useTimer := true }
  | .q_updateTokensFromResponse => do
      let inMsg ← x.responseMsg
      let entry ← x.entry
      if inMsg.tokens ≠ 0 then .ok (x.setTokens (entry.tokens + inMsg.tokens))
      else .error .tokenCount
  | .s_deallocateTBE =>
      match x.arb.tbes x.id with
      | some tbe => deallocateTBE cfg tbe x
      | none => .error .assertion
  | .t_sendAckWithCollectedTokens => do
      let inMsg ← x.requestMsg
      let entry ← x.entry
      .ok (sendCollectedTokens (.cache inMsg.requestor) .Response_Control entry x)
  | .u_writeDataToCache => do
      let inMsg ← x.responseMsg
      let _ ← x.entry
      .ok { x with
        cache := x.cache.modifyEntry fun entry =>
          { entry with dataBlk := inMsg.dataBlk, dirty := inMsg.dirty } }
  | .gg_deallocateL1CacheBlock => x.setMemories x.cache.memories.deallocateL1
  | .ii_allocateL1DCacheBlock =>
      .ok { x with cache.memories := x.cache.memories.allocateL1D .blank }
  | .pp_allocateL1ICacheBlock =>
      .ok { x with cache.memories := x.cache.memories.allocateL1I .blank }
  | .vv_allocateL2CacheBlock => x.setMemories (x.cache.memories.allocateL2 .blank)
  | .rr_deallocateL2CacheBlock => x.setMemories x.cache.memories.deallocateL2
  | .ss_copyFromL1toL2 => x.setMemories x.cache.memories.copyFromL1toL2
  | .tt_copyFromL2toL1 => x.setMemories x.cache.memories.copyFromL2toL1
  | .uu_profileMiss => .ok x
  | .w_assertIncomingDataAndCacheDataMatch => do
      let inMsg ← x.responseMsg
      let entry ← x.entry
      if entry.dataBlk = inMsg.dataBlk then .ok x else .error .assertion
  | .x_completionOwner => .ok (completion cfg .Owned x)
  | .xx_completionExclusive => .ok (completion cfg .Exclusive x)
  | .yy_completionShared => .ok (completion cfg .Shared x)
  | .zz_recycleMandatoryQueue => .ok x

/-- The next state and the actions of a transition. -/
def transition : State → Event → Option (State × List Action)
  -- Transitions for Load/Store/L2_Replacement from transient states
  | .IM, .L2_Replacement => recycle .IM
  | .SM, .L2_Replacement => recycle .SM
  | .OM, .L2_Replacement => recycle .OM
  | .IS, .L2_Replacement => recycle .IS
  | .IM_L, .L2_Replacement => recycle .IM_L
  | .IS_L, .L2_Replacement => recycle .IS_L
  | .I_L, .L2_Replacement => recycle .I_L
  | .S_L, .L2_Replacement => recycle .S_L
  | .SM_L, .L2_Replacement => recycle .SM_L
  | .M_W, .L2_Replacement => recycle .M_W
  | .MM_W, .L2_Replacement => recycle .MM_W
  | .IM, .Store => recycle .IM
  | .SM, .Store => recycle .SM
  | .OM, .Store => recycle .OM
  | .IS, .Store => recycle .IS
  | .IM_L, .Store => recycle .IM_L
  | .IS_L, .Store => recycle .IS_L
  | .SM_L, .Store => recycle .SM_L
  | .IM, .Load | .IM, .Ifetch => recycle .IM
  | .IS, .Load | .IS, .Ifetch => recycle .IS
  | .IM_L, .Load | .IM_L, .Ifetch => recycle .IM_L
  | .IS_L, .Load | .IS_L, .Ifetch => recycle .IS_L
  | .IM, .L1_to_L2 | .IM, .L2_to_L1D | .IM, .L2_to_L1I => recycle .IM
  | .SM, .L1_to_L2 | .SM, .L2_to_L1D | .SM, .L2_to_L1I => recycle .SM
  | .OM, .L1_to_L2 | .OM, .L2_to_L1D | .OM, .L2_to_L1I => recycle .OM
  | .IS, .L1_to_L2 | .IS, .L2_to_L1D | .IS, .L2_to_L1I => recycle .IS
  | .I_L, .L1_to_L2 | .I_L, .L2_to_L1D | .I_L, .L2_to_L1I => recycle .I_L
  | .IM_L, .L1_to_L2 | .IM_L, .L2_to_L1D | .IM_L, .L2_to_L1I => recycle .IM_L
  | .IS_L, .L1_to_L2 | .IS_L, .L2_to_L1D | .IS_L, .L2_to_L1I => recycle .IS_L
  | .S_L, .L1_to_L2 | .S_L, .L2_to_L1D | .S_L, .L2_to_L1I => recycle .S_L
  | .SM_L, .L1_to_L2 | .SM_L, .L2_to_L1D | .SM_L, .L2_to_L1I => recycle .SM_L
  -- Transitions moving data between the L1 and L2 caches
  | .I, .L1_to_L2 => some (.I, moveToL2)
  | .S, .L1_to_L2 => some (.S, moveToL2)
  | .O, .L1_to_L2 => some (.O, moveToL2)
  | .M, .L1_to_L2 => some (.M, moveToL2)
  | .MM, .L1_to_L2 => some (.MM, moveToL2)
  | .M_W, .L1_to_L2 => some (.M_W, moveToL2)
  | .MM_W, .L1_to_L2 => some (.MM_W, moveToL2)
  | .I, .L2_to_L1D => some (.I, moveToL1D)
  | .S, .L2_to_L1D => some (.S, moveToL1D)
  | .O, .L2_to_L1D => some (.O, moveToL1D)
  | .M, .L2_to_L1D => some (.M, moveToL1D)
  | .MM, .L2_to_L1D => some (.MM, moveToL1D)
  | .M_W, .L2_to_L1D => some (.M_W, moveToL1D)
  | .MM_W, .L2_to_L1D => some (.MM_W, moveToL1D)
  | .I, .L2_to_L1I => some (.I, moveToL1I)
  | .S, .L2_to_L1I => some (.S, moveToL1I)
  | .O, .L2_to_L1I => some (.O, moveToL1I)
  | .M, .L2_to_L1I => some (.M, moveToL1I)
  | .MM, .L2_to_L1I => some (.MM, moveToL1I)
  | .M_W, .L2_to_L1I => some (.M_W, moveToL1I)
  | .MM_W, .L2_to_L1I => some (.MM_W, moveToL1I)
  -- Locks
  | .NP, .Own_Lock_or_Unlock => some (.NP, [.l_popPersistentQueue])
  | .I, .Own_Lock_or_Unlock => some (.I, [.l_popPersistentQueue])
  | .S, .Own_Lock_or_Unlock => some (.S, [.l_popPersistentQueue])
  | .O, .Own_Lock_or_Unlock => some (.O, [.l_popPersistentQueue])
  | .M, .Own_Lock_or_Unlock => some (.M, [.l_popPersistentQueue])
  | .MM, .Own_Lock_or_Unlock => some (.MM, [.l_popPersistentQueue])
  | .M_W, .Own_Lock_or_Unlock => some (.M_W, [.l_popPersistentQueue])
  | .MM_W, .Own_Lock_or_Unlock => some (.MM_W, [.l_popPersistentQueue])
  | .IM, .Own_Lock_or_Unlock => some (.IM, [.l_popPersistentQueue])
  | .SM, .Own_Lock_or_Unlock => some (.SM, [.l_popPersistentQueue])
  | .OM, .Own_Lock_or_Unlock => some (.OM, [.l_popPersistentQueue])
  | .IS, .Own_Lock_or_Unlock => some (.IS, [.l_popPersistentQueue])
  -- Transitions from NP
  | .NP, .Load => some (.IS, .ii_allocateL1DCacheBlock :: miss)
  | .NP, .Ifetch => some (.IS, .pp_allocateL1ICacheBlock :: miss)
  | .NP, .Store => some (.IM, .ii_allocateL1DCacheBlock :: miss)
  | .NP, .Ack | .NP, .Data_Shared | .NP, .Data_Owner | .NP, .Data_Owner_All_Tokens =>
      some (.NP, [.b_bounceResponse, .n_popResponseQueue])
  | .NP, .Transient_GETX | .NP, .Transient_GETS => some (.NP, [.m_popRequestQueue])
  | .NP, .Persistent_GETX | .NP, .Persistent_GETS => some (.I_L, [.l_popPersistentQueue])
  -- Transitions from Idle
  | .I, .Load | .I, .Ifetch => some (.IS, miss)
  | .I, .Store => some (.IM, miss)
  | .I, .L2_Replacement => some (.I, [.c_cleanReplacement, .rr_deallocateL2CacheBlock])
  | .I, .Transient_GETX => some (.I, [.t_sendAckWithCollectedTokens, .m_popRequestQueue])
  | .I, .Transient_GETS => some (.I, [.m_popRequestQueue])
  | .I, .Persistent_GETX | .I, .Persistent_GETS =>
      some (.I_L, [.e_sendAckWithCollectedTokens, .l_popPersistentQueue])
  | .I_L, .Persistent_GETX | .I_L, .Persistent_GETS => some (.I_L, [.l_popPersistentQueue])
  | .I, .Ack => some (.I, collect)
  | .I, .Data_Shared =>
      some (.S, [.u_writeDataToCache, .q_updateTokensFromResponse, .yy_completionShared,
        .n_popResponseQueue])
  | .I, .Data_Owner =>
      some (.O, [.u_writeDataToCache, .q_updateTokensFromResponse, .x_completionOwner,
        .n_popResponseQueue])
  | .I, .Data_Owner_All_Tokens =>
      some (.M, [.u_writeDataToCache, .q_updateTokensFromResponse, .xx_completionExclusive,
        .n_popResponseQueue])
  -- Transitions from Shared
  | .S, .Load | .S, .Ifetch => some (.S, hit)
  | .SM, .Load | .SM, .Ifetch => some (.SM, hit)
  | .S_L, .Load | .S_L, .Ifetch => some (.S_L, hit)
  | .SM_L, .Load | .SM_L, .Ifetch => some (.SM_L, hit)
  | .S, .Store => some (.SM, miss)
  | .S, .L2_Replacement => some (.I, [.c_cleanReplacement, .rr_deallocateL2CacheBlock])
  | .S, .Transient_GETX => some (.I, [.t_sendAckWithCollectedTokens, .m_popRequestQueue])
  | .S, .Transient_GETS => some (.S, [.m_popRequestQueue])
  | .S, .Persistent_GETX | .S_L, .Persistent_GETX =>
      some (.I_L, [.e_sendAckWithCollectedTokens, .l_popPersistentQueue])
  | .S, .Persistent_GETS =>
      some (.S_L, [.f_sendAckWithAllButOneTokens, .l_popPersistentQueue])
  | .S_L, .Persistent_GETS => some (.S_L, [.l_popPersistentQueue])
  | .S, .Ack => some (.S, collect)
  | .S, .Data_Shared => some (.S, .w_assertIncomingDataAndCacheDataMatch :: collect)
  | .S, .Data_Owner =>
      some (.O, [.w_assertIncomingDataAndCacheDataMatch, .q_updateTokensFromResponse,
        .x_completionOwner, .n_popResponseQueue])
  | .S, .Data_Owner_All_Tokens =>
      some (.M, [.w_assertIncomingDataAndCacheDataMatch, .q_updateTokensFromResponse,
        .xx_completionExclusive, .n_popResponseQueue])
  -- Transitions from Owned
  | .O, .Load | .O, .Ifetch => some (.O, hit)
  | .OM, .Load | .OM, .Ifetch => some (.OM, hit)
  | .O, .Store => some (.OM, miss)
  | .O, .L2_Replacement => some (.I, [.cc_dirtyReplacement, .rr_deallocateL2CacheBlock])
  | .O, .Transient_GETX => some (.I, [.dd_sendDataWithAllTokens, .m_popRequestQueue])
  | .O, .Persistent_GETX => some (.I_L, [.ee_sendDataWithAllTokens, .l_popPersistentQueue])
  | .O, .Persistent_GETS =>
      some (.S_L, [.ff_sendDataWithAllButOneTokens, .l_popPersistentQueue])
  | .O, .Transient_GETS => some (.O, [.d_sendDataWithToken, .m_popRequestQueue])
  | .O, .Ack => some (.O, collect)
  | .O, .Ack_All_Tokens =>
      some (.M, [.q_updateTokensFromResponse, .xx_completionExclusive, .n_popResponseQueue])
  | .O, .Data_Shared => some (.O, .w_assertIncomingDataAndCacheDataMatch :: collect)
  | .O, .Data_Shared_All_Tokens =>
      some (.M, [.w_assertIncomingDataAndCacheDataMatch, .q_updateTokensFromResponse,
        .xx_completionExclusive, .n_popResponseQueue])
  -- Transitions from Modified
  | .MM, .Load | .MM, .Ifetch => some (.MM, hit)
  | .MM_W, .Load | .MM_W, .Ifetch => some (.MM_W, hit)
  | .MM, .Store => some (.MM, storeHit)
  | .MM_W, .Store => some (.MM_W, storeHit)
  | .MM, .L2_Replacement => some (.I, [.cc_dirtyReplacement, .rr_deallocateL2CacheBlock])
  | .MM, .Transient_GETX | .MM, .Transient_GETS =>
      some (.I, [.dd_sendDataWithAllTokens, .m_popRequestQueue])
  | .MM_W, .Transient_GETX | .MM_W, .Transient_GETS => some (.MM_W, [.m_popRequestQueue])
  -- the migratory sharing optimization, even for persistent requests
  | .MM, .Persistent_GETX | .MM, .Persistent_GETS =>
      some (.I_L, [.ee_sendDataWithAllTokens, .l_popPersistentQueue])
  | .MM_W, .Persistent_GETX | .MM_W, .Persistent_GETS =>
      some (.I_L, [.s_deallocateTBE, .ee_sendDataWithAllTokens, .jj_unsetUseTimer,
        .l_popPersistentQueue])
  | .MM_W, .Use_Timeout => some (.MM, [.s_deallocateTBE, .jj_unsetUseTimer])
  -- Transitions from Dirty Exclusive
  | .M, .Load | .M, .Ifetch => some (.M, hit)
  | .M_W, .Load | .M_W, .Ifetch => some (.M_W, hit)
  | .M, .Store => some (.MM, storeHit)
  | .M_W, .Store => some (.MM_W, storeHit)
  | .M, .L2_Replacement => some (.I, [.cc_dirtyReplacement, .rr_deallocateL2CacheBlock])
  | .M, .Transient_GETX => some (.I, [.dd_sendDataWithAllTokens, .m_popRequestQueue])
  | .M, .Transient_GETS => some (.O, [.d_sendDataWithToken, .m_popRequestQueue])
  | .M_W, .Transient_GETX | .M_W, .Transient_GETS => some (.M_W, [.m_popRequestQueue])
  | .M, .Persistent_GETX => some (.I_L, [.ee_sendDataWithAllTokens, .l_popPersistentQueue])
  | .M, .Persistent_GETS =>
      some (.S_L, [.ff_sendDataWithAllButOneTokens, .l_popPersistentQueue])
  | .M_W, .Persistent_GETX =>
      some (.I_L, [.s_deallocateTBE, .ee_sendDataWithAllTokens, .jj_unsetUseTimer,
        .l_popPersistentQueue])
  | .M_W, .Persistent_GETS =>
      some (.S_L, [.s_deallocateTBE, .ff_sendDataWithAllButOneTokens, .jj_unsetUseTimer,
        .l_popPersistentQueue])
  | .M_W, .Use_Timeout => some (.M, [.s_deallocateTBE, .jj_unsetUseTimer])
  -- Transient_GETX and Transient_GETS in transient states
  | .OM, .Transient_GETX | .OM, .Transient_GETS => some (.OM, [.m_popRequestQueue])
  | .IS, .Transient_GETX => some (.IS, [.t_sendAckWithCollectedTokens, .m_popRequestQueue])
  | .IS, .Transient_GETS => some (.IS, [.m_popRequestQueue])
  | .IS, .Persistent_GETX | .IS, .Persistent_GETS =>
      some (.IS_L, [.e_sendAckWithCollectedTokens, .l_popPersistentQueue])
  | .IS_L, .Persistent_GETX | .IS_L, .Persistent_GETS => some (.IS_L, [.l_popPersistentQueue])
  | .IM, .Persistent_GETX | .IM, .Persistent_GETS =>
      some (.IM_L, [.e_sendAckWithCollectedTokens, .l_popPersistentQueue])
  | .IM_L, .Persistent_GETX | .IM_L, .Persistent_GETS => some (.IM_L, [.l_popPersistentQueue])
  | .SM, .Persistent_GETX | .SM_L, .Persistent_GETX =>
      some (.IM_L, [.e_sendAckWithCollectedTokens, .l_popPersistentQueue])
  | .SM, .Persistent_GETS =>
      some (.SM_L, [.f_sendAckWithAllButOneTokens, .l_popPersistentQueue])
  | .SM_L, .Persistent_GETS => some (.SM_L, [.l_popPersistentQueue])
  | .OM, .Persistent_GETX => some (.IM_L, [.ee_sendDataWithAllTokens, .l_popPersistentQueue])
  | .OM, .Persistent_GETS =>
      some (.SM_L, [.ff_sendDataWithAllButOneTokens, .l_popPersistentQueue])
  -- Transitions from IM/SM
  | .IM, .Ack => some (.IM, collect)
  | .SM, .Ack => some (.SM, collect)
  | .IM, .Data_Shared => some (.SM, .u_writeDataToCache :: collect)
  | .IM, .Data_Owner => some (.OM, .u_writeDataToCache :: collect)
  | .IM, .Data_Owner_All_Tokens => some (.MM_W, .u_writeDataToCache :: complete)
  | .SM, .Data_Shared => some (.SM, .w_assertIncomingDataAndCacheDataMatch :: collect)
  | .SM, .Data_Owner => some (.OM, .w_assertIncomingDataAndCacheDataMatch :: collect)
  | .SM, .Data_Owner_All_Tokens =>
      some (.MM_W, .w_assertIncomingDataAndCacheDataMatch :: complete)
  | .IM, .Transient_GETX | .SM, .Transient_GETX =>
      some (.IM, [.t_sendAckWithCollectedTokens, .m_popRequestQueue])
  | .IM, .Transient_GETS => some (.IM, [.m_popRequestQueue])
  | .SM, .Transient_GETS => some (.SM, [.m_popRequestQueue])
  | .IM, .Request_Timeout => some (.IM, reissue)
  | .SM, .Request_Timeout => some (.SM, reissue)
  -- Transitions from OM
  | .OM, .Ack => some (.OM, collect)
  | .OM, .Ack_All_Tokens => some (.MM_W, complete)
  | .OM, .Data_Shared => some (.OM, .w_assertIncomingDataAndCacheDataMatch :: collect)
  | .OM, .Data_Shared_All_Tokens =>
      some (.MM_W, .w_assertIncomingDataAndCacheDataMatch :: complete)
  | .OM, .Request_Timeout => some (.OM, reissue)
  -- Transitions from IS
  | .IS, .Ack => some (.IS, collect)
  | .IS, .Data_Shared =>
      some (.S, [.u_writeDataToCache, .q_updateTokensFromResponse, .h_load_hit,
        .yy_completionShared, .s_deallocateTBE, .j_unsetReissueTimer, .n_popResponseQueue])
  | .IS, .Data_Owner =>
      some (.O, [.u_writeDataToCache, .q_updateTokensFromResponse, .h_load_hit,
        .x_completionOwner, .s_deallocateTBE, .j_unsetReissueTimer, .n_popResponseQueue])
  | .IS, .Data_Owner_All_Tokens =>
      some (.M_W, [.u_writeDataToCache, .q_updateTokensFromResponse, .h_load_hit,
        .xx_completionExclusive, .o_scheduleUseTimeout, .j_unsetReissueTimer,
        .n_popResponseQueue])
  | .IS, .Request_Timeout => some (.IS, reissue)
  -- Transitions from I_L
  | .I_L, .Load => some (.IS_L, .ii_allocateL1DCacheBlock :: miss)
  | .I_L, .Ifetch => some (.IS_L, .pp_allocateL1ICacheBlock :: miss)
  | .I_L, .Store => some (.IM_L, .ii_allocateL1DCacheBlock :: miss)
  -- Transitions from S_L
  | .S_L, .Store => some (.SM_L, miss)
  -- Other transitions from *_L states
  | .I_L, .Transient_GETS | .I_L, .Transient_GETX => some (.I_L, [.m_popRequestQueue])
  | .IM_L, .Transient_GETS | .IM_L, .Transient_GETX => some (.IM_L, [.m_popRequestQueue])
  | .IS_L, .Transient_GETS | .IS_L, .Transient_GETX => some (.IS_L, [.m_popRequestQueue])
  | .S_L, .Transient_GETS | .S_L, .Transient_GETX => some (.S_L, [.m_popRequestQueue])
  | .SM_L, .Transient_GETS | .SM_L, .Transient_GETX => some (.SM_L, [.m_popRequestQueue])
  | .IS_L, .Ack => some (.IS_L, bounce)
  | .I_L, .Ack | .I_L, .Data_Shared | .I_L, .Data_Owner => some (.I_L, bounce)
  | .IM_L, .Ack | .IM_L, .Data_Shared | .IM_L, .Data_Owner => some (.IM_L, bounce)
  | .S_L, .Ack | .S_L, .Data_Shared | .S_L, .Data_Owner => some (.S_L, bounce)
  | .SM_L, .Ack | .SM_L, .Data_Shared | .SM_L, .Data_Owner => some (.SM_L, bounce)
  | .I_L, .Data_Owner_All_Tokens => some (.I_L, bounce)
  | .S_L, .Data_Owner_All_Tokens => some (.S_L, bounce)
  | .IS_L, .Request_Timeout => some (.IS_L, reissue)
  | .IM_L, .Request_Timeout => some (.IM_L, reissue)
  | .SM_L, .Request_Timeout => some (.SM_L, reissue)
  -- with the data and the tokens, the request is completed, and the data sent on
  | .IM_L, .Data_Owner_All_Tokens =>
      some (.I_L, [.u_writeDataToCache, .q_updateTokensFromResponse, .hh_store_hit,
        .ee_sendDataWithAllTokens, .s_deallocateTBE, .j_unsetReissueTimer, .n_popResponseQueue])
  | .SM_L, .Data_Owner_All_Tokens =>
      some (.S_L, [.u_writeDataToCache, .q_updateTokensFromResponse, .hh_store_hit,
        .ff_sendDataWithAllButOneTokens, .s_deallocateTBE, .j_unsetReissueTimer,
        .n_popResponseQueue])
  | .IS_L, .Data_Shared =>
      some (.I_L, [.u_writeDataToCache, .q_updateTokensFromResponse, .h_load_hit,
        .s_deallocateTBE, .e_sendAckWithCollectedTokens, .j_unsetReissueTimer,
        .j_unsetReissueTimer, .n_popResponseQueue])
  | .IS_L, .Data_Owner | .IS_L, .Data_Owner_All_Tokens =>
      some (.I_L, [.u_writeDataToCache, .q_updateTokensFromResponse, .h_load_hit,
        .ee_sendDataWithAllTokens, .s_deallocateTBE, .j_unsetReissueTimer, .n_popResponseQueue])
  -- Own_Lock_or_Unlock
  | .I_L, .Own_Lock_or_Unlock => some (.I, [.l_popPersistentQueue])
  | .S_L, .Own_Lock_or_Unlock => some (.S, [.l_popPersistentQueue])
  | .IM_L, .Own_Lock_or_Unlock => some (.IM, [.l_popPersistentQueue])
  | .IS_L, .Own_Lock_or_Unlock => some (.IS, [.l_popPersistentQueue])
  | .SM_L, .Own_Lock_or_Unlock => some (.SM, [.l_popPersistentQueue])
  | _, _ => none
where
  recycle (state : State) := some (state, [.zz_recycleMandatoryQueue])
  moveToL2 := [.vv_allocateL2CacheBlock, .ss_copyFromL1toL2, .gg_deallocateL1CacheBlock]
  moveToL1D := [.ii_allocateL1DCacheBlock, .tt_copyFromL2toL1, .rr_deallocateL2CacheBlock]
  moveToL1I := [.pp_allocateL1ICacheBlock, .tt_copyFromL2toL1, .rr_deallocateL2CacheBlock]
  miss := [.i_allocateTBE, .a_issueRequest, .uu_profileMiss, .k_popMandatoryQueue]
  hit := [.h_load_hit, .k_popMandatoryQueue]
  storeHit := [.hh_store_hit, .k_popMandatoryQueue]
  reissue := [.j_unsetReissueTimer, .a_issueRequest]
  collect := [.q_updateTokensFromResponse, .n_popResponseQueue]
  bounce := [.g_bounceResponseToStarver, .n_popResponseQueue]
  complete := [.q_updateTokensFromResponse, .hh_store_hit, .xx_completionExclusive,
    .o_scheduleUseTimeout, .j_unsetReissueTimer, .n_popResponseQueue]

def doTransition [DecidableEq D] (cfg : Config) (event : Event) (x : Context ι D) :
    Except Failure (Context ι D) := do
  let state ← x.cache.getState x.id (x.arb.tables (.cache x.id))
  match transition state event with
  | none => .error .invalidTransition
  | some (next, actions) => do
      let x ← actions.foldlM (Action.perform cfg) x
      let cache ← x.cache.setState cfg.tokenReissueThreshold x.id x.arb next
      .ok { x with cache := cache }

/-! In-ports -/

/-- The event of a persistent message, after it is applied to the table. -/
def persistentNetwork (id : ι) (table : PersistentTable ι) : Event :=
  if table.isLocked then
    if table.findSmallest = some id then .Own_Lock_or_Unlock
    else if table.typeOfSmallest = .Read then .Persistent_GETS
    else .Persistent_GETX
  else .Own_Lock_or_Unlock

def requestNetwork (id : ι) (m : RequestMsg ι) : Except Failure Event :=
  if m.requestor = id then .error .assertion
  else
    match m.type with
    | .GETX => .ok .Transient_GETX
    | .GETS => .ok .Transient_GETS

def responseNetwork (c : L1Cache D) (m : ResponseMsg ι D) : Except Failure Event :=
  if c.getTokens + m.tokens ≠ max_tokens then
    match m.type with
    | .ACK => .ok .Ack
    | .DATA_OWNER => .ok .Data_Owner
    | .DATA_SHARED => .ok .Data_Shared
    | .ACK_OWNER => .error .invalidTransition
  else
    match m.type with
    | .ACK => .ok .Ack_All_Tokens
    | .DATA_OWNER => .ok .Data_Owner_All_Tokens
    | .DATA_SHARED => .ok .Data_Shared_All_Tokens
    | .ACK_OWNER => .error .invalidTransition

def mandatory_request_type_to_event : CacheRequestType → Event
  | .LD => .Load
  | .IFETCH => .Ifetch
  | .ST | .ATOMIC => .Store

def demandEvent : CacheHierarchy.Demand → Event
  | .request type => mandatory_request_type_to_event type
  | .L1_to_L2 => .L1_to_L2
  | .L2_to_L1D => .L2_to_L1D
  | .L2_to_L1I => .L2_to_L1I
  | .L2_Replacement => .L2_Replacement

/-- The fast path of the sequencer: a hit in the first level, without an event for the
controller. -/
def tryCacheAccess (type : CacheRequestType) (c : L1Cache D) : Bool :=
  match if type = .IFETCH then c.memories.l1I else c.memories.l1D with
  | none => false
  | some entry =>
      entry.permission = .Read_Write ||
        (entry.permission = .Read_Only && (type = .LD || type = .IFETCH))

end L1Cache
end Token
end FeS2.Ruby
