import FeS2.Ruby.Messages

/-!
The cache controller of the directory protocol, seen from one block. The table
of transitions and the actions are those of the specification; a missing
transition, a failed assertion and a look-up of what is not there are errors,
`none`. Which other blocks share the sets of this one, and whether there are
free TBEs and buffer slots, is up to the environment.
-/

namespace FeS2.Ruby

namespace L1Cache

inductive State
  | NP
  | I
  | S
  | O_C
  | O_D
  | E
  | M
  | MM
  | IM
  | SM
  | OM
  | IS
  | II
  deriving DecidableEq, Repr

inductive Event
  | Load
  | Ifetch
  | Store
  | L2_Replacement
  | L1_to_L2
  | L2_to_L1D
  | L2_to_L1I
  | Own_GETX
  | Fwd_GETX
  | Fwd_GETS
  | Inv
  | Ack
  | Data
  | Exclusive_Data_Clean
  | Exclusive_Data_Dirty
  | Writeback_Ack
  | All_acks
  deriving DecidableEq, Repr

structure Entry (D : Type) where
  permission : AccessPermission
  dataBlk : D
  cacheState : State
  deriving DecidableEq

structure TBE (D : Type) where
  tbeState : State
  dataBlk : D
  numPendingMsgs : Int
  deriving DecidableEq

end L1Cache

/-- What a cache holds of the block. `triggerQueue` counts its ALL_ACKS messages. -/
structure L1Cache (D : Type) where
  l1I : Option (L1Cache.Entry D) := none
  l1D : Option (L1Cache.Entry D) := none
  l2 : Option (L1Cache.Entry D) := none
  tbe : Option (L1Cache.TBE D) := none
  triggerQueue : Nat := 0
  deriving DecidableEq

namespace L1Cache
variable {ι D : Type}

def getCacheEntry (c : L1Cache D) : Option (Entry D) :=
  if c.l2.isSome then c.l2 else if c.l1D.isSome then c.l1D else c.l1I

/-- Writes through the reference that `getCacheEntry` returns. -/
def setCacheEntry (f : Entry D → Entry D) (c : L1Cache D) : L1Cache D :=
  if c.l2.isSome then { c with l2 := c.l2.map f }
  else if c.l1D.isSome then { c with l1D := c.l1D.map f }
  else { c with l1I := c.l1I.map f }

/-- The three assertions of `getState` and `setState`. -/
def exclusive (c : L1Cache D) : Bool :=
  !(c.l1D.isSome && c.l1I.isSome) && !(c.l1I.isSome && c.l2.isSome) &&
    !(c.l1D.isSome && c.l2.isSome)

def getState (c : L1Cache D) : Option State :=
  if c.exclusive then
    match c.tbe with
    | some tbe => some tbe.tbeState
    | none =>
        match c.getCacheEntry with
        | some entry => some entry.cacheState
        | none => some .NP
  else none

def State.permission : State → AccessPermission
  | .MM => .Read_Write
  | .S | .O_C | .O_D | .M | .E | .SM | .OM => .Read_Only
  | _ => .Invalid

def setState (state : State) (c : L1Cache D) : Option (L1Cache D) :=
  if c.exclusive then
    some (({ c with tbe := c.tbe.map fun tbe => { tbe with tbeState := state } } : L1Cache D).setCacheEntry
      fun entry => { entry with cacheState := state, permission := state.permission })
  else none

inductive Action
  | a_issueGETS
  | b_issueGETX
  | d_issueCleanPUT
  | dd_issueDirtyPUT
  | e_sendData
  | ee_sendDataExclusive
  | f_sendAck
  | g_sendUnblock
  | gg_sendUnblockExclusive
  | h_load_hit
  | hh_store_hit
  | i_allocateTBE
  | j_popTriggerQueue
  | k_popMandatoryQueue
  | l_popForwardQueue
  | m_decrementNumberOfMessages
  | mm_decrementNumberOfMessages
  | n_popResponseQueue
  | o_checkForCompletion
  | q_sendDataFromTBEToCache
  | s_deallocateTBE
  | u_writeDataToCache
  | v_writeDataToCacheVerify
  | kk_deallocateL1CacheBlock
  | ii_allocateL1DCacheBlock
  | jj_allocateL1ICacheBlock
  | vv_allocateL2CacheBlock
  | pp_deallocateL2CacheBlock
  | ss_copyFromL1toL2
  | tt_copyFromL2toL1
  | uu_profileMiss
  | zz_recycleMandatoryQueue
  deriving DecidableEq, Repr

/-- The message at the head of the port that triggers the event. -/
inductive InMsg (ι D : Type)
  | trigger
  | forward (m : RequestMsg ι D)
  | response (m : ResponseMsg ι D)
  | mandatory

/-- A transition under way: the cache, what it has sent, and the hits it has
reported. `driver` is what the driver makes of the block in a store. -/
structure Context (ι D : Type) where
  id : ι
  driver : D → D
  inMsg : InMsg ι D
  cache : L1Cache D
  popped : Bool := false
  requests : List (RequestMsg ι D) := []
  responses : List (ι × ResponseMsg ι D) := []
  unblocks : List (ResponseMsg ι D) := []
  loads : List D := []
  stores : Nat := 0

namespace Context

def forwardMsg (x : Context ι D) : Option (RequestMsg ι D) :=
  match x.inMsg with
  | .forward m => some m
  | _ => none

def responseMsg (x : Context ι D) : Option (ResponseMsg ι D) :=
  match x.inMsg with
  | .response m => some m
  | _ => none

def sendRequest (m : RequestMsg ι D) (x : Context ι D) : Context ι D :=
  { x with requests := x.requests ++ [m] }

def sendResponse (dest : ι) (m : ResponseMsg ι D) (x : Context ι D) : Context ι D :=
  { x with responses := x.responses ++ [(dest, m)] }

def sendUnblock (m : ResponseMsg ι D) (x : Context ι D) : Context ι D :=
  { x with unblocks := x.unblocks ++ [m] }

end Context

/-- An entry as `allocate` leaves it. -/
def Entry.blank [Inhabited D] : Entry D :=
  { permission := .Invalid, dataBlk := default, cacheState := .I }

/-- Data for the requestor of a forwarded request. -/
def sendData (type : CoherenceResponseType) (data : D) (x : Context ι D) :
    Option (Context ι D) :=
  x.forwardMsg.map fun inMsg =>
    x.sendResponse inMsg.requestor
      { type := type, sender := .cache x.id, dataBlk := data, acks := inMsg.acks }

def decrement (acks : Int) (x : Context ι D) : Option (Context ι D) :=
  x.cache.tbe.map fun tbe =>
    { x with cache.tbe := some { tbe with numPendingMsgs := tbe.numPendingMsgs - acks } }

def Action.perform [DecidableEq D] [Inhabited D] (x : Context ι D) :
    Action → Option (Context ι D)
  | .a_issueGETS =>
      some (x.sendRequest { type := .GETS, requestor := x.id, dataBlk := default, acks := 0 })
  | .b_issueGETX =>
      some (x.sendRequest { type := .GETX, requestor := x.id, dataBlk := default, acks := 0 })
  | .d_issueCleanPUT =>
      x.cache.getCacheEntry.map fun entry =>
        x.sendRequest { type := .PUT_CLEAN, requestor := x.id, dataBlk := entry.dataBlk, acks := 0 }
  | .dd_issueDirtyPUT =>
      x.cache.getCacheEntry.map fun entry =>
        x.sendRequest { type := .PUT_DIRTY, requestor := x.id, dataBlk := entry.dataBlk, acks := 0 }
  | .e_sendData => x.cache.getCacheEntry.bind fun entry => sendData .DATA entry.dataBlk x
  | .ee_sendDataExclusive =>
      x.cache.getCacheEntry.bind fun entry => sendData .DATA_EXCLUSIVE_DIRTY entry.dataBlk x
  | .f_sendAck =>
      x.forwardMsg.map fun inMsg =>
        x.sendResponse inMsg.requestor
          { type := .ACK, sender := .cache x.id, dataBlk := default, acks := 0 - 1 }
  | .g_sendUnblock =>
      some (x.sendUnblock
        { type := .UNBLOCK, sender := .cache x.id, dataBlk := default, acks := 0 })
  | .gg_sendUnblockExclusive =>
      some (x.sendUnblock
        { type := .UNBLOCK_EXCLUSIVE, sender := .cache x.id, dataBlk := default, acks := 0 })
  | .h_load_hit =>
      x.cache.getCacheEntry.map fun entry => { x with loads := x.loads ++ [entry.dataBlk] }
  | .hh_store_hit =>
      x.cache.getCacheEntry.map fun _ =>
        { x with
          cache := x.cache.setCacheEntry fun entry => { entry with dataBlk := x.driver entry.dataBlk }
          stores := x.stores + 1 }
  | .i_allocateTBE =>
      x.cache.getCacheEntry.map fun entry =>
        { x with
          cache.tbe := some { tbeState := .I, dataBlk := entry.dataBlk, numPendingMsgs := 0 } }
  | .j_popTriggerQueue => some { x with cache.triggerQueue := x.cache.triggerQueue - 1 }
  | .k_popMandatoryQueue => some x
  | .l_popForwardQueue => some { x with popped := true }
  | .m_decrementNumberOfMessages => x.responseMsg.bind fun inMsg => decrement inMsg.acks x
  | .mm_decrementNumberOfMessages => x.forwardMsg.bind fun inMsg => decrement inMsg.acks x
  | .n_popResponseQueue => some { x with popped := true }
  | .o_checkForCompletion =>
      x.cache.tbe.map fun (tbe : TBE D) =>
        { x with cache.triggerQueue :=
            if tbe.numPendingMsgs = 0 then x.cache.triggerQueue + 1 else x.cache.triggerQueue }
  | .q_sendDataFromTBEToCache => x.cache.tbe.bind fun tbe => sendData .DATA tbe.dataBlk x
  | .s_deallocateTBE => x.cache.tbe.map fun _ => { x with cache.tbe := none }
  | .u_writeDataToCache =>
      x.cache.getCacheEntry.bind fun _ => x.responseMsg.map fun inMsg =>
        { x with cache := x.cache.setCacheEntry fun entry => { entry with dataBlk := inMsg.dataBlk } }
  | .v_writeDataToCacheVerify =>
      x.cache.getCacheEntry.bind fun entry => x.responseMsg.bind fun inMsg =>
        if entry.dataBlk = inMsg.dataBlk then
          some { x with
            cache := x.cache.setCacheEntry fun entry => { entry with dataBlk := inMsg.dataBlk } }
        else none
  | .kk_deallocateL1CacheBlock =>
      if x.cache.l1D.isSome then some { x with cache.l1D := none }
      else x.cache.l1I.map fun _ => { x with cache.l1I := none }
  | .ii_allocateL1DCacheBlock =>
      some (if x.cache.l1D.isSome then x else { x with cache.l1D := some .blank })
  | .jj_allocateL1ICacheBlock =>
      some (if x.cache.l1I.isSome then x else { x with cache.l1I := some .blank })
  | .vv_allocateL2CacheBlock =>
      if x.cache.l2.isSome then none else some { x with cache.l2 := some .blank }
  | .pp_deallocateL2CacheBlock => x.cache.l2.map fun _ => { x with cache.l2 := none }
  | .ss_copyFromL1toL2 =>
      if x.cache.l1D.isSome then some { x with cache.l2 := x.cache.l1D }
      else x.cache.l1I.map fun entry => { x with cache.l2 := some entry }
  | .tt_copyFromL2toL1 =>
      x.cache.l2.map fun entry =>
        if x.cache.l1D.isSome then { x with cache.l1D := some entry }
        else { x with cache.l1I := some entry }
  | .uu_profileMiss => some x
  | .zz_recycleMandatoryQueue => some x

/-- The next state and the actions of a transition. -/
def transition : State → Event → Option (State × List Action)
  -- Transitions for Load/Store/L2_Replacement from transient states
  | .IM, .Store => some (.IM, [.zz_recycleMandatoryQueue])
  | .SM, .Store => some (.SM, [.zz_recycleMandatoryQueue])
  | .OM, .Store => some (.OM, [.zz_recycleMandatoryQueue])
  | .IS, .Store => some (.IS, [.zz_recycleMandatoryQueue])
  | .II, .Store => some (.II, [.zz_recycleMandatoryQueue])
  | .IM, .L2_Replacement => some (.IM, [.zz_recycleMandatoryQueue])
  | .SM, .L2_Replacement => some (.SM, [.zz_recycleMandatoryQueue])
  | .OM, .L2_Replacement => some (.OM, [.zz_recycleMandatoryQueue])
  | .IS, .L2_Replacement => some (.IS, [.zz_recycleMandatoryQueue])
  | .II, .L2_Replacement => some (.II, [.zz_recycleMandatoryQueue])
  | .IM, .Load | .IM, .Ifetch => some (.IM, [.zz_recycleMandatoryQueue])
  | .IS, .Load | .IS, .Ifetch => some (.IS, [.zz_recycleMandatoryQueue])
  | .II, .Load | .II, .Ifetch => some (.II, [.zz_recycleMandatoryQueue])
  | .IM, .L1_to_L2 => some (.IM, [.zz_recycleMandatoryQueue])
  | .SM, .L1_to_L2 => some (.SM, [.zz_recycleMandatoryQueue])
  | .OM, .L1_to_L2 => some (.OM, [.zz_recycleMandatoryQueue])
  | .IS, .L1_to_L2 => some (.IS, [.zz_recycleMandatoryQueue])
  | .II, .L1_to_L2 => some (.II, [.zz_recycleMandatoryQueue])
  -- Transitions moving data between the L1 and L2 caches
  | .I, .L1_to_L2 => some (.I, moveToL2)
  | .S, .L1_to_L2 => some (.S, moveToL2)
  | .O_C, .L1_to_L2 => some (.O_C, moveToL2)
  | .O_D, .L1_to_L2 => some (.O_D, moveToL2)
  | .E, .L1_to_L2 => some (.E, moveToL2)
  | .M, .L1_to_L2 => some (.M, moveToL2)
  | .MM, .L1_to_L2 => some (.MM, moveToL2)
  | .I, .L2_to_L1D => some (.I, moveToL1D)
  | .S, .L2_to_L1D => some (.S, moveToL1D)
  | .O_C, .L2_to_L1D => some (.O_C, moveToL1D)
  | .O_D, .L2_to_L1D => some (.O_D, moveToL1D)
  | .E, .L2_to_L1D => some (.E, moveToL1D)
  | .M, .L2_to_L1D => some (.M, moveToL1D)
  | .MM, .L2_to_L1D => some (.MM, moveToL1D)
  | .I, .L2_to_L1I => some (.I, moveToL1I)
  | .S, .L2_to_L1I => some (.S, moveToL1I)
  | .O_C, .L2_to_L1I => some (.O_C, moveToL1I)
  | .O_D, .L2_to_L1I => some (.O_D, moveToL1I)
  | .E, .L2_to_L1I => some (.E, moveToL1I)
  | .M, .L2_to_L1I => some (.M, moveToL1I)
  | .MM, .L2_to_L1I => some (.MM, moveToL1I)
  -- Transitions from Idle
  | .NP, .Load | .I, .Load =>
      some (.IS, [.ii_allocateL1DCacheBlock, .i_allocateTBE, .a_issueGETS, .uu_profileMiss,
        .k_popMandatoryQueue])
  | .NP, .Ifetch | .I, .Ifetch =>
      some (.IS, [.jj_allocateL1ICacheBlock, .i_allocateTBE, .a_issueGETS, .uu_profileMiss,
        .k_popMandatoryQueue])
  | .NP, .Store | .I, .Store =>
      some (.IM, [.ii_allocateL1DCacheBlock, .i_allocateTBE, .b_issueGETX, .uu_profileMiss,
        .k_popMandatoryQueue])
  | .I, .L2_Replacement => some (.I, [.pp_deallocateL2CacheBlock])
  | .NP, .Inv => some (.NP, [.f_sendAck, .l_popForwardQueue])
  | .I, .Inv => some (.I, [.f_sendAck, .l_popForwardQueue])
  -- Transitions from Shared
  | .S, .Load | .S, .Ifetch => some (.S, [.h_load_hit, .k_popMandatoryQueue])
  | .SM, .Load | .SM, .Ifetch => some (.SM, [.h_load_hit, .k_popMandatoryQueue])
  | .S, .Store => some (.SM, upgrade)
  | .S, .L2_Replacement => some (.I, [.pp_deallocateL2CacheBlock])
  | .S, .Inv => some (.I, [.f_sendAck, .l_popForwardQueue])
  -- Transitions from Owned
  | .O_C, .Load | .O_C, .Ifetch => some (.O_C, [.h_load_hit, .k_popMandatoryQueue])
  | .O_D, .Load | .O_D, .Ifetch => some (.O_D, [.h_load_hit, .k_popMandatoryQueue])
  | .OM, .Load | .OM, .Ifetch => some (.OM, [.h_load_hit, .k_popMandatoryQueue])
  | .O_C, .Store | .O_D, .Store => some (.OM, upgrade)
  | .O_D, .L2_Replacement =>
      some (.II, [.i_allocateTBE, .dd_issueDirtyPUT, .pp_deallocateL2CacheBlock])
  | .O_C, .L2_Replacement =>
      some (.II, [.i_allocateTBE, .d_issueCleanPUT, .pp_deallocateL2CacheBlock])
  | .O_C, .Fwd_GETX | .O_D, .Fwd_GETX => some (.I, [.e_sendData, .l_popForwardQueue])
  | .O_C, .Fwd_GETS => some (.O_C, [.e_sendData, .l_popForwardQueue])
  | .O_D, .Fwd_GETS => some (.O_D, [.e_sendData, .l_popForwardQueue])
  -- Transitions from MM
  | .MM, .Load | .MM, .Ifetch => some (.MM, [.h_load_hit, .k_popMandatoryQueue])
  | .MM, .Store => some (.MM, [.hh_store_hit, .k_popMandatoryQueue])
  | .MM, .L2_Replacement =>
      some (.II, [.i_allocateTBE, .dd_issueDirtyPUT, .pp_deallocateL2CacheBlock])
  | .MM, .Fwd_GETX => some (.I, [.e_sendData, .l_popForwardQueue])
  | .MM, .Fwd_GETS => some (.I, [.ee_sendDataExclusive, .l_popForwardQueue])
  -- Transitions from M
  | .E, .Load | .E, .Ifetch => some (.E, [.h_load_hit, .k_popMandatoryQueue])
  | .M, .Load | .M, .Ifetch => some (.M, [.h_load_hit, .k_popMandatoryQueue])
  | .E, .Store | .M, .Store => some (.MM, [.hh_store_hit, .k_popMandatoryQueue])
  | .E, .L2_Replacement =>
      some (.II, [.i_allocateTBE, .d_issueCleanPUT, .pp_deallocateL2CacheBlock])
  | .M, .L2_Replacement =>
      some (.II, [.i_allocateTBE, .dd_issueDirtyPUT, .pp_deallocateL2CacheBlock])
  | .E, .Fwd_GETX | .M, .Fwd_GETX => some (.I, [.e_sendData, .l_popForwardQueue])
  | .M, .Fwd_GETS => some (.O_D, [.e_sendData, .l_popForwardQueue])
  | .E, .Fwd_GETS => some (.O_C, [.e_sendData, .l_popForwardQueue])
  -- Transitions from IM
  | .IM, .Inv => some (.IM, [.f_sendAck, .l_popForwardQueue])
  | .IM, .Ack => some (.IM, countAck)
  | .IM, .Data | .IM, .Exclusive_Data_Clean =>
      some (.OM, [.u_writeDataToCache, .m_decrementNumberOfMessages, .o_checkForCompletion,
        .n_popResponseQueue])
  -- Transitions from SM
  | .SM, .Inv => some (.IM, [.f_sendAck, .l_popForwardQueue])
  | .SM, .Ack => some (.SM, countAck)
  | .SM, .Data | .SM, .Exclusive_Data_Clean =>
      some (.OM, [.v_writeDataToCacheVerify, .m_decrementNumberOfMessages, .o_checkForCompletion,
        .n_popResponseQueue])
  -- Transitions from OM
  | .OM, .Own_GETX =>
      some (.OM, [.mm_decrementNumberOfMessages, .o_checkForCompletion, .l_popForwardQueue])
  | .OM, .Fwd_GETX => some (.IM, [.e_sendData, .l_popForwardQueue])
  | .OM, .Fwd_GETS => some (.OM, [.e_sendData, .l_popForwardQueue])
  | .OM, .Ack => some (.OM, countAck)
  | .OM, .All_acks =>
      some (.MM, [.hh_store_hit, .gg_sendUnblockExclusive, .s_deallocateTBE, .j_popTriggerQueue])
  -- Transitions from IS
  | .IS, .Inv => some (.IS, [.f_sendAck, .l_popForwardQueue])
  | .IS, .Data =>
      some (.S, [.u_writeDataToCache, .m_decrementNumberOfMessages, .h_load_hit, .g_sendUnblock,
        .s_deallocateTBE, .n_popResponseQueue])
  | .IS, .Exclusive_Data_Clean => some (.E, fillExclusive)
  | .IS, .Exclusive_Data_Dirty => some (.M, fillExclusive)
  -- Transitions from II
  | .II, .Writeback_Ack => some (.I, [.s_deallocateTBE, .n_popResponseQueue])
  | .II, .Fwd_GETX | .II, .Fwd_GETS =>
      some (.II, [.q_sendDataFromTBEToCache, .l_popForwardQueue])
  | .II, .Inv => some (.II, [.f_sendAck, .l_popForwardQueue])
  | _, _ => none
where
  moveToL2 := [.vv_allocateL2CacheBlock, .ss_copyFromL1toL2, .kk_deallocateL1CacheBlock]
  moveToL1D := [.ii_allocateL1DCacheBlock, .tt_copyFromL2toL1, .pp_deallocateL2CacheBlock]
  moveToL1I := [.jj_allocateL1ICacheBlock, .tt_copyFromL2toL1, .pp_deallocateL2CacheBlock]
  upgrade := [.i_allocateTBE, .b_issueGETX, .uu_profileMiss, .k_popMandatoryQueue]
  countAck := [.m_decrementNumberOfMessages, .o_checkForCompletion, .n_popResponseQueue]
  fillExclusive := [.u_writeDataToCache, .m_decrementNumberOfMessages, .h_load_hit,
    .gg_sendUnblockExclusive, .s_deallocateTBE, .n_popResponseQueue]

/-- A transition that takes a TBE also sends a request: without a free TBE and a
free slot it stalls. -/
def needsResources (state : State) (event : Event) : Bool :=
  match transition state event with
  | some (_, actions) => decide (.i_allocateTBE ∈ actions)
  | none => false

def doTransition [DecidableEq D] [Inhabited D] (event : Event) (x : Context ι D) :
    Option (Context ι D) :=
  x.cache.getState.bind fun state =>
    (transition state event).bind fun next =>
      (next.2.foldlM Action.perform x).bind fun x =>
        (x.cache.setState next.1).map fun cache => { x with cache := cache }

/-! In-ports -/

def forwardToCache [DecidableEq ι] (id : ι) (m : RequestMsg ι D) : Option Event :=
  match m.type with
  | .GETX => if m.requestor = id then some .Own_GETX else some .Fwd_GETX
  | .GETS => some .Fwd_GETS
  | .INV => some .Inv
  | _ => none

def responseToCache (m : ResponseMsg ι D) : Option Event :=
  match m.type with
  | .ACK => some .Ack
  | .DATA => some .Data
  | .DATA_EXCLUSIVE_CLEAN => some .Exclusive_Data_Clean
  | .DATA_EXCLUSIVE_DIRTY => some .Exclusive_Data_Dirty
  | .WB_ACK => some .Writeback_Ack
  | _ => none

def mandatoryRequestTypeToEvent : CacheRequestType → Event
  | .LD => .Load
  | .IFETCH => .Ifetch
  | .ST | .ATOMIC => .Store

/-- What the other blocks leave to this one. `otherNeeds`: the block that would
have to leave the L2 cache first needs a TBE and a buffer slot for that. -/
structure Room where
  l1Avail : Bool
  l2Avail : Bool
  resources : Bool
  otherNeeds : Bool
  deriving DecidableEq

/-- The event for this block when a request for it is at the head of the
mandatory queue; `none` if only other blocks move. -/
def mandatoryQueue (type : CacheRequestType) (room : Room) (c : L1Cache D) : Option Event :=
  let (rightL1, wrongL1, l2_to_L1) :=
    if type = .IFETCH then (c.l1I, c.l1D, Event.L2_to_L1I) else (c.l1D, c.l1I, Event.L2_to_L1D)
  if wrongL1.isSome && room.l2Avail then some .L1_to_L2
  -- a replacement that stalls falls through to the checks below
  else if wrongL1.isSome && !(room.otherNeeds && !room.resources) then none
  else if rightL1.isSome then some (mandatoryRequestTypeToEvent type)
  else if room.l1Avail then
    if c.l2.isSome then some l2_to_L1 else some (mandatoryRequestTypeToEvent type)
  else none

/-- The event for this block when it has to make room for another one. -/
def makeRoom (c : L1Cache D) : Option Event :=
  if c.l2.isSome then some .L2_Replacement
  else if c.l1D.isSome || c.l1I.isSome then some .L1_to_L2
  else none

/-- The fast path of the sequencer: a hit in the first-level cache, without an
event for the controller. -/
def tryCacheAccess (type : CacheRequestType) (c : L1Cache D) : Bool :=
  match if type = .IFETCH then c.l1I else c.l1D with
  | none => false
  | some entry =>
      entry.permission = .Read_Write ||
        (entry.permission = .Read_Only && (type = .LD || type = .IFETCH))

end L1Cache
end FeS2.Ruby
