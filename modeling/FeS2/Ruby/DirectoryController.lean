import Mathlib.Data.Finset.Card
import FeS2.Ruby.Messages

/-!
The directory controller, seen from one block. A failed assertion and a missing
transition are errors, `none`.
-/

namespace FeS2.Ruby
namespace Directory

inductive State
  | I
  | S
  | O
  | M
  | IS
  | SS
  | OO
  | MO
  | IM
  | SM
  | OM
  | MM
  deriving DecidableEq, Repr

inductive Event
  | GETX
  | GETS
  | Clean_PUT
  | Dirty_PUT
  | Stale_PUT
  | Unblock
  | Exclusive_Unblock
  deriving DecidableEq, Repr

structure Entry (ι D : Type) where
  directoryState : State
  dataBlk : D
  sharers : Finset ι
  owner : Finset ι
  deriving DecidableEq

variable {ι D : Type} [DecidableEq ι] [DecidableEq D] [Inhabited D]

/-- The assertions of `setState`. -/
def Asserted (state : State) (entry : Entry ι D) : Prop :=
  match state with
  | .I | .IS | .IM => entry.owner.card = 0 ∧ entry.sharers.card = 0
  | .S | .SS | .SM => entry.owner.card = 0 ∧ entry.sharers.card ≠ 0
  | .O | .OO | .OM => entry.owner.card = 1 ∧ entry.sharers.card ≠ 0 ∧ ¬ entry.owner ⊆ entry.sharers
  | .M | .MO | .MM => entry.owner.card = 1 ∧ entry.sharers.card = 0

instance (state : State) (entry : Entry ι D) : Decidable (Asserted state entry) := by
  cases state <;> unfold Asserted <;> infer_instance

def setState (state : State) (entry : Entry ι D) : Option (Entry ι D) :=
  if Asserted state entry then some { entry with directoryState := state } else none

/-- The message at the head of the port. -/
inductive InMsg (ι D : Type)
  | request (m : RequestMsg ι D)
  | unblock (m : ResponseMsg ι D)

/-- A transition under way: the entry, and what the directory has sent. -/
structure Context (ι D : Type) where
  inMsg : InMsg ι D
  entry : Entry ι D
  popped : Bool := false
  forwards : Multiset (ι × RequestMsg ι D) := 0
  responses : Multiset (ι × ResponseMsg ι D) := 0

inductive Action
  | a_sendWritebackAck
  | c_clearOwner
  | cc_clearSharers
  | d_sendData
  | e_ownerIsUnblocker
  | f_forwardRequest
  | g_sendInvalidations
  | i_popIncomingRequestQueue
  | j_popIncomingUnblockQueue
  | l_writeDataToMemory
  | ll_checkDataInMemory
  | m_addUnlockerToSharers
  | zz_recycleRequest
  deriving DecidableEq, Repr

def Context.requestMsg (x : Context ι D) : Option (RequestMsg ι D) :=
  match x.inMsg with
  | .request m => some m
  | .unblock _ => none

/-- The cache that sent an unblock. -/
def Context.unblocker (x : Context ι D) : Option ι :=
  match x.inMsg with
  | .unblock m =>
      match m.sender with
      | .cache id => some id
      | .directory => none
  | .request _ => none

/-- The sharers other than the requestor: how many acks to expect. -/
def acksFor (entry : Entry ι D) (requestor : ι) : Int :=
  if requestor ∈ entry.sharers then (entry.sharers.card : Int) - 1 else entry.sharers.card

def sendWritebackAck (inMsg : RequestMsg ι D) (x : Context ι D) : Context ι D :=
  { x with
    responses := (inMsg.requestor,
      { type := .WB_ACK, sender := .cache inMsg.requestor, dataBlk := default, acks := 0 })
        ::ₘ x.responses }

def sendData (inMsg : RequestMsg ι D) (x : Context ι D) : Context ι D :=
  { x with
    responses := (inMsg.requestor,
      { type := if x.entry.sharers.card = 0 then .DATA_EXCLUSIVE_CLEAN else .DATA
        sender := .directory
        dataBlk := x.entry.dataBlk
        acks := acksFor x.entry inMsg.requestor }) ::ₘ x.responses }

def forwardRequest (inMsg : RequestMsg ι D) (x : Context ι D) : Context ι D :=
  { x with
    forwards := x.entry.owner.val.map (fun id => (id,
      { type := inMsg.type
        requestor := inMsg.requestor
        dataBlk := default
        acks := acksFor x.entry inMsg.requestor })) + x.forwards }

def sendInvalidations (inMsg : RequestMsg ι D) (x : Context ι D) : Context ι D :=
  if 1 < x.entry.sharers.card ∨ 0 < x.entry.sharers.card ∧ inMsg.requestor ∉ x.entry.sharers then
    { x with
      forwards := (x.entry.sharers.erase inMsg.requestor).val.map (fun id => (id,
        { type := .INV, requestor := inMsg.requestor, dataBlk := default, acks := 0 }))
        + x.forwards }
  else x

def writeDataToMemory (inMsg : RequestMsg ι D) (x : Context ι D) : Option (Context ι D) :=
  if inMsg.type = .PUT_DIRTY then some { x with entry.dataBlk := inMsg.dataBlk } else none

def checkDataInMemory (inMsg : RequestMsg ι D) (x : Context ι D) : Option (Context ι D) :=
  if inMsg.type = .PUT_CLEAN ∧ x.entry.dataBlk = inMsg.dataBlk then some x else none

def Action.perform (x : Context ι D) : Action → Option (Context ι D)
  | .a_sendWritebackAck => x.requestMsg.map fun inMsg => sendWritebackAck inMsg x
  | .c_clearOwner => some { x with entry.owner := ∅ }
  | .cc_clearSharers => some { x with entry.sharers := ∅ }
  | .d_sendData => x.requestMsg.map fun inMsg => sendData inMsg x
  | .e_ownerIsUnblocker => x.unblocker.map fun id => { x with entry.owner := {id} }
  | .f_forwardRequest => x.requestMsg.map fun inMsg => forwardRequest inMsg x
  | .g_sendInvalidations => x.requestMsg.map fun inMsg => sendInvalidations inMsg x
  | .i_popIncomingRequestQueue => x.requestMsg.map fun _ => { x with popped := true }
  | .j_popIncomingUnblockQueue => some { x with popped := true }
  | .l_writeDataToMemory => x.requestMsg.bind fun inMsg => writeDataToMemory inMsg x
  | .ll_checkDataInMemory => x.requestMsg.bind fun inMsg => checkDataInMemory inMsg x
  | .m_addUnlockerToSharers =>
      x.unblocker.map fun id => { x with entry.sharers := insert id x.entry.sharers }
  | .zz_recycleRequest => some x

def transition : State → Event → Option (State × List Action)
  | .IS, .GETS | .IS, .GETX => some (.IS, [.zz_recycleRequest])
  | .SS, .GETS | .SS, .GETX => some (.SS, [.zz_recycleRequest])
  | .OO, .GETS | .OO, .GETX => some (.OO, [.zz_recycleRequest])
  | .MO, .GETS | .MO, .GETX => some (.MO, [.zz_recycleRequest])
  | .IM, .GETS | .IM, .GETX => some (.IM, [.zz_recycleRequest])
  | .SM, .GETS | .SM, .GETX => some (.SM, [.zz_recycleRequest])
  | .OM, .GETS | .OM, .GETX => some (.OM, [.zz_recycleRequest])
  | .MM, .GETS | .MM, .GETX => some (.MM, [.zz_recycleRequest])
  -- a PUT may not be stale once the pending request is done, so it waits
  | .IS, .Stale_PUT => some (.IS, [.zz_recycleRequest])
  | .SS, .Stale_PUT => some (.SS, [.zz_recycleRequest])
  | .OO, .Stale_PUT => some (.OO, [.zz_recycleRequest])
  | .MO, .Stale_PUT => some (.MO, [.zz_recycleRequest])
  | .IM, .Stale_PUT => some (.IM, [.zz_recycleRequest])
  | .SM, .Stale_PUT => some (.SM, [.zz_recycleRequest])
  | .OM, .Stale_PUT => some (.OM, [.zz_recycleRequest])
  | .MM, .Stale_PUT => some (.MM, [.zz_recycleRequest])
  | .OO, .Dirty_PUT | .OO, .Clean_PUT => some (.OO, [.zz_recycleRequest])
  | .MO, .Dirty_PUT | .MO, .Clean_PUT => some (.MO, [.zz_recycleRequest])
  | .OM, .Dirty_PUT | .OM, .Clean_PUT => some (.OM, [.zz_recycleRequest])
  | .MM, .Dirty_PUT | .MM, .Clean_PUT => some (.MM, [.zz_recycleRequest])
  | .I, .GETX => some (.IM, [.d_sendData, .i_popIncomingRequestQueue])
  | .S, .GETX =>
      some (.SM, [.d_sendData, .g_sendInvalidations, .i_popIncomingRequestQueue])
  | .I, .GETS => some (.IS, [.d_sendData, .i_popIncomingRequestQueue])
  | .S, .GETS => some (.SS, [.d_sendData, .i_popIncomingRequestQueue])
  | .O, .GETX =>
      some (.OM, [.f_forwardRequest, .g_sendInvalidations, .i_popIncomingRequestQueue])
  | .O, .GETS => some (.OO, [.f_forwardRequest, .i_popIncomingRequestQueue])
  | .M, .GETX => some (.MM, [.f_forwardRequest, .i_popIncomingRequestQueue])
  | .M, .GETS => some (.MO, [.f_forwardRequest, .i_popIncomingRequestQueue])
  | .M, .Dirty_PUT =>
      some (.I, [.l_writeDataToMemory, .c_clearOwner, .a_sendWritebackAck,
        .i_popIncomingRequestQueue])
  | .M, .Clean_PUT =>
      some (.I, [.ll_checkDataInMemory, .c_clearOwner, .a_sendWritebackAck,
        .i_popIncomingRequestQueue])
  | .O, .Dirty_PUT =>
      some (.S, [.l_writeDataToMemory, .c_clearOwner, .a_sendWritebackAck,
        .i_popIncomingRequestQueue])
  | .O, .Clean_PUT =>
      some (.S, [.ll_checkDataInMemory, .c_clearOwner, .a_sendWritebackAck,
        .i_popIncomingRequestQueue])
  | .I, .Stale_PUT => some (.I, [.a_sendWritebackAck, .i_popIncomingRequestQueue])
  | .S, .Stale_PUT => some (.S, [.a_sendWritebackAck, .i_popIncomingRequestQueue])
  | .O, .Stale_PUT => some (.O, [.a_sendWritebackAck, .i_popIncomingRequestQueue])
  | .M, .Stale_PUT => some (.M, [.a_sendWritebackAck, .i_popIncomingRequestQueue])
  | .IM, .Exclusive_Unblock | .SM, .Exclusive_Unblock | .OM, .Exclusive_Unblock
  | .MM, .Exclusive_Unblock | .MO, .Exclusive_Unblock =>
      some (.M, [.cc_clearSharers, .e_ownerIsUnblocker, .j_popIncomingUnblockQueue])
  | .MO, .Unblock => some (.O, [.m_addUnlockerToSharers, .j_popIncomingUnblockQueue])
  | .IS, .Unblock => some (.S, [.m_addUnlockerToSharers, .j_popIncomingUnblockQueue])
  | .IS, .Exclusive_Unblock =>
      some (.M, [.cc_clearSharers, .e_ownerIsUnblocker, .j_popIncomingUnblockQueue])
  | .SS, .Unblock => some (.S, [.m_addUnlockerToSharers, .j_popIncomingUnblockQueue])
  | .OO, .Unblock => some (.O, [.m_addUnlockerToSharers, .j_popIncomingUnblockQueue])
  | _, _ => none

def doTransition (event : Event) (x : Context ι D) : Option (Context ι D) :=
  (transition x.entry.directoryState event).bind fun next =>
    (next.2.foldlM Action.perform x).bind fun x =>
      (setState next.1 x.entry).map fun entry => { x with entry := entry }

/-! In-ports -/

def unblockNetwork (m : ResponseMsg ι D) : Option Event :=
  match m.type with
  | .UNBLOCK => some .Unblock
  | .UNBLOCK_EXCLUSIVE => some .Exclusive_Unblock
  | _ => none

def requestQueue (entry : Entry ι D) (m : RequestMsg ι D) : Option Event :=
  match m.type with
  | .GETS => some .GETS
  | .GETX => some .GETX
  | .PUT_CLEAN => if m.requestor ∈ entry.owner then some .Clean_PUT else some .Stale_PUT
  | .PUT_DIRTY => if m.requestor ∈ entry.owner then some .Dirty_PUT else some .Stale_PUT
  | .INV => none

end Directory
end FeS2.Ruby
