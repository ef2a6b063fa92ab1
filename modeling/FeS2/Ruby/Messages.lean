import Mathlib.Data.Multiset.AddSub
import Mathlib.Data.Finset.Basic

/-!
Messages of the MOESI directory protocols, for one block: the address of the
block is left out, and so are sizes and latencies. A cache is named by `ι`. On
the forward and response networks a message is in flight once for each of its
destinations, which stands next to it.
-/

namespace FeS2.Ruby

inductive CoherenceRequestType
  | GETX
  | GETS
  | PUT_CLEAN
  | PUT_DIRTY
  | INV
  deriving DecidableEq, Repr

inductive CoherenceResponseType
  | ACK
  | WB_ACK
  | DATA
  | DATA_EXCLUSIVE_CLEAN
  | DATA_EXCLUSIVE_DIRTY
  | UNBLOCK
  | UNBLOCK_EXCLUSIVE
  deriving DecidableEq, Repr

inductive CacheRequestType
  | LD
  | IFETCH
  | ST
  | ATOMIC
  deriving DecidableEq, Repr

inductive AccessPermission
  | Read_Only
  | Read_Write
  | Invalid
  | NotPresent
  deriving DecidableEq, Repr

inductive NodeID (ι : Type)
  | cache (id : ι)
  | directory
  deriving DecidableEq

structure RequestMsg (ι D : Type) where
  type : CoherenceRequestType
  requestor : ι
  dataBlk : D
  acks : Int
  deriving DecidableEq

structure ResponseMsg (ι D : Type) where
  type : CoherenceResponseType
  sender : NodeID ι
  dataBlk : D
  acks : Int
  deriving DecidableEq

end FeS2.Ruby
