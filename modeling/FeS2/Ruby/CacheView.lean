import FeS2.Ruby.CoherenceSystem

/-!
What the rest of the system can see of a cache: its state, the data it would
send, the count of its TBE and its pending triggers. A cache shows such a view
in few shapes: the block is nowhere, in one of the three caches, in a first-level
cache with a TBE, or in the TBE alone. Each event is answered from the view.
-/

namespace FeS2.Ruby
namespace L1Cache
variable {ι D : Type}

structure View (D : Type) where
  state : State
  data : D
  pending : Int
  trigger : Nat

def State.isStable : State → Bool
  | .I | .S | .O_C | .O_D | .E | .M | .MM => true
  | _ => false

def State.isTransient : State → Bool
  | .IM | .SM | .OM | .IS => true
  | _ => false

/-- The states whose data the processor may read. -/
def State.isReadable (state : State) : Bool := decide (state.permission ≠ .Invalid)

/-- The states that answer forwarded requests. -/
def State.isOwner : State → Bool
  | .O_C | .O_D | .OM | .E | .M | .MM | .II => true
  | _ => false

inductive Location
  | l1I
  | l1D
  | l2

def firstLevel : Bool → Location
  | true => .l1I
  | false => .l1D

def entryAt : Location → Entry D → Option (TBE D) → Nat → L1Cache D
  | .l1I, entry, tbe, n => { l1I := some entry, tbe := tbe, triggerQueue := n }
  | .l1D, entry, tbe, n => { l1D := some entry, tbe := tbe, triggerQueue := n }
  | .l2, entry, tbe, n => { l2 := some entry, tbe := tbe, triggerQueue := n }

def entryIn (state : State) (data : D) : Entry D :=
  { permission := state.permission, dataBlk := data, cacheState := state }

inductive Shows : L1Cache D → View D → Prop
  | absent (d : D) : Shows {} ⟨.NP, d, 0, 0⟩
  | stable (loc : Location) {state : State} (d : D) (h : state.isStable) :
      Shows (entryAt loc (entryIn state d) none 0) ⟨state, d, 0, 0⟩
  | transient (instr : Bool) {state : State} (d d' : D) (p : Int) (n : Nat)
      (h : state.isTransient) :
      Shows (entryAt (firstLevel instr) (entryIn state d) (some ⟨state, d', p⟩) n)
        ⟨state, d, p, n⟩
  | writeback (d : D) : Shows { tbe := some ⟨.II, d, 0⟩ } ⟨.II, d, 0, 0⟩

theorem Shows.getState {c : L1Cache D} {v : View D} (h : Shows c v) :
    c.getState = some v.state := by
  cases h with
  | absent d => rfl
  | stable loc d h => cases loc <;> rfl
  | transient instr d d' p n h => cases instr <;> rfl
  | writeback d => rfl

theorem Shows.triggerQueue {c : L1Cache D} {v : View D} (h : Shows c v) :
    c.triggerQueue = v.trigger := by
  cases h with
  | absent d => rfl
  | stable loc d h => cases loc <;> rfl
  | transient instr d d' p n h => cases instr <;> rfl
  | writeback d => rfl

/-- What a transition sends and reports. -/
structure Effect (ι D : Type) where
  popped : Bool := false
  requests : List (RequestMsg ι D) := []
  responses : List (ι × ResponseMsg ι D) := []
  unblocks : List (ResponseMsg ι D) := []
  loads : List D := []
  stores : Nat := 0

/-- The transition succeeds, and the cache shows `v` afterwards. -/
def Yields (x : Option (Context ι D)) (driver : D → D) (v : View D) (effect : Effect ι D) :
    Prop :=
  ∃ cache inMsg id, Shows cache v ∧ x = some
    { id := id, driver := driver, inMsg := inMsg, cache := cache, popped := effect.popped,
      requests := effect.requests, responses := effect.responses, unblocks := effect.unblocks,
      loads := effect.loads, stores := effect.stores }

section
variable [DecidableEq D] [Inhabited D] {i : ι} {driver : D → D} {c : L1Cache D} {v : View D}

/-! Forwarded requests -/

def ack (i : ι) : ResponseMsg ι D :=
  { type := .ACK, sender := .cache i, dataBlk := default, acks := -1 }

def afterInv : State → State
  | .S => .I
  | .SM => .IM
  | state => state

def State.takesInv : State → Bool
  | .NP | .I | .S | .IM | .SM | .IS | .II => true
  | _ => false

theorem Shows.inv {m : RequestMsg ι D} (h : Shows c v) (hv : v.state.takesInv) :
    Yields (doTransition .Inv { id := i, driver := driver, inMsg := .forward m, cache := c })
      driver { v with state := afterInv v.state }
      { popped := true, responses := [(m.requestor, ack i)] } := by
  cases h with
  | absent d => exact ⟨_, _, _, .absent d, rfl⟩
  | @stable loc state d h =>
      cases state with
      | I => exact ⟨_, _, _, .stable loc d h, by cases loc <;> rfl⟩
      | S => exact ⟨_, _, _, @Shows.stable _ loc .I d rfl, by cases loc <;> rfl⟩
      | _ => first | exact absurd hv Bool.false_ne_true | exact absurd h Bool.false_ne_true
  | @transient instr state d d' p n h =>
      cases state with
      | IM => exact ⟨_, _, _, .transient instr d d' p n h, by cases instr <;> rfl⟩
      | SM => exact ⟨_, _, _, @Shows.transient _ instr .IM d d' p n rfl, by cases instr <;> rfl⟩
      | IS => exact ⟨_, _, _, .transient instr d d' p n h, by cases instr <;> rfl⟩
      | _ => first | exact absurd hv Bool.false_ne_true | exact absurd h Bool.false_ne_true
  | writeback d => exact ⟨_, _, _, .writeback d, rfl⟩

def dataMsg (type : CoherenceResponseType) (i : ι) (d : D) (acks : Int) : ResponseMsg ι D :=
  { type := type, sender := .cache i, dataBlk := d, acks := acks }

def afterFwdGETX : State → State
  | .OM => .IM
  | .II => .II
  | _ => .I

theorem Shows.fwd_GETX {m : RequestMsg ι D} (h : Shows c v) (hv : v.state.isOwner) :
    Yields (doTransition .Fwd_GETX { id := i, driver := driver, inMsg := .forward m, cache := c })
      driver { v with state := afterFwdGETX v.state }
      { popped := true
        responses := [(m.requestor, dataMsg .DATA i v.data m.acks)] } := by
  cases h with
  | absent d => exact absurd hv Bool.false_ne_true
  | @stable loc state d h =>
      cases state with
      | O_C => exact ⟨_, _, _, @Shows.stable _ loc .I d rfl, by cases loc <;> rfl⟩
      | O_D => exact ⟨_, _, _, @Shows.stable _ loc .I d rfl, by cases loc <;> rfl⟩
      | E => exact ⟨_, _, _, @Shows.stable _ loc .I d rfl, by cases loc <;> rfl⟩
      | M => exact ⟨_, _, _, @Shows.stable _ loc .I d rfl, by cases loc <;> rfl⟩
      | MM => exact ⟨_, _, _, @Shows.stable _ loc .I d rfl, by cases loc <;> rfl⟩
      | _ => first | exact absurd hv Bool.false_ne_true | exact absurd h Bool.false_ne_true
  | @transient instr state d d' p n h =>
      cases state with
      | OM => exact ⟨_, _, _, @Shows.transient _ instr .IM d d' p n rfl, by cases instr <;> rfl⟩
      | _ => first | exact absurd hv Bool.false_ne_true | exact absurd h Bool.false_ne_true
  | writeback d => exact ⟨_, _, _, .writeback d, rfl⟩

def afterFwdGETS : State → State
  | .MM => .I
  | .M => .O_D
  | .E => .O_C
  | state => state

def fwdGETSType : State → CoherenceResponseType
  | .MM => .DATA_EXCLUSIVE_DIRTY
  | _ => .DATA

theorem Shows.fwd_GETS {m : RequestMsg ι D} (h : Shows c v) (hv : v.state.isOwner) :
    Yields (doTransition .Fwd_GETS { id := i, driver := driver, inMsg := .forward m, cache := c })
      driver { v with state := afterFwdGETS v.state }
      { popped := true
        responses := [(m.requestor, dataMsg (fwdGETSType v.state) i v.data m.acks)] } := by
  cases h with
  | absent d => exact absurd hv Bool.false_ne_true
  | @stable loc state d h =>
      cases state with
      | O_C => exact ⟨_, _, _, .stable loc d h, by cases loc <;> rfl⟩
      | O_D => exact ⟨_, _, _, .stable loc d h, by cases loc <;> rfl⟩
      | E => exact ⟨_, _, _, @Shows.stable _ loc .O_C d rfl, by cases loc <;> rfl⟩
      | M => exact ⟨_, _, _, @Shows.stable _ loc .O_D d rfl, by cases loc <;> rfl⟩
      | MM => exact ⟨_, _, _, @Shows.stable _ loc .I d rfl, by cases loc <;> rfl⟩
      | _ => first | exact absurd hv Bool.false_ne_true | exact absurd h Bool.false_ne_true
  | @transient instr state d d' p n h =>
      cases state with
      | OM => exact ⟨_, _, _, .transient instr d d' p n h, by cases instr <;> rfl⟩
      | _ => first | exact absurd hv Bool.false_ne_true | exact absurd h Bool.false_ne_true
  | writeback d => exact ⟨_, _, _, .writeback d, rfl⟩

/-! Counting the acks -/

/-- One look at the count adds a trigger when nothing is pending. -/
def View.counted (state : State) (data : D) (pending : Int) (n : Nat) : View D :=
  ⟨state, data, pending, if pending = 0 then n + 1 else n⟩

theorem Shows.own_GETX {m : RequestMsg ι D} (h : Shows c v) (hv : v.state = .OM) :
    Yields (doTransition .Own_GETX { id := i, driver := driver, inMsg := .forward m, cache := c })
      driver (.counted .OM v.data (v.pending - m.acks) v.trigger) { popped := true } := by
  cases h with
  | absent d => cases hv
  | stable loc d h =>
      cases hv
      exact absurd h Bool.false_ne_true
  | transient instr d d' p n h =>
      cases hv
      exact ⟨_, _, _, .transient instr d d' (p - m.acks) _ h, by cases instr <;> rfl⟩
  | writeback d => cases hv

def State.takesAck : State → Bool
  | .IM | .SM | .OM => true
  | _ => false

theorem Shows.ack {m : ResponseMsg ι D} (h : Shows c v) (hv : v.state.takesAck) :
    Yields (doTransition .Ack { id := i, driver := driver, inMsg := .response m, cache := c })
      driver (.counted v.state v.data (v.pending - m.acks) v.trigger) { popped := true } := by
  cases h with
  | absent d => exact absurd hv Bool.false_ne_true
  | @stable loc state d h =>
      cases state <;> first | exact absurd hv Bool.false_ne_true | exact absurd h Bool.false_ne_true
  | @transient instr state d d' p n h =>
      cases state with
      | IM => exact ⟨_, _, _, .transient instr d d' (p - m.acks) _ h, by cases instr <;> rfl⟩
      | SM => exact ⟨_, _, _, .transient instr d d' (p - m.acks) _ h, by cases instr <;> rfl⟩
      | OM => exact ⟨_, _, _, .transient instr d d' (p - m.acks) _ h, by cases instr <;> rfl⟩
      | _ => exact absurd hv Bool.false_ne_true
  | writeback d => exact absurd hv Bool.false_ne_true

theorem verify_eq {x : Context ι D} {entry : Entry D} {m : ResponseMsg ι D}
    (he : x.cache.getCacheEntry = some entry) (hm : x.responseMsg = some m)
    (hd : entry.dataBlk = m.dataBlk) :
    Action.perform x .v_writeDataToCacheVerify = Action.perform x .u_writeDataToCache := by
  simp only [Action.perform, he, hm, hd, Option.bind_some, Option.map_some, if_true]

/-- The data arrives for a store; a copy that is there is checked against it. -/
theorem Shows.data {event : Event} {m : ResponseMsg ι D} (h : Shows c v)
    (he : event = .Data ∨ event = .Exclusive_Data_Clean)
    (hv : v.state = .IM ∨ v.state = .SM ∧ v.data = m.dataBlk) :
    Yields (doTransition event { id := i, driver := driver, inMsg := .response m, cache := c })
      driver (.counted .OM m.dataBlk (v.pending - m.acks) v.trigger) { popped := true } := by
  cases h with
  | absent d => rcases hv with hv | ⟨hv, -⟩ <;> cases hv
  | stable loc d h =>
      rcases hv with hv | ⟨hv, -⟩ <;> cases hv <;> exact absurd h Bool.false_ne_true
  | transient instr d d' p n h =>
      rcases hv with hv | ⟨hv, hd⟩ <;> cases hv
      · refine ⟨_, .response m, i, @Shows.transient _ instr .OM m.dataBlk d' (p - m.acks) _ rfl, ?_⟩
        rcases he with rfl | rfl <;> cases instr <;> rfl
      · refine ⟨_, .response m, i, @Shows.transient _ instr .OM m.dataBlk d' (p - m.acks) _ rfl, ?_⟩
        have hverify := @verify_eq ι D _ _
          { id := i
            driver := driver
            inMsg := .response m
            cache := entryAt (firstLevel instr) (entryIn .SM d) (some ⟨.SM, d', p⟩) n }
          (entryIn .SM d) m (by cases instr <;> rfl) rfl hd
        have htransition : transition .SM event = some (.OM, [.v_writeDataToCacheVerify,
            .m_decrementNumberOfMessages, .o_checkForCompletion, .n_popResponseQueue]) := by
          rcases he with rfl | rfl <;> rfl
        rw [doTransition, (Shows.transient instr d d' p n h).getState, Option.bind_some,
          htransition, Option.bind_some, List.foldlM_cons, hverify]
        cases instr <;> rfl
  | writeback d => rcases hv with hv | ⟨hv, -⟩ <;> cases hv

/-! Fills -/

def unblockMsg (type : CoherenceResponseType) (i : ι) : ResponseMsg ι D :=
  { type := type, sender := .cache i, dataBlk := default, acks := 0 }

/-- How a fill for a load ends, by what the data message grants. -/
def filled : Event → State
  | .Exclusive_Data_Clean => .E
  | .Exclusive_Data_Dirty => .M
  | _ => .S

def fillUnblock : Event → CoherenceResponseType
  | .Data => .UNBLOCK
  | _ => .UNBLOCK_EXCLUSIVE

def Event.isData : Event → Bool
  | .Data | .Exclusive_Data_Clean | .Exclusive_Data_Dirty => true
  | _ => false

theorem Shows.fill {event : Event} {m : ResponseMsg ι D} (h : Shows c v) (he : event.isData)
    (hv : v.state = .IS) (ht : v.trigger = 0) :
    Yields (doTransition event { id := i, driver := driver, inMsg := .response m, cache := c })
      driver ⟨filled event, m.dataBlk, 0, 0⟩
      { popped := true, unblocks := [unblockMsg (fillUnblock event) i], loads := [m.dataBlk] } := by
  cases h with
  | absent d => cases hv
  | stable loc d h =>
      cases hv
      exact absurd h Bool.false_ne_true
  | transient instr d d' p n h =>
      cases hv
      cases ht
      cases event with
      | Data =>
          refine ⟨_, .response m, i, @Shows.stable _ (firstLevel instr) .S m.dataBlk rfl, ?_⟩
          cases instr <;> rfl
      | Exclusive_Data_Clean =>
          refine ⟨_, .response m, i, @Shows.stable _ (firstLevel instr) .E m.dataBlk rfl, ?_⟩
          cases instr <;> rfl
      | Exclusive_Data_Dirty =>
          refine ⟨_, .response m, i, @Shows.stable _ (firstLevel instr) .M m.dataBlk rfl, ?_⟩
          cases instr <;> rfl
      | _ => exact absurd he Bool.false_ne_true
  | writeback d => cases hv

theorem Shows.writeback_Ack {m : ResponseMsg ι D} (h : Shows c v) (hv : v.state = .II) :
    Yields (doTransition .Writeback_Ack
        { id := i, driver := driver, inMsg := .response m, cache := c })
      driver ⟨.NP, v.data, 0, 0⟩ { popped := true } := by
  cases h with
  | absent d => cases hv
  | stable loc d h =>
      cases hv
      exact absurd h Bool.false_ne_true
  | transient instr d d' p n h =>
      cases hv
      exact absurd h Bool.false_ne_true
  | writeback d => exact ⟨_, _, _, .absent d, rfl⟩

theorem Shows.all_acks (h : Shows c v) (hv : v.state = .OM) (ht : v.trigger = 1) :
    Yields (doTransition .All_acks { id := i, driver := driver, inMsg := .trigger, cache := c })
      driver ⟨.MM, driver v.data, 0, 0⟩
      { unblocks := [unblockMsg .UNBLOCK_EXCLUSIVE i], stores := 1 } := by
  cases h with
  | absent d => cases hv
  | stable loc d h =>
      cases hv
      exact absurd h Bool.false_ne_true
  | transient instr d d' p n h =>
      cases hv
      cases ht
      refine ⟨_, .trigger, i, @Shows.stable _ (firstLevel instr) .MM (driver d) rfl, ?_⟩
      cases instr <;> rfl
  | writeback d => cases hv

/-! Processor -/

def requestMsg (type : CoherenceRequestType) (i : ι) (d : D) : RequestMsg ι D :=
  { type := type, requestor := i, dataBlk := d, acks := 0 }

def State.isExclusive : State → Bool
  | .E | .M | .MM => true
  | _ => false

/-- What the processor side of cache `i` can do to its view. -/
inductive Demands (i : ι) (driver : D → D) : View D → View D → Effect ι D → Prop
  | stay (v : View D) : Demands i driver v v {}
  | loadHit {v : View D} (h : v.state.isReadable) : Demands i driver v v { loads := [v.data] }
  | storeHit {state : State} (d : D) (h : state.isExclusive) :
      Demands i driver ⟨state, d, 0, 0⟩ ⟨.MM, driver d, 0, 0⟩ { stores := 1 }
  | missLoad {state : State} (d d' : D) (h : state = .NP ∨ state = .I) :
      Demands i driver ⟨state, d, 0, 0⟩ ⟨.IS, d', 0, 0⟩
        { requests := [requestMsg .GETS i default] }
  | missStore {state : State} (d d' : D) (h : state = .NP ∨ state = .I) :
      Demands i driver ⟨state, d, 0, 0⟩ ⟨.IM, d', 0, 0⟩
        { requests := [requestMsg .GETX i default] }
  | upgrade (d : D) : Demands i driver ⟨.S, d, 0, 0⟩ ⟨.SM, d, 0, 0⟩
      { requests := [requestMsg .GETX i default] }
  | upgradeOwned {state : State} (d : D) (h : state = .O_C ∨ state = .O_D) :
      Demands i driver ⟨state, d, 0, 0⟩ ⟨.OM, d, 0, 0⟩
        { requests := [requestMsg .GETX i default] }
  | drop {state : State} (d : D) (h : state = .I ∨ state = .S) :
      Demands i driver ⟨state, d, 0, 0⟩ ⟨.NP, d, 0, 0⟩ {}
  | putClean {state : State} (d : D) (h : state = .E ∨ state = .O_C) :
      Demands i driver ⟨state, d, 0, 0⟩ ⟨.II, d, 0, 0⟩ { requests := [requestMsg .PUT_CLEAN i d] }
  | putDirty {state : State} (d : D) (h : state = .O_D ∨ state = .M ∨ state = .MM) :
      Demands i driver ⟨state, d, 0, 0⟩ ⟨.II, d, 0, 0⟩ { requests := [requestMsg .PUT_DIRTY i d] }

/-- The event is answered by one of the moves of the processor side. -/
def Answers (i : ι) (driver : D → D) (c : L1Cache D) (v : View D) (event : Event) : Prop :=
  ∃ v' effect, Demands i driver v v' effect ∧
    Yields (doTransition event { id := i, driver := driver, inMsg := .mandatory, cache := c })
      driver v' effect

theorem Shows.l1_to_L2 (h : Shows c v) (hc : c.l1D.isSome || c.l1I.isSome) :
    Answers i driver c v .L1_to_L2 := by
  cases h with
  | absent d => exact absurd hc Bool.false_ne_true
  | @stable loc state d h =>
      refine ⟨_, _, .stay _, _, .mandatory, i, .stable .l2 d h, ?_⟩
      cases loc with
      | l2 => exact absurd hc Bool.false_ne_true
      | l1I => cases state <;> first | rfl | exact absurd h Bool.false_ne_true
      | l1D => cases state <;> first | rfl | exact absurd h Bool.false_ne_true
  | @transient instr state d d' p n h =>
      refine ⟨_, _, .stay _, _, .mandatory, i, .transient instr d d' p n h, ?_⟩
      cases state <;> first | (cases instr <;> rfl) | exact absurd h Bool.false_ne_true
  | writeback d => exact absurd hc Bool.false_ne_true

theorem Shows.l2_to_L1D (h : Shows c v) (hc : c.l2.isSome) :
    Answers i driver c v .L2_to_L1D := by
  cases h with
  | absent d => exact absurd hc Bool.false_ne_true
  | @stable loc state d h =>
      refine ⟨_, _, .stay _, _, .mandatory, i, .stable .l1D d h, ?_⟩
      cases loc with
      | l2 => cases state <;> first | rfl | exact absurd h Bool.false_ne_true
      | _ => exact absurd hc Bool.false_ne_true
  | transient instr d d' p n h => cases instr <;> exact absurd hc Bool.false_ne_true
  | writeback d => exact absurd hc Bool.false_ne_true

theorem Shows.l2_to_L1I (h : Shows c v) (hc : c.l2.isSome) :
    Answers i driver c v .L2_to_L1I := by
  cases h with
  | absent d => exact absurd hc Bool.false_ne_true
  | @stable loc state d h =>
      refine ⟨_, _, .stay _, _, .mandatory, i, .stable .l1I d h, ?_⟩
      cases loc with
      | l2 => cases state <;> first | rfl | exact absurd h Bool.false_ne_true
      | _ => exact absurd hc Bool.false_ne_true
  | transient instr d d' p n h => cases instr <;> exact absurd hc Bool.false_ne_true
  | writeback d => exact absurd hc Bool.false_ne_true

theorem Shows.l2_Replacement (h : Shows c v) (hc : c.l2.isSome) :
    Answers i driver c v .L2_Replacement := by
  cases h with
  | absent d => exact absurd hc Bool.false_ne_true
  | @stable loc state d h =>
      cases loc with
      | l2 =>
          cases state with
          | I => exact ⟨_, _, .drop d (.inl rfl), _, .mandatory, i, .absent d, rfl⟩
          | S => exact ⟨_, _, .drop d (.inr rfl), _, .mandatory, i, .absent d, rfl⟩
          | E => exact ⟨_, _, .putClean d (.inl rfl), _, .mandatory, i, .writeback d, rfl⟩
          | O_C => exact ⟨_, _, .putClean d (.inr rfl), _, .mandatory, i, .writeback d, rfl⟩
          | O_D => exact ⟨_, _, .putDirty d (.inl rfl), _, .mandatory, i, .writeback d, rfl⟩
          | M => exact ⟨_, _, .putDirty d (.inr (.inl rfl)), _, .mandatory, i, .writeback d, rfl⟩
          | MM => exact ⟨_, _, .putDirty d (.inr (.inr rfl)), _, .mandatory, i, .writeback d, rfl⟩
          | _ => exact absurd h Bool.false_ne_true
      | _ => exact absurd hc Bool.false_ne_true
  | transient instr d d' p n h => cases instr <;> exact absurd hc Bool.false_ne_true
  | writeback d => exact absurd hc Bool.false_ne_true

def loadEvent (ifetch : Bool) : Event := if ifetch then .Ifetch else .Load

/-- The first-level cache that the access is not for. -/
def wrongL1 (ifetch : Bool) (c : L1Cache D) : Option (Entry D) := if ifetch then c.l1D else c.l1I

/-- A hit needs no resources, so it may find the block in the wrong first-level
cache; a miss finds it in the right one or not at all. -/
theorem Shows.load (ifetch : Bool) (h : Shows c v) (h2 : c.l2 = none)
    (h1 : wrongL1 ifetch c = none ∨ needsResources v.state (loadEvent ifetch) = false) :
    Answers i driver c v (loadEvent ifetch) := by
  cases h with
  | absent d =>
      exact ⟨_, _, .missLoad d default (.inl rfl), _, .mandatory, i,
        @Shows.transient _ ifetch .IS default default 0 0 rfl, by cases ifetch <;> rfl⟩
  | @stable loc state d h =>
      cases state with
      | I =>
          refine ⟨_, _, .missLoad d d (.inr rfl), _, .mandatory, i,
            @Shows.transient _ ifetch .IS d d 0 0 rfl, ?_⟩
          cases loc <;> cases ifetch <;>
            first
            | rfl
            | (rcases h1 with h1 | h1 <;> cases h1; done)
            | cases h2
      | _ =>
          first
          | exact absurd h Bool.false_ne_true
          | exact ⟨_, _, .loadHit rfl, _, .mandatory, i, .stable loc d h,
              by cases loc <;> cases ifetch <;> rfl⟩
  | @transient instr state d d' p n h =>
      cases state with
      | IM | IS =>
          exact ⟨_, _, .stay _, _, .mandatory, i, .transient instr d d' p n h,
            by cases instr <;> cases ifetch <;> rfl⟩
      | SM | OM =>
          exact ⟨_, _, .loadHit rfl, _, .mandatory, i, .transient instr d d' p n h,
            by cases instr <;> cases ifetch <;> rfl⟩
      | _ => exact absurd h Bool.false_ne_true
  | writeback d =>
      exact ⟨_, _, .stay _, _, .mandatory, i, .writeback d, by cases ifetch <;> rfl⟩

theorem Shows.store (h : Shows c v) (h2 : c.l2 = none)
    (h1 : wrongL1 false c = none ∨ needsResources v.state .Store = false) :
    Answers i driver c v .Store := by
  cases h with
  | absent d =>
      exact ⟨_, _, .missStore d default (.inl rfl), _, .mandatory, i,
        @Shows.transient _ false .IM default default 0 0 rfl, rfl⟩
  | @stable loc state d h =>
      cases loc with
      | l2 => cases h2
      | l1D =>
          cases state with
          | I =>
              exact ⟨_, _, .missStore d d (.inr rfl), _, .mandatory, i,
                @Shows.transient _ false .IM d d 0 0 rfl, rfl⟩
          | S =>
              exact ⟨_, _, .upgrade d, _, .mandatory, i,
                @Shows.transient _ false .SM d d 0 0 rfl, rfl⟩
          | O_C =>
              exact ⟨_, _, .upgradeOwned d (.inl rfl), _, .mandatory, i,
                @Shows.transient _ false .OM d d 0 0 rfl, rfl⟩
          | O_D =>
              exact ⟨_, _, .upgradeOwned d (.inr rfl), _, .mandatory, i,
                @Shows.transient _ false .OM d d 0 0 rfl, rfl⟩
          | E | M | MM =>
              exact ⟨_, _, .storeHit d rfl, _, .mandatory, i,
                @Shows.stable _ .l1D .MM (driver d) rfl, rfl⟩
          | _ => exact absurd h Bool.false_ne_true
      | l1I =>
          cases state with
          | E | M | MM =>
              exact ⟨_, _, .storeHit d rfl, _, .mandatory, i,
                @Shows.stable _ .l1I .MM (driver d) rfl, rfl⟩
          | I | S | O_C | O_D => rcases h1 with h1 | h1 <;> cases h1
          | _ => exact absurd h Bool.false_ne_true
  | @transient instr state d d' p n h =>
      refine ⟨_, _, .stay _, _, .mandatory, i, .transient instr d d' p n h, ?_⟩
      cases state <;> first | (cases instr <;> rfl) | exact absurd h Bool.false_ne_true
  | writeback d => exact ⟨_, _, .stay _, _, .mandatory, i, .writeback d, rfl⟩

omit [DecidableEq D] [Inhabited D] in
theorem Shows.l2_eq_none (h : Shows c v) (hc : c.l1D.isSome ∨ c.l1I.isSome) : c.l2 = none := by
  cases h with
  | stable loc d h =>
      cases loc with
      | l2 => rcases hc with hc | hc <;> exact absurd hc Bool.false_ne_true
      | _ => rfl
  | transient instr d d' p n h => cases instr <;> rfl
  | _ => rfl

omit [DecidableEq D] [Inhabited D] in
/-- Which event the mandatory queue triggers, and what it has seen by then. -/
theorem mandatoryQueue_cases {type : CacheRequestType} {room : Room} {event : Event}
    (he : mandatoryQueue type room c = some event) :
    event = .L1_to_L2 ∧ (c.l1D.isSome ∨ c.l1I.isSome) ∨
    c.l2.isSome ∧ (event = .L2_to_L1I ∨ event = .L2_to_L1D) ∨
    event = mandatoryRequestTypeToEvent type ∧
      (wrongL1 (type = .IFETCH) c = none ∨ room.resources = false) ∧
      (c.l2 = none ∨ c.l1D.isSome ∨ c.l1I.isSome) := by
  unfold mandatoryQueue at he
  by_cases hi : type = .IFETCH
  · simp only [hi, if_true] at he
    simp only [hi, wrongL1, decide_true, if_true]
    grind [Option.isNone_iff_eq_none, Option.isSome_iff_ne_none]
  · simp only [hi, if_false] at he
    simp only [hi, wrongL1, decide_false]
    grind [Option.isNone_iff_eq_none, Option.isSome_iff_ne_none]

/-- The event of the mandatory queue, where the transition has the resources it needs. -/
theorem Shows.demand {type : CacheRequestType} {room : Room} {event : Event} (h : Shows c v)
    (he : mandatoryQueue type room c = some event)
    (hr : (needsResources v.state event && !room.resources) = false) :
    Answers i driver c v event := by
  obtain ⟨rfl, h1⟩ | ⟨h2, rfl | rfl⟩ | ⟨rfl, hw, h2⟩ := mandatoryQueue_cases he
  · exact h.l1_to_L2 (by simpa using h1)
  · exact h.l2_to_L1I h2
  · exact h.l2_to_L1D h2
  · have h2 : c.l2 = none := h2.elim id h.l2_eq_none
    have hw : wrongL1 (type = .IFETCH) c = none ∨
        needsResources v.state (mandatoryRequestTypeToEvent type) = false := by
      refine hw.imp_right fun hres => ?_
      simpa [hres] using hr
    cases type with
    | LD => exact h.load false h2 hw
    | IFETCH => exact h.load true h2 hw
    | ST => exact h.store h2 hw
    | ATOMIC => exact h.store h2 hw

theorem Shows.makeRoom {event : Event} (h : Shows c v) (he : L1Cache.makeRoom c = some event) :
    Answers i driver c v event := by
  unfold L1Cache.makeRoom at he
  split at he
  · next h2 =>
      cases he
      exact h.l2_Replacement h2
  · split at he
    · next h1 =>
        cases he
        exact h.l1_to_L2 h1
    · cases he

/-! The fast path -/

omit [DecidableEq D] [Inhabited D] in
theorem Shows.access_load {type : CacheRequestType} {entry : Entry D} (h : Shows c v)
    (ht : c.tryCacheAccess type) (he : (if type = .IFETCH then c.l1I else c.l1D) = some entry) :
    v.state.isReadable ∧ entry.dataBlk = v.data := by
  have hp : entry.permission ≠ .Invalid := by
    intro hp
    simp [tryCacheAccess, he, hp] at ht
  have hentry : entry.permission = v.state.permission ∧ entry.dataBlk = v.data := by
    cases h with
    | stable loc d h => cases loc <;> cases type <;> cases he <;> exact ⟨rfl, rfl⟩
    | transient instr d d' p n h => cases instr <;> cases type <;> cases he <;> exact ⟨rfl, rfl⟩
    | _ => cases type <;> cases he
  exact ⟨decide_eq_true (hentry.1 ▸ hp), hentry.2⟩

omit [DecidableEq D] [Inhabited D] in
theorem Shows.access_store {type : CacheRequestType} {entry : Entry D} (h : Shows c v)
    (ht : c.tryCacheAccess type) (hl : ¬ (type = .LD ∨ type = .IFETCH))
    (he : c.l1D = some entry) :
    v = ⟨.MM, entry.dataBlk, 0, 0⟩ ∧
      Shows { c with l1D := some { entry with dataBlk := driver entry.dataBlk } }
        ⟨.MM, driver entry.dataBlk, 0, 0⟩ := by
  obtain ⟨hld, hif⟩ := not_or.mp hl
  have hp : entry.permission = .Read_Write := by
    simpa [tryCacheAccess, he, hld, hif] using ht
  cases h with
  | absent d => cases he
  | @stable loc state d h =>
      cases loc with
      | l1D =>
          cases he
          cases state with
          | MM => exact ⟨rfl, @Shows.stable _ .l1D .MM (driver d) rfl⟩
          | _ => cases hp
      | _ => cases he
  | @transient instr state d d' p n h =>
      cases instr with
      | true => cases he
      | false =>
          cases he
          cases state with
          | MM => exact absurd h Bool.false_ne_true
          | _ => cases hp
  | writeback d => cases he

end

end L1Cache
end FeS2.Ruby
