import FeS2.Library.ExceptRun
import FeS2.Ruby.TokenSystem

/-!
What the actions of the token directory do to its tokens, to the memory and to the
responses in flight, by kind.
-/

namespace FeS2.Ruby
namespace Token
namespace Directory
variable {ι D : Type} {x x' : Context ι D} {a : Action}

/-- `send` and `sendData` send every token. -/
inductive Kind
  | quiet
  | send
  | sendData
  | gain
  | write
  | check
  | bounce
  | reassociate
  deriving DecidableEq

def Action.kind : Action → Kind
  | .a_sendTokens | .aa_sendTokensToStarver => .send
  | .d_sendDataWithAllTokens | .dd_sendDataWithAllTokensToStarver => .sendData
  | .f_incrementTokens => .gain
  | .m_writeDataToMemory => .write
  | .n_checkIncomingMsg => .check
  | .r_bounceResponse => .bounce
  | .s_bounceDatalessOwnerToken => .reassociate
  | _ => .quiet

/-- The memory, and what is in flight, stay. -/
structure Still (x x' : Context ι D) : Prop where
  tokens : x'.entry.tokens = x.entry.tokens
  dataBlk : x'.entry.dataBlk = x.entry.dataBlk
  responses : x'.responses = x.responses

/-- A message is sent, and the memory stays. -/
structure Sent (x x' : Context ι D) (tokens : ℕ) (dest : ι) (m : ResponseMsg ι D) : Prop where
  tokens : x'.entry.tokens = tokens
  dataBlk : x'.entry.dataBlk = x.entry.dataBlk
  responses : x'.responses = (.cache dest, m) ::ₘ x.responses

def Effect [LinearOrder ι] [DecidableEq D] [Inhabited D] (x x' : Context ι D) : Kind → Prop
  | .quiet => Still x x'
  | .send => x.entry.tokens = 0 ∧ Still x x' ∨
      x.entry.tokens > 0 ∧ ∃ dest, Sent x x' 0 dest (ack x.entry)
  | .sendData => x.entry.tokens > 0 ∧ ∃ dest, Sent x x' 0 dest (data x.entry)
  | .gain => ∃ m, x.inMsg = .response m ∧ m.tokens ≥ 1 ∧
      x'.entry.tokens = x.entry.tokens + m.tokens ∧ x'.entry.dataBlk = x.entry.dataBlk ∧
      x'.responses = x.responses
  | .write => ∃ m, x.inMsg = .response m ∧ x'.entry.tokens = x.entry.tokens ∧
      x'.entry.dataBlk = m.dataBlk ∧ x'.responses = x.responses
  | .check => ∃ m, x.inMsg = .response m ∧ checkIncomingMsg x.entry m ∧ Still x x'
  | .bounce => ∃ m dest, x.inMsg = .response m ∧
      Sent x x' x.entry.tokens dest { m with sender := .directory }
  | .reassociate => ∃ m dest, x.inMsg = .response m ∧ checkIncomingMsg x.entry m ∧
      Sent x x' x.entry.tokens dest (reassociated x.entry m)

def Action.pops : Action → Bool
  | .i_popIncomingCompletionQueue | .j_popIncomingRequestQueue | .k_popIncomingResponseQueue
  | .l_popIncomingPersistentQueue => true
  | _ => false

/-- What an action does besides. -/
structure Frame (x x' : Context ι D) (a : Action) : Prop where
  inMsg : x'.inMsg = x.inMsg
  table : x'.table = x.table
  popped : x'.popped = (a.pops || x.popped)

theorem responseMsg_eq_ok {m : ResponseMsg ι D} :
    x.responseMsg = .ok m ↔ x.inMsg = .response m := by
  unfold Context.responseMsg
  split
  · next he => rw [he]; exact ⟨fun h => Except.ok.inj h ▸ rfl, fun h => InMsg.response.inj h ▸ rfl⟩
  · next hne => exact ⟨fun h => (nomatch h), fun h => absurd h (hne m)⟩

theorem removeSender_still [LinearOrder ι] (sender : NodeID ι) (entry : Directory ι D) :
    (removeSender sender entry).tokens = entry.tokens ∧
      (removeSender sender entry).dataBlk = entry.dataBlk := by
  unfold removeSender
  cases sender <;> dsimp only <;> split <;> exact ⟨rfl, rfl⟩

variable [LinearOrder ι] [DecidableEq D] [Inhabited D]

theorem perform_effect (h : a.perform x = .ok x') : Frame x x' a ∧ Effect x x' a.kind := by
  cases a <;> simp only [Action.perform, ExceptRun.bind_eq_ok, responseMsg_eq_ok] at h
  case a_sendTokens | aa_sendTokensToStarver =>
    split at h
    · next hpos =>
        obtain ⟨_, -, h⟩ := ExceptRun.bind_eq_ok.mp h
        obtain rfl := Except.ok.inj h
        exact ⟨⟨rfl, rfl, rfl⟩, .inr ⟨hpos, _, rfl, rfl, rfl⟩⟩
    · next hzero =>
        obtain rfl := Except.ok.inj h
        exact ⟨⟨rfl, rfl, rfl⟩, .inl ⟨Nat.eq_zero_of_not_pos hzero, rfl, rfl, rfl⟩⟩
  case d_sendDataWithAllTokens | dd_sendDataWithAllTokensToStarver =>
    obtain ⟨_, -, h⟩ := h
    split at h
    · next hpos =>
        obtain rfl := Except.ok.inj h
        exact ⟨⟨rfl, rfl, rfl⟩, hpos, _, rfl, rfl, rfl⟩
    · cases h
  case f_incrementTokens =>
    obtain ⟨m, hm, h⟩ := h
    split at h
    · next hpos =>
        obtain rfl := Except.ok.inj h
        exact ⟨⟨rfl, rfl, rfl⟩, m, hm, hpos, rfl, rfl, rfl⟩
    · cases h
  case m_writeDataToMemory =>
    obtain ⟨m, hm, h⟩ := h
    obtain rfl := Except.ok.inj h
    exact ⟨⟨rfl, rfl, rfl⟩, m, hm, rfl, rfl, rfl⟩
  case n_checkIncomingMsg =>
    obtain ⟨m, hm, h⟩ := h
    split at h
    · next hc =>
        obtain rfl := Except.ok.inj h
        exact ⟨⟨rfl, rfl, rfl⟩, m, hm, hc, rfl, rfl, rfl⟩
    · cases h
  case r_bounceResponse =>
    obtain ⟨m, hm, _, -, h⟩ := h
    obtain rfl := Except.ok.inj h
    exact ⟨⟨rfl, rfl, rfl⟩, m, _, hm, rfl, rfl, rfl⟩
  case s_bounceDatalessOwnerToken =>
    obtain ⟨m, hm, h⟩ := h
    split at h
    · next hc =>
        obtain ⟨_, -, h⟩ := ExceptRun.bind_eq_ok.mp h
        obtain rfl := Except.ok.inj h
        exact ⟨⟨rfl, rfl, rfl⟩, m, _, hm, hc, rfl, rfl, rfl⟩
    · cases h
  case p_completionOwnerWriteback | q_completionCleanWriteback =>
    obtain ⟨m, -, h⟩ := h
    obtain rfl := Except.ok.inj h
    exact ⟨⟨rfl, rfl, rfl⟩, (removeSender_still _ _).1, (removeSender_still _ _).2, rfl⟩
  case l_popIncomingPersistentQueue =>
    split at h
    · obtain rfl := Except.ok.inj h
      exact ⟨⟨rfl, rfl, rfl⟩, rfl, rfl, rfl⟩
    · cases h
  case i_popIncomingCompletionQueue | k_popIncomingResponseQueue =>
    obtain rfl := Except.ok.inj h
    exact ⟨⟨rfl, rfl, rfl⟩, rfl, rfl, rfl⟩
  all_goals
    obtain ⟨_, -, h⟩ := h
    obtain rfl := Except.ok.inj h
    exact ⟨⟨rfl, rfl, rfl⟩, rfl, rfl, rfl⟩

/-! The table -/

def State.list : List State := [.O, .NO, .L]

def Event.list : List Event :=
  [.GETX, .GETS, .Lockdown, .Unlockdown, .Data_Owner, .Data_Shared, .Ack, .Ack_Owner,
    .Exclusive_Completion, .Owned_Completion, .Shared_Completion]

/-- A check of every row. -/
def everyRow (check : State → Event → State → List Action → Bool) : Bool :=
  State.list.all fun state => Event.list.all fun event =>
    match transition state event with
    | some (next, actions) => check state event next actions
    | none => true

theorem row_of_everyRow (check : State → Event → State → List Action → Bool)
    (h : everyRow check = true) {state next : State} {event : Event} {actions : List Action}
    (ht : transition state event = some (next, actions)) :
    check state event next actions = true := by
  have hstate : state ∈ State.list := by cases state <;> decide
  have hevent : event ∈ Event.list := by cases event <;> decide
  have h := List.all_eq_true.mp (List.all_eq_true.mp h state hstate) event hevent
  rwa [ht] at h

/-- The invariant rule for the actions of a transition. -/
theorem run_rule {I : List Action → Context ι D → Prop} {actions : List Action} {y : Context ι D}
    (preserved : ∀ a actions x x', I (a :: actions) x → Frame x x' a → Effect x x' a.kind →
      I actions x')
    (h : actions.foldlM Action.perform x = .ok y) (hI : I actions x) : I [] y :=
  ExceptRun.foldlM_invariant (fun a actions x x' hI ha =>
    preserved a actions x x' hI (perform_effect ha).1 (perform_effect ha).2) hI h

theorem doTransition_eq_ok {event : Event} : doTransition event x = .ok x' ↔
    ∃ next actions y entry, transition x.entry.directoryState event = some (next, actions) ∧
      actions.foldlM Action.perform x = .ok y ∧ setState next y.entry = .ok entry ∧
      { y with entry := entry } = x' := by
  unfold doTransition
  constructor
  · intro h
    split at h
    · cases h
    · next next actions ht =>
        obtain ⟨y, hy, h⟩ := ExceptRun.bind_eq_ok.mp h
        obtain ⟨entry, he, h⟩ := ExceptRun.bind_eq_ok.mp h
        exact ⟨next, actions, y, entry, ht, hy, he, Except.ok.inj h⟩
  · rintro ⟨next, actions, y, entry, ht, hy, he, rfl⟩
    rw [ht]
    exact ExceptRun.bind_eq_ok.mpr ⟨y, hy, ExceptRun.bind_eq_ok.mpr ⟨entry, he, rfl⟩⟩

omit [LinearOrder ι] [DecidableEq D] [Inhabited D] in
/-- What passes the assertions of `setState`. -/
theorem setState_eq_ok {state : State} {entry entry' : Directory ι D}
    (h : setState state entry = .ok entry') :
    entry' = { entry with directoryState := state } ∧ (state = .O → entry.tokens ≥ 1) := by
  unfold setState at h
  split at h
  · next hok => exact ⟨(Except.ok.inj h).symm, fun hO => (hok.2.2.2 hO).1⟩
  · cases h

end Directory
end Token
end FeS2.Ruby
