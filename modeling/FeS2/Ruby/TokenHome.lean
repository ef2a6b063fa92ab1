import FeS2.Ruby.TokenOwner

/-!
The owner token at the directory: with it the memory has the data, and what the
directory sends is good. Clean data that comes back is what the memory has.
-/

namespace FeS2.Ruby
namespace Token
namespace Directory
variable {ι D : Type} {x x' y z z' : Context ι D} {actions rest : List Action} {a : Action}
  {state next : State} {event : Event} {cur : D} {m : ResponseMsg ι D}

def Event.owner : Event → Bool
  | .Data_Owner | .Ack_Owner => true
  | _ => false

/-- Whether the memory has the data, and whether the tokens are those of the start. -/
structure Watch where
  current : Bool
  untouched : Bool
  deriving DecidableEq

def Watch.start (state : State) (event : Event) : Watch :=
  { current := state = .O || event = .Ack_Owner, untouched := true }

def Watch.step (w : Watch) : Kind → Watch
  | .send | .sendData | .gain => { w with untouched := false }
  | .write => { w with current := true }
  | _ => w

/-- What an action relies on. -/
def Watch.guard (state : State) (event : Event) (w : Watch) : Kind → Bool
  | .sendData => w.untouched && w.current && state = .O
  | .gain => event.response
  | .write => event = .Data_Owner
  | .check | .reassociate => event = .Ack_Owner
  | .bounce => event.response && event ≠ .Ack_Owner
  | _ => true

def audit (state : State) (event : Event) : Watch → List Action → Bool
  | _, [] => true
  | w, a :: rest => w.guard state event a.kind && audit state event (w.step a.kind) rest

def Watch.after (state : State) (event : Event) (actions : List Action) : Watch :=
  actions.foldl (fun w a => w.step a.kind) (.start state event)

/-- The owner tokens that an action sends. -/
def Kind.sends (event : Event) : Kind → ℕ
  | .sendData | .reassociate => 1
  | .bounce => event.owner.toNat
  | _ => 0

def sends (event : Event) : List Action → ℕ
  | [] => 0
  | a :: rest => a.kind.sends event + sends event rest

def State.owner : State → Bool
  | .O => true
  | _ => false

/-- A lock takes the directory to L, and the last unlock out of it. -/
def relocks (state : State) (event : Event) (next : State) : Bool :=
  match event with
  | .Lockdown => next = .L
  | .Unlockdown => next ≠ .L
  | _ => (state = .L) = (next = .L)

def rowOwned (state : State) (event : Event) (next : State) (actions : List Action) : Bool :=
  audit state event (.start state event) actions &&
  (state.owner.toNat + event.owner.toNat = next.owner.toNat + sends event actions) &&
  (next ≠ .O || (Watch.after state event actions).current) &&
  relocks state event next

theorem rows_owned : everyRow rowOwned = true := by decide +kernel

/-! Soundness -/

/-- What is known of the directory when it takes a transition, and of the message it answers. -/
structure Asked (x : Context ι D) (event : Event) (cur : D) : Prop where
  tokens : x.entry.directoryState = .O → x.entry.tokens ≥ 1
  current : x.entry.directoryState = .O → x.entry.dataBlk = cur
  response : event.response → ∃ m, x.inMsg = .response m
  good : ∀ m, x.inMsg = .response m →
    m.Good x.entry.dataBlk cur .directory ∧ event = responseNetwork m

/-- In the course of a transition, with the actions in `rest` to come. -/
structure Passing (x : Context ι D) (event : Event) (cur : D) (actions rest : List Action)
    (z : Context ι D) : Prop where
  inMsg : z.inMsg = x.inMsg
  memory : z.entry.dataBlk = x.entry.dataBlk ∨ z.entry.dataBlk = cur
  watch : ∃ w : Watch, (w.current → z.entry.dataBlk = cur) ∧
    (w.untouched → z.entry.tokens = x.entry.tokens) ∧
    audit x.entry.directoryState event w rest ∧
    rest.foldl (fun w a => w.step a.kind) w = .after x.entry.directoryState event actions
  good : ∀ r ∈ z.responses, r.2.Good z.entry.dataBlk cur r.1
  owning : owning z.responses + sends event rest = sends event actions

theorem type_of_responseNetwork (h : event = responseNetwork m) :
    (event = .Ack_Owner ↔ m.type = .ACK_OWNER) ∧ (event = .Data_Owner ↔ m.type = .DATA_OWNER) ∧
      m.owner = event.owner := by
  subst h
  unfold responseNetwork ResponseMsg.owner
  cases m.type <;> exact ⟨by decide, by decide, rfl⟩

/-- Nothing is sent, and the memory stays. -/
theorem Still.good (h : Still z z') (hgood : ∀ r ∈ z.responses, r.2.Good z.entry.dataBlk cur r.1) :
    ∀ r ∈ z'.responses, r.2.Good z'.entry.dataBlk cur r.1 := by
  rw [h.responses, h.dataBlk]
  exact hgood

theorem Sent.good {tokens : ℕ} {dest : ι} (h : Sent z z' tokens dest m)
    (hm : m.Good z.entry.dataBlk cur (.cache dest))
    (hgood : ∀ r ∈ z.responses, r.2.Good z.entry.dataBlk cur r.1) :
    ∀ r ∈ z'.responses, r.2.Good z'.entry.dataBlk cur r.1 := by
  rw [h.responses, h.dataBlk]
  intro r hr
  rcases Multiset.mem_cons.mp hr with rfl | hr
  · exact hm
  · exact hgood r hr

theorem Sent.owning {tokens : ℕ} {dest : ι} (h : Sent z z' tokens dest m) :
    owning z'.responses = owning z.responses + m.owner.toNat := by
  rw [h.responses, owning_cons, Nat.add_comm]

/-- What an action makes of what is known. -/
structure Acted (x z z' : Context ι D) (event : Event) (k : Kind) (w : Watch) (cur : D) : Prop where
  memory : z'.entry.dataBlk = x.entry.dataBlk ∨ z'.entry.dataBlk = cur
  current : (w.step k).current → z'.entry.dataBlk = cur
  untouched : (w.step k).untouched → z'.entry.tokens = x.entry.tokens
  good : ∀ r ∈ z'.responses, r.2.Good z'.entry.dataBlk cur r.1
  owning : owning z'.responses = owning z.responses + k.sends event

variable [LinearOrder ι] [DecidableEq D] [Inhabited D]

theorem acted {w : Watch} {k : Kind} (hx : Asked x event cur) (hin : z.inMsg = x.inMsg)
    (hmem : z.entry.dataBlk = x.entry.dataBlk ∨ z.entry.dataBlk = cur)
    (hcur : w.current → z.entry.dataBlk = cur)
    (hunt : w.untouched → z.entry.tokens = x.entry.tokens)
    (hgood : ∀ r ∈ z.responses, r.2.Good z.entry.dataBlk cur r.1)
    (hguard : w.guard x.entry.directoryState event k) (he : Effect z z' k) :
    Acted x z z' event k w cur := by
  have hmsg : ∀ m, z.inMsg = .response m →
      m.Good z.entry.dataBlk cur .directory ∧ event = responseNetwork m := by
    intro m hm
    obtain ⟨hg, hev⟩ := hx.good m (hin ▸ hm)
    exact ⟨hg.update hmem, hev⟩
  cases k with
  | quiet =>
      exact ⟨he.dataBlk ▸ hmem, fun h => he.dataBlk ▸ hcur h, fun h => he.tokens ▸ hunt h,
        Still.good he hgood, by rw [he.responses]; rfl⟩
  | send =>
      rcases he with ⟨-, he⟩ | ⟨hpos, dest, he⟩
      · exact ⟨he.dataBlk ▸ hmem, fun h => he.dataBlk ▸ hcur h, fun h => (nomatch h),
          Still.good he hgood, by rw [he.responses]; rfl⟩
      · refine ⟨he.dataBlk ▸ hmem, fun h => he.dataBlk ▸ hcur h, fun h => (nomatch h),
          he.good ⟨hpos, fun h => absurd rfl h, fun h => (nomatch h)⟩ hgood, he.owning⟩
  | sendData =>
      obtain ⟨hpos, dest, he⟩ := he
      obtain ⟨hguard, -⟩ := Bool.and_eq_true_iff.mp hguard
      have hdata := hcur (Bool.and_eq_true_iff.mp hguard).2
      exact ⟨he.dataBlk ▸ hmem, fun h => he.dataBlk ▸ hcur h, fun h => (nomatch h),
        he.good ⟨hpos, fun _ => ⟨hdata, fun _ => hdata⟩, fun h => (nomatch h)⟩ hgood, he.owning⟩
  | gain =>
      obtain ⟨m, -, -, -, hd, hr⟩ := he
      exact ⟨hd ▸ hmem, fun h => hd ▸ hcur h, fun h => (nomatch h), by rw [hr, hd]; exact hgood,
        by rw [hr]; rfl⟩
  | write =>
      obtain ⟨m, hm, ht, hd, hr⟩ := he
      obtain ⟨hg, hev⟩ := hmsg m hm
      have htype := (type_of_responseNetwork hev).2.1.mp (of_decide_eq_true hguard)
      have hdata : z'.entry.dataBlk = cur :=
        hd.trans (hg.data (by rw [htype]; exact fun h => nomatch h)).dataBlk
      refine ⟨.inr hdata, fun _ => hdata, fun h => ht ▸ hunt h, fun r hmem => ?_, by rw [hr]; rfl⟩
      rw [hr] at hmem
      exact (hgood r hmem).update (.inr hdata)
  | check =>
      obtain ⟨m, -, -, he⟩ := he
      exact ⟨he.dataBlk ▸ hmem, fun h => he.dataBlk ▸ hcur h, fun h => he.tokens ▸ hunt h,
        he.good hgood, by rw [he.responses]; rfl⟩
  | bounce =>
      obtain ⟨m, dest, hm, he⟩ := he
      obtain ⟨hg, hev⟩ := hmsg m hm
      obtain ⟨hack, -, howner⟩ := type_of_responseNetwork hev
      have hne : event ≠ .Ack_Owner := of_decide_eq_true (Bool.and_eq_true_iff.mp hguard).2
      refine ⟨he.dataBlk ▸ hmem, fun h => he.dataBlk ▸ hcur h, fun h => he.tokens ▸ hunt h,
        he.good ⟨hg.tokens, hg.data, fun h => absurd (hack.mpr h) hne⟩ hgood, ?_⟩
      rw [he.owning]
      exact congrArg (_ + Bool.toNat ·) howner
  | reassociate =>
      obtain ⟨m, dest, hm, -, he⟩ := he
      obtain ⟨hg, hev⟩ := hmsg m hm
      have htype := (type_of_responseNetwork hev).1.mp (of_decide_eq_true hguard)
      obtain ⟨-, hdata, -⟩ := hg.ack_owner htype
      exact ⟨he.dataBlk ▸ hmem, fun h => he.dataBlk ▸ hcur h, fun h => he.tokens ▸ hunt h,
        he.good ⟨hg.tokens, fun _ => ⟨hdata, fun _ => hdata⟩,
          fun h => (nomatch h)⟩ hgood, he.owning⟩

theorem Passing.step (h : Passing x event cur actions (a :: rest) z) (hx : Asked x event cur)
    (hf : Frame z z' a) (he : Effect z z' a.kind) : Passing x event cur actions rest z' := by
  obtain ⟨hin, hmem, ⟨w, hcur, hunt, haudit, hafter⟩, hgood, hown⟩ := h
  obtain ⟨hguard, haudit⟩ := Bool.and_eq_true_iff.mp haudit
  have hact := acted hx hin hmem hcur hunt hgood hguard he
  refine ⟨hf.inMsg.trans hin, hact.memory, ⟨_, hact.current, hact.untouched, haudit, hafter⟩,
    hact.good, ?_⟩
  rw [hact.owning, Nat.add_assoc]
  exact hown

omit [LinearOrder ι] [DecidableEq D] [Inhabited D] in
theorem passing_start (hx : Asked x event cur) (hr : x.responses = 0)
    (ht : transition x.entry.directoryState event = some (next, actions)) :
    Passing x event cur actions actions x := by
  have hrow := row_of_everyRow rowOwned rows_owned ht
  simp only [rowOwned, Bool.and_eq_true] at hrow
  refine ⟨rfl, .inl rfl, ⟨.start _ event, fun hc => ?_, fun _ => rfl, hrow.1.1.1, rfl⟩,
    fun r hmem => ?_, ?_⟩
  · rcases Bool.or_eq_true_iff.mp hc with hO | hack
    · exact hx.current (of_decide_eq_true hO)
    · obtain rfl := of_decide_eq_true hack
      obtain ⟨m, hm⟩ := hx.response rfl
      obtain ⟨hg, hev⟩ := hx.good m hm
      exact (hg.ack_owner ((type_of_responseNetwork hev).1.mp rfl)).2.1
  · rw [hr] at hmem
    exact absurd hmem (Multiset.notMem_zero r)
  · rw [hr, owning_zero, Nat.zero_add]

/-! Failures -/

omit [LinearOrder ι] [DecidableEq D] [Inhabited D] in
theorem requestMsg_error {f : Failure} (h : z.requestMsg = .error f) : f = .assertion := by
  unfold Context.requestMsg at h
  split at h
  · cases h
  · exact (Except.error.inj h).symm

omit [LinearOrder ι] [DecidableEq D] [Inhabited D] in
theorem responseMsg_error {f : Failure} (h : z.responseMsg = .error f) : f = .assertion := by
  unfold Context.responseMsg at h
  split at h
  · cases h
  · exact (Except.error.inj h).symm

omit [LinearOrder ι] [DecidableEq D] [Inhabited D] in
theorem completionMsg_error {f : Failure} (h : z.completionMsg = .error f) : f = .assertion := by
  unfold Context.completionMsg at h
  split at h
  · cases h
  · exact (Except.error.inj h).symm

omit [DecidableEq D] [Inhabited D] in
theorem starver_error {f : Failure} (h : z.starver = .error f) : f = .assertion := by
  unfold Context.starver at h
  split at h
  · cases h
  · exact (Except.error.inj h).symm

/-- The assertions on tokens and on returned data fail for want of what they check. -/
theorem perform_error {f : Failure} (h : a.perform z = .error f) : f = .assertion ∨
    (a.kind = .sendData ∧ z.entry.tokens = 0) ∨
    (a.kind = .gain ∧ ∃ m, z.inMsg = .response m ∧ m.tokens = 0) ∨
    ((a.kind = .check ∨ a.kind = .reassociate) ∧ ∃ m, z.inMsg = .response m ∧
      ¬ checkIncomingMsg z.entry m) := by
  cases a <;> simp only [Action.perform, ExceptRun.bind_eq_error, responseMsg_eq_ok] at h
  case a_sendTokens =>
    split at h
    · rcases ExceptRun.bind_eq_error.mp h with h | ⟨_, -, h⟩
      · exact .inl (requestMsg_error h)
      · cases h
    · cases h
  case aa_sendTokensToStarver =>
    split at h
    · rcases ExceptRun.bind_eq_error.mp h with h | ⟨_, -, h⟩
      · exact .inl (starver_error h)
      · cases h
    · cases h
  case b_forwardToSharers | c_forwardToOwner | j_popIncomingRequestQueue =>
    rcases h with h | ⟨_, -, h⟩
    · exact .inl (requestMsg_error h)
    · cases h
  case d_sendDataWithAllTokens =>
    rcases h with h | ⟨_, -, h⟩
    · exact .inl (requestMsg_error h)
    · split at h
      · cases h
      · next hz => exact .inr (.inl ⟨rfl, Nat.eq_zero_of_not_pos hz⟩)
  case dd_sendDataWithAllTokensToStarver =>
    rcases h with h | ⟨_, -, h⟩
    · exact .inl (starver_error h)
    · split at h
      · cases h
      · next hz => exact .inr (.inl ⟨rfl, Nat.eq_zero_of_not_pos hz⟩)
  case f_incrementTokens =>
    rcases h with h | ⟨m, hm, h⟩
    · exact .inl (responseMsg_error h)
    · split at h
      · cases h
      · next hz => exact .inr (.inr (.inl ⟨rfl, m, hm, by omega⟩))
  case n_checkIncomingMsg =>
    rcases h with h | ⟨m, hm, h⟩
    · exact .inl (responseMsg_error h)
    · split at h
      · cases h
      · next hc => exact .inr (.inr (.inr ⟨.inl rfl, m, hm, hc⟩))
  case s_bounceDatalessOwnerToken =>
    rcases h with h | ⟨m, hm, h⟩
    · exact .inl (responseMsg_error h)
    · split at h
      · rcases ExceptRun.bind_eq_error.mp h with h | ⟨_, -, h⟩
        · exact .inl (starver_error h)
        · cases h
      · next hc => exact .inr (.inr (.inr ⟨.inr rfl, m, hm, hc⟩))
  case r_bounceResponse =>
    rcases h with h | ⟨_, -, h | ⟨_, -, h⟩⟩
    · exact .inl (responseMsg_error h)
    · exact .inl (starver_error h)
    · cases h
  case l_popIncomingPersistentQueue =>
    split at h
    · cases h
    · exact .inl (Except.error.inj h).symm
  case m_writeDataToMemory | p_completionOwnerWriteback | q_completionCleanWriteback =>
    rcases h with h | ⟨_, -, h⟩
    · exact .inl (responseMsg_error h)
    · cases h
  case v_completionExclusive | w_completionOwned | x_completionShared =>
    rcases h with h | ⟨_, -, h⟩
    · exact .inl (completionMsg_error h)
    · cases h
  all_goals cases h

/-- The assertions hold along a row. -/
theorem Passing.error {f : Failure} (h : Passing x event cur actions (a :: rest) z)
    (hx : Asked x event cur) (ha : a.perform z = .error f) : f = .assertion := by
  obtain ⟨hin, hmem, ⟨w, hcur, hunt, haudit, -⟩, -, -⟩ := h
  obtain ⟨hguard, -⟩ := Bool.and_eq_true_iff.mp haudit
  rcases perform_error ha with rfl | ⟨hk, hz⟩ | ⟨hk, m, hm, hz⟩ | ⟨hk, m, hm, hc⟩
  · rfl
  · rw [hk] at hguard
    obtain ⟨hguard, hO⟩ := Bool.and_eq_true_iff.mp hguard
    have h1 := hx.tokens (of_decide_eq_true hO)
    rw [← hunt (Bool.and_eq_true_iff.mp hguard).1] at h1
    omega
  · have h1 := (hx.good m (hin ▸ hm)).1.tokens
    omega
  · have hev : event = .Ack_Owner := by
      rcases hk with hk | hk <;> rw [hk] at hguard <;> exact of_decide_eq_true hguard
    obtain ⟨hg, hev'⟩ := hx.good m (hin ▸ hm)
    have htype := (type_of_responseNetwork hev').1.mp hev
    obtain ⟨hdata, hmemory, hdirty, hsize⟩ := (hg.update hmem).ack_owner htype
    refine absurd ?_ hc
    simp [checkIncomingMsg, htype, hdirty, hsize, hdata, hmemory]

theorem doTransition_error {f : Failure} (hx : Asked x event cur) (hr : x.responses = 0)
    (h : doTransition event x = .error f) :
    f = .assertion ∨ f = .invalidTransition ∧ transition x.entry.directoryState event = none := by
  unfold doTransition at h
  split at h
  · next hnone => exact .inr ⟨(Except.error.inj h).symm, hnone⟩
  · next next actions ht =>
      refine .inl ?_
      rcases ExceptRun.bind_eq_error.mp h with h | ⟨y, -, h⟩
      · obtain ⟨a, rest, z, hI, ha⟩ := ExceptRun.foldlM_error
          (fun a rest z z' (hI : Passing x event cur actions (a :: rest) z) ha =>
            hI.step hx (perform_effect ha).1 (perform_effect ha).2)
          (passing_start hx hr ht) h
        exact hI.error hx ha
      · rcases ExceptRun.bind_eq_error.mp h with h | ⟨_, -, h⟩
        · unfold setState at h
          split at h
          · cases h
          · exact (Except.error.inj h).symm
        · cases h

/-! Transitions -/

def owners (entry : Directory ι D) : ℕ := entry.directoryState.owner.toNat

/-- What a transition does with the owner token and the data. -/
structure Settled (x x' : Context ι D) (event : Event) (cur : D) : Prop where
  memory : x'.entry.dataBlk = x.entry.dataBlk ∨ x'.entry.dataBlk = cur
  good : ∀ r ∈ x'.responses, r.2.Good x'.entry.dataBlk cur r.1
  owner : owners x'.entry + owning x'.responses = owners x.entry + event.owner.toNat
  tokens : x'.entry.directoryState = .O → x'.entry.tokens ≥ 1
  current : x'.entry.directoryState = .O → x'.entry.dataBlk = cur
  locked : relocks x.entry.directoryState event x'.entry.directoryState

theorem settled (hx : Asked x event cur) (hr : x.responses = 0)
    (h : doTransition event x = .ok x') : Settled x x' event cur := by
  obtain ⟨next, actions, y, entry, ht, hrun, hset, rfl⟩ := doTransition_eq_ok.mp h
  have hrow := row_of_everyRow rowOwned rows_owned ht
  simp only [rowOwned, Bool.and_eq_true, decide_eq_true_eq] at hrow
  obtain ⟨⟨⟨-, howner⟩, hcurrent⟩, hlock⟩ := hrow
  obtain ⟨-, hmem, ⟨w, hcur, -, -, hw⟩, hgood, hown⟩ :=
    run_rule (fun a rest z z' (hI : Passing x event cur actions (a :: rest) z) hf he =>
      hI.step hx hf he) hrun (passing_start hx hr ht)
  obtain ⟨rfl, hpos⟩ := setState_eq_ok hset
  refine ⟨hmem, hgood, ?_, fun hO => hpos hO, fun hO => hcur ?_, hlock⟩
  · change next.owner.toNat + owning y.responses = x.entry.directoryState.owner.toNat + _
    rw [howner, ← hown]
    rfl
  · obtain rfl : w = Watch.after x.entry.directoryState event actions := hw
    obtain rfl : next = .O := hO
    simpa using hcurrent

end Directory
end Token
end FeS2.Ruby
