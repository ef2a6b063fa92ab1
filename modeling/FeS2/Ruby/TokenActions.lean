import Mathlib.Algebra.BigOperators.Group.Multiset.Basic
import FeS2.Library.ExceptRun
import FeS2.Ruby.TokenSystem

/-!
What the actions of the token cache do to its entry and to the responses in flight, by
kind: what they add to the cache is taken from the message they answer, and what they
send from the cache.
-/

namespace FeS2.Ruby
namespace Token
namespace L1Cache
variable {ι D : Type} {cfg : Config} {x x' : Context ι D} {a : Action}

/-- `ack` and `own` send every token, `ackBut` and `ownBut` all but one. -/
inductive Kind
  | quiet
  | allocate
  | ack
  | ackBut
  | share
  | own
  | ownBut
  | bounce
  | gain
  | write
  | store
  | move
  deriving DecidableEq

def Action.kind : Action → Kind
  | .c_cleanReplacement | .e_sendAckWithCollectedTokens | .t_sendAckWithCollectedTokens => .ack
  | .f_sendAckWithAllButOneTokens => .ackBut
  | .d_sendDataWithToken => .share
  | .cc_dirtyReplacement | .dd_sendDataWithAllTokens | .ee_sendDataWithAllTokens => .own
  | .ff_sendDataWithAllButOneTokens => .ownBut
  | .b_bounceResponse | .g_bounceResponseToStarver => .bounce
  | .q_updateTokensFromResponse => .gain
  | .u_writeDataToCache => .write
  | .hh_store_hit => .store
  | .ii_allocateL1DCacheBlock | .pp_allocateL1ICacheBlock => .allocate
  | .gg_deallocateL1CacheBlock | .vv_allocateL2CacheBlock | .rr_deallocateL2CacheBlock
  | .ss_copyFromL1toL2 | .tt_copyFromL2toL1 => .move
  | _ => .quiet

/-- What a message says of the entry it was sent from. -/
structure Carries (entry : Entry D) (m : ResponseMsg ι D) : Prop where
  dataBlk : m.dataBlk = entry.dataBlk
  dirty : m.dirty = entry.dirty

/-- An owner token, with its data; the directory gets it clean without the need of a write. -/
inductive Owned (entry : Entry D) : NodeID ι → ResponseMsg ι D → Prop
  | data {dest m} (type : m.type = .DATA_OWNER) (carries : Carries entry m) : Owned entry dest m
  | clean {m} (type : m.type = .ACK_OWNER) (carries : Carries entry m) (dirty : m.dirty = false)
      (size : m.messageSize = .Writeback_Control) : Owned entry .directory m

/-- The entry keeps `tokens`, and the rest is sent. -/
structure Sent (x x' : Context ι D) (entry : Entry D) (tokens : ℕ) (dest : NodeID ι)
    (m : ResponseMsg ι D) : Prop where
  before : x.cache.getCacheEntry = some entry
  after : x'.cache.getCacheEntry = some { entry with tokens := tokens }
  sent : x'.responses = (dest, m) ::ₘ x.responses
  tokens : m.tokens + tokens = entry.tokens

/-- The entry and the responses stay. -/
structure Still (x x' : Context ι D) : Prop where
  entry : x'.cache.getCacheEntry = x.cache.getCacheEntry
  responses : x'.responses = x.responses

/-- The entry is written, and the responses stay. -/
structure Written (x x' : Context ι D) (entry entry' : Entry D) : Prop where
  before : x.cache.getCacheEntry = some entry
  after : x'.cache.getCacheEntry = some entry'
  responses : x'.responses = x.responses

def Effect [Inhabited D] (x x' : Context ι D) : Kind → Prop
  | .quiet => Still x x'
  | .allocate =>
      x'.cache.getCacheEntry = some (x.cache.getCacheEntry.getD .blank) ∧ x'.responses = x.responses
  | .ack => ∃ entry, x.cache.getCacheEntry = some entry ∧
      (entry.tokens = 0 ∧ Still x x' ∨
        ∃ dest m, Sent x x' entry 0 dest m ∧ m.type = .ACK ∧ m.tokens ≥ 1)
  | .ackBut => ∃ entry, x.cache.getCacheEntry = some entry ∧
      (entry.tokens = 1 ∧ Still x x' ∨
        ∃ dest m, Sent x x' entry 1 dest m ∧ m.type = .ACK ∧ m.tokens ≥ 1)
  | .share => ∃ entry dest m tokens, Sent x x' entry tokens dest m ∧ m.type = .DATA_SHARED ∧
      Carries entry m ∧ tokens ≥ 1 ∧ m.tokens ≥ 1
  | .own => ∃ entry dest m, Sent x x' entry 0 dest m ∧ Owned entry dest m
  | .ownBut => ∃ entry, x.cache.getCacheEntry = some entry ∧
      (entry.tokens = 1 ∧ Still x x' ∨
        ∃ dest m, Sent x x' entry 1 dest m ∧ Owned entry dest m ∧ m.tokens ≥ 1)
  | .bounce => ∃ m dest sender, x.inMsg = .response m ∧
      x'.cache.getCacheEntry = x.cache.getCacheEntry ∧
      x'.responses = (dest, { m with sender := sender }) ::ₘ x.responses
  | .gain => ∃ m entry, x.inMsg = .response m ∧ m.tokens ≠ 0 ∧
      Written x x' entry { entry with tokens := entry.tokens + m.tokens }
  | .write => ∃ m entry, x.inMsg = .response m ∧
      Written x x' entry { entry with dataBlk := m.dataBlk, dirty := m.dirty }
  | .store => ∃ entry,
      Written x x' entry { entry with dataBlk := x.driver entry.dataBlk, dirty := true }
  | .move => True

def Action.pops : Action → Bool
  | .l_popPersistentQueue | .m_popRequestQueue | .n_popResponseQueue => true
  | _ => false

def Action.tbe (before : Option State) : Action → Option State
  | .i_allocateTBE => some .I
  | .s_deallocateTBE => none
  | _ => before

/-- What an action does besides. -/
structure Frame (x x' : Context ι D) (a : Action) : Prop where
  id : x'.id = x.id
  driver : x'.driver = x.driver
  inMsg : x'.inMsg = x.inMsg
  popped : x'.popped = (a.pops || x.popped)
  tbeState : x'.cache.tbeState = a.tbe x.cache.tbeState
  tables : x'.arb.tables .directory = x.arb.tables .directory
  timers : ∀ id, id ≠ x.id → x'.arb.reissueTimer id = x.arb.reissueTimer id
  exclusive : a.kind ≠ .move → a.kind ≠ .allocate →
    x'.cache.memories.exclusive = x.cache.memories.exclusive

theorem entry_eq_ok {entry : Entry D} :
    x.entry = .ok entry ↔ x.cache.getCacheEntry = some entry := by
  unfold Context.entry
  split
  · next e he => rw [he]; exact ⟨fun h => Except.ok.inj h ▸ rfl, fun h => Option.some.inj h ▸ rfl⟩
  · next he => rw [he]; exact ⟨fun h => (nomatch h), fun h => (nomatch h)⟩

theorem responseMsg_eq_ok {m : ResponseMsg ι D} :
    x.responseMsg = .ok m ↔ x.inMsg = .response m := by
  unfold Context.responseMsg
  split
  · next he => rw [he]; exact ⟨fun h => Except.ok.inj h ▸ rfl, fun h => InMsg.response.inj h ▸ rfl⟩
  · next hne => exact ⟨fun h => (nomatch h), fun h => absurd h (hne m)⟩

@[simp] theorem getCacheEntry_modifyEntry {c : L1Cache D} {f : Entry D → Entry D} :
    (c.modifyEntry f).getCacheEntry = c.getCacheEntry.map f :=
  CacheHierarchy.getCacheEntry_modifyEntry

@[simp] theorem exclusive_modifyEntry {c : L1Cache D} {f : Entry D → Entry D} :
    (c.modifyEntry f).memories.exclusive = c.memories.exclusive :=
  CacheHierarchy.exclusive_modifyEntry

theorem tables_issueRequest [LinearOrder ι] {threshold : ℕ} {id : ι} {tbe : TokenTBE}
    {arb : PersistentArbitration ι} :
    (arb.a_issueRequest threshold id tbe).tables .directory = arb.tables .directory := by
  unfold PersistentArbitration.a_issueRequest
  split
  · rfl
  · split
    · rfl
    · split
      · dsimp only
        split
        · rfl
        · simp [PersistentArbitration.record, PersistentArbitration.setTBE,
            PersistentArbitration.setTable, PersistentArbitration.broadcast]
      · rfl

theorem tables_deallocateTBE [LinearOrder ι] {threshold : ℕ} {id : ι} {tbe : TokenTBE}
    {arb : PersistentArbitration ι} :
    (arb.s_deallocateTBE threshold id tbe).tables = arb.tables := by
  unfold PersistentArbitration.s_deallocateTBE
  split
  · rfl
  · dsimp only
    split <;> rfl

theorem timers_issueRequest [LinearOrder ι] {threshold : ℕ} {id id' : ι} {tbe : TokenTBE}
    {arb : PersistentArbitration ι} (hid : id' ≠ id) :
    (arb.a_issueRequest threshold id tbe).reissueTimer id' = arb.reissueTimer id' := by
  unfold PersistentArbitration.a_issueRequest
  split
  · rfl
  · split
    · exact Function.update_of_ne hid _ _
    · split
      · dsimp only
        split <;> rfl
      · exact Function.update_of_ne hid _ _

theorem timers_deallocateTBE [LinearOrder ι] {threshold : ℕ} {id : ι} {tbe : TokenTBE}
    {arb : PersistentArbitration ι} :
    (arb.s_deallocateTBE threshold id tbe).reissueTimer = arb.reissueTimer := by
  unfold PersistentArbitration.s_deallocateTBE
  split
  · rfl
  · dsimp only
    split <;> rfl

theorem setMemories_eq_ok {memories : Option (CacheHierarchy (Entry D))} :
    x.setMemories memories = .ok x' ↔ ∃ c, memories = some c ∧ { x with cache.memories := c } = x' := by
  cases memories with
  | none => exact ⟨fun h => (nomatch h), fun ⟨_, h, _⟩ => (nomatch h)⟩
  | some c =>
      refine ⟨fun h => ⟨c, rfl, Except.ok.inj h⟩, ?_⟩
      rintro ⟨c', hc, rfl⟩
      cases hc
      rfl

theorem completion_eq (cfg : Config) (result : CoherenceCompletionType) (x : Context ι D) :
    ∃ completions, completion cfg result x = { x with completions := completions } := by
  unfold completion
  split
  · exact ⟨_, rfl⟩
  · exact ⟨_, rfl⟩

@[simp] theorem exclusive_setTokens {tokens : ℕ} :
    (x.setTokens tokens).cache.memories.exclusive = x.cache.memories.exclusive :=
  exclusive_modifyEntry

@[simp] theorem getCacheEntry_setTokens {tokens : ℕ} : (x.setTokens tokens).cache.getCacheEntry =
    x.cache.getCacheEntry.map fun entry => { entry with tokens := tokens } :=
  getCacheEntry_modifyEntry

/-- Some of the entry's tokens are sent. -/
theorem sent_setTokens {dest : NodeID ι} {m : ResponseMsg ι D} {entry : Entry D} {tokens : ℕ}
    (he : x.cache.getCacheEntry = some entry) (ht : m.tokens + tokens = entry.tokens) :
    Sent x ((x.sendResponse dest m).setTokens tokens) entry tokens dest m :=
  ⟨he, by rw [getCacheEntry_setTokens]; exact congrArg _ he, rfl, ht⟩

theorem still_setTokens {entry : Entry D} (he : x.cache.getCacheEntry = some entry) :
    Still x (x.setTokens entry.tokens) := by
  refine ⟨?_, rfl⟩
  rw [getCacheEntry_setTokens, he]
  rfl

variable [Inhabited D]

/-- What `sendCollectedTokens` does is of the kind `ack`. -/
theorem sendCollectedTokens_effect {dest : NodeID ι} {size : MessageSizeType} {entry : Entry D}
    (he : x.cache.getCacheEntry = some entry) :
    Effect x (sendCollectedTokens dest size entry x) .ack := by
  refine ⟨entry, he, ?_⟩
  unfold sendCollectedTokens
  split
  · next hpos => exact .inr ⟨dest, _, sent_setTokens he (Nat.add_zero _), rfl, hpos⟩
  · next hzero =>
      have hz : entry.tokens = 0 := Nat.eq_zero_of_not_pos hzero
      exact .inl ⟨hz, hz ▸ still_setTokens he⟩

variable [LinearOrder ι] [DecidableEq D]

/-- Besides its effect on the entry and the responses, what an action does. -/
theorem perform_frame (h : a.perform cfg x = .ok x') : Frame x x' a := by
  cases a <;> simp only [Action.perform, ExceptRun.bind_eq_ok] at h
  case a_issueRequest =>
    split at h
    · unfold issueRequest at h
      dsimp only at h
      split at h
      · cases h
      · split at h <;> obtain rfl := Except.ok.inj h <;>
          exact ⟨rfl, rfl, rfl, rfl, rfl, tables_issueRequest, fun _ hid => timers_issueRequest hid,
            fun _ _ => rfl⟩
    · cases h
  case s_deallocateTBE =>
    split at h
    · unfold deallocateTBE at h
      dsimp only at h
      split at h
      · cases h
      · obtain rfl := Except.ok.inj h
        exact ⟨rfl, rfl, rfl, rfl, rfl, congrFun tables_deallocateTBE _,
          fun _ _ => congrFun timers_deallocateTBE _, fun _ _ => rfl⟩
    · cases h
  case i_allocateTBE =>
    split at h
    · obtain rfl := Except.ok.inj h
      exact ⟨rfl, rfl, rfl, rfl, rfl, rfl, fun _ _ => rfl, fun _ _ => rfl⟩
    · cases h
  case gg_deallocateL1CacheBlock | vv_allocateL2CacheBlock | rr_deallocateL2CacheBlock |
      ss_copyFromL1toL2 | tt_copyFromL2toL1 =>
    obtain ⟨c, -, rfl⟩ := setMemories_eq_ok.mp h
    exact ⟨rfl, rfl, rfl, rfl, rfl, rfl, fun _ _ => rfl, fun hk => absurd rfl hk⟩
  case ii_allocateL1DCacheBlock | pp_allocateL1ICacheBlock =>
    obtain rfl := Except.ok.inj h
    exact ⟨rfl, rfl, rfl, rfl, rfl, rfl, fun _ _ => rfl, fun _ hk => absurd rfl hk⟩
  case x_completionOwner | xx_completionExclusive | yy_completionShared =>
    obtain rfl := Except.ok.inj h
    obtain ⟨completions, heq⟩ := completion_eq cfg _ x
    rw [heq]
    exact ⟨rfl, rfl, rfl, rfl, rfl, rfl, fun _ _ => rfl, fun _ _ => rfl⟩
  case b_bounceResponse | h_load_hit =>
    obtain ⟨_, -, h⟩ := h
    obtain rfl := Except.ok.inj h
    exact ⟨rfl, rfl, rfl, rfl, rfl, rfl, fun _ _ => rfl, fun _ _ => rfl⟩
  case hh_store_hit =>
    obtain ⟨_, -, h⟩ := h
    obtain rfl := Except.ok.inj h
    exact ⟨rfl, rfl, rfl, rfl, rfl, rfl, fun _ _ => rfl, fun _ _ => exclusive_modifyEntry⟩
  case c_cleanReplacement =>
    obtain ⟨entry, -, h⟩ := h
    obtain rfl := Except.ok.inj h
    unfold sendCollectedTokens
    split
    · exact ⟨rfl, rfl, rfl, rfl, rfl, rfl, fun _ _ => rfl, fun _ _ => exclusive_setTokens⟩
    · exact ⟨rfl, rfl, rfl, rfl, rfl, rfl, fun _ _ => rfl, fun _ _ => rfl⟩
  case cc_dirtyReplacement =>
    obtain ⟨entry, -, h⟩ := h
    obtain rfl := Except.ok.inj h
    exact ⟨rfl, rfl, rfl, rfl, rfl, rfl, fun _ _ => rfl, fun _ _ => exclusive_setTokens⟩
  case e_sendAckWithCollectedTokens | t_sendAckWithCollectedTokens =>
    obtain ⟨_, -, entry, -, h⟩ := h
    obtain rfl := Except.ok.inj h
    unfold sendCollectedTokens
    split <;> exact ⟨rfl, rfl, rfl, rfl, rfl, rfl, fun _ _ => rfl, fun _ _ => exclusive_setTokens⟩
  case f_sendAckWithAllButOneTokens =>
    obtain ⟨_, -, entry, -, h⟩ := h
    split at h
    · obtain rfl := Except.ok.inj h
      split <;> exact ⟨rfl, rfl, rfl, rfl, rfl, rfl, fun _ _ => rfl, fun _ _ => exclusive_setTokens⟩
    · cases h
  case ff_sendDataWithAllButOneTokens =>
    obtain ⟨_, -, entry, -, h⟩ := h
    split at h
    · obtain rfl := Except.ok.inj h
      split
      · exact ⟨rfl, rfl, rfl, rfl, rfl, rfl, fun _ _ => rfl, fun _ _ => exclusive_setTokens⟩
      · exact ⟨rfl, rfl, rfl, rfl, rfl, rfl, fun _ _ => rfl, fun _ _ => rfl⟩
    · cases h
  case d_sendDataWithToken | dd_sendDataWithAllTokens | ee_sendDataWithAllTokens |
      q_updateTokensFromResponse =>
    obtain ⟨_, -, entry, -, h⟩ := h
    split at h
    · obtain rfl := Except.ok.inj h
      exact ⟨rfl, rfl, rfl, rfl, rfl, rfl, fun _ _ => rfl, fun _ _ => exclusive_setTokens⟩
    · cases h
  case w_assertIncomingDataAndCacheDataMatch =>
    obtain ⟨_, -, entry, -, h⟩ := h
    split at h
    · obtain rfl := Except.ok.inj h
      exact ⟨rfl, rfl, rfl, rfl, rfl, rfl, fun _ _ => rfl, fun _ _ => rfl⟩
    · cases h
  case g_bounceResponseToStarver =>
    obtain ⟨_, -, _, -, h⟩ := h
    obtain rfl := Except.ok.inj h
    exact ⟨rfl, rfl, rfl, rfl, rfl, rfl, fun _ _ => rfl, fun _ _ => rfl⟩
  case u_writeDataToCache =>
    obtain ⟨_, -, _, -, h⟩ := h
    obtain rfl := Except.ok.inj h
    exact ⟨rfl, rfl, rfl, rfl, rfl, rfl, fun _ _ => rfl, fun _ _ => exclusive_modifyEntry⟩
  case jj_unsetUseTimer =>
    split at h
    · obtain rfl := Except.ok.inj h
      exact ⟨rfl, rfl, rfl, rfl, rfl, rfl, fun _ _ => rfl, fun _ _ => rfl⟩
    · cases h
  case o_scheduleUseTimeout =>
    split at h
    · cases h
    · obtain rfl := Except.ok.inj h
      exact ⟨rfl, rfl, rfl, rfl, rfl, rfl, fun _ _ => rfl, fun _ _ => rfl⟩
  case j_unsetReissueTimer =>
    obtain rfl := Except.ok.inj h
    exact ⟨rfl, rfl, rfl, rfl, rfl, rfl, fun _ hid => Function.update_of_ne hid _ _,
      fun _ _ => rfl⟩
  all_goals
    obtain rfl := Except.ok.inj h
    exact ⟨rfl, rfl, rfl, rfl, rfl, rfl, fun _ _ => rfl, fun _ _ => rfl⟩

/-- Only an absent block gets a new entry. -/
theorem perform_allocate (hk : a.kind = .allocate) (h : a.perform cfg x = .ok x')
    (hx : x'.cache.memories.exclusive) : x.cache.memories.exclusive ∧
      x'.cache.getCacheEntry = some (x.cache.getCacheEntry.getD .blank) ∧
      x'.responses = x.responses := by
  cases a <;> try cases hk
  case ii_allocateL1DCacheBlock =>
    obtain rfl := Except.ok.inj h
    obtain ⟨h1, h2⟩ := CacheHierarchy.allocateL1D_exclusive hx
    exact ⟨h1, h2, rfl⟩
  case pp_allocateL1ICacheBlock =>
    obtain rfl := Except.ok.inj h
    obtain ⟨h1, h2⟩ := CacheHierarchy.allocateL1I_exclusive hx
    exact ⟨h1, h2, rfl⟩

/-- What an action does to the entry and the responses. -/
theorem perform_effect (h : a.perform cfg x = .ok x')
    (hx : x'.cache.memories.exclusive) : Effect x x' a.kind := by
  by_cases hk : a.kind = .allocate
  · rw [hk]
    exact (perform_allocate hk h hx).2
  cases a <;> simp only [Action.perform, ExceptRun.bind_eq_ok, entry_eq_ok, responseMsg_eq_ok] at h
  case gg_deallocateL1CacheBlock | vv_allocateL2CacheBlock | rr_deallocateL2CacheBlock |
      ss_copyFromL1toL2 | tt_copyFromL2toL1 => trivial
  case a_issueRequest =>
    split at h
    · unfold issueRequest at h
      dsimp only at h
      split at h
      · cases h
      · split at h <;> obtain rfl := Except.ok.inj h <;> exact ⟨rfl, rfl⟩
    · cases h
  case s_deallocateTBE =>
    split at h
    · unfold deallocateTBE at h
      dsimp only at h
      split at h
      · cases h
      · obtain rfl := Except.ok.inj h
        exact ⟨rfl, rfl⟩
    · cases h
  case i_allocateTBE =>
    split at h
    · obtain rfl := Except.ok.inj h
      exact ⟨rfl, rfl⟩
    · cases h
  case x_completionOwner | xx_completionExclusive | yy_completionShared =>
    obtain rfl := Except.ok.inj h
    obtain ⟨completions, heq⟩ := completion_eq cfg _ x
    rw [heq]
    exact ⟨rfl, rfl⟩
  case ii_allocateL1DCacheBlock | pp_allocateL1ICacheBlock => exact absurd rfl hk
  case b_bounceResponse =>
    obtain ⟨m, hm, h⟩ := h
    obtain rfl := Except.ok.inj h
    exact ⟨m, _, _, hm, rfl, rfl⟩
  case g_bounceResponseToStarver =>
    obtain ⟨_, -, m, hm, h⟩ := h
    obtain rfl := Except.ok.inj h
    exact ⟨m, _, _, hm, rfl, rfl⟩
  case h_load_hit =>
    obtain ⟨_, -, h⟩ := h
    obtain rfl := Except.ok.inj h
    exact ⟨rfl, rfl⟩
  case hh_store_hit =>
    obtain ⟨entry, he, h⟩ := h
    obtain rfl := Except.ok.inj h
    exact ⟨entry, he, by simp [he], rfl⟩
  case c_cleanReplacement =>
    obtain ⟨entry, he, h⟩ := h
    obtain rfl := Except.ok.inj h
    split
    · next hpos =>
        exact sendCollectedTokens_effect he
    · next hzero =>
        exact ⟨entry, he, .inl ⟨Nat.eq_zero_of_not_pos hzero, rfl, rfl⟩⟩
  case cc_dirtyReplacement =>
    obtain ⟨entry, he, h⟩ := h
    obtain rfl := Except.ok.inj h
    refine ⟨entry, .directory, _, sent_setTokens he ?_, ?_⟩
    · split <;> rfl
    · split
      · exact .data rfl ⟨rfl, rfl⟩
      · next hd => exact .clean rfl ⟨rfl, rfl⟩ (Bool.eq_false_of_not_eq_true hd) rfl
  case e_sendAckWithCollectedTokens | t_sendAckWithCollectedTokens =>
    obtain ⟨_, -, entry, he, h⟩ := h
    obtain rfl := Except.ok.inj h
    exact sendCollectedTokens_effect he
  case f_sendAckWithAllButOneTokens =>
    obtain ⟨_, -, entry, he, h⟩ := h
    split at h
    · next hpos =>
        obtain rfl := Except.ok.inj h
        by_cases hmany : entry.tokens > 1
        · rw [if_pos hmany]
          exact ⟨entry, he, .inr ⟨_, _,
            sent_setTokens he (Nat.sub_add_cancel hpos), rfl, Nat.le_sub_one_of_lt hmany⟩⟩
        · rw [if_neg hmany]
          have hone : entry.tokens = 1 := by omega
          exact ⟨entry, he, .inl ⟨hone, hone ▸ still_setTokens he⟩⟩
    · cases h
  case ff_sendDataWithAllButOneTokens =>
    obtain ⟨_, -, entry, he, h⟩ := h
    split at h
    · next hpos =>
        obtain rfl := Except.ok.inj h
        by_cases hmany : entry.tokens > 1
        · rw [if_pos hmany]
          exact ⟨entry, he, .inr ⟨_, _,
            sent_setTokens he (Nat.sub_add_cancel hpos), .data rfl ⟨rfl, rfl⟩,
            Nat.le_sub_one_of_lt hmany⟩⟩
        · rw [if_neg hmany]
          exact ⟨entry, he, .inl ⟨by omega, rfl, rfl⟩⟩
    · cases h
  case d_sendDataWithToken =>
    obtain ⟨_, -, entry, he, h⟩ := h
    split at h
    · next hpos =>
        obtain rfl := Except.ok.inj h
        exact ⟨entry, _, _, _, sent_setTokens he (by dsimp [data]; omega),
          rfl, ⟨rfl, rfl⟩, hpos, Nat.le_refl 1⟩
    · cases h
  case dd_sendDataWithAllTokens | ee_sendDataWithAllTokens =>
    obtain ⟨_, -, entry, he, h⟩ := h
    split at h
    · obtain rfl := Except.ok.inj h
      exact ⟨entry, _, _, sent_setTokens he rfl, .data rfl ⟨rfl, rfl⟩⟩
    · cases h
  case q_updateTokensFromResponse =>
    obtain ⟨m, hm, entry, he, h⟩ := h
    split at h
    · next hne =>
        obtain rfl := Except.ok.inj h
        exact ⟨m, entry, hm, hne, he, by simp [he], rfl⟩
    · cases h
  case w_assertIncomingDataAndCacheDataMatch =>
    obtain ⟨_, -, _, -, h⟩ := h
    split at h
    · obtain rfl := Except.ok.inj h
      exact ⟨rfl, rfl⟩
    · cases h
  case u_writeDataToCache =>
    obtain ⟨m, hm, entry, he, h⟩ := h
    obtain rfl := Except.ok.inj h
    exact ⟨m, entry, hm, he, by simp [he], rfl⟩
  case jj_unsetUseTimer =>
    split at h
    · obtain rfl := Except.ok.inj h
      exact ⟨rfl, rfl⟩
    · cases h
  case o_scheduleUseTimeout =>
    split at h
    · cases h
    · obtain rfl := Except.ok.inj h
      exact ⟨rfl, rfl⟩
  all_goals
    obtain rfl := Except.ok.inj h
    exact ⟨rfl, rfl⟩

end L1Cache
end Token
end FeS2.Ruby
