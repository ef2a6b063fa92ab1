import FeS2.Ruby.TokenConservation

/-!
The owner token at a cache. A cache passes it on with the data, as long as it never has to
keep the owner's last token for itself: what a transition needs of its tokens is checked
action by action along its row, and so is the data that it sends.
-/

namespace FeS2.Ruby
namespace Token
variable {ι D : Type}

/-- Data that a load may return. Clean data is in memory. -/
structure Current (memory cur dataBlk : D) (dirty : Bool) : Prop where
  dataBlk : dataBlk = cur
  clean : dirty = false → memory = cur

def ResponseMsg.owner (m : ResponseMsg ι D) : Bool := m.type = .DATA_OWNER || m.type = .ACK_OWNER

/-- A response in flight to `dest`. -/
structure ResponseMsg.Good (memory cur : D) (dest : NodeID ι) (m : ResponseMsg ι D) : Prop where
  tokens : m.tokens ≥ 1
  data : m.type ≠ .ACK → Current memory cur m.dataBlk m.dirty
  clean : m.type = .ACK_OWNER →
    dest = .directory ∧ m.dirty = false ∧ m.messageSize = .Writeback_Control

/-- The memory may get the data. -/
theorem Current.update {memory memory' cur dataBlk : D} {dirty : Bool}
    (h : Current memory cur dataBlk dirty) (hm : memory' = memory ∨ memory' = cur) : Current memory' cur dataBlk dirty := by
  refine ⟨h.dataBlk, fun hd => ?_⟩
  rcases hm with rfl | rfl
  · exact h.clean hd
  · rfl

theorem ResponseMsg.Good.update {memory memory' cur : D} {dest : NodeID ι} {m : ResponseMsg ι D}
    (h : m.Good memory cur dest)
    (hm : memory' = memory ∨ memory' = cur) : m.Good memory' cur dest :=
  ⟨h.tokens, fun ht => (h.data ht).update hm, h.clean⟩

/-- A clean owner token is what the memory knows. -/
theorem ResponseMsg.Good.ack_owner {memory cur : D} {dest : NodeID ι} {m : ResponseMsg ι D}
    (h : m.Good memory cur dest) (ht : m.type = .ACK_OWNER) :
    m.dataBlk = cur ∧ memory = cur ∧ m.dirty = false ∧ m.messageSize = .Writeback_Control := by
  obtain ⟨-, hd, hs⟩ := h.clean ht
  have hc := h.data (by rw [ht]; exact fun h => nomatch h)
  exact ⟨hc.dataBlk, hc.clean hd, hd, hs⟩

/-- The owner tokens of the responses in flight. -/
def owning (responses : Multiset (NodeID ι × ResponseMsg ι D)) : ℕ :=
  Tally.weight (fun r => r.2.owner.toNat) responses

@[simp] theorem owning_zero : owning (0 : Multiset (NodeID ι × ResponseMsg ι D)) = 0 := rfl

@[simp] theorem owning_cons (r : NodeID ι × ResponseMsg ι D)
    (responses : Multiset (NodeID ι × ResponseMsg ι D)) :
    owning (r ::ₘ responses) = r.2.owner.toNat + owning responses :=
  Tally.weight_cons

@[simp] theorem owning_add (responses responses' : Multiset (NodeID ι × ResponseMsg ι D)) :
    owning (responses + responses') = owning responses + owning responses' :=
  Tally.weight_add

namespace L1Cache
variable {cfg : Config} {x x' y z z' : Context ι D} {actions rest : List Action} {a : Action}
  {state next : State} {event : Event} {memory cur cur' : D} {dest : NodeID ι}
  {m : ResponseMsg ι D} {entry : Entry D}

/-- With the owner token. -/
def State.owner : State → Bool
  | .O | .OM | .M | .MM | .M_W | .MM_W => true
  | _ => false

/-- With data of its own. -/
def State.written : State → Bool
  | .MM | .MM_W => true
  | _ => false

def Event.owner : Event → Bool
  | .Data_Owner | .Data_Owner_All_Tokens => true
  | _ => false

def Event.data : Event → Bool
  | .Data_Shared | .Data_Shared_All_Tokens | .Data_Owner | .Data_Owner_All_Tokens => true
  | _ => false

def Event.all : Event → Bool
  | .Data_Shared_All_Tokens | .Data_Owner_All_Tokens | .Ack_All_Tokens => true
  | _ => false

/-- An owner that may have one token only has to give one, or to keep one. -/
def gives (state : State) (event : Event) : Bool :=
  (state = .O && event = .Transient_GETS) ||
    ((state = .O || state = .OM) && event = .Persistent_GETS)

/-! What is known in the course of a transition -/

/-- The tokens of the entry: as at the start, with those of the response, or anyhow. -/
inductive Level
  | start
  | collected
  | spent
  deriving DecidableEq

structure Watch where
  level : Level
  current : Bool
  dirty : Bool
  deriving DecidableEq

/-- So many tokens there are at least. -/
def lower (state : State) (event : Event) : Level → ℕ
  | .start => if state.holdsAll || gives state event then 2 else if state.readable then 1 else 0
  | .collected => if event.all then 2 else 1
  | .spent => 0

/-- The tokens that an action needs. -/
def Kind.needs : Kind → ℕ
  | .share | .ownBut => 2
  | .own | .ackBut => 1
  | _ => 0

def Watch.start (state : State) : Watch :=
  { level := .start, current := state.readable, dirty := state.written }

def Watch.step (w : Watch) : Kind → Watch
  | .gain => { w with level := if w.level = .start then .collected else .spent }
  | .ack | .ackBut | .share | .own | .ownBut | .bounce => { w with level := .spent }
  | .allocate => { w with current := false, dirty := false }
  | .write => { w with current := true, dirty := false }
  | .store =>
      { level := if w.level = .collected then .collected else .spent, current := true
        dirty := true }
  | .quiet | .move => w

/-- What an action relies on. -/
def Watch.guard (state : State) (event : Event) (w : Watch) (k : Kind) : Bool :=
  k.needs ≤ lower state event w.level &&
  match k with
  | .share | .own | .ownBut => w.current
  | .write => w.level = .start && event.data
  | .bounce | .gain => w.level = .start && event.response
  | .store => (w.level = .start && state.holdsAll && !event.response) ||
      (w.level = .collected && event.all)
  | _ => true

def audit (state : State) (event : Event) : Watch → List Action → Bool
  | _, [] => true
  | w, a :: rest => w.guard state event a.kind && audit state event (w.step a.kind) rest

def Watch.after (state : State) (actions : List Action) : Watch :=
  actions.foldl (fun w a => w.step a.kind) (.start state)

/-- The owner tokens that an action sends. -/
def Kind.sends (event : Event) : Kind → ℕ
  | .own | .ownBut => 1
  | .bounce => event.owner.toNat
  | _ => 0

def sends (event : Event) : List Action → ℕ
  | [] => 0
  | a :: rest => a.kind.sends event + sends event rest

def rowOwned (state : State) (event : Event) (next : State) (actions : List Action) : Bool :=
  audit state event (.start state) actions &&
  (state.owner.toNat + event.owner.toNat = next.owner.toNat + sends event actions) &&
  ((actions.any fun a => a.kind = .move) ||
    (!next.owner || (Track.after state actions).present) &&
    (!next.readable || (Watch.after state actions).current) &&
    (!next.written || (Watch.after state actions).dirty))

theorem rows_owned : everyRow rowOwned = true := by decide +kernel

/-! Soundness -/

/-- What is known of a cache that takes a transition, and of the message it answers. -/
structure Asked (x : Context ι D) (state : State) (event : Event) (memory cur : D) : Prop where
  gives : gives state event → x.cache.getTokens ≥ 2
  all : state.holdsAll → x.cache.getTokens = max_tokens
  tokens : state.readable → x.cache.getTokens ≥ 1
  current : state.readable → ∀ e, x.cache.getCacheEntry = some e → Current memory cur e.dataBlk e.dirty
  written : state.written → ∀ e, x.cache.getCacheEntry = some e → e.dirty
  response : event.response → ∃ m, x.inMsg = .response m
  good : ∀ m, x.inMsg = .response m → event.response ∧ m.type ≠ .ACK_OWNER ∧
    m.Good memory cur (.cache x.id) ∧ m.owner = event.owner
  data : event.data → ∀ m, x.inMsg = .response m → m.type ≠ .ACK
  max : event.all → x.cache.getTokens + x.inTokens = max_tokens

structure Watch.Sound (w : Watch) (x z : Context ι D) (event : Event) (memory cur cur' : D) :
    Prop where
  start : w.level = .start →
    z.cache.getTokens = x.cache.getTokens ∧ z.responses = 0 ∧ cur' = cur
  collected : w.level = .collected →
    z.cache.getTokens = x.cache.getTokens + x.inTokens ∧ z.responses = 0 ∧ event.response
  current : w.current → ∀ e, z.cache.getCacheEntry = some e →
    Current memory cur' e.dataBlk e.dirty
  dirty : w.dirty → ∀ e, z.cache.getCacheEntry = some e → e.dirty

/-- The block is still what it was, or was written with all tokens there. -/
def Rewritten (x : Context ι D) (cur cur' : D) : Prop :=
  cur' = cur ∨ x.cache.getTokens + x.inTokens = max_tokens

/-- In the course of a transition, with the actions in `rest` to come. -/
structure Passing (x : Context ι D) (state : State) (event : Event) (memory cur : D)
    (actions rest : List Action) (z : Context ι D) : Prop where
  inMsg : z.inMsg = x.inMsg
  watch : ∃ cur' w, Rewritten x cur cur' ∧ w.Sound x z event memory cur cur' ∧
    audit state event w rest ∧
    rest.foldl (fun w a => w.step a.kind) w = .after state actions ∧
    ∀ r ∈ z.responses, r.2.Good memory cur' r.1
  owning : owning z.responses + sends event rest = sends event actions

theorem Asked.inTokens_eq_zero (h : Asked x state event memory cur) (hr : event.response = false) :
    x.inTokens = 0 := by
  unfold Context.inTokens
  split
  · next m hm => exact absurd (h.good m hm).1 (by rw [hr]; exact Bool.false_ne_true)
  · rfl

theorem Asked.inTokens_pos (h : Asked x state event memory cur) (hr : event.response) :
    x.inTokens ≥ 1 := by
  obtain ⟨m, hm⟩ := h.response hr
  unfold Context.inTokens
  rw [hm]
  exact (h.good m hm).2.2.1.tokens

/-- The tokens that the level promises are there. -/
theorem Watch.Sound.lower_le {w : Watch} (hs : w.Sound x z event memory cur cur')
    (h : Asked x state event memory cur) : lower state event w.level ≤ z.cache.getTokens := by
  cases hl : w.level with
  | start =>
      rw [(hs.start hl).1]
      unfold lower
      dsimp only
      split
      · next hmany =>
          rcases Bool.or_eq_true_iff.mp hmany with hall | hgives
          · rw [h.all hall]
            decide
          · exact h.gives hgives
      · split
        · next hsome => exact h.tokens hsome
        · exact Nat.zero_le _
  | collected =>
      rw [(hs.collected hl).1]
      unfold lower
      dsimp only
      split
      · next hall =>
          rw [h.max hall]
          decide
      · exact Nat.le_add_left_of_le (h.inTokens_pos (hs.collected hl).2.2)
  | spent => exact Nat.zero_le _

/-- The entry keeps its data, and has some tokens or others. -/
theorem Watch.Sound.spend {w : Watch} (h : w.Sound x z event memory cur cur') {tokens : ℕ}
    (hb : z.cache.getCacheEntry = some entry)
    (ha : z'.cache.getCacheEntry = some { entry with tokens := tokens }) :
    ({ w with level := .spent } : Watch).Sound x z' event memory cur cur' := by
  refine ⟨fun hl => (nomatch hl), fun hl => (nomatch hl), fun hc e he => ?_, fun hd e he => ?_⟩
  · obtain rfl := Option.some.inj (ha.symm.trans he)
    exact h.current hc entry hb
  · obtain rfl := Option.some.inj (ha.symm.trans he)
    exact h.dirty hd entry hb

theorem Watch.Sound.still {w : Watch} (h : w.Sound x z event memory cur cur')
    (hs : Still z z') : w.Sound x z' event memory cur cur' := by
  obtain ⟨he, hr⟩ := hs
  refine ⟨fun hl => ?_, fun hl => ?_, ?_, ?_⟩
  · rw [getTokens_congr he, hr]
    exact h.start hl
  · rw [getTokens_congr he, hr]
    exact h.collected hl
  · rw [he]
    exact h.current
  · rw [he]
    exact h.dirty

theorem Watch.Sound.weaken {w : Watch} (h : w.Sound x z event memory cur cur') :
    ({ w with level := .spent } : Watch).Sound x z event memory cur cur' :=
  ⟨fun hl => (nomatch hl), fun hl => (nomatch hl), h.current, h.dirty⟩

theorem Owned.good (h : Owned entry dest m) (hd : Current memory cur entry.dataBlk entry.dirty)
    (ht : m.tokens ≥ 1) : m.Good memory cur dest ∧ m.owner := by
  cases h with
  | data type carries =>
      refine ⟨⟨ht, fun _ => ?_, fun h => ?_⟩, ?_⟩
      · rw [carries.dataBlk, carries.dirty]
        exact hd
      · cases type.symm.trans h
      · unfold ResponseMsg.owner
        rw [type]
        rfl
  | clean type carries dirty size =>
      refine ⟨⟨ht, fun _ => ?_, fun _ => ⟨rfl, dirty, size⟩⟩, ?_⟩
      · rw [carries.dataBlk, carries.dirty]
        exact hd
      · unfold ResponseMsg.owner
        rw [type]
        rfl

/-- What an action makes of what is known, and of the responses. -/
structure Acted (x z z' : Context ι D) (event : Event) (k : Kind) (w : Watch) (memory cur : D) :
    Prop where
  watch : ∃ cur', Rewritten x cur cur' ∧ (w.step k).Sound x z' event memory cur cur' ∧
    ∀ r ∈ z'.responses, r.2.Good memory cur' r.1
  owning : owning z'.responses = owning z.responses + k.sends event

/-- Nothing is sent. -/
theorem acted_of_silent {k : Kind} {w : Watch} (hcur : Rewritten x cur cur')
    (hw : (w.step k).Sound x z' event memory cur cur')
    (hgood : ∀ r ∈ z.responses, r.2.Good memory cur' r.1) (hr : z'.responses = z.responses)
    (hk : k.sends event = 0) : Acted x z z' event k w memory cur :=
  ⟨⟨cur', hcur, hw, hr ▸ hgood⟩, by rw [hr, hk, Nat.add_zero]⟩

/-- One response is sent. -/
theorem acted_of_sent {k : Kind} {w : Watch} (hcur : Rewritten x cur cur')
    (hw : (w.step k).Sound x z' event memory cur cur')
    (hgood : ∀ r ∈ z.responses, r.2.Good memory cur' r.1)
    (hr : z'.responses = (dest, m) ::ₘ z.responses) (hm : m.Good memory cur' dest)
    (hk : k.sends event = m.owner.toNat) : Acted x z z' event k w memory cur := by
  refine ⟨⟨cur', hcur, hw, fun r hmem => ?_⟩, ?_⟩
  · rw [hr, Multiset.mem_cons] at hmem
    rcases hmem with rfl | hmem
    · exact hm
    · exact hgood r hmem
  · rw [hr, owning_cons, hk, Nat.add_comm]

theorem good_ack (ht : m.type = .ACK) (h1 : m.tokens ≥ 1) :
    m.Good memory cur dest ∧ m.owner = false := by
  refine ⟨⟨h1, fun h => absurd ht h, fun h => ?_⟩, ?_⟩
  · cases ht.symm.trans h
  · unfold ResponseMsg.owner
    rw [ht]
    rfl

variable [Inhabited D]

theorem acted {w : Watch} {k : Kind} (hx : Asked x state event memory cur) (hin : z.inMsg = x.inMsg)
    (hcur : Rewritten x cur cur') (hw : w.Sound x z event memory cur cur')
    (hgood : ∀ r ∈ z.responses, r.2.Good memory cur' r.1) (hguard : w.guard state event k)
    (hk : k ≠ .move) (he : Effect z z' k) : Acted x z z' event k w memory cur := by
  obtain ⟨hneeds, hguard⟩ := Bool.and_eq_true_iff.mp hguard
  have hlow := Nat.le_trans (of_decide_eq_true hneeds) (hw.lower_le hx)
  cases k with
  | quiet => exact acted_of_silent hcur (hw.still he) hgood he.responses rfl
  | move => exact absurd rfl hk
  | allocate =>
      obtain ⟨he, hr⟩ := he
      have htokens : z'.cache.getTokens = z.cache.getTokens := by
        rw [getTokens_some he]
        cases hc : z.cache.getCacheEntry with
        | none => rw [getTokens_none hc]; rfl
        | some e => rw [getTokens_some hc]; rfl
      refine acted_of_silent hcur ⟨fun hl => ?_, fun hl => ?_, fun h => (nomatch h),
        fun h => (nomatch h)⟩ hgood hr rfl
      · rw [htokens, hr]
        exact hw.start hl
      · rw [htokens, hr]
        exact hw.collected hl
  | ack =>
      obtain ⟨entry, hb, ⟨-, h⟩ | ⟨dest, m, h, ht, h1⟩⟩ := he
      · exact acted_of_silent hcur (hw.still h).weaken hgood h.responses rfl
      · obtain ⟨hm, ho⟩ := good_ack ht h1
        exact acted_of_sent hcur (hw.spend h.before h.after) hgood h.sent hm (by rw [ho]; rfl)
  | ackBut =>
      obtain ⟨entry, hb, ⟨-, h⟩ | ⟨dest, m, h, ht, h1⟩⟩ := he
      · exact acted_of_silent hcur (hw.still h).weaken hgood h.responses rfl
      · obtain ⟨hm, ho⟩ := good_ack ht h1
        exact acted_of_sent hcur (hw.spend h.before h.after) hgood h.sent hm (by rw [ho]; rfl)
  | share =>
      obtain ⟨entry, dest, m, tokens, h, ht, hcarries, -, h1⟩ := he
      refine acted_of_sent hcur (hw.spend h.before h.after) hgood h.sent
        ⟨h1, fun _ => ?_, fun hc => (nomatch ht.symm.trans hc)⟩ ?_
      · rw [hcarries.dataBlk, hcarries.dirty]
        exact hw.current hguard entry h.before
      · unfold ResponseMsg.owner
        rw [ht]
        rfl
  | own =>
      obtain ⟨entry, dest, m, h, howned⟩ := he
      have h1 : m.tokens ≥ 1 := by
        have := h.tokens
        have hz := getTokens_some h.before
        unfold Kind.needs at hlow
        dsimp only at hlow
        omega
      obtain ⟨hm, ho⟩ := howned.good (hw.current hguard entry h.before) h1
      exact acted_of_sent hcur (hw.spend h.before h.after) hgood h.sent hm (by rw [ho]; rfl)
  | ownBut =>
      obtain ⟨entry, hb, ⟨hone, -⟩ | ⟨dest, m, h, howned, h1⟩⟩ := he
      · -- with its last token, the owner would send nothing
        rw [getTokens_some hb, hone] at hlow
        exact absurd hlow (by decide)
      · obtain ⟨hm, ho⟩ := howned.good (hw.current hguard entry h.before) h1
        exact acted_of_sent hcur (hw.spend h.before h.after) hgood h.sent hm (by rw [ho]; rfl)
  | bounce =>
      obtain ⟨m, dest, sender, hm, he, hr⟩ := he
      obtain ⟨hstart, -⟩ := Bool.and_eq_true_iff.mp hguard
      obtain ⟨-, hr0, rfl⟩ := hw.start (of_decide_eq_true hstart)
      obtain ⟨-, hne, hgm, ho⟩ := hx.good m (hin ▸ hm)
      refine acted_of_sent hcur ⟨fun hl => (nomatch hl), fun hl => (nomatch hl), ?_, ?_⟩ hgood hr
        ⟨hgm.tokens, hgm.data, fun hc => absurd hc hne⟩ ?_
      · rw [he]
        exact hw.current
      · rw [he]
        exact hw.dirty
      · exact congrArg Bool.toNat ho.symm
  | gain =>
      obtain ⟨m, entry, hm, -, h⟩ := he
      obtain ⟨hstart, hresp⟩ := Bool.and_eq_true_iff.mp hguard
      have hl := of_decide_eq_true hstart
      obtain ⟨htokens, hr0, -⟩ := hw.start hl
      refine acted_of_silent hcur ⟨fun h' => ?_, fun _ => ⟨?_, h.responses.trans hr0, hresp⟩,
        fun hc e he => ?_, fun hd e he => ?_⟩ hgood h.responses rfl
      · unfold Watch.step at h'
        rw [hl] at h'
        cases h'
      · rw [getTokens_some h.after, ← htokens, getTokens_some h.before]
        unfold Context.inTokens
        rw [← hin, hm]
      · obtain rfl := Option.some.inj (h.after.symm.trans he)
        exact hw.current hc entry h.before
      · obtain rfl := Option.some.inj (h.after.symm.trans he)
        exact hw.dirty hd entry h.before
  | write =>
      obtain ⟨m, entry, hm, h⟩ := he
      obtain ⟨hstart, hdata⟩ := Bool.and_eq_true_iff.mp hguard
      obtain ⟨htokens, hr0, rfl⟩ := hw.start (of_decide_eq_true hstart)
      have hm' := hin ▸ hm
      have hkeep : z'.cache.getTokens = z.cache.getTokens := by
        rw [getTokens_some h.after, getTokens_some h.before]
      refine acted_of_silent hcur ⟨fun _ => ⟨hkeep.trans htokens, h.responses.trans hr0, rfl⟩,
        fun hl => ?_, fun _ e he => ?_, fun hd => (nomatch hd)⟩ hgood h.responses rfl
      · cases (of_decide_eq_true hstart).symm.trans hl
      · obtain rfl := Option.some.inj (h.after.symm.trans he)
        exact (hx.good m hm').2.2.1.data (hx.data hdata m hm')
  | store =>
      obtain ⟨entry, h⟩ := he
      have hkeep : z'.cache.getTokens = z.cache.getTokens := by
        rw [getTokens_some h.after, getTokens_some h.before]
      have hcase : (w.level = .start ∧ state.holdsAll ∧ event.response = false) ∨
          (w.level = .collected ∧ event.all) := by
        simpa [and_assoc] using hguard
      have hr0 : z.responses = 0 := by
        rcases hcase with ⟨hl, -⟩ | ⟨hl, -⟩
        · exact (hw.start hl).2.1
        · exact (hw.collected hl).2.1
      have hall : x.cache.getTokens + x.inTokens = max_tokens := by
        rcases hcase with ⟨-, hall, hresp⟩ | ⟨-, hall⟩
        · rw [hx.inTokens_eq_zero hresp]
          exact hx.all hall
        · exact hx.max hall
      refine acted_of_silent (show Rewritten x cur (z.driver entry.dataBlk) from .inr hall)
        ⟨fun hl => ?_, fun hl => ?_, fun _ e he => ?_, fun _ e he => ?_⟩ ?_ h.responses rfl
      · unfold Watch.step at hl
        dsimp only at hl
        split at hl <;> cases hl
      · have hl' : w.level = .collected := by
          unfold Watch.step at hl
          dsimp only at hl
          split at hl
          · assumption
          · cases hl
        rw [hkeep, h.responses]
        exact hw.collected hl'
      · obtain rfl := Option.some.inj (h.after.symm.trans he)
        exact ⟨rfl, fun hd => (nomatch hd)⟩
      · obtain rfl := Option.some.inj (h.after.symm.trans he)
        rfl
      · rw [hr0]
        exact fun r hr => absurd hr (Multiset.notMem_zero r)

/-- An action that meets its guard keeps what is known, and sends good responses only. -/
theorem Passing.step [LinearOrder ι] (h : Passing x state event memory cur actions (a :: rest) z)
    (hx : Asked x state event memory cur) (hk : a.kind ≠ .move) (hf : Frame z z' a)
    (he : Effect z z' a.kind) : Passing x state event memory cur actions rest z' := by
  obtain ⟨hin, ⟨cur', w, hcur, hw, haudit, hafter, hgood⟩, hown⟩ := h
  obtain ⟨hguard, haudit⟩ := Bool.and_eq_true_iff.mp haudit
  obtain ⟨⟨cur'', hcur, hw, hgood⟩, hsent⟩ := acted hx hin hcur hw hgood hguard hk he
  refine ⟨hf.inMsg.trans hin, ⟨cur'', _, hcur, hw, haudit, hafter, hgood⟩, ?_⟩
  rw [hsent, Nat.add_assoc]
  exact hown

/-! Failures -/

variable [LinearOrder ι] [DecidableEq D]

omit [Inhabited D] [LinearOrder ι] [DecidableEq D] in
theorem entry_error {f : Failure} (h : z.entry = .error f) : f = .assertion := by
  unfold Context.entry at h
  split at h
  · cases h
  · exact (Except.error.inj h).symm

omit [Inhabited D] [LinearOrder ι] [DecidableEq D] in
theorem requestMsg_error {f : Failure} (h : z.requestMsg = .error f) : f = .assertion := by
  unfold Context.requestMsg at h
  split at h
  · cases h
  · exact (Except.error.inj h).symm

omit [Inhabited D] [LinearOrder ι] [DecidableEq D] in
theorem responseMsg_error {f : Failure} (h : z.responseMsg = .error f) : f = .assertion := by
  unfold Context.responseMsg at h
  split at h
  · cases h
  · exact (Except.error.inj h).symm

omit [Inhabited D] [DecidableEq D] in
theorem starver_error {f : Failure} (h : z.starver = .error f) : f = .assertion := by
  unfold Context.starver at h
  split at h
  · split at h
    · exact (Except.error.inj h).symm
    · cases h
  · exact (Except.error.inj h).symm

omit [Inhabited D] [LinearOrder ι] [DecidableEq D] in
theorem setMemories_error {f : Failure} {memories : Option (CacheHierarchy (Entry D))}
    (h : z.setMemories memories = .error f) : f = .assertion := by
  unfold Context.setMemories at h
  split at h
  · cases h
  · exact (Except.error.inj h).symm

/-- An assertion on a count of tokens fails for want of tokens only. -/
theorem perform_error {f : Failure} (h : a.perform cfg z = .error f) : f = .assertion ∨
    f = .tokenCount ∧ ((∃ entry, z.cache.getCacheEntry = some entry ∧ entry.tokens < a.kind.needs) ∨
      a.kind = .gain ∧ ∃ m, z.inMsg = .response m ∧ m.tokens = 0) := by
  cases a <;> simp only [Action.perform, ExceptRun.bind_eq_error, entry_eq_ok,
    responseMsg_eq_ok] at h
  case a_issueRequest =>
    split at h
    · unfold issueRequest at h
      dsimp only at h
      split at h
      · exact .inl (Except.error.inj h).symm
      · split at h <;> cases h
    · exact .inl (Except.error.inj h).symm
  case s_deallocateTBE =>
    split at h
    · unfold deallocateTBE at h
      dsimp only at h
      split at h
      · exact .inl (Except.error.inj h).symm
      · cases h
    · exact .inl (Except.error.inj h).symm
  case i_allocateTBE | jj_unsetUseTimer =>
    split at h
    · cases h
    · exact .inl (Except.error.inj h).symm
  case o_scheduleUseTimeout =>
    split at h
    · exact .inl (Except.error.inj h).symm
    · cases h
  case gg_deallocateL1CacheBlock | vv_allocateL2CacheBlock | rr_deallocateL2CacheBlock |
      ss_copyFromL1toL2 | tt_copyFromL2toL1 => exact .inl (setMemories_error h)
  case b_bounceResponse =>
    rcases h with h | ⟨_, -, h⟩
    · exact .inl (responseMsg_error h)
    · cases h
  case g_bounceResponseToStarver =>
    rcases h with h | ⟨_, -, h | ⟨_, -, h⟩⟩
    · exact .inl (starver_error h)
    · exact .inl (responseMsg_error h)
    · cases h
  case c_cleanReplacement | cc_dirtyReplacement | h_load_hit | hh_store_hit =>
    rcases h with h | ⟨_, -, h⟩
    · exact .inl (entry_error h)
    · cases h
  case e_sendAckWithCollectedTokens =>
    rcases h with h | ⟨_, -, h | ⟨_, -, h⟩⟩
    · exact .inl (starver_error h)
    · exact .inl (entry_error h)
    · cases h
  case t_sendAckWithCollectedTokens =>
    rcases h with h | ⟨_, -, h | ⟨_, -, h⟩⟩
    · exact .inl (requestMsg_error h)
    · exact .inl (entry_error h)
    · cases h
  case u_writeDataToCache =>
    rcases h with h | ⟨_, -, h | ⟨_, -, h⟩⟩
    · exact .inl (responseMsg_error h)
    · exact .inl (entry_error h)
    · cases h
  case w_assertIncomingDataAndCacheDataMatch =>
    rcases h with h | ⟨_, -, h | ⟨_, -, h⟩⟩
    · exact .inl (responseMsg_error h)
    · exact .inl (entry_error h)
    · split at h
      · cases h
      · exact .inl (Except.error.inj h).symm
  case q_updateTokensFromResponse =>
    rcases h with h | ⟨m, hm, h | ⟨_, -, h⟩⟩
    · exact .inl (responseMsg_error h)
    · exact .inl (entry_error h)
    · split at h
      · cases h
      · next hzero =>
          exact .inr ⟨(Except.error.inj h).symm, .inr ⟨rfl, m, hm, not_not.mp hzero⟩⟩
  case d_sendDataWithToken | dd_sendDataWithAllTokens =>
    rcases h with h | ⟨_, -, h | ⟨entry, he, h⟩⟩
    · exact .inl (requestMsg_error h)
    · exact .inl (entry_error h)
    · split at h
      · cases h
      · next hfew =>
          refine .inr ⟨(Except.error.inj h).symm, .inl ⟨entry, he, ?_⟩⟩
          dsimp only [Action.kind, Kind.needs]
          omega
  case ee_sendDataWithAllTokens | f_sendAckWithAllButOneTokens | ff_sendDataWithAllButOneTokens =>
    rcases h with h | ⟨_, -, h | ⟨entry, he, h⟩⟩
    · exact .inl (starver_error h)
    · exact .inl (entry_error h)
    · split at h
      · cases h
      · next hfew =>
          refine .inr ⟨(Except.error.inj h).symm, .inl ⟨entry, he, ?_⟩⟩
          dsimp only [Action.kind, Kind.needs]
          omega
  all_goals cases h

/-- An assertion on a count of tokens comes before the block moves. -/
def Kind.asserts : Kind → Bool
  | .share | .own | .ownBut | .ackBut | .gain => true
  | _ => false

def apart : List Action → Bool
  | [] => true
  | a :: rest => ((a.kind ≠ .move && a.kind ≠ .allocate) || rest.all fun a => !a.kind.asserts) &&
      apart rest

theorem rows_apart : everyRow (fun _ _ _ actions => apart actions) = true := by decide +kernel

omit [Inhabited D] [DecidableEq D] [LinearOrder ι] in
theorem passing_start (hx : Asked x state event memory cur) (hr : x.responses = 0)
    (ht : transition state event = some (next, actions)) :
    Passing x state event memory cur actions actions x := by
  have hrow := row_of_everyRow rowOwned rows_owned ht
  simp only [rowOwned, Bool.and_eq_true] at hrow
  refine ⟨rfl, ⟨cur, .start state, .inl rfl, ⟨fun _ => ⟨rfl, hr, rfl⟩, fun h => (nomatch h),
    hx.current, hx.written⟩, hrow.1.1, rfl, fun r hmem => ?_⟩, ?_⟩
  · rw [hr] at hmem
    exact absurd hmem (Multiset.notMem_zero r)
  · rw [hr, owning_zero, Nat.zero_add]

/-- What the actions of a row may rely on, until the block moves. -/
def Relying (x : Context ι D) (state : State) (event : Event) (memory cur : D)
    (actions rest : List Action) (z : Context ι D) : Prop :=
  (∀ a ∈ rest, a.kind.asserts = false) ∨
    (apart rest ∧ z.cache.memories.exclusive ∧ Passing x state event memory cur actions rest z)

theorem Relying.step (h : Relying x state event memory cur actions (a :: rest) z)
    (hx : Asked x state event memory cur) (ha : a.perform cfg z = .ok z') :
    Relying x state event memory cur actions rest z' := by
  rcases h with h | ⟨hapart, hz, hpass⟩
  · exact .inl fun b hb => h b (List.mem_cons_of_mem _ hb)
  · obtain ⟨hmoves, hapart⟩ := Bool.and_eq_true_iff.mp hapart
    rcases Bool.or_eq_true_iff.mp hmoves with hstays | hno
    · obtain ⟨hmove, halloc⟩ := Bool.and_eq_true_iff.mp hstays
      have hf := perform_frame ha
      have hz' : z'.cache.memories.exclusive := by
        rw [hf.exclusive (of_decide_eq_true hmove) (of_decide_eq_true halloc)]
        exact hz
      exact .inr ⟨hapart, hz', hpass.step hx (of_decide_eq_true hmove) hf (perform_effect ha hz')⟩
    · exact .inl fun b hb => by simpa using List.all_eq_true.mp hno b hb

/-- No assertion on a count of tokens fails. -/
theorem Relying.error {f : Failure} (h : Relying x state event memory cur actions (a :: rest) z)
    (hx : Asked x state event memory cur) (ha : a.perform cfg z = .error f) : f = .assertion := by
  rcases perform_error ha with rfl | ⟨rfl, hwant⟩
  · rfl
  rcases h with h | ⟨-, -, hin, ⟨cur', w, -, hw, haudit, -⟩, -⟩
  · have hno := h a List.mem_cons_self
    rcases hwant with ⟨entry, -, hwant⟩ | ⟨hk, -⟩
    · cases hk : a.kind <;> rw [hk] at hno hwant <;>
        first | exact absurd hwant (Nat.not_lt_zero _) | cases hno
    · rw [hk] at hno
      cases hno
  · obtain ⟨hguard, -⟩ := Bool.and_eq_true_iff.mp haudit
    obtain ⟨hneeds, hguard⟩ := Bool.and_eq_true_iff.mp hguard
    have hlow := Nat.le_trans (of_decide_eq_true hneeds) (hw.lower_le hx)
    rcases hwant with ⟨entry, he, hwant⟩ | ⟨hk, m, hm, hzero⟩
    · rw [getTokens_some he] at hlow
      omega
    · have := (hx.good m (hin ▸ hm)).2.2.1.tokens
      omega

/-- Neither an assertion on tokens nor anything but a missing row stops the cache. -/
theorem doTransition_error {f : Failure} (hok : Ok x.cache)
    (hstate : x.cache.getState x.id (x.arb.tables (.cache x.id)) = .ok state)
    (hx : Asked x state event memory cur) (hr : x.responses = 0)
    (h : doTransition cfg event x = .error f) :
    f = .assertion ∨ f = .invalidTransition ∧ transition state event = none := by
  unfold doTransition at h
  rcases ExceptRun.bind_eq_error.mp h with h | ⟨_, hs, h⟩
  · cases hstate.symm.trans h
  obtain rfl := Except.ok.inj (hstate.symm.trans hs)
  split at h
  · next hnone => exact .inr ⟨(Except.error.inj h).symm, hnone⟩
  · next next actions ht =>
      refine .inl ?_
      rcases ExceptRun.bind_eq_error.mp h with h | ⟨y, -, h⟩
      · obtain ⟨a, rest, z, hI, ha⟩ := ExceptRun.foldlM_error
          (fun a rest z z' (hI : Relying x state event memory cur actions (a :: rest) z) ha =>
            hI.step hx ha)
          (.inr ⟨row_of_everyRow _ rows_apart ht, hok.exclusive, passing_start hx hr ht⟩) h
        exact hI.error hx ha
      · rcases ExceptRun.bind_eq_error.mp h with h | ⟨_, -, h⟩
        · unfold setState at h
          split at h
          · cases h
          · exact (Except.error.inj h).symm
        · cases h

/-! Transitions -/

def owners (c : L1Cache D) : ℕ :=
  match c.getCacheEntry with
  | some entry => entry.cacheState.owner.toNat
  | none => 0

/-- Timers are set in the states they are for. -/
structure Timed (c : L1Cache D) (reissueTimer : Bool) : Prop where
  reissue : reissueTimer → ∃ e, c.getCacheEntry = some e ∧ e.cacheState.requesting
  use : c.useTimer → ∃ e, c.getCacheEntry = some e ∧ (e.cacheState = .M_W ∨ e.cacheState = .MM_W)

/-- What a transition makes of the entry. -/
structure Became (c : L1Cache D) (next : State) : Prop where
  entry : ∀ e, c.getCacheEntry = some e → e.cacheState = next
  present : next.busy ∨ next.owner → ∃ e, c.getCacheEntry = some e ∧ e.cacheState = next

omit [Inhabited D] [DecidableEq D] [LinearOrder ι] in
theorem Became.owners {c : L1Cache D} (h : Became c next) : owners c = next.owner.toNat := by
  unfold L1Cache.owners
  cases he : c.getCacheEntry with
  | some e => dsimp only; rw [h.entry e he]
  | none =>
      cases ho : next.owner with
      | false => rfl
      | true =>
          obtain ⟨e, he', -⟩ := h.present (.inr ho)
          cases he.symm.trans he'

omit [Inhabited D] [DecidableEq D] in
theorem owners_of_getState {c : L1Cache D} {id : ι} {table : PersistentTable ι} (hok : Ok c)
    (h : c.getState id table = .ok state) : owners c = state.owner.toNat := by
  unfold owners
  rcases hok.getState h with ⟨e, he, rfl⟩ | ⟨he, -, rfl | rfl⟩ <;> rw [he] <;> rfl

omit [Inhabited D] [DecidableEq D] in
theorem timers_of_setState {threshold : ℕ} {id : ι} {arb : PersistentArbitration ι}
    {c c' : L1Cache D} (h : setState threshold id arb state c = .ok c') :
    (arb.reissueTimer id → state.requesting) ∧
      (c.useTimer → state = .M_W ∨ state = .MM_W) := by
  unfold setState at h
  split at h
  · next hok =>
      unfold asserted timersAsserted at hok
      simp only [Bool.and_eq_true] at hok
      obtain ⟨⟨⟨-, ⟨huse, hreissue⟩, -⟩, -⟩, -⟩ := hok
      refine ⟨fun hset => ?_, fun hset => ?_⟩
      · rw [if_pos hset] at hreissue
        exact hreissue
      · rw [if_pos hset] at huse
        simpa using huse
  · cases h

/-- What a transition does with the owner token and the data. -/
structure Settled (x x' : Context ι D) (event : Event) (memory cur : D) : Prop where
  good : ∃ cur', Rewritten x cur cur' ∧ (∀ r ∈ x'.responses, r.2.Good memory cur' r.1) ∧
    ∀ e, x'.cache.getCacheEntry = some e →
      (e.cacheState.readable → Current memory cur' e.dataBlk e.dirty) ∧
      (e.cacheState.written → e.dirty)
  owner : owners x'.cache + owning x'.responses = owners x.cache + event.owner.toNat
  timed : Timed x'.cache (x'.arb.reissueTimer x'.id)

omit [Inhabited D] [DecidableEq D] in
theorem timed_of_setState {threshold : ℕ} {id : ι} {arb : PersistentArbitration ι}
    {c c' : L1Cache D} (h : setState threshold id arb next c = .ok c') (hb : Became c' next) :
    Timed c' (arb.reissueTimer id) := by
  obtain ⟨hreissue, huse⟩ := timers_of_setState h
  have hassign := assigned_of_setState h
  refine ⟨fun hset => ?_, fun hset => ?_⟩
  · have hnext := hreissue hset
    obtain ⟨e, he, hst⟩ := hb.present (.inl (by cases next <;> first | rfl | cases hnext))
    exact ⟨e, he, hst.symm ▸ hnext⟩
  · have hnext := huse (hassign.useTimer ▸ hset)
    obtain ⟨e, he, hst⟩ := hb.present (.inl (by rcases hnext with rfl | rfl <;> rfl))
    exact ⟨e, he, hst.symm ▸ hnext⟩

theorem settled (hok : Ok x.cache)
    (hstate : x.cache.getState x.id (x.arb.tables (.cache x.id)) = .ok state)
    (hx : Asked x state event memory cur) (hr : x.responses = 0)
    (h : doTransition cfg event x = .ok x') : Settled x x' event memory cur := by
  obtain ⟨st, next, actions, y, c', hst, ht, hrun, hset, rfl⟩ := doTransition_eq_ok.mp h
  obtain rfl := Except.ok.inj (hstate.symm.trans hst)
  have hrow := row_of_everyRow rowOwned rows_owned ht
  simp only [rowOwned, Bool.and_eq_true, decide_eq_true_eq] at hrow
  obtain ⟨⟨haudit, howner⟩, hafter⟩ := hrow
  have hassign := assigned_of_setState hset
  have hentry : ∀ e, c'.getCacheEntry = some e → e.cacheState = next ∧
      ∃ e₀, y.cache.getCacheEntry = some e₀ ∧ e.dataBlk = e₀.dataBlk ∧ e.dirty = e₀.dirty := by
    intro e he
    rw [hassign.entry, Option.map_eq_some_iff] at he
    obtain ⟨e₀, he₀, rfl⟩ := he
    exact ⟨rfl, e₀, he₀, rfl, rfl⟩
  have hstart := passing_start hx hr ht
  cases shape_of_transition ht with
  | plain hk =>
      have hmove : (actions.any fun a => decide (a.kind = .move)) = false := by
        rw [List.any_eq_false]
        intro a ha
        simpa using hk a ha
      rw [hmove, Bool.false_or, Bool.and_eq_true, Bool.and_eq_true] at hafter
      obtain ⟨⟨hpresent, hcurrent⟩, hdirty⟩ := hafter
      have hgo := run_going hok hstate hk hrun hassign.exclusive
      have hpass := run_plain
        (I := fun rest z => (∀ a ∈ rest, a.kind ≠ .move) ∧
          Passing x state event memory cur actions rest z)
        (fun a rest z z' hI hf he => ⟨fun a ha => hI.1 a (List.mem_cons_of_mem _ ha),
          hI.2.step hx (hI.1 a List.mem_cons_self) hf he⟩) hk hrun hassign.exclusive ⟨hk, hstart⟩
      obtain ⟨-, ⟨cur', w, hcur, hw, -, hw', hgood⟩, hown⟩ := hpass.2
      have hbecame : Became c' next := by
        refine ⟨fun e he => (hentry e he).1, fun hbusy => ?_⟩
        obtain ⟨t, hsound, rfl⟩ := hgo.track
        have hrow' := row_of_everyRow rowOk rows_ok ht
        simp only [rowOk, hmove, Bool.false_or, Bool.and_eq_true] at hrow'
        have hthere : (Track.after state actions).present = true := by
          rcases hbusy with hbusy | hbusy
          · simpa [hbusy] using hrow'.2.1.1
          · simpa [hbusy] using hpresent
        obtain ⟨e₀, he₀⟩ := Option.ne_none_iff_exists'.mp (hsound.present hthere)
        exact ⟨_, by rw [hassign.entry, he₀]; rfl, rfl⟩
      have hresp : ({ y with cache := c' } : Context ι D).responses = y.responses := rfl
      refine ⟨⟨cur', hcur, hgood, fun e he => ?_⟩, ?_, timed_of_setState hset hbecame⟩
      · obtain ⟨rfl, e₀, he₀, hdata, hdirt⟩ := hentry e he
        obtain rfl : w = Watch.after state actions := hw'
        refine ⟨fun hread => ?_, fun hwritten => ?_⟩
        · rw [hdata, hdirt]
          exact hw.current (by simpa [hread] using hcurrent) e₀ he₀
        · rw [hdirt]
          exact hw.dirty (by simpa [hwritten] using hdirty) e₀ he₀
      · rw [hbecame.owners, owners_of_getState hok hstate]
        have : owning y.responses + sends event [] = sends event actions := hown
        rw [howner, ← this]
        rfl
  | move hmem hpresent =>
      have hm := run_move hok.exclusive hmem hrun
      obtain ⟨memories, hrest⟩ := hm.rest
      have hy : y.responses = 0 := by rw [hrest]; exact hr
      have hevent : event.owner.toNat = sends event actions := by omega
      have hnone : event.owner.toNat = 0 := by
        rw [hevent]
        simp only [moves, List.mem_cons, List.not_mem_nil, or_false] at hmem
        rcases hmem with rfl | rfl | rfl <;> rfl
      have hbecame : Became c' state := by
        refine ⟨fun e he => (hentry e he).1, fun hbusy => ?_⟩
        rcases hok.getState hstate with ⟨e₀, he₀, -⟩ | ⟨-, -, rfl | rfl⟩
        · exact ⟨_, by rw [hassign.entry, hm.entry, he₀]; rfl, rfl⟩
        · exact absurd rfl hpresent
        · rcases hbusy with h | h <;> cases h
      refine ⟨⟨cur, .inl rfl, fun r hmem => ?_, fun e he => ?_⟩, ?_, timed_of_setState hset hbecame⟩
      · change r ∈ y.responses at hmem
        rw [hy] at hmem
        exact absurd hmem (Multiset.notMem_zero r)
      · obtain ⟨hst, e₀, he₀, hdata, hdirt⟩ := hentry e he
        rw [hm.entry] at he₀
        rw [hst, hdata, hdirt]
        exact ⟨fun hread => hx.current hread e₀ he₀, fun hwritten => hx.written hwritten e₀ he₀⟩
      · change owners c' + owning y.responses = _
        rw [hbecame.owners, owners_of_getState hok hstate, hy, hnone]
        rfl
  | @replace a hk hidle =>
      obtain ⟨z, hrep⟩ := run_replace hok.exclusive hk hrun
      have hne : a.kind ≠ .move := by
        rcases hk with hk | hk <;> rw [hk] <;> decide
      obtain ⟨-, ⟨cur', w, hcur, hw, -, -, hgood⟩,
        hown⟩ := hstart.step hx hne hrep.frame hrep.effect
      obtain ⟨memories, hrest⟩ := hrep.rest
      have hnone : c'.getCacheEntry = none := by rw [hassign.entry, hrep.entry]; rfl
      have hbecame : Became c' .I := by
        refine ⟨fun e he => (hentry e he).1, fun hbusy => ?_⟩
        rcases hbusy with h | h <;> cases h
      have hy : y.responses = z.responses := by rw [hrest]
      refine ⟨⟨cur', hcur, hy ▸ hgood, fun e he => ?_⟩, ?_, timed_of_setState hset hbecame⟩
      · cases hnone.symm.trans he
      · change owners c' + owning y.responses = _
        rw [hbecame.owners, owners_of_getState hok hstate, hy, howner, ← hown]
        rfl

end L1Cache
end Token
end FeS2.Ruby
