import Mathlib.Logic.Function.Basic
import FeS2.Library.EventSystem
import FeS2.Ruby.Messages
import FeS2.Ruby.PersistentTable

/-!
Persistent requests of the token protocol, for one block. Every cache and the
directory keep a table of their own, and a cache's messages reach each of them in
the order sent. Along its channel to a node, what a cache asks for now is what the
table of the node says, after the messages still in flight.
-/

namespace FeS2.Ruby

inductive PersistentRequestType
  | GETX_PERSISTENT
  | GETS_PERSISTENT
  | DEACTIVATE_PERSISTENT
  deriving DecidableEq, Repr

structure PersistentMsg (ι : Type) where
  type : PersistentRequestType
  requestor : ι
  deriving DecidableEq

/-- The fields of a TBE that count requests. -/
structure TokenTBE where
  issueCount : ℕ
  accessType : AccessType
  deriving DecidableEq

/-- What a cache records of persistent requests, its own and those of its table. -/
inductive PersistentRecord (ι : Type)
  | lock (p : ι)
  | unlock (p : ι)
  | issue
  deriving DecidableEq

def AccessType.persistent : AccessType → PersistentRequestType
  | .Read => .GETS_PERSISTENT
  | .Write => .GETX_PERSISTENT

/-- `records` is what the caches see; the code does not keep it. -/
structure PersistentArbitration (ι : Type) where
  tbes : ι → Option TokenTBE := fun _ => none
  reissueTimer : ι → Bool := fun _ => false
  tables : NodeID ι → PersistentTable ι := fun _ => none
  channels : ι → NodeID ι → List (PersistentMsg ι) := fun _ _ => []
  records : ι → List (PersistentRecord ι) := fun _ => []
  failed : Bool := false

namespace PersistentMsg
variable {ι : Type} [DecidableEq ι]

/-- The first half of `persistentNetwork_in`. -/
def apply (msg : PersistentMsg ι) (table : PersistentTable ι) : Option (PersistentTable ι) :=
  match msg.type with
  | .GETX_PERSISTENT => table.persistentRequestLock msg.requestor .Write
  | .GETS_PERSISTENT => table.persistentRequestLock msg.requestor .Read
  | .DEACTIVATE_PERSISTENT => table.persistentRequestUnlock msg.requestor

def record (msg : PersistentMsg ι) : PersistentRecord ι :=
  if msg.type = .DEACTIVATE_PERSISTENT then .unlock msg.requestor else .lock msg.requestor

end PersistentMsg

namespace PersistentArbitration
variable {ι : Type} [DecidableEq ι]

/-- To the home directory and to every cache, its own sender as well. -/
def broadcast (msg : PersistentMsg ι) (s : PersistentArbitration ι) : PersistentArbitration ι :=
  { s with
    channels := Function.update s.channels msg.requestor fun n => s.channels msg.requestor n ++ [msg] }

def record (q : ι) (e : PersistentRecord ι) (s : PersistentArbitration ι) :
    PersistentArbitration ι :=
  { s with records := Function.update s.records q (s.records q ++ [e]) }

def setTBE (id : ι) (tbe : Option TokenTBE) (s : PersistentArbitration ι) :
    PersistentArbitration ι :=
  { s with tbes := Function.update s.tbes id tbe }

def setReissueTimer (id : ι) (set : Bool) (s : PersistentArbitration ι) :
    PersistentArbitration ι :=
  { s with reissueTimer := Function.update s.reissueTimer id set }

def setTable (n : NodeID ι) (table : PersistentTable ι) (s : PersistentArbitration ι) :
    PersistentArbitration ι :=
  { s with tables := Function.update s.tables n table }

def a_issueRequest (threshold : ℕ) (id : ι) (tbe : TokenTBE) (s : PersistentArbitration ι) :
    PersistentArbitration ι :=
  if ¬ tbe.issueCount ≤ threshold then { s with failed := true }
  else if tbe.issueCount < threshold then
    (s.setTBE id (some { tbe with issueCount := tbe.issueCount + 1 })).setReissueTimer id true
  else if (s.tables (.cache id)).okToIssueStarving id then
    let s := s.broadcast { type := tbe.accessType.persistent, requestor := id }
    match (s.tables (.cache id)).markEntries with
    | none => { s with failed := true }
    | some table =>
        ((s.setTable (.cache id) table).setTBE id
          (some { tbe with issueCount := tbe.issueCount + 1 })).record id .issue
  else s.setReissueTimer id true

def s_deallocateTBE (threshold : ℕ) (id : ι) (tbe : TokenTBE) (s : PersistentArbitration ι) :
    PersistentArbitration ι :=
  if ¬ tbe.issueCount ≤ threshold + 1 then { s with failed := true }
  else
    let s := if tbe.issueCount > threshold then
        s.broadcast { type := .DEACTIVATE_PERSISTENT, requestor := id }
      else s
    s.setTBE id none

/-- The next message of `p` to `n` is applied to the table of `n`. -/
def deliver (p : ι) (n : NodeID ι) (s : PersistentArbitration ι) :
    Option (PersistentArbitration ι) :=
  match s.channels p n with
  | [] => none
  | msg :: rest =>
      match msg.apply (s.tables n) with
      | none => some { s with failed := true }
      | some table =>
          let s := { s with
            channels := Function.update s.channels p (Function.update (s.channels p) n rest) }
          let s := s.setTable n table
          some (match n with
            | .cache q => s.record q msg.record
            | .directory => s)

/-- `unsetTimer`: a request is done, with its TBE kept for a while. -/
inductive Event (ι : Type)
  | allocateTBE (id : ι) (type : AccessType)
  | requestTimeout (id : ι)
  | unsetTimer (id : ι)
  | deallocateTBE (id : ι)
  | deliver (p : ι) (n : NodeID ι)

def step (threshold : ℕ) (s : PersistentArbitration ι) (e : Event ι) :
    Option (PersistentArbitration ι) :=
  if s.failed then none
  else
    match e with
    | .allocateTBE id type =>
        let tbe : TokenTBE := { issueCount := 0, accessType := type }
        if s.tbes id = none then some ((s.setTBE id (some tbe)).a_issueRequest threshold id tbe)
        else none
    | .requestTimeout id =>
        match s.tbes id with
        | none => none
        | some tbe =>
            if s.reissueTimer id then
              some ((s.setReissueTimer id false).a_issueRequest threshold id tbe)
            else none
    | .unsetTimer id => some (s.setReissueTimer id false)
    | .deallocateTBE id =>
        match s.tbes id with
        | none => none
        | some tbe => some ((s.s_deallocateTBE threshold id tbe).setReissueTimer id false)
    | .deliver p n => s.deliver p n

/-- The persistent requests issued since the lock of `p` was recorded, while it lasts. -/
def issuesSince (p : ι) (records : List (PersistentRecord ι)) : Option ℕ :=
  records.foldl (fun issues e =>
    match e with
    | .lock p' => if p' = p then some 0 else issues
    | .unlock p' => if p' = p then none else issues
    | .issue => issues.map (· + 1)) none

/-! Channels -/

/-- What the next message of `p` makes of what its receiver's table says of `p`. -/
def follow (p : ι) (asks : Option AccessType) (msg : PersistentMsg ι) :
    Option (Option AccessType) :=
  if msg.requestor = p then
    match msg.type, asks with
    | .GETX_PERSISTENT, none => some (some .Write)
    | .GETS_PERSISTENT, none => some (some .Read)
    | .DEACTIVATE_PERSISTENT, some _ => some none
    | _, _ => none
  else none

/-- What `p` has a persistent request for. -/
def status (threshold : ℕ) (tbe : Option TokenTBE) : Option AccessType :=
  tbe.bind fun tbe => if tbe.issueCount = threshold + 1 then some tbe.accessType else none

structure Inv (threshold : ℕ) (s : PersistentArbitration ι) : Prop where
  passed : s.failed = false
  tables : ∀ n, (s.tables n).Wf
  channels : ∀ p n, EventSystem.run (follow p) ((s.tables n).asks p) (s.channels p n) =
    some (status threshold (s.tbes p))
  counts : ∀ p tbe, s.tbes p = some tbe → tbe.issueCount ≤ threshold + 1
  timers : ∀ p, s.reissueTimer p → ∃ tbe, s.tbes p = some tbe ∧ tbe.issueCount ≤ threshold
  records : ∀ q p, match issuesSince p (s.records q) with
    | none => (s.tables (.cache q)).asks p = none
    | some k => (s.tables (.cache q)).asks p ≠ none ∧
        (k = 0 ∨ k = 1 ∧ p ∈ (s.tables (.cache q)).marked)

variable {threshold : ℕ} {s s' : PersistentArbitration ι} {p q id : ι} {n : NodeID ι}

/-- A message does to a table what it does to what the table says of its sender. -/
theorem apply_of_follow {msg : PersistentMsg ι} {table : PersistentTable ι}
    {asks : Option AccessType} (h : table.Wf) (hf : follow p (table.asks p) msg = some asks) :
    ∃ table', msg.apply table = some table' ∧ table'.Wf ∧
      (∀ q, table'.asks q = if q = p then asks else table.asks q) ∧
      ((msg.record = .lock p ∧ table.asks p = none ∧ asks ≠ none ∧
          table'.marked = table.marked) ∨
        (msg.record = .unlock p ∧ asks = none ∧ table'.marked = table.marked.erase p)) := by
  unfold follow at hf
  split at hf
  swap
  · cases hf
  next hreq =>
  obtain ⟨type, requestor⟩ := msg
  obtain rfl := hreq
  cases type with
  | DEACTIVATE_PERSISTENT =>
      cases ha : table.asks requestor with
      | none => simp [ha] at hf
      | some t =>
          simp only [ha, Option.some.injEq] at hf
          subst hf
          obtain ⟨table', h1, h2, h3, h4⟩ := h.unlock (p := requestor) (by simp [ha])
          exact ⟨table', h1, h2, h3, .inr ⟨rfl, rfl, h4⟩⟩
  | GETX_PERSISTENT =>
      cases ha : table.asks requestor with
      | some t => simp [ha] at hf
      | none =>
          simp only [ha, Option.some.injEq] at hf
          subst hf
          obtain ⟨table', h1, h2, h3, h4⟩ := h.lock .Write ha
          exact ⟨table', h1, h2, h3, .inl ⟨rfl, rfl, by simp, h4⟩⟩
  | GETS_PERSISTENT =>
      cases ha : table.asks requestor with
      | some t => simp [ha] at hf
      | none =>
          simp only [ha, Option.some.injEq] at hf
          subst hf
          obtain ⟨table', h1, h2, h3, h4⟩ := h.lock .Read ha
          exact ⟨table', h1, h2, h3, .inl ⟨rfl, rfl, by simp, h4⟩⟩

/-! Frames -/

theorem channels_broadcast (msg : PersistentMsg ι) (p : ι) (n : NodeID ι) :
    (s.broadcast msg).channels p n =
      if p = msg.requestor then s.channels p n ++ [msg] else s.channels p n := by
  unfold broadcast
  by_cases hp : p = msg.requestor
  · subst hp
    simp
  · simp [hp]

theorem issuesSince_append (records : List (PersistentRecord ι)) (e : PersistentRecord ι) :
    issuesSince p (records ++ [e]) =
      match e with
      | .lock p' => if p' = p then some 0 else issuesSince p records
      | .unlock p' => if p' = p then none else issuesSince p records
      | .issue => (issuesSince p records).map (· + 1) := by
  simp only [issuesSince, List.foldl_append, List.foldl_cons, List.foldl_nil]

/-- `p` sends a message that goes with what it asks for. -/
theorem run_follow_broadcast {asks : Option AccessType} {msgs : List (PersistentMsg ι)}
    {msg : PersistentMsg ι} {status status' : Option AccessType}
    (h : EventSystem.run (follow p) asks msgs = some status)
    (hf : follow p status msg = some status') :
    EventSystem.run (follow p) asks (msgs ++ [msg]) = some status' := by
  simp only [EventSystem.run_append, h, Option.bind_some, EventSystem.run_cons, hf,
    EventSystem.run_nil]

theorem follow_persistent (type : AccessType) :
    follow p none { type := type.persistent, requestor := p } = some (some type) := by
  cases type <;> simp [follow, AccessType.persistent]

theorem follow_deactivate (type : AccessType) :
    follow p (some type) { type := .DEACTIVATE_PERSISTENT, requestor := p } = some none := by
  simp [follow]

theorem status_of_le {tbe : TokenTBE} (h : tbe.issueCount ≤ threshold) :
    status threshold (some tbe) = none :=
  if_neg (by omega)

/-! Requests -/

theorem Inv.setTBE {tbe : Option TokenTBE} (h : s.Inv threshold)
    (hstatus : status threshold tbe = status threshold (s.tbes id))
    (hcount : ∀ t, tbe = some t → t.issueCount ≤ threshold + 1)
    (htimer : s.reissueTimer id = false) : (s.setTBE id tbe).Inv threshold := by
  refine ⟨h.passed, h.tables, fun p n => ?_, fun p t ht => ?_, fun p hp => ?_, h.records⟩
  · rw [show status threshold ((s.setTBE id tbe).tbes p) = status threshold (s.tbes p) from ?_]
    · exact h.channels p n
    · by_cases hp : p = id
      · subst hp
        simp only [PersistentArbitration.setTBE, Function.update_self, hstatus]
      · simp only [PersistentArbitration.setTBE, Function.update_of_ne hp]
  · by_cases hp : p = id
    · subst hp
      simp only [PersistentArbitration.setTBE, Function.update_self] at ht
      exact hcount t ht
    · simp only [PersistentArbitration.setTBE, Function.update_of_ne hp] at ht
      exact h.counts p t ht
  · have hp : s.reissueTimer p := hp
    have hne : p ≠ id := by
      intro he
      rw [he, htimer] at hp
      cases hp
    obtain ⟨t, ht, hle⟩ := h.timers p hp
    refine ⟨t, ?_, hle⟩
    simp only [PersistentArbitration.setTBE, Function.update_of_ne hne, ht]

theorem Inv.unsetTimer (h : s.Inv threshold) (id : ι) :
    (s.setReissueTimer id false).Inv threshold := by
  refine ⟨h.passed, h.tables, h.channels, h.counts, fun p hp => ?_, h.records⟩
  by_cases hid : p = id
  · simp only [setReissueTimer, hid, Function.update_self, Bool.false_eq_true] at hp
  · simp only [setReissueTimer, Function.update_of_ne hid] at hp
    exact h.timers p hp

theorem Inv.setTimer {tbe : TokenTBE} (h : s.Inv threshold) (ht : s.tbes id = some tbe)
    (hle : tbe.issueCount ≤ threshold) : (s.setReissueTimer id true).Inv threshold := by
  refine ⟨h.passed, h.tables, h.channels, h.counts, fun p hp => ?_, h.records⟩
  by_cases hid : p = id
  · exact ⟨tbe, hid ▸ ht, hle⟩
  · simp only [setReissueTimer, Function.update_of_ne hid] at hp
    exact h.timers p hp

/-- A cache that asks for nothing sends a persistent request and marks its table. -/
theorem Inv.issue {tbe : TokenTBE} {table : PersistentTable ι} (h : s.Inv threshold)
    (ht : s.tbes id = some tbe) (hcount : tbe.issueCount = threshold)
    (htimer : s.reissueTimer id = false)
    (hmarked : (s.tables (.cache id)).marked = ∅)
    (hmark : (s.tables (.cache id)).markEntries = some table) :
    ((((s.broadcast { type := tbe.accessType.persistent, requestor := id }).setTable
      (.cache id) table).setTBE id
      (some { tbe with issueCount := tbe.issueCount + 1 })).record id .issue).Inv threshold := by
  obtain ⟨table', hmark', hwf, hasks, hstarving⟩ := (h.tables (.cache id)).mark hmarked
  rw [hmark] at hmark'
  obtain rfl := Option.some.inj hmark'
  have hasks' : ∀ n p, (Function.update s.tables (.cache id) table n).asks p =
      (s.tables n).asks p := by
    intro n p
    by_cases hn : n = .cache id
    · rw [hn, Function.update_self]
      exact hasks p
    · rw [Function.update_of_ne hn]
  refine ⟨h.passed, fun n => ?_, fun p n => ?_, fun p t htp => ?_, fun p hp => ?_, fun q p => ?_⟩
  · show (Function.update s.tables (.cache id) table n).Wf
    by_cases hn : n = .cache id
    · rw [hn, Function.update_self]
      exact hwf
    · rw [Function.update_of_ne hn]
      exact h.tables n
  · show EventSystem.run (follow p) ((Function.update s.tables (.cache id) table n).asks p)
      ((s.broadcast { type := tbe.accessType.persistent, requestor := id }).channels p n) =
      some (status threshold (Function.update s.tbes id
        (some { tbe with issueCount := tbe.issueCount + 1 }) p))
    rw [hasks' n p, channels_broadcast]
    by_cases hp : p = id
    · subst hp
      rw [if_pos rfl, Function.update_self]
      refine run_follow_broadcast (h.channels p n) ?_
      rw [ht, status_of_le hcount.le, follow_persistent]
      exact congrArg some (if_pos (by rw [hcount])).symm
    · rw [if_neg hp, Function.update_of_ne hp]
      exact h.channels p n
  · by_cases hp : p = id
    · subst hp
      have htp : Function.update s.tbes p (some { tbe with issueCount := tbe.issueCount + 1 }) p =
        some t := htp
      rw [Function.update_self] at htp
      cases htp
      exact (congrArg (· + 1) hcount).le
    · have htp : Function.update s.tbes id (some { tbe with issueCount := tbe.issueCount + 1 }) p =
        some t := htp
      rw [Function.update_of_ne hp] at htp
      exact h.counts p t htp
  · have hp : s.reissueTimer p := hp
    have hne : p ≠ id := by
      intro he
      rw [he, htimer] at hp
      cases hp
    obtain ⟨t, htp, hle⟩ := h.timers p hp
    exact ⟨t, (Function.update_of_ne hne _ _).trans htp, hle⟩
  · show match issuesSince p (Function.update s.records id (s.records id ++ [.issue]) q) with
      | none => (Function.update s.tables (.cache id) table (.cache q)).asks p = none
      | some k => (Function.update s.tables (.cache id) table (.cache q)).asks p ≠ none ∧
          (k = 0 ∨ k = 1 ∧ p ∈ (Function.update s.tables (.cache id) table (.cache q)).marked)
    have hold := h.records q p
    by_cases hq : q = id
    · subst hq
      rw [Function.update_self, Function.update_self, issuesSince_append]
      cases hi : issuesSince p (s.records q) with
      | none =>
          rw [hi] at hold
          exact (hasks p).trans hold
      | some k =>
          rw [hi] at hold
          obtain ⟨ha, hk⟩ := hold
          refine ⟨(hasks p).symm ▸ ha, .inr ⟨?_, ?_⟩⟩
          · rcases hk with rfl | ⟨-, hm⟩
            · rfl
            · rw [hmarked] at hm
              cases hm
          · rw [hstarving]
            exact PersistentTable.mem_starving.mpr ha
    · rw [Function.update_of_ne hq, Function.update_of_ne fun he => hq (NodeID.cache.inj he)]
      exact hold

theorem Inv.issueRequest {tbe : TokenTBE} (h : s.Inv threshold) (ht : s.tbes id = some tbe)
    (hle : tbe.issueCount ≤ threshold) (htimer : s.reissueTimer id = false) :
    (s.a_issueRequest threshold id tbe).Inv threshold := by
  unfold a_issueRequest
  rw [if_neg (not_not.mpr hle)]
  split
  · next hlt =>
      refine Inv.setTimer (s := s.setTBE id (some { tbe with issueCount := tbe.issueCount + 1 }))
        (h.setTBE ?_ (fun t he => ?_) htimer) (Function.update_self _ _ _) hlt
      · rw [ht, status_of_le hle]
        exact status_of_le hlt
      · cases he
        exact Nat.le_succ_of_le hlt
  next hge =>
  split
  · next hok =>
      obtain ⟨-, hmarked⟩ := (PersistentTable.okToIssueStarving_iff id).mp hok
      obtain ⟨table, hmark, -⟩ := (h.tables (.cache id)).mark hmarked
      dsimp only
      rw [show ((s.broadcast { type := tbe.accessType.persistent, requestor := id }).tables
        (.cache id)).markEntries = some table from hmark]
      exact h.issue ht (by omega) htimer hmarked hmark
  · exact h.setTimer ht hle

theorem Inv.deallocate {tbe : TokenTBE} (h : s.Inv threshold) (ht : s.tbes id = some tbe)
    (htimer : s.reissueTimer id = false) : (s.s_deallocateTBE threshold id tbe).Inv threshold := by
  unfold s_deallocateTBE
  have hle := h.counts id tbe ht
  rw [if_neg (not_not.mpr hle)]
  dsimp only
  split
  swap
  · next hgt =>
      refine h.setTBE ?_ (fun _ he => nomatch he) htimer
      rw [ht, status_of_le (Nat.le_of_not_lt hgt)]
      rfl
  next hgt =>
  have hstatus : status threshold (s.tbes id) = some tbe.accessType := by
    rw [ht]
    exact if_pos (by omega)
  refine ⟨h.passed, h.tables, fun p n => ?_, fun p t htp => ?_, fun p hp => ?_, h.records⟩
  · show EventSystem.run (follow p) ((s.tables n).asks p)
      ((s.broadcast { type := .DEACTIVATE_PERSISTENT, requestor := id }).channels p n) =
      some (status threshold (Function.update s.tbes id none p))
    rw [channels_broadcast]
    by_cases hp : p = id
    · subst hp
      rw [if_pos rfl, Function.update_self]
      refine run_follow_broadcast (h.channels p n) ?_
      rw [hstatus]
      exact follow_deactivate _
    · rw [if_neg hp, Function.update_of_ne hp]
      exact h.channels p n
  · have htp : Function.update s.tbes id none p = some t := htp
    by_cases hp : p = id
    · rw [hp, Function.update_self] at htp
      cases htp
    · rw [Function.update_of_ne hp] at htp
      exact h.counts p t htp
  · have hp : s.reissueTimer p := hp
    have hne : p ≠ id := by
      intro he
      rw [he, htimer] at hp
      cases hp
    obtain ⟨t, htp, hle⟩ := h.timers p hp
    exact ⟨t, (Function.update_of_ne hne _ _).trans htp, hle⟩

/-! Deliveries -/

theorem deliver_spec {msg : PersistentMsg ι} {rest : List (PersistentMsg ι)}
    {table : PersistentTable ι} (hc : s.channels p n = msg :: rest)
    (happly : msg.apply (s.tables n) = some table) (hs : s.deliver p n = some s') :
    s'.tbes = s.tbes ∧ s'.reissueTimer = s.reissueTimer ∧ s'.failed = s.failed ∧
      s'.channels = Function.update s.channels p (Function.update (s.channels p) n rest) ∧
      s'.tables = Function.update s.tables n table ∧
      ∀ q, s'.records q =
        if n = .cache q then s.records q ++ [msg.record] else s.records q := by
  unfold deliver at hs
  simp only [hc, happly] at hs
  cases n with
  | cache q =>
      obtain rfl := Option.some.inj hs
      refine ⟨rfl, rfl, rfl, rfl, rfl, fun q' => ?_⟩
      by_cases hq : q' = q
      · rw [hq, if_pos rfl]
        exact Function.update_self _ _ _
      · rw [if_neg fun he => hq (NodeID.cache.inj he).symm]
        exact Function.update_of_ne hq _ _
  | directory =>
      obtain rfl := Option.some.inj hs
      exact ⟨rfl, rfl, rfl, rfl, rfl, fun q' => (if_neg (by simp)).symm⟩

theorem Inv.deliver (h : s.Inv threshold) (hs : s.deliver p n = some s') : s'.Inv threshold := by
  have hrun := h.channels p n
  cases hc : s.channels p n with
  | nil =>
      unfold PersistentArbitration.deliver at hs
      simp only [hc, reduceCtorEq] at hs
  | cons msg rest =>
  rw [hc, EventSystem.run_cons_eq_some] at hrun
  obtain ⟨asks, hf, hrest⟩ := hrun
  obtain ⟨table, happly, hwf, hasks, heffect⟩ := apply_of_follow (h.tables n) hf
  obtain ⟨htbes, htimer, hfailed, hchannels, htables, hrecords⟩ := deliver_spec hc happly hs
  refine ⟨hfailed.trans h.passed, fun n' => ?_, fun p' n' => ?_, ?_, ?_, fun q p' => ?_⟩
  · rw [htables]
    by_cases hn : n' = n
    · rw [hn, Function.update_self]
      exact hwf
    · rw [Function.update_of_ne hn]
      exact h.tables n'
  · rw [htables, htbes, hchannels]
    by_cases hn : n' = n
    · subst hn
      rw [Function.update_self, hasks]
      by_cases hp : p' = p
      · subst hp
        rw [if_pos rfl, Function.update_self, Function.update_self]
        exact hrest
      · rw [if_neg hp, Function.update_of_ne hp]
        exact h.channels p' n'
    · rw [Function.update_of_ne hn]
      by_cases hp : p' = p
      · subst hp
        rw [Function.update_self, Function.update_of_ne hn]
        exact h.channels p' n'
      · rw [Function.update_of_ne hp]
        exact h.channels p' n'
  · rw [htbes]
    exact h.counts
  · rw [htbes, htimer]
    exact h.timers
  · have hold := h.records q p'
    rw [htables, hrecords q]
    by_cases hn : n = .cache q
    · subst hn
      rw [Function.update_self, if_pos rfl, issuesSince_append, hasks]
      rcases heffect with ⟨hrec, -, hne, hmarked⟩ | ⟨hrec, hnone, hmarked⟩
      · rw [hrec, hmarked]
        by_cases hp : p' = p
        · subst hp
          simp only [if_true]
          exact ⟨hne, .inl trivial⟩
        · simp only [if_neg hp, if_neg (Ne.symm hp)]
          exact hold
      · rw [hrec, hmarked]
        by_cases hp : p' = p
        · subst hp
          simp only [if_true]
          exact hnone
        · simp only [if_neg (Ne.symm hp), Finset.mem_erase, ne_eq, hp, not_false_eq_true,
            true_and]
          exact hold
    · rw [Function.update_of_ne (Ne.symm hn), if_neg hn]
      exact hold

theorem Inv.step {e : Event ι} (h : s.Inv threshold) (hs : s.step threshold e = some s') :
    s'.Inv threshold := by
  unfold PersistentArbitration.step at hs
  rw [h.passed] at hs
  simp only [Bool.false_eq_true, if_false] at hs
  have hoff : ∀ id, s.tbes id = none → s.reissueTimer id = false := by
    intro id hid
    cases ht : s.reissueTimer id with
    | false => rfl
    | true =>
        obtain ⟨t, htp, -⟩ := h.timers id ht
        rw [hid] at htp
        cases htp
  cases e with
  | allocateTBE id type =>
      simp only at hs
      split at hs
      · next hid =>
          obtain rfl := Option.some.inj hs
          refine Inv.issueRequest (h.setTBE ?_ (fun t he => ?_) (hoff id hid))
            (Function.update_self _ _ _) (Nat.zero_le _) (hoff id hid)
          · rw [hid]
            exact status_of_le (Nat.zero_le _)
          · cases he
            exact Nat.zero_le _
      · cases hs
  | requestTimeout id =>
      simp only at hs
      split at hs
      · cases hs
      next tbe ht =>
      split at hs
      · next htimer =>
          obtain rfl := Option.some.inj hs
          obtain ⟨t, ht', hle⟩ := h.timers id htimer
          rw [ht] at ht'
          cases ht'
          exact (h.unsetTimer id).issueRequest ht hle (Function.update_self _ _ _)
      · cases hs
  | unsetTimer id =>
      obtain rfl := Option.some.inj hs
      exact h.unsetTimer id
  | deallocateTBE id =>
      simp only at hs
      split at hs
      · cases hs
      next tbe ht =>
      obtain rfl := Option.some.inj hs
      have hd := (h.unsetTimer id).deallocate ht (Function.update_self _ _ _)
      have heq : (s.s_deallocateTBE threshold id tbe).setReissueTimer id false =
          (s.setReissueTimer id false).s_deallocateTBE threshold id tbe := by
        unfold s_deallocateTBE
        split
        · rfl
        · dsimp only
          split <;> rfl
      rw [heq]
      exact hd
  | deliver p n => exact h.deliver hs

theorem Inv.init : ({} : PersistentArbitration ι).Inv threshold where
  passed := rfl
  tables _ := PersistentTable.wf_none
  channels _ _ := rfl
  counts _ _ h := nomatch h
  timers _ h := nomatch h
  records _ _ := rfl

theorem inv_of_reachable (h : EventSystem.Reachable (step threshold) {} s) : s.Inv threshold :=
  EventSystem.reachable_invariant Inv.init (fun _ _ _ hs he => hs.step he) h

/-- No assertion fails, the tables agree when nothing is in flight, and a cache bypasses
a starving one at most once. -/
theorem persistent_arbitration (h : EventSystem.Reachable (step threshold) {} s) :
    s.failed = false ∧
    ((∀ p n, s.channels p n = []) → ∀ n n',
      (s.tables n).starving = (s.tables n').starving ∧
      (s.tables n).requestToWrite = (s.tables n').requestToWrite) ∧
    ∀ q p k, issuesSince p (s.records q) = some k → k ≤ 1 := by
  have hinv := inv_of_reachable h
  refine ⟨hinv.passed, fun hempty n n' => ?_, fun q p k hk => ?_⟩
  · refine (hinv.tables n).sets_eq (hinv.tables n') fun p => ?_
    have h1 := hinv.channels p n
    have h2 := hinv.channels p n'
    rw [hempty p n] at h1
    rw [hempty p n'] at h2
    exact (Option.some.inj h1).trans (Option.some.inj h2).symm
  · have hrec := hinv.records q p
    rw [hk] at hrec
    rcases hrec.2 with rfl | ⟨rfl, -⟩
    · exact Nat.zero_le _
    · exact Nat.le_refl _

/-- Cache 1 bypasses cache 0 once, and waits for its unlock with the next request. -/
def bypass : List (Event ℕ) :=
  [.allocateTBE 0 .Write, .deliver 0 (.cache 1), .allocateTBE 1 .Read, .deallocateTBE 1,
    .deliver 1 (.cache 1), .deliver 1 (.cache 1), .allocateTBE 1 .Write, .requestTimeout 1]

theorem persistent_arbitration_bypass :
    ∃ s : PersistentArbitration ℕ, EventSystem.run (step 0) {} bypass = some s ∧
      issuesSince 0 (s.records 1) = some 1 ∧ s.failed = false ∧
      ((∀ p n, s.channels p n = []) → ∀ n n',
        (s.tables n).starving = (s.tables n').starving ∧
        (s.tables n).requestToWrite = (s.tables n').requestToWrite) ∧
      ∀ q p k, issuesSince p (s.records q) = some k → k ≤ 1 := by
  have hrun : (EventSystem.run (step 0) {} bypass).map
      (fun s : PersistentArbitration ℕ => issuesSince 0 (s.records 1)) = some (some 1) := by
    decide +kernel
  obtain ⟨s, hs, hk⟩ := Option.map_eq_some_iff.mp hrun
  exact ⟨s, hs, hk, persistent_arbitration ⟨_, hs⟩⟩

end PersistentArbitration
end FeS2.Ruby
