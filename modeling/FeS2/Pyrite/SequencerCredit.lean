import Mathlib.Data.Finset.Card
import Mathlib.Data.Multiset.Filter
import FeS2.Pyrite.Coalescing

/-!
The sequencer takes a bounded number of requests. The scheduler asks for room
when it selects a memory uop, and the request follows cycles later; a store makes
two, and one at retirement asks nobody. A run in which the lines under way fit at
each selection never overruns the sequencer.
-/

namespace FeS2.Pyrite

/-- `nullRequest`: what a message without address and type reads as. -/
structure IssueParams (L : Type) where
  SEQUENCER_OUTSTANDING_REQUESTS : ℕ
  executeWidth : ℕ
  memoryIssueWidth : ℕ
  storeIssueWidth : ℕ
  nullRequest : L × RequestType

/-- The parameters of `rubyInit` and `dataCollect`. -/
def IssueParams.dataCollect : IssueParams ℕ where
  SEQUENCER_OUTSTANDING_REQUESTS := 16 + 4
  executeWidth := 4
  memoryIssueWidth := 2
  storeIssueWidth := 1
  nullRequest := (0, .REQUEST_READ)

structure MemoryUop (L ρ : Type) where
  uop : ρ
  isstore : Bool
  line : L
  deriving DecidableEq

namespace MemoryInterface
variable {L ρ : Type} [DecidableEq L] [DecidableEq ρ]

/-- `Sequencer::isReady`. -/
def isReady (limit : ℕ) (request : L × RequestType) (s : MemoryInterface L ρ) : Bool :=
  s.outstanding.card < limit && request ∉ s.outstanding

/-- The request that an event makes. -/
def asks (s : MemoryInterface L ρ) : Event L ρ → Option (L × RequestType)
  | .access addr type _ _ => some (addr, type)
  | .wakeNext _ =>
      match s.draining with
      | (_, ⟨_, .retry addr type _ :: _⟩) :: _ => some (addr, type)
      | _ => none
  | _ => none

/-- The assertion of `RubyMemoryInterface::request`, for a line that is not requested. -/
def granted (limit : ℕ) (s : MemoryInterface L ρ) : Option (L × RequestType) → Bool
  | none => true
  | some m => (s.requestedLines m.1).isSome || s.isReady limit m

end MemoryInterface

/-- `selected`: uops on their way from the scheduler to `execute`. `executed`: stores
that have prefetched and are to demand their line. -/
structure SequencerCredit (L ρ : Type) where
  memory : MemoryInterface L ρ := {}
  numExecuted : ℕ := 0
  numMemory : ℕ := 0
  numStore : ℕ := 0
  selected : Multiset (MemoryUop L ρ) := 0
  executed : Multiset (MemoryUop L ρ) := 0
  overrun : Bool := false

namespace SequencerCredit
variable {L ρ : Type} [DecidableEq L] [DecidableEq ρ]

/-- `cacheAccess`: an executed uop goes to the cache, and not to a store before it. -/
inductive Event (L ρ : Type)
  | select (d : MemoryUop L ρ)
  | selectOther
  | cycle
  | execute (d : MemoryUop L ρ) (cacheAccess hit : Bool)
  | demandStore (d : MemoryUop L ρ) (hit : Bool)
  | fill (m : L × RequestType)
  | wakeNext (hit : Bool)
  | squash (r : ρ)

/-- What can happen in the middle of a `wakeupAll`. -/
def Event.withinWakeup : Event L ρ → Bool
  | .wakeNext _ => true
  | .squash _ => true
  | _ => false

/-- The interface does its part, unless the assertion fails and everything ends. -/
def issue (p : IssueParams L) (e : MemoryInterface.Event L ρ) (s : SequencerCredit L ρ) :
    Option (SequencerCredit L ρ) :=
  if s.memory.granted p.SEQUENCER_OUTSTANDING_REQUESTS (s.memory.asks e) then
    (s.memory.step e).map fun memory => { s with memory := memory }
  else some { s with overrun := true }

/-- `cacheReady`. -/
def ready (p : IssueParams L) (s : SequencerCredit L ρ) : Bool :=
  s.memory.isReady p.SEQUENCER_OUTSTANDING_REQUESTS p.nullRequest

/-- A turn of the loop of `OutorderScheduler::select`. -/
def select (p : IssueParams L) (d : MemoryUop L ρ) (s : SequencerCredit L ρ) :
    Option (SequencerCredit L ρ) :=
  if s.numExecuted ≥ p.executeWidth then none
  else if (!d.isstore && s.numMemory ≥ p.memoryIssueWidth) ||
      (d.isstore && s.numStore ≥ p.storeIssueWidth) then none
  else if !s.ready p then none
  else some { s with
    numExecuted := s.numExecuted + 1
    numMemory := s.numMemory + 1
    numStore := if d.isstore then s.numStore + 1 else s.numStore
    selected := d ::ₘ s.selected }

/-- A load reads its line, a store prefetches it. -/
def execute (p : IssueParams L) (d : MemoryUop L ρ) (cacheAccess hit : Bool)
    (s : SequencerCredit L ρ) : Option (SequencerCredit L ρ) :=
  if d ∈ s.selected then
    let s := { s with selected := s.selected.erase d }
    if !cacheAccess then some s
    else if d.isstore then
      { s with executed := d ::ₘ s.executed }.issue p (.access d.line .REQUEST_WRITE none hit)
    else s.issue p (.access d.line .REQUEST_READ (some d.uop) hit)
  else none

def demandStore (p : IssueParams L) (d : MemoryUop L ρ) (hit : Bool) (s : SequencerCredit L ρ) :
    Option (SequencerCredit L ρ) :=
  if d ∈ s.executed then
    { s with executed := s.executed.erase d }.issue p
      (.access d.line .REQUEST_WRITE (some d.uop) hit)
  else none

def squash (p : IssueParams L) (r : ρ) (s : SequencerCredit L ρ) : Option (SequencerCredit L ρ) :=
  { s with
    selected := s.selected.filter fun d => d.uop ≠ r
    executed := s.executed.filter fun d => d.uop ≠ r }.issue p (.squash r)

def step (p : IssueParams L) (s : SequencerCredit L ρ) (e : Event L ρ) :
    Option (SequencerCredit L ρ) :=
  if s.overrun || (!s.memory.draining.isEmpty && !e.withinWakeup) then none
  else
    match e with
    | .select d => s.select p d
    | .selectOther =>
        if s.numExecuted ≥ p.executeWidth then none
        else some { s with numExecuted := s.numExecuted + 1 }
    | .cycle => some { s with numExecuted := 0, numMemory := 0, numStore := 0 }
    | .execute d cacheAccess hit => s.execute p d cacheAccess hit
    | .demandStore d hit => s.demandStore p d hit
    | .fill m => s.issue p (.fill m)
    | .wakeNext hit => s.issue p (.wakeNext hit)
    | .squash r => s.squash p r

/-! The lines under way -/

end SequencerCredit

namespace MemoryInterface
variable {L ρ : Type} [DecidableEq L] [DecidableEq ρ] {s s' : MemoryInterface L ρ} {addr a : L}
  {type : RequestType}

/-- The lines whose requests are outstanding, or whose waiters are being woken. -/
def busy (s : MemoryInterface L ρ) : Finset L :=
  (s.outstanding.map Prod.fst).toFinset ∪ (s.draining.map Prod.fst).toFinset

omit [DecidableEq ρ] in
theorem mem_busy : a ∈ s.busy ↔ (∃ t, (a, t) ∈ s.outstanding) ∨ ∃ line, (a, line) ∈ s.draining := by
  simp [busy]

omit [DecidableEq ρ] in
theorem request_outstanding {requester : Option ρ} {hit : Bool} {m : L × RequestType}
    (h : m ∈ (s.request addr type requester hit).outstanding) :
    m.1 = addr ∨ m ∈ s.outstanding := by
  cases hl : s.requestedLines addr with
  | some line =>
      right
      simp only [request, hl, coalesce] at h
      split at h
      · exact h
      · cases requester <;> exact h
  | none =>
      cases hit with
      | true =>
          rw [request_hit hl] at h
          exact .inr h
      | false =>
          rw [request_miss hl] at h
          have h : m ∈ (addr, type) ::ₘ s.outstanding := by
            cases requester <;> exact h
          rcases Multiset.mem_cons.mp h with rfl | h
          · exact .inl rfl
          · exact .inr h

omit [DecidableEq ρ] in
theorem busy_request {requester : Option ρ} {hit : Bool}
    (h : a ∈ (s.request addr type requester hit).busy) : a = addr ∨ a ∈ s.busy := by
  rw [mem_busy, request_draining] at h
  rcases h with ⟨t, ht⟩ | hd
  · rcases request_outstanding ht with rfl | ht
    · exact .inl rfl
    · exact .inr (mem_busy.mpr (.inl ⟨t, ht⟩))
  · exact .inr (mem_busy.mpr (.inr hd))

omit [DecidableEq ρ] in
theorem busy_report (e : Report L ρ) : (s.report e).busy = s.busy := rfl

theorem busy_access {requester : Option ρ} {hit : Bool}
    (h : a ∈ (s.access addr type requester hit).busy) : a = addr ∨ a ∈ s.busy := by
  cases requester with
  | none => exact busy_request h
  | some r =>
      have h : a ∈ ((s.report (.request r addr type)).request addr type (some r) hit).busy := by
        simp only [access] at h
        split at h
        · exact h
        · exact h
      have ha := busy_request h
      rwa [busy_report] at ha

theorem busy_retry {requester : Option ρ} {hit : Bool}
    (h : a ∈ (s.retry addr type requester hit).busy) : a = addr ∨ a ∈ s.busy := by
  cases requester with
  | none =>
      simp only [retry] at h
      exact busy_request h
  | some r =>
      simp only [retry] at h
      split at h
      · exact busy_request h
      · rw [busy_report] at h
        exact busy_request h

omit [DecidableEq ρ] in
theorem busy_fill {m : L × RequestType} (hs : s.fill m = some s') (h : a ∈ s'.busy) :
    a ∈ s.busy := by
  unfold fill at hs
  split at hs
  swap
  · cases hs
  next hm =>
  obtain rfl := Option.some.inj hs
  have hout : ∀ t, (a, t) ∈ s.outstanding.erase m → a ∈ s.busy := fun t ht =>
    mem_busy.mpr (.inl ⟨t, Multiset.mem_of_mem_erase ht⟩)
  have hdrain : ∀ line, (a, line) ∈ s.draining → a ∈ s.busy := fun line hl =>
    mem_busy.mpr (.inr ⟨line, hl⟩)
  unfold fillRequest at h
  dsimp only at h
  split at h
  · rcases mem_busy.mp h with ⟨t, ht⟩ | ⟨line, hl⟩
    · exact hout t ht
    · exact hdrain line hl
  next line hl =>
  unfold wakeupAll at h
  split at h
  · rcases mem_busy.mp h with ⟨t, ht⟩ | ⟨line, hl⟩
    · exact hout t ht
    · exact hdrain line hl
  · rcases mem_busy.mp h with ⟨t, ht⟩ | ⟨line', hl'⟩
    · exact hout t ht
    · rcases List.mem_cons.mp hl' with he | hl'
      · cases he
        exact mem_busy.mpr (.inl ⟨m.2, hm⟩)
      · exact hdrain line' hl'

/-- A retry is for the line of its list, so nothing new is under way after it. -/
theorem busy_wakeNext {hit : Bool} (hwf : s.Wf none) (hs : s.wakeNext hit = some s')
    (h : a ∈ s'.busy) : a ∈ s.busy := by
  unfold wakeNext at hs
  split at hs
  · cases hs
  next addr line rest hd =>
  have hhead : addr ∈ s.busy := mem_busy.mpr (.inr ⟨line, hd ▸ List.mem_cons_self⟩)
  have hrest : ∀ {draining} , (∀ x ∈ draining, x.1 = addr ∨ x ∈ rest) →
      a ∈ ({ s with draining := draining } : MemoryInterface L ρ).busy → a ∈ s.busy := by
    intro draining hsub ha
    rcases mem_busy.mp ha with ho | ⟨line', hl'⟩
    · exact mem_busy.mpr (.inl ho)
    · rcases hsub _ hl' with rfl | hmem
      · exact hhead
      · exact mem_busy.mpr (.inr ⟨line', hd ▸ List.mem_cons_of_mem _ hmem⟩)
  have hcons : ∀ ws : List (Waiter L ρ),
      ∀ x ∈ (addr, { line with waiters := ws }) :: rest, x.1 = addr ∨ x ∈ rest := by
    intro ws x hx
    rcases List.mem_cons.mp hx with rfl | hx
    · exact .inl rfl
    · exact .inr hx
  split at hs
  · obtain rfl := Option.some.inj hs
    exact hrest (fun x hx => .inr hx) h
  next w ws hw =>
  cases w with
  | requester r =>
      obtain rfl := Option.some.inj hs
      exact hrest (hcons ws) h
  | retry addr' type req =>
      obtain rfl := Option.some.inj hs
      have hfits := hwf.draining (addr, line) (hd ▸ List.mem_cons_self)
      obtain ⟨rfl, -, -⟩ := hfits.retry addr' type req (hw ▸ List.mem_cons_self)
      rcases busy_retry h with rfl | ha
      · exact hhead
      · exact hrest (hcons ws) ha

theorem busy_squash (r : ρ) : (s.squash r).busy = s.busy := by
  simp [busy, squash, Function.comp_def]

/-- The sequencer has room for a request of a line that is under way and not requested,
if what is under way fits. -/
theorem isReady_of_busy {limit : ℕ} {lines : Finset L} (hwf : s.Wf none)
    (hline : s.requestedLines addr = none) (hmem : addr ∈ lines) (hbusy : s.busy ⊆ lines)
    (hfits : lines.card ≤ limit) : s.isReady limit (addr, type) := by
  have hnot : ∀ t, (addr, t) ∉ s.outstanding := by
    intro t ht
    obtain ⟨line, hl, -⟩ := hwf.outstanding.mem ht
    rw [hline] at hl
    cases hl
  have hsub : (s.outstanding.map Prod.fst).toFinset ⊆ lines.erase addr := by
    intro b hb
    have hb' : b ∈ s.busy := Finset.mem_union_left _ hb
    refine Finset.mem_erase.mpr ⟨fun he => ?_, hbusy hb'⟩
    obtain ⟨m, hm, rfl⟩ := Multiset.mem_map.mp (Multiset.mem_toFinset.mp hb)
    exact hnot m.2 (he ▸ hm)
  have hcard : s.outstanding.card = (s.outstanding.map Prod.fst).toFinset.card := by
    rw [Multiset.toFinset_card_of_nodup hwf.outstanding_lines, Multiset.card_map]
  have hle := Finset.card_le_card hsub
  have hlt := Finset.card_erase_lt_of_mem hmem
  have hroom : s.outstanding.card < limit := by omega
  simp [isReady, hroom, hnot type]

end MemoryInterface

namespace SequencerCredit
variable {L ρ : Type} [DecidableEq L] [DecidableEq ρ] {p : IssueParams L}
  {s s' t u : SequencerCredit L ρ} {d : MemoryUop L ρ} {a : L}

/-- The lines of memory uops that are not done with the cache, and those under way. -/
def lines (s : SequencerCredit L ρ) : Finset L :=
  s.memory.busy ∪ ((s.selected + s.executed).map MemoryUop.line).toFinset

/-- What is under way fits when a memory uop is selected. -/
def Roomy (p : IssueParams L) (s : SequencerCredit L ρ) : Event L ρ → Prop
  | .select d => (insert d.line s.lines).card ≤ p.SEQUENCER_OUTSTANDING_REQUESTS
  | _ => True

instance (p : IssueParams L) (s : SequencerCredit L ρ) : ∀ e, Decidable (Roomy p s e)
  | .select d => inferInstanceAs
      (Decidable ((insert d.line s.lines).card ≤ p.SEQUENCER_OUTSTANDING_REQUESTS))
  | .selectOther | .cycle | .execute _ _ _ | .demandStore _ _ | .fill _ | .wakeNext _ | .squash _ =>
      isTrue trivial

structure Inv (p : IssueParams L) (s : SequencerCredit L ρ) : Prop where
  memory : s.memory.Wf none
  fits : s.lines.card ≤ p.SEQUENCER_OUTSTANDING_REQUESTS
  overrun : s.overrun = false

omit [DecidableEq ρ] in
theorem mem_lines : a ∈ s.lines ↔
    a ∈ s.memory.busy ∨ ∃ d, d ∈ s.selected + s.executed ∧ d.line = a := by
  simp only [lines, Finset.mem_union, Multiset.mem_toFinset, Multiset.mem_map]

/-- The interface does its part, within the lines under way. -/
theorem Inv.issue {e : MemoryInterface.Event L ρ} (h : s.Inv p)
    (hgranted : s.memory.granted p.SEQUENCER_OUTSTANDING_REQUESTS (s.memory.asks e))
    (hbusy : ∀ memory, s.memory.step e = some memory → memory.busy ⊆ s.lines)
    (hs : s.issue p e = some s') : s'.Inv p := by
  unfold SequencerCredit.issue at hs
  rw [if_pos hgranted] at hs
  obtain ⟨memory, hm, rfl⟩ := Option.map_eq_some_iff.mp hs
  refine ⟨h.memory.step hm, le_trans (Finset.card_le_card ?_) h.fits, h.overrun⟩
  exact Finset.union_subset (hbusy memory hm) Finset.subset_union_right

theorem Inv.of_lines (h : s.Inv p) (hmem : t.memory = s.memory) (hover : t.overrun = s.overrun)
    (hsub : t.selected + t.executed ≤ s.selected + s.executed) : t.Inv p := by
  refine ⟨hmem ▸ h.memory, le_trans (Finset.card_le_card fun a ha => ?_) h.fits,
    hover.trans h.overrun⟩
  rw [mem_lines] at ha ⊢
  rcases ha with ha | ⟨d, hd, rfl⟩
  · exact .inl (hmem ▸ ha)
  · exact .inr ⟨d, Multiset.mem_of_le hsub hd, rfl⟩

/-- A uop that was selected makes its request. -/
theorem Inv.access {type : RequestType} {requester : Option ρ} {hit : Bool} (h : s.Inv p)
    (hd : d ∈ s.selected + s.executed)
    (hsub : t.selected + t.executed ≤ s.selected + s.executed)
    (hmem : t.memory = s.memory) (hover : t.overrun = s.overrun)
    (hs : t.issue p (.access d.line type requester hit) = some u) : u.Inv p := by
  have hd' : d.line ∈ s.lines := mem_lines.mpr (.inr ⟨d, hd, rfl⟩)
  have hbusy : ∀ memory, t.memory.step (.access d.line type requester hit) = some memory →
      memory.busy ⊆ s.lines := by
    intro memory hm a ha
    rw [hmem] at hm
    have ha : a = d.line ∨ a ∈ s.memory.busy := by
      cases requester with
      | none =>
          obtain rfl := Option.some.inj hm
          exact MemoryInterface.busy_request ha
      | some r =>
          simp only [MemoryInterface.step] at hm
          split at hm
          · obtain rfl := Option.some.inj hm
            exact MemoryInterface.busy_access ha
          · cases hm
    rcases ha with rfl | ha
    · exact hd'
    · exact mem_lines.mpr (.inl ha)
  have hgranted : t.memory.granted p.SEQUENCER_OUTSTANDING_REQUESTS
      (t.memory.asks (.access d.line type requester hit)) := by
    rw [hmem]
    simp only [MemoryInterface.asks, MemoryInterface.granted, Bool.or_eq_true]
    cases hl : s.memory.requestedLines d.line with
    | some line => exact .inl rfl
    | none =>
        exact .inr (MemoryInterface.isReady_of_busy h.memory hl hd' Finset.subset_union_left h.fits)
  unfold SequencerCredit.issue at hs
  rw [if_pos hgranted] at hs
  obtain ⟨memory, hm, rfl⟩ := Option.map_eq_some_iff.mp hs
  refine ⟨(hmem ▸ h.memory).step hm, le_trans (Finset.card_le_card fun a ha => ?_) h.fits,
    hover.trans h.overrun⟩
  rcases mem_lines.mp ha with ha | ⟨d', hd', rfl⟩
  · exact hbusy memory hm ha
  · exact mem_lines.mpr (.inr ⟨d', Multiset.mem_of_le hsub hd', rfl⟩)

theorem Inv.select (h : s.Inv p)
    (hroom : (insert d.line s.lines).card ≤ p.SEQUENCER_OUTSTANDING_REQUESTS)
    (hs : s.select p d = some s') : s'.Inv p := by
  unfold SequencerCredit.select at hs
  split at hs
  · cases hs
  split at hs
  · cases hs
  split at hs
  · cases hs
  obtain rfl := Option.some.inj hs
  refine ⟨h.memory, le_trans (Finset.card_le_card fun a ha => ?_) hroom, h.overrun⟩
  rw [Finset.mem_insert]
  rcases mem_lines.mp ha with ha | ⟨d', hd', rfl⟩
  · exact .inr (mem_lines.mpr (.inl ha))
  · rw [Multiset.cons_add, Multiset.mem_cons] at hd'
    rcases hd' with rfl | hd'
    · exact .inl rfl
    · exact .inr (mem_lines.mpr (.inr ⟨d', hd', rfl⟩))

theorem Inv.execute {cacheAccess hit : Bool} (h : s.Inv p)
    (hs : s.execute p d cacheAccess hit = some s') : s'.Inv p := by
  unfold SequencerCredit.execute at hs
  split at hs
  swap
  · cases hs
  next hd =>
  have herase : s.selected.erase d + s.executed ≤ s.selected + s.executed :=
    Multiset.add_le_add_right (Multiset.erase_le d s.selected)
  have hmem : d ∈ s.selected + s.executed := Multiset.mem_add.mpr (.inl hd)
  dsimp only at hs
  split at hs
  · obtain rfl := Option.some.inj hs
    exact h.of_lines rfl rfl herase
  split at hs
  · refine h.access (t := { s with
      selected := s.selected.erase d, executed := d ::ₘ s.executed }) hmem ?_ rfl rfl hs
    show s.selected.erase d + d ::ₘ s.executed ≤ _
    rw [Multiset.add_cons, ← Multiset.cons_add, Multiset.cons_erase hd]
  · exact h.access (t := { s with selected := s.selected.erase d }) hmem herase rfl rfl hs

theorem Inv.demandStore {hit : Bool} (h : s.Inv p) (hs : s.demandStore p d hit = some s') :
    s'.Inv p := by
  unfold SequencerCredit.demandStore at hs
  split at hs
  swap
  · cases hs
  next hd =>
  exact h.access (t := { s with executed := s.executed.erase d })
    (Multiset.mem_add.mpr (.inr hd))
    (Multiset.add_le_add_left (Multiset.erase_le d s.executed)) rfl rfl hs

theorem Inv.fill {m : L × RequestType} (h : s.Inv p) (hs : s.issue p (.fill m) = some s') :
    s'.Inv p :=
  h.issue (e := .fill m) rfl
    (fun _ hm _ ha => mem_lines.mpr (.inl (MemoryInterface.busy_fill hm ha))) hs

/-- A retry has the room of the request it follows. -/
theorem Inv.wakeNext {hit : Bool} (h : s.Inv p) (hs : s.issue p (.wakeNext hit) = some s') :
    s'.Inv p := by
  refine h.issue (e := .wakeNext hit) ?_ (fun _ hm _ ha =>
    mem_lines.mpr (.inl (MemoryInterface.busy_wakeNext h.memory hm ha))) hs
  simp only [MemoryInterface.asks]
  split
  · next addr' fill addr type req ws rest hd =>
      have hfits := h.memory.draining (addr', ⟨fill, _⟩) (hd ▸ List.mem_cons_self)
      obtain ⟨rfl, -, -⟩ := hfits.retry addr type req List.mem_cons_self
      have hbusy : addr ∈ s.memory.busy :=
        MemoryInterface.mem_busy.mpr (.inr ⟨_, hd ▸ List.mem_cons_self⟩)
      simp only [MemoryInterface.granted, Bool.or_eq_true]
      cases hl : s.memory.requestedLines addr with
      | some line => exact .inl rfl
      | none =>
          exact .inr (MemoryInterface.isReady_of_busy h.memory hl (mem_lines.mpr (.inl hbusy))
            Finset.subset_union_left h.fits)
  · rfl

theorem Inv.squash {r : ρ} (h : s.Inv p) (hs : s.squash p r = some s') : s'.Inv p := by
  have hfilter : s.selected.filter (fun d => d.uop ≠ r) + s.executed.filter (fun d => d.uop ≠ r) ≤
      s.selected + s.executed :=
    le_trans (Multiset.add_le_add_right (Multiset.filter_le _ _))
      (Multiset.add_le_add_left (Multiset.filter_le _ _))
  refine (h.of_lines (t := { s with
    selected := s.selected.filter fun d => d.uop ≠ r
    executed := s.executed.filter fun d => d.uop ≠ r }) rfl rfl hfilter).issue rfl
      (fun memory hm a ha => ?_) hs
  obtain rfl := Option.some.inj hm
  rw [MemoryInterface.busy_squash] at ha
  exact mem_lines.mpr (.inl ha)

theorem Inv.step {e : Event L ρ} (h : s.Inv p) (hroom : Roomy p s e)
    (hs : step p s e = some s') : s'.Inv p := by
  unfold SequencerCredit.step at hs
  split at hs
  · cases hs
  cases e with
  | select d => exact h.select hroom hs
  | selectOther =>
      dsimp only at hs
      split at hs
      · cases hs
      · obtain rfl := Option.some.inj hs
        exact h.of_lines rfl rfl le_rfl
  | cycle =>
      obtain rfl := Option.some.inj hs
      exact h.of_lines rfl rfl le_rfl
  | execute d cacheAccess hit => exact h.execute hs
  | demandStore d hit => exact h.demandStore hs
  | fill m => exact h.fill hs
  | wakeNext hit => exact h.wakeNext hs
  | squash r => exact h.squash hs

theorem Inv.init : ({} : SequencerCredit L ρ).Inv p :=
  ⟨MemoryInterface.Wf.init, Nat.zero_le _, rfl⟩

/-- Every request finds the sequencer ready, in a run whose selections are roomy. -/
theorem never_overrun {es : List (Event L ρ)} (h : EventSystem.Along (step p) (Roomy p) {} es) :
    EventSystem.Throughout (step p) (fun s => s.overrun = false) {} es :=
  EventSystem.Along.throughout (fun _ hs => Inv.overrun hs)
    (fun _ _ _ hs hC he => Inv.step hs hC he) Inv.init h

/-- A load misses, a store prefetches the line it reads, retries and demands it. -/
def collidingStore : List (Event ℕ ℕ) :=
  [.select ⟨0, false, 1⟩, .select ⟨1, true, 1⟩, .cycle, .execute ⟨0, false, 1⟩ true false,
    .execute ⟨1, true, 1⟩ true false, .fill (1, .REQUEST_READ), .wakeNext false, .wakeNext false,
    .demandStore ⟨1, true, 1⟩ false]

theorem never_overrun_collidingStore :
    EventSystem.Throughout (step .dataCollect) (fun s => s.overrun = false) {} collidingStore :=
  never_overrun (by decide +kernel)

/-! Loads that miss -/

/-- Both of the last two loads find room for one. -/
def missingLoads : List (Event ℕ ℕ) :=
  ((List.range 19).flatMap fun i =>
    [.select ⟨i, false, i + 1⟩, .cycle, .execute ⟨i, false, i + 1⟩ true false]) ++
  [.select ⟨19, false, 20⟩, .select ⟨20, false, 21⟩, .cycle, .execute ⟨19, false, 20⟩ true false,
    .execute ⟨20, false, 21⟩ true false]

theorem not_never_overrun :
    ¬ ∀ es : List (Event ℕ ℕ),
      EventSystem.Throughout (step .dataCollect) (fun s => s.overrun = false) {} es := by
  intro h
  have hrun : (EventSystem.run (step .dataCollect) {} missingLoads).map overrun = some true := by
    decide +kernel
  obtain ⟨s, hs, hover⟩ := Option.map_eq_some_iff.mp hrun
  rw [h missingLoads missingLoads List.prefix_rfl s hs] at hover
  cases hover

end SequencerCredit
end FeS2.Pyrite
