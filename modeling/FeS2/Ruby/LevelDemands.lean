import FeS2.Ruby.LevelTags

/-!
What the controller has of a block, whatever messages come, and how each event of the mandatory
queue is answered: the transition exists, finds the block where it has to, and keeps its data.
-/

namespace FeS2.Ruby
namespace L1Cache
variable {ι D : Type}

/-- A block is nowhere, in one of the three caches, in a first-level cache with a TBE, or in a TBE
alone. -/
inductive Held : L1Cache D → Prop
  | absent (n : Nat) : Held { triggerQueue := n }
  | stable (loc : Location) (permission : AccessPermission) (d : D) {state : State}
      (h : state.isStable) (n : Nat) : Held (entryAt loc ⟨permission, d, state⟩ none n)
  | transient (instr : Bool) (e : Entry D) {state : State} (d : D) (p : Int)
      (h : state.isTransient) (n : Nat) :
      Held (entryAt (firstLevel instr) e (some ⟨state, d, p⟩) n)
  | writeback (d : D) (p : Int) (n : Nat) :
      Held { tbe := some ⟨.II, d, p⟩, triggerQueue := n }

/-- The block is in a TBE and on its way to the directory. -/
structure WrittenBack (e : Entry D) (c : L1Cache D) (sent : List (RequestMsg ι D)) : Prop where
  tbe : ∃ p, c.tbe = some ⟨.II, e.dataBlk, p⟩
  put : ∃ m ∈ sent, (m.type = .PUT_CLEAN ∨ m.type = .PUT_DIRTY) ∧ m.dataBlk = e.dataBlk

/-- A block that moves keeps its state and data, and one that is dropped is clean and shared, or
written back. -/
structure Keeps (c c' : L1Cache D) (sent : List (RequestMsg ι D)) : Prop where
  moved : ∀ l l' e e', c.entry l = some e → c'.entry l' = some e' → l ≠ l' →
    e'.cacheState = e.cacheState ∧ e'.dataBlk = e.dataBlk
  dropped : ∀ l e, c.entry l = some e → (∀ l', c'.entry l' = none) →
    e.cacheState = .I ∨ e.cacheState = .S ∨ WrittenBack e c' sent

theorem entry_entryAt (loc l : Location) (e : Entry D) (tbe : Option (TBE D)) (n : Nat) :
    (entryAt loc e tbe n).entry l = if l = loc then some e else none := by
  cases loc <;> cases l <;> rfl

theorem keeps_moved {sent : List (RequestMsg ι D)} (loc loc' : Location) {e e' : Entry D}
    (tbe tbe' : Option (TBE D)) (n n' : Nat)
    (h : loc = loc' ∨ e'.cacheState = e.cacheState ∧ e'.dataBlk = e.dataBlk) :
    Keeps (entryAt loc e tbe n) (entryAt loc' e' tbe' n') sent := by
  refine ⟨?_, ?_⟩
  · intro l l' f f' hf hf' hne
    rw [entry_entryAt] at hf hf'
    split at hf <;> cases hf
    split at hf' <;> cases hf'
    next hl hl' =>
    cases h with
    | inl heq =>
      rw [hl, hl', heq] at hne
      exact absurd rfl hne
    | inr hsame => exact hsame
  · intro l f _ hnone
    have hin := hnone loc'
    rw [entry_entryAt, if_pos rfl] at hin
    cases hin

theorem keeps_absent {sent : List (RequestMsg ι D)} {c : L1Cache D} (h : ∀ l, c.entry l = none)
    (c' : L1Cache D) : Keeps c c' sent := by
  refine ⟨?_, ?_⟩
  · intro l _ e _ he
    rw [h l] at he
    cases he
  · intro l e he
    rw [h l] at he
    cases he

theorem keeps_dropped {sent : List (RequestMsg ι D)} {c' : L1Cache D} {loc : Location}
    {e : Entry D} {tbe : Option (TBE D)} {n : Nat} (hnone : ∀ l, c'.entry l = none)
    (h : e.cacheState = .I ∨ e.cacheState = .S ∨ WrittenBack e c' sent) :
    Keeps (entryAt loc e tbe n) c' sent := by
  refine ⟨?_, ?_⟩
  · intro _ l' _ e' _ he'
    rw [hnone l'] at he'
    cases he'
  · intro l f hf _
    rw [entry_entryAt] at hf
    split at hf <;> cases hf
    exact h

theorem Held.one {c : L1Cache D} (h : Held c) {l k : Location} (hl : c.heldBy l = true)
    (hk : c.heldBy k = true) : l = k := by
  have hentry : ∀ (loc : Location) (e : Entry D) tbe n (j : Location),
      (entryAt loc e tbe n).heldBy j = true → j = loc := by
    intro loc e tbe n j hj
    by_contra hne
    rw [heldBy, entry_entryAt, if_neg hne] at hj
    cases hj
  cases h with
  | absent n => cases l <;> cases hl
  | stable loc permission d h n => exact (hentry _ _ _ _ l hl).trans (hentry _ _ _ _ k hk).symm
  | transient instr e d p h n => exact (hentry _ _ _ _ l hl).trans (hentry _ _ _ _ k hk).symm
  | writeback d p n => cases l <;> cases hl

theorem keeps_inPlace {c c' : L1Cache D} (h : Held c) (hheld : c'.heldBy = c.heldBy)
    (sent : List (RequestMsg ι D)) : Keeps c c' sent := by
  refine ⟨?_, ?_⟩
  · intro l l' e e' he he' hne
    have hl' : c.heldBy l' = true := (congrFun hheld l').symm.trans (congrArg Option.isSome he')
    exact absurd (h.one (congrArg Option.isSome he) hl') hne
  · intro l e he hnone
    have hl : c'.heldBy l = true := (congrFun hheld l).trans (congrArg Option.isSome he)
    rw [heldBy, hnone l] at hl
    cases hl

section
variable [DecidableEq D] [Inhabited D]

/-- The event has a transition in the state of the block, and that transition succeeds. -/
def Serves (i : ι) (driver : D → D) (inMsg : InMsg ι D) (c : L1Cache D) (event : Event)
    (room : Location → Bool) : Prop :=
  ∃ state next q x, c.getState = some state ∧ transition state event = some next ∧
    placeAll room next.2 c.heldBy = some q ∧
    doTransition event { id := i, driver := driver, inMsg := inMsg, cache := c } = some x ∧
    Held x.cache ∧ Keeps c x.cache x.requests

variable {i : ι} {driver : D → D} {c : L1Cache D} {room : Location → Bool}

theorem placeAll_vv (hr : room .l2 = true) {actions : List Action} {q q' : Location → Bool}
    (h : placeAll (fun _ => true) (.vv_allocateL2CacheBlock :: actions) q = some q') :
    placeAll room (.vv_allocateL2CacheBlock :: actions) q = some q' := by
  unfold placeAll Action.place at h ⊢
  rwa [hr]

theorem placeAll_ii (hr : room .l1D = true) {actions : List Action} {q q' : Location → Bool}
    (h : placeAll (fun _ => true) (.ii_allocateL1DCacheBlock :: actions) q = some q') :
    placeAll room (.ii_allocateL1DCacheBlock :: actions) q = some q' := by
  unfold placeAll Action.place at h ⊢
  rwa [hr]

theorem placeAll_jj (hr : room .l1I = true) {actions : List Action} {q q' : Location → Bool}
    (h : placeAll (fun _ => true) (.jj_allocateL1ICacheBlock :: actions) q = some q') :
    placeAll room (.jj_allocateL1ICacheBlock :: actions) q = some q' := by
  unfold placeAll Action.place at h ⊢
  rwa [hr]

theorem Held.l1_to_L2 (h : Held c) (hc : c.heldBy .l1D = true ∨ c.heldBy .l1I = true)
    (hr : room .l2 = true) : Serves i driver .mandatory c .L1_to_L2 room := by
  cases h with
  | absent n => cases hc <;> next hc => cases hc
  | @stable loc permission d state h n =>
    cases loc with
    | l2 => cases hc <;> next hc => cases hc
    | l1I =>
      cases state with
      | I | S | O_C | O_D | E | M | MM =>
        exact ⟨_, _, _, _, rfl, rfl, placeAll_vv hr rfl, rfl, .stable .l2 _ d h n,
          keeps_moved .l1I .l2 none none n n (.inr ⟨rfl, rfl⟩)⟩
      | _ => cases h
    | l1D =>
      cases state with
      | I | S | O_C | O_D | E | M | MM =>
        exact ⟨_, _, _, _, rfl, rfl, placeAll_vv hr rfl, rfl, .stable .l2 _ d h n,
          keeps_moved .l1D .l2 none none n n (.inr ⟨rfl, rfl⟩)⟩
      | _ => cases h
  | @transient instr e state d p h n =>
    cases instr with
    | true =>
      cases state with
      | IM | SM | OM | IS =>
        exact ⟨_, _, _, _, rfl, rfl, rfl, rfl, .transient true _ d p h n,
          keeps_moved .l1I .l1I _ _ n n (.inl rfl)⟩
      | _ => cases h
    | false =>
      cases state with
      | IM | SM | OM | IS =>
        exact ⟨_, _, _, _, rfl, rfl, rfl, rfl, .transient false _ d p h n,
          keeps_moved .l1D .l1D _ _ n n (.inl rfl)⟩
      | _ => cases h
  | writeback d p n => cases hc <;> next hc => cases hc

theorem Held.l2_to_L1D (h : Held c) (hc : c.heldBy .l2 = true) (hr : room .l1D = true) :
    Serves i driver .mandatory c .L2_to_L1D room := by
  cases h with
  | absent n => cases hc
  | @stable loc permission d state h n =>
    cases loc with
    | l2 =>
      cases state with
      | I | S | O_C | O_D | E | M | MM =>
        exact ⟨_, _, _, _, rfl, rfl, placeAll_ii hr rfl, rfl, .stable .l1D _ d h n,
          keeps_moved .l2 .l1D none none n n (.inr ⟨rfl, rfl⟩)⟩
      | _ => cases h
    | _ => cases hc
  | transient instr e d p h n => cases instr <;> cases hc
  | writeback d p n => cases hc

theorem Held.l2_to_L1I (h : Held c) (hc : c.heldBy .l2 = true) (hr : room .l1I = true) :
    Serves i driver .mandatory c .L2_to_L1I room := by
  cases h with
  | absent n => cases hc
  | @stable loc permission d state h n =>
    cases loc with
    | l2 =>
      cases state with
      | I | S | O_C | O_D | E | M | MM =>
        exact ⟨_, _, _, _, rfl, rfl, placeAll_jj hr rfl, rfl, .stable .l1I _ d h n,
          keeps_moved .l2 .l1I none none n n (.inr ⟨rfl, rfl⟩)⟩
      | _ => cases h
    | _ => cases hc
  | transient instr e d p h n => cases instr <;> cases hc
  | writeback d p n => cases hc

theorem Held.l2_Replacement (h : Held c) (hc : c.heldBy .l2 = true) :
    Serves i driver .mandatory c .L2_Replacement room := by
  have hnone : ∀ (tbe : Option (TBE D)) n l,
      ({ tbe := tbe, triggerQueue := n } : L1Cache D).entry l = none := by
    intro tbe n l
    cases l <;> rfl
  cases h with
  | absent n => cases hc
  | @stable loc permission d state h n =>
    cases loc with
    | l2 =>
      cases state with
      | I =>
        exact ⟨_, _, _, _, rfl, rfl, rfl, rfl, .absent n,
          keeps_dropped (hnone none n) (.inl rfl)⟩
      | S =>
        exact ⟨_, _, _, _, rfl, rfl, rfl, rfl, .absent n,
          keeps_dropped (hnone none n) (.inr (.inl rfl))⟩
      | O_C | E =>
        exact ⟨_, _, _, _, rfl, rfl, rfl, rfl, .writeback d 0 n,
          keeps_dropped (hnone _ n) (.inr (.inr ⟨⟨0, rfl⟩, _, List.mem_singleton_self _,
            .inl rfl, rfl⟩))⟩
      | O_D | M | MM =>
        exact ⟨_, _, _, _, rfl, rfl, rfl, rfl, .writeback d 0 n,
          keeps_dropped (hnone _ n) (.inr (.inr ⟨⟨0, rfl⟩, _, List.mem_singleton_self _,
            .inr rfl, rfl⟩))⟩
      | _ => cases h
    | _ => cases hc
  | transient instr e d p h n => cases instr <;> cases hc
  | writeback d p n => cases hc

/-- A load finds the block in the right cache of the first level, or nowhere, or needs nothing. -/
theorem Held.load (ifetch : Bool) (h : Held c) (h2 : c.heldBy .l2 = false)
    (hr : c.heldBy (firstLevel ifetch) = true ∨ room (firstLevel ifetch) = true)
    (hw : c.heldBy (firstLevel !ifetch) = false ∨
      ∀ state, c.getState = some state → needsResources state (loadEvent ifetch) = false) :
    Serves i driver .mandatory c (loadEvent ifetch) room := by
  cases h with
  | absent n =>
    have hr : room (firstLevel ifetch) = true := by
      cases hr with
      | inl hin => cases ifetch <;> cases hin
      | inr hr => exact hr
    have hkeeps : ∀ c', Keeps ({ triggerQueue := n } : L1Cache D) c'
        [requestMsg .GETS i default] := keeps_absent fun l => by cases l <;> rfl
    cases ifetch with
    | true =>
      exact ⟨_, _, _, _, rfl, rfl, placeAll_jj hr rfl, rfl, .transient true _ default 0 rfl n,
        hkeeps _⟩
    | false =>
      exact ⟨_, _, _, _, rfl, rfl, placeAll_ii hr rfl, rfl, .transient false _ default 0 rfl n,
        hkeeps _⟩
  | @stable loc permission d state h n =>
    cases state with
    | I =>
      cases loc with
      | l2 => cases h2
      | l1I =>
        cases ifetch with
        | true =>
          exact ⟨_, _, _, _, rfl, rfl, rfl, rfl, .transient true _ d 0 rfl n,
            keeps_moved .l1I .l1I _ _ n n (.inl rfl)⟩
        | false => cases hw with
          | inl hw => cases hw
          | inr hw => cases hw _ rfl
      | l1D =>
        cases ifetch with
        | false =>
          exact ⟨_, _, _, _, rfl, rfl, rfl, rfl, .transient false _ d 0 rfl n,
            keeps_moved .l1D .l1D _ _ n n (.inl rfl)⟩
        | true => cases hw with
          | inl hw => cases hw
          | inr hw => cases hw _ rfl
    | S | O_C | O_D | E | M | MM =>
      cases loc with
      | l2 => cases h2
      | l1I =>
        cases ifetch <;> exact ⟨_, _, _, _, rfl, rfl, rfl, rfl, .stable .l1I _ d h n,
          keeps_moved .l1I .l1I _ _ n n (.inl rfl)⟩
      | l1D =>
        cases ifetch <;> exact ⟨_, _, _, _, rfl, rfl, rfl, rfl, .stable .l1D _ d h n,
          keeps_moved .l1D .l1D _ _ n n (.inl rfl)⟩
    | _ => cases h
  | @transient instr e state d p h n =>
    cases state with
    | IM | SM | OM | IS =>
      cases instr with
      | true =>
        cases ifetch <;> exact ⟨_, _, _, _, rfl, rfl, rfl, rfl, .transient true _ d p h n,
          keeps_moved .l1I .l1I _ _ n n (.inl rfl)⟩
      | false =>
        cases ifetch <;> exact ⟨_, _, _, _, rfl, rfl, rfl, rfl, .transient false _ d p h n,
          keeps_moved .l1D .l1D _ _ n n (.inl rfl)⟩
    | _ => cases h
  | writeback d p n =>
    have hkeeps : ∀ c', Keeps ({ tbe := some ⟨.II, d, p⟩, triggerQueue := n } : L1Cache D) c'
        ([] : List (RequestMsg ι D)) := keeps_absent fun l => by cases l <;> rfl
    cases ifetch <;> exact ⟨_, _, _, _, rfl, rfl, rfl, rfl, .writeback d p n, hkeeps _⟩

theorem Held.store (h : Held c) (h2 : c.heldBy .l2 = false)
    (hr : c.heldBy .l1D = true ∨ room .l1D = true)
    (hw : c.heldBy .l1I = false ∨
      ∀ state, c.getState = some state → needsResources state .Store = false) :
    Serves i driver .mandatory c .Store room := by
  cases h with
  | absent n =>
    have hr : room .l1D = true := by
      cases hr with
      | inl hin => cases hin
      | inr hr => exact hr
    exact ⟨_, _, _, _, rfl, rfl, placeAll_ii hr rfl, rfl, .transient false _ default 0 rfl n,
      keeps_absent (fun l => by cases l <;> rfl) _⟩
  | @stable loc permission d state h n =>
    cases loc with
    | l2 => cases h2
    | l1D =>
      cases state with
      | I | S | O_C | O_D =>
        exact ⟨_, _, _, _, rfl, rfl, rfl, rfl, .transient false _ d 0 rfl n,
          keeps_moved .l1D .l1D _ _ n n (.inl rfl)⟩
      | E | M | MM =>
        exact ⟨_, _, _, _, rfl, rfl, rfl, rfl, .stable .l1D _ (driver d) rfl n,
          keeps_moved .l1D .l1D _ _ n n (.inl rfl)⟩
      | _ => cases h
    | l1I =>
      cases state with
      | I | S | O_C | O_D => cases hw with
        | inl hw => cases hw
        | inr hw => cases hw _ rfl
      | E | M | MM =>
        exact ⟨_, _, _, _, rfl, rfl, rfl, rfl, .stable .l1I _ (driver d) rfl n,
          keeps_moved .l1I .l1I _ _ n n (.inl rfl)⟩
      | _ => cases h
  | @transient instr e state d p h n =>
    cases state with
    | IM | SM | OM | IS =>
      cases instr with
      | true =>
        exact ⟨_, _, _, _, rfl, rfl, rfl, rfl, .transient true _ d p h n,
          keeps_moved .l1I .l1I _ _ n n (.inl rfl)⟩
      | false =>
        exact ⟨_, _, _, _, rfl, rfl, rfl, rfl, .transient false _ d p h n,
          keeps_moved .l1D .l1D _ _ n n (.inl rfl)⟩
    | _ => cases h
  | writeback d p n =>
    exact ⟨_, _, _, _, rfl, rfl, rfl, rfl, .writeback d p n,
      keeps_absent (fun l => by cases l <;> rfl) _⟩

end

/-! Messages and triggers -/

/-- The events of the other in-ports. -/
def Event.isRemote : Event → Bool
  | .Load | .Ifetch | .Store | .L2_Replacement | .L1_to_L2 | .L2_to_L1D | .L2_to_L1I => false
  | _ => true

theorem forwardToCache_isRemote [DecidableEq ι] {id : ι} {m : RequestMsg ι D} {event : Event}
    (h : forwardToCache id m = some event) : event.isRemote = true := by
  unfold forwardToCache at h
  split at h
  · split at h <;> cases h <;> rfl
  · cases h
    rfl
  · cases h
    rfl
  · cases h

theorem responseToCache_isRemote {m : ResponseMsg ι D} {event : Event}
    (h : responseToCache m = some event) : event.isRemote = true := by
  unfold responseToCache at h
  split at h <;> cases h <;> rfl

/-- They leave the block where it is, and its TBE as long as its state needs one. -/
theorem transition_remote {state : State} {event : Event} {next : State × List Action}
    (he : event.isRemote = true) (h : transition state event = some next) :
    (∀ action ∈ next.2, action.stays = true) ∧
      (leavesTBE next.2 false = false ∧ (state.isStable = true → next.1.isStable = true)) ∧
      (if leavesTBE next.2 true then
        (state.isTransient = true → next.1.isTransient = true) ∧ (state = .II → next.1 = .II)
      else state.isTransient = true → next.1.isStable = true) := by
  cases event with
  | Load | Ifetch | Store | L2_Replacement | L1_to_L2 | L2_to_L1D | L2_to_L1I => cases he
  | _ => cases state <;> cases h <;> decide

theorem Held.of_setState {c c' : L1Cache D} {state : State} (h : c.setState state = some c')
    (hfree : c.tbe.isSome = false → state.isStable = true ∨ ∀ l, c.heldBy l = false)
    (htbe : c.tbe.isSome = true → c.heldBy .l2 = false ∧
      if c.heldBy .l1D || c.heldBy .l1I then state.isTransient = true else state = .II) :
    Held c' := by
  obtain ⟨l1I, l1D, l2, tbe, n⟩ := c
  cases tbe with
  | none =>
    have hstable : ∀ l, L1Cache.heldBy ⟨l1I, l1D, l2, none, n⟩ l = true →
        state.isStable = true := by
      intro l hl
      cases hfree rfl with
      | inl hs => exact hs
      | inr hnone =>
        rw [hnone l] at hl
        cases hl
    cases l2 with
    | some e =>
      have hs := hstable .l2 rfl
      cases l1D <;> cases l1I <;> cases h
      exact .stable .l2 _ e.dataBlk hs n
    | none =>
      cases l1D with
      | some e =>
        have hs := hstable .l1D rfl
        cases l1I <;> cases h
        exact .stable .l1D _ e.dataBlk hs n
      | none =>
        cases l1I with
        | some e =>
          have hs := hstable .l1I rfl
          cases h
          exact .stable .l1I _ e.dataBlk hs n
        | none =>
          cases h
          exact .absent n
  | some tbe =>
    have ⟨h2, hstate⟩ := htbe rfl
    cases l2 with
    | some e => cases h2
    | none =>
      cases l1D with
      | some e =>
        cases l1I <;> cases h
        exact .transient false _ tbe.dataBlk tbe.numPendingMsgs hstate n
      | none =>
        cases l1I with
        | some e =>
          cases h
          exact .transient true _ tbe.dataBlk tbe.numPendingMsgs hstate n
        | none =>
          have hstate : state = .II := hstate
          cases h
          rw [hstate]
          exact .writeback tbe.dataBlk tbe.numPendingMsgs n

/-- A store that the sequencer does itself. -/
theorem Held.write {c : L1Cache D} (h : Held c) (driver : D → D) :
    Held { c with l1D := c.l1D.map fun e => { e with dataBlk := driver e.dataBlk } } := by
  cases h with
  | absent n => exact .absent n
  | stable loc permission d h n =>
    cases loc with
    | l1I => exact .stable .l1I permission d h n
    | l1D => exact .stable .l1D permission (driver d) h n
    | l2 => exact .stable .l2 permission d h n
  | transient instr e d p h n =>
    cases instr with
    | true => exact .transient true e d p h n
    | false => exact .transient false { e with dataBlk := driver e.dataBlk } d p h n
  | writeback d p n => exact .writeback d p n

theorem heldBy_write (c : L1Cache D) (driver : D → D) :
    L1Cache.heldBy { c with l1D := c.l1D.map fun e => { e with dataBlk := driver e.dataBlk } } =
      c.heldBy := by
  funext l
  cases l with
  | l1D => exact Option.isSome_map
  | _ => rfl

theorem Held.getState {c : L1Cache D} (h : Held c) : ∃ state, c.getState = some state := by
  cases h with
  | absent n => exact ⟨_, rfl⟩
  | stable loc permission d h n => cases loc <;> exact ⟨_, rfl⟩
  | transient instr e d p h n => cases instr <;> exact ⟨_, rfl⟩
  | writeback d p n => exact ⟨_, rfl⟩

/-- The state of a block tells whether it has a TBE, and where it is. -/
theorem Held.state {c : L1Cache D} (h : Held c) {state : State} (hstate : c.getState = some state) :
    (c.tbe.isSome = false ∧ (state.isStable = true ∨ ∀ l, c.heldBy l = false)) ∨
      (c.tbe.isSome = true ∧ c.heldBy .l2 = false ∧
        if c.heldBy .l1D || c.heldBy .l1I then state.isTransient = true else state = .II) := by
  cases h with
  | absent n => exact .inl ⟨rfl, .inr fun l => by cases l <;> rfl⟩
  | stable loc permission d h n => cases loc <;> cases hstate <;> exact .inl ⟨rfl, .inl h⟩
  | transient instr e d p h n =>
    cases instr <;> cases hstate <;> exact .inr ⟨rfl, rfl, h⟩
  | writeback d p n =>
    cases hstate
    exact .inr ⟨rfl, rfl, rfl⟩

theorem Held.remote [DecidableEq D] [Inhabited D] {c : L1Cache D} (h : Held c) {event : Event}
    (he : event.isRemote = true)
    {i : ι} {driver : D → D} {inMsg : InMsg ι D} {x : Context ι D}
    (hx : doTransition event { id := i, driver := driver, inMsg := inMsg, cache := c } = some x)
    (room : Location → Bool) : Serves i driver inMsg c event room := by
  have hx' := hx
  unfold doTransition at hx'
  have ⟨state, hstate, hx'⟩ := Option.bind_eq_some_iff.mp hx'
  have ⟨next, hnext, hx'⟩ := Option.bind_eq_some_iff.mp hx'
  have ⟨y, hy, hx'⟩ := Option.bind_eq_some_iff.mp hx'
  have ⟨c', hc', hx'⟩ := Option.map_eq_some_iff.mp hx'
  have ⟨hstays, ⟨hnoTBE, hstable⟩, hTBE⟩ := transition_remote he hnext
  have ⟨hheld, htbe⟩ := foldlM_stays hstays hy
  have hkept : Held c' := by
    cases h.state hstate with
    | inl hfree =>
      have ⟨hnone, hplace⟩ := hfree
      have hnone' : y.cache.tbe.isSome = false := by
        rw [htbe, hnone]
        exact hnoTBE
      refine .of_setState hc' (fun _ => ?_) fun htbe' => ?_
      · cases hplace with
        | inl hs => exact .inl (hstable hs)
        | inr hnowhere => exact .inr fun l => (congrFun hheld l).trans (hnowhere l)
      · rw [hnone'] at htbe'
        cases htbe'
    | inr hbusy =>
      have ⟨hsome, h2, hplace⟩ := hbusy
      have hsome' : y.cache.tbe.isSome = leavesTBE next.2 true := by rw [htbe, hsome]
      rw [← hsome'] at hTBE
      refine .of_setState hc' (fun hnone => ?_) fun htbe' => ?_
      · rw [hnone] at hTBE
        split at hplace
        · next hin => exact .inl (hTBE hplace)
        · next hout =>
          have ⟨hD, hI⟩ := Bool.or_eq_false_iff.mp (eq_false_of_ne_true hout)
          refine .inr fun l => (congrFun hheld l).trans ?_
          cases l with
          | l1I => exact hI
          | l1D => exact hD
          | l2 => exact h2
      · rw [htbe', if_pos rfl] at hTBE
        rw [hheld]
        refine ⟨h2, ?_⟩
        split at hplace
        · next hin =>
          rw [if_pos hin]
          exact hTBE.1 hplace
        · next hout =>
          rw [if_neg hout]
          exact hTBE.2 hplace
  have hcache : x.cache = c' := by rw [← hx']
  refine ⟨state, next, _, x, hstate, hnext, placeAll_stays hstays _ _, hx, hcache ▸ hkept, ?_⟩
  rw [hcache]
  exact keeps_inPlace h ((heldBy_setState hc').trans hheld) _

end L1Cache
end FeS2.Ruby
