import FeS2.Ruby.CoherenceDeliveries

/-!
The directory keeps the invariant: it takes a request when it is at rest, puts off
all requests while it is busy, and is at rest again with the unblock. Its
transitions and assertions never fail.
-/

namespace FeS2.Ruby
open L1Cache
namespace Protocol
variable {ι D : Type} [DecidableEq ι] [Inhabited D] [DecidableEq D] {p : Protocol ι D}
  {t : Txn ι D} {w : ι → Role ι D} {e : Directory.Entry ι D} {i j r : ι} {current : D}
  {m : RequestMsg ι D}

/-! The assertions -/

omit [DecidableEq ι] [Inhabited D] [DecidableEq D] in
theorem Sound.owner_cases (h : Sound e) : e.owner = ∅ ∨ ∃ q, e.owner = {q} ∧ q ∉ e.sharers := by
  rcases e.owner.eq_empty_or_nonempty with hempty | ⟨q, hq⟩
  · exact .inl hempty
  · exact .inr ⟨q, h.one q hq, h.apart q hq⟩

omit [Inhabited D] [DecidableEq D] in
theorem Sound.asserted (h : Sound e) : Directory.Asserted (atRest e) e ∧
    Directory.Asserted (reading e) e ∧ Directory.Asserted (writing e) e := by
  rcases h.owner_cases with howner | ⟨q, howner, hq⟩
  · by_cases hs : e.sharers = ∅
    · simp [atRest, reading, writing, Directory.Asserted, howner, hs]
    · simp [atRest, reading, writing, Directory.Asserted, howner, hs]
  · by_cases hs : e.sharers = ∅
    · simp [atRest, reading, writing, Directory.Asserted, howner, hs]
    · simp [atRest, reading, writing, Directory.Asserted, howner, hs, hq]

omit [DecidableEq ι] [Inhabited D] [DecidableEq D] in
theorem Sound.of_eq {e' : Directory.Entry ι D} (h : Sound e) (howner : e'.owner = e.owner)
    (hsharers : e'.sharers = e.sharers) : Sound e' := by
  refine ⟨fun i hi => ?_, fun i hi => ?_⟩
  · rw [howner] at hi ⊢
    exact h.one i hi
  · rw [hsharers]
    exact h.apart i (howner ▸ hi)

/-! Transitions -/

omit [Inhabited D] [DecidableEq D] in
theorem transition_GETS (e : Directory.Entry ι D) : Directory.transition (atRest e) .GETS =
    some (reading e, [if e.owner = ∅ then .d_sendData else .f_forwardRequest,
      .i_popIncomingRequestQueue]) := by
  unfold atRest reading
  split <;> split <;> rfl

omit [Inhabited D] [DecidableEq D] in
theorem transition_GETX (e : Directory.Entry ι D) : Directory.transition (atRest e) .GETX =
    some (writing e, (if e.owner = ∅ then .d_sendData else .f_forwardRequest) ::
      ((if e.sharers = ∅ then [] else [.g_sendInvalidations]) ++
        [.i_popIncomingRequestQueue])) := by
  unfold atRest writing
  split <;> split <;> rfl

omit [Inhabited D] [DecidableEq D] in
theorem transition_PUT (d : D) (howner : e.owner ≠ ∅) :
    Directory.transition (atRest e) .Dirty_PUT = some (atRest { e with owner := ∅, dataBlk := d },
      [.l_writeDataToMemory, .c_clearOwner, .a_sendWritebackAck, .i_popIncomingRequestQueue]) ∧
    Directory.transition (atRest e) .Clean_PUT = some (atRest { e with owner := ∅, dataBlk := d },
      [.ll_checkDataInMemory, .c_clearOwner, .a_sendWritebackAck, .i_popIncomingRequestQueue]) := by
  simp only [atRest, if_neg howner, if_true]
  split
  · exact ⟨rfl, rfl⟩
  · exact ⟨rfl, rfl⟩

omit [Inhabited D] [DecidableEq D] in
theorem transition_Stale_PUT (e : Directory.Entry ι D) :
    Directory.transition (atRest e) .Stale_PUT =
      some (atRest e, [.a_sendWritebackAck, .i_popIncomingRequestQueue]) := by
  unfold atRest
  split <;> split <;> rfl

omit [Inhabited D] [DecidableEq D] in
theorem transition_Unblock (e : Directory.Entry ι D) (r : ι) :
    Directory.transition (reading e) .Unblock =
      some (atRest { e with sharers := insert r e.sharers },
        [.m_addUnlockerToSharers, .j_popIncomingUnblockQueue]) := by
  simp only [atRest, reading, Finset.insert_ne_empty, if_false]
  split <;> split <;> rfl

omit [Inhabited D] [DecidableEq D] in
theorem transition_Exclusive_Unblock {state : Directory.State} (r : ι)
    (h : state = reading e ∧ e.sharers = ∅ ∨ state = writing e) :
    Directory.transition state .Exclusive_Unblock =
      some (atRest { e with sharers := ∅, owner := {r} },
        [.cc_clearSharers, .e_ownerIsUnblocker, .j_popIncomingUnblockQueue]) := by
  simp only [atRest, Finset.singleton_ne_empty, if_false, if_true]
  rcases h with ⟨rfl, hs⟩ | rfl
  · simp only [reading, hs, if_true]
    split <;> rfl
  · unfold writing
    split <;> split <;> rfl

/-- A busy directory puts every request off. -/
def isBusy (e : Directory.Entry ι D) : Prop :=
  e.directoryState = reading e ∨ e.directoryState = writing e

omit [Inhabited D] [DecidableEq D] in
theorem transition_busy (h : isBusy e) {event : Directory.Event}
    (he : Directory.requestQueue e m = some event) :
    Directory.transition e.directoryState event =
      some (e.directoryState, [.zz_recycleRequest]) := by
  have howner : ∀ {a b : Directory.Event},
      (if m.requestor ∈ e.owner then some a else some b) = some event →
      event = a ∧ e.owner ≠ ∅ ∨ event = b := by
    intro a b h
    split at h
    · rename_i hmem
      exact .inl ⟨(Option.some.inj h).symm, Finset.ne_empty_of_mem hmem⟩
    · exact .inr (Option.some.inj h).symm
  have hevent : event = .GETS ∨ event = .GETX ∨ event = .Stale_PUT ∨
      (event = .Clean_PUT ∨ event = .Dirty_PUT) ∧ e.owner ≠ ∅ := by
    unfold Directory.requestQueue at he
    split at he
    · exact .inl (Option.some.inj he).symm
    · exact .inr (.inl (Option.some.inj he).symm)
    · rcases howner he with ⟨hput, hne⟩ | hstale
      · exact .inr (.inr (.inr ⟨.inl hput, hne⟩))
      · exact .inr (.inr (.inl hstale))
    · rcases howner he with ⟨hput, hne⟩ | hstale
      · exact .inr (.inr (.inr ⟨.inr hput, hne⟩))
      · exact .inr (.inr (.inl hstale))
    · cases he
  rcases h with h | h
  · rw [h]
    unfold reading
    rcases hevent with rfl | rfl | rfl | ⟨rfl | rfl, hne⟩
    · split <;> split <;> rfl
    · split <;> split <;> rfl
    · split <;> split <;> rfl
    · rw [if_neg hne]
      split <;> rfl
    · rw [if_neg hne]
      split <;> rfl
  · rw [h]
    unfold writing
    rcases hevent with rfl | rfl | rfl | ⟨rfl | rfl, hne⟩
    · split <;> split <;> rfl
    · split <;> split <;> rfl
    · split <;> split <;> rfl
    · rw [if_neg hne]
      split <;> rfl
    · rw [if_neg hne]
      split <;> rfl

/-! What the directory sends -/

def invalidations (e : Directory.Entry ι D) (r : ι) : Multiset (ι × RequestMsg ι D) :=
  (e.sharers.erase r).val.map fun j => (j, requestMsg .INV r default)

def memoryData (e : Directory.Entry ι D) (r : ι) : ResponseMsg ι D :=
  { type := if e.sharers.card = 0 then .DATA_EXCLUSIVE_CLEAN else .DATA
    sender := .directory
    dataBlk := e.dataBlk
    acks := Directory.acksFor e r }

/-- The answer to a read or a write: data from memory, or a message to the owner. -/
def answer (m : RequestMsg ι D) (e : Directory.Entry ι D) : Directory.Context ι D :=
  if e.owner = ∅ then
    { inMsg := .request m, entry := e, responses := {(m.requestor, memoryData e m.requestor)} }
  else
    { inMsg := .request m
      entry := e
      forwards := e.owner.val.map fun q => (q, forwardMsg m.type e m.requestor) }

omit [DecidableEq D] in
theorem sendInvalidations_eq (x : Directory.Context ι D) : Directory.sendInvalidations m x =
    { x with forwards := invalidations x.entry m.requestor + x.forwards } := by
  rw [Directory.sendInvalidations]
  split
  · rfl
  · rename_i hno
    obtain ⟨hcard, hmem⟩ := not_or.mp hno
    have hempty : x.entry.sharers.erase m.requestor = ∅ := by
      rw [← Finset.card_eq_zero]
      by_cases hr : m.requestor ∈ x.entry.sharers
      · have := Finset.card_erase_add_one hr
        omega
      · rw [Finset.erase_eq_of_notMem hr]
        have : ¬ 0 < x.entry.sharers.card := fun hpos => hmem ⟨hpos, hr⟩
        omega
    rw [invalidations, hempty]
    simp

/-! What a request and an unblock come to -/

theorem doTransition_eq {event : Directory.Event} {x y : Directory.Context ι D}
    {state state' : Directory.State} {actions : List Directory.Action}
    (hst : x.entry.directoryState = state)
    (ht : Directory.transition state event = some (state', actions))
    (hactions : actions.foldlM Directory.Action.perform x = some y)
    (hassert : Directory.Asserted state' y.entry) :
    Directory.doTransition event x =
      some { y with entry := { y.entry with directoryState := state' } } := by
  rw [Directory.doTransition, hst, ht, Option.bind_some, hactions, Option.bind_some,
    Directory.setState, if_pos hassert, Option.map_some]

theorem recycle {event : Directory.Event} (h : Sound e) (hbusy : isBusy e)
    (he : Directory.requestQueue e m = some event) :
    Directory.doTransition event { inMsg := .request m, entry := e } =
      some { inMsg := .request m, entry := e } := by
  have hassert : Directory.Asserted e.directoryState e := by
    rcases hbusy with hst | hst
    · rw [hst]
      exact h.asserted.2.1
    · rw [hst]
      exact h.asserted.2.2
  exact doTransition_eq (y := { inMsg := .request m, entry := e }) rfl (transition_busy hbusy he)
    rfl hassert

omit [DecidableEq D] in
theorem answer_entry (m : RequestMsg ι D) (e : Directory.Entry ι D) : (answer m e).entry = e := by
  unfold answer
  split <;> rfl

omit [DecidableEq D] in
theorem answer_inMsg (m : RequestMsg ι D) (e : Directory.Entry ι D) :
    (answer m e).inMsg = .request m := by
  unfold answer
  split <;> rfl

theorem perform_answer (m : RequestMsg ι D) (e : Directory.Entry ι D) :
    Directory.Action.perform { inMsg := .request m, entry := e }
      (if e.owner = ∅ then .d_sendData else .f_forwardRequest) = some (answer m e) := by
  unfold answer
  split
  · rfl
  · simp [Directory.Action.perform, Directory.Context.requestMsg, Directory.forwardRequest,
      forwardMsg]

theorem take_GETS (h : Sound e) (hst : e.directoryState = atRest e) :
    Directory.doTransition .GETS { inMsg := .request m, entry := e } = some
      { answer m e with entry := { e with directoryState := reading e }, popped := true } := by
  rw [doTransition_eq (y := { answer m e with popped := true }) hst (transition_GETS e)]
  · rw [answer_entry]
  · rw [List.foldlM_cons, perform_answer, Option.bind_eq_bind, Option.bind_some]
    simp [Directory.Action.perform, Directory.Context.requestMsg, answer_inMsg]
  · rw [answer_entry]
    exact h.asserted.2.1

theorem take_GETX (h : Sound e) (hst : e.directoryState = atRest e) :
    Directory.doTransition .GETX { inMsg := .request m, entry := e } = some
      { answer m e with
        entry := { e with directoryState := writing e }
        popped := true
        forwards := invalidations e m.requestor + (answer m e).forwards } := by
  rw [doTransition_eq (y := { answer m e with
    popped := true, forwards := invalidations e m.requestor + (answer m e).forwards })
    hst (transition_GETX e)]
  · rw [answer_entry]
  · rw [List.foldlM_cons, perform_answer, Option.bind_eq_bind, Option.bind_some]
    by_cases hs : e.sharers = ∅
    · have hnone : invalidations e m.requestor = 0 := by
        rw [invalidations, hs]
        rfl
      simp [Directory.Action.perform, Directory.Context.requestMsg, answer_inMsg, hs, hnone]
    · simp [Directory.Action.perform, Directory.Context.requestMsg, answer_inMsg, hs,
        sendInvalidations_eq, answer_entry]
  · rw [answer_entry]
    exact h.asserted.2.2

/-- A writeback by the owner. -/
theorem take_PUT (hst : e.directoryState = atRest e) (hi : m.requestor ∈ e.owner)
    (hm : m.type = .PUT_CLEAN ∧ e.dataBlk = m.dataBlk ∨ m.type = .PUT_DIRTY) :
    ∃ event, Directory.requestQueue e m = some event ∧
      Directory.doTransition event { inMsg := .request m, entry := e } = some
        { inMsg := .request m
          entry := { e with
            directoryState := atRest { e with owner := ∅ }, dataBlk := m.dataBlk, owner := ∅ }
          popped := true
          responses := {(m.requestor, wbAck m.requestor)} } := by
  obtain ⟨hdirty, hclean⟩ := transition_PUT m.dataBlk (Finset.ne_empty_of_mem hi)
  have hsound : Sound { e with dataBlk := m.dataBlk, owner := ∅ } :=
    ⟨fun i hi => absurd hi (Finset.notMem_empty i), fun i hi => absurd hi (Finset.notMem_empty i)⟩
  obtain ⟨event, actions, he, ht, hactions⟩ : ∃ event actions,
      Directory.requestQueue e m = some event ∧
      Directory.transition (atRest e) event =
        some (atRest { e with owner := ∅, dataBlk := m.dataBlk }, actions) ∧
      actions.foldlM Directory.Action.perform { inMsg := .request m, entry := e } = some
        { inMsg := .request m
          entry := { e with owner := ∅, dataBlk := m.dataBlk }
          popped := true
          responses := {(m.requestor, wbAck m.requestor)} } := by
    rcases hm with ⟨htype, hsame⟩ | htype
    · refine ⟨_, _, ?_, hclean, ?_⟩
      · rw [Directory.requestQueue, htype]
        exact if_pos hi
      · simp [Directory.Action.perform, Directory.Context.requestMsg, Directory.checkDataInMemory,
          Directory.sendWritebackAck, wbAck, htype, hsame]
    · refine ⟨_, _, ?_, hdirty, ?_⟩
      · rw [Directory.requestQueue, htype]
        exact if_pos hi
      · simp [Directory.Action.perform, Directory.Context.requestMsg, Directory.writeDataToMemory,
          Directory.sendWritebackAck, wbAck, htype]
  exact ⟨event, he, doTransition_eq hst ht hactions hsound.asserted.1⟩

/-- A writeback by a cache that is no longer the owner. -/
theorem take_Stale_PUT (h : Sound e) (hst : e.directoryState = atRest e)
    (hi : m.requestor ∉ e.owner) (hm : m.type = .PUT_CLEAN ∨ m.type = .PUT_DIRTY) :
    Directory.requestQueue e m = some .Stale_PUT ∧
      Directory.doTransition .Stale_PUT { inMsg := .request m, entry := e } = some
        { inMsg := .request m
          entry := e
          popped := true
          responses := {(m.requestor, wbAck m.requestor)} } := by
  refine ⟨?_, ?_⟩
  · rcases hm with hm | hm
    · rw [Directory.requestQueue, hm]
      exact if_neg hi
    · rw [Directory.requestQueue, hm]
      exact if_neg hi
  · have hy : [Directory.Action.a_sendWritebackAck, .i_popIncomingRequestQueue].foldlM
        Directory.Action.perform { inMsg := .request m, entry := e } = some
          { inMsg := .request m
            entry := e
            popped := true
            responses := {(m.requestor, wbAck m.requestor)} } := rfl
    rw [doTransition_eq hst (transition_Stale_PUT e) hy h.asserted.1, ← hst]

theorem take_Unblock (h : Sound e) (hst : e.directoryState = reading e) (hr : r ∉ e.owner) :
    Directory.doTransition .Unblock { inMsg := .unblock (unblockMsg .UNBLOCK r), entry := e } = some
      { inMsg := .unblock (unblockMsg .UNBLOCK r)
        entry := { e with
          directoryState := atRest { e with sharers := insert r e.sharers }
          sharers := insert r e.sharers }
        popped := true } := by
  have hsound : Sound { e with sharers := insert r e.sharers } := by
    refine ⟨h.one, fun i hi hshares => ?_⟩
    rcases Finset.mem_insert.mp hshares with rfl | hshares
    · exact hr hi
    · exact h.apart i hi hshares
  exact doTransition_eq
    (y := { inMsg := .unblock (unblockMsg .UNBLOCK r)
            entry := { e with sharers := insert r e.sharers }
            popped := true })
    hst (transition_Unblock e r) rfl hsound.asserted.1

theorem take_Exclusive_Unblock
    (hst : e.directoryState = reading e ∧ e.sharers = ∅ ∨ e.directoryState = writing e) :
    Directory.doTransition .Exclusive_Unblock
        { inMsg := .unblock (unblockMsg .UNBLOCK_EXCLUSIVE r), entry := e } = some
      { inMsg := .unblock (unblockMsg .UNBLOCK_EXCLUSIVE r)
        entry := { e with
          directoryState := atRest { e with sharers := ∅, owner := {r} }
          sharers := ∅
          owner := {r} }
        popped := true } := by
  have hsound : Sound { e with sharers := ∅, owner := {r} } := by
    refine ⟨fun i hi => ?_, fun i _ => Finset.notMem_empty i⟩
    rw [Finset.mem_singleton.mp hi]
  exact doTransition_eq
    (y := { inMsg := .unblock (unblockMsg .UNBLOCK_EXCLUSIVE r)
            entry := { e with sharers := ∅, owner := {r} }
            popped := true })
    rfl (transition_Exclusive_Unblock r hst) rfl hsound.asserted.1

end Protocol
end FeS2.Ruby
