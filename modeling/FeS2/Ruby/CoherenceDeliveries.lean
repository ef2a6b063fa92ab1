import FeS2.Ruby.CoherenceCaches

/-!
Every message that comes to a cache finds it in a state that can take it, and the
invariant is kept.
-/

namespace FeS2.Ruby
open L1Cache
namespace Protocol
variable {ι D : Type} [DecidableEq ι] [Inhabited D] {p : Protocol ι D}
  {t : Txn ι D} {w : ι → Role ι D} {e : Directory.Entry ι D} {i j : ι} {driver : D → D}
  {v v' : View D} {role : Role ι D} {current : D}

/-! Forwarded requests -/

theorem forwards_GETS {m : RequestMsg ι D} (h : t.forwards e (i, m)) (hm : m.type = .GETS) :
    ∃ r, t = .read r .forwarded ∧ i ∈ e.owner ∧ m = forwardMsg .GETS e r := by
  cases t with
  | idle => exact h.elim
  | read r stage =>
      cases stage with
      | forwarded =>
          obtain ⟨q, hq, heq⟩ := h
          cases heq
          exact ⟨r, rfl, hq, rfl⟩
      | data m => exact h.elim
      | done exclusive => exact h.elim
  | write r V A stage =>
      have hinv : ¬ ∃ j ∈ V, (i, m) = (j, requestMsg .INV r default) := by
        rintro ⟨j, -, heq⟩
        cases heq
        cases hm
      cases stage with
      | forwarded =>
          rcases h with ⟨q, -, heq⟩ | h
          · cases heq
            cases hm
          · exact (hinv h).elim
      | _ => exact (hinv h).elim

theorem forwards_GETX {m : RequestMsg ι D} (h : t.forwards e (i, m)) (hm : m.type = .GETX) :
    ∃ r V A, t = .write r V A .forwarded ∧ i ∈ e.owner ∧ m = forwardMsg .GETX e r := by
  cases t with
  | idle => exact h.elim
  | read r stage =>
      cases stage with
      | forwarded =>
          obtain ⟨q, -, heq⟩ := h
          cases heq
          cases hm
      | data m => exact h.elim
      | done exclusive => exact h.elim
  | write r V A stage =>
      have hinv : ¬ ∃ j ∈ V, (i, m) = (j, requestMsg .INV r default) := by
        rintro ⟨j, -, heq⟩
        cases heq
        cases hm
      cases stage with
      | forwarded =>
          rcases h with ⟨q, hq, heq⟩ | h
          · cases heq
            exact ⟨r, V, A, rfl, hq, rfl⟩
          · exact (hinv h).elim
      | _ => exact (hinv h).elim

theorem forwards_INV {m : RequestMsg ι D} (h : t.forwards e (i, m)) (hm : m.type = .INV) :
    ∃ r V A stage, t = .write r V A stage ∧ i ∈ V ∧ m = requestMsg .INV r default := by
  cases t with
  | idle => exact h.elim
  | read r stage =>
      cases stage with
      | forwarded =>
          obtain ⟨q, -, heq⟩ := h
          cases heq
          cases hm
      | data m => exact h.elim
      | done exclusive => exact h.elim
  | write r V A stage =>
      have hinv : (∃ j ∈ V, (i, m) = (j, requestMsg .INV r default)) →
          ∃ r' V' A' stage', Txn.write r V A stage = .write r' V' A' stage' ∧ i ∈ V' ∧
            m = requestMsg .INV r' default := by
        rintro ⟨j, hj, heq⟩
        cases heq
        exact ⟨r, V, A, stage, rfl, hj, rfl⟩
      cases stage with
      | forwarded =>
          rcases h with ⟨q, hq, heq⟩ | h
          · cases heq
            cases hm
          · exact hinv h
      | _ => exact hinv h

theorem forwards_type {x : ι × RequestMsg ι D} (h : t.forwards e x) :
    x.2.type = .GETS ∨ x.2.type = .GETX ∨ x.2.type = .INV := by
  have hinv : ∀ {r : ι} {V : Finset ι}, (∃ j ∈ V, x = (j, requestMsg .INV r default)) →
      x.2.type = .INV := by
    rintro r V ⟨j, -, rfl⟩
    rfl
  cases t with
  | idle => exact h.elim
  | read r stage =>
      cases stage with
      | forwarded =>
          obtain ⟨q, -, rfl⟩ := h
          exact .inl rfl
      | data m => exact h.elim
      | done exclusive => exact h.elim
  | write r V A stage =>
      cases stage with
      | forwarded =>
          rcases h with ⟨q, -, rfl⟩ | h
          · exact .inr (.inl rfl)
          · exact .inr (.inr (hinv h))
      | _ => exact .inr (.inr (hinv h))

theorem afterFwdGETS_spec {state : State} : state.isOwner →
    (state.isStable → (afterFwdGETS state).isStable) ∧
    (state = .MM ∧ afterFwdGETS state = .I ∧ fwdGETSType state = .DATA_EXCLUSIVE_DIRTY ∨
      fwdGETSType state = .DATA ∧ (afterFwdGETS state).isOwner ∧
        ¬ (afterFwdGETS state).isExclusive ∧ afterFwdGETS state ≠ .E ∧
        (afterFwdGETS state = .O_C → state = .E ∨ state = .O_C) ∧
        (state.isStable = false → afterFwdGETS state = state)) := by
  cases state <;> decide

theorem Node.eq_of_stable {state : State} (h : Node t e i role v)
    (hstate : v.state.isStable → state.isStable)
    (hsame : v.state.isStable = false → state = v.state) :
    Node t e i role { v with state := state } := by
  by_cases hstable : v.state.isStable
  · obtain rfl := h.role_none (.inr hstable)
    exact .inr (hstate hstable)
  · obtain rfl := hsame (Bool.eq_false_of_not_eq_true hstable)
    exact h

theorem afterFwdGETX_spec {state : State} : state.isOwner → isBlind (afterFwdGETX state) ∧
    (state = .OM ∧ afterFwdGETX state = .IM ∨ afterFwdGETX state = state ∨
      state.isStable ∧ afterFwdGETX state = .I) := by
  cases state <;> decide

theorem Node.afterFwdGETX (h : Node t e i role v) (howner : v.state.isOwner) (hi : ¬ t.writes i) :
    Node t e i role { v with state := L1Cache.afterFwdGETX v.state } := by
  rcases (afterFwdGETX_spec howner).2 with ⟨hOM, hIM⟩ | hsame | ⟨hstable, hI⟩
  · rw [hIM]
    cases role with
    | none => rcases h with hst | hst <;> rw [hOM] at hst <;> cases hst
    | request m =>
        obtain ⟨htrigger, hcases⟩ := h
        rw [hOM] at hcases
        rcases hcases with ⟨hst, -⟩ | ⟨-, hm⟩ | ⟨hst, -⟩
        · cases hst
        · exact ⟨htrigger, .inr (.inl ⟨rfl, hm⟩)⟩
        · cases hst
    | reader => cases hOM.symm.trans h.1
    | writer => exact absurd h.2.2.2 hi
    | released => cases hOM.symm.trans h
  · rw [hsame]
    exact h
  · obtain rfl := h.role_none (.inr hstable)
    rw [hI]
    exact .inr rfl

omit [Inhabited D] in
theorem after_taken (i : ι) (v : View D) (p : Protocol ι D) :
    p.after i v driver { popped := true } = { p with view := Function.update p.view i v } := by
  simp [after]

theorem afterInv_spec {state : State} : isBlind state ∨ isShared state →
    state.takesInv ∧ isBlind (afterInv state) := by
  cases state <;> decide

/-! The sets of a write -/

section
variable {r : ι} {V A V' A' : Finset ι} {stage : WriteStage ι D}

omit [DecidableEq ι] [Inhabited D] in
theorem writes_sets : (Txn.write r V' A' stage).writes j ↔ (Txn.write r V A stage).writes j := by
  cases stage <;> exact Iff.rfl

omit [DecidableEq ι] [Inhabited D] in
theorem holds_sets : (Txn.write r V' A' stage).holds e j ↔ (Txn.write r V A stage).holds e j := by
  cases stage <;> exact Iff.rfl

omit [DecidableEq ι] [Inhabited D] in
theorem shares_sets (hV : j ∈ V → j ∈ V') :
    (Txn.write r V A stage).shares e j → (Txn.write r V' A' stage).shares e j := by
  cases stage with
  | forwarded | data m => exact Or.imp hV id
  | acks => exact hV
  | done => exact id

omit [Inhabited D] in
theorem pending_sets (hcard : V'.card + A'.card = V.card + A.card) :
    (Txn.write r V' A' stage).pending e = (Txn.write r V A stage).pending e := by
  cases stage with
  | forwarded | data m =>
      rw [Txn.pending, Txn.pending]
      omega
  | acks =>
      rw [Txn.pending, Txn.pending]
      omega
  | done => rfl

omit [DecidableEq ι] in
theorem unblocks_sets {m : ResponseMsg ι D} :
    (Txn.write r V A stage).unblocks m ↔ (Txn.write r V' A' stage).unblocks m := by
  cases stage <;> exact Iff.rfl

/-- Who an invalidation is for. -/
theorem forwards_erase {x : ι × RequestMsg ι D} (hi : i ∈ V) :
    (Txn.write r V A stage).forwards e x ∧ x ≠ (i, requestMsg .INV r default) ↔
      (Txn.write r (V.erase i) A' stage).forwards e x := by
  have hinv : (∃ j ∈ V, x = (j, requestMsg .INV r default)) ∧ x ≠ (i, requestMsg .INV r default) ↔
      ∃ j ∈ V.erase i, x = (j, requestMsg .INV r default) := by
    constructor
    · rintro ⟨⟨j, hj, rfl⟩, hne⟩
      refine ⟨j, Finset.mem_erase.mpr ⟨?_, hj⟩, rfl⟩
      rintro rfl
      exact hne rfl
    · rintro ⟨j, hj, rfl⟩
      obtain ⟨hne, hj⟩ := Finset.mem_erase.mp hj
      exact ⟨⟨j, hj, rfl⟩, fun heq => hne (congrArg Prod.fst heq)⟩
  cases stage with
  | forwarded =>
      have hne : (∃ q ∈ e.owner, x = (q, forwardMsg .GETX e r)) →
          x ≠ (i, requestMsg .INV r default) := by
        rintro ⟨q, -, rfl⟩ heq
        cases congrArg (fun x => x.2.type) heq
      constructor
      · rintro ⟨hq | hx, hxi⟩
        · exact .inl hq
        · exact .inr (hinv.mp ⟨hx, hxi⟩)
      · rintro (hq | hx)
        · exact ⟨.inl hq, hne hq⟩
        · exact ⟨.inr (hinv.mpr hx).1, (hinv.mpr hx).2⟩
  | _ => exact hinv

/-- Who an ack is from. -/
theorem responses_insert {x : ι × ResponseMsg ι D} :
    (Txn.write r V' (insert i A) stage).responses x ↔
      x = (r, ack i) ∨ (Txn.write r V A stage).responses x := by
  have hack : (∃ j ∈ insert i A, x = (r, ack j)) ↔ x = (r, ack i) ∨ ∃ j ∈ A, x = (r, ack j) := by
    simp only [Finset.mem_insert, or_and_right, exists_or, exists_eq_left]
  cases stage with
  | data m => exact (or_congr_right hack).trans or_left_comm
  | _ => exact hack

/-- The ack of a cache is not on the way twice. -/
theorem not_responses_ack (h : TxnOk (.write r V A stage) e current) (hi : i ∉ A) :
    ¬ (Txn.write r V A stage).responses (r, ack i) := by
  have hack : ¬ ∃ j ∈ A, (r, ack i) = (r, (ack j : ResponseMsg ι D)) := by
    rintro ⟨j, hj, heq⟩
    obtain rfl : i = j := NodeID.cache.inj (congrArg ResponseMsg.sender (Prod.mk.inj heq).2)
    exact hi hj
  cases stage with
  | data m =>
      rintro (heq | hj)
      · obtain rfl := (Prod.mk.inj heq).2
        rcases h.2.2.2.2.2 with hm | hm <;> cases hm
      · exact hack hj
  | _ => exact hack

end

theorem afterInv_keeps {state : State} :
    (state = .NP ∨ state.isStable → afterInv state = .NP ∨ (afterInv state).isStable) ∧
    (state = .IS → afterInv state = .IS) ∧ (state.takesAck → (afterInv state).takesAck) ∧
    (state = .II → afterInv state = .II) := by
  cases state <;> decide

theorem Node.afterInv (h : Node t e i role v) :
    Node t e i role { v with state := L1Cache.afterInv v.state } := by
  obtain ⟨hrests, hIS, hack, hII⟩ := @afterInv_keeps v.state
  cases role with
  | none => exact hrests h
  | request m =>
      refine ⟨h.1, ?_⟩
      rcases h.2 with ⟨hst, hm⟩ | ⟨hst, hm⟩ | ⟨hst, hm⟩
      · exact .inl ⟨hIS hst, hm⟩
      · exact .inr (.inl ⟨hack hst, hm⟩)
      · exact .inr (.inr ⟨hII hst, hm⟩)
  | reader => exact ⟨hIS h.1, h.2⟩
  | writer => exact ⟨hack h.1, h.2⟩
  | released => exact hII h

omit [Inhabited D] in
theorem acksFor_eq (e : Directory.Entry ι D) (r : ι) :
    Directory.acksFor e r = ((e.sharers.erase r).card : Int) := by
  rw [Directory.acksFor]
  split
  · rename_i hr
    have := Finset.card_erase_add_one hr
    omega
  · rename_i hr
    rw [Finset.erase_eq_of_notMem hr]

theorem transient_waits {state : State} : state.isTransient →
    ¬ (state = .NP ∨ state.isStable) ∧ state ≠ .II := by
  cases state <;> decide

theorem blind_takesAck {state : State} : isBlind state → state.takesAck → state = .IM := by
  cases state <;> decide

theorem shared_takesAck {state : State} : isShared state → state.takesAck → state = .SM := by
  cases state <;> decide

theorem owner_takesAck {state : State} : state.isOwner → state.takesAck → state = .OM := by
  cases state <;> decide

/-- The writer learns how many acks to expect. -/
theorem Node.knows {V A : Finset ι}
    (hpending : v.pending = Directory.acksFor e i - (V.card + A.card)) (htrigger : v.trigger = 0)
    (data : D) : Node (.write i V A .acks) e i .writer
      (.counted .OM data (v.pending - Directory.acksFor e i) v.trigger) := by
  have hcount : v.pending - Directory.acksFor e i = 0 - (V.card + A.card) := by omega
  refine ⟨rfl, hcount, ?_, rfl⟩
  rw [View.counted, Txn.triggers, hcount, htrigger]
  refine if_congr ?_ rfl rfl
  rw [← Finset.card_eq_zero, ← Finset.card_eq_zero]
  omega

/-- One ack less is due. The count is never zero before the data, and zero after it only
when no ack is due. -/
theorem Node.acked {V A : Finset ι} {stage : WriteStage ι D}
    (h : Node (.write i V A stage) e i .writer v) (hj : j ∈ A) (hdisj : Disjoint V A)
    (hsub : V ∪ A ⊆ e.sharers.erase i) : Node (.write i V (A.erase j) stage) e i .writer
      (.counted v.state v.data (v.pending - (ack j : ResponseMsg ι D).acks) v.trigger) := by
  obtain ⟨hst, hpending, htrigger, hi⟩ := h
  have hcard := Finset.card_erase_add_one hj
  have hle : V.card + A.card ≤ (e.sharers.erase i).card := by
    rw [← Finset.card_union_of_disjoint hdisj]
    exact Finset.card_le_card hsub
  have hA : A ≠ ∅ := Finset.ne_empty_of_mem hj
  have hpending' : v.pending - (ack j : ResponseMsg ι D).acks =
      (Txn.write i V (A.erase j) stage).pending e := by
    rw [hpending, L1Cache.ack]
    cases stage with
    | done => exact hi.elim
    | _ =>
        simp only [Txn.pending]
        omega
  refine ⟨hst, hpending', ?_, writes_sets.mp hi⟩
  rw [View.counted, hpending', htrigger]
  cases stage with
  | done => exact hi.elim
  | acks =>
      simp only [Txn.pending, Txn.triggers, hA, and_false, if_false]
      refine if_congr ?_ rfl rfl
      rw [← Finset.card_eq_zero, ← Finset.card_eq_zero]
      omega
  | _ =>
      simp only [Txn.pending, Txn.triggers, acksFor_eq]
      exact if_neg (by omega)

omit [Inhabited D] in
theorem after_unblock (i : ι) (v : View D) (m : ResponseMsg ι D) (popped : Bool) (loads : List D)
    (p : Protocol ι D) : p.after i v driver { popped := popped, unblocks := [m], loads := loads } =
      { p with view := Function.update p.view i v, unblocks := m ::ₘ p.unblocks } := by
  simp [after]

/-! Roles -/

omit [Inhabited D] in
theorem forall_update_role {P : ι → Role ι D → View D → Prop} {view : ι → View D}
    (hi : P i role v) (hj : ∀ j, j ≠ i → P j (w j) (view j)) (j : ι) :
    P j (Function.update w i role j) (Function.update view i v j) := by
  by_cases hji : j = i
  · subst hji
    rwa [Function.update_self, Function.update_self]
  · rw [Function.update_of_ne hji, Function.update_of_ne hji]
    exact hj j hji

omit [Inhabited D] in
/-- A cache that has sent no request stops to wait. -/
theorem request_update {m : RequestMsg ι D} (hi : ∀ m, w i ≠ .request m) :
    (∃ k, w k = .request m) ↔ ∃ k, Function.update w i .none k = .request m := by
  constructor
  · rintro ⟨k, hk⟩
    refine ⟨k, ?_⟩
    rw [Function.update_of_ne, hk]
    rintro rfl
    exact hi m hk
  · rintro ⟨k, hk⟩
    by_cases hki : k = i
    · rw [hki, Function.update_self] at hk
      cases hk
    · rw [Function.update_of_ne hki] at hk
      exact ⟨k, hk⟩

/-! The responses -/

def WbAcks (w : ι → Role ι D) (x : ι × ResponseMsg ι D) : Prop :=
  ∃ i, w i = .released ∧ x = (i, wbAck i)

omit [DecidableEq ι] in
theorem not_wbAcks {x : ι × ResponseMsg ι D} (h : x.2.type ≠ .WB_ACK) : ¬ WbAcks w x := by
  rintro ⟨k, -, rfl⟩
  exact h rfl

omit [DecidableEq ι] in
theorem responses_cases {x : ι × ResponseMsg ι D} (h : t.responses x) :
    (∃ r m, t = .read r (.data m) ∧ x = (r, m)) ∨
    (∃ r V A m, t = .write r V A (.data m) ∧ x = (r, m)) ∨
    ∃ r V A stage j, t = .write r V A stage ∧ j ∈ A ∧ x = (r, ack j) := by
  cases t with
  | idle => exact h.elim
  | read r stage =>
      cases stage with
      | data m => exact .inl ⟨r, m, rfl, h⟩
      | forwarded => exact h.elim
      | done exclusive => exact h.elim
  | write r V A stage =>
      have hack : (∃ j ∈ A, x = (r, ack j)) → ∃ r' V' A' stage' j,
          Txn.write r V A stage = .write r' V' A' stage' ∧ j ∈ A' ∧ x = (r', ack j) := by
        rintro ⟨j, hj, heq⟩
        exact ⟨r, V, A, stage, j, rfl, hj, heq⟩
      cases stage with
      | data m =>
          rcases h with heq | h
          · exact .inr (.inl ⟨r, V, A, m, rfl, heq⟩)
          · exact .inr (.inr (hack h))
      | _ => exact .inr (.inr (hack h))

theorem responses_wbAck (h : TxnOk t e current) : ¬ t.responses (i, wbAck j) := by
  intro hresp
  rcases responses_cases hresp with ⟨r, m, rfl, heq⟩ | ⟨r, V, A, m, rfl, heq⟩ |
    ⟨r, V, A, stage, k, rfl, -, heq⟩
  · obtain rfl := (Prod.mk.inj heq).2
    rcases h.2.2.2 with hm | ⟨-, hm | hm⟩ <;> cases hm
  · obtain rfl := (Prod.mk.inj heq).2
    rcases h.2.2.2.2.2 with hm | hm <;> cases hm
  · cases congrArg (fun x => x.2.type) heq

theorem wbAcks_update (hi : w i ≠ .released) (hrole : role ≠ .released) (x : ι × ResponseMsg ι D) :
    WbAcks w x ↔ WbAcks (Function.update w i role) x := by
  refine exists_congr fun k => and_congr_left fun _ => ?_
  by_cases hki : k = i
  · rw [hki, Function.update_self]
    exact ⟨fun hk => absurd hk hi, fun hk => absurd hk hrole⟩
  · rw [Function.update_of_ne hki]

section
variable [DecidableEq D]

omit [Inhabited D] [DecidableEq D] in
/-- A cache has taken a forwarded message and answered it. -/
theorem after_answer (i : ι) (x : ι × ResponseMsg ι D) (F : Multiset (ι × RequestMsg ι D))
    (p : Protocol ι D) :
    ({ p with forwards := F } : Protocol ι D).after i v driver
        { popped := true, responses := [x] } =
      { p with
        view := Function.update p.view i v
        forwards := F
        responses := x ::ₘ p.responses } := by
  simp [after]

omit [DecidableEq ι] [DecidableEq D] [Inhabited D] in
theorem Sound.owner_eq (h : Sound e) (hi : i ∈ e.owner) (hj : j ∈ e.owner) : j = i := by
  rw [h.one i hi] at hj
  exact Finset.mem_singleton.mp hj

/-- The owner answers a read. -/
theorem Inv.fwd_GETS (h : Inv t w p) (driver : D → D) {m : RequestMsg ι D}
    (hm : (i, m) ∈ p.forwards) (htype : m.type = .GETS) : (p.view i).state.isOwner ∧ ∃ t', Inv t' w
      (({ p with forwards := p.forwards.erase (i, m) } : Protocol ι D).after i
        { p.view i with state := afterFwdGETS (p.view i).state } driver
        { popped := true
          responses := [(m.requestor,
            dataMsg (fwdGETSType (p.view i).state) i (p.view i).data m.acks)] }) := by
  obtain ⟨r, rfl, hi, rfl⟩ := forwards_GETS (h.forwards.mem hm) htype
  have hold := (h.rights i).1 hi
  obtain ⟨hbusy, hr, -⟩ := h.txn
  obtain ⟨hstable, hcases⟩ := afterFwdGETS_spec hold.owner
  have hshared : (p.view i).state = .MM → p.directory.sharers = ∅ := by
    intro hMM
    refine Finset.eq_empty_of_forall_notMem fun j hj => ?_
    exact hold.alone (by rw [hMM]; rfl) j hj
  generalize hm : dataMsg (fwdGETSType (p.view i).state) i (p.view i).data
    (forwardMsg .GETS p.directory r).acks = m
  have htype : m.type = fwdGETSType (p.view i).state := by rw [← hm]; rfl
  refine ⟨hold.owner, .read r (.data m), ?_⟩
  rw [after_answer]
  refine ⟨h.sound, ⟨hbusy, hr, by rw [← hm]; exact hold.data, ?_⟩, h.reader, fun j hj => hj.elim,
    (Function.forall_update_iff _ fun j v => Node _ _ j _ v).mpr ⟨?_, fun j hj => ?_⟩,
    (Function.forall_update_iff _ fun j v => Rights _ _ _ j _ v).mpr ⟨?_, fun j hj => ?_⟩,
    ?_, h.requests, ?_, ?_, h.unblocks⟩
  · rw [htype]
    rcases hcases with ⟨hMM, -, hdata⟩ | ⟨hdata, -⟩
    · exact .inr ⟨hshared hMM, .inr hdata⟩
    · exact .inl hdata
  · refine ((h.node i).eq_of_stable hstable fun hs => ?_).congr id False.elim
    rcases hcases with ⟨hMM, -⟩ | ⟨-, -, -, -, -, hsame⟩
    · rw [hMM] at hs
      cases hs
    · exact hsame hs
  · exact (h.node j).congr id False.elim
  · rcases hcases with ⟨hMM, hI, hdata⟩ | ⟨hdata, howner, hx, hE, hO, -⟩
    · refine .blind (fun hhold => ?_) (by rw [hI]; rfl)
      cases hhold.1.symm.trans (htype.trans hdata)
    · refine ⟨fun _ => ⟨howner, hold.data, fun hx' => absurd hx' hx, hold.unreleased, ?_⟩,
        fun hnot => absurd ⟨htype.trans hdata, hi⟩ hnot⟩
      rintro (hst | hst | hrole)
      · exact absurd hst hE
      · exact hold.clean ((hO hst).imp id .inl)
      · exact hold.clean (.inr (.inr hrole))
  · have hnot : j ∉ p.directory.owner := fun hj' => hj (h.sound.owner_eq hi hj')
    refine ⟨fun hj' => absurd hj'.2 hnot, fun _ => ?_⟩
    rcases (h.rights j).2 hnot with hblind | ⟨hs, hshares, hd⟩
    · exact .inl hblind
    · rcases hcases with ⟨hMM, -⟩ | ⟨hdata, -⟩
      · rw [Txn.shares, hshared hMM] at hshares
        exact absurd hshares (Finset.notMem_empty j)
      · exact .inr ⟨hs, ⟨htype.trans hdata, .inr hshares⟩, hd⟩
  · rintro (⟨-, hempty⟩ | hclean)
    · dsimp only at hempty
      exact absurd hi (hempty ▸ Finset.notMem_empty i)
    · rcases hcases with ⟨-, -, hdata⟩ | ⟨hdata, -⟩
      · cases hclean.symm.trans (htype.trans hdata)
      · cases hclean.symm.trans (htype.trans hdata)
  · refine (h.forwards.receive _).congr fun x => ⟨?_, False.elim⟩
    rintro ⟨⟨q, hq, rfl⟩, hne⟩
    rw [h.sound.owner_eq hi hq] at hne
    exact hne rfl
  · have hwb : ¬ WbAcks w (r, m) := by
      refine not_wbAcks ?_
      rw [htype]
      rcases hcases with ⟨-, -, hdata⟩ | ⟨hdata, -⟩
      · rw [hdata]
        exact CoherenceResponseType.noConfusion
      · rw [hdata]
        exact CoherenceResponseType.noConfusion
    exact h.responses.send_right hwb id fun x => (or_iff_left id).symm

/-- What the writer's request has left on the forward network once the owner has it. -/
theorem Inv.owner_took {r : ι} {V A : Finset ι} (h : Inv (.write r V A .forwarded) w p)
    (hi : i ∈ p.directory.owner) :
    Network.Carries (p.forwards.erase (i, forwardMsg .GETX p.directory r)) fun x =>
      ∃ j ∈ V, x = (j, requestMsg .INV r default) := by
  refine (h.forwards.receive _).congr fun x => ⟨?_, fun hinv => ⟨.inr hinv, ?_⟩⟩
  · rintro ⟨⟨q, hq, rfl⟩ | hinv, hne⟩
    · rw [h.sound.owner_eq hi hq] at hne
      exact (hne rfl).elim
    · exact hinv
  · obtain ⟨j, -, rfl⟩ := hinv
    intro heq
    cases congrArg (fun x => x.2.type) heq

/-- The owner gives the block to a writer. -/
theorem Inv.fwd_GETX (h : Inv t w p) (driver : D → D) {m : RequestMsg ι D}
    (hm : (i, m) ∈ p.forwards) (htype : m.type = .GETX) (hother : m.requestor ≠ i) :
    (p.view i).state.isOwner ∧ ∃ t', Inv t' w
      (({ p with forwards := p.forwards.erase (i, m) } : Protocol ι D).after i
        { p.view i with state := afterFwdGETX (p.view i).state } driver
        { popped := true
          responses := [(m.requestor, dataMsg .DATA i (p.view i).data m.acks)] }) := by
  obtain ⟨r, V, A, rfl, hi, rfl⟩ := forwards_GETX (h.forwards.mem hm) htype
  have hold := (h.rights i).1 hi
  have hother : ¬ i = r := fun heq => hother heq.symm
  obtain ⟨hbusy, hdisj, hsub, -⟩ := h.txn
  generalize hd : dataMsg .DATA i (p.view i).data (forwardMsg .GETX p.directory r).acks = m
  refine ⟨hold.owner, .write r V A (.data m), ?_⟩
  rw [after_answer]
  refine ⟨h.sound, ⟨hbusy, hdisj, hsub, ?_⟩, fun j hj => hj.elim, h.writer,
    (Function.forall_update_iff _ fun j v => Node _ _ j _ v).mpr ⟨?_, fun j hj => ?_⟩,
    (Function.forall_update_iff _ fun j v => Rights _ _ _ j _ v).mpr ⟨?_, fun j hj => ?_⟩,
    fun hmem => hmem.elim, h.requests, h.owner_took hi, ?_, h.unblocks⟩
  · rw [← hd]
    exact ⟨hold.data, rfl, .inl rfl⟩
  · exact ((h.node i).afterFwdGETX hold.owner hother).congr False.elim fun hi => ⟨hi, rfl, rfl⟩
  · exact (h.node j).congr False.elim fun hi => ⟨hi, rfl, rfl⟩
  · exact .blind id (afterFwdGETX_spec hold.owner).1
  · refine ⟨False.elim, fun _ => ?_⟩
    exact (h.rights j).2 fun hj' => hj (h.sound.owner_eq hi hj')
  · have hwb : ¬ WbAcks w (r, m) := by
      refine not_wbAcks ?_
      rw [← hd]
      exact CoherenceResponseType.noConfusion
    have hack : ¬ ∃ j ∈ A, (r, m) = (r, ack j) := by
      rintro ⟨j, -, heq⟩
      rw [← hd] at heq
      cases heq
    exact h.responses.send_right hwb hack fun x => Iff.rfl

/-- An owner that writes gets its own request back. -/
theorem Inv.own_GETX (h : Inv t w p) (driver : D → D) {m : RequestMsg ι D}
    (hm : (i, m) ∈ p.forwards) (htype : m.type = .GETX) (hown : m.requestor = i) :
    (p.view i).state = .OM ∧ ∃ t', Inv t' w
      (({ p with forwards := p.forwards.erase (i, m) } : Protocol ι D).after i
        (.counted .OM (p.view i).data ((p.view i).pending - m.acks) (p.view i).trigger) driver
        { popped := true }) := by
  obtain ⟨r, V, A, rfl, hi, rfl⟩ := forwards_GETX (h.forwards.mem hm) htype
  obtain rfl : r = i := hown
  have hold := (h.rights r).1 hi
  have hrole := h.writer r rfl
  have hnode := h.node r
  rw [hrole] at hnode
  obtain ⟨hack, hpending, htrigger, -⟩ := hnode
  have hOM := owner_takesAck hold.owner hack
  obtain ⟨hbusy, hdisj, hsub, -⟩ := h.txn
  refine ⟨hOM, .write r V A .acks, ?_⟩
  rw [after_taken]
  refine ⟨h.sound, ⟨hbusy, hdisj, hsub, trivial⟩, fun j hj => hj.elim, h.writer,
    (Function.forall_update_iff _ fun j v => Node _ _ j _ v).mpr ⟨?_, fun j hj => ?_⟩,
    (Function.forall_update_iff _ fun j v => Rights _ _ _ j _ v).mpr ⟨?_, fun j hj => ?_⟩,
    fun hmem => hmem.elim, h.requests, h.owner_took hi, h.responses, h.unblocks⟩
  · rw [hrole]
    exact .knows hpending htrigger _
  · exact (h.node j).congr False.elim fun hj' => absurd hj' hj
  · refine ⟨fun _ => ⟨rfl, hold.data, fun hx => (by cases hx), hold.unreleased, ?_⟩,
      fun hnot => absurd rfl hnot⟩
    rw [hrole]
    rintro (hst | hst | hst)
    · cases hst
    · cases hst
    · cases hst
  · refine ⟨fun hj' => absurd hj' hj, fun _ => ?_⟩
    rcases (h.rights j).2 fun hj' => hj (h.sound.owner_eq hi hj') with
      hblind | ⟨hst, hshares | ⟨hj', -⟩, hd⟩
    · exact .inl hblind
    · exact .inr ⟨hst, hshares, hd⟩
    · exact absurd hj' hj

/-- A sharer gives up its copy. -/
theorem Inv.inv (h : Inv t w p) (driver : D → D) {m : RequestMsg ι D}
    (hm : (i, m) ∈ p.forwards) (htype : m.type = .INV) :
    (p.view i).state.takesInv ∧ ∃ t', Inv t' w
      (({ p with forwards := p.forwards.erase (i, m) } : Protocol ι D).after i
        { p.view i with state := afterInv (p.view i).state } driver
        { popped := true, responses := [(m.requestor, ack i)] }) := by
  obtain ⟨r, V, A, stage, rfl, hi, rfl⟩ := forwards_INV (h.forwards.mem hm) htype
  obtain ⟨hbusy, hdisj, hsub, hstage⟩ := h.txn
  obtain ⟨hir, hsharer⟩ := Finset.mem_erase.mp (hsub (Finset.mem_union_left _ hi))
  have hnot : ¬ Txn.holds (.write r V A stage : Txn ι D) p.directory i := by
    cases stage with
    | forwarded => exact fun hi' => h.sound.apart i hi' hsharer
    | data m => exact id
    | acks => exact hir
    | done => exact hir
  obtain ⟨htakes, hblind⟩ : (p.view i).state.takesInv ∧ isBlind (afterInv (p.view i).state) := by
    rcases (h.rights i).2 hnot with hst | ⟨hst, -⟩
    · exact afterInv_spec (.inl hst)
    · exact afterInv_spec (.inr hst)
  have hiA : i ∉ A := Finset.disjoint_left.mp hdisj hi
  have hcard : (V.erase i).card + (insert i A).card = V.card + A.card := by
    have hV := Finset.card_erase_add_one hi
    rw [Finset.card_insert_of_notMem hiA]
    omega
  have hsame : ∀ {k}, (Txn.write r V A stage).writes k →
      (Txn.write r (V.erase i) (insert i A) stage).writes k ∧
      (Txn.write r (V.erase i) (insert i A) stage).pending p.directory =
        (Txn.write r V A stage).pending p.directory ∧
      (Txn.write r (V.erase i) (insert i A) stage).triggers =
        (Txn.write r V A stage).triggers := by
    refine fun hk => ⟨writes_sets.mp hk, pending_sets hcard, ?_⟩
    cases stage with
    | acks =>
        rw [Txn.triggers, Txn.triggers, if_neg fun h => Finset.insert_ne_empty i A h.2,
          if_neg fun h => Finset.ne_empty_of_mem hi h.1]
    | _ => rfl
  refine ⟨htakes, .write r (V.erase i) (insert i A) stage, ?_⟩
  rw [after_answer]
  refine ⟨h.sound, ⟨hbusy, ?_, ?_, ?_⟩, fun j hj => hj.elim,
    fun j hj => h.writer j (writes_sets.mp hj),
    (Function.forall_update_iff _ fun j v => Node _ _ j _ v).mpr ⟨?_, fun j hj => ?_⟩,
    (Function.forall_update_iff _ fun j v => Rights _ _ _ j _ v).mpr ⟨?_, fun j hj => ?_⟩,
    fun hmem => hmem.elim, h.requests,
    (h.forwards.receive _).congr fun x => forwards_erase hi, ?_, ?_⟩
  · exact Finset.disjoint_insert_right.mpr
      ⟨Finset.notMem_erase i V, hdisj.mono_left (Finset.erase_subset i V)⟩
  · refine fun j hj => hsub ?_
    rcases Finset.mem_union.mp hj with hj | hj
    · exact Finset.mem_union_left _ (Finset.mem_of_mem_erase hj)
    · rcases Finset.mem_insert.mp hj with rfl | hj
      · exact Finset.mem_union_left _ hi
      · exact Finset.mem_union_right _ hj
  · cases stage with
    | done => exact absurd hi (hstage.1 ▸ Finset.notMem_empty i)
    | _ => exact hstage
  · exact (h.node i).afterInv.congr False.elim hsame
  · exact (h.node j).congr False.elim hsame
  · exact .blind (mt holds_sets.mp hnot) hblind
  · refine (h.rights j).congr holds_sets rfl (fun hnone k hk => hnone k ?_) fun _ => ?_
    · exact shares_sets (fun hk => Finset.mem_of_mem_erase hk) hk
    · exact shares_sets fun hj' => Finset.mem_erase.mpr ⟨hj, hj'⟩
  · have hfresh := not_responses_ack h.txn hiA
    have hwb : ¬ WbAcks w (r, ack i) := not_wbAcks CoherenceResponseType.noConfusion
    exact h.responses.send_right hwb hfresh fun x => responses_insert
  · exact h.unblocks.congr fun m => unblocks_sets

/-! Responses -/

/-- A writer gets the data; a copy that it still has is the same. -/
theorem Inv.data {V A : Finset ι} {m : ResponseMsg ι D} (h : Inv (.write i V A (.data m)) w p)
    (driver : D → D) :
    ((p.view i).state = .IM ∨ (p.view i).state = .SM ∧ (p.view i).data = m.dataBlk) ∧
      Inv (.write i V A .acks) w
        (({ p with responses := p.responses.erase (i, m) } : Protocol ι D).after i
          (.counted .OM m.dataBlk ((p.view i).pending - m.acks) (p.view i).trigger) driver
          { popped := true }) := by
  have hrole := h.writer i rfl
  have hnode := h.node i
  rw [hrole] at hnode
  obtain ⟨hack, hpending, htrigger, -⟩ := hnode
  obtain ⟨hbusy, hdisj, hsub, hdata, hacks, htype⟩ := h.txn
  refine ⟨?_, ?_⟩
  · rcases (h.rights i).2 id with hblind | ⟨hshared, -, hd⟩
    · exact .inl (blind_takesAck hblind hack)
    · exact .inr ⟨shared_takesAck hshared hack, hd.trans hdata.symm⟩
  rw [after_taken, hacks]
  refine ⟨h.sound, ⟨hbusy, hdisj, hsub, trivial⟩, fun j hj => hj.elim, h.writer,
    (Function.forall_update_iff _ fun j v => Node _ _ j _ v).mpr ⟨?_, fun j hj => ?_⟩,
    (Function.forall_update_iff _ fun j v => Rights _ _ _ j _ v).mpr ⟨?_, fun j hj => ?_⟩,
    fun hmem => hmem.elim, h.requests, h.forwards, ?_, h.unblocks⟩
  · rw [hrole]
    exact .knows hpending htrigger _
  · exact (h.node j).congr False.elim fun hj' => absurd hj' hj
  · refine ⟨fun _ => ⟨rfl, hdata, fun hx => (by cases hx), ?_, ?_⟩, fun hnot => absurd rfl hnot⟩
    · simp [hrole]
    · rw [hrole]
      rintro (hst | hst | hst)
      · cases hst
      · cases hst
      · cases hst
  · refine ⟨fun hj' => absurd hj' hj, fun _ => ?_⟩
    rcases (h.rights j).2 id with hblind | ⟨hst, hshares | ⟨hj', -⟩, hd⟩
    · exact .inl hblind
    · exact .inr ⟨hst, hshares, hd⟩
    · exact absurd hj' hj
  · have hne : ¬ ∃ j ∈ A, (i, m) = (i, (ack j : ResponseMsg ι D)) := by
      rintro ⟨j, -, heq⟩
      rw [(Prod.mk.inj heq).2] at htype
      rcases htype with hm | hm <;> cases hm
    have hwb : ¬ WbAcks w (i, m) := by
      refine not_wbAcks fun hm => ?_
      rcases htype with hm' | hm' <;> cases hm.symm.trans hm'
    refine h.responses.receive_right hwb fun x =>
      ⟨fun hx => hx.1.resolve_left hx.2, fun hx => ?_⟩
    refine ⟨.inr hx, ?_⟩
    rintro rfl
    exact hne hx

/-- A writer gets an ack. -/
theorem Inv.ack {V A : Finset ι} {stage : WriteStage ι D} (h : Inv (.write i V A stage) w p)
    (driver : D → D) (hj : j ∈ A) : (p.view i).state.takesAck ∧ Inv (.write i V (A.erase j) stage) w
      (({ p with responses := p.responses.erase (i, L1Cache.ack j) } : Protocol ι D).after i
        (.counted (p.view i).state (p.view i).data
          ((p.view i).pending - (L1Cache.ack j : ResponseMsg ι D).acks) (p.view i).trigger) driver
        { popped := true }) := by
  obtain ⟨hbusy, hdisj, hsub, hstage⟩ := h.txn
  have hwrites : (Txn.write i V A stage).writes i := by
    cases stage with
    | done => exact absurd hj (hstage.2 ▸ Finset.notMem_empty j)
    | _ => rfl
  have hrole := h.writer i hwrites
  have hnode := h.node i
  rw [hrole] at hnode
  refine ⟨hnode.1, ?_⟩
  rw [after_taken]
  have hok : TxnOk (.write i V (A.erase j) stage) p.directory p.current := by
    refine ⟨hbusy, hdisj.mono_right (Finset.erase_subset j A),
      (Finset.union_subset_union_right (Finset.erase_subset j A)).trans hsub, ?_⟩
    cases stage with
    | done => exact hwrites.elim
    | _ => exact hstage
  refine ⟨h.sound, hok,
    fun k hk => hk.elim, fun k hk => h.writer k (writes_sets.mp hk),
    (Function.forall_update_iff _ fun j v => Node _ _ j _ v).mpr ⟨?_, fun k hk => ?_⟩,
    (Function.forall_update_iff _ fun j v => Rights _ _ _ j _ v).mpr ⟨?_, fun k hk => ?_⟩,
    fun hmem => hmem.elim, h.requests, h.forwards.congr fun x => ?_, ?_,
    h.unblocks.congr fun m => unblocks_sets⟩
  · rw [hrole]
    exact hnode.acked hj hdisj hsub
  · refine (h.node k).congr False.elim fun hk' => ?_
    cases stage with
    | done => exact hk'.elim
    | _ => exact absurd hk' hk
  · exact ((h.rights i).congr holds_sets rfl (fun hnone k hk => hnone k (shares_sets id hk))
      fun _ => shares_sets id).of_eq rfl rfl
  · exact (h.rights k).congr holds_sets rfl (fun hnone k hk => hnone k (shares_sets id hk))
      fun _ => shares_sets id
  · cases stage <;> exact Iff.rfl
  · refine h.responses.receive_right (not_wbAcks CoherenceResponseType.noConfusion) fun x => ?_
    rw [← Finset.insert_erase hj, responses_insert, Finset.insert_erase hj]
    refine ⟨fun hx => hx.1.resolve_left hx.2, fun hx => ⟨.inr hx, ?_⟩⟩
    rintro rfl
    exact not_responses_ack hok (Finset.notMem_erase j A) hx

/-- A reader has its data. -/
theorem Inv.filled {m : ResponseMsg ι D} (exclusive : Bool) (h : Inv (.read i (.data m)) w p)
    (hx : exclusive → p.directory.sharers = ∅) (hst : v.state.isStable)
    (hi : Rights (.read i (.done exclusive)) p.directory p.current i .none v)
    (hrights : ∀ j, j ≠ i → Rights (.read i (.data m)) p.directory p.current j (w j) (p.view j) →
      Rights (.read i (.done exclusive)) p.directory p.current j (w j) (p.view j))
    (hmem : Txn.atMemory (.read i (.done exclusive) : Txn ι D) p.directory →
      p.directory.dataBlk = p.current) :
    Inv (.read i (.done exclusive)) (Function.update w i .none)
      (({ p with responses := p.responses.erase (i, m) } : Protocol ι D).after i v driver
        { popped := true
          unblocks := [unblockMsg (if exclusive then .UNBLOCK_EXCLUSIVE else .UNBLOCK) i]
          loads := [m.dataBlk] }) := by
  have hrole := h.reader i rfl
  obtain ⟨hbusy, hown, -, htype⟩ := h.txn
  rw [after_unblock]
  refine ⟨h.sound, ⟨hbusy, hown, hx⟩, fun j hj => hj.elim, fun j hj => hj.elim,
    forall_update_role (P := fun j role v => Node _ _ j role v) (.inr hst) fun j hj => ?_,
    forall_update_role (P := fun j role v => Rights _ _ _ j role v) hi fun j hj => ?_,
    hmem, ?_, h.forwards, ?_, ?_⟩
  · exact (h.node j).congr (fun hj' => absurd hj' hj) False.elim
  · exact hrights j hj (h.rights j)
  · exact h.requests.congr fun m => request_update (by simp [hrole])
  · have hwb : ¬ WbAcks w (i, m) := by
      refine not_wbAcks fun hm => ?_
      rcases htype with hm' | ⟨-, hm' | hm'⟩ <;> cases hm.symm.trans hm'
    refine Network.Carries.congr (h.responses.receive_right hwb fun x => ?_) fun x =>
      or_congr_left (wbAcks_update (by simp [hrole]) (by simp) x)
    exact ⟨fun hx => hx.2 hx.1, False.elim⟩
  · refine (h.unblocks.send id).congr fun x => ?_
    exact or_iff_left id

theorem Inv.fill {m : ResponseMsg ι D} {event : Event} (h : Inv (.read i (.data m)) w p)
    (driver : D → D)
    (he : responseToCache m = some event) :
    event.isData ∧ (p.view i).state = .IS ∧ (p.view i).trigger = 0 ∧ m.dataBlk = p.current ∧
      ∃ t' w', Inv t' w'
        (({ p with responses := p.responses.erase (i, m) } : Protocol ι D).after i
          ⟨L1Cache.filled event, m.dataBlk, 0, 0⟩ driver
          { popped := true
            unblocks := [unblockMsg (fillUnblock event) i]
            loads := [m.dataBlk] }) := by
  have hnode := h.node i
  rw [h.reader i rfl] at hnode
  obtain ⟨-, hown, hdata, htype⟩ := h.txn
  -- with exclusive data, nobody else has a copy
  have hblind : m.type ≠ .DATA → ∀ j, j ≠ i →
      Rights (.read i (.data m)) p.directory p.current j (w j) (p.view j) →
      Rights (.read i (.done true)) p.directory p.current j (w j) (p.view j) := by
    intro hm j hj hrights
    refine .blind hj ?_
    rcases hrights.2 fun hold => hm hold.1 with hb | ⟨-, hshares, -⟩
    · exact hb
    · exact absurd hshares.1 hm
  rcases htype with hm | ⟨hnone, hm | hm⟩
  · obtain rfl : event = .Data := by
      rw [responseToCache, hm] at he
      exact (Option.some.inj he).symm
    refine ⟨rfl, hnode.1, hnode.2.1, hdata, _, _,
      h.filled false Bool.noConfusion rfl ?_ (fun j hj hrights => ?_) fun hempty => ?_⟩
    · exact ⟨fun hi => absurd hi hown, fun _ => .inr ⟨rfl, .inl rfl, hdata⟩⟩
    · exact hrights.congr (and_iff_right hm).symm rfl (fun hall => absurd ⟨hm, .inl rfl⟩ (hall i))
        fun _ hs => hs.2
    · exact h.memory (.inl ⟨hm, hempty⟩)
  · obtain rfl : event = .Exclusive_Data_Clean := by
      rw [responseToCache, hm] at he
      exact (Option.some.inj he).symm
    refine ⟨rfl, hnode.1, hnode.2.1, hdata, _, _, h.filled true (fun _ => hnone) rfl ?_
      (hblind (by simp [hm])) False.elim⟩
    exact ⟨fun _ => ⟨rfl, hdata, fun _ _ => id, by simp, fun _ => h.memory (.inr hm)⟩,
      fun hnot => absurd rfl hnot⟩
  · obtain rfl : event = .Exclusive_Data_Dirty := by
      rw [responseToCache, hm] at he
      exact (Option.some.inj he).symm
    refine ⟨rfl, hnode.1, hnode.2.1, hdata, _, _, h.filled true (fun _ => hnone) rfl ?_
      (hblind (by simp [hm])) False.elim⟩
    refine ⟨fun _ => ⟨rfl, hdata, fun _ _ => id, by simp, ?_⟩, fun hnot => absurd rfl hnot⟩
    rintro (hst | hst | hst)
    · cases hst
    · cases hst
    · cases hst

/-- A writeback is over. -/
theorem Inv.writeback_Ack (h : Inv t w p) (driver : D → D) {m : ResponseMsg ι D}
    (hm : (i, m) ∈ p.responses) (htype : m.type = .WB_ACK) : (p.view i).state = .II ∧ ∃ w', Inv t w'
      (({ p with responses := p.responses.erase (i, m) } : Protocol ι D).after i
        ⟨.NP, (p.view i).data, 0, 0⟩ driver { popped := true }) := by
  obtain ⟨hrole, rfl⟩ : w i = .released ∧ m = wbAck i := by
    rcases h.responses.mem hm with ⟨k, hk, heq⟩ | hresp
    · cases heq
      exact ⟨hk, rfl⟩
    · rcases responses_cases hresp with ⟨r, m', rfl, heq⟩ | ⟨r, V, A, m', rfl, heq⟩ |
        ⟨r, V, A, stage, k, rfl, -, heq⟩
      · obtain rfl := (Prod.mk.inj heq).2
        rcases h.txn.2.2.2 with hm' | ⟨-, hm' | hm'⟩ <;> cases htype.symm.trans hm'
      · obtain rfl := (Prod.mk.inj heq).2
        rcases h.txn.2.2.2.2.2 with hm' | hm' <;> cases htype.symm.trans hm'
      · obtain rfl := (Prod.mk.inj heq).2
        cases htype
  have hnode := h.node i
  rw [hrole] at hnode
  refine ⟨hnode, Function.update w i .none, ?_⟩
  have hkeep : ∀ {j role}, w j = role → role ≠ .released → Function.update w i .none j = role := by
    rintro j role rfl hj
    refine Function.update_of_ne ?_ _ _
    rintro rfl
    exact hj hrole
  have hnot : ¬ t.holds p.directory i := fun hi => ((h.rights i).1 hi).unreleased hrole
  rw [after_taken]
  refine ⟨h.sound, h.txn, fun j hj => hkeep (h.reader j hj) (by simp),
    fun j hj => hkeep (h.writer j hj) (by simp),
    forall_update_role (P := fun j role v => Node _ _ j role v) (.inl rfl) fun j _ => h.node j,
    forall_update_role (P := fun j role v => Rights _ _ _ j role v) (.blind hnot rfl)
      fun j _ => h.rights j,
    h.memory, h.requests.congr fun m => request_update (by simp [hrole]), h.forwards, ?_,
    h.unblocks⟩
  refine (h.responses.receive _).congr fun x => ?_
  constructor
  · rintro ⟨⟨k, hk, rfl⟩ | hresp, hne⟩
    · refine .inl ⟨k, ?_, rfl⟩
      rw [Function.update_of_ne, hk]
      rintro rfl
      exact hne rfl
    · exact .inr hresp
  · rintro (⟨k, hk, rfl⟩ | hresp)
    · have hki : k ≠ i := by
        rintro rfl
        rw [Function.update_self] at hk
        cases hk
      rw [Function.update_of_ne hki] at hk
      exact ⟨.inl ⟨k, hk, rfl⟩, fun heq => hki (congrArg Prod.fst heq)⟩
    · refine ⟨.inr hresp, ?_⟩
      rintro rfl
      exact responses_wbAck h.txn hresp

end

/-- With a trigger, all acks have come. -/
theorem Inv.triggered (h : Inv t w p) (hst : (p.view i).state.isTransient)
    (htrigger : 0 < (p.view i).trigger) :
    (p.view i).state = .OM ∧ (p.view i).trigger = 1 ∧ w i = .writer ∧ t = .write i ∅ ∅ .acks := by
  have hnode := h.node i
  have hrole : w i = .writer := by
    cases hr : w i with
    | writer => rfl
    | none =>
        rw [hr] at hnode
        exact absurd hnode (transient_waits hst).1
    | request m =>
        rw [hr] at hnode
        exact absurd hnode.1 (by omega)
    | reader =>
        rw [hr] at hnode
        exact absurd hnode.2.1 (by omega)
    | released =>
        rw [hr] at hnode
        exact absurd hnode (transient_waits hst).2
  rw [hrole] at hnode
  obtain ⟨hack, -, htriggers, hwrites⟩ := hnode
  obtain ⟨rfl, hone⟩ : t = .write i ∅ ∅ .acks ∧ (p.view i).trigger = 1 := by
    rw [htriggers] at htrigger ⊢
    cases t with
    | idle => exact hwrites.elim
    | read r stage => cases stage <;> exact hwrites.elim
    | write r V A stage =>
        cases stage with
        | acks =>
            rw [Txn.triggers] at htrigger ⊢
            split at htrigger
            · rename_i hempty
              obtain ⟨rfl, rfl⟩ := hempty
              obtain rfl : i = r := hwrites
              exact ⟨rfl, rfl⟩
            · exact absurd htrigger (Nat.lt_irrefl 0)
        | _ => exact absurd htrigger (Nat.lt_irrefl 0)
  exact ⟨owner_takesAck ((h.rights i).1 rfl).owner hack, hone, hrole, rfl⟩

/-- All acks have come: the writer is alone, and stores. -/
theorem Inv.all_acks (h : Inv t w p) (hst : (p.view i).state.isTransient)
    (htrigger : 0 < (p.view i).trigger) (hv : isWritten v.state)
    (hd : v.data = driver (p.view i).data) :
    (p.view i).state = .OM ∧ (p.view i).trigger = 1 ∧ ∃ t' w', Inv t' w'
      (p.after i v driver { unblocks := [unblockMsg .UNBLOCK_EXCLUSIVE i], stores := 1 }) := by
  obtain ⟨hOM, hone, hrole, rfl⟩ := h.triggered hst htrigger
  have hold := (h.rights i).1 rfl
  obtain ⟨howner, -, hstable, hE, hO⟩ := written_owner hv
  obtain ⟨hbusy, hdisj, hsub, -⟩ := h.txn
  refine ⟨hOM, hone, .write i ∅ ∅ .done, Function.update w i .none, ?_⟩
  have hafter : p.after i v driver
      { unblocks := [unblockMsg .UNBLOCK_EXCLUSIVE i], stores := 1 } =
      { p with
        view := Function.update p.view i v
        unblocks := unblockMsg .UNBLOCK_EXCLUSIVE i ::ₘ p.unblocks
        current := driver p.current } := by
    simp [after]
  rw [hafter]
  refine ⟨h.sound, ⟨hbusy, hdisj, hsub, rfl, rfl⟩, fun j hj => hj.elim, fun j hj => hj.elim,
    forall_update_role (P := fun j role v => Node _ _ j role v) (.inr hstable) fun j hj => ?_,
    forall_update_role (P := fun j role v => Rights _ _ _ j role v) ?_ fun j hj => ?_,
    False.elim, h.requests.congr fun m => request_update (by simp [hrole]), h.forwards, ?_, ?_⟩
  · exact (h.node j).congr False.elim fun hj' => absurd hj' hj
  · refine ⟨fun _ => ⟨howner, ?_, fun _ _ => id, by simp, ?_⟩, fun hnot => absurd rfl hnot⟩
    · rw [hd, hold.data]
    · rintro (hst | hst | hst)
      · exact absurd hst hE
      · exact absurd hst hO
      · cases hst
  · refine .blind hj ?_
    rcases (h.rights j).2 hj with hblind | ⟨-, hshares, -⟩
    · exact hblind
    · exact absurd hshares (Finset.notMem_empty j)
  · exact h.responses.congr fun x => or_congr_left (wbAcks_update (by simp [hrole]) (by simp) x)
  · refine (h.unblocks.send id).congr fun x => ?_
    exact or_iff_left id

end Protocol
end FeS2.Ruby
