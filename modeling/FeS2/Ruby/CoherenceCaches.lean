import FeS2.Ruby.CoherenceProtocol

/-!
The processor side of the caches keeps the invariant of the directory protocol, and
loads the current block.
-/

namespace FeS2.Ruby
open L1Cache
namespace Protocol
variable {ι D : Type} [DecidableEq ι] [Inhabited D] {p : Protocol ι D}
  {t : Txn ι D} {w : ι → Role ι D} {e : Directory.Entry ι D} {i j : ι} {driver : D → D}
  {v v' : View D} {role : Role ι D} {current : D}

/-- A cache has made a transition. -/
def after (i : ι) (v : View D) (driver : D → D) (effect : Effect ι D) (p : Protocol ι D) :
    Protocol ι D :=
  { p with
    view := Function.update p.view i v
    requests := (effect.requests : Multiset _) + p.requests
    responses := (effect.responses : Multiset _) + p.responses
    unblocks := (effect.unblocks : Multiset _) + p.unblocks
    current := driver^[effect.stores] p.current }

omit [DecidableEq ι] [Inhabited D] in
theorem holds_unique (hs : Sound e) (hi : t.holds e i) (hj : t.holds e j) : i = j := by
  have hone : ∀ {k l}, k ∈ e.owner → l ∈ e.owner → k = l := by
    intro k l hk hl
    rw [hs.one l hl] at hk
    exact Finset.mem_singleton.mp hk
  cases t with
  | idle => exact hone hi hj
  | read r stage =>
      cases stage with
      | forwarded => exact hone hi hj
      | data m => exact hone hi.2 hj.2
      | done exclusive =>
          cases exclusive with
          | false => exact hone hi hj
          | true => exact hi.trans hj.symm
  | write r V A stage =>
      cases stage with
      | forwarded => exact hone hi hj
      | data m => exact hi.elim
      | acks => exact hi.trans hj.symm
      | done => exact hi.trans hj.symm

/-! States -/

theorem eq_II {state : State} : state.isOwner → isBlind state → state = .II := by
  cases state <;> decide

theorem not_shared {state : State} : state.isOwner → ¬ isShared state := by
  cases state <;> decide

theorem not_readable {state : State} : isBlind state → ¬ state.isReadable := by
  cases state <;> decide

omit [DecidableEq ι] [Inhabited D] in
/-- Only a holder has a state that answers forwarded requests, but for a writeback. -/
theorem Rights.holds (h : Rights t e current i role v) (hv : v.state.isOwner)
    (hII : v.state ≠ .II) : t.holds e i := by
  by_contra hnot
  rcases h.2 hnot with hb | ⟨hs, -⟩
  · exact hII (eq_II hv hb)
  · exact not_shared hv hs

omit [DecidableEq ι] [Inhabited D] in
theorem Rights.not_holds (h : Rights t e current i role v) (hv : v.state.isOwner = false) :
    ¬ t.holds e i := fun hi => absurd (h.1 hi).owner (by rw [hv]; exact Bool.false_ne_true)

omit [DecidableEq ι] [Inhabited D] in
/-- What can be read is what was last stored. -/
theorem Rights.readable (h : Rights t e current i role v) (hv : v.state.isReadable) :
    v.data = current := by
  by_cases hi : t.holds e i
  · exact (h.1 hi).data
  · rcases h.2 hi with hb | ⟨-, -, hd⟩
    · exact absurd hv (not_readable hb)
    · exact hd

theorem Node.requestor {m : RequestMsg ι D} (h : Node t e i (.request m) v) : m.requestor = i := by
  rcases h.2 with ⟨-, rfl⟩ | ⟨-, rfl, -⟩ | ⟨-, rfl | rfl⟩ <;> rfl

/-! The processor side -/

/-- A cache that waits for nothing changes its own view, and may send a request. -/
theorem Inv.move (h : Inv t w p) {role : Role ι D} {effect : Effect ι D} (hrole : w i = .none)
    (hnode : Node t p.directory i role v')
    (hrights : Rights t p.directory p.current i role v')
    (hsends : role = .none ∧ effect = {} ∨ ∃ m, role = .request m ∧ effect = { requests := [m] }) :
    Inv t (Function.update w i role) (p.after i v' driver effect) := by
  have hkeep : ∀ {j r}, w j = r → r ≠ .none → Function.update w i role j = r := by
    rintro j r rfl hj
    refine Function.update_of_ne ?_ _ _
    rintro rfl
    exact hj hrole
  have hstores : effect.stores = 0 ∧ effect.responses = [] ∧ effect.unblocks = [] := by
    rcases hsends with ⟨-, rfl⟩ | ⟨m, -, rfl⟩
    · exact ⟨rfl, rfl, rfl⟩
    · exact ⟨rfl, rfl, rfl⟩
  obtain ⟨hstores, hresponses, hunblocks⟩ := hstores
  have hafter : p.after i v' driver effect =
      { p with
        view := Function.update p.view i v'
        requests := (effect.requests : Multiset _) + p.requests } := by
    rw [after, hstores, hresponses, hunblocks]
    simp
  rw [hafter]
  refine ⟨h.sound, h.txn, fun j hj => hkeep (h.reader j hj) (by simp),
    fun j hj => hkeep (h.writer j hj) (by simp), fun j => ?_, fun j => ?_, h.memory, ?_,
    h.forwards, h.responses.congr fun x => ?_, h.unblocks⟩
  · by_cases hj : j = i
    · subst hj
      simpa using hnode
    · simpa [hj] using h.node j
  · by_cases hj : j = i
    · subst hj
      simpa using hrights
    · simpa [hj] using h.rights j
  · rcases hsends with ⟨rfl, rfl⟩ | ⟨m, rfl, rfl⟩
    · have hsame : Function.update w i .none = w := by
        rw [← hrole, Function.update_eq_self]
      rw [hsame]
      simpa using h.requests
    · have hfresh : ¬ ∃ k, w k = .request m := by
        rintro ⟨k, hk⟩
        have hnodek := h.node k
        rw [hk] at hnodek
        obtain rfl : k = i := hnodek.requestor.symm.trans hnode.requestor
        rw [hk] at hrole
        cases hrole
      refine (h.requests.send hfresh).congr fun x => ?_
      constructor
      · rintro (rfl | ⟨k, hk⟩)
        · exact ⟨i, Function.update_self _ _ _⟩
        · exact ⟨k, hkeep hk (by simp)⟩
      · rintro ⟨k, hk⟩
        by_cases hki : k = i
        · rw [hki, Function.update_self] at hk
          cases hk
          exact .inl rfl
        · rw [Function.update_of_ne hki] at hk
          exact .inr ⟨k, hk⟩
  · refine or_congr_left (exists_congr fun k => and_congr_left fun _ => ?_)
    refine ⟨fun hk => ?_, fun hk => ?_⟩
    · exact hkeep hk (by simp)
    · by_cases hki : k = i
      · rw [hki, Function.update_self] at hk
        rcases hsends with ⟨rfl, -⟩ | ⟨m, rfl, -⟩
        · cases hk
        · cases hk
      · rwa [Function.update_of_ne hki] at hk

theorem exclusive_stable {state : State} : state.isExclusive → state.isStable := by
  cases state <;> decide

theorem exclusive_owner {state : State} : state.isExclusive → state.isOwner ∧ state ≠ .II := by
  cases state <;> decide

def isWritten : State → Bool
  | .M | .MM => true
  | _ => false

theorem written_owner {state : State} : isWritten state →
    state.isOwner ∧ state.isExclusive ∧ state.isStable ∧ state ≠ .E ∧ state ≠ .O_C := by
  cases state <;> decide

omit [Inhabited D] in
/-- While a cache is alone, no data is on the way. -/
theorem TxnOk.store (h : TxnOk t e current) (hi : t.holds e i) (hnone : ∀ j, ¬ t.shares e j)
    (current' : D) : TxnOk t e current' := by
  cases t with
  | idle => exact h
  | read r stage =>
      cases stage with
      | data m => exact (hnone r ⟨hi.1, .inl rfl⟩).elim
      | _ => exact h
  | write r V A stage =>
      cases stage with
      | data m => exact hi.elim
      | _ => exact h

omit [DecidableEq ι] [Inhabited D] in
theorem not_atMemory (hi : t.holds e i) : ¬ t.atMemory e := by
  have hempty : i ∈ e.owner → e.owner ≠ ∅ := fun hi he => by
    rw [he] at hi
    exact Finset.notMem_empty i hi
  cases t with
  | idle => exact hempty hi
  | read r stage =>
      cases stage with
      | forwarded => exact hempty hi
      | data m =>
          rintro (⟨-, he⟩ | hm)
          · exact hempty hi.2 he
          · rw [hi.1] at hm
            cases hm
      | done exclusive =>
          cases exclusive with
          | false => exact hempty hi
          | true => exact id
  | write r V A stage => exact id

omit [Inhabited D] in
theorem after_store (i : ι) (v : View D) (driver : D → D) (p : Protocol ι D) :
    p.after i v driver { stores := 1 } =
      { p with view := Function.update p.view i v, current := driver p.current } := by
  rw [after]
  simp

/-- The only holder of the block stores to it. -/
theorem Inv.store (h : Inv t w p) (hrole : w i = .none) (hx : (p.view i).state.isExclusive)
    (hv : isWritten v'.state) (hd : v'.data = driver (p.view i).data) :
    Inv t w (p.after i v' driver { stores := 1 }) := by
  obtain ⟨howner, hII⟩ := exclusive_owner hx
  obtain ⟨howner', -, hstable, hE, hO⟩ := written_owner hv
  have hi := (h.rights i).holds howner hII
  have hold := (h.rights i).1 hi
  have hnone := hold.alone hx
  rw [after_store]
  refine ⟨h.sound, h.txn.store hi hnone _, h.reader, h.writer, fun j => ?_, fun j => ?_,
    fun hmem => absurd hmem (not_atMemory hi), h.requests, h.forwards, h.responses, h.unblocks⟩
  · by_cases hj : j = i
    · subst hj
      rw [hrole]
      simpa using .inr hstable
    · simpa [hj] using h.node j
  · by_cases hj : j = i
    · subst hj
      refine ⟨fun _ => ?_, fun hnot => absurd hi hnot⟩
      rw [hrole]
      refine ⟨by simpa using howner', ?_, fun _ => hnone, by simp, ?_⟩
      · simp [hd, hold.data]
      · simp [isClean, hE, hO]
    · have hnot : ¬ t.holds p.directory j := fun hj' => hj (holds_unique h.sound hj' hi)
      refine ⟨fun hj' => absurd hj' hnot, fun _ => ?_⟩
      rcases (h.rights j).2 hnot with hblind | ⟨-, hshares, -⟩
      · simpa [hj] using .inl hblind
      · exact (hnone j hshares).elim

theorem Node.congr {t' : Txn ι D} {e' : Directory.Entry ι D} (h : Node t e i role v)
    (hreads : t.reads i → t'.reads i)
    (hwrites : t.writes i → t'.writes i ∧ t'.pending e' = t.pending e ∧ t'.triggers = t.triggers) :
    Node t' e' i role v := by
  cases role with
  | reader => exact ⟨h.1, h.2.1, hreads h.2.2⟩
  | writer =>
      obtain ⟨hst, hpending, htrigger, hi⟩ := h
      obtain ⟨hi', hpending', htrigger'⟩ := hwrites hi
      exact ⟨hst, hpending.trans hpending'.symm, htrigger.trans htrigger'.symm, hi'⟩
  | _ => exact h

omit [DecidableEq ι] [Inhabited D] in
theorem Rights.congr {t' : Txn ι D} {e' : Directory.Entry ι D} (h : Rights t e current i role v)
    (hholds : t'.holds e' i ↔ t.holds e i) (hmem : e'.dataBlk = e.dataBlk)
    (halone : (∀ j, ¬ t.shares e j) → ∀ j, ¬ t'.shares e' j)
    (hshares : ¬ t.holds e i → t.shares e i → t'.shares e' i) : Rights t' e' current i role v := by
  refine ⟨fun hi => ?_, fun hnot => ?_⟩
  · obtain ⟨howner, hdata, hx, hrole, hclean⟩ := h.1 (hholds.mp hi)
    exact ⟨howner, hdata, fun hst => halone (hx hst), hrole, fun hc => hmem ▸ hclean hc⟩
  · have hnot := mt hholds.mpr hnot
    exact (h.2 hnot).imp id fun hs => ⟨hs.1, hshares hnot hs.2.1, hs.2.2⟩

omit [DecidableEq ι] [Inhabited D] in
theorem Rights.of_eq (h : Rights t e current i role v) (hs : v'.state = v.state)
    (hd : v'.data = v.data) : Rights t e current i role v' := by
  refine ⟨fun hi => ?_, fun hnot => ?_⟩
  · obtain ⟨howner, hdata, hx, hrole, hclean⟩ := h.1 hi
    rw [← hs] at howner hx
    rw [← hd] at hdata
    refine ⟨howner, hdata, hx, hrole, fun hc => hclean ?_⟩
    rwa [isClean, hs, hd] at hc
  · rw [hs, hd]
    exact h.2 hnot

theorem rests_not_waiting {state : State} : state = .NP ∨ state.isStable →
    state ≠ .IS ∧ state.takesAck = false ∧ state ≠ .II := by
  cases state <;> decide

theorem Node.role_none (h : Node t e i role v) (hv : v.state = .NP ∨ v.state.isStable) :
    role = .none := by
  obtain ⟨hIS, hack, hII⟩ := rests_not_waiting hv
  cases role with
  | none => rfl
  | request m =>
      rcases h.2 with ⟨hst, -⟩ | ⟨hst, -⟩ | ⟨hst, -⟩
      · exact absurd hst hIS
      · rw [hack] at hst
        cases hst
      · exact absurd hst hII
  | reader => exact absurd h.1 hIS
  | writer =>
      have hst := h.1
      rw [hack] at hst
      cases hst
  | released => exact absurd h hII

omit [Inhabited D] in
theorem after_loads (i : ι) (driver : D → D) (loads : List D) (p : Protocol ι D) :
    p.after i (p.view i) driver { loads := loads } = p := by
  rw [after, Function.update_eq_self]
  simp

omit [DecidableEq ι] [Inhabited D] in
theorem Rights.blind (hnot : ¬ t.holds e i) (hv : isBlind v.state) : Rights t e current i role v :=
  ⟨fun hi => absurd hi hnot, fun _ => .inl hv⟩

/-- What the processor side does keeps the invariant, and loads the current block. -/
theorem Inv.demand {effect : Effect ι D} (h : Inv t w p) (hv : p.view i = v)
    (hd : Demands i driver v v' effect) :
    (∀ d ∈ effect.loads, d = p.current) ∧ ∃ w', Inv t w' (p.after i v' driver effect) := by
  have hnode := h.node i
  have hrights := h.rights i
  rw [hv] at hnode hrights
  have hsend : ∀ {v' : View D} (role : Role ι D) {effect : Effect ι D}, w i = .none →
      Node t p.directory i role v' → Rights t p.directory p.current i role v' →
      (role = .none ∧ effect = {} ∨ ∃ m, role = .request m ∧ effect = { requests := [m] }) →
      (∀ d ∈ effect.loads, d = p.current) ∧ ∃ w', Inv t w' (p.after i v' driver effect) := by
    intro v' role effect hrole hnode hrights hsends
    refine ⟨fun d hd => ?_, _, h.move hrole hnode hrights hsends⟩
    rcases hsends with ⟨-, rfl⟩ | ⟨m, -, rfl⟩
    · cases hd
    · cases hd
  cases hd with
  | stay =>
      subst hv
      refine ⟨fun d hd => absurd hd List.not_mem_nil, w, ?_⟩
      rw [after_loads]
      exact h
  | loadHit hread =>
      subst hv
      refine ⟨fun d hd => ?_, w, ?_⟩
      · rw [List.mem_singleton.mp hd]
        exact (h.rights i).readable hread
      · rw [after_loads]
        exact h
  | storeHit d hx =>
      have hrole := hnode.role_none (.inr (exclusive_stable hx))
      refine ⟨fun d hd => absurd hd List.not_mem_nil, w, h.store hrole ?_ rfl ?_⟩
      · rw [hv]
        exact hx
      · rw [hv]
  | missLoad d d' hst =>
      have hnot := hrights.not_holds (by rcases hst with rfl | rfl <;> rfl)
      refine hsend (.request (requestMsg .GETS i default)) (hnode.role_none ?_)
        ⟨rfl, .inl ⟨rfl, rfl⟩⟩ (.blind hnot rfl) (.inr ⟨_, rfl, rfl⟩)
      rcases hst with rfl | rfl
      · exact .inl rfl
      · exact .inr rfl
  | missStore d d' hst =>
      have hnot := hrights.not_holds (by rcases hst with rfl | rfl <;> rfl)
      refine hsend (.request (requestMsg .GETX i default)) (hnode.role_none ?_)
        ⟨rfl, .inr (.inl ⟨rfl, rfl, rfl⟩)⟩ (.blind hnot rfl) (.inr ⟨_, rfl, rfl⟩)
      rcases hst with rfl | rfl
      · exact .inl rfl
      · exact .inr rfl
  | upgrade d =>
      have hnot := hrights.not_holds rfl
      refine hsend (.request (requestMsg .GETX i default)) (hnode.role_none (.inr rfl))
        ⟨rfl, .inr (.inl ⟨rfl, rfl, rfl⟩)⟩ ⟨fun hi => absurd hi hnot, fun _ => ?_⟩
        (.inr ⟨_, rfl, rfl⟩)
      rcases hrights.2 hnot with hblind | ⟨-, hshares⟩
      · cases hblind
      · exact .inr ⟨rfl, hshares⟩
  | upgradeOwned d hst =>
      have hi := hrights.holds (by rcases hst with rfl | rfl <;> rfl)
        (by rcases hst with rfl | rfl <;> simp)
      refine hsend (.request (requestMsg .GETX i default)) (hnode.role_none ?_)
        ⟨rfl, .inr (.inl ⟨rfl, rfl, rfl⟩)⟩ ⟨fun _ => ?_, fun hnot => absurd hi hnot⟩
        (.inr ⟨_, rfl, rfl⟩)
      · rcases hst with rfl | rfl <;> exact .inr rfl
      · refine ⟨rfl, (hrights.1 hi).data, fun hx => (by cases hx), by simp, ?_⟩
        rintro (hst | hst | hrole)
        · cases hst
        · cases hst
        · cases hrole
  | drop d hst =>
      have hnot := hrights.not_holds (by rcases hst with rfl | rfl <;> rfl)
      refine hsend .none (hnode.role_none ?_) (.inl rfl) (.blind hnot rfl) (.inl ⟨rfl, rfl⟩)
      rcases hst with rfl | rfl <;> exact .inr rfl
  | putClean d hst =>
      have hi := hrights.holds (by rcases hst with rfl | rfl <;> rfl)
        (by rcases hst with rfl | rfl <;> simp)
      refine hsend (.request (requestMsg .PUT_CLEAN i d)) (hnode.role_none ?_)
        ⟨rfl, .inr (.inr ⟨rfl, .inl rfl⟩)⟩ ⟨fun _ => ?_, fun hnot => absurd hi hnot⟩
        (.inr ⟨_, rfl, rfl⟩)
      · rcases hst with rfl | rfl <;> exact .inr rfl
      · refine ⟨rfl, (hrights.1 hi).data, fun hx => (by cases hx), by simp, fun _ => ?_⟩
        exact (hrights.1 hi).clean (hst.imp id .inl)
  | putDirty d hst =>
      have hi := hrights.holds (by rcases hst with rfl | rfl | rfl <;> rfl)
        (by rcases hst with rfl | rfl | rfl <;> simp)
      refine hsend (.request (requestMsg .PUT_DIRTY i d)) (hnode.role_none ?_)
        ⟨rfl, .inr (.inr ⟨rfl, .inr rfl⟩)⟩ ⟨fun _ => ?_, fun hnot => absurd hi hnot⟩
        (.inr ⟨_, rfl, rfl⟩)
      · rcases hst with rfl | rfl | rfl <;> exact .inr rfl
      · refine ⟨rfl, (hrights.1 hi).data, fun hx => (by cases hx), by simp, ?_⟩
        rintro (hst | hst | hrole)
        · cases hst
        · cases hst
        · cases hrole

end Protocol
end FeS2.Ruby
