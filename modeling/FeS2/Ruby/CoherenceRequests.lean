import FeS2.Ruby.CoherenceDirectory

/-!
The directory keeps the invariant: at rest it starts to work at a request, or
answers a writeback; while it is busy all requests wait; with the unblock it is at
rest again.
-/

namespace FeS2.Ruby
open L1Cache
namespace Protocol
variable {ι D : Type} [DecidableEq ι] [Inhabited D] [DecidableEq D] {p : Protocol ι D}
  {t : Txn ι D} {w : ι → Role ι D} {e : Directory.Entry ι D} {i j r : ι} {current : D}
  {m : RequestMsg ι D} {role : Role ι D} {v : View D}

/-- The directory has made a transition. -/
def served (x : Directory.Context ι D) (p : Protocol ι D) : Protocol ι D :=
  { p with
    directory := x.entry
    forwards := x.forwards + p.forwards
    responses := x.responses + p.responses }

/-- The directory has a request no longer before it. -/
theorem Inv.request_taken (h : Inv t w p) (hr : w r = .request m)
    (hrole : ∀ x, role ≠ .request x) :
    Network.Carries (p.requests.erase m) fun x => ∃ i, Function.update w r role i = .request x := by
  have hself : ∀ {i x}, w i = .request x → x.requestor = i := by
    intro i x hi
    have hnode := h.node i
    rw [hi] at hnode
    exact hnode.requestor
  refine (h.requests.receive m).congr fun x => ?_
  constructor
  · rintro ⟨⟨i, hi⟩, hne⟩
    refine ⟨i, ?_⟩
    rw [Function.update_of_ne, hi]
    rintro rfl
    exact hne (Role.request.inj (hi.symm.trans hr))
  · rintro ⟨i, hi⟩
    by_cases hir : i = r
    · rw [hir, Function.update_self] at hi
      exact absurd hi (hrole x)
    · rw [Function.update_of_ne hir] at hi
      refine ⟨⟨i, hi⟩, ?_⟩
      rintro rfl
      exact hir ((hself hi).symm.trans (hself hr))

omit [DecidableEq ι] [Inhabited D] [DecidableEq D] in
/-- What a cache has does not depend on what it waits for, but for a clean writeback. -/
theorem Rights.waits {role' : Role ι D} (h : Rights t e current i role v)
    (hrole : role' = .reader ∨ role' = .writer) : Rights t e current i role' v := by
  refine ⟨fun hi => ?_, h.2⟩
  obtain ⟨howner, hdata, hx, -, hclean⟩ := h.1 hi
  refine ⟨howner, hdata, hx, ?_, fun hc => hclean ?_⟩
  · rcases hrole with rfl | rfl <;> simp
  · rcases hc with hst | hst | hst
    · exact .inl hst
    · exact .inr (.inl hst)
    · rcases hrole with rfl | rfl <;> cases hst

/-- The directory starts to work at a request. -/
theorem Inv.start {state : Directory.State} {F : Multiset (ι × RequestMsg ι D)}
    {R : Multiset (ι × ResponseMsg ι D)} (h : Inv .idle w p) (hr : w r = .request m)
    (hrole : role = .reader ∨ role = .writer)
    (htxn : TxnOk t { p.directory with directoryState := state } p.current)
    (hreader : ∀ i, t.reads i → i = r ∧ role = .reader)
    (hwriter : ∀ i, t.writes i → i = r ∧ role = .writer)
    (hnode : Node t { p.directory with directoryState := state } r role (p.view r))
    (hholds : ∀ i, t.holds p.directory i ↔ i ∈ p.directory.owner)
    (hshares : ∀ i, i ∈ p.directory.sharers → t.shares p.directory i)
    (halone : p.directory.owner.Nonempty → ∀ i, t.shares p.directory i → i ∈ p.directory.sharers)
    (hmem : t.atMemory p.directory → p.directory.owner = ∅)
    (hforwards : Network.Carries F (t.forwards p.directory))
    (hresponses : Network.Carries R t.responses)
    (hwb : ∀ x, t.responses x → x.2.type ≠ .WB_ACK) (hunblocks : ∀ m, ¬ t.unblocks m) :
    Inv t (Function.update w r role)
      { p with
        directory := { p.directory with directoryState := state }
        requests := p.requests.erase m
        forwards := F + p.forwards
        responses := R + p.responses } := by
  have hrights : ∀ i role', Rights .idle p.directory p.current i role' (p.view i) →
      Rights t { p.directory with directoryState := state } p.current i role' (p.view i) := by
    intro i role' hrights
    refine ⟨fun hi => ?_, fun hnot => ?_⟩
    · have howner := (hholds i).mp hi
      obtain ⟨hst, hdata, hx, hreleased, hclean⟩ := hrights.1 howner
      exact ⟨hst, hdata, fun hexcl j hj => hx hexcl j (halone ⟨i, howner⟩ j hj), hreleased, hclean⟩
    · exact (hrights.2 fun hi => hnot ((hholds i).mpr hi)).imp id fun hs =>
        ⟨hs.1, hshares i hs.2.1, hs.2.2⟩
  refine ⟨h.sound.of_eq rfl rfl, htxn, fun i hi => ?_, fun i hi => ?_,
    (Function.forall_update_iff _ fun i role => Node _ _ i role _).mpr ⟨hnode, fun i _ => ?_⟩,
    (Function.forall_update_iff _ fun i role => Rights _ _ _ i role _).mpr ⟨?_, fun i _ => ?_⟩,
    fun hm => h.memory (hmem hm), h.request_taken hr ?_, ?_, ?_, ?_⟩
  · obtain ⟨rfl, rfl⟩ := hreader i hi
    exact Function.update_self _ _ _
  · obtain ⟨rfl, rfl⟩ := hwriter i hi
    exact Function.update_self _ _ _
  · exact (h.node i).congr False.elim False.elim
  · exact (hrights r (w r) (h.rights r)).waits hrole
  · exact hrights i (w i) (h.rights i)
  · rcases hrole with rfl | rfl <;> simp
  · refine (hforwards.add h.forwards fun x _ => id).congr fun x => ?_
    exact or_iff_left id
  · have hreleased : role ≠ .released := by
      rcases hrole with rfl | rfl <;> simp
    refine (hresponses.add h.responses fun x hx hx' => ?_).congr fun x => ?_
    · exact hx'.elim (not_wbAcks (hwb x hx)) id
    · refine Iff.trans (or_congr_right (or_iff_left id)) (or_comm.trans (or_congr_left ?_))
      exact wbAcks_update (by simp [hr]) hreleased x
  · exact h.unblocks.congr fun x => ⟨False.elim, hunblocks x⟩

omit [Inhabited D] [DecidableEq D] in
theorem memoryData_type (e : Directory.Entry ι D) (r : ι) :
    (memoryData e r).type = .DATA ∨
      e.sharers = ∅ ∧ (memoryData e r).type = .DATA_EXCLUSIVE_CLEAN := by
  by_cases hs : e.sharers.card = 0
  · exact .inr ⟨Finset.card_eq_zero.mp hs, if_pos hs⟩
  · exact .inl (if_neg hs)

omit [Inhabited D] [DecidableEq D] in
theorem memoryData_ne (e : Directory.Entry ι D) (r : ι) : (memoryData e r).type ≠ .WB_ACK := by
  rcases memoryData_type e r with hm | ⟨-, hm⟩
  · rw [hm]
    exact CoherenceResponseType.noConfusion
  · rw [hm]
    exact CoherenceResponseType.noConfusion

omit [DecidableEq ι] [Inhabited D] [DecidableEq D] in
theorem carries_to_each (s : Finset ι) (m : RequestMsg ι D) :
    Network.Carries (s.val.map fun j => (j, m)) fun x => ∃ j ∈ s, x = (j, m) :=
  Network.carries_multicast (fun _ _ heq => congrArg Prod.fst heq) s

theorem Inv.take_GETS (h : Inv .idle w p) (hr : w r = .request (requestMsg .GETS r default))
    (hst : (p.view r).state = .IS) (htrigger : (p.view r).trigger = 0) :
    ∃ t, Inv t (Function.update w r .reader)
      (({ p with requests := p.requests.erase (requestMsg .GETS r default) } : Protocol ι D).served
        { answer (requestMsg .GETS r default) p.directory with
          entry := { p.directory with directoryState := reading p.directory }
          popped := true }) := by
  have hnot : r ∉ p.directory.owner := (h.rights r).not_holds (by rw [hst]; rfl)
  by_cases howner : p.directory.owner = ∅
  · have hempty : ∀ i, i ∉ p.directory.owner := fun i => howner ▸ Finset.notMem_empty i
    refine ⟨.read r (.data (memoryData p.directory r)), ?_⟩
    rw [answer, if_pos howner]
    refine h.start hr (.inl rfl) ⟨rfl, hnot, h.memory howner, ?_⟩ (fun i hi => ⟨hi, rfl⟩)
      (fun i hi => hi.elim) ⟨hst, htrigger, rfl⟩ (fun i => ?_) (fun i hi => ?_)
      (fun hne => absurd howner hne.ne_empty) (fun _ => howner) Network.carries_zero
      (Network.carries_singleton _) (fun x hx => ?_) fun m => id
    · exact (memoryData_type _ _).imp id fun hm => ⟨hm.1, .inl hm.2⟩
    · exact ⟨fun hi => hi.2, fun hi => absurd hi (hempty i)⟩
    · rcases memoryData_type p.directory r with hm | ⟨hs, -⟩
      · exact ⟨hm, .inr hi⟩
      · exact absurd hi (hs ▸ Finset.notMem_empty i)
    · rw [show x = _ from hx]
      exact memoryData_ne _ _
  · refine ⟨.read r .forwarded, ?_⟩
    rw [answer, if_neg howner]
    exact h.start hr (.inl rfl) ⟨rfl, hnot, Finset.nonempty_iff_ne_empty.mpr howner⟩
      (fun i hi => ⟨hi, rfl⟩) (fun i hi => hi.elim) ⟨hst, htrigger, rfl⟩ (fun i => Iff.rfl)
      (fun i => id) (fun _ i => id) id (carries_to_each _ _) Network.carries_zero
      (fun x hx => hx.elim) fun m => id

theorem Inv.take_GETX (h : Inv .idle w p) (hr : w r = .request (requestMsg .GETX r default))
    (hst : (p.view r).state.takesAck) (hpending : (p.view r).pending = 0)
    (htrigger : (p.view r).trigger = 0) : ∃ t, Inv t (Function.update w r .writer)
      (({ p with requests := p.requests.erase (requestMsg .GETX r default) } : Protocol ι D).served
        { answer (requestMsg .GETX r default) p.directory with
          entry := { p.directory with directoryState := writing p.directory }
          popped := true
          forwards := invalidations p.directory r +
            (answer (requestMsg .GETX r default) p.directory).forwards }) := by
  have hcount : (p.view r).pending = Directory.acksFor p.directory r -
      ((p.directory.sharers.erase r).card + (∅ : Finset ι).card) := by
    rw [hpending, acksFor_eq, Finset.card_empty]
    omega
  have hsub : p.directory.sharers.erase r ∪ ∅ ⊆ p.directory.sharers.erase r := by
    rw [Finset.union_empty]
  have hshares : ∀ i, i ∈ p.directory.sharers ↔
      i ∈ p.directory.sharers.erase r ∨ i = r ∧ i ∈ p.directory.sharers := by
    intro i
    rw [Finset.mem_erase]
    tauto
  have hinv := carries_to_each (p.directory.sharers.erase r)
    (requestMsg .INV r default : RequestMsg ι D)
  by_cases howner : p.directory.owner = ∅
  · have hempty : ∀ i, i ∉ p.directory.owner := fun i => howner ▸ Finset.notMem_empty i
    refine ⟨.write r (p.directory.sharers.erase r) ∅ (.data (memoryData p.directory r)), ?_⟩
    rw [answer, if_pos howner]
    refine h.start hr (.inr rfl)
      ⟨rfl, Finset.disjoint_empty_right _, hsub, h.memory howner, rfl, ?_⟩ (fun i hi => hi.elim)
      (fun i hi => ⟨hi, rfl⟩) ⟨hst, hcount, htrigger, rfl⟩ (fun i => ?_) (fun i hi => ?_)
      (fun hne => absurd howner hne.ne_empty) False.elim ?_
      ((Network.carries_singleton _).congr fun x => ?_) (fun x hx => ?_) fun m => id
    · exact (memoryData_type _ _).imp id And.right
    · exact ⟨False.elim, fun hi => absurd hi (hempty i)⟩
    · exact (hshares i).mp hi
    · rw [Multiset.add_zero]
      exact hinv
    · exact (or_iff_left (by simp)).symm
    · rcases hx with rfl | ⟨j, hj, -⟩
      · exact memoryData_ne _ _
      · exact absurd hj (Finset.notMem_empty j)
  · refine ⟨.write r (p.directory.sharers.erase r) ∅ .forwarded, ?_⟩
    rw [answer, if_neg howner]
    refine h.start hr (.inr rfl)
      ⟨rfl, Finset.disjoint_empty_right _, hsub, Finset.nonempty_iff_ne_empty.mpr howner⟩
      (fun i hi => hi.elim) (fun i hi => ⟨hi, rfl⟩) ⟨hst, hcount, htrigger, rfl⟩ (fun i => Iff.rfl)
      (fun i => (hshares i).mp) (fun _ i => (hshares i).mpr) False.elim ?_
      (Network.carries_zero.congr fun x => ?_) (fun x hx => ?_) fun m => id
    · refine (hinv.add (carries_to_each _ _) ?_).congr fun x => or_comm
      rintro x ⟨j, -, rfl⟩ ⟨q, -, heq⟩
      cases congrArg (fun x => x.2.type) heq
    · refine ⟨False.elim, ?_⟩
      rintro ⟨j, hj, -⟩
      exact Finset.notMem_empty j hj
    · obtain ⟨j, hj, -⟩ := hx
      exact absurd hj (Finset.notMem_empty j)

/-- The directory answers a writeback, of the owner or not. -/
theorem Inv.released {e : Directory.Entry ι D} (h : Inv .idle w p) (hr : w r = .request m)
    (hst : (p.view r).state = .II) (hsound : Sound e) (hrest : e.directoryState = atRest e)
    (howner : ∀ i, i ∈ e.owner ↔ i ∈ p.directory.owner ∧ i ≠ r)
    (hsharers : e.sharers = p.directory.sharers)
    (hdata : e.owner ≠ ∅ → e.dataBlk = p.directory.dataBlk)
    (hmem : e.owner = ∅ → e.dataBlk = p.current) :
    Inv .idle (Function.update w r .released)
      { p with
        directory := e
        requests := p.requests.erase m
        forwards := 0 + p.forwards
        responses := {(r, wbAck r)} + p.responses } := by
  refine ⟨hsound, hrest, fun i hi => hi.elim, fun i hi => hi.elim,
    (Function.forall_update_iff _ fun i role => Node _ _ i role _).mpr ⟨hst, fun i _ => ?_⟩,
    (Function.forall_update_iff _ fun i role => Rights _ _ _ i role _).mpr ⟨?_, fun i hi => ?_⟩,
    hmem, h.request_taken hr (by simp), ?_, ?_, h.unblocks⟩
  · exact (h.node i).congr False.elim False.elim
  · refine .blind (fun hi => ((howner r).mp hi).2 rfl) ?_
    rw [hst]
    rfl
  · refine ⟨fun hi' => ?_, fun hnot => ?_⟩
    · obtain ⟨hst', hd, hx, hreleased, hclean⟩ := (h.rights i).1 ((howner i).mp hi').1
      refine ⟨hst', hd, fun hexcl j hj => hx hexcl j ?_, hreleased, fun hc => ?_⟩
      · rwa [Txn.shares, ← hsharers]
      · rw [hdata (Finset.ne_empty_of_mem hi')]
        exact hclean hc
    · have hnot' : ¬ Txn.idle.holds p.directory i := fun hi' => hnot ((howner i).mpr ⟨hi', hi⟩)
      refine ((h.rights i).2 hnot').imp id fun hs => ⟨hs.1, ?_, hs.2.2⟩
      have hshares := hs.2.1
      rwa [Txn.shares, hsharers]
  · rw [Multiset.zero_add]
    exact h.forwards
  · refine (h.responses.send (m := (r, wbAck r)) ?_).congr fun x => ?_
    · rintro (⟨i, hi, heq⟩ | hx)
      · obtain rfl := (Prod.mk.inj heq).1
        cases hr.symm.trans hi
      · exact hx
    constructor
    · rintro (rfl | ⟨i, hi, rfl⟩ | hx)
      · exact .inl ⟨r, Function.update_self _ _ _, rfl⟩
      · refine .inl ⟨i, ?_, rfl⟩
        rw [Function.update_of_ne, hi]
        rintro rfl
        cases hr.symm.trans hi
      · exact hx.elim
    · rintro (⟨i, hi, rfl⟩ | hx)
      · by_cases hir : i = r
        · exact .inl (hir ▸ rfl)
        · rw [Function.update_of_ne hir] at hi
          exact .inr (.inl ⟨i, hi, rfl⟩)
      · exact hx.elim

/-- A request comes to the directory at rest. -/
theorem Inv.take (h : Inv .idle w p) (hm : m ∈ p.requests) : ∃ event x w' t',
    Directory.requestQueue p.directory m = some event ∧
    Directory.doTransition event { inMsg := .request m, entry := p.directory } = some x ∧
    x.popped ∧ Inv t' w' (({ p with requests := p.requests.erase m } : Protocol ι D).served x) := by
  obtain ⟨r, hr⟩ := h.requests.mem hm
  have hnode := h.node r
  rw [hr] at hnode
  obtain ⟨htrigger, ⟨hst, rfl⟩ | ⟨hst, rfl, hpending⟩ | ⟨hst, hput⟩⟩ := hnode
  · obtain ⟨t', hinv⟩ := h.take_GETS hr hst htrigger
    exact ⟨_, _, _, t', rfl, Protocol.take_GETS h.sound h.txn, rfl, hinv⟩
  · obtain ⟨t', hinv⟩ := h.take_GETX hr hst hpending htrigger
    exact ⟨_, _, _, t', rfl, Protocol.take_GETX h.sound h.txn, rfl, hinv⟩
  · obtain rfl : m.requestor = r := by rcases hput with rfl | rfl <;> rfl
    have htype : m.type = .PUT_CLEAN ∨ m.type = .PUT_DIRTY :=
      hput.imp (congrArg RequestMsg.type) (congrArg RequestMsg.type)
    by_cases howner : m.requestor ∈ p.directory.owner
    · have hold := (h.rights m.requestor).1 howner
      have hdata : m.dataBlk = p.current := by
        rw [← hold.data]
        exact hput.elim (congrArg RequestMsg.dataBlk) (congrArg RequestMsg.dataBlk)
      have hclean : m.type = .PUT_CLEAN ∧ p.directory.dataBlk = m.dataBlk ∨
          m.type = .PUT_DIRTY := by
        rcases hput with hput | hput
        · refine .inl ⟨congrArg RequestMsg.type hput, hdata ▸ hold.clean ?_⟩
          exact .inr (.inr (hr.trans (congrArg Role.request hput)))
        · exact .inr (congrArg RequestMsg.type hput)
      obtain ⟨event, he, hdo⟩ := take_PUT h.txn howner hclean
      refine ⟨event, _, _, _, he, hdo, rfl,
        h.released hr hst ⟨fun i hi => ?_, fun i hi => ?_⟩ rfl (fun i => ?_) rfl
          (fun hne => absurd rfl hne) fun _ => hdata⟩
      · exact absurd hi (Finset.notMem_empty i)
      · exact absurd hi (Finset.notMem_empty i)
      · refine iff_of_false (Finset.notMem_empty i) ?_
        rintro ⟨hi, hne⟩
        exact hne (h.sound.owner_eq howner hi)
    · obtain ⟨he, hdo⟩ := take_Stale_PUT h.sound h.txn howner htype
      refine ⟨_, _, _, _, he, hdo, rfl, h.released hr hst h.sound h.txn (fun i => ?_) rfl
        (fun _ => rfl) h.memory⟩
      refine (and_iff_left_of_imp ?_).symm
      rintro hi rfl
      exact howner hi

omit [Inhabited D] [DecidableEq D] in
theorem TxnOk.rests_or_busy (h : TxnOk t e current) : t = .idle ∨ isBusy e := by
  cases t with
  | idle => exact .inl rfl
  | read r stage => exact .inr (.inl h.1)
  | write r V A stage => exact .inr (.inr h.1)

omit [DecidableEq D] in
theorem Node.event (h : Node t e i (.request m) v) (e' : Directory.Entry ι D) :
    ∃ event, Directory.requestQueue e' m = some event := by
  rcases h.2 with ⟨-, rfl⟩ | ⟨-, rfl, -⟩ | ⟨-, rfl | rfl⟩
  · exact ⟨_, rfl⟩
  · exact ⟨_, rfl⟩
  · by_cases hi : i ∈ e'.owner
    · exact ⟨_, if_pos hi⟩
    · exact ⟨_, if_neg hi⟩
  · by_cases hi : i ∈ e'.owner
    · exact ⟨_, if_pos hi⟩
    · exact ⟨_, if_neg hi⟩

/-- A request comes to the directory, which takes it or lets it wait. -/
theorem Inv.request (h : Inv t w p) (hm : m ∈ p.requests) : ∃ event x,
    Directory.requestQueue p.directory m = some event ∧
    Directory.doTransition event { inMsg := .request m, entry := p.directory } = some x ∧
    ∃ t' w', Inv t' w' (({ p with requests :=
      if x.popped then p.requests.erase m else p.requests } : Protocol ι D).served x) := by
  rcases h.txn.rests_or_busy with rfl | hbusy
  · obtain ⟨event, x, w', t', he, hdo, hpopped, hinv⟩ := h.take hm
    refine ⟨event, x, he, hdo, t', w', ?_⟩
    rwa [if_pos hpopped]
  · obtain ⟨event, he⟩ : ∃ event, Directory.requestQueue p.directory m = some event := by
      obtain ⟨r, hr⟩ := h.requests.mem hm
      have hnode := h.node r
      rw [hr] at hnode
      exact hnode.event _
    refine ⟨event, _, he, recycle h.sound hbusy he, t, w, ?_⟩
    have hsame : (({ p with requests := p.requests } : Protocol ι D).served
        { inMsg := .request m, entry := p.directory }) = p := by
      simp [served]
    rw [if_neg Bool.false_ne_true, hsame]
    exact h

/-- The request is over. -/
theorem Inv.finish {e : Directory.Entry ι D} {m : ResponseMsg ι D} (h : Inv t w p)
    (hsound : Sound e) (hrest : e.directoryState = atRest e)
    (hholds : ∀ i, i ∈ e.owner ↔ t.holds p.directory i)
    (hshares : ∀ i, i ∈ e.sharers ↔ t.shares p.directory i)
    (hdata : e.dataBlk = p.directory.dataBlk) (hmem : e.owner = ∅ → t.atMemory p.directory)
    (hreads : ∀ i, ¬ t.reads i) (hwrites : ∀ i, ¬ t.writes i)
    (hforwards : ∀ x, ¬ t.forwards p.directory x) (hresponses : ∀ x, ¬ t.responses x)
    (hone : ∀ x, t.unblocks x → x = m) :
    Inv .idle w
      { p with
        directory := e
        forwards := 0 + p.forwards
        responses := 0 + p.responses
        unblocks := p.unblocks.erase m } := by
  refine ⟨hsound, hrest, fun i hi => hi.elim, fun i hi => hi.elim,
    fun i => (h.node i).congr (fun hi => absurd hi (hreads i)) fun hi => absurd hi (hwrites i),
    fun i => (h.rights i).congr (hholds i) hdata (fun hnone j hj => hnone j ((hshares j).mp hj))
      fun _ => (hshares i).mpr,
    fun hm => hdata.trans (h.memory (hmem hm)), h.requests, ?_, ?_, ?_⟩
  · rw [Multiset.zero_add]
    exact h.forwards.congr fun x => ⟨hforwards x, False.elim⟩
  · rw [Multiset.zero_add p.responses]
    exact h.responses.congr fun x => or_congr_right ⟨hresponses x, False.elim⟩
  · exact (h.unblocks.receive m).congr fun x => ⟨fun hx => hx.2 (hone x hx.1), False.elim⟩

/-- The unblock comes to the directory. -/
theorem Inv.unblock (h : Inv t w p) {m : ResponseMsg ι D} (hm : m ∈ p.unblocks) : ∃ event x,
    Directory.unblockNetwork m = some event ∧
    Directory.doTransition event { inMsg := .unblock m, entry := p.directory } = some x ∧
    x.popped ∧ x.forwards = 0 ∧ x.responses = 0 ∧
    Inv .idle w (({ p with unblocks := p.unblocks.erase m } : Protocol ι D).served x) := by
  have hown : ∀ r : ι, Sound { p.directory with
      directoryState := atRest { p.directory with sharers := ∅, owner := {r} }
      sharers := ∅
      owner := {r} } := by
    refine fun r => ⟨fun i hi => ?_, fun i _ => Finset.notMem_empty i⟩
    rw [Finset.mem_singleton.mp hi]
  have hunblock := h.unblocks.mem hm
  cases t with
  | idle => exact hunblock.elim
  | read r stage =>
      cases stage with
      | forwarded => exact hunblock.elim
      | data m => exact hunblock.elim
      | done exclusive =>
          obtain rfl := hunblock
          obtain ⟨hst, hr, hs⟩ := h.txn
          cases exclusive with
          | false =>
              refine ⟨_, _, rfl, take_Unblock h.sound hst hr, rfl, rfl, rfl,
                h.finish ⟨h.sound.one, fun i hi => ?_⟩ rfl (fun i => Iff.rfl)
                  (fun i => Finset.mem_insert) rfl id (fun i => id) (fun i => id) (fun x => id)
                  (fun x => id) fun x => id⟩
              rw [Finset.mem_insert, not_or]
              exact ⟨fun heq => hr (heq ▸ hi), h.sound.apart i hi⟩
          | true =>
              exact ⟨_, _, rfl, take_Exclusive_Unblock (.inl ⟨hst, hs rfl⟩), rfl, rfl, rfl,
                h.finish (hown r) rfl (fun i => Finset.mem_singleton)
                  (fun i => iff_of_false (Finset.notMem_empty i) id) rfl
                  (fun he => absurd he (Finset.singleton_ne_empty r)) (fun i => id) (fun i => id)
                  (fun x => id) (fun x => id) fun x => id⟩
  | write r V A stage =>
      cases stage with
      | done =>
          obtain rfl := hunblock
          obtain ⟨hst, -, -, rfl, rfl⟩ := h.txn
          have hnone : ∀ {α : Type} {x : α} {f : ι → α}, ¬ ∃ j ∈ (∅ : Finset ι), x = f j := by
            rintro α x f ⟨j, hj, -⟩
            exact Finset.notMem_empty j hj
          exact ⟨_, _, rfl, take_Exclusive_Unblock (.inr hst), rfl, rfl, rfl,
            h.finish (hown r) rfl (fun i => Finset.mem_singleton)
              (fun i => iff_of_false (Finset.notMem_empty i) id) rfl
              (fun he => absurd he (Finset.singleton_ne_empty r)) (fun i => id) (fun i => id)
              (fun x => hnone) (fun x => hnone) fun x => id⟩
      | _ => exact hunblock.elim

end Protocol
end FeS2.Ruby
