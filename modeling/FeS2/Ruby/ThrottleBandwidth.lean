import Mathlib.Algebra.BigOperators.Group.Finset.Piecewise
import FeS2.Ruby.Throttle

/-!
Bandwidth, order and fairness of a throttle with unbounded output buffers, over runs in which
messages arrive and leave and the throttle wakes up at any time.
-/

namespace FeS2.Ruby
open FeS2.Common EventSystem

/-- `bw_remaining` is what the last wake-up left. -/
structure LinkRun (α : Type) where
  now : Nat
  throttle : Throttle α
  bw_remaining : Nat

namespace LinkRun
variable {α : Type}

inductive Event (α : Type)
  | tick (cycles : Nat)
  | arrive (v delta : Nat) (random : Option Nat) (msg : α)
  | depart (v : Nat)
  | wakeup

def Event.isWakeup : Event α → Bool
  | .wakeup => true
  | .tick _ | .arrive _ _ _ _ | .depart _ => false

def init [Inhabited α] (p : ThrottleParams α) : LinkRun α :=
  { now := 1, throttle := Throttle.init p, bw_remaining := 0 }

def step (p : ThrottleParams α) (s : LinkRun α) : Event α → Option (LinkRun α)
  | .tick cycles => some { s with now := s.now + cycles }
  | .arrive v delta random msg =>
      ((s.throttle.m_in v).enqueue s.now delta random msg).map fun b =>
        { s with throttle := { s.throttle with m_in := Function.update s.throttle.m_in v b } }
  | .depart v =>
      ((s.throttle.m_out v).dequeue s.now).map fun r =>
        { s with throttle := { s.throttle with m_out := Function.update s.throttle.m_out v r.2 } }
  | .wakeup =>
      (s.throttle.wakeup p s.now).map fun r => { s with throttle := r.2, bw_remaining := r.1 }

end LinkRun

namespace ThrottleParams
variable {α : Type}

/-- What messages cost together. -/
def sizes (p : ThrottleParams α) : List (HeapNode α) → Nat
  | [] => 0
  | n :: rest => p.network_message_to_size n.m_msgptr + p.sizes rest

theorem sizes_concat (p : ThrottleParams α) (l : List (HeapNode α)) (n : HeapNode α) :
    p.sizes (l ++ [n]) = p.sizes l + p.network_message_to_size n.m_msgptr := by
  induction l with
  | nil => exact Nat.add_comm _ _
  | cons m l ih => rw [List.cons_append, sizes, sizes, ih, Nat.add_assoc]

end ThrottleParams

namespace Throttle
variable {α : Type} {p : ThrottleParams α} {now : Nat}

theorem sum_update {m v : Nat} (hv : v < m) (f : Nat → Nat) (b : Nat) :
    (∑ u ∈ Finset.range m, Function.update f v b u) + f v = (∑ u ∈ Finset.range m, f u) + b := by
  have hmem : v ∈ Finset.range m := Finset.mem_range.mpr hv
  rw [Finset.sum_update_of_mem hmem, Finset.sum_eq_sum_sdiff_singleton_add hmem f]
  omega

/-- What is paid for, and the order in which messages were moved. -/
structure Books (p : ThrottleParams α) (now : Nat) (s : Throttle α) : Prop where
  conserved : ∑ v ∈ Finset.range p.m_vnets, p.sizes (s.moved v) =
    s.charged + ∑ v ∈ Finset.range p.m_vnets, s.m_units_remaining v
  inputs : ∀ v, (s.m_in v).Ordered
  order : ∀ v, (s.moved v).Pairwise HeapNode.LessThenEq
  past : ∀ v, ∀ x ∈ s.moved v, x.m_time ≤ now ∧
    ∀ y ∈ (s.m_in v).m_prio_heap.contents, x.LessThenEq y
  turn : 0 < p.m_vnets → s.m_last_vnet < p.m_vnets

theorem Books.moveNext {v : Nat} (hv : v < p.m_vnets) {s s' : Throttle α} (h : s.Books p now)
    (hnext : s.moveNext p now v = some s') : s'.Books p now := by
  obtain ⟨rfl, -⟩ | ⟨hzero, node, b, out, hdeq, -, rfl⟩ := moveNext_cases hnext
  · exact h
  obtain ⟨hcontents, hord, htime, -⟩ := HeapBuffer.dequeue_spec hdeq
  obtain ⟨hordered, hleast⟩ := hord (h.inputs v)
  refine ⟨?_, fun u => ?_, fun u => ?_, fun u => ?_, h.turn⟩
  · have hunits := sum_update hv s.m_units_remaining (p.network_message_to_size node.m_msgptr)
    have hsizes := sum_update hv (fun u => p.sizes (s.moved u)) (p.sizes (s.moved v ++ [node]))
    have hmoved : ∑ u ∈ Finset.range p.m_vnets,
          p.sizes (Function.update s.moved v (s.moved v ++ [node]) u) =
        ∑ u ∈ Finset.range p.m_vnets,
          Function.update (fun u => p.sizes (s.moved u)) v (p.sizes (s.moved v ++ [node])) u :=
      Finset.sum_congr rfl fun u _ => Function.apply_update (fun _ => p.sizes) s.moved v _ u
    have hold := h.conserved
    rw [p.sizes_concat] at hsizes hmoved
    dsimp only
    rw [hmoved]
    omega
  · by_cases hu : u = v
    · subst hu
      simpa only [Function.update_self] using hordered
    · simpa only [Function.update_of_ne hu] using h.inputs u
  · by_cases hu : u = v
    · subst hu
      dsimp only
      rw [Function.update_self]
      refine List.pairwise_append.mpr ⟨h.order u, List.pairwise_singleton _ _, fun x hx y hy => ?_⟩
      rw [List.mem_singleton.mp hy]
      exact (h.past u x hx).2 node (hcontents ▸ Multiset.mem_cons_self _ _)
    · simpa only [Function.update_of_ne hu] using h.order u
  · by_cases hu : u = v
    · subst hu
      dsimp only
      rw [Function.update_self, Function.update_self]
      intro x hx
      cases List.mem_append.mp hx with
      | inl hold =>
          have hpast := h.past u x hold
          exact ⟨hpast.1, fun y hy => hpast.2 y (hcontents ▸ Multiset.mem_cons_of_mem hy)⟩
      | inr hnew =>
          rw [List.mem_singleton.mp hnew]
          exact ⟨htime, fun y hy => hleast y (hcontents ▸ Multiset.mem_cons_of_mem hy)⟩
    · simpa only [Function.update_of_ne hu] using h.past u

theorem Books.charge {v : Nat} (hv : v < p.m_vnets) {s : Throttle α} (h : s.Books p now)
    (bw : Nat) : (s.charge v bw).Books p now := by
  refine ⟨?_, h.inputs, h.order, h.past, h.turn⟩
  have hunits := sum_update hv s.m_units_remaining (s.m_units_remaining v - bw)
  have hold := h.conserved
  dsimp only [Throttle.charge]
  omega

theorem Books.transfer {v : Nat} (hv : v < p.m_vnets) {bw bw' : Nat} {s s' : Throttle α}
    (h : s.Books p now) (htransfer : s.transfer p now v bw = some (bw', s')) :
    s'.Books p now :=
  (transfer_invariant (I := fun _ s => s.Books p now)
    (fun bw _ _ _ _ _ hnext hs => (hs.moveNext hv hnext).charge hv bw) h htransfer).1

theorem Books.wakeup {bw' : Nat} {s s' : Throttle α} (h : s.Books p now)
    (hwake : s.wakeup p now = some (bw', s')) : s'.Books p now := by
  by_cases hm : p.m_vnets = 0
  · rw [Throttle.wakeup, hm] at hwake
    cases hwake
    exact h
  · refine visit_invariant (I := fun _ s => s.Books p now)
      (fun bw s bw' s' _ hs hstep => ?_) h hwake
    have hpos : 0 < p.m_vnets := Nat.pos_of_ne_zero hm
    have hrotated : (s.rotate p).Books p now :=
      ⟨hs.conserved, hs.inputs, hs.order, hs.past, fun _ => RoundRobin.next_lt hpos _⟩
    exact hrotated.transfer (hs.turn hpos) hstep

/-- A wake-up charges the bandwidth that it does not leave. -/
theorem wakeup_charged {bw' : Nat} {s s' : Throttle α}
    (hwake : s.wakeup p now = some (bw', s')) :
    s'.charged + bw' = s.charged + p.getLinkBandwidth := by
  refine visit_invariant (I := fun bw t => t.charged + bw = s.charged + p.getLinkBandwidth)
    (fun bw t bw' t' _ ht hstep => ?_) rfl hwake
  refine (transfer_invariant (I := fun bw t => t.charged + bw = s.charged + p.getLinkBandwidth)
    (fun bw t t' hbw _ _ hnext ht => ?_) (s := t.rotate p) ht hstep).1
  have hsame : t'.charged = t.charged := by
    obtain ⟨rfl, -⟩ | ⟨-, node, b, out, -, -, rfl⟩ := moveNext_cases hnext
    · rfl
    · rfl
  dsimp only [Throttle.charge]
  omega

/-! One virtual network in a wake-up -/

/-- Nothing was moved or charged for the virtual network. -/
structure Untouched (v : Nat) (s s' : Throttle α) : Prop where
  input : s'.m_in v = s.m_in v
  output : s'.m_out v = s.m_out v
  units : s'.m_units_remaining v = s.m_units_remaining v
  served : s'.served v = s.served v

theorem Untouched.refl (v : Nat) (s : Throttle α) : Untouched v s s := ⟨rfl, rfl, rfl, rfl⟩

theorem Untouched.trans {v : Nat} {s s' s'' : Throttle α} (h : Untouched v s s')
    (h' : Untouched v s' s'') : Untouched v s s'' :=
  ⟨h'.input.trans h.input, h'.output.trans h.output, h'.units.trans h.units,
    h'.served.trans h.served⟩

theorem Untouched.waiting {v : Nat} {s s' : Throttle α} (h : Untouched v s s') :
    s'.Waiting now v ↔ s.Waiting now v := by
  rw [Waiting, Waiting, h.input, h.units]

/-- Either nothing was done for the virtual network, or it was served. -/
def Progress (v : Nat) (s s' : Throttle α) : Prop :=
  Untouched v s s' ∨ s.served v < s'.served v

theorem Progress.trans {v : Nat} {s s' s'' : Throttle α} (h : Progress v s s')
    (h' : Progress v s' s'') : Progress v s s'' := by
  cases h with
  | inl hsame =>
      cases h' with
      | inl hsame' => exact .inl (hsame.trans hsame')
      | inr hserved => exact .inr (hsame.served ▸ hserved)
  | inr hserved =>
      cases h' with
      | inl hsame => exact .inr (hsame.served.symm ▸ hserved)
      | inr hserved' => exact .inr (hserved.trans hserved')

theorem moveNext_served {v : Nat} {s s' : Throttle α} (hnext : s.moveNext p now v = some s') :
    s'.served = s.served ∧ s'.m_last_vnet = s.m_last_vnet ∧ ∀ u ≠ v, Untouched u s s' := by
  obtain ⟨rfl, -⟩ | ⟨-, node, b, out, -, -, rfl⟩ := moveNext_cases hnext
  · exact ⟨rfl, rfl, fun u _ => .refl u _⟩
  · exact ⟨rfl, rfl, fun u hu => ⟨Function.update_of_ne hu _ _, Function.update_of_ne hu _ _,
      Function.update_of_ne hu _ _, rfl⟩⟩

/-- One turn of the loop serves the virtual network, and no other. -/
theorem charge_served {v : Nat} (bw : Nat) {s s' : Throttle α}
    (hnext : s.moveNext p now v = some s') :
    s.served v < (s'.charge v bw).served v ∧ (s'.charge v bw).m_last_vnet = s.m_last_vnet ∧
      ∀ u ≠ v, Untouched u s (s'.charge v bw) := by
  obtain ⟨hserved, hlast, hother⟩ := moveNext_served hnext
  have hself : (s'.charge v bw).served v = s.served v + 1 :=
    hserved ▸ Function.update_self v _ s'.served
  refine ⟨hself ▸ Nat.lt_succ_self _, hlast, fun u hu => (hother u hu).trans ⟨rfl, rfl, ?_, ?_⟩⟩
  · exact Function.update_of_ne hu _ _
  · exact Function.update_of_ne hu _ _

theorem transfer_progress {v bw bw' : Nat} {s s' : Throttle α}
    (h : s.transfer p now v bw = some (bw', s')) :
    s'.m_last_vnet = s.m_last_vnet ∧ Progress v s s' ∧ ∀ u ≠ v, Untouched u s s' := by
  refine (transfer_invariant (I := fun _ t => t.m_last_vnet = s.m_last_vnet ∧ Progress v s t ∧
    ∀ u ≠ v, Untouched u s t) (fun bw t t' _ _ _ hnext ht => ?_)
    ⟨rfl, .inl (.refl v s), fun u _ => .refl u s⟩ h).1
  obtain ⟨hserved, hlast, hother⟩ := charge_served bw hnext
  exact ⟨hlast.trans ht.1, ht.2.1.trans (.inr hserved),
    fun u hu => (ht.2.2 u hu).trans (hother u hu)⟩

/-- The loop runs for a virtual network that waits, with an output buffer that has room. -/
theorem transfer_serves {v bw bw' : Nat} {s s' : Throttle α} (hroom : p.m_max_size v = none)
    (hbw : 0 < bw) (hwait : s.Waiting now v) (h : s.transfer p now v bw = some (bw', s')) :
    s.served v < s'.served v := by
  obtain ⟨-, hprogress, -⟩ := transfer_progress h
  cases hprogress with
  | inr hserved => exact hserved
  | inl hsame =>
      -- the first turn serves it, and no later turn takes that back
      rw [transfer, dif_pos ⟨hbw, hwait, by rw [hroom]; rfl⟩] at h
      split at h
      · cases h
      · rename_i t hnext
        have hfirst := (charge_served bw hnext).1
        have hrest := (transfer_progress h).2.1
        cases hrest with
        | inl hsame => exact hsame.served.symm ▸ hfirst
        | inr hserved => exact hfirst.trans hserved

theorem transfer_drains {v bw bw' : Nat} {s s' : Throttle α} (hroom : p.m_max_size v = none)
    (h : s.transfer p now v bw = some (bw', s')) (hbw : 0 < bw') : ¬ s'.Waiting now v := by
  have hend := (transfer_invariant (I := fun _ _ => True) (fun _ _ _ _ _ _ _ _ => trivial)
    trivial h).2
  intro hwait
  exact hend ⟨hbw, hwait, by rw [hroom]; rfl⟩

theorem untouched_rotate (p : ThrottleParams α) (v : Nat) (s : Throttle α) :
    Untouched v s (s.rotate p) := ⟨rfl, rfl, rfl, rfl⟩

/-- A turn is progress for every virtual network. -/
theorem turn_progress {bw bw' : Nat} {s s' : Throttle α}
    (h : transfer p now s.m_last_vnet bw (s.rotate p) = some (bw', s')) (v : Nat) :
    Progress v s s' := by
  obtain ⟨-, hprogress, hother⟩ := transfer_progress h
  refine Progress.trans (.inl (untouched_rotate p v s)) ?_
  by_cases hv : v = s.m_last_vnet
  · exact hv ▸ hprogress
  · exact .inl (hother v hv)

theorem visit_progress {n bw bw' : Nat} {s s' : Throttle α}
    (h : visit p now n bw s = some (bw', s')) (v : Nat) : Progress v s s' := by
  exact visit_invariant (I := fun _ t => Progress v s t)
    (fun _ _ _ _ _ ht hstep => ht.trans (turn_progress hstep v)) (.inl (.refl v s)) h

theorem visit_idle {v n bw bw' : Nat} {s s' : Throttle α} (hidle : ¬ s.Waiting now v)
    (h : visit p now n bw s = some (bw', s')) : ¬ s'.Waiting now v := by
  refine visit_invariant (I := fun _ t => ¬ t.Waiting now v) (fun bw t bw' t' _ ht hstep => ?_)
    hidle h
  have hrotated : ¬ (t.rotate p).Waiting now v := ht
  by_cases hv : v = t.m_last_vnet
  · subst hv
    rw [transfer, dif_neg fun hloop => hrotated hloop.2.1] at hstep
    cases hstep
    exact hrotated
  · have hsame := (transfer_progress hstep).2.2 v hv
    exact fun hwait => hrotated (hsame.waiting.mp hwait)

/-- How many virtual networks have their turn before this one. -/
def ahead (p : ThrottleParams α) (v : Nat) (s : Throttle α) : Nat :=
  RoundRobin.ahead p.m_vnets s.m_last_vnet v

/-- The turn of another virtual network is over. -/
theorem ahead_turn {v : Nat} {s s' : Throttle α} (hv : v < p.m_vnets)
    (hlast : s.m_last_vnet < p.m_vnets) (hne : s.m_last_vnet ≠ v)
    (hsame : s'.m_last_vnet = (s.rotate p).m_last_vnet) : s'.ahead p v + 1 = s.ahead p v := by
  rw [ahead, hsame]
  exact RoundRobin.ahead_next hv hlast hne

/-- What a wake-up leaves was left at every turn of it. -/
theorem visit_left {n bw bw' : Nat} {s s' : Throttle α}
    (h : visit p now n bw s = some (bw', s')) (hbw : 0 < bw') : 0 < bw := by
  cases n with
  | zero =>
      cases h
      exact hbw
  | succ n =>
      rw [visit] at h
      split at h
      · cases h
        exact hbw
      · omega

/-- The bandwidth is used up, or the virtual networks whose turn it was do not wait. -/
theorem visit_drains (hroom : ∀ v, p.m_max_size v = none) {n bw bw' : Nat} {s s' : Throttle α}
    (h : visit p now n bw s = some (bw', s')) (hbw : 0 < bw')
    (hlast : s.m_last_vnet < p.m_vnets) {v : Nat} (hv : v < p.m_vnets) (hahead : s.ahead p v < n) :
    ¬ s'.Waiting now v := by
  induction n generalizing bw s with
  | zero => exact absurd hahead (Nat.not_lt_zero _)
  | succ n ih =>
      rw [visit] at h
      split at h
      · rename_i hzero
        cases h
        omega
      · rw [Option.bind_eq_some_iff] at h
        obtain ⟨⟨bw1, s1⟩, hstep, hrest⟩ := h
        have hpos : 0 < p.m_vnets := Nat.zero_lt_of_lt hv
        obtain ⟨hsame, -, -⟩ := transfer_progress hstep
        have hlast1 : s1.m_last_vnet < p.m_vnets := hsame ▸ RoundRobin.next_lt hpos _
        by_cases hcur : s.m_last_vnet = v
        · subst hcur
          exact visit_idle (transfer_drains (hroom _) hstep (visit_left hrest hbw)) hrest
        · have hturn := ahead_turn hv hlast hcur hsame
          have hlt : s1.ahead p v < n := by omega
          exact ih hrest hlast1 hlt

/-- What a turn does for a virtual network that waits: it is its turn, or it is nearer. -/
theorem turn_step (hroom : ∀ v, p.m_max_size v = none) {bw bw' : Nat} {s s' : Throttle α}
    (h : transfer p now s.m_last_vnet bw (s.rotate p) = some (bw', s')) (hbw : 0 < bw)
    (hlast : s.m_last_vnet < p.m_vnets) {v : Nat} (hv : v < p.m_vnets) (hwait : s.Waiting now v) :
    s.served v < s'.served v ∨ Untouched v s s' ∧ s'.m_last_vnet < p.m_vnets ∧
      s'.ahead p v + 1 = s.ahead p v := by
  have hrotated : (s.rotate p).Waiting now v := hwait
  by_cases hcur : s.m_last_vnet = v
  · subst hcur
    exact .inl (transfer_serves (s := s.rotate p) (hroom _) hbw hrotated h)
  · obtain ⟨hsame, -, hother⟩ := transfer_progress h
    refine .inr ⟨(untouched_rotate p v s).trans (hother v (Ne.symm hcur)), ?_, ?_⟩
    · exact hsame ▸ RoundRobin.next_lt (Nat.zero_lt_of_lt hv) _
    · exact ahead_turn hv hlast hcur hsame

/-- In a wake-up a virtual network that waits is served, or its turn comes nearer. -/
theorem wakeup_turn (hroom : ∀ v, p.m_max_size v = none) {bw' : Nat} {s s' : Throttle α}
    (h : s.wakeup p now = some (bw', s')) (hlast : s.m_last_vnet < p.m_vnets) {v : Nat}
    (hv : v < p.m_vnets) (hwait : s.Waiting now v) :
    s.served v < s'.served v ∨ Untouched v s s' ∧ s'.m_last_vnet < p.m_vnets ∧
      s'.ahead p v < s.ahead p v := by
  obtain ⟨n, hn⟩ : ∃ n, p.m_vnets = n + 1 := Nat.exists_eq_succ_of_ne_zero (Nat.ne_zero_of_lt hv)
  rw [wakeup, hn, visit, if_neg p.bandwidth_pos.ne', Option.bind_eq_some_iff] at h
  obtain ⟨⟨bw1, s1⟩, hfirst, hrest⟩ := h
  -- later turns keep what the first one gave
  refine visit_invariant (I := fun _ t => s.served v < t.served v ∨ Untouched v s t ∧
    t.m_last_vnet < p.m_vnets ∧ t.ahead p v < s.ahead p v) (fun bw t bw' t' hbw ht hstep => ?_) ?_
    hrest
  · cases ht with
    | inl hserved =>
        cases turn_progress hstep v with
        | inl hsame => exact .inl (hsame.served.symm ▸ hserved)
        | inr hmore => exact .inl (hserved.trans hmore)
    | inr hwaits =>
        obtain ⟨hsame, hlast', hahead⟩ := hwaits
        cases turn_step hroom hstep hbw hlast' hv (hsame.waiting.mpr hwait) with
        | inl hserved => exact .inl (hsame.served ▸ hserved)
        | inr hwaits => exact .inr ⟨hsame.trans hwaits.1, hwaits.2.1, by omega⟩
  · cases turn_step hroom hfirst p.bandwidth_pos hlast hv hwait with
    | inl hserved => exact .inl hserved
    | inr hwaits =>
        exact .inr ⟨hwaits.1, hwaits.2.1, Nat.lt_of_lt_of_eq (Nat.lt_succ_self _) hwaits.2.2⟩

theorem books_init [Inhabited α] (p : ThrottleParams α) (now : Nat) :
    (init p).Books p now where
  conserved := Finset.sum_const_zero.trans ((Nat.zero_add _).trans Finset.sum_const_zero).symm
  inputs _ _ hj hn := absurd (Nat.lt_of_lt_of_le hj hn) (Nat.not_lt_zero 1)
  order _ := List.Pairwise.nil
  past _ _ hx := absurd hx List.not_mem_nil
  turn hm := hm

/-- A message that arrives is later than all that were moved. -/
theorem Books.arrive {s : Throttle α} (h : s.Books p now) {v delta : Nat} {random : Option Nat}
    {msg : α} {b : HeapBuffer α} (henq : (s.m_in v).enqueue now delta random msg = some b) :
    Books p now { s with m_in := Function.update s.m_in v b } := by
  obtain ⟨hcontents, hord, hlater, -⟩ := HeapBuffer.enqueue_spec henq
  refine ⟨h.conserved, fun u => ?_, h.order, fun u => ?_, h.turn⟩
  · by_cases hu : u = v
    · subst hu
      simpa only [Function.update_self] using hord (h.inputs u)
    · simpa only [Function.update_of_ne hu] using h.inputs u
  · by_cases hu : u = v
    · subst hu
      dsimp only
      rw [Function.update_self, hcontents]
      intro x hx
      obtain ⟨htime, hbefore⟩ := h.past u x hx
      refine ⟨htime, fun y hy => ?_⟩
      cases Multiset.mem_cons.mp hy with
      | inl hnew =>
          rw [hnew]
          exact HeapNode.lessThenEq_iff.mpr (.inl (htime.trans_lt hlater))
      | inr hold => exact hbefore y hold
    · simpa only [Function.update_of_ne hu] using h.past u

theorem Books.later {s : Throttle α} (h : s.Books p now) {now' : Nat} (hle : now ≤ now') :
    s.Books p now' :=
  ⟨h.conserved, h.inputs, h.order, fun v x hx => ⟨(h.past v x hx).1.trans hle, (h.past v x hx).2⟩,
    h.turn⟩

/-- A virtual network waits on when time goes by and messages arrive. -/
theorem Waiting.keep {s s' : Throttle α} {v now' : Nat} (hin : (s.m_in v).Ordered)
    (hin' : (s'.m_in v).Ordered) (hle : now ≤ now')
    (hsub : (s.m_in v).m_prio_heap.contents ⊆ (s'.m_in v).m_prio_heap.contents)
    (hunits : s'.m_units_remaining v = s.m_units_remaining v) (h : s.Waiting now v) :
    s'.Waiting now' v := by
  rw [Waiting, hin.isReady_iff] at h
  rw [Waiting, hin'.isReady_iff, hunits]
  refine h.imp_left fun harrived => ?_
  obtain ⟨n, hn, htime⟩ := harrived
  exact ⟨n, hsub hn, htime.trans hle⟩

end Throttle

namespace LinkRun
variable {α : Type} {p : ThrottleParams α}

theorem books_step {s s' : LinkRun α} {e : Event α} (h : s.throttle.Books p s.now)
    (hstep : s.step p e = some s') : s'.throttle.Books p s'.now := by
  cases e with
  | tick cycles =>
      cases hstep
      exact h.later (Nat.le_add_right _ _)
  | arrive v delta random msg =>
      rw [step, Option.map_eq_some_iff] at hstep
      obtain ⟨b, henq, rfl⟩ := hstep
      exact h.arrive henq
  | depart v =>
      rw [step, Option.map_eq_some_iff] at hstep
      obtain ⟨r, -, rfl⟩ := hstep
      exact ⟨h.conserved, h.inputs, h.order, h.past, h.turn⟩
  | wakeup =>
      rw [step, Option.map_eq_some_iff] at hstep
      obtain ⟨r, hwake, rfl⟩ := hstep
      exact h.wakeup hwake

theorem books_run {s s' : LinkRun α} {es : List (Event α)} (h : s.throttle.Books p s.now)
    (hrun : run (step p) s es = some s') : s'.throttle.Books p s'.now :=
  run_invariant (C := fun _ _ => True) (fun _ _ _ hs _ hstep => books_step hs hstep) h
    (along_true _ s es) hrun

/-- Every wake-up charges at most the bandwidth. -/
theorem charged_run {s s' : LinkRun α} {es : List (Event α)} (hrun : run (step p) s es = some s') :
    s'.throttle.charged ≤
      s.throttle.charged + es.countP Event.isWakeup * p.getLinkBandwidth := by
  induction es generalizing s with
  | nil =>
      cases hrun
      exact Nat.le_add_right _ _
  | cons e es ih =>
      obtain ⟨s1, hstep, hrest⟩ := run_cons_eq_some.mp hrun
      have hle := ih hrest
      cases e with
      | tick cycles =>
          cases hstep
          rwa [List.countP_cons_of_neg (by simp [Event.isWakeup])]
      | arrive v delta random msg =>
          rw [step, Option.map_eq_some_iff] at hstep
          obtain ⟨b, -, rfl⟩ := hstep
          rwa [List.countP_cons_of_neg (by simp [Event.isWakeup])]
      | depart v =>
          rw [step, Option.map_eq_some_iff] at hstep
          obtain ⟨r, -, rfl⟩ := hstep
          rwa [List.countP_cons_of_neg (by simp [Event.isWakeup])]
      | wakeup =>
          rw [step, Option.map_eq_some_iff] at hstep
          obtain ⟨r, hwake, rfl⟩ := hstep
          have hcharged := Throttle.wakeup_charged hwake
          rw [List.countP_cons_of_pos rfl, Nat.succ_mul]
          dsimp only at hle
          omega

/-- No event takes back that a virtual network was served. -/
theorem served_step {s s' : LinkRun α} {e : Event α} (hstep : s.step p e = some s') (v : Nat) :
    s.throttle.served v ≤ s'.throttle.served v := by
  cases e with
  | tick cycles =>
      cases hstep
      exact Nat.le_refl _
  | arrive v delta random msg =>
      rw [step, Option.map_eq_some_iff] at hstep
      obtain ⟨b, -, rfl⟩ := hstep
      exact Nat.le_refl _
  | depart v =>
      rw [step, Option.map_eq_some_iff] at hstep
      obtain ⟨r, -, rfl⟩ := hstep
      exact Nat.le_refl _
  | wakeup =>
      rw [step, Option.map_eq_some_iff] at hstep
      obtain ⟨r, hwake, rfl⟩ := hstep
      cases Throttle.visit_progress hwake v with
      | inl hsame => exact hsame.served.ge
      | inr hserved => exact hserved.le

/-- An event that is no wake-up leaves a waiting virtual network as it is. -/
theorem waiting_step {s s' : LinkRun α} {e : Event α} (h : s.throttle.Books p s.now)
    (hstep : s.step p e = some s') (hno : e.isWakeup = false) {v : Nat}
    (hwait : s.throttle.Waiting s.now v) :
    s'.throttle.Waiting s'.now v ∧ s'.throttle.m_last_vnet = s.throttle.m_last_vnet := by
  have hbooks := books_step h hstep
  cases e with
  | tick cycles =>
      cases hstep
      exact ⟨hwait.keep (h.inputs v) (hbooks.inputs v) (Nat.le_add_right _ _)
        (Multiset.Subset.refl _) rfl, rfl⟩
  | arrive u delta random msg =>
      rw [step, Option.map_eq_some_iff] at hstep
      obtain ⟨b, henq, rfl⟩ := hstep
      refine ⟨hwait.keep (h.inputs v) (hbooks.inputs v) (Nat.le_refl _) ?_ rfl, rfl⟩
      dsimp only
      by_cases hv : v = u
      · subst hv
        rw [Function.update_self, (HeapBuffer.enqueue_spec henq).1]
        exact Multiset.subset_cons _ _
      · rw [Function.update_of_ne hv]
        exact Multiset.Subset.refl _
  | depart u =>
      rw [step, Option.map_eq_some_iff] at hstep
      obtain ⟨r, -, rfl⟩ := hstep
      exact ⟨hwait, rfl⟩
  | wakeup => cases hno

theorem served_run {s s' : LinkRun α} {es : List (Event α)} (hrun : run (step p) s es = some s')
    (v : Nat) : s.throttle.served v ≤ s'.throttle.served v := by
  induction es generalizing s with
  | nil =>
      cases hrun
      exact Nat.le_refl _
  | cons e es ih =>
      obtain ⟨s1, hstep, hrest⟩ := run_cons_eq_some.mp hrun
      exact (served_step hstep v).trans (ih hrest)

/-- A virtual network that waits is served when its turn has come. -/
theorem served_within (hroom : ∀ v, p.m_max_size v = none) {s s' : LinkRun α}
    {es : List (Event α)} (h : s.throttle.Books p s.now) (hrun : run (step p) s es = some s')
    {v : Nat} (hv : v < p.m_vnets) (hwait : s.throttle.Waiting s.now v)
    (hturns : s.throttle.ahead p v < es.countP Event.isWakeup) :
    s.throttle.served v < s'.throttle.served v := by
  induction es generalizing s with
  | nil => exact absurd hturns (Nat.not_lt_zero _)
  | cons e es ih =>
      obtain ⟨s1, hstep, hrest⟩ := run_cons_eq_some.mp hrun
      have hbooks := books_step h hstep
      cases hwake : e.isWakeup with
      | false =>
          rw [List.countP_cons_of_neg (by simp [hwake])] at hturns
          have ⟨hwait1, hlast⟩ := waiting_step h hstep hwake hwait
          have hahead : s1.throttle.ahead p v = s.throttle.ahead p v := by
            rw [Throttle.ahead, Throttle.ahead, hlast]
          exact (served_step hstep v).trans_lt (ih hbooks hrest hwait1 (hahead ▸ hturns))
      | true =>
          rw [List.countP_cons_of_pos hwake] at hturns
          cases e with
          | tick cycles => cases hwake
          | arrive u delta random msg => cases hwake
          | depart u => cases hwake
          | wakeup =>
              rw [step, Option.map_eq_some_iff] at hstep
              obtain ⟨r, hwakeup, rfl⟩ := hstep
              cases Throttle.wakeup_turn hroom hwakeup (h.turn (Nat.zero_lt_of_lt hv)) hv hwait with
              | inl hserved => exact hserved.trans_le (served_run hrest v)
              | inr hnear =>
                  obtain ⟨hsame, -, hahead⟩ := hnear
                  have hlt := ih hbooks hrest (hsame.waiting.mpr hwait)
                    (by dsimp only; omega)
                  exact hsame.served ▸ hlt

/-- Conservation and order; no wake-up leaves bandwidth while a virtual network waits; from any
state on the bandwidth of the wake-ups is not exceeded, and as many wake-ups as there are virtual
networks serve each one that waits. -/
structure Fair (p : ThrottleParams α) (s : LinkRun α) : Prop where
  conserved : ∑ v ∈ Finset.range p.m_vnets, p.sizes (s.throttle.moved v) =
    s.throttle.charged + ∑ v ∈ Finset.range p.m_vnets, s.throttle.m_units_remaining v
  order : ∀ v, (s.throttle.moved v).Pairwise HeapNode.LessThenEq
  drained : ∀ s', s.step p .wakeup = some s' → 0 < s'.bw_remaining → ∀ v < p.m_vnets,
    (s'.throttle.m_in v).isReady s'.now = false ∧ s'.throttle.m_units_remaining v = 0
  bounded : ∀ es s', run (step p) s es = some s' → s'.throttle.charged ≤
    s.throttle.charged + es.countP Event.isWakeup * p.getLinkBandwidth
  served : ∀ es s', run (step p) s es = some s' → p.m_vnets ≤ es.countP Event.isWakeup →
    ∀ v < p.m_vnets, s.throttle.Waiting s.now v → s.throttle.served v < s'.throttle.served v

theorem fair_throughout [Inhabited α] (hroom : ∀ v, p.m_max_size v = none) (es : List (Event α)) :
    Throughout (step p) (Fair p) (init p) es := by
  intro before _ s hrun
  have hbooks := books_run (Throttle.books_init p 1) hrun
  refine ⟨hbooks.conserved, hbooks.order, fun s' hstep hbw v hv => ?_,
    fun _ _ hmore => charged_run hmore,
    fun fs s' hmore hcount v hv hwait =>
      served_within hroom hbooks hmore hv hwait ((RoundRobin.ahead_lt hv).trans_le hcount)⟩
  rw [step, Option.map_eq_some_iff] at hstep
  obtain ⟨r, hwake, rfl⟩ := hstep
  have hidle := Throttle.visit_drains hroom hwake hbw (hbooks.turn (Nat.zero_lt_of_lt hv)) hv
    (RoundRobin.ahead_lt hv)
  rw [Throttle.Waiting, not_or] at hidle
  exact ⟨Bool.not_eq_true _ ▸ hidle.1, Nat.eq_zero_of_not_pos hidle.2⟩

/-- Two virtual networks, with messages of three times the bandwidth. -/
def twoNetworks : ThrottleParams Bool where
  m_vnets := 2
  getLinkBandwidth := 4
  m_link_latency := 1
  network_message_to_size _ := 12
  m_max_size _ := none
  m_strict_fifo _ := true
  random _ _ := none
  bandwidth_pos := by decide

theorem fair_of_large_messages : Throughout (step twoNetworks) (Fair twoNetworks) (init twoNetworks)
    [.arrive 0 1 none true, .arrive 1 1 none false, .tick 1, .wakeup, .tick 1, .wakeup] :=
  fair_throughout (fun _ => rfl) _

end LinkRun
end FeS2.Ruby
