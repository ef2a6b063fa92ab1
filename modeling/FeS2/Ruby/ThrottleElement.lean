import FeS2.Ruby.NetworkElement
import FeS2.Ruby.ThrottleBandwidth

/-!
The throttle as an element of the network. It schedules itself when it has used up the bandwidth,
and only then; so it sleeps on work when it has bandwidth left and an output buffer is full.
-/

namespace FeS2.Ruby
open FeS2.Common EventSystem

namespace HeapBuffer
variable {α : Type}

/-- The buffer without the first `k` messages, as far as they have arrived. -/
def beyond (now : Nat) : Nat → HeapBuffer α → HeapBuffer α
  | 0, b => b
  | k + 1, b =>
      match b.dequeue now with
      | none => b
      | some r => beyond now k r.2

end HeapBuffer

namespace Throttle
variable {α : Type} {p : ThrottleParams α} {now v : Nat} {s s' : Throttle α}

/-- How many messages the output buffer has room for, or more than there are. -/
def slots (p : ThrottleParams α) (v : Nat) (s : Throttle α) : Nat :=
  match p.m_max_size v with
  | none => (s.m_in v).m_prio_heap.size + 1
  | some size => (size - (s.m_out v).m_size).toNat

/-- What the first `k` messages cost, as far as they have arrived. -/
def cost (p : ThrottleParams α) (now : Nat) : Nat → HeapBuffer α → Nat
  | 0, _ => 0
  | k + 1, b =>
      match b.dequeue now with
      | none => 0
      | some r => p.network_message_to_size r.1.m_msgptr + cost p now k r.2

/-- What a virtual network can be charged for in this cycle: what is left of the message before,
and the messages for which there is room. -/
def demand (p : ThrottleParams α) (now v : Nat) (s : Throttle α) : Nat :=
  if s.slots p v = 0 then 0
  else s.m_units_remaining v + cost p now (s.slots p v) (s.m_in v)

/-- More has arrived than there is room for. -/
def Blocked (p : ThrottleParams α) (now v : Nat) (s : Throttle α) : Prop :=
  if s.slots p v = 0 then s.Waiting now v
  else ((s.m_in v).beyond now (s.slots p v)).isReady now = true

/-- The bandwidth is not enough for what can be charged, or there is room for all that has
arrived. -/
def RunsOn (p : ThrottleParams α) (now : Nat) (s : Throttle α) : Prop :=
  p.getLinkBandwidth ≤ ∑ v ∈ Finset.range p.m_vnets, s.demand p now v ∨
    ∀ v < p.m_vnets, ¬ s.Blocked p now v

instance : Decidable (s.Blocked p now v) :=
  inferInstanceAs (Decidable (if s.slots p v = 0 then s.Waiting now v
    else ((s.m_in v).beyond now (s.slots p v)).isReady now = true))

instance : Decidable (s.RunsOn p now) :=
  inferInstanceAs (Decidable
    (p.getLinkBandwidth ≤ ∑ v ∈ Finset.range p.m_vnets, s.demand p now v ∨
      ∀ v < p.m_vnets, ¬ s.Blocked p now v))

theorem slots_pos : (s.m_out v).areNSlotsAvailable 1 (p.m_max_size v) = true ↔
    0 < s.slots p v := by
  unfold HeapBuffer.areNSlotsAvailable slots
  cases p.m_max_size v with
  | none => exact iff_of_true rfl (Nat.succ_pos _)
  | some size =>
      dsimp only
      rw [decide_eq_true_iff]
      omega

theorem cost_idle {b : HeapBuffer α} (h : b.isReady now = false) (k : Nat) :
    cost p now k b = 0 := by
  cases k with
  | zero => rfl
  | succ k => rw [cost, HeapBuffer.dequeue_eq_none.mpr h]

/-- Nothing can be charged where the loop ends. -/
theorem demand_end (h : ¬ (s.Waiting now v ∧ 0 < s.slots p v)) :
    s.demand p now v = 0 ∧ (s.Waiting now v → s.Blocked p now v) := by
  rw [demand, Blocked]
  by_cases hslots : s.slots p v = 0
  · rw [if_pos hslots, if_pos hslots]
    exact ⟨rfl, id⟩
  · rw [if_neg hslots]
    have hidle : ¬ s.Waiting now v := fun hwait => h ⟨hwait, Nat.pos_of_ne_zero hslots⟩
    have hnot := not_or.mp hidle
    rw [Nat.eq_zero_of_not_pos hnot.2, cost_idle (Bool.not_eq_true _ ▸ hnot.1)]
    exact ⟨rfl, fun hwait => absurd hwait hidle⟩

theorem slots_charge (bw : Nat) : (s.charge v bw).slots p v = s.slots p v := rfl

/-- What one turn of the loop charges is taken off the demand, as long as bandwidth is left. -/
theorem demand_turn {bw : Nat} (hwait : s.Waiting now v) (hroom : 0 < s.slots p v)
    (hnext : s.moveNext p now v = some s') (hleft : 0 < bw - s'.m_units_remaining v) :
    bw - s'.m_units_remaining v + s.demand p now v = bw + (s'.charge v bw).demand p now v ∧
      ((s'.charge v bw).Blocked p now v → s.Blocked p now v) := by
  have hpaid : (s'.charge v bw).m_units_remaining v = 0 := by
    rw [charge]
    dsimp only
    rw [Function.update_self]
    omega
  obtain ⟨rfl, hidle⟩ | ⟨hzero, node, b, out, hdeq, henq, rfl⟩ := moveNext_cases hnext
  · have hunits : 0 < s'.m_units_remaining v := by
      cases hidle with
      | inl hunits => exact hunits
      | inr hnot => exact hwait.resolve_left (hnot ▸ Bool.false_ne_true)
    have hne : s'.slots p v ≠ 0 := hroom.ne'
    rw [demand, demand, hpaid, slots_charge, if_neg hne, if_neg hne, Blocked, Blocked,
      slots_charge, if_neg hne, if_neg hne]
    refine ⟨?_, id⟩
    rw [charge]
    dsimp only
    omega
  · obtain ⟨-, -, -, hsize⟩ := HeapBuffer.dequeue_spec hdeq
    obtain ⟨-, -, -, hout⟩ := HeapBuffer.enqueue_spec henq
    dsimp only at hleft
    rw [Function.update_self] at hleft
    generalize ht : charge v bw _ = t at hpaid ⊢
    have hin : t.m_in v = b := by
      rw [← ht]
      exact Function.update_self v b s.m_in
    have hslots : s.slots p v = t.slots p v + 1 := by
      have houtv : t.m_out v = out := by
        rw [← ht]
        exact Function.update_self v out s.m_out
      unfold slots at hroom ⊢
      rw [hin, houtv, hout]
      cases hmax : p.m_max_size v with
      | none => exact congrArg (· + 1) hsize
      | some size =>
          rw [hmax] at hroom
          dsimp only at hroom ⊢
          omega
    have hcost : s.demand p now v =
        p.network_message_to_size node.m_msgptr + cost p now (t.slots p v) b := by
      rw [demand, if_neg hroom.ne', hzero, Nat.zero_add, hslots, cost, hdeq]
    have hrest : t.demand p now v = cost p now (t.slots p v) b := by
      rw [demand, hpaid, hin, Nat.zero_add]
      split
      · rename_i hnone
        rw [hnone, cost]
      · rfl
    refine ⟨?_, ?_⟩
    · dsimp only
      rw [Function.update_self, hcost, hrest]
      omega
    · rw [Blocked, Blocked, if_neg hroom.ne', hslots, HeapBuffer.beyond, hdeq, hin]
      split
      · rename_i hnone
        rw [hnone, Waiting, hin, hpaid]
        exact fun hwaiting => hwaiting.resolve_right (Nat.lt_irrefl 0)
      · exact id

/-- What the loop leaves of the bandwidth is the rest over the demand. -/
theorem transfer_demand {bw bw' : Nat} (h : s.transfer p now v bw = some (bw', s'))
    (hleft : 0 < bw') :
    bw' + s.demand p now v = bw ∧ (s'.Waiting now v → s.Blocked p now v) := by
  have hinv := transfer_invariant (I := fun bw1 t => 0 < bw1 →
    bw1 + s.demand p now v = bw + t.demand p now v ∧ (t.Blocked p now v → s.Blocked p now v))
    (fun bw1 t t' hbw hwait hroom hnext ht hleft => by
      have ⟨hsum, hblocked⟩ := ht (by omega)
      have ⟨hturn, hblocked'⟩ := demand_turn hwait (slots_pos.mp hroom) hnext hleft
      exact ⟨by omega, hblocked ∘ hblocked'⟩)
    (fun _ => ⟨rfl, id⟩) h
  obtain ⟨hend, hloop⟩ := hinv
  obtain ⟨hsum, hblocked⟩ := hend hleft
  obtain ⟨hzero, hwaiting⟩ : s'.demand p now v = 0 ∧ (s'.Waiting now v → s'.Blocked p now v) :=
    demand_end fun hboth => hloop ⟨hleft, hboth.1, slots_pos.mpr hboth.2⟩
  exact ⟨by omega, hblocked ∘ hwaiting⟩

theorem Untouched.demand (h : Untouched v s s') : s'.demand p now v = s.demand p now v ∧
    (s'.Blocked p now v ↔ s.Blocked p now v) := by
  have hslots : s'.slots p v = s.slots p v := by
    unfold slots
    rw [h.input, h.output]
  rw [Throttle.demand, Throttle.demand, Blocked, Blocked, hslots, h.units, h.input, h.waiting]
  exact ⟨rfl, Iff.rfl⟩

/-- The virtual networks that have their turn in the next `n` turns. -/
def upcoming (p : ThrottleParams α) (n : Nat) (s : Throttle α) : Finset Nat :=
  (Finset.range p.m_vnets).filter fun v => s.ahead p v < n

theorem upcoming_turn {n : Nat} (hn : n + 1 ≤ p.m_vnets) (hlast : s.m_last_vnet < p.m_vnets)
    (hsame : s'.m_last_vnet = (s.rotate p).m_last_vnet) :
    s.m_last_vnet ∉ s'.upcoming p n ∧
      s.upcoming p (n + 1) = insert s.m_last_vnet (s'.upcoming p n) := by
  have hself : s'.ahead p s.m_last_vnet + 1 = p.m_vnets := by
    rw [ahead, hsame]
    exact RoundRobin.ahead_next_self hlast
  constructor
  · rw [upcoming, Finset.mem_filter]
    omega
  · ext v
    rw [upcoming, upcoming, Finset.mem_filter, Finset.mem_insert, Finset.mem_filter,
      Finset.mem_range]
    by_cases hcur : v = s.m_last_vnet
    · subst hcur
      have hzero : s.ahead p s.m_last_vnet = 0 := RoundRobin.ahead_self _ _
      omega
    · constructor
      · rintro ⟨hv, hahead⟩
        have hturn := ahead_turn hv hlast (Ne.symm hcur) hsame
        exact .inr ⟨hv, by omega⟩
      · intro hor
        obtain ⟨hv, hahead⟩ := hor.resolve_left hcur
        have hturn := ahead_turn hv hlast (Ne.symm hcur) hsame
        exact ⟨hv, by omega⟩

/-- What the turns leave of the bandwidth is the rest over all demands. -/
theorem visit_demand {n bw bw' : Nat} (hn : n ≤ p.m_vnets)
    (h : visit p now n bw s = some (bw', s')) (hleft : 0 < bw')
    (hlast : s.m_last_vnet < p.m_vnets) :
    bw' + ∑ v ∈ s.upcoming p n, s.demand p now v = bw ∧
      ∀ v ∈ s.upcoming p n, s'.Waiting now v → s.Blocked p now v := by
  induction n generalizing bw s with
  | zero =>
      have hnone : s.upcoming p 0 = ∅ := Finset.filter_false_of_mem fun _ _ => Nat.not_lt_zero _
      cases h
      rw [hnone, Finset.sum_empty]
      exact ⟨rfl, fun v hv => absurd hv (Finset.notMem_empty v)⟩
  | succ n ih =>
      rw [visit] at h
      split at h
      · rename_i hzero
        cases h
        omega
      · rw [Option.bind_eq_some_iff] at h
        obtain ⟨⟨bw1, s1⟩, hstep, hrest⟩ := h
        obtain ⟨hsame, -, hother⟩ := transfer_progress hstep
        have hpos : 0 < p.m_vnets := Nat.zero_lt_of_lt hlast
        have hlast1 : s1.m_last_vnet < p.m_vnets := hsame ▸ RoundRobin.next_lt hpos _
        obtain ⟨hsum, hblocked⟩ := ih (s := s1) (by omega) hrest hlast1
        obtain ⟨hnot, hturn⟩ := upcoming_turn hn hlast hsame
        obtain ⟨hcost, hcur⟩ := transfer_demand hstep (visit_left hrest hleft)
        have hkeep : ∀ v ∈ s1.upcoming p n, Untouched v s s1 := fun v hv =>
          (untouched_rotate p v s).trans (hother v fun heq => hnot (heq ▸ hv))
        have hdemands : ∑ v ∈ s1.upcoming p n, s1.demand p now v =
            ∑ v ∈ s1.upcoming p n, s.demand p now v :=
          Finset.sum_congr rfl fun v hv => (hkeep v hv).demand.1
        have hself : (s.rotate p).demand p now s.m_last_vnet = s.demand p now s.m_last_vnet :=
          (untouched_rotate p _ s).demand.1
        rw [hturn, Finset.sum_insert hnot]
        refine ⟨by omega, fun v hv hwait => ?_⟩
        cases Finset.mem_insert.mp hv with
        | inl heq =>
            subst heq
            refine (untouched_rotate p _ s).demand.2.mp (hcur ?_)
            -- a virtual network that waits at the end waited after its turn
            by_contra hidle
            exact visit_idle hidle hrest hwait
        | inr hv => exact (hkeep v hv).demand.2.mp (hblocked v hv hwait)

theorem RunsOn.wakeup {bw' : Nat} (h : s.RunsOn p now) (hlast : 0 < p.m_vnets →
    s.m_last_vnet < p.m_vnets) (hwake : s.wakeup p now = some (bw', s'))
    (hwait : ∃ v < p.m_vnets, s'.Waiting now v) : bw' = 0 := by
  obtain ⟨v, hv, hwait⟩ := hwait
  have hall : s.upcoming p p.m_vnets = Finset.range p.m_vnets :=
    Finset.filter_true_of_mem fun u hu => RoundRobin.ahead_lt (Finset.mem_range.mp hu)
  by_contra hne
  have hleft : 0 < bw' := Nat.pos_of_ne_zero hne
  obtain ⟨hsum, hblocked⟩ := visit_demand (Nat.le_refl _) hwake hleft (hlast (Nat.zero_lt_of_lt hv))
  rw [hall] at hsum hblocked
  cases h with
  | inl henough => omega
  | inr hroom => exact hroom v hv (hblocked v (Finset.mem_range.mpr hv) hwait)

/-! The element -/

/-- A throttle whose next virtual network is one of its own. -/
structure InTurn (p : ThrottleParams α) where
  throttle : Throttle α
  turn : 0 < p.m_vnets → throttle.m_last_vnet < p.m_vnets

theorem wakeup_last {bw' : Nat} (hlast : 0 < p.m_vnets → s.m_last_vnet < p.m_vnets)
    (hwake : s.wakeup p now = some (bw', s')) :
    0 < p.m_vnets → s'.m_last_vnet < p.m_vnets := by
  refine visit_invariant (I := fun _ t => 0 < p.m_vnets → t.m_last_vnet < p.m_vnets)
    (fun _ t _ t' _ _ hstep hpos => ?_) hlast hwake
  exact (transfer_progress hstep).1 ▸ RoundRobin.next_lt hpos _

/-- A wake-up takes messages out of the inputs, and puts none in. -/
theorem wakeup_inputs {bw' : Nat} (hord : (s.m_in v).Ordered)
    (hwake : s.wakeup p now = some (bw', s')) : (s'.m_in v).Ordered ∧
      (s'.m_in v).m_prio_heap.contents ⊆ (s.m_in v).m_prio_heap.contents := by
  refine visit_invariant (I := fun _ t => (t.m_in v).Ordered ∧
    (t.m_in v).m_prio_heap.contents ⊆ (s.m_in v).m_prio_heap.contents)
    (fun bw u bw' u' _ hu hstep => ?_) ⟨hord, Multiset.Subset.refl _⟩ hwake
  refine (transfer_invariant (I := fun _ t => (t.m_in v).Ordered ∧
    (t.m_in v).m_prio_heap.contents ⊆ (s.m_in v).m_prio_heap.contents)
    (fun bw t t' _ _ _ hnext ht => ?_) (s := u.rotate p) hu hstep).1
  obtain ⟨rfl, -⟩ | ⟨-, node, b, out, hdeq, -, rfl⟩ := moveNext_cases hnext
  · exact ht
  · obtain ⟨hcontents, hord', -, -⟩ := HeapBuffer.dequeue_spec hdeq
    dsimp only [charge]
    by_cases hv : v = u.m_last_vnet
    · rw [← hv] at hcontents hord' ⊢
      rw [Function.update_self]
      refine ⟨(hord' ht.1).1, fun n hn => ht.2 ?_⟩
      exact hcontents ▸ Multiset.mem_cons_of_mem hn
    · rw [Function.update_of_ne hv]
      exact ht

/-- The wake-up with the decision at its end. -/
def wakeupAgain (p : ThrottleParams α) (now : Nat) (s : InTurn p) : Option (Bool × InTurn p) :=
  match hwake : s.throttle.wakeup p now with
  | none => none
  | some (bw_remaining, s') => some (bw_remaining = 0, ⟨s', wakeup_last s.turn hwake⟩)

theorem wakeupAgain_spec {s s' : InTurn p} {again : Bool}
    (h : wakeupAgain p now s = some (again, s')) :
    ∃ bw', s.throttle.wakeup p now = some (bw', s'.throttle) ∧ again = decide (bw' = 0) := by
  rw [wakeupAgain] at h
  split at h
  · cases h
  · rename_i bw' t hwake
    cases h
    exact ⟨bw', hwake, rfl⟩

def element [Inhabited α] (p : ThrottleParams α) :
    NetworkElement (InTurn p) (Fin p.m_vnets) Nat α where
  start := ⟨init p, id⟩
  m_in s v := s.throttle.m_in v
  owes s := ∃ v < p.m_vnets, 0 < s.throttle.m_units_remaining v
  wakeup := wakeupAgain p
  put s v b := ⟨{ s.throttle with m_in := Function.update s.throttle.m_in v b }, s.turn⟩
  depart now v s := ((s.throttle.m_out v).dequeue now).map fun r =>
    ⟨{ s.throttle with m_out := Function.update s.throttle.m_out v r.2 }, s.turn⟩
  start_empty _ := ⟨fun _ hj hn => absurd (Nat.lt_of_lt_of_le hj hn) (Nat.not_lt_zero 1), rfl⟩
  start_paid := fun ⟨_, _, hunits⟩ => absurd hunits (Nat.lt_irrefl 0)
  put_in s v b := by
    funext u
    by_cases hu : u = v
    · subst hu
      rw [Function.update_self]
      exact Function.update_self _ _ _
    · rw [Function.update_of_ne hu]
      exact Function.update_of_ne (fun heq => hu (Fin.ext heq)) _ _
  put_owes _ _ _ h := h
  depart_in now v s s' h := by
    rw [Option.map_eq_some_iff] at h
    obtain ⟨r, -, rfl⟩ := h
    exact ⟨rfl, id⟩
  wakeup_in now s again s' h hord v := by
    obtain ⟨bw', hwake, -⟩ := wakeupAgain_spec h
    exact wakeup_inputs (hord v) hwake

theorem element_rests [Inhabited α] (p : ThrottleParams α) :
    ElementRun.Rests (element p) fun now s => s.throttle.RunsOn p now := by
  intro now s again s' _ hgood h hwork
  obtain ⟨bw', hwake, rfl⟩ := wakeupAgain_spec h
  refine decide_eq_true (hgood.wakeup s.turn hwake ?_)
  cases hwork with
  | inl hready =>
      obtain ⟨v, hv⟩ := hready
      exact ⟨v, v.isLt, .inl hv⟩
  | inr howes =>
      obtain ⟨v, hv, hunits⟩ := howes
      exact ⟨v, hv, .inr hunits⟩

end Throttle
end FeS2.Ruby
