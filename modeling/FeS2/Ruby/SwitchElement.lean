import FeS2.Ruby.OrderedNetwork
import FeS2.Ruby.ThrottleElement

/-!
The perfect switch as an element of the network. Where it cannot deliver a message it schedules
itself for the next cycle, so it never sleeps on work, whatever the buffers can hold; a throttle
does where its bandwidth is not used up.
-/

namespace FeS2.Ruby
open FeS2.Common EventSystem

/-- `emptiest` is the link order by load, with random ties, and `random` is what the output
buffers draw. -/
structure SwitchParams (μ : Type) where
  m_virtual_networks : Nat
  in_size : Nat
  out_size : Nat
  m_routing_table : Nat → Topology.NetDest
  ADAPTIVE_ROUTING : Bool
  isVNetOrdered : Nat → Bool
  m_max_size : Nat → Nat → Option Nat
  m_strict_fifo : Nat → Bool
  random : Nat → Option Nat
  emptiest : (Nat → Nat → HeapBuffer (NetworkMessage μ)) → Nat → List Nat
  emptiest_perm : ∀ out draws, (emptiest out draws).Perm (List.range out_size)

/-- Input buffers by port and virtual network, output buffers by link and virtual network. -/
structure Switch (μ : Type) where
  m_in : Nat → Nat → HeapBuffer (NetworkMessage μ)
  m_out : Nat → Nat → HeapBuffer (NetworkMessage μ)
  m_round_robin_start : Nat
  m_link_order : List Nat
  /-- How many random numbers have been drawn. -/
  draws : Nat

namespace Switch
variable {μ : Type}

def emptyBuffer [Inhabited μ] (m_strict_fifo : Bool) : HeapBuffer (NetworkMessage μ) :=
  { m_prio_heap := PrioHeap.mk (fun _ => ⟨0, 0, { name := default, destination := ∅ }⟩) 0
    m_msg_counter := 0, m_size := 0, m_strict_fifo := m_strict_fifo, m_last_arrival_time := 0 }

def init [Inhabited μ] (p : SwitchParams μ) : Switch μ where
  m_in _ v := emptyBuffer (p.m_strict_fifo v)
  m_out _ v := emptyBuffer (p.m_strict_fifo v)
  m_round_robin_start := 0
  m_link_order := List.range p.out_size
  draws := 0

/-- The order in which the output links are looked at. -/
def linkOrder (p : SwitchParams μ) (vnet : Nat) (s : Switch μ) : List Nat :=
  if p.ADAPTIVE_ROUTING then
    if p.isVNetOrdered vnet then List.range p.out_size else p.emptiest s.m_out s.draws
  else s.m_link_order

/-- A copy of the message for one link. -/
def send (p : SwitchParams μ) (now vnet : Nat) (msg : NetworkMessage μ) (s : Switch μ)
    (out : Nat × Topology.NetDest) : Option (Switch μ) :=
  ((s.m_out out.1 vnet).enqueue now 1 (p.random s.draws)
    { msg with internalDest := some out.2 }).map fun b =>
      { s with
        m_out := Function.update s.m_out out.1 (Function.update (s.m_out out.1) vnet b)
        draws := s.draws + 1 }

def setIn (incoming vnet : Nat) (b : HeapBuffer (NetworkMessage μ)) (s : Switch μ) : Switch μ :=
  { s with m_in := Function.update s.m_in incoming (Function.update (s.m_in incoming) vnet b) }

theorem setIn_self (incoming vnet : Nat) (b : HeapBuffer (NetworkMessage μ)) (s : Switch μ) :
    (s.setIn incoming vnet b).m_in incoming vnet = b := by
  rw [setIn]
  dsimp only
  rw [Function.update_self, Function.update_self]

theorem setIn_other {incoming vnet i v : Nat} (h : (i, v) ≠ (incoming, vnet))
    (b : HeapBuffer (NetworkMessage μ)) (s : Switch μ) :
    (s.setIn incoming vnet b).m_in i v = s.m_in i v := by
  rw [setIn]
  dsimp only
  by_cases hi : i = incoming
  · subst hi
    rw [Function.update_self, Function.update_of_ne fun hv => h (congrArg (Prod.mk i) hv)]
  · rw [Function.update_of_ne hi]

/-- The messages that wait at an input port, up to one that cannot be delivered. The first
component is whether the switch has scheduled itself. -/
def drain (p : SwitchParams μ) (now incoming vnet : Nat) (again : Bool) (s : Switch μ) :
    Option (Bool × Switch μ) :=
  match _ : (s.m_in incoming vnet).dequeue now with
  | none => some (again, s)
  | some (node, b) =>
      let order := s.linkOrder p vnet
      let r := SimpleNetwork.route p.m_routing_table order node.m_msgptr.getInternalDestination
      if r.2 ≠ ∅ then none
      else if r.1.all fun out =>
          (s.m_out out.1 vnet).areNSlotsAvailable 1 (p.m_max_size out.1 vnet) then
        match r.1.foldlM (send p now vnet node.m_msgptr)
            { s with m_link_order := order, draws := s.draws + 1 } with
        | none => none
        | some s' => drain p now incoming vnet again (s'.setIn incoming vnet b)
      else some (true, { s with m_link_order := order, draws := s.draws + 1 })
termination_by (s.m_in incoming vnet).m_prio_heap.size
decreasing_by
  rename_i hdeq _ _
  have hsize := (HeapBuffer.dequeue_spec hdeq).2.2.2
  rw [setIn_self]
  omega

/-- The input ports, from the one after `incoming` on. -/
def servePorts (p : SwitchParams μ) (now vnet : Nat) :
    Nat → Nat → Bool → Switch μ → Option (Bool × Switch μ)
  | 0, _, again, s => some (again, s)
  | counter + 1, incoming, again, s =>
      let incoming := RoundRobin.next p.in_size incoming
      (drain p now incoming vnet again s).bind fun r =>
        servePorts p now vnet counter incoming r.1 r.2

/-- The virtual networks, each from the port where the round robin starts. -/
def serveNetworks (p : SwitchParams μ) (now : Nat) :
    List Nat → Bool → Switch μ → Option (Bool × Switch μ)
  | [], again, s => some (again, s)
  | vnet :: rest, again, s =>
      (servePorts p now vnet p.in_size s.m_round_robin_start again
        { s with m_round_robin_start := RoundRobin.next p.in_size s.m_round_robin_start }).bind
        fun r => serveNetworks p now rest r.1 r.2

/-- Whether the switch has scheduled itself for the next cycle, and the switch after it. `none`
is a failed assertion. -/
def wakeup (p : SwitchParams μ) (now : Nat) (s : Switch μ) : Option (Bool × Switch μ) :=
  serveNetworks p now (List.range p.m_virtual_networks) false s

/-! What a wake-up does to the inputs -/

section
variable {p : SwitchParams μ} {now : Nat} {s s' : Switch μ} {again again' : Bool}

/-- Messages are only taken out of an input, and a switch that has scheduled itself stays so. -/
structure Drained (again : Bool) (s : Switch μ) (again' : Bool) (s' : Switch μ) : Prop where
  asked : again = true → again' = true
  inputs : ∀ i v, (s.m_in i v).Ordered → (s'.m_in i v).Ordered ∧
    (s'.m_in i v).m_prio_heap.contents ⊆ (s.m_in i v).m_prio_heap.contents

theorem Drained.refl (again : Bool) (s : Switch μ) : Drained again s again s :=
  ⟨id, fun _ _ h => ⟨h, Multiset.Subset.refl _⟩⟩

theorem Drained.trans {again'' : Bool} {s'' : Switch μ} (h : Drained again s again' s')
    (h' : Drained again' s' again'' s'') : Drained again s again'' s'' := by
  refine ⟨h'.asked ∘ h.asked, fun i v hord => ?_⟩
  have ⟨hord1, hsub1⟩ := h.inputs i v hord
  have ⟨hord2, hsub2⟩ := h'.inputs i v hord1
  exact ⟨hord2, Multiset.Subset.trans hsub2 hsub1⟩

/-- An input that is not ready does not become so. -/
theorem Drained.idle (h : Drained again s again' s') {i v : Nat} (hord : (s.m_in i v).Ordered)
    (hidle : (s.m_in i v).isReady now = false) : (s'.m_in i v).isReady now = false := by
  obtain ⟨hord', hsub⟩ := h.inputs i v hord
  cases hready : (s'.m_in i v).isReady now with
  | false => rfl
  | true =>
      obtain ⟨n, hn, htime⟩ := hord'.isReady_iff.mp hready
      have hbefore := hord.isReady_iff.mpr ⟨n, hsub hn, htime⟩
      exact absurd hbefore (hidle ▸ Bool.false_ne_true)

theorem send_inputs {vnet : Nat} {msg : NetworkMessage μ} {outs : List (Nat × Topology.NetDest)}
    (h : outs.foldlM (send p now vnet msg) s = some s') : s'.m_in = s.m_in := by
  induction outs generalizing s with
  | nil =>
      cases h
      rfl
  | cons out outs ih =>
      rw [List.foldlM_cons, Option.bind_eq_bind, Option.bind_eq_some_iff] at h
      obtain ⟨s1, hsend, hrest⟩ := h
      rw [send, Option.map_eq_some_iff] at hsend
      obtain ⟨b, -, rfl⟩ := hsend
      have hsame := ih hrest
      exact hsame

/-- A message that was delivered has left its input. -/
theorem drained_setIn {incoming vnet : Nat} {node : HeapNode (NetworkMessage μ)}
    {b : HeapBuffer (NetworkMessage μ)} (hdeq : (s.m_in incoming vnet).dequeue now = some (node, b))
    (hsame : s'.m_in = s.m_in) (again : Bool) :
    Drained again s again (s'.setIn incoming vnet b) := by
  obtain ⟨hcontents, hord', -, -⟩ := HeapBuffer.dequeue_spec hdeq
  refine ⟨id, fun i v hord => ?_⟩
  by_cases hiv : (i, v) = (incoming, vnet)
  · cases hiv
    rw [setIn_self, hcontents]
    exact ⟨(hord' hord).1, Multiset.subset_cons _ _⟩
  · rw [setIn_other hiv, hsame]
    exact ⟨hord, Multiset.Subset.refl _⟩

/-- The loop ends with an input that is not ready, or the switch has scheduled itself. -/
theorem drain_spec {incoming vnet : Nat}
    (h : drain p now incoming vnet again s = some (again', s')) :
    Drained again s again' s' ∧
      (again' = true ∨ (s'.m_in incoming vnet).isReady now = false) := by
  induction s using drain.induct p now incoming vnet with
  | case1 s hnone =>
      rw [drain] at h
      split at h
      · cases h
        exact ⟨.refl _ _, .inr (HeapBuffer.dequeue_eq_none.mp hnone)⟩
      · rename_i hsome
        rw [hnone] at hsome
        cases hsome
  | case2 s node b hdeq order r hrest =>
      rw [drain] at h
      split at h
      · rename_i hnone
        rw [hdeq] at hnone
        cases hnone
      · rename_i hsome
        cases hdeq.symm.trans hsome
        rw [if_pos hrest] at h
        cases h
  | case3 s node b hdeq order r hrest hroom hsends =>
      rw [drain] at h
      split at h
      · rename_i hnone
        rw [hdeq] at hnone
        cases hnone
      · rename_i hsome
        cases hdeq.symm.trans hsome
        rw [if_neg hrest, if_pos hroom, hsends] at h
        cases h
  | case4 s node b hdeq order r hrest hroom s1 hsends ih =>
      rw [drain] at h
      split at h
      · rename_i hnone
        rw [hdeq] at hnone
        cases hnone
      · rename_i hsome
        cases hdeq.symm.trans hsome
        rw [if_neg hrest, if_pos hroom, hsends] at h
        have ⟨hdrained, hend⟩ := ih h
        have hsame : s1.m_in = s.m_in := send_inputs
          (s := { s with m_link_order := order, draws := s.draws + 1 }) hsends
        exact ⟨(drained_setIn hdeq hsame again).trans hdrained, hend⟩
  | case5 s node b hdeq order r hrest hroom =>
      rw [drain] at h
      split at h
      · rename_i hnone
        rw [hdeq] at hnone
        cases hnone
      · rename_i hsome
        cases hdeq.symm.trans hsome
        rw [if_neg hrest, if_neg hroom] at h
        cases h
        exact ⟨⟨fun _ => rfl, fun _ _ hord => ⟨hord, Multiset.Subset.refl _⟩⟩, .inl rfl⟩

/-- The ports that have their turn. -/
theorem servePorts_spec {vnet n incoming : Nat}
    (hord : ∀ i < p.in_size, (s.m_in i vnet).Ordered)
    (h : servePorts p now vnet n incoming again s = some (again', s')) :
    Drained again s again' s' ∧ ∀ i < p.in_size,
      RoundRobin.ahead p.in_size (RoundRobin.next p.in_size incoming) i < n →
      again' = true ∨ (s'.m_in i vnet).isReady now = false := by
  induction n generalizing incoming again s with
  | zero =>
      cases h
      exact ⟨.refl _ _, fun i _ hlt => absurd hlt (Nat.not_lt_zero _)⟩
  | succ n ih =>
      rw [servePorts, Option.bind_eq_some_iff] at h
      obtain ⟨⟨again1, s1⟩, hdrain, hrest⟩ := h
      obtain ⟨hdrained, hend⟩ := drain_spec hdrain
      have hord1 : ∀ i < p.in_size, (s1.m_in i vnet).Ordered := fun i hi =>
        (hdrained.inputs i vnet (hord i hi)).1
      obtain ⟨hdrained', hends⟩ := ih hord1 hrest
      refine ⟨hdrained.trans hdrained', fun i hi hlt => ?_⟩
      by_cases hcur : RoundRobin.next p.in_size incoming = i
      · subst hcur
        cases hend with
        | inl hasked => exact .inl (hdrained'.asked hasked)
        | inr hidle => exact .inr (hdrained'.idle (hord1 _ hi) hidle)
      · have hturn := RoundRobin.ahead_next hi
          (RoundRobin.next_lt (Nat.zero_lt_of_lt hi) incoming) hcur
        exact hends i hi (by omega)

theorem serveNetworks_spec {vnets : List Nat}
    (hord : ∀ i < p.in_size, ∀ v ∈ vnets, (s.m_in i v).Ordered)
    (h : serveNetworks p now vnets again s = some (again', s')) :
    Drained again s again' s' ∧ ∀ i < p.in_size, ∀ v ∈ vnets,
      again' = true ∨ (s'.m_in i v).isReady now = false := by
  induction vnets generalizing again s with
  | nil =>
      cases h
      exact ⟨.refl _ _, fun _ _ v hv => absurd hv List.not_mem_nil⟩
  | cons vnet vnets ih =>
      rw [serveNetworks, Option.bind_eq_some_iff] at h
      obtain ⟨⟨again1, s1⟩, hports, hrest⟩ := h
      obtain ⟨hstarted, hends⟩ := servePorts_spec (s := { s with
        m_round_robin_start := RoundRobin.next p.in_size s.m_round_robin_start })
        (fun i hi => hord i hi vnet List.mem_cons_self) hports
      have hdrained : Drained again s again1 s1 := ⟨hstarted.asked, hstarted.inputs⟩
      have hord1 : ∀ i < p.in_size, ∀ v ∈ vnet :: vnets, (s1.m_in i v).Ordered :=
        fun i hi v hv => (hdrained.inputs i v (hord i hi v hv)).1
      obtain ⟨hdrained', hends'⟩ :=
        ih (fun i hi v hv => hord1 i hi v (List.mem_cons_of_mem vnet hv)) hrest
      refine ⟨hdrained.trans hdrained', fun i hi v hv => ?_⟩
      cases List.mem_cons.mp hv with
      | inr hlater => exact hends' i hi v hlater
      | inl heq =>
          rw [heq]
          cases hends i hi (RoundRobin.ahead_lt hi) with
          | inl hasked => exact .inl (hdrained'.asked hasked)
          | inr hidle => exact .inr (hdrained'.idle (hord1 i hi vnet List.mem_cons_self) hidle)

theorem wakeup_spec (hord : ∀ i < p.in_size, ∀ v < p.m_virtual_networks, (s.m_in i v).Ordered)
    (h : wakeup p now s = some (again, s')) :
    (∀ i < p.in_size, ∀ v < p.m_virtual_networks, (s'.m_in i v).Ordered ∧
      (s'.m_in i v).m_prio_heap.contents ⊆ (s.m_in i v).m_prio_heap.contents) ∧
      ∀ i < p.in_size, ∀ v < p.m_virtual_networks,
        again = true ∨ (s'.m_in i v).isReady now = false := by
  obtain ⟨hdrained, hends⟩ :=
    serveNetworks_spec (fun i hi v hv => hord i hi v (List.mem_range.mp hv)) h
  exact ⟨fun i hi v hv => hdrained.inputs i v (hord i hi v hv),
    fun i hi v hv => hends i hi v (List.mem_range.mpr hv)⟩

end

/-! The element -/

section
variable [Inhabited μ]

/-- The inputs and the outputs are named by their port or link and their virtual network. -/
def element (p : SwitchParams μ) : NetworkElement (Switch μ)
    (Fin p.in_size × Fin p.m_virtual_networks) (Nat × Nat) (NetworkMessage μ) where
  start := init p
  m_in s i := s.m_in i.1 i.2
  owes _ := False
  wakeup := wakeup p
  put s i b := s.setIn i.1 i.2 b
  depart now o s := ((s.m_out o.1 o.2).dequeue now).map fun r =>
    { s with m_out := Function.update s.m_out o.1 (Function.update (s.m_out o.1) o.2 r.2) }
  start_empty _ := ⟨fun _ hj hn => absurd (Nat.lt_of_lt_of_le hj hn) (Nat.not_lt_zero 1), rfl⟩
  start_paid := id
  put_in s i b := by
    funext j
    by_cases hj : j = i
    · subst hj
      rw [Function.update_self]
      exact setIn_self _ _ b s
    · rw [Function.update_of_ne hj]
      refine setIn_other (fun heq => hj ?_) b s
      rw [Prod.mk.injEq] at heq
      exact Prod.ext (Fin.ext heq.1) (Fin.ext heq.2)
  put_owes _ _ _ h := h
  depart_in now o s s' h := by
    rw [Option.map_eq_some_iff] at h
    obtain ⟨r, -, rfl⟩ := h
    exact ⟨rfl, id⟩
  wakeup_in now s again s' h hord i :=
    (wakeup_spec (fun i hi v hv => hord (⟨i, hi⟩, ⟨v, hv⟩)) h).1 i.1 i.1.isLt i.2 i.2.isLt

theorem element_rests (p : SwitchParams μ) : ElementRun.Rests (element p) fun _ _ => True := by
  intro now s again s' hord _ h hwork
  cases hwork with
  | inr howes => exact howes.elim
  | inl hready =>
      obtain ⟨i, hi⟩ := hready
      have hends := (wakeup_spec (fun i hi v hv => hord (⟨i, hi⟩, ⟨v, hv⟩)) h).2
      cases hends i.1 i.1.isLt i.2 i.2.isLt with
      | inl hasked => exact hasked
      | inr hidle => exact absurd hi (hidle ▸ Bool.false_ne_true)

end
end Switch

namespace ElementRun

/-- One virtual network, with bandwidth for two messages and an output buffer for one. -/
def narrowLink : ThrottleParams Bool where
  m_vnets := 1
  getLinkBandwidth := 8
  m_link_latency := 1
  network_message_to_size _ := 4
  m_max_size _ := some 1
  m_strict_fifo _ := true
  random _ _ := none
  bandwidth_pos := Nat.succ_pos 7

def twoArrive : List (Event Unit (Fin narrowLink.m_vnets) Nat Bool) :=
  [.arrive ⟨0, by decide⟩ 1 none true, .arrive ⟨0, by decide⟩ 1 none false,
    .queue (.triggerEvents 2), .queue .turn, .wakeup]

/-- The first message fills the output buffer, and the second is left. -/
theorem run_twoArrive : ((run (step (Throttle.element narrowLink) ())
    (init (Throttle.element narrowLink) ()) twoArrive).map fun s =>
      (s.due, ((Throttle.element narrowLink).m_in s.element ⟨0, by decide⟩).isReady
        s.queue.m_globalTime, s.queue.m_prio_heap.size)) = some (false, true, 0) := by
  decide +kernel

theorem throttle_sleeps : ¬ ∀ es, Throughout (step (Throttle.element narrowLink) ())
    (NeverSleeps (Throttle.element narrowLink) ()) (init (Throttle.element narrowLink) ()) es := by
  intro h
  obtain ⟨s, hrun, hs⟩ := Option.map_eq_some_iff.mp run_twoArrive
  rw [Prod.mk.injEq, Prod.mk.injEq] at hs
  obtain ⟨hdue, hready, hsize⟩ := hs
  obtain ⟨t, hmem, -⟩ := h twoArrive _ List.prefix_rfl s hrun hdue (.inl ⟨_, hready⟩)
  have hcard := Multiset.card_pos_iff_exists_mem.mpr ⟨_, hmem⟩
  rw [PrioHeap.card_contents, hsize] at hcard
  exact absurd hcard (Nat.lt_irrefl 0)

section
variable {κ α μ : Type} [DecidableEq κ] [Inhabited α] [Inhabited μ]

/-- A switch never sleeps on work, and a throttle does not where its bandwidth or the room in its
output buffers suffices. -/
theorem elements_never_sleep (p : ThrottleParams α) (q : SwitchParams μ) (this : κ)
    (es : List (Event κ (Fin p.m_vnets) Nat α))
    (fs : List (Event κ (Fin q.in_size × Fin q.m_virtual_networks) (Nat × Nat) (NetworkMessage μ)))
    (h : Along (step (Throttle.element p) this) (WakesGood fun now s => s.throttle.RunsOn p now)
      (init (Throttle.element p) this) es) :
    Throughout (step (Throttle.element p) this) (NeverSleeps (Throttle.element p) this)
        (init (Throttle.element p) this) es ∧
      Throughout (step (Switch.element q) this) (NeverSleeps (Switch.element q) this)
        (init (Switch.element q) this) fs := by
  exact ⟨(Throttle.element_rests p).neverSleeps es h,
    (Switch.element_rests q).neverSleeps fs (along_wakesGood (fun _ _ => trivial) _ _)⟩

end

/-- A switch with one port and one link that leads everywhere. -/
def oneLink : SwitchParams Bool where
  m_virtual_networks := 1
  in_size := 1
  out_size := 1
  m_routing_table _ := {{ machine := 0, id := 0 }}
  ADAPTIVE_ROUTING := false
  isVNetOrdered _ := true
  m_max_size _ _ := some 0
  m_strict_fifo _ := true
  random _ := none
  emptiest _ _ := List.range 1
  emptiest_perm _ _ := List.Perm.refl _

/-- A message that fits, and one that the switch cannot deliver. -/
theorem one_message_runs_on : Throughout (step (Throttle.element narrowLink) ())
      (NeverSleeps (Throttle.element narrowLink) ()) (init (Throttle.element narrowLink) ())
      [.arrive ⟨0, by decide⟩ 1 none true, .queue (.triggerEvents 2), .queue .turn, .wakeup] ∧
    Throughout (step (Switch.element oneLink) ()) (NeverSleeps (Switch.element oneLink) ())
      (init (Switch.element oneLink) ())
      [.arrive (⟨0, by decide⟩, ⟨0, by decide⟩) 1 none
        { name := true, destination := {{ machine := 0, id := 0 }} },
        .queue (.triggerEvents 2), .queue .turn, .wakeup] :=
  elements_never_sleep narrowLink oneLink () _ _ (by decide +kernel)

end ElementRun
end FeS2.Ruby
