import Mathlib.Algebra.BigOperators.Group.Multiset.Basic
import FeS2.Ruby.PerfectSwitch

/-!
Multicast delivers exactly once. A switch splits what is left of a destination
set over its links, and every part is nearer to its machines after the link. What
a message was sent to is what has received it and what its copies are on the way
to, at any time.
-/

namespace FeS2.Ruby
open FeS2.Ruby.Topology
namespace SimpleNetwork
variable {μ : Type} [DecidableEq μ] {p : TopologyParams} {t : Topology} {s s' : SimpleNetwork μ}
  {sw i j : ℕ} {m : NetworkMessage μ} {d : MachineID} {name : μ}

/-! Machines -/

theorem portNumber_machineOf (p : TopologyParams) (i : ℕ) : portNumber p (machineOf p i) = i := by
  unfold portNumber machineOf
  rw [Nat.mul_comm, Nat.mod_add_div]

theorem machineOf_inj (h : machineOf p i = machineOf p j) : i = j := by
  rw [← portNumber_machineOf p i, h, portNumber_machineOf]

theorem mem_machines : d ∈ machines p ↔ ∃ i < p.m_nodes, d = machineOf p i := by
  simp only [machines, Finset.mem_image, Finset.mem_range, eq_comm]

theorem mem_shortest_path : machineOf p i ∈ shortest_path_to_node p t sw j ↔
    i < p.m_nodes ∧
      t.topology_weights sw j + t.dist j (i + p.m_nodes) = t.dist sw (i + p.m_nodes) := by
  simp only [shortest_path_to_node, link_is_shortest_path_to_node, Finset.mem_image,
    Finset.mem_filter, Finset.mem_range, decide_eq_true_eq]
  constructor
  · rintro ⟨k, hk, he⟩
    obtain rfl := machineOf_inj he
    exact hk
  · exact fun h => ⟨i, h, rfl⟩

/-! Splitting -/

theorem route_spec (table : ℕ → NetDest) (order : List ℕ) (dests : NetDest) :
    ((route table order dests).1.map fun out => out.2.val).sum + (route table order dests).2.val =
      dests.val ∧
    (∀ out ∈ (route table order dests).1,
      out.1 ∈ order ∧ out.2.Nonempty ∧ out.2 ⊆ dests ∧ out.2 ⊆ table out.1) ∧
    (route table order dests).2 ⊆ dests ∧
    ∀ d ∈ (route table order dests).2, ∀ link ∈ order, d ∉ table link := by
  induction order generalizing dests with
  | nil =>
      refine ⟨?_, fun _ h => (nomatch h), Finset.Subset.refl _, fun _ _ _ h => (nomatch h)⟩
      simp [route]
  | cons link order ih =>
      simp only [route]
      split
      · next hne =>
          obtain ⟨h1, h2, h3, h4⟩ := ih (dests \ table link)
          have hsplit : (dests ∩ table link).val + (dests \ table link).val = dests.val := by
            rw [← Finset.filter_mem_eq_inter, ← Finset.filter_notMem_eq_sdiff, Finset.filter_val,
              Finset.filter_val]
            exact Multiset.filter_add_not _ _
          refine ⟨?_, fun out hout => ?_, h3.trans Finset.sdiff_subset, fun d hd l hl => ?_⟩
          · rw [List.map_cons, List.sum_cons, add_assoc, h1]
            exact hsplit
          · rcases List.mem_cons.mp hout with rfl | hout
            · exact ⟨List.mem_cons_self, hne, Finset.inter_subset_left, Finset.inter_subset_right⟩
            · obtain ⟨ha, hb, hc, hd⟩ := h2 out hout
              exact ⟨List.mem_cons_of_mem _ ha, hb, hc.trans Finset.sdiff_subset, hd⟩
          · rcases List.mem_cons.mp hl with rfl | hl
            · exact (Finset.mem_sdiff.mp (h3 hd)).2
            · exact h4 d hd l hl
      · next hempty =>
          obtain ⟨h1, h2, h3, h4⟩ := ih dests
          refine ⟨h1, fun out hout => ?_, h3, fun d hd l hl => ?_⟩
          · obtain ⟨ha, hb⟩ := h2 out hout
            exact ⟨List.mem_cons_of_mem _ ha, hb⟩
          · rcases List.mem_cons.mp hl with rfl | hl
            · exact fun hm => hempty ⟨d, Finset.mem_inter.mpr ⟨h3 hd, hm⟩⟩
            · exact h4 d hd l hl

/-! One switch -/

/-- Machines that a switch has a path to. -/
def Within (p : TopologyParams) (t : Topology) (sw : ℕ) (dests : NetDest) : Prop :=
  ∀ d ∈ dests, ∃ i < p.m_nodes, d = machineOf p i ∧ t.dist sw (i + p.m_nodes) < INFINITE_LATENCY

/-- The port of every machine is among the switch ids. -/
theorem port_lt (h : Connected p t) (hi : i < p.m_nodes) : i + p.m_nodes < t.num_switches := by
  obtain ⟨s, hs⟩ := h.inLink i hi
  have hhops := h.path i s hi hs i hi
  have hne : s ≠ i + p.m_nodes := by
    obtain ⟨l, hmem, rfl, rfl⟩ := hs
    rcases (h.ok l hmem).ends with ⟨-, h1⟩ | ⟨h1, -⟩ <;> omega
  obtain ⟨c, l, hmem, -, hdest⟩ := hhops.last_linked hne
  exact hdest ▸ (lt_num_switches hmem).2

/-- Every remaining destination has an output. -/
theorem exists_output (h : Connected p t) (hsw : p.m_nodes + p.m_nodes ≤ sw) (hi : i < p.m_nodes)
    (hdist : t.dist sw (i + p.m_nodes) < INFINITE_LATENCY) :
    ∃ link ∈ t.outPorts sw, machineOf p i ∈ shortest_path_to_node p t sw link := by
  obtain ⟨c, hpos, hlt, heq⟩ := h.ok.shortest.next_hop h.ok.within (h.ok.weight_self hi)
    (port_lt h hi) hdist (by omega)
  refine ⟨c, List.mem_filter.mpr ⟨List.mem_range.mpr ?_, ?_⟩, mem_shortest_path.mpr ⟨hi, heq⟩⟩
  · exact (h.ok.within sw c hpos hlt).2
  · exact h.ok.hasLink_weight.mpr ⟨hpos, hlt⟩

/-- What goes down a link is nearer afterwards; to a node, it is the node itself. -/
theorem output_spec (h : Connected p t) {dests : NetDest}
    (hwithin : Within p t sw dests) {link : ℕ} {part : NetDest} (hlink : link ∈ t.outPorts sw)
    (hne : part.Nonempty) (hsub : part ⊆ dests)
    (htable : part ⊆ shortest_path_to_node p t sw link) :
    (∀ d ∈ part, distanceTo p t link d < distanceTo p t sw d) ∧
    (link < p.m_nodes + p.m_nodes → part.val = {machineOf p (link - p.m_nodes)}) ∧
    (¬ link < p.m_nodes + p.m_nodes → Within p t link part) := by
  have hhas := (List.mem_filter.mp hlink).2
  obtain ⟨hpos, hlt⟩ := h.ok.hasLink_weight.mp hhas
  have hpart : ∀ d ∈ part, ∃ i < p.m_nodes, d = machineOf p i ∧
      t.topology_weights sw link + t.dist link (i + p.m_nodes) = t.dist sw (i + p.m_nodes) ∧
      t.dist link (i + p.m_nodes) < INFINITE_LATENCY := by
    intro d hd
    obtain ⟨i, hi, rfl, hdist⟩ := hwithin d (hsub hd)
    obtain ⟨-, heq⟩ := mem_shortest_path.mp (htable hd)
    exact ⟨i, hi, rfl, heq, by omega⟩
  refine ⟨fun d hd => ?_, fun hnode => ?_, fun _ d hd => ?_⟩
  · obtain ⟨i, -, rfl, heq, -⟩ := hpart d hd
    unfold distanceTo
    rw [portNumber_machineOf]
    omega
  · obtain ⟨l, hmem, hsrc, hdest⟩ := h.ok.hasLink_iff.mp hhas
    have hends := (h.ok l hmem).ends
    have hself : ∀ d ∈ part, d = machineOf p (link - p.m_nodes) := by
      intro d hd
      obtain ⟨i, hi, rfl, -, hfin⟩ := hpart d hd
      have hwalk := h.ok.shortest.walk link (i + p.m_nodes) hfin
      have heq : link = i + p.m_nodes := by
        generalize t.dist link (i + p.m_nodes) = x at hwalk
        cases hwalk with
        | nil => rfl
        | @cons _ b _ x pos fin rest =>
            have hl := h.ok.hasLink_iff.mp (h.ok.hasLink_weight.mpr ⟨pos, fin⟩)
            have hlink : link = (link - p.m_nodes) + p.m_nodes := by omega
            rw [hlink] at hl
            exact absurd hl (h.ok.not_linked (by omega))
      rw [heq, Nat.add_sub_cancel]
    have hpart : part = {machineOf p (link - p.m_nodes)} :=
      Finset.eq_singleton_iff_nonempty_unique_mem.mpr ⟨hne, hself⟩
    rw [hpart]
    rfl
  · obtain ⟨i, hi, he, -, hfin⟩ := hpart d hd
    exact ⟨i, hi, he, hfin⟩

/-! Accounts -/

theorem received_enqueue (out : ℕ × NetDest) : (s.enqueue p m out).received name =
    s.received name + if out.1 < p.m_nodes + p.m_nodes ∧ m.name = name then
      {machineOf p (out.1 - p.m_nodes)} else 0 := by
  unfold received enqueue
  by_cases hnode : out.1 < p.m_nodes + p.m_nodes
  · by_cases hname : m.name = name
    · simp [hnode, hname, add_comm]
    · simp [hnode, hname]
  · simp [hnode]

theorem pending_enqueue (out : ℕ × NetDest) : (s.enqueue p m out).pending name =
    s.pending name + if ¬ out.1 < p.m_nodes + p.m_nodes ∧ m.name = name then out.2.val else 0 := by
  unfold pending enqueue
  by_cases hnode : out.1 < p.m_nodes + p.m_nodes
  · simp [hnode]
  · by_cases hname : m.name = name
    · simp [hnode, hname, add_comm, NetworkMessage.getInternalDestination]
    · simp [hnode, hname]

/-- What a message has been sent to. -/
def account (name : μ) (s : SimpleNetwork μ) : Multiset MachineID :=
  s.received name + s.pending name

theorem account_foldl {outs : List (ℕ × NetDest)}
    (h : ∀ out ∈ outs, out.1 < p.m_nodes + p.m_nodes →
      out.2.val = {machineOf p (out.1 - p.m_nodes)}) :
    (outs.foldl (fun s out => s.enqueue p m out) s).account name =
      s.account name + if m.name = name then (outs.map fun out => out.2.val).sum else 0 := by
  induction outs generalizing s with
  | nil => simp
  | cons out outs ih =>
      have hout : (s.enqueue p m out).account name =
          s.account name + if m.name = name then out.2.val else 0 := by
        unfold account
        rw [received_enqueue, pending_enqueue]
        by_cases hnode : out.1 < p.m_nodes + p.m_nodes
        · rw [h out List.mem_cons_self hnode]
          by_cases hname : m.name = name
          · simp [hnode, hname, add_right_comm]
          · simp [hname]
        · by_cases hname : m.name = name
          · simp [hnode, hname, add_assoc]
          · simp [hname]
      rw [List.foldl_cons, ih fun o ho => h o (List.mem_cons_of_mem _ ho), hout]
      split
      · rw [List.map_cons, List.sum_cons, add_assoc]
      · rw [add_zero, add_zero]

theorem account_erase (h : (sw, m) ∈ s.waiting) :
    account name { s with waiting := s.waiting.erase (sw, m) } +
      (if m.name = name then m.getInternalDestination.val else 0) = s.account name := by
  unfold account pending received
  dsimp only
  conv_rhs => rw [← Multiset.cons_erase h, Multiset.map_cons, Multiset.sum_cons]
  rw [add_assoc, add_comm (Multiset.sum _) (if m.name = name then _ else _)]

omit [DecidableEq μ] in
theorem injected_foldl (outs : List (ℕ × NetDest)) :
    (outs.foldl (fun s out => s.enqueue p m out) s).injected = s.injected ∧
      (outs.foldl (fun s out => s.enqueue p m out) s).failed = s.failed := by
  induction outs generalizing s with
  | nil => exact ⟨rfl, rfl⟩
  | cons out outs ih =>
      obtain ⟨h1, h2⟩ := ih (s := s.enqueue p m out)
      rw [List.foldl_cons, h1, h2]
      unfold enqueue
      split <;> exact ⟨rfl, rfl⟩

omit [DecidableEq μ] in
theorem waiting_foldl (outs : List (ℕ × NetDest)) :
    (outs.foldl (fun s out => s.enqueue p m out) s).waiting = s.waiting +
      ((outs.filter fun out => ¬ out.1 < p.m_nodes + p.m_nodes).map fun out =>
        (out.1, { m with internalDest := some out.2 }) : List (ℕ × NetworkMessage μ)) := by
  induction outs generalizing s with
  | nil => simp
  | cons out outs ih =>
      rw [List.foldl_cons, ih]
      unfold enqueue
      by_cases hnode : out.1 < p.m_nodes + p.m_nodes
      · simp [hnode]
      · rw [if_neg hnode, List.filter_cons, if_pos (decide_eq_true hnode), List.map_cons,
          ← Multiset.cons_coe, Multiset.cons_add, Multiset.add_cons]

/-! The invariant -/

structure Inv (p : TopologyParams) (t : Topology) (s : SimpleNetwork μ) : Prop where
  ok : s.failed = false
  waiting : ∀ x ∈ s.waiting,
    p.m_nodes + p.m_nodes ≤ x.1 ∧ Within p t x.1 x.2.getInternalDestination
  accounts : ∀ name, s.account name = (s.destinationOf name).val

theorem Inv.start : Inv p t ({} : SimpleNetwork μ) :=
  ⟨rfl, fun _ h => absurd h (Multiset.notMem_zero _), fun _ => rfl⟩

theorem Inv.inject (h : Connected p t) {node : ℕ} {destination : NetDest} (hi : Inv p t s)
    (hs : s.inject p t name node sw destination = some s') : Inv p t s' := by
  unfold SimpleNetwork.inject at hs
  split at hs
  · next hok =>
      obtain ⟨hnode, hlink, hdest, hfresh⟩ := hok
      obtain rfl := Option.some.inj hs
      have hlinked := h.ok.hasLink_iff.mp hlink
      refine ⟨hi.ok, fun x hx => ?_, fun name' => ?_⟩
      · rcases Multiset.mem_cons.mp hx with rfl | hx
        · refine ⟨?_, fun d hd => ?_⟩
          · obtain ⟨l, hl, rfl, rfl⟩ := hlinked
            rcases (h.ok l hl).ends with ⟨-, h1⟩ | ⟨h1, -⟩
            · exact h1
            · omega
          · obtain ⟨i, hi, rfl⟩ := mem_machines.mp (hdest hd)
            exact ⟨i, hi, rfl, h.dist_lt hnode hlinked hi⟩
        · exact hi.waiting x hx
      · have hold := hi.accounts name'
        unfold account pending received at hold ⊢
        unfold destinationOf at hold ⊢
        by_cases hname : name = name'
        · have hnone : s.injected.find? (fun x => x.1 = name') = none := by
            refine List.find?_eq_none.mpr fun x hx hx' => hfresh ?_
            rw [hname, ← of_decide_eq_true hx']
            exact List.mem_map_of_mem hx
          rw [hnone] at hold
          have hzero := add_eq_zero.mp hold
          simp only [Multiset.map_cons, Multiset.sum_cons, hzero.1, hzero.2]
          simp [hname, NetworkMessage.getInternalDestination]
        · simp only [Multiset.map_cons, Multiset.sum_cons]
          simpa [hname] using hold
  · cases hs

/-- What a switch makes of a message. -/
theorem wakeup_spec (h : Connected p t) (hi : Inv p t s) (hmem : (sw, m) ∈ s.waiting)
    {order : List ℕ} (horder : order.Perm (t.outPorts sw)) :
    (route (shortest_path_to_node p t sw) order m.getInternalDestination).2 = ∅ ∧
    ∀ out ∈ (route (shortest_path_to_node p t sw) order m.getInternalDestination).1,
      out.2.Nonempty ∧
      (∀ d ∈ out.2, distanceTo p t out.1 d < distanceTo p t sw d) ∧
      (out.1 < p.m_nodes + p.m_nodes → out.2.val = {machineOf p (out.1 - p.m_nodes)}) ∧
      (¬ out.1 < p.m_nodes + p.m_nodes → Within p t out.1 out.2) := by
  obtain ⟨hsw, hwithin⟩ := hi.waiting _ hmem
  obtain ⟨-, houts, hrest, hleft⟩ := route_spec (shortest_path_to_node p t sw)
    order m.getInternalDestination
  refine ⟨Finset.eq_empty_of_forall_notMem fun d hd => ?_, fun out hout => ?_⟩
  · obtain ⟨i, hi, rfl, hdist⟩ := hwithin d (hrest hd)
    obtain ⟨link, hlink, htable⟩ := exists_output h hsw hi hdist
    exact hleft _ hd link (horder.mem_iff.mpr hlink) htable
  · obtain ⟨hin, hne, hsub, htable⟩ := houts out hout
    exact ⟨hne, output_spec h hwithin (horder.mem_iff.mp hin) hne hsub htable⟩

theorem wakeup_eq (h : Connected p t) (hi : Inv p t s) {order : List ℕ}
    (hs : s.wakeup p t sw m order = some s') :
    (sw, m) ∈ s.waiting ∧ order.Perm (t.outPorts sw) ∧
      s' = (route (shortest_path_to_node p t sw) order m.getInternalDestination).1.foldl
        (fun s out => s.enqueue p m out) { s with waiting := s.waiting.erase (sw, m) } := by
  unfold wakeup at hs
  split at hs
  · next hok =>
      rw [if_neg (not_not_intro (wakeup_spec h hi hok.1 hok.2).1)] at hs
      exact ⟨hok.1, hok.2, (Option.some.inj hs).symm⟩
  · cases hs

theorem Inv.wakeup (h : Connected p t) {order : List ℕ} (hi : Inv p t s)
    (hs : s.wakeup p t sw m order = some s') : Inv p t s' := by
  obtain ⟨hmem, horder, rfl⟩ := wakeup_eq h hi hs
  obtain ⟨hrest, houts⟩ := wakeup_spec h hi hmem horder
  have hsum := (route_spec (shortest_path_to_node p t sw) order m.getInternalDestination).1
  rw [hrest, Finset.empty_val, add_zero] at hsum
  generalize (route (shortest_path_to_node p t sw) order m.getInternalDestination).1 = outs
    at houts hsum ⊢
  obtain ⟨hinjected, hfailed⟩ := injected_foldl (p := p) (m := m)
    (s := { s with waiting := s.waiting.erase (sw, m) }) outs
  refine ⟨hfailed.trans hi.ok, fun x hx => ?_, fun name => ?_⟩
  · rw [waiting_foldl] at hx
    rcases Multiset.mem_add.mp hx with hx | hx
    · exact hi.waiting x (Multiset.mem_of_mem_erase hx)
    · obtain ⟨out, hout, rfl⟩ := List.mem_map.mp (Multiset.mem_coe.mp hx)
      obtain ⟨hout, hnode⟩ := List.mem_filter.mp hout
      have hnode := of_decide_eq_true hnode
      exact ⟨Nat.le_of_not_lt hnode, (houts out hout).2.2.2 hnode⟩
  · have hd : destinationOf name (outs.foldl (fun s out => s.enqueue p m out)
        { s with waiting := s.waiting.erase (sw, m) }) = s.destinationOf name := by
      unfold destinationOf
      rw [hinjected]
    rw [hd, account_foldl fun out hout => (houts out hout).2.2.1, hsum, account_erase hmem]
    exact hi.accounts name

theorem Inv.step (h : Connected p t) (hi : Inv p t s) {e : Event μ}
    (hs : step p t s e = some s') : Inv p t s' := by
  cases e with
  | inject name node sw destination => exact hi.inject h hs
  | wakeup sw m order =>
      unfold SimpleNetwork.step at hs
      dsimp only at hs
      rw [hi.ok] at hs
      exact hi.wakeup h hs

/-! Hops -/

/-- How many hops are left at most. -/
def work (p : TopologyParams) (t : Topology) (s : SimpleNetwork μ) : ℕ :=
  (s.waiting.map fun x =>
    1 + (x.2.getInternalDestination.val.map fun d => distanceTo p t x.1 d).sum).sum

theorem parts_work (sw : ℕ) (outs : List (ℕ × NetDest))
    (h : ∀ out ∈ outs, out.2.Nonempty ∧
      ∀ d ∈ out.2, distanceTo p t out.1 d < distanceTo p t sw d) :
    ((outs.filter fun out => ¬ out.1 < p.m_nodes + p.m_nodes).map fun out : ℕ × NetDest =>
      1 + (out.2.val.map fun d => distanceTo p t out.1 d).sum).sum ≤
    ((outs.map fun out : ℕ × NetDest => out.2.val).sum.map fun d => distanceTo p t sw d).sum := by
  induction outs with
  | nil => exact Nat.le_refl _
  | cons out outs ih =>
      have ih := ih fun o ho => h o (List.mem_cons_of_mem _ ho)
      obtain ⟨hne, hnear⟩ := h out List.mem_cons_self
      have hlt : 1 + (out.2.val.map fun d => distanceTo p t out.1 d).sum ≤
          (out.2.val.map fun d => distanceTo p t sw d).sum := by
        rw [Nat.add_comm]
        exact Finset.sum_lt_sum_of_nonempty hne hnear
      rw [List.map_cons, List.sum_cons, Multiset.map_add, Multiset.sum_add, List.filter_cons]
      split
      · rw [List.map_cons, List.sum_cons]
        exact Nat.add_le_add hlt ih
      · exact ih.trans (Nat.le_add_left _ _)

/-- Every switch takes a message one hop further. -/
theorem work_wakeup (h : Connected p t) {order : List ℕ} (hi : Inv p t s)
    (hs : s.wakeup p t sw m order = some s') : s'.work p t < s.work p t := by
  obtain ⟨hmem, horder, rfl⟩ := wakeup_eq h hi hs
  obtain ⟨hrest, houts⟩ := wakeup_spec h hi hmem horder
  have hsum := (route_spec (shortest_path_to_node p t sw) order m.getInternalDestination).1
  rw [hrest, Finset.empty_val, add_zero] at hsum
  generalize (route (shortest_path_to_node p t sw) order m.getInternalDestination).1 = outs
    at houts hsum ⊢
  have hparts := parts_work (p := p) (t := t) sw outs
    fun out hout => ⟨(houts out hout).1, (houts out hout).2.1⟩
  rw [hsum] at hparts
  unfold work
  rw [waiting_foldl, Multiset.map_add, Multiset.sum_add, ← Multiset.cons_erase hmem,
    Multiset.map_cons, Multiset.sum_cons, Multiset.map_coe, List.map_map, Multiset.sum_coe,
    Multiset.erase_cons_head]
  have heq : ((fun x : ℕ × NetworkMessage μ => 1 +
      (x.2.getInternalDestination.val.map fun d => distanceTo p t x.1 d).sum) ∘
      fun out : ℕ × NetDest => (out.1, { m with internalDest := some out.2 })) =
      fun out : ℕ × NetDest => 1 + (out.2.val.map fun d => distanceTo p t out.1 d).sum := rfl
  rw [heq]
  dsimp only
  omega

theorem wakeups_bounded (h : Connected p t) {es : List (Event μ)} (hi : Inv p t s)
    (hall : ∀ e ∈ es, e.isWakeup) (hrun : EventSystem.run (step p t) s es = some s') :
    es.length + s'.work p t ≤ s.work p t := by
  induction es generalizing s with
  | nil =>
      obtain rfl := Option.some.inj hrun
      exact Nat.le_of_eq (Nat.zero_add _)
  | cons e es ih =>
      obtain ⟨s₁, he, hrest⟩ := EventSystem.run_cons_eq_some.mp hrun
      have h1 := ih (hi.step h he) (fun e he => hall e (List.mem_cons_of_mem _ he)) hrest
      have h2 : s₁.work p t < s.work p t := by
        cases e with
        | inject name node sw destination => exact nomatch hall _ List.mem_cons_self
        | wakeup sw m order =>
            unfold step at he
            dsimp only at he
            rw [hi.ok] at he
            exact work_wakeup h hi he
      rw [List.length_cons]
      omega

theorem wakeup_enabled (hi : Inv p t s) (hw : s.waiting ≠ 0) :
    ∃ e s', e.isWakeup = true ∧ step p t s e = some s' := by
  obtain ⟨⟨sw, m⟩, hmem⟩ := Multiset.exists_mem_of_ne_zero hw
  refine ⟨.wakeup sw m (t.outPorts sw), ?_⟩
  unfold step
  dsimp only
  rw [hi.ok]
  unfold wakeup
  rw [if_neg Bool.false_ne_true, if_pos ⟨hmem, .refl _⟩]
  dsimp only
  split
  · exact ⟨_, rfl, rfl⟩
  · exact ⟨_, rfl, rfl⟩

/-! Delivery -/

/-- In every state of a hierarchical network: no switch has failed to route. What a message
was sent to is what has received it, once each, and what is still to receive it. A switch
that takes a waiting message, with its output ports in whatever order, leaves nothing over
and brings every part nearer to each of its machines. So only so many wakeups can follow
without a new message, and there is one until no message waits. -/
theorem multicast_exactly_once (p : TopologyParams) {s : SimpleNetwork μ}
    (h : EventSystem.Reachable (step p (makeHierarchicalSwitch p)) {} s) :
    s.failed = false ∧
    (∀ name, s.received name + s.pending name = (s.destinationOf name).val) ∧
    (∀ name, (∀ x ∈ s.waiting, x.2.name ≠ name) →
      s.received name = (s.destinationOf name).val) ∧
    (∀ sw m order, (sw, m) ∈ s.waiting →
      order.Perm ((makeHierarchicalSwitch p).outPorts sw) →
      (route (shortest_path_to_node p (makeHierarchicalSwitch p) sw) order
        m.getInternalDestination).2 = ∅ ∧
      ∀ out ∈ (route (shortest_path_to_node p (makeHierarchicalSwitch p) sw) order
        m.getInternalDestination).1, ∀ d ∈ out.2,
        distanceTo p (makeHierarchicalSwitch p) out.1 d <
          distanceTo p (makeHierarchicalSwitch p) sw d) ∧
    (∀ es s', (∀ e ∈ es, e.isWakeup) →
      EventSystem.run (step p (makeHierarchicalSwitch p)) s es = some s' →
      es.length ≤ s.work p (makeHierarchicalSwitch p)) ∧
    (s.waiting ≠ 0 → ∃ e s', e.isWakeup = true ∧
      step p (makeHierarchicalSwitch p) s e = some s') := by
  have hc := makeHierarchicalSwitch_connected p
  have hi : Inv p (makeHierarchicalSwitch p) s :=
    EventSystem.reachable_invariant Inv.start (fun _ _ _ hi hs => hi.step hc hs) h
  refine ⟨hi.ok, hi.accounts, fun name hnone => ?_, fun sw m order hmem horder => ?_,
    fun es s' hall hrun => ?_, wakeup_enabled hi⟩
  · have hzero : s.pending name = 0 := by
      unfold pending
      refine Multiset.sum_eq_zero fun x hx => ?_
      obtain ⟨y, hy, rfl⟩ := Multiset.mem_map.mp hx
      exact if_neg (hnone y hy)
    have h := hi.accounts name
    unfold account at h
    rwa [hzero, add_zero] at h
  · obtain ⟨hrest, houts⟩ := wakeup_spec hc hi hmem horder
    exact ⟨hrest, fun out hout => (houts out hout).2.1⟩
  · have hb := wakeups_bounded hc hi hall hrun
    omega

/-- Six nodes of two machine types, under a root with two switches. -/
def sixNodes : TopologyParams where
  MachineType_NUM := 2
  m_nodes := 6
  fan_out_degree := 2
  NETWORK_LINK_LATENCY := 14
  machines_pos := by decide
  multiple := by decide
  larger := by decide
  fan_out := Nat.le_refl 2
  latency_pos := by decide
  fits := fits_of_int (by decide) (Nat.le_refl 14)

/-- Node 0 sends to nodes 1 and 4. -/
theorem multicast_exactly_once_pair : ∃ s : SimpleNetwork ℕ, s.waiting ≠ 0 ∧
    s.failed = false ∧ s.received 7 + s.pending 7 = {machineOf sixNodes 1, machineOf sixNodes 4} := by
  obtain ⟨sw, hsw⟩ := (makeHierarchicalSwitch_connected sixNodes).inLink 0 (by decide)
  have hlink := (makeHierarchicalSwitch_connected sixNodes).ok.hasLink_iff.mpr hsw
  have hstep : step sixNodes (makeHierarchicalSwitch sixNodes) ({} : SimpleNetwork ℕ)
      (.inject 7 0 sw {machineOf sixNodes 1, machineOf sixNodes 4}) = some
      { waiting := {(sw, { name := 7, destination := {machineOf sixNodes 1, machineOf sixNodes 4} })}
        injected := [(7, {machineOf sixNodes 1, machineOf sixNodes 4})] } :=
    if_pos ⟨by decide, hlink, by decide, List.not_mem_nil⟩
  have h := multicast_exactly_once sixNodes (.step (.refl _ _) hstep)
  exact ⟨_, Multiset.singleton_ne_zero _, h.1, h.2.1 7⟩

end SimpleNetwork
end FeS2.Ruby
