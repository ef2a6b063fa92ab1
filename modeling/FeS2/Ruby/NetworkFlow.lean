import FeS2.Library.ArrivalLog
import FeS2.Library.ExceptRun
import FeS2.Ruby.NextHop
import FeS2.Ruby.OrderedNetwork

/-!
An ordered virtual network, link by link. What a station has taken from another,
and then what is on the link, is what the other has sent down the link, in the
order in which it has taken it: the link order of an ordered network is always
the same. Round robin and bandwidth choose when, never what.
-/

namespace FeS2.Ruby
open FeS2.Ruby.Topology FeS2.Ruby.SimpleNetwork ArrivalLog
namespace NetworkParams
variable {μ : Type} {c : NetworkParams μ} {v : ℕ} {s s' : NetworkState μ}

/-- What is on a link, the oldest first. -/
def held (s : NetworkState μ) (v a b : ℕ) : List (NetMsg μ) :=
  (s.queue .link v a b).contents ++ (s.queue .intermediate v a b).contents

/-- What switch `a` makes of a message for the link to `b`. -/
def sent (c : NetworkParams μ) (a b : ℕ) (m : NetMsg μ) : Option (NetMsg μ) :=
  ((route (shortest_path_to_node c.toTopologyParams c.topology a) (c.topology.outPorts a)
    m.getInternalDestination).1.find? fun out => out.1 = b).map
      fun out => { m with internalDest := some out.2 }

structure Flow (c : NetworkParams μ) (v : ℕ) (s : NetworkState μ) : Prop where
  fifo : ∀ stage a b, (s.queue stage v a b).Fifo
  order : c.ADAPTIVE_ROUTING = false → ∀ sw, s.m_link_order sw = c.topology.outPorts sw
  entry : ∀ {n b}, n < c.m_nodes → Linked c.topology n b →
    takenFrom n (s.taken v b) ++ (s.queue .link v n b).contents = s.injected v n
  link : ∀ {a b}, c.m_nodes + c.m_nodes ≤ a → Linked c.topology a b →
    takenFrom a (s.taken v b) ++ held s v a b =
      ((s.taken v a).map (·.2)).filterMap (c.sent a b)
  source : ∀ b, ∀ x ∈ s.taken v b, Linked c.topology x.1 b
  within : ∀ a, c.m_nodes + c.m_nodes ≤ a → ∀ x ∈ s.taken v a,
    Within c.toTopologyParams c.topology a x.2.getInternalDestination
  nodes : ∀ b, ∀ x ∈ s.taken v b, x.2.name.1 < c.m_nodes
  sources : ∀ n, ∀ m ∈ s.injected v n, m.name.1 = n ∧ m.internalDest = none ∧
    m.destination ⊆ machines c.toTopologyParams
  names : ∀ n, ((s.injected v n).map (·.name)).Nodup

/-- The state of the virtual network is the same. -/
structure Same (c : NetworkParams μ) (v : ℕ) (s s' : NetworkState μ) : Prop where
  queue : ∀ stage a b, s'.queue stage v a b = s.queue stage v a b
  taken : ∀ b, s'.taken v b = s.taken v b
  injected : ∀ n, s'.injected v n = s.injected v n
  order : c.ADAPTIVE_ROUTING = false → s'.m_link_order = s.m_link_order

theorem Same.refl (s : NetworkState μ) : Same c v s s :=
  ⟨fun _ _ _ => rfl, fun _ => rfl, fun _ => rfl, fun _ => rfl⟩

theorem Same.trans {s'' : NetworkState μ} (h : Same c v s s') (h' : Same c v s' s'') :
    Same c v s s'' :=
  ⟨fun stage a b => (h'.queue stage a b).trans (h.queue stage a b),
    fun b => (h'.taken b).trans (h.taken b), fun n => (h'.injected n).trans (h.injected n),
    fun ha => (h'.order ha).trans (h.order ha)⟩

theorem Flow.frame (h : Flow c v s) (hs : Same c v s s') : Flow c v s' := by
  have hheld : ∀ a b, held s' v a b = held s v a b := fun a b => by
    rw [held, held, hs.queue, hs.queue]
  refine ⟨fun stage a b => ?_, fun ha sw => ?_, fun hn hl => ?_, fun ha hl => ?_, fun b x hx => ?_,
    fun a ha x hx => ?_, fun b x hx => ?_, fun n m hm => ?_, fun n => ?_⟩
  · rw [hs.queue]
    exact h.fifo stage a b
  · rw [hs.order ha]
    exact h.order ha sw
  · rw [hs.taken, hs.queue, hs.injected]
    exact h.entry hn hl
  · rw [hs.taken, hs.taken, hheld]
    exact h.link ha hl
  · rw [hs.taken] at hx
    exact h.source b x hx
  · rw [hs.taken] at hx
    exact h.within a ha x hx
  · rw [hs.taken] at hx
    exact h.nodes b x hx
  · rw [hs.injected] at hm
    exact h.sources n m hm
  · rw [hs.injected]
    exact h.names n

/-! What an operation on a buffer changes -/

theorem same_setBuffer (c : NetworkParams μ) {v w : ℕ} (hw : w ≠ v) (stage : Stage) (a b : ℕ)
    (buffer : MessageBuffer (NetMsg μ)) (s : NetworkState μ) :
    Same c v s (setBuffer stage w a b buffer s) :=
  ⟨fun _ _ _ => if_neg fun h => hw h.2.1.symm, fun _ => rfl, fun _ => rfl, fun _ => rfl⟩

theorem same_enqueue {stage : Stage} {w a b delta : ℕ} {msg : NetMsg μ} (hw : w ≠ v)
    (h : c.enqueue stage w a b delta msg s = .ok s') : Same c v s s' := by
  rw [enqueue] at h
  split at h
  · cases h
  · rename_i buffer _
    cases h
    obtain ⟨h1, h2, h3, h4⟩ := same_setBuffer c hw stage a b buffer s
    exact ⟨h1, h2, h3, h4⟩

theorem same_take {w a b : ℕ} {msg : NetMsg μ} (hw : w ≠ v) : Same c v s (take w a b msg s) := by
  obtain ⟨h1, -, h3, h4⟩ := same_setBuffer c hw .link a b (s.queue .link w a b).pop s
  exact ⟨h1, fun _ => if_neg fun h => hw h.1.symm, h3, h4⟩

/-- A message has been put at the end of one buffer of the virtual network. -/
structure Appended (v : ℕ) (stage : Stage) (a b : ℕ) (ms : List (NetMsg μ))
    (s s' : NetworkState μ) : Prop where
  fifo : ∀ stage' a' b', (s.queue stage' v a' b').Fifo → (s'.queue stage' v a' b').Fifo
  contents : ∀ stage' a' b', (s'.queue stage' v a' b').contents =
    (s.queue stage' v a' b').contents ++ if stage' = stage ∧ a' = a ∧ b' = b then ms else []
  taken : s'.taken = s.taken
  injected : s'.injected = s.injected
  order : s'.m_link_order = s.m_link_order

theorem appended_enqueue {stage : Stage} {a b delta : ℕ} {msg : NetMsg μ}
    (hfifo : (s.queue stage v a b).Fifo) (h : c.enqueue stage v a b delta msg s = .ok s') :
    Appended v stage a b [msg] s s' := by
  rw [enqueue] at h
  split at h
  · cases h
  · rename_i buffer hbuffer
    cases h
    obtain ⟨hfifo', hcontents⟩ := hfifo.enqueue hbuffer
    refine ⟨fun stage' a' b' hold => ?_, fun stage' a' b' => ?_, rfl, rfl, rfl⟩
    · rw [setBuffer]
      dsimp only
      split
      · exact hfifo'
      · exact hold
    · rw [setBuffer]
      dsimp only
      split
      · rename_i heq
        obtain ⟨rfl, -, rfl, rfl⟩ := heq
        rw [hcontents, if_pos ⟨rfl, rfl, rfl⟩]
      · rename_i hne
        rw [if_neg fun heq => hne ⟨heq.1, rfl, heq.2⟩, List.append_nil]

/-- What the switch puts on its links. -/
structure Spread (c : NetworkParams μ) (v sw : ℕ) (msg : NetMsg μ) (outs : List (ℕ × NetDest))
    (s s' : NetworkState μ) : Prop where
  fifo : ∀ stage a b, (s'.queue stage v a b).Fifo
  link : ∀ a b, (s'.queue .link v a b).contents = (s.queue .link v a b).contents
  intermediate : ∀ a b, (s'.queue .intermediate v a b).contents =
    (s.queue .intermediate v a b).contents ++
      if a = sw then ((outs.find? fun out => out.1 = b).map fun out =>
        { msg with internalDest := some out.2 }).toList
      else []
  taken : s'.taken = s.taken
  injected : s'.injected = s.injected
  order : s'.m_link_order = s.m_link_order

theorem spread_foldlM {sw : ℕ} {msg : NetMsg μ} {outs : List (ℕ × NetDest)}
    (hfifo : ∀ stage a b, (s.queue stage v a b).Fifo) (hnodup : (outs.map (·.1)).Nodup)
    (h : outs.foldlM (fun s out =>
      c.enqueue .intermediate v sw out.1 1 { msg with internalDest := some out.2 } s) s = .ok s') :
    Spread c v sw msg outs s s' := by
  induction outs generalizing s with
  | nil =>
      cases h
      exact ⟨hfifo, fun _ _ => rfl, fun a b => by simp, rfl, rfl, rfl⟩
  | cons out outs ih =>
      obtain ⟨s₁, hfirst, hrest⟩ := ExceptRun.foldlM_cons_ok.mp h
      rw [List.map_cons, List.nodup_cons] at hnodup
      have happ := appended_enqueue (hfifo _ _ _) hfirst
      have hspread := ih (fun stage a b => happ.fifo stage a b (hfifo stage a b)) hnodup.2 hrest
      refine ⟨hspread.fifo, fun a b => ?_, fun a b => ?_, hspread.taken.trans happ.taken,
        hspread.injected.trans happ.injected, hspread.order.trans happ.order⟩
      · rw [hspread.link, happ.contents, if_neg (fun h => by cases h.1), List.append_nil]
      · rw [hspread.intermediate, happ.contents, List.append_assoc]
        refine congrArg (_ ++ ·) ?_
        by_cases ha : a = sw
        · rw [if_pos ha, if_pos ha, List.find?_cons]
          by_cases hb : b = out.1
          · -- the later outputs are for other links
            have hnone : outs.find? (fun out => out.1 = b) = none := by
              refine List.find?_eq_none.mpr fun o ho heq => hnodup.1 ?_
              rw [← hb, ← of_decide_eq_true heq]
              exact List.mem_map_of_mem ho
            rw [if_pos ⟨rfl, ha, hb⟩, hnone]
            simp [hb]
          · rw [if_neg fun h => hb h.2.2]
            simp [Ne.symm hb]
        · rw [if_neg ha, if_neg ha, if_neg fun h => ha h.2.1]
          rfl

theorem route_nodup (table : ℕ → NetDest) {order : List ℕ} (hnodup : order.Nodup)
    (dests : NetDest) : ((route table order dests).1.map (·.1)).Nodup := by
  induction order generalizing dests with
  | nil => exact List.nodup_nil
  | cons link order ih =>
      rw [List.nodup_cons] at hnodup
      rw [route]
      split
      · rw [List.map_cons, List.nodup_cons]
        refine ⟨fun hmem => hnodup.1 ?_, ih hnodup.2 _⟩
        obtain ⟨out, hout, heq⟩ := List.mem_map.mp hmem
        have hlink : out.1 = link := heq
        exact hlink ▸ ((route_spec table order _).2.1 out hout).1
      · exact ih hnodup.2 _

theorem outPorts_nodup (t : Topology) (sw : ℕ) : (t.outPorts sw).Nodup :=
  List.nodup_range.filter _

theorem connected (c : NetworkParams μ) : Connected c.toTopologyParams c.topology :=
  makeHierarchicalSwitch_connected c.toTopologyParams

theorem sent_spec {a b : ℕ} {m m' : NetMsg μ} (h : c.sent a b m = some m') :
    ∃ part : NetDest, m' = { m with internalDest := some part } ∧ b ∈ c.topology.outPorts a ∧
      part.Nonempty ∧ part ⊆ m.getInternalDestination ∧
      part ⊆ shortest_path_to_node c.toTopologyParams c.topology a b := by
  obtain ⟨out, hfind, rfl⟩ := Option.map_eq_some_iff.mp h
  obtain rfl : out.1 = b := by simpa using List.find?_some hfind
  obtain ⟨hport, hne, hsub, htable⟩ := (route_spec _ _ _).2.1 out (List.mem_of_find?_eq_some hfind)
  exact ⟨out.2, rfl, hport, hne, hsub, htable⟩

theorem switch_of_linked (c : NetworkParams μ) {a b : ℕ} (h : Linked c.topology a b) :
    a < c.m_nodes ∧ c.m_nodes + c.m_nodes ≤ b ∨ c.m_nodes + c.m_nodes ≤ a ∧ c.m_nodes ≤ b := by
  obtain ⟨l, hl, rfl, rfl⟩ := h
  exact (c.connected.ok l hl).ends

/-- What has come to the end of a link was put in by a node or sent on by a switch. -/
theorem Flow.origin_of_link (h : Flow c v s) {a b : ℕ} (hl : Linked c.topology a b) {m : NetMsg μ}
    (hm : m ∈ takenFrom a (s.taken v b) ++ (s.queue .link v a b).contents) :
    a < c.m_nodes ∧ m ∈ s.injected v a ∨
      c.m_nodes + c.m_nodes ≤ a ∧ ∃ x ∈ s.taken v a, c.sent a b x.2 = some m := by
  rcases switch_of_linked c hl with ⟨ha, -⟩ | ⟨ha, -⟩
  · rw [h.entry ha hl] at hm
    exact .inl ⟨ha, hm⟩
  · have hmem : m ∈ ((s.taken v a).map (·.2)).filterMap (c.sent a b) := by
      rw [← h.link ha hl, held, ← List.append_assoc]
      exact List.mem_append_left _ hm
    obtain ⟨m₀, hm₀, hsent⟩ := List.mem_filterMap.mp hmem
    obtain ⟨x, hx, rfl⟩ := List.mem_map.mp hm₀
    exact .inr ⟨ha, x, hx, hsent⟩

/-- What comes over a link to a switch is for machines that the switch has a path to. -/
theorem Flow.within_of_link (h : Flow c v s) {a b : ℕ} (hl : Linked c.topology a b)
    (hb : c.m_nodes + c.m_nodes ≤ b) {m : NetMsg μ}
    (hm : m ∈ (s.queue .link v a b).contents) :
    Within c.toTopologyParams c.topology b m.getInternalDestination := by
  rcases h.origin_of_link hl (List.mem_append_right _ hm) with ⟨ha, hmem⟩ | ⟨ha, x, hx, hsent⟩
  · obtain ⟨-, hnone, hsub⟩ := h.sources a m hmem
    intro d hd
    rw [NetworkMessage.getInternalDestination, hnone] at hd
    obtain ⟨i, hi, rfl⟩ := mem_machines.mp (hsub hd)
    exact ⟨i, hi, rfl, c.connected.dist_lt ha hl hi⟩
  · obtain ⟨part, rfl, hport, hne, hsub, htable⟩ := sent_spec hsent
    exact (output_spec c.connected (h.within a ha x hx) hport hne hsub htable).2.2
      (Nat.not_lt.mpr hb)

theorem Flow.node_of_link (h : Flow c v s) {a b : ℕ} (hl : Linked c.topology a b) {m : NetMsg μ}
    (hm : m ∈ (s.queue .link v a b).contents) : m.name.1 < c.m_nodes := by
  rcases h.origin_of_link hl (List.mem_append_right _ hm) with ⟨ha, hmem⟩ | ⟨-, x, hx, hsent⟩
  · rw [(h.sources a m hmem).1]
    exact ha
  · obtain ⟨part, rfl, -⟩ := sent_spec hsent
    exact h.nodes a x hx

theorem taken_take (v a b : ℕ) (msg : NetMsg μ) (s : NetworkState μ) (y : ℕ) :
    (take v a b msg s).taken v y = s.taken v y ++ if y = b then [(a, msg)] else [] := by
  rw [take]
  dsimp only
  by_cases hy : y = b
  · rw [if_pos ⟨rfl, hy⟩, if_pos hy, hy]
  · rw [if_neg fun h => hy h.2, if_neg hy, List.append_nil]

theorem queue_take (v a b : ℕ) (msg : NetMsg μ) (s : NetworkState μ) (stage : Stage) (x y : ℕ) :
    (take v a b msg s).queue stage v x y =
      if stage = .link ∧ x = a ∧ y = b then (s.queue .link v a b).pop
      else s.queue stage v x y := by
  rw [take, pop, setBuffer]
  dsimp only
  by_cases h : stage = .link ∧ x = a ∧ y = b
  · rw [if_pos ⟨h.1, rfl, h.2⟩, if_pos h]
  · rw [if_neg fun h' => h ⟨h'.1, h'.2.2⟩, if_neg h]

/-- Taken and still to take: a message goes over from the one to the other. -/
theorem takenFrom_take {a b : ℕ} {msg : NetMsg μ} {rest : List (NetMsg μ)}
    (hhead : (s.queue .link v a b).contents = msg :: rest) (x y : ℕ) :
    takenFrom x ((take v a b msg s).taken v y) ++ ((take v a b msg s).queue .link v x y).contents =
      takenFrom x (s.taken v y) ++ (s.queue .link v x y).contents := by
  rw [taken_take, queue_take]
  by_cases hy : y = b
  · rw [if_pos hy, takenFrom_concat]
    by_cases hx : a = x
    · rw [if_pos hx, if_pos ⟨rfl, hx.symm, hy⟩, MessageBuffer.contents_pop, hhead, ← hx, hy, hhead,
        List.append_assoc]
      rfl
    · rw [if_neg hx, if_neg fun h => hx h.2.1.symm, List.append_nil]
  · rw [if_neg hy, if_neg fun h => hy h.2.2, List.append_nil]

/-- Station `b` takes a message from `a` and spreads it, if it is a switch. -/
theorem Flow.take (h : Flow c v s) {a b : ℕ} (hl : Linked c.topology a b) {msg : NetMsg μ}
    {rest : List (NetMsg μ)} (hhead : (s.queue .link v a b).contents = msg :: rest)
    {outs : List (ℕ × NetDest)} (hspread : Spread c v b msg outs s s')
    (houts : c.m_nodes + c.m_nodes ≤ b → ∀ y, (outs.find? fun out => out.1 = y).map
      (fun out => { msg with internalDest := some out.2 }) = c.sent b y msg) :
    Flow c v (NetworkParams.take v a b msg s') := by
  have hhead' : (s'.queue .link v a b).contents = msg :: rest := (hspread.link a b).trans hhead
  have hmsg : msg ∈ (s.queue .link v a b).contents := hhead ▸ List.mem_cons_self
  have hstill : ∀ x y, takenFrom x ((NetworkParams.take v a b msg s').taken v y) ++
      ((NetworkParams.take v a b msg s').queue .link v x y).contents =
      takenFrom x (s.taken v y) ++ (s.queue .link v x y).contents := by
    intro x y
    rw [takenFrom_take hhead', hspread.taken, hspread.link]
  refine ⟨fun stage x y => ?_, fun hadaptive sw => ?_, fun {n y} hn hny => ?_,
    fun {x y} hx hxy => ?_, fun y e he => ?_, fun y hy e he => ?_, fun y e he => ?_,
    fun n m hm => ?_, fun n => ?_⟩
  · rw [queue_take]
    split
    · exact (hspread.fifo _ _ _).pop
    · exact hspread.fifo _ _ _
  · exact (congrFun hspread.order sw).trans (h.order hadaptive sw)
  · rw [hstill, h.entry hn hny]
    exact (congrFun (congrFun hspread.injected v) n).symm
  · have hmid : ((NetworkParams.take v a b msg s').queue .intermediate v x y).contents =
        (s'.queue .intermediate v x y).contents := by
      rw [queue_take, if_neg fun h => Stage.noConfusion h.1]
    rw [held, hmid, hspread.intermediate, ← List.append_assoc, hstill, taken_take, hspread.taken,
      List.map_append, List.filterMap_append, ← h.link hx hxy, held]
    simp only [List.append_assoc, List.append_cancel_left_eq]
    by_cases hxb : x = b
    · rw [if_pos hxb, if_pos hxb, houts (hxb ▸ hx) y, List.map_singleton, hxb,
        List.filterMap_cons, List.filterMap_nil]
      cases c.sent b y msg with
      | none => rfl
      | some m => rfl
    · rw [if_neg hxb, if_neg hxb]
      rfl
  · rw [taken_take, hspread.taken] at he
    rcases List.mem_append.mp he with he | he
    · exact h.source y e he
    · split at he
      · rename_i hy
        rw [List.mem_singleton.mp he, hy]
        exact hl
      · cases he
  · rw [taken_take, hspread.taken] at he
    rcases List.mem_append.mp he with he | he
    · exact h.within y hy e he
    · split at he
      · rename_i heq
        rw [List.mem_singleton.mp he]
        exact h.within_of_link (heq ▸ hl) hy (heq ▸ hmsg)
      · cases he
  · rw [taken_take, hspread.taken] at he
    rcases List.mem_append.mp he with he | he
    · exact h.nodes y e he
    · split at he
      · rw [List.mem_singleton.mp he]
        exact h.node_of_link hl hmsg
      · cases he
  · rw [show (NetworkParams.take v a b msg s').injected = s.injected from hspread.injected] at hm
    exact h.sources n m hm
  · rw [show (NetworkParams.take v a b msg s').injected = s.injected from hspread.injected]
    exact h.names n

/-! The perfect switch -/

theorem same_linkOrder (c : NetworkParams μ) (v w sw : ℕ) (s : NetworkState μ) :
    Same c v s
      { s with m_link_order := Function.update s.m_link_order sw (c.linkOrder w sw s) } := by
  refine ⟨fun _ _ _ => rfl, fun _ => rfl, fun _ => rfl, fun ha => ?_⟩
  dsimp only
  rw [linkOrder, ha, if_neg Bool.false_ne_true, Function.update_eq_self]

/-- An ordered network looks at the links in one order. -/
theorem Flow.linkOrder_eq (h : Flow c v s) (hv : c.isVNetOrdered v = true) (sw : ℕ) :
    c.linkOrder v sw s = c.topology.outPorts sw := by
  rw [linkOrder, if_pos hv]
  split
  · rfl
  · rename_i ha
    exact h.order (Bool.eq_false_iff.mpr ha) sw

theorem Flow.forward (h : Flow c v s) (hv : c.isVNetOrdered v = true) {w sw a : ℕ}
    (hl : Linked c.topology a sw) {msg : NetMsg μ} {rest : List (NetMsg μ)}
    (hhead : (s.queue .link w a sw).contents = msg :: rest) {more : Bool}
    (hfwd : c.forward w sw a msg s = .ok (s', more)) : Flow c v s' := by
  have horder := h.frame (same_linkOrder c v w sw s)
  rw [NetworkParams.forward] at hfwd
  dsimp only at hfwd
  split at hfwd
  · cases hfwd
  · split at hfwd
    · split at hfwd
      · cases hfwd
      · rename_i s₁ hfold
        cases hfwd
        by_cases hw : w = v
        · subst hw
          rw [h.linkOrder_eq hv] at hfold horder
          refine horder.take hl hhead (spread_foldlM horder.fifo ?_ hfold) fun _ _ => rfl
          exact route_nodup _ (outPorts_nodup _ _) _
        · have hsame := ExceptRun.foldlM_invariant (I := fun _ t => Same c v _ t)
            (fun out _ t t' ht hout => ht.trans (same_enqueue hw hout)) (.refl _) hfold
          exact horder.frame (hsame.trans (same_take hw))
    · cases hfwd
      exact horder

theorem Flow.drain (h : Flow c v s) (hv : c.isVNetOrdered v = true) {w sw a : ℕ}
    (hl : Linked c.topology a sw) {fuel : ℕ} (hdrain : c.drain w sw a fuel s = .ok s') :
    Flow c v s' := by
  induction fuel generalizing s with
  | zero =>
      cases hdrain
      exact h
  | succ fuel ih =>
      rw [NetworkParams.drain] at hdrain
      split at hdrain
      · cases hdrain
        exact h
      · rename_i node rest hheap
        have hhead : (s.queue .link w a sw).contents =
            node.m_msgptr :: rest.map (·.m_msgptr) := by
          rw [MessageBuffer.contents, hheap, List.map_cons]
        split at hdrain
        · split at hdrain
          · cases hdrain
          · exact ih (h.forward hv hl hhead ‹_›) hdrain
          · cases hdrain
            exact h.forward hv hl hhead ‹_›
        · cases hdrain
          exact h

theorem Flow.servePorts (h : Flow c v s) (hv : c.isVNetOrdered v = true) {w sw counter incoming : ℕ}
    (hserve : c.servePorts w sw counter incoming s = .ok s') : Flow c v s' := by
  induction counter generalizing incoming s with
  | zero =>
      cases hserve
      exact h
  | succ counter ih =>
      rw [NetworkParams.servePorts] at hserve
      split at hserve
      · cases hserve
        exact h
      · rename_i a hport
        have hl : Linked c.topology a sw := by
          have hmem := List.mem_of_getElem? hport
          exact c.connected.ok.hasLink_iff.mp (List.mem_filter.mp hmem).2
        split at hserve
        · cases hserve
        · exact ih (h.drain hv hl ‹_›) hserve

theorem Flow.wakeupSwitch (h : Flow c v s) (hv : c.isVNetOrdered v = true) {sw : ℕ}
    (hwakeup : c.wakeupSwitch sw s = .ok s') : Flow c v s' := by
  refine ExceptRun.foldlM_invariant (I := fun _ t => Flow c v t) (fun w _ t t' ht hserve => ?_)
    h hwakeup
  refine Flow.servePorts (ht.frame ?_) hv hserve
  exact ⟨fun _ _ _ => rfl, fun _ => rfl, fun _ => rfl, fun _ => rfl⟩

/-! The throttle -/

theorem queue_pop (stage : Stage) (v a b : ℕ) (s : NetworkState μ) (stage' : Stage) (x y : ℕ) :
    (pop stage v a b s).queue stage' v x y =
      if stage' = stage ∧ x = a ∧ y = b then (s.queue stage v a b).pop
      else s.queue stage' v x y := by
  rw [pop, setBuffer]
  dsimp only
  by_cases h : stage' = stage ∧ x = a ∧ y = b
  · rw [if_pos ⟨h.1, rfl, h.2⟩, if_pos h]
  · rw [if_neg fun h' => h ⟨h'.1, h'.2.2⟩, if_neg h]

/-- A message goes over from one buffer of a link to the other. -/
theorem Flow.move (h : Flow c v s) {a b delta : ℕ} (ha : c.m_nodes + c.m_nodes ≤ a)
    {msg : NetMsg μ} {rest : List (NetMsg μ)}
    (hhead : (s.queue .intermediate v a b).contents = msg :: rest)
    (henq : c.enqueue .link v a b delta msg s = .ok s') :
    Flow c v (pop .intermediate v a b s') := by
  have happ := appended_enqueue (h.fifo _ _ _) henq
  have hlink : ∀ x y, ((pop .intermediate v a b s').queue .link v x y).contents =
      (s.queue .link v x y).contents ++ if x = a ∧ y = b then [msg] else [] := by
    intro x y
    rw [queue_pop, if_neg fun h => Stage.noConfusion h.1, happ.contents]
    by_cases hxy : x = a ∧ y = b
    · rw [if_pos ⟨rfl, hxy⟩, if_pos hxy]
    · rw [if_neg fun h => hxy h.2, if_neg hxy]
  have hmid : ∀ x y, (s'.queue .intermediate v x y).contents =
      (s.queue .intermediate v x y).contents := by
    intro x y
    rw [happ.contents, if_neg fun h => Stage.noConfusion h.1, List.append_nil]
  have hheld : ∀ x y, held (pop .intermediate v a b s') v x y = held s v x y := by
    intro x y
    rw [held, held, hlink, queue_pop, List.append_assoc]
    refine congrArg (_ ++ ·) ?_
    by_cases hxy : x = a ∧ y = b
    · obtain ⟨rfl, rfl⟩ := hxy
      rw [if_pos ⟨rfl, rfl⟩, if_pos ⟨rfl, rfl, rfl⟩, MessageBuffer.contents_pop, hmid, hhead]
      rfl
    · rw [if_neg hxy, if_neg fun h => hxy h.2, hmid]
      rfl
  have htaken : (pop .intermediate v a b s').taken = s.taken := happ.taken
  have hinjected : (pop .intermediate v a b s').injected = s.injected := happ.injected
  refine ⟨fun stage x y => ?_, fun hadaptive sw => ?_, fun {n y} hn hny => ?_,
    fun {x y} hx hxy => ?_, ?_, ?_, ?_, ?_, ?_⟩
  · rw [queue_pop]
    split
    · exact (happ.fifo _ _ _ (h.fifo _ _ _)).pop
    · exact happ.fifo _ _ _ (h.fifo _ _ _)
  · exact (congrFun happ.order sw).trans (h.order hadaptive sw)
  · rw [hlink, if_neg fun h => by omega, List.append_nil, htaken, hinjected]
    exact h.entry hn hny
  · rw [hheld, htaken]
    exact h.link hx hxy
  · rw [htaken]
    exact h.source
  · rw [htaken]
    exact h.within
  · rw [htaken]
    exact h.nodes
  · rw [hinjected]
    exact h.sources
  · rw [hinjected]
    exact h.names

theorem same_spend (c : NetworkParams μ) (v w a b bw units : ℕ) (s : NetworkState μ) :
    Same c v s (spend w a b bw units s).2 :=
  ⟨fun _ _ _ => rfl, fun _ => rfl, fun _ => rfl, fun _ => rfl⟩

theorem Flow.transfer {w a b : ℕ} (ha : c.m_nodes + c.m_nodes ≤ a) {fuel : ℕ}
    {r r' : ℕ × NetworkState μ} (h : Flow c v r.2) (htransfer : c.transfer w a b fuel r = .ok r') :
    Flow c v r'.2 := by
  induction fuel generalizing r with
  | zero =>
      cases htransfer
      exact h
  | succ fuel ih =>
      obtain ⟨bw, s⟩ := r
      rw [NetworkParams.transfer] at htransfer
      split at htransfer
      · split at htransfer
        · rename_i node rest hheap
          split at htransfer
          · split at htransfer
            · cases htransfer
            · rename_i s₁ henq
              refine ih ?_ htransfer
              refine Flow.frame ?_ (same_spend c v w a b bw _ _)
              by_cases hw : w = v
              · subst hw
                have hhead : (s.queue .intermediate w a b).contents =
                    node.m_msgptr :: rest.map (·.m_msgptr) := by
                  rw [MessageBuffer.contents, hheap, List.map_cons]
                exact Flow.move h ha hhead henq
              · exact h.frame ((same_enqueue hw henq).trans (same_setBuffer c hw _ _ _ _ _))
          · exact ih (h.frame (same_spend c v w a b bw _ _)) htransfer
        · exact ih (h.frame (same_spend c v w a b bw _ _)) htransfer
      · cases htransfer
        exact h

theorem Flow.wakeupThrottle (h : Flow c v s) {a b : ℕ} (ha : c.m_nodes + c.m_nodes ≤ a)
    {r : ℕ × NetworkState μ} (hwakeup : c.wakeupThrottle a b s = .ok r) : Flow c v r.2 := by
  refine ExceptRun.foldlM_invariant (I := fun _ t => Flow c v t.2) (fun _ _ t t' ht hturn => ?_)
    (s := (c.getLinkBandwidth a b, s)) h hwakeup
  split at hturn
  · cases hturn
    exact ht
  · refine Flow.transfer ha (ht.frame ?_) hturn
    exact ⟨fun _ _ _ => rfl, fun _ => rfl, fun _ => rfl, fun _ => rfl⟩

/-! Steps -/

/-- A node has one link into the network, so its messages are all on that. -/
theorem Flow.inject (h : Flow c v s) {w node sw delta : ℕ} {label : μ} {destination : NetDest}
    (hnode : node < c.m_nodes) (hl : Linked c.topology node sw)
    (hsub : destination ⊆ machines c.toTopologyParams)
    (hfresh : (node, label) ∉ (s.injected w node).map (·.name))
    (hinject : c.inject w node sw delta label destination s = .ok s') : Flow c v s' := by
  rw [NetworkParams.inject] at hinject
  split at hinject
  · cases hinject
  · rename_i s₁ henq
    cases hinject
    by_cases hw : w = v
    · subst hw
      have happ := appended_enqueue (h.fifo _ _ _) henq
      obtain ⟨root, hf⟩ := makeHierarchicalSwitch_funnel c.toTopologyParams
      have hroot := hf.root_switch
      have hheld : ∀ {x}, c.m_nodes + c.m_nodes ≤ x → ∀ y stage,
          (s₁.queue stage w x y).contents = (s.queue stage w x y).contents := by
        intro x hx y stage
        rw [happ.contents, if_neg fun h => by omega, List.append_nil]
      refine ⟨fun stage x y => happ.fifo _ _ _ (h.fifo _ _ _),
        fun hadaptive x => (congrFun happ.order x).trans (h.order hadaptive x),
        fun {n y} hn hny => ?_, fun {x y} hx hxy => ?_, ?_, ?_, ?_, fun n m hm => ?_, fun n => ?_⟩
      · dsimp only
        rw [happ.taken, happ.contents, ← List.append_assoc, h.entry hn hny]
        by_cases hnn : n = node
        · subst hnn
          have hy : y = sw := hf.up (by omega) hny hl
          rw [if_pos ⟨rfl, rfl, hy⟩, if_pos ⟨rfl, rfl⟩]
        · rw [if_neg fun h => hnn h.2.1, if_neg fun h => hnn h.2, List.append_nil]
      · dsimp only
        rw [held, hheld hx, hheld hx, happ.taken]
        exact h.link hx hxy
      · dsimp only
        rw [happ.taken]
        exact h.source
      · dsimp only
        rw [happ.taken]
        exact h.within
      · dsimp only
        rw [happ.taken]
        exact h.nodes
      · dsimp only at hm
        split at hm
        · rename_i heq
          rcases List.mem_append.mp hm with hm | hm
          · rw [heq.2]
            exact h.sources node m hm
          · rw [List.mem_singleton.mp hm, heq.2]
            exact ⟨rfl, rfl, hsub⟩
        · exact h.sources n m hm
      · dsimp only
        split
        · rw [List.map_append]
          refine List.Nodup.append (h.names node) (List.nodup_singleton _) ?_
          intro x hx hx'
          obtain rfl : x = (node, label) := List.mem_singleton.mp hx'
          exact hfresh hx
        · exact h.names n
    · obtain ⟨h1, h2, h3, h4⟩ := same_enqueue (v := v) hw henq
      exact h.frame ⟨h1, h2, fun n => if_neg fun h => hw h.1.symm, h4⟩

theorem Flow.receive (h : Flow c v s) {w a b : ℕ} (hl : Linked c.topology a b)
    (hb : b < c.m_nodes + c.m_nodes) : Flow c v (NetworkParams.receive w a b s) := by
  rw [NetworkParams.receive]
  split
  · exact h
  · rename_i node rest hheap
    by_cases hw : w = v
    · subst hw
      have hhead : (s.queue .link w a b).contents = node.m_msgptr :: rest.map (·.m_msgptr) := by
        rw [MessageBuffer.contents, hheap, List.map_cons]
      have hnone : Spread c w b node.m_msgptr [] s s :=
        spread_foldlM h.fifo List.nodup_nil rfl
      exact h.take hl hhead hnone fun hsw => by omega
    · exact h.frame (same_take hw)

theorem Flow.step [DecidableEq μ] (h : Flow c v s) (hv : c.isVNetOrdered v = true) {e : NetworkEvent μ}
    (hstep : c.step s e = some s') : Flow c v s' := by
  have hok : ∀ {α : Type} {x : Except NetworkFault α} {y : α}, x.toOption = some y → x = .ok y := by
    intro α x y hx
    cases x with
    | error f => cases hx
    | ok z => exact congrArg _ (Option.some.inj hx)
  cases e with
  | inject w node sw delta label destination =>
      rw [NetworkParams.step] at hstep
      split at hstep
      · rename_i hcond
        obtain ⟨-, hnode, hl, hsub, hfresh⟩ := hcond
        exact h.inject hnode (c.connected.ok.hasLink_iff.mp hl) hsub hfresh (hok hstep)
      · cases hstep
  | wakeupSwitch sw =>
      rw [NetworkParams.step] at hstep
      split at hstep
      · exact h.wakeupSwitch hv (hok hstep)
      · cases hstep
  | wakeupThrottle a b =>
      rw [NetworkParams.step] at hstep
      split at hstep
      · rename_i hcond
        obtain ⟨r, hr, rfl⟩ := Option.map_eq_some_iff.mp hstep
        exact h.wakeupThrottle hcond.1 (hok hr)
      · cases hstep
  | receive w a b =>
      rw [NetworkParams.step] at hstep
      split at hstep
      · rename_i hcond
        cases hstep
        exact h.receive (c.connected.ok.hasLink_iff.mp hcond.1) hcond.2.1
      · cases hstep
  | tick =>
      cases hstep
      exact h.frame ⟨fun _ _ _ => rfl, fun _ => rfl, fun _ => rfl, fun _ => rfl⟩

end NetworkParams
end FeS2.Ruby
