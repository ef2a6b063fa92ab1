import Mathlib.Logic.Relation
import FeS2.Ruby.TopologyTree

/-!
The next hop of a route is the only one. Towards a machine, a message that is
below the root has one way up; from the root on, the ways down to the machine's
port end in the same links, so they are one way.
-/

namespace FeS2.Ruby
open FeS2.Ruby.Topology FeS2.Ruby.SimpleNetwork
namespace Topology
variable {p : TopologyParams} {t : Topology} {root i a b b' : ℕ}

/-- The routing table of `a` sends messages for machine `i` to `b`. -/
structure Toward (p : TopologyParams) (t : Topology) (i a b : ℕ) : Prop where
  node : i < p.m_nodes
  linked : Linked t a b
  fin : t.dist a (i + p.m_nodes) < INFINITE_LATENCY
  table : machineOf p i ∈ shortest_path_to_node p t a b

theorem Toward.dist_lt (hc : Connected p t) (h : Toward p t i a b) :
    t.dist b (i + p.m_nodes) < t.dist a (i + p.m_nodes) := by
  obtain ⟨-, heq⟩ := mem_shortest_path.mp h.table
  have hpos := (hc.ok.hasLink_weight.mp (hc.ok.hasLink_iff.mpr h.linked)).1
  omega

theorem Toward.switch (hc : Connected p t) (h : Toward p t i a b) :
    a < p.m_nodes ∨ p.m_nodes + p.m_nodes ≤ a := by
  obtain ⟨l, hl, rfl, -⟩ := h.linked
  exact (hc.ok l hl).ends.imp And.left And.left

/-- Ports and what is under the root. -/
def Low (p : TopologyParams) (root a : ℕ) : Prop :=
  p.m_nodes ≤ a ∧ a < p.m_nodes + p.m_nodes ∨ root < a

theorem Low.root_le {root : ℕ} (ha : Low p root a) (hc : Connected p t)
    (h : Toward p t i a b) : root ≤ a := by
  rcases ha with ⟨hle, hlt⟩ | hroot
  · rcases h.switch hc with hn | hn
    · omega
    · omega
  · exact hroot.le

end Topology
end FeS2.Ruby
