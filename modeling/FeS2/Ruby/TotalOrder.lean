import FeS2.Library.EventSystem
import FeS2.Ruby.NetworkFlow

/-!
An ordered virtual network is totally ordered. All messages pass the root, on one
way from their node and on one way to each of their machines, and every link keeps
their order. So what a machine receives comes in the order of the root.
-/

namespace FeS2.Ruby
open FeS2.Ruby.Topology FeS2.Ruby.SimpleNetwork ArrivalLog
namespace NetworkParams
variable {μ : Type} {c : NetworkParams μ} {v : ℕ} {s : NetworkState μ} {root a b i n : ℕ}
  {dests : NetDest} {P : ℕ × μ → Bool}

/-- Where a message comes from. -/
theorem Flow.origin (h : Flow c v s) {x : ℕ × NetMsg μ} (hx : x ∈ s.taken v b) :
    x.1 < c.m_nodes ∧ x.2 ∈ s.injected v x.1 ∨
      c.m_nodes + c.m_nodes ≤ x.1 ∧ ∃ y ∈ s.taken v x.1, c.sent x.1 b y.2 = some x.2 :=
  h.origin_of_link (h.source b x hx) (List.mem_append_left _ (mem_takenFrom.mpr hx))

end NetworkParams
end FeS2.Ruby
