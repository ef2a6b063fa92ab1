import Mathlib.Data.List.Perm.Basic
import FeS2.Library.EventSystem
import FeS2.Ruby.TopologyPaths

/-!
The switches of the simple network. A message waits at the input of a switch, in
any of its buffers, until the switch takes it, with its output ports in any order:
adaptive routing sorts them by load, with random ties. The throttles only delay.
`injected` and the names of the messages are not in the code.
-/

namespace FeS2.Ruby
open FeS2.Ruby.Topology

structure NetworkMessage (μ : Type) where
  name : μ
  destination : NetDest
  internalDest : Option NetDest := none
  deriving DecidableEq

def NetworkMessage.getInternalDestination {μ : Type} (m : NetworkMessage μ) : NetDest :=
  m.internalDest.getD m.destination

structure SimpleNetwork (μ : Type) where
  waiting : Multiset (ℕ × NetworkMessage μ) := 0
  delivered : Multiset (μ × MachineID) := 0
  injected : List (μ × NetDest) := []
  failed : Bool := false

namespace SimpleNetwork
variable {μ : Type} [DecidableEq μ]

/-- The loop over the routing table: what goes down each link, and what is left. -/
def route (table : ℕ → NetDest) : List ℕ → NetDest → List (ℕ × NetDest) × NetDest
  | [], dests => ([], dests)
  | link :: order, dests =>
      if (dests ∩ table link).Nonempty then
        let r := route table order (dests \ table link)
        ((link, dests ∩ table link) :: r.1, r.2)
      else route table order dests

def machines (p : TopologyParams) : NetDest := (Finset.range p.m_nodes).image (machineOf p)

/-- A copy of the message for one link, to a node or to a switch. -/
def enqueue (p : TopologyParams) (m : NetworkMessage μ) (out : ℕ × NetDest)
    (s : SimpleNetwork μ) : SimpleNetwork μ :=
  if out.1 < p.m_nodes + p.m_nodes then
    { s with delivered := (m.name, machineOf p (out.1 - p.m_nodes)) ::ₘ s.delivered }
  else { s with waiting := (out.1, { m with internalDest := some out.2 }) ::ₘ s.waiting }

/-- `PerfectSwitch::wakeup` for one message. -/
def wakeup (p : TopologyParams) (t : Topology) (sw : ℕ) (m : NetworkMessage μ) (order : List ℕ)
    (s : SimpleNetwork μ) : Option (SimpleNetwork μ) :=
  if (sw, m) ∈ s.waiting ∧ order.Perm (t.outPorts sw) then
    let r := route (shortest_path_to_node p t sw) order m.getInternalDestination
    if r.2 ≠ ∅ then some { s with failed := true }
    else some (r.1.foldl (fun s out => s.enqueue p m out)
      { s with waiting := s.waiting.erase (sw, m) })
  else none

inductive Event (μ : Type)
  | inject (name : μ) (node sw : ℕ) (destination : NetDest)
  | wakeup (sw : ℕ) (m : NetworkMessage μ) (order : List ℕ)

def Event.isWakeup : Event μ → Bool
  | .inject _ _ _ _ => false
  | .wakeup _ _ _ => true

/-- A node puts its message into the buffer of the switch it is linked to. -/
def inject (p : TopologyParams) (t : Topology) (name : μ) (node sw : ℕ) (destination : NetDest)
    (s : SimpleNetwork μ) : Option (SimpleNetwork μ) :=
  if node < p.m_nodes ∧ t.hasLink node sw ∧ destination ⊆ machines p ∧
      name ∉ s.injected.map Prod.fst then
    some { s with
      waiting := (sw, { name := name, destination := destination }) ::ₘ s.waiting
      injected := (name, destination) :: s.injected }
  else none

def step (p : TopologyParams) (t : Topology) (s : SimpleNetwork μ) :
    Event μ → Option (SimpleNetwork μ)
  | .inject name node sw destination => s.inject p t name node sw destination
  | .wakeup sw m order => if s.failed then none else s.wakeup p t sw m order

/-- Where a message has been received. -/
def received (name : μ) (s : SimpleNetwork μ) : Multiset MachineID :=
  (s.delivered.map fun x => if x.1 = name then {x.2} else 0).sum

/-- Where copies of a message are still to go. -/
def pending (name : μ) (s : SimpleNetwork μ) : Multiset MachineID :=
  (s.waiting.map fun x => if x.2.name = name then x.2.getInternalDestination.val else 0).sum

/-- Nothing, for a name that is not in use. -/
def destinationOf (name : μ) (s : SimpleNetwork μ) : NetDest :=
  ((s.injected.find? fun x => x.1 = name).map Prod.snd).getD ∅

/-- The distance from a switch to a machine. -/
def distanceTo (p : TopologyParams) (t : Topology) (sw : ℕ) (d : MachineID) : ℕ :=
  t.dist sw (portNumber p d + p.m_nodes)

end SimpleNetwork
end FeS2.Ruby
