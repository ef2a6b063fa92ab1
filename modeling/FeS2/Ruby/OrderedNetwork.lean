import FeS2.Ruby.MessageBuffer
import FeS2.Ruby.PerfectSwitch

/-!
The simple network with its buffers, one of each kind for every virtual network
and link: a perfect switch puts a message into the intermediate buffer of a link,
the link's throttle moves it into the buffer at the end of the link. A port is
named by the station at its other end. `injected` and `taken` are not in the code;
they record what the nodes have sent, and what each station has taken from whom.
-/

namespace FeS2.Ruby
open FeS2.Ruby.Topology FeS2.Ruby.SimpleNetwork

/-- A message is named by its node and a label of its own. -/
abbrev NetMsg (μ : Type) := NetworkMessage (ℕ × μ)

inductive Stage
  | intermediate
  | link
  deriving DecidableEq

/-- Buffers by stage, virtual network and ends of their link. -/
abbrev Buffers (μ : Type) := Stage → ℕ → ℕ → ℕ → MessageBuffer (NetMsg μ)

structure NetworkState (μ : Type) where
  time : ℕ
  queue : Buffers μ
  m_round_robin_start : ℕ → ℕ
  m_link_order : ℕ → List ℕ
  m_units_remaining : ℕ → ℕ → ℕ → ℕ
  m_last_vnet : ℕ → ℕ → ℕ
  /-- How many random numbers have been drawn. -/
  draws : ℕ
  injected : ℕ → ℕ → List (NetMsg μ)
  taken : ℕ → ℕ → List (ℕ × NetMsg μ)

/-- `emptiest` is the link order by load, with random ties. -/
structure NetworkParams (μ : Type) extends TopologyParams where
  m_virtual_networks : ℕ
  isVNetOrdered : ℕ → Bool
  ADAPTIVE_ROUTING : Bool
  RANDOMIZATION : Bool
  random : ℕ → ℕ
  getLinkBandwidth : ℕ → ℕ → ℕ
  network_message_to_size : NetMsg μ → ℕ
  m_max_size : Stage → ℕ → ℕ → ℕ → Option ℕ
  emptiest : NetworkState μ → ℕ → List ℕ
  emptiest_perm : ∀ s sw,
    (emptiest s sw).Perm ((makeHierarchicalSwitch toTopologyParams).outPorts sw)

inductive NetworkFault
  | buffer (f : BufferFault)
  | leftover

namespace NetworkParams
variable {μ : Type} [DecidableEq μ]

def topology (c : NetworkParams μ) : Topology := makeHierarchicalSwitch c.toTopologyParams

/-- All buffers inside the network are ordered, and the nodes' as their network is. -/
def init (c : NetworkParams μ) : NetworkState μ where
  time := 1
  queue := fun stage v a b =>
    { m_strict_fifo := if a < c.m_nodes ∨ b < c.m_nodes + c.m_nodes then c.isVNetOrdered v else true
      m_max_size := c.m_max_size stage v a b }
  m_round_robin_start := fun _ => 0
  m_link_order := c.topology.outPorts
  m_units_remaining := fun _ _ _ => 0
  m_last_vnet := fun _ _ => 0
  draws := 0
  injected := fun _ _ => []
  taken := fun _ _ => []

/-! Buffers -/

/-- `random_time`, with the count of draws after it. -/
def random_time (random : ℕ → ℕ) (draws : ℕ) : ℕ × ℕ :=
  let time := 1 + random draws % 4
  if random (draws + 1) % 8 = 0 then (time + 100 + random (draws + 2) % 0xf, draws + 3)
  else (time, draws + 2)

/-- The time that an enqueue draws, if it does. -/
def draw (c : NetworkParams μ) (draws : ℕ) : Option ℕ × ℕ :=
  if c.RANDOMIZATION then
    let r := random_time c.random draws
    (some r.1, r.2)
  else (none, draws)

def setBuffer (stage : Stage) (v a b : ℕ) (buffer : MessageBuffer (NetMsg μ))
    (s : NetworkState μ) : NetworkState μ :=
  { s with queue := fun stage' v' a' b' =>
      if stage' = stage ∧ v' = v ∧ a' = a ∧ b' = b then buffer else s.queue stage' v' a' b' }

def enqueue (c : NetworkParams μ) (stage : Stage) (v a b delta : ℕ) (msg : NetMsg μ)
    (s : NetworkState μ) : Except NetworkFault (NetworkState μ) :=
  let r := c.draw s.draws
  match (s.queue stage v a b).enqueue s.time delta r.1 msg with
  | .error f => .error (.buffer f)
  | .ok buffer => .ok { setBuffer stage v a b buffer s with draws := r.2 }

def pop (stage : Stage) (v a b : ℕ) (s : NetworkState μ) : NetworkState μ :=
  setBuffer stage v a b (s.queue stage v a b).pop s

/-- Station `b` takes the message at the head of its buffer from `a`. -/
def take (v a b : ℕ) (msg : NetMsg μ) (s : NetworkState μ) : NetworkState μ :=
  { pop .link v a b s with
    taken := fun v' b' => if v' = v ∧ b' = b then s.taken v b ++ [(a, msg)] else s.taken v' b' }

/-! The perfect switch -/

def inPorts (c : NetworkParams μ) (sw : ℕ) : List ℕ :=
  (List.range c.topology.num_switches).filter fun a => c.topology.hasLink a sw

/-- The order in which the output links are looked at. -/
def linkOrder (c : NetworkParams μ) (v sw : ℕ) (s : NetworkState μ) : List ℕ :=
  if c.ADAPTIVE_ROUTING then
    if c.isVNetOrdered v then c.topology.outPorts sw else c.emptiest s sw
  else s.m_link_order sw

/-- The body of the loop, for the message at the head of an input port; `false` leaves the
loop. -/
def forward (c : NetworkParams μ) (v sw a : ℕ) (msg : NetMsg μ) (s : NetworkState μ) :
    Except NetworkFault (NetworkState μ × Bool) :=
  let order := c.linkOrder v sw s
  let s := { s with m_link_order := Function.update s.m_link_order sw order }
  let r := route (shortest_path_to_node c.toTopologyParams c.topology sw) order
    msg.getInternalDestination
  if r.2 ≠ ∅ then .error .leftover
  else if r.1.all fun out => (s.queue .intermediate v sw out.1).areNSlotsAvailable 1 then
    match r.1.foldlM (fun s out =>
        c.enqueue .intermediate v sw out.1 1 { msg with internalDest := some out.2 } s) s with
    | .error f => .error f
    | .ok s => .ok (take v a sw msg s, true)
  else .ok (s, false)

/-- The messages that wait at an input port. -/
def drain (c : NetworkParams μ) (v sw a : ℕ) :
    ℕ → NetworkState μ → Except NetworkFault (NetworkState μ)
  | 0, s => .ok s
  | fuel + 1, s =>
      match (s.queue .link v a sw).m_prio_heap with
      | [] => .ok s
      | node :: _ =>
          if node.m_time ≤ s.time then
            match c.forward v sw a node.m_msgptr s with
            | .error f => .error f
            | .ok (s, true) => c.drain v sw a fuel s
            | .ok (s, false) => .ok s
          else .ok s

/-- The input ports, from the one after `incoming` on. -/
def servePorts (c : NetworkParams μ) (v sw : ℕ) :
    ℕ → ℕ → NetworkState μ → Except NetworkFault (NetworkState μ)
  | 0, _, s => .ok s
  | counter + 1, incoming, s =>
      let incoming := if incoming + 1 ≥ (c.inPorts sw).length then 0 else incoming + 1
      match (c.inPorts sw)[incoming]? with
      | none => .ok s
      | some a =>
          match c.drain v sw a (s.queue .link v a sw).m_prio_heap.length s with
          | .error f => .error f
          | .ok s => c.servePorts v sw counter incoming s

/-- `PerfectSwitch::wakeup`. -/
def wakeupSwitch (c : NetworkParams μ) (sw : ℕ) (s : NetworkState μ) :
    Except NetworkFault (NetworkState μ) :=
  (List.range c.m_virtual_networks).foldlM (fun s v =>
    let incoming := s.m_round_robin_start sw
    let next := if incoming + 1 ≥ (c.inPorts sw).length then 0 else incoming + 1
    c.servePorts v sw (c.inPorts sw).length incoming
      { s with m_round_robin_start := Function.update s.m_round_robin_start sw next }) s

/-! The throttle -/

/-- `units` are sent as far as the bandwidth goes. -/
def spend (v a b bw_remaining units : ℕ) (s : NetworkState μ) : ℕ × NetworkState μ :=
  (bw_remaining - units,
    { s with
      m_units_remaining := fun a' b' v' =>
        if a' = a ∧ b' = b ∧ v' = v then units - bw_remaining else s.m_units_remaining a' b' v' })

/-- The loop over the messages of one virtual network, with the bandwidth that is left. -/
def transfer (c : NetworkParams μ) (v a b : ℕ) :
    ℕ → ℕ × NetworkState μ → Except NetworkFault (ℕ × NetworkState μ)
  | 0, r => .ok r
  | fuel + 1, (bw_remaining, s) =>
      let inBuffer := s.queue .intermediate v a b
      let units := s.m_units_remaining a b v
      if 0 < bw_remaining ∧ (inBuffer.isReady s.time ∨ 0 < units) ∧
          (s.queue .link v a b).areNSlotsAvailable 1 then
        match inBuffer.m_prio_heap with
        | node :: _ =>
            if units = 0 ∧ inBuffer.isReady s.time then
              match c.enqueue .link v a b (c.topology.topology_weights a b) node.m_msgptr s with
              | .error f => .error f
              | .ok s => c.transfer v a b fuel (spend v a b bw_remaining
                  (c.network_message_to_size node.m_msgptr) (pop .intermediate v a b s))
            else c.transfer v a b fuel (spend v a b bw_remaining units s)
        | [] => c.transfer v a b fuel (spend v a b bw_remaining units s)
      else .ok (bw_remaining, s)

/-- `Throttle::wakeup` for the link from `a` to `b`. -/
def wakeupThrottle (c : NetworkParams μ) (a b : ℕ) (s : NetworkState μ) :
    Except NetworkFault (ℕ × NetworkState μ) :=
  (List.range c.m_virtual_networks).foldlM (fun r _ =>
    if r.1 = 0 then .ok r
    else
      let v := r.2.m_last_vnet a b
      let next := if v + 1 ≥ c.m_virtual_networks then 0 else v + 1
      c.transfer v a b ((r.2.queue .intermediate v a b).m_prio_heap.length + 1)
        (r.1,
          { r.2 with
            m_last_vnet := fun a' b' =>
              if a' = a ∧ b' = b then next else r.2.m_last_vnet a' b' }))
    (c.getLinkBandwidth a b, s)

/-! Steps -/

inductive NetworkEvent (μ : Type)
  | inject (v node sw delta : ℕ) (label : μ) (destination : NetDest)
  | wakeupSwitch (sw : ℕ)
  | wakeupThrottle (a b : ℕ)
  | receive (v a b : ℕ)
  | tick

/-- A node puts a message into the buffer to the network. -/
def inject (c : NetworkParams μ) (v node sw delta : ℕ) (label : μ) (destination : NetDest)
    (s : NetworkState μ) : Except NetworkFault (NetworkState μ) :=
  let msg : NetMsg μ := { name := (node, label), destination := destination }
  match c.enqueue .link v node sw delta msg s with
  | .error f => .error f
  | .ok s' => .ok { s' with injected := fun v' n =>
      if v' = v ∧ n = node then s.injected v node ++ [msg] else s.injected v' n }

/-- The controller of a node takes a message from the network. -/
def receive (v a b : ℕ) (s : NetworkState μ) : NetworkState μ :=
  match (s.queue .link v a b).m_prio_heap with
  | [] => s
  | node :: _ => take v a b node.m_msgptr s

/-- `none` where the event is not possible or the program aborts. -/
def step (c : NetworkParams μ) (s : NetworkState μ) : NetworkEvent μ → Option (NetworkState μ)
  | .inject v node sw delta label destination =>
      if v < c.m_virtual_networks ∧ node < c.m_nodes ∧ c.topology.hasLink node sw ∧
          destination ⊆ machines c.toTopologyParams ∧
          (node, label) ∉ (s.injected v node).map (·.name) then
        (c.inject v node sw delta label destination s).toOption
      else none
  | .wakeupSwitch sw =>
      if c.m_nodes + c.m_nodes ≤ sw then (c.wakeupSwitch sw s).toOption else none
  | .wakeupThrottle a b =>
      if c.m_nodes + c.m_nodes ≤ a ∧ c.topology.hasLink a b then
        (c.wakeupThrottle a b s).toOption.map (·.2)
      else none
  | .receive v a b =>
      if c.topology.hasLink a b ∧ b < c.m_nodes + c.m_nodes ∧
          (s.queue .link v a b).isReady s.time then some (receive v a b s)
      else none
  | .tick => some { s with time := s.time + 1 }

/-- What a machine has received on a virtual network, in the order of its arrival. -/
def arrived (c : NetworkParams μ) (s : NetworkState μ) (v : ℕ) (d : MachineID) : List (ℕ × μ) :=
  (s.taken v (portNumber c.toTopologyParams d + c.m_nodes)).map (·.2.name)

end NetworkParams
end FeS2.Ruby
