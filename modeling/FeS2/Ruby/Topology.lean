import Mathlib.Data.Nat.Log
import Mathlib.Tactic.Ring
import FeS2.Library.ShortestPath

/-!
The hierarchical topology of the simple network and its routing tables. The
links into the network come from the first `m_nodes` switch ids, the links out
of it go to the second `m_nodes`; only the ids from there on are switches. Link
bandwidths are left out.
-/

namespace FeS2.Ruby

def INFINITE_LATENCY : ℕ := 10000

/-- `fits`: what the longest path adds up to is not taken for infinite. -/
structure TopologyParams where
  MachineType_NUM : ℕ
  m_nodes : ℕ
  fan_out_degree : ℕ
  NETWORK_LINK_LATENCY : ℕ
  machines_pos : 0 < MachineType_NUM
  multiple : MachineType_NUM ∣ m_nodes
  larger : MachineType_NUM < m_nodes
  fan_out : 2 ≤ fan_out_degree
  latency_pos : 0 < NETWORK_LINK_LATENCY
  fits : NETWORK_LINK_LATENCY * (2 * Nat.clog 2 m_nodes + 1) < INFINITE_LATENCY

/-- The count of nodes is an `int`, and the configured latencies are 1 and 14. -/
theorem fits_of_int {nodes latency : ℕ} (hn : nodes < 1 <<< 31) (hl : latency ≤ 14) :
    latency * (2 * Nat.clog 2 nodes + 1) < INFINITE_LATENCY := by
  have hclog : Nat.clog 2 nodes ≤ 31 := Nat.clog_le_of_le_pow hn.le
  calc latency * (2 * Nat.clog 2 nodes + 1) ≤ 14 * (2 * 31 + 1) :=
        Nat.mul_le_mul hl (by omega)
    _ < INFINITE_LATENCY := by decide

structure Link where
  src : ℕ
  dest : ℕ
  latency : ℕ
  deriving DecidableEq

structure Topology where
  m_number_of_switches : ℕ := 0
  links : List Link := []

namespace Topology

def newSwitchID (p : TopologyParams) (t : Topology) : ℕ × Topology :=
  (t.m_number_of_switches + p.m_nodes + p.m_nodes,
    { t with m_number_of_switches := t.m_number_of_switches + 1 })

def addLink (src dest latency : ℕ) (t : Topology) : Topology :=
  { t with links := t.links ++ [{ src := src, dest := dest, latency := latency }] }

/-- A row of switches, with a link per machine. -/
def row (p : TopologyParams) (link : ℕ → ℕ → Topology → Topology) :
    List ℕ → List ℕ → Topology → List ℕ × Topology
  | [], level, t => (level, t)
  | i :: rest, level, t =>
      let r := t.newSwitchID p
      let t := (List.range p.MachineType_NUM).foldl
        (fun t machine => link (i * p.MachineType_NUM + machine) r.1 t) r.2
      row p link rest (level ++ [r.1]) t

/-- The next level: a switch for each `fan_out_degree` of the last one. -/
def level (p : TopologyParams) (newSwitch : Topology → ℕ × Topology)
    (link : ℕ → ℕ → Topology → Topology) :
    ℕ → List ℕ → List ℕ → Topology → List ℕ × Topology
  | _, [], next, t => (next, t)
  | i, s :: rest, next, t =>
      let r := if i % p.fan_out_degree = 0 then
          let new := newSwitch t
          (next ++ [new.1], new.2)
        else (next, t)
      level p newSwitch link (i + 1) rest r.1 (link s (r.1.getLastD 0) r.2)

theorem level_length {p : TopologyParams} {newSwitch : Topology → ℕ × Topology}
    {link : ℕ → ℕ → Topology → Topology} {i : ℕ} {last next : List ℕ} {t : Topology}
    (h : next.length = (i + p.fan_out_degree - 1) / p.fan_out_degree) :
    (level p newSwitch link i last next t).1.length =
      (i + last.length + p.fan_out_degree - 1) / p.fan_out_degree := by
  induction last generalizing i next t with
  | nil => exact h
  | cons s rest ih =>
      have hf := p.fan_out
      simp only [level, List.length_cons]
      rw [ih ?_]
      · congr 2
        omega
      · split
        · next hmod =>
            have hi : i = p.fan_out_degree * (i / p.fan_out_degree) := by
              have := Nat.div_add_mod i p.fan_out_degree
              omega
            simp only [List.length_append, List.length_cons, List.length_nil, h]
            generalize i / p.fan_out_degree = q at hi
            rw [hi, show p.fan_out_degree * q + p.fan_out_degree - 1 =
                (p.fan_out_degree - 1) + p.fan_out_degree * q by omega,
              show p.fan_out_degree * q + 1 + p.fan_out_degree - 1 =
                0 + p.fan_out_degree * (q + 1) by rw [Nat.mul_add]; omega,
              Nat.add_mul_div_left _ _ (by omega), Nat.add_mul_div_left _ _ (by omega),
              Nat.div_eq_of_lt (by omega), Nat.zero_div]
            omega
        · next hmod =>
            have hi := Nat.div_add_mod i p.fan_out_degree
            have hlt := Nat.mod_lt i (show 0 < p.fan_out_degree by omega)
            rw [h]
            generalize i / p.fan_out_degree = q at hi
            generalize i % p.fan_out_degree = r at hi hmod hlt
            rw [← hi, show p.fan_out_degree * q + r + p.fan_out_degree - 1 =
                (r - 1) + p.fan_out_degree * (q + 1) by rw [Nat.mul_add]; omega,
              show p.fan_out_degree * q + r + 1 + p.fan_out_degree - 1 =
                r + p.fan_out_degree * (q + 1) by rw [Nat.mul_add]; omega,
              Nat.add_mul_div_left _ _ (by omega), Nat.add_mul_div_left _ _ (by omega),
              Nat.div_eq_of_lt (by omega), Nat.div_eq_of_lt (by omega)]

def upLevel (p : TopologyParams) (last : List ℕ) (t : Topology) : List ℕ × Topology :=
  level p (newSwitchID p) (fun s parent t => t.addLink s parent p.NETWORK_LINK_LATENCY) 0 last [] t

/-- The last level below the root is linked to it. -/
def downLevel (p : TopologyParams) (root : ℕ) (last : List ℕ) (t : Topology) :
    List ℕ × Topology :=
  level p (fun t => if last.length > p.fan_out_degree then t.newSwitchID p else (root, t))
    (fun s parent t => t.addLink parent s p.NETWORK_LINK_LATENCY) 0 last [] t

theorem ceil_lt {n f : ℕ} (hf : 2 ≤ f) (hn : 1 < n) : (0 + n + f - 1) / f < n := by
  rw [Nat.div_lt_iff_lt_mul (by omega)]
  obtain ⟨a, rfl⟩ := Nat.exists_eq_add_of_le hn
  obtain ⟨b, rfl⟩ := Nat.exists_eq_add_of_le hf
  have h : (Nat.succ 1 + a) * (2 + b) = 4 + 2 * a + 2 * b + a * b := by ring
  omega

theorem empty_length (f : ℕ) (hf : 2 ≤ f) : ([] : List ℕ).length = (0 + f - 1) / f := by
  rw [Nat.div_eq_of_lt (by omega)]
  rfl

theorem upLevel_length (p : TopologyParams) (last : List ℕ) (t : Topology) :
    (upLevel p last t).1.length = (0 + last.length + p.fan_out_degree - 1) / p.fan_out_degree :=
  level_length (empty_length _ p.fan_out)

theorem downLevel_length (p : TopologyParams) (root : ℕ) (last : List ℕ) (t : Topology) :
    (downLevel p root last t).1.length =
      (0 + last.length + p.fan_out_degree - 1) / p.fan_out_degree :=
  level_length (empty_length _ p.fan_out)

/-- The root switch, and the network up to it. -/
def upLevels (p : TopologyParams) (last : List ℕ) (t : Topology) : ℕ × Topology :=
  if _ : last.length > 1 then
    upLevels p (upLevel p last t).1 (upLevel p last t).2
  else (last.headD 0, t)
termination_by last.length
decreasing_by
  rw [upLevel_length]
  exact ceil_lt p.fan_out ‹_›

/-- The network from the root down. -/
def downLevels (p : TopologyParams) (root : ℕ) (last : List ℕ) (t : Topology) : Topology :=
  if _ : last.length > 1 then
    downLevels p root (downLevel p root last t).1 (downLevel p root last t).2
  else t
termination_by last.length
decreasing_by
  rw [downLevel_length]
  exact ceil_lt p.fan_out ‹_›

def makeHierarchicalSwitch (p : TopologyParams) : Topology :=
  let rows := List.range (p.m_nodes / p.MachineType_NUM)
  let up := row p (fun port s t => t.addLink port s p.NETWORK_LINK_LATENCY) rows [] {}
  let root := upLevels p up.1 up.2
  let down := row p (fun port s t => t.addLink s (port + p.m_nodes) 1) rows [] root.2
  downLevels p root.1 down.1 down.2

/-! Routing tables -/

def num_switches (t : Topology) : ℕ := t.links.foldl (fun m l => max m (max l.src l.dest)) 0 + 1

def topology_weights (t : Topology) : ShortestPath.Matrix :=
  t.links.foldl (fun w l => ShortestPath.set w l.src l.dest l.latency)
    fun i j => if i = j then 0 else INFINITE_LATENCY

/-- `shortest_path`. -/
def dist (t : Topology) : ShortestPath.Matrix :=
  ShortestPath.extend t.num_switches t.topology_weights

def hasLink (t : Topology) (i j : ℕ) : Bool :=
  t.topology_weights i j > 0 && t.topology_weights i j ≠ INFINITE_LATENCY

/-- The output ports of a switch, in the order `createLinks` makes them. -/
def outPorts (t : Topology) (s : ℕ) : List ℕ := (List.range t.num_switches).filter (t.hasLink s)

structure MachineID where
  machine : ℕ
  id : ℕ
  deriving DecidableEq

abbrev NetDest := Finset MachineID

/-- The port of a machine. -/
def portNumber (p : TopologyParams) (m : MachineID) : ℕ := m.machine + m.id * p.MachineType_NUM

def machineOf (p : TopologyParams) (i : ℕ) : MachineID :=
  { machine := i % p.MachineType_NUM, id := i / p.MachineType_NUM }

def link_is_shortest_path_to_node (t : Topology) (src next final : ℕ) : Bool :=
  t.topology_weights src next + t.dist next final = t.dist src final

def shortest_path_to_node (p : TopologyParams) (t : Topology) (src next : ℕ) : NetDest :=
  ((Finset.range p.m_nodes).filter fun i =>
    t.link_is_shortest_path_to_node src next (i + p.m_nodes)).image (machineOf p)

end Topology
end FeS2.Ruby
