import Mathlib.Data.Nat.Sqrt
import FeS2.Ruby.TopologyPaths

/-!
The 2D torus of the simple network. Neighbours are computed from the ids of the switches, and the
length of a side is a truncated square root. The result is a torus exactly when the nodes fill a
square.
-/

namespace FeS2.Ruby
open Topology

/-- What `init` takes with the torus. -/
structure TorusParams where
  MachineType_NUM : ℕ
  m_nodes : ℕ
  NETWORK_LINK_LATENCY : ℕ
  machines_pos : 0 < MachineType_NUM
  multiple : MachineType_NUM ∣ m_nodes
  larger : MachineType_NUM < m_nodes

namespace TorusParams

section
variable (p : TorusParams)

def lengthOfSide : ℕ := p.m_nodes.sqrt

def leftNeighbor (new_switch : ℕ) : ℕ :=
  if new_switch % p.lengthOfSide = 0 then new_switch - 1 + p.lengthOfSide else new_switch - 1

def rightNeighbor (new_switch : ℕ) : ℕ :=
  if (new_switch + 1) % p.lengthOfSide = 0 then new_switch + 1 - p.lengthOfSide
  else new_switch + 1

def topNeighbor (new_switch : ℕ) : ℕ :=
  if new_switch - p.lengthOfSide < 2 * p.m_nodes then
    new_switch - p.lengthOfSide + p.lengthOfSide * p.lengthOfSide
  else new_switch - p.lengthOfSide

def bottomNeighbor (new_switch : ℕ) : ℕ :=
  if new_switch + p.lengthOfSide ≥ 3 * p.m_nodes then
    new_switch + p.lengthOfSide - p.lengthOfSide * p.lengthOfSide
  else new_switch + p.lengthOfSide

def newSwitchID (t : Topology) : ℕ × Topology :=
  (t.m_number_of_switches + p.m_nodes + p.m_nodes,
    { t with m_number_of_switches := t.m_number_of_switches + 1 })

/-- The switches that the first loop makes. -/
def torusSwitches : ℕ → Topology → List ℕ × Topology
  | 0, t => ([], t)
  | n + 1, t =>
      let new := p.newSwitchID t
      let rest := torusSwitches n new.2
      (new.1 :: rest.1, rest.2)

/-- `none` is a failed assertion. -/
def addLink (src dest latency : ℕ) (t : Topology) : Option Topology :=
  if src ≤ t.m_number_of_switches + p.m_nodes + p.m_nodes ∧
      dest ≤ t.m_number_of_switches + p.m_nodes + p.m_nodes then
    some (t.addLink src dest latency)
  else none

/-- The links of the `i`th switch: to and from its node, and to its neighbours. -/
def addLinks (switches : List ℕ) (t : Topology) (i : ℕ) : Option Topology := do
  let new_switch := switches.getD i 0
  let t ← p.addLink i new_switch p.NETWORK_LINK_LATENCY t
  let t ← p.addLink new_switch (i + p.m_nodes) 1 t
  let t ← p.addLink new_switch (p.leftNeighbor new_switch) p.NETWORK_LINK_LATENCY t
  let t ← p.addLink new_switch (p.rightNeighbor new_switch) p.NETWORK_LINK_LATENCY t
  let t ← p.addLink new_switch (p.topNeighbor new_switch) p.NETWORK_LINK_LATENCY t
  p.addLink new_switch (p.bottomNeighbor new_switch) p.NETWORK_LINK_LATENCY t

def make2DTorus : Option Topology :=
  let made := p.torusSwitches p.m_nodes {}
  (List.range p.m_nodes).foldlM (p.addLinks made.1) made.2

/-- The switches of the torus. -/
def IsSwitch (s : ℕ) : Prop := s ∈ (p.torusSwitches p.m_nodes {}).1

/-- The links are made and every endpoint is in range; a switch is linked to switches and to the
port of its node; opposite neighbours are inverse to each other; the nodes reach each other. -/
structure IsTorus : Prop where
  asserted : p.make2DTorus.isSome
  created : ∀ t, p.make2DTorus = some t → ∀ l ∈ t.links, p.IsSwitch l.src →
    p.IsSwitch l.dest ∨ ∃ i < p.m_nodes,
      (p.torusSwitches p.m_nodes {}).1[i]? = some l.src ∧ l.dest = i + p.m_nodes
  left_right : ∀ s, p.IsSwitch s →
    p.rightNeighbor (p.leftNeighbor s) = s ∧ p.leftNeighbor (p.rightNeighbor s) = s
  top_bottom : ∀ s, p.IsSwitch s →
    p.bottomNeighbor (p.topNeighbor s) = s ∧ p.topNeighbor (p.bottomNeighbor s) = s
  connected : ∀ t, p.make2DTorus = some t → ∀ a < p.m_nodes, ∀ b < p.m_nodes,
    ∃ k, Hops t k a (b + p.m_nodes)

end

section
variable {p : TorusParams}

theorem nodes_pos (p : TorusParams) : 0 < p.m_nodes := Nat.zero_lt_of_lt p.larger

theorem torusSwitches_eq (n : ℕ) (t : Topology) : p.torusSwitches n t =
    (List.range' (t.m_number_of_switches + p.m_nodes + p.m_nodes) n,
      { t with m_number_of_switches := t.m_number_of_switches + n }) := by
  induction n generalizing t with
  | zero => rfl
  | succ n ih =>
      have hstart : t.m_number_of_switches + 1 + p.m_nodes + p.m_nodes =
          t.m_number_of_switches + p.m_nodes + p.m_nodes + 1 := by omega
      have hcount : t.m_number_of_switches + 1 + n = t.m_number_of_switches + (n + 1) := by omega
      simp only [torusSwitches, newSwitchID, ih, List.range'_succ, hstart, hcount]

theorem made_eq (p : TorusParams) : p.torusSwitches p.m_nodes {} =
    (List.range' (2 * p.m_nodes) p.m_nodes,
      { m_number_of_switches := p.m_nodes, links := [] }) := by
  rw [torusSwitches_eq, Nat.two_mul]
  simp only [Nat.zero_add]

theorem isSwitch_iff {s : ℕ} : p.IsSwitch s ↔ ∃ i < p.m_nodes, s = 2 * p.m_nodes + i := by
  rw [IsSwitch, made_eq, List.mem_range'_1]
  constructor
  · intro h
    exact ⟨s - 2 * p.m_nodes, by omega, by omega⟩
  · rintro ⟨i, hi, rfl⟩
    omega

theorem made_getElem {i : ℕ} (hi : i < p.m_nodes) :
    (p.torusSwitches p.m_nodes {}).1[i]? = some (2 * p.m_nodes + i) := by
  rw [made_eq, List.getElem?_range' hi, Nat.one_mul]

/-! Node counts that are no square -/

/-- The top neighbour of the first switch is one row from the end of the square. -/
theorem bottom_top_first (p : TorusParams) (h : p.lengthOfSide * p.lengthOfSide ≠ p.m_nodes) :
    p.bottomNeighbor (p.topNeighbor (2 * p.m_nodes)) =
      2 * p.m_nodes + p.lengthOfSide * p.lengthOfSide := by
  have hle : p.lengthOfSide * p.lengthOfSide ≤ p.m_nodes := Nat.sqrt_le p.m_nodes
  have hpos : 0 < p.lengthOfSide := Nat.sqrt_pos.mpr p.nodes_pos
  have hself : p.lengthOfSide ≤ p.lengthOfSide * p.lengthOfSide := Nat.le_mul_of_pos_left _ hpos
  rw [topNeighbor, if_pos (by omega), bottomNeighbor, if_neg (by omega)]
  omega

theorem IsTorus.square (h : p.IsTorus) : p.lengthOfSide * p.lengthOfSide = p.m_nodes := by
  by_contra hne
  have hfirst := (h.top_bottom (2 * p.m_nodes)
    (isSwitch_iff.mpr ⟨0, p.nodes_pos, rfl⟩)).1
  have hpos : 0 < p.lengthOfSide * p.lengthOfSide :=
    Nat.mul_pos (Nat.sqrt_pos.mpr p.nodes_pos) (Nat.sqrt_pos.mpr p.nodes_pos)
  rw [p.bottom_top_first hne] at hfirst
  omega

/-! Rows and columns -/

/-- The switch in a row and a column. -/
def place (p : TorusParams) (r c : ℕ) : ℕ := 2 * p.m_nodes + (r * p.lengthOfSide + c)

variable {r c : ℕ}

/-- The column is the id modulo the length of a side, as the first id is divisible by it. -/
theorem place_mod (h : p.lengthOfSide * p.lengthOfSide = p.m_nodes) (k : ℕ) :
    (2 * p.m_nodes + (r * p.lengthOfSide + k)) % p.lengthOfSide = k % p.lengthOfSide := by
  have hsum : 2 * p.m_nodes + (r * p.lengthOfSide + k) =
      k + p.lengthOfSide * (2 * p.lengthOfSide + r) := by
    rw [← h]
    ring
  rw [hsum, Nat.add_mul_mod_self_left]

theorem exists_place (h : p.lengthOfSide * p.lengthOfSide = p.m_nodes) {i : ℕ}
    (hi : i < p.m_nodes) : ∃ r < p.lengthOfSide, ∃ c < p.lengthOfSide,
      2 * p.m_nodes + i = p.place r c := by
  have hpos : 0 < p.lengthOfSide := Nat.sqrt_pos.mpr p.nodes_pos
  refine ⟨i / p.lengthOfSide, Nat.div_lt_of_lt_mul (h.symm ▸ hi), i % p.lengthOfSide,
    Nat.mod_lt _ hpos, ?_⟩
  rw [place, Nat.div_add_mod']

theorem row_le (hr : r < p.lengthOfSide) :
    r * p.lengthOfSide + p.lengthOfSide ≤ p.lengthOfSide * p.lengthOfSide := by
  rw [← Nat.succ_mul]
  exact Nat.mul_le_mul_right _ hr

theorem place_isSwitch (h : p.lengthOfSide * p.lengthOfSide = p.m_nodes)
    (hr : r < p.lengthOfSide) (hc : c < p.lengthOfSide) : p.IsSwitch (p.place r c) := by
  have hrow := row_le hr
  exact isSwitch_iff.mpr ⟨_, by omega, rfl⟩

theorem left_first (h : p.lengthOfSide * p.lengthOfSide = p.m_nodes) :
    p.leftNeighbor (p.place r 0) = p.place r (p.lengthOfSide - 1) := by
  have hpos := p.nodes_pos
  have hside : 0 < p.lengthOfSide := Nat.sqrt_pos.mpr hpos
  rw [leftNeighbor, place, if_pos (by rw [place_mod h, Nat.zero_mod]), place]
  omega

theorem left_next (h : p.lengthOfSide * p.lengthOfSide = p.m_nodes)
    (hc : c + 1 < p.lengthOfSide) : p.leftNeighbor (p.place r (c + 1)) = p.place r c := by
  rw [leftNeighbor, place, if_neg (by rw [place_mod h, Nat.mod_eq_of_lt hc]; omega), place]
  omega

theorem right_last (h : p.lengthOfSide * p.lengthOfSide = p.m_nodes)
    (hc : c + 1 = p.lengthOfSide) : p.rightNeighbor (p.place r c) = p.place r 0 := by
  have hmod : (p.place r c + 1) % p.lengthOfSide = 0 := by
    rw [place, Nat.add_assoc, Nat.add_assoc, place_mod h, hc, Nat.mod_self]
  rw [rightNeighbor, if_pos hmod, place, place]
  omega

theorem right_next (h : p.lengthOfSide * p.lengthOfSide = p.m_nodes)
    (hc : c + 1 < p.lengthOfSide) : p.rightNeighbor (p.place r c) = p.place r (c + 1) := by
  have hmod : (p.place r c + 1) % p.lengthOfSide ≠ 0 := by
    rw [place, Nat.add_assoc, Nat.add_assoc, place_mod h, Nat.mod_eq_of_lt hc]
    omega
  rw [rightNeighbor, if_neg hmod, place, place]
  omega

theorem top_first (h : p.lengthOfSide * p.lengthOfSide = p.m_nodes) (hc : c < p.lengthOfSide) :
    p.topNeighbor (p.place 0 c) = p.place (p.lengthOfSide - 1) c := by
  have hself : p.lengthOfSide ≤ p.lengthOfSide * p.lengthOfSide :=
    Nat.le_mul_of_pos_left _ (Nat.zero_lt_of_lt hc)
  rw [topNeighbor, place, Nat.zero_mul, if_pos (by omega), place, Nat.sub_mul, Nat.one_mul]
  omega

theorem top_next : p.topNeighbor (p.place (r + 1) c) = p.place r c := by
  rw [topNeighbor, place, Nat.succ_mul r, if_neg (by omega), place]
  omega

theorem bottom_last (h : p.lengthOfSide * p.lengthOfSide = p.m_nodes)
    (hr : r + 1 = p.lengthOfSide) : p.bottomNeighbor (p.place r c) = p.place 0 c := by
  have hrow : r * p.lengthOfSide + p.lengthOfSide = p.m_nodes := by
    rw [← Nat.succ_mul, ← h]
    exact congrArg (· * p.lengthOfSide) hr
  rw [bottomNeighbor, place, if_pos (by omega), h, place, Nat.zero_mul]
  omega

theorem bottom_next (h : p.lengthOfSide * p.lengthOfSide = p.m_nodes)
    (hr : r + 1 < p.lengthOfSide) (hc : c < p.lengthOfSide) :
    p.bottomNeighbor (p.place r c) = p.place (r + 1) c := by
  have hrow := row_le hr
  rw [Nat.succ_mul r] at hrow
  rw [bottomNeighbor, place, if_neg (by omega), place, Nat.succ_mul r]
  omega

/-- What is linked to a switch, it or its neighbours, is a switch. -/
structure Inverse (p : TorusParams) (s : ℕ) : Prop where
  left : p.IsSwitch (p.leftNeighbor s)
  right : p.IsSwitch (p.rightNeighbor s)
  top : p.IsSwitch (p.topNeighbor s)
  bottom : p.IsSwitch (p.bottomNeighbor s)
  right_left : p.rightNeighbor (p.leftNeighbor s) = s
  left_right : p.leftNeighbor (p.rightNeighbor s) = s
  bottom_top : p.bottomNeighbor (p.topNeighbor s) = s
  top_bottom : p.topNeighbor (p.bottomNeighbor s) = s

theorem inverse_place (h : p.lengthOfSide * p.lengthOfSide = p.m_nodes)
    (hr : r < p.lengthOfSide) (hc : c < p.lengthOfSide) : p.Inverse (p.place r c) := by
  have hlast : p.lengthOfSide - 1 < p.lengthOfSide := by omega
  have hleft : p.IsSwitch (p.leftNeighbor (p.place r c)) ∧
      p.rightNeighbor (p.leftNeighbor (p.place r c)) = p.place r c := by
    cases c with
    | zero =>
        rw [left_first h, right_last h (by omega)]
        exact ⟨place_isSwitch h hr hlast, rfl⟩
    | succ c =>
        rw [left_next h hc, right_next h hc]
        exact ⟨place_isSwitch h hr (by omega), rfl⟩
  have hright : p.IsSwitch (p.rightNeighbor (p.place r c)) ∧
      p.leftNeighbor (p.rightNeighbor (p.place r c)) = p.place r c := by
    by_cases hcl : c + 1 = p.lengthOfSide
    · rw [right_last h hcl, left_first h, ← hcl]
      exact ⟨place_isSwitch h hr (by omega), rfl⟩
    · rw [right_next h (by omega), left_next h (by omega)]
      exact ⟨place_isSwitch h hr (by omega), rfl⟩
  have htop : p.IsSwitch (p.topNeighbor (p.place r c)) ∧
      p.bottomNeighbor (p.topNeighbor (p.place r c)) = p.place r c := by
    cases r with
    | zero =>
        rw [top_first h hc, bottom_last h (by omega)]
        exact ⟨place_isSwitch h hlast hc, rfl⟩
    | succ r =>
        rw [top_next, bottom_next h hr hc]
        exact ⟨place_isSwitch h (by omega) hc, rfl⟩
  have hbottom : p.IsSwitch (p.bottomNeighbor (p.place r c)) ∧
      p.topNeighbor (p.bottomNeighbor (p.place r c)) = p.place r c := by
    by_cases hrl : r + 1 = p.lengthOfSide
    · rw [bottom_last h hrl, top_first h hc, ← hrl]
      exact ⟨place_isSwitch h (by omega) hc, rfl⟩
    · rw [bottom_next h (by omega) hc, top_next]
      exact ⟨place_isSwitch h (by omega) hc, rfl⟩
  exact ⟨hleft.1, hright.1, htop.1, hbottom.1, hleft.2, hright.2, htop.2, hbottom.2⟩

theorem IsSwitch.inverse {s : ℕ} (hs : p.IsSwitch s)
    (h : p.lengthOfSide * p.lengthOfSide = p.m_nodes) : p.Inverse s := by
  obtain ⟨i, hi, rfl⟩ := isSwitch_iff.mp hs
  obtain ⟨r, hr, c, hc, hplace⟩ := exists_place h hi
  exact hplace ▸ inverse_place h hr hc

/-! The links -/

/-- The links of the `i`th switch. -/
def linksOf (p : TorusParams) (i : ℕ) : List Link :=
  let new_switch := 2 * p.m_nodes + i
  [⟨i, new_switch, p.NETWORK_LINK_LATENCY⟩, ⟨new_switch, i + p.m_nodes, 1⟩,
    ⟨new_switch, p.leftNeighbor new_switch, p.NETWORK_LINK_LATENCY⟩,
    ⟨new_switch, p.rightNeighbor new_switch, p.NETWORK_LINK_LATENCY⟩,
    ⟨new_switch, p.topNeighbor new_switch, p.NETWORK_LINK_LATENCY⟩,
    ⟨new_switch, p.bottomNeighbor new_switch, p.NETWORK_LINK_LATENCY⟩]

theorem addLink_some {t : Topology} (ht : t.m_number_of_switches = p.m_nodes) {src dest : ℕ}
    (hsrc : src ≤ 3 * p.m_nodes) (hdest : dest ≤ 3 * p.m_nodes) (latency : ℕ) :
    p.addLink src dest latency t = some
      { m_number_of_switches := p.m_nodes, links := t.links ++ [⟨src, dest, latency⟩] } := by
  rw [addLink, if_pos (by omega), Topology.addLink, ht]

theorem IsSwitch.le {s : ℕ} (hs : p.IsSwitch s) : s ≤ 3 * p.m_nodes := by
  obtain ⟨i, hi, rfl⟩ := isSwitch_iff.mp hs
  omega

theorem addLinks_some (h : p.lengthOfSide * p.lengthOfSide = p.m_nodes) {t : Topology}
    (ht : t.m_number_of_switches = p.m_nodes) {i : ℕ} (hi : i < p.m_nodes) :
    p.addLinks (p.torusSwitches p.m_nodes {}).1 t i = some
      { m_number_of_switches := p.m_nodes, links := t.links ++ p.linksOf i } := by
  have hs : p.IsSwitch (2 * p.m_nodes + i) := isSwitch_iff.mpr ⟨i, hi, rfl⟩
  have hinv := hs.inverse h
  rw [addLinks, List.getD_eq_getElem?_getD, made_getElem hi, Option.getD_some,
    addLink_some ht (by omega) hs.le, Option.bind_eq_bind, Option.bind_some,
    addLink_some rfl hs.le (by omega), Option.bind_some,
    addLink_some rfl hs.le hinv.left.le, Option.bind_some,
    addLink_some rfl hs.le hinv.right.le, Option.bind_some,
    addLink_some rfl hs.le hinv.top.le, Option.bind_some,
    addLink_some rfl hs.le hinv.bottom.le, linksOf]
  simp only [List.append_assoc, List.cons_append, List.nil_append]

theorem foldlM_addLinks (h : p.lengthOfSide * p.lengthOfSide = p.m_nodes) (is : List ℕ)
    (his : ∀ i ∈ is, i < p.m_nodes) {t : Topology} (ht : t.m_number_of_switches = p.m_nodes) :
    is.foldlM (p.addLinks (p.torusSwitches p.m_nodes {}).1) t = some
      { m_number_of_switches := p.m_nodes, links := t.links ++ is.flatMap p.linksOf } := by
  induction is generalizing t with
  | nil =>
      rw [List.flatMap_nil, List.append_nil, ← ht]
      rfl
  | cons i is ih =>
      rw [List.foldlM_cons, addLinks_some h ht (his i List.mem_cons_self), Option.bind_eq_bind,
        Option.bind_some, ih (fun j hj => his j (List.mem_cons_of_mem i hj)) rfl,
        List.flatMap_cons, List.append_assoc]

theorem make2DTorus_eq (h : p.lengthOfSide * p.lengthOfSide = p.m_nodes) : p.make2DTorus = some
    { m_number_of_switches := p.m_nodes, links := (List.range p.m_nodes).flatMap p.linksOf } := by
  rw [make2DTorus, foldlM_addLinks h _ (fun i hi => List.mem_range.mp hi)
      (congrArg (·.2.1) p.made_eq),
    congrArg (·.2.2) p.made_eq, List.nil_append]

/-! Paths -/

/-- A topology with the links of the torus. -/
def Linking (p : TorusParams) (t : Topology) : Prop :=
  t.links = (List.range p.m_nodes).flatMap p.linksOf

theorem Linking.linked {t : Topology} (ht : p.Linking t) {i : ℕ} (hi : i < p.m_nodes) {l : Link}
    (hl : l ∈ p.linksOf i) : Linked t l.src l.dest :=
  ⟨l, ht ▸ List.mem_flatMap.mpr ⟨i, List.mem_range.mpr hi, hl⟩, rfl, rfl⟩

/-- The four links of a switch to its neighbours. -/
theorem Linking.neighbors {t : Topology} (ht : p.Linking t) {s : ℕ} (hs : p.IsSwitch s) :
    Linked t s (p.leftNeighbor s) ∧ Linked t s (p.rightNeighbor s) ∧
      Linked t s (p.topNeighbor s) ∧ Linked t s (p.bottomNeighbor s) := by
  obtain ⟨i, hi, rfl⟩ := isSwitch_iff.mp hs
  have hdrop : ∀ l ∈ (p.linksOf i).drop 2, Linked t l.src l.dest := fun l hl =>
    ht.linked hi (List.mem_of_mem_drop hl)
  simp only [linksOf, List.drop_succ_cons, List.drop_zero, List.forall_mem_cons] at hdrop
  exact ⟨hdrop.1, hdrop.2.1, hdrop.2.2.1, hdrop.2.2.2.1⟩

def Reaches (t : Topology) (a b : ℕ) : Prop := ∃ k, Hops t k a b

theorem Reaches.refl (t : Topology) (a : ℕ) : Reaches t a a := ⟨0, .nil a⟩

theorem Reaches.single {t : Topology} {a b : ℕ} (h : Linked t a b) : Reaches t a b :=
  ⟨1, .cons h (.nil b)⟩

theorem Reaches.trans {t : Topology} {a b c : ℕ} (h : Reaches t a b) (h' : Reaches t b c) :
    Reaches t a c := by
  obtain ⟨k, hk⟩ := h
  obtain ⟨m, hm⟩ := h'
  exact ⟨k + m, hk.append hm⟩

/-- To the left up to the first column. -/
theorem Linking.to_first_column {t : Topology} (ht : p.Linking t)
    (h : p.lengthOfSide * p.lengthOfSide = p.m_nodes) (hr : r < p.lengthOfSide)
    (hc : c < p.lengthOfSide) : Reaches t (p.place r c) (p.place r 0) := by
  induction c with
  | zero => exact .refl t _
  | succ c ih =>
      have hlink := (ht.neighbors (place_isSwitch h hr hc)).1
      rw [left_next h hc] at hlink
      exact (Reaches.single hlink).trans (ih (by omega))

theorem Linking.from_first_column {t : Topology} (ht : p.Linking t)
    (h : p.lengthOfSide * p.lengthOfSide = p.m_nodes) (hr : r < p.lengthOfSide)
    (hc : c < p.lengthOfSide) : Reaches t (p.place r 0) (p.place r c) := by
  induction c with
  | zero => exact .refl t _
  | succ c ih =>
      have hlink := (ht.neighbors (place_isSwitch h hr (c := c) (by omega))).2.1
      rw [right_next h hc] at hlink
      exact (ih (by omega)).trans (.single hlink)

/-- Up to the first row. -/
theorem Linking.to_first_row {t : Topology} (ht : p.Linking t)
    (h : p.lengthOfSide * p.lengthOfSide = p.m_nodes) (hr : r < p.lengthOfSide)
    (hc : c < p.lengthOfSide) : Reaches t (p.place r c) (p.place 0 c) := by
  induction r with
  | zero => exact .refl t _
  | succ r ih =>
      have hlink := (ht.neighbors (place_isSwitch h hr hc)).2.2.1
      rw [top_next] at hlink
      exact (Reaches.single hlink).trans (ih (by omega))

theorem Linking.from_first_row {t : Topology} (ht : p.Linking t)
    (h : p.lengthOfSide * p.lengthOfSide = p.m_nodes) (hr : r < p.lengthOfSide)
    (hc : c < p.lengthOfSide) : Reaches t (p.place 0 c) (p.place r c) := by
  induction r with
  | zero => exact .refl t _
  | succ r ih =>
      have hlink := (ht.neighbors (place_isSwitch h (r := r) (by omega) hc)).2.2.2
      rw [bottom_next h hr hc] at hlink
      exact (ih (by omega)).trans (.single hlink)

/-- A switch reaches every switch by way of the corner. -/
theorem Linking.switches {t : Topology} (ht : p.Linking t)
    (h : p.lengthOfSide * p.lengthOfSide = p.m_nodes) {s s' : ℕ} (hs : p.IsSwitch s)
    (hs' : p.IsSwitch s') : Reaches t s s' := by
  obtain ⟨i, hi, rfl⟩ := isSwitch_iff.mp hs
  obtain ⟨i', hi', rfl⟩ := isSwitch_iff.mp hs'
  obtain ⟨r, hr, c, hc, hplace⟩ := exists_place h hi
  obtain ⟨r', hr', c', hc', hplace'⟩ := exists_place h hi'
  have hside : 0 < p.lengthOfSide := Nat.zero_lt_of_lt hr
  rw [hplace, hplace']
  have hcorner : Reaches t (p.place r c) (p.place 0 0) :=
    (ht.to_first_column h hr hc).trans (ht.to_first_row h hr hside)
  have haway : Reaches t (p.place 0 0) (p.place r' c') :=
    (ht.from_first_row h hr' hside).trans (ht.from_first_column h hr' hc')
  exact hcorner.trans haway

theorem Linking.nodes {t : Topology} (ht : p.Linking t)
    (h : p.lengthOfSide * p.lengthOfSide = p.m_nodes) {a b : ℕ} (ha : a < p.m_nodes)
    (hb : b < p.m_nodes) : Reaches t a (b + p.m_nodes) := by
  have hin : Linked t a (2 * p.m_nodes + a) := ht.linked ha List.mem_cons_self
  have hout : Linked t (2 * p.m_nodes + b) (b + p.m_nodes) :=
    ht.linked hb (List.mem_cons_of_mem _ List.mem_cons_self)
  have hacross := ht.switches h (isSwitch_iff.mpr ⟨a, ha, rfl⟩) (isSwitch_iff.mpr ⟨b, hb, rfl⟩)
  exact ((Reaches.single hin).trans hacross).trans (.single hout)

/-- A switch is linked to its node's port and to switches. -/
theorem linksOf_created (h : p.lengthOfSide * p.lengthOfSide = p.m_nodes) {i : ℕ}
    (hi : i < p.m_nodes) {l : Link} (hl : l ∈ p.linksOf i) (hsrc : p.IsSwitch l.src) :
    p.IsSwitch l.dest ∨ ∃ i < p.m_nodes,
      (p.torusSwitches p.m_nodes {}).1[i]? = some l.src ∧ l.dest = i + p.m_nodes := by
  have hs : p.IsSwitch (2 * p.m_nodes + i) := isSwitch_iff.mpr ⟨i, hi, rfl⟩
  have hinv := hs.inverse h
  simp only [linksOf, List.mem_cons, List.not_mem_nil, or_false] at hl
  rcases hl with rfl | rfl | rfl | rfl | rfl | rfl
  · exact .inl hs
  · exact .inr ⟨i, hi, made_getElem hi, rfl⟩
  · exact .inl hinv.left
  · exact .inl hinv.right
  · exact .inl hinv.top
  · exact .inl hinv.bottom

theorem isTorus_of_square (h : p.lengthOfSide * p.lengthOfSide = p.m_nodes) : p.IsTorus where
  asserted := by
    rw [make2DTorus_eq h]
    rfl
  created t ht l hl hsrc := by
    cases (make2DTorus_eq h).symm.trans ht
    obtain ⟨i, hi, hmem⟩ := List.mem_flatMap.mp hl
    exact linksOf_created h (List.mem_range.mp hi) hmem hsrc
  left_right s hs := ⟨(hs.inverse h).right_left, (hs.inverse h).left_right⟩
  top_bottom s hs := ⟨(hs.inverse h).bottom_top, (hs.inverse h).top_bottom⟩
  connected t ht a ha b hb := by
    have hlinking : p.Linking t := by
      cases (make2DTorus_eq h).symm.trans ht
      rfl
    exact hlinking.nodes h ha hb

end

/-- Four nodes of three machines each: the side is three, and the rows do not fill the square. -/
theorem twelve_nodes_no_torus :
    ¬ IsTorus
      { MachineType_NUM := 3, m_nodes := 12, NETWORK_LINK_LATENCY := 14, machines_pos := by decide
        multiple := by decide, larger := by decide } := by
  intro h
  have hside : Nat.sqrt 12 = 3 := (Nat.eq_sqrt.mpr ⟨by decide, by decide⟩).symm
  have hsquare := h.square
  rw [lengthOfSide, hside] at hsquare
  exact absurd hsquare (by decide)

theorem isTorus_iff_square (p : TorusParams) : p.IsTorus ↔ ∃ n, p.m_nodes = n * n := by
  constructor
  · intro h
    exact ⟨p.lengthOfSide, h.square.symm⟩
  · rintro ⟨n, hn⟩
    refine isTorus_of_square ?_
    rw [lengthOfSide, hn, Nat.sqrt_eq]

end TorusParams
end FeS2.Ruby
