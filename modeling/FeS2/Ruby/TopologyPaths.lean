import Mathlib.Data.List.Range
import FeS2.Ruby.Topology

/-!
Every switch that a node feeds has a path to every node: up to the root, and from
there down. All links add up to less than an infinite latency, so the routing
tables see the path.
-/

namespace FeS2.Ruby
namespace Topology
variable {p : TopologyParams} {t t' t'' : Topology} {a b c k : ℕ}

/-- Links lead from a node to a switch, and from a switch to a switch or a node. -/
structure Link.Good (p : TopologyParams) (l : Link) : Prop where
  pos : 0 < l.latency
  le : l.latency ≤ p.NETWORK_LINK_LATENCY
  ends : l.src < p.m_nodes ∧ p.m_nodes + p.m_nodes ≤ l.dest ∨
    p.m_nodes + p.m_nodes ≤ l.src ∧ p.m_nodes ≤ l.dest

def Ok (p : TopologyParams) (t : Topology) : Prop := ∀ l ∈ t.links, Link.Good p l

def Linked (t : Topology) (a b : ℕ) : Prop := ∃ l ∈ t.links, l.src = a ∧ l.dest = b

/-- A path over `k` links. -/
inductive Hops (t : Topology) : ℕ → ℕ → ℕ → Prop
  | nil (a : ℕ) : Hops t 0 a a
  | cons {k a b c : ℕ} (link : Linked t a b) (rest : Hops t k b c) : Hops t (k + 1) a c

/-- What the builder does to a topology. `P` holds of the links it adds. -/
structure Grows (P : Link → Prop) (t t' : Topology) : Prop where
  old : t.links ⊆ t'.links
  new : ∀ l ∈ t'.links, l ∈ t.links ∨ P l

theorem Grows.refl (P : Link → Prop) (t : Topology) : Grows P t t :=
  ⟨List.Subset.refl _, fun _ hl => .inl hl⟩

theorem Grows.trans {P : Link → Prop} (h : Grows P t t') (h' : Grows P t' t'') :
    Grows P t t'' := by
  refine ⟨List.Subset.trans h.old h'.old, fun l hl => ?_⟩
  rcases h'.new l hl with hl | hl
  · exact h.new l hl
  · exact .inr hl

theorem Grows.mono {P Q : Link → Prop} (h : Grows P t t') (hPQ : ∀ l, P l → Q l) :
    Grows Q t t' :=
  ⟨h.old, fun l hl => (h.new l hl).imp_right (hPQ l)⟩

theorem Grows.linked {P : Link → Prop} (h : Grows P t t') (hl : Linked t a b) : Linked t' a b := by
  obtain ⟨l, hl, ha, hb⟩ := hl
  exact ⟨l, h.old hl, ha, hb⟩

theorem Grows.hops {P : Link → Prop} (h : Grows P t t') (hh : Hops t k a b) : Hops t' k a b := by
  induction hh with
  | nil a => exact .nil a
  | cons link rest ih => exact .cons (h.linked link) ih

theorem Hops.append {m : ℕ} (h : Hops t k a b) (h' : Hops t m b c) : Hops t (k + m) a c := by
  induction h with
  | nil a =>
      rw [Nat.zero_add]
      exact h'
  | cons link rest ih =>
      rw [Nat.add_right_comm]
      exact .cons link (ih h')

theorem Hops.last_linked (h : Hops t k a b) (hne : a ≠ b) : ∃ c, Linked t c b := by
  induction h with
  | nil a => exact absurd rfl hne
  | @cons k a b c link rest ih =>
      by_cases hbc : b = c
      · exact ⟨a, hbc ▸ link⟩
      · exact ih hbc

theorem grows_addLink {P : Link → Prop} {latency : ℕ} (h : P ⟨a, b, latency⟩) :
    Grows P t (t.addLink a b latency) := by
  refine ⟨List.subset_append_left _ _, fun l hl => ?_⟩
  rcases List.mem_append.mp hl with hl | hl
  · exact .inl hl
  · exact .inr (List.mem_singleton.mp hl ▸ h)

theorem linked_addLink {latency : ℕ} : Linked (t.addLink a b latency) a b :=
  ⟨⟨a, b, latency⟩, List.mem_append_right _ (List.mem_singleton_self _), rfl, rfl⟩

theorem grows_newSwitchID (P : Link → Prop) : Grows P t (t.newSwitchID p).2 :=
  ⟨List.Subset.refl _, fun _ hl => .inl hl⟩

theorem le_newSwitchID : p.m_nodes + p.m_nodes ≤ (t.newSwitchID p).1 := by
  unfold newSwitchID
  dsimp only
  omega

/-! Rows and levels -/

/-- What a row does: a switch for each block of ports, linked to all of them. -/
theorem row_spec (link : ℕ → ℕ → Topology → Topology) {P : Link → Prop} {R : ℕ → ℕ → Topology → Prop}
    (blocks acc : List ℕ)
    (hlink : ∀ port s t, (∃ i ∈ blocks, port / p.MachineType_NUM = i) →
      p.m_nodes + p.m_nodes ≤ s → Grows P t (link port s t) ∧ R port s (link port s t))
    (hmono : ∀ {port s t t'}, Grows P t t' → R port s t → R port s t')
    (hacc : ∀ s ∈ acc, p.m_nodes + p.m_nodes ≤ s) :
    Grows P t (row p link blocks acc t).2 ∧
      acc ⊆ (row p link blocks acc t).1 ∧
      (row p link blocks acc t).1.length = acc.length + blocks.length ∧
      (∀ s ∈ (row p link blocks acc t).1, p.m_nodes + p.m_nodes ≤ s) ∧
      ∀ port, port / p.MachineType_NUM ∈ blocks →
        ∃ s ∈ (row p link blocks acc t).1, R port s (row p link blocks acc t).2 := by
  induction blocks generalizing acc t with
  | nil =>
      exact ⟨.refl _ _, List.Subset.refl _, rfl, hacc, fun _ h => nomatch h⟩
  | cons i rest ih =>
      simp only [row]
      have hs : p.m_nodes + p.m_nodes ≤ (t.newSwitchID p).1 := le_newSwitchID
      generalize (t.newSwitchID p).1 = s at hs
      have ht : Grows P t (t.newSwitchID p).2 := grows_newSwitchID P
      generalize (t.newSwitchID p).2 = t1 at ht
      have hports : ∀ machines : List ℕ, (∀ m ∈ machines, m < p.MachineType_NUM) →
          ∀ t1 : Topology, Grows P t1
            (machines.foldl (fun t m => link (i * p.MachineType_NUM + m) s t) t1) ∧
          ∀ m ∈ machines, R (i * p.MachineType_NUM + m) s
            (machines.foldl (fun t m => link (i * p.MachineType_NUM + m) s t) t1) := by
        intro machines
        induction machines with
        | nil => exact fun _ t1 => ⟨.refl _ _, fun _ h => nomatch h⟩
        | cons m machines ihm =>
            intro hm t1
            have hdiv : (i * p.MachineType_NUM + m) / p.MachineType_NUM = i := by
              have := hm m List.mem_cons_self
              rw [Nat.mul_comm, Nat.mul_add_div p.machines_pos, Nat.div_eq_of_lt this, Nat.add_zero]
            obtain ⟨h1, h2⟩ := hlink (i * p.MachineType_NUM + m) s t1
              ⟨i, List.mem_cons_self, hdiv⟩ hs
            obtain ⟨h3, h4⟩ := ihm (fun m' hm' => hm m' (List.mem_cons_of_mem _ hm'))
              (link (i * p.MachineType_NUM + m) s t1)
            refine ⟨h1.trans h3, fun m' hm' => ?_⟩
            rcases List.mem_cons.mp hm' with rfl | hm'
            · exact hmono h3 h2
            · exact h4 m' hm'
      obtain ⟨h1, h2⟩ := hports (List.range p.MachineType_NUM) (fun m hm => List.mem_range.mp hm) t1
      generalize (List.range p.MachineType_NUM).foldl
        (fun t m => link (i * p.MachineType_NUM + m) s t) t1 = t2 at h1 h2 ⊢
      have hacc' : ∀ s' ∈ acc ++ [s], p.m_nodes + p.m_nodes ≤ s' := by
        intro s' hs'
        rcases List.mem_append.mp hs' with hs' | hs'
        · exact hacc s' hs'
        · exact List.mem_singleton.mp hs' ▸ hs
      obtain ⟨h3, h4, h5, h6, h7⟩ := ih (t := t2) _ (fun port s t ⟨j, hj, he⟩ hs =>
        hlink port s t ⟨j, List.mem_cons_of_mem _ hj, he⟩ hs) hacc'
      refine ⟨(ht.trans h1).trans h3, fun s' hs' => h4 (List.mem_append_left _ hs'), ?_, h6,
        fun port hport => ?_⟩
      · rw [h5, List.length_append, List.length_cons, List.length_cons, List.length_nil]
        omega
      · rcases List.mem_cons.mp hport with he | hport
        · refine ⟨s, h4 (List.mem_append_right _ (List.mem_singleton_self s)), hmono h3 ?_⟩
          have hlt := Nat.mod_lt port p.machines_pos
          have h := h2 (port % p.MachineType_NUM) (List.mem_range.mpr hlt)
          rwa [← he, Nat.mul_comm, Nat.div_add_mod] at h
        · exact h7 port hport

/-- What a level does: each switch of the last one is linked to one of it. `Q` is what is
known of its switches. -/
theorem level_spec (newSwitch : Topology → ℕ × Topology) (link : ℕ → ℕ → Topology → Topology)
    {P : Link → Prop} {R : ℕ → ℕ → Topology → Prop} {S Q : ℕ → Prop} {i : ℕ} {last next : List ℕ}
    (hnew : ∀ t, Grows P t (newSwitch t).2 ∧ Q (newSwitch t).1)
    (hlink : ∀ s parent t, S s → Q parent →
      Grows P t (link s parent t) ∧ R s parent (link s parent t))
    (hmono : ∀ {s parent t t'}, Grows P t t' → R s parent t → R s parent t')
    (hlast : ∀ s ∈ last, S s) (hnext : ∀ s ∈ next, Q s)
    (hstart : i % p.fan_out_degree ≠ 0 → next ≠ []) :
    Grows P t (level p newSwitch link i last next t).2 ∧
      next ⊆ (level p newSwitch link i last next t).1 ∧
      (∀ s ∈ (level p newSwitch link i last next t).1, Q s) ∧
      ∀ s ∈ last, ∃ parent ∈ (level p newSwitch link i last next t).1,
        R s parent (level p newSwitch link i last next t).2 := by
  induction last generalizing i next t with
  | nil => exact ⟨.refl _ _, List.Subset.refl _, hnext, fun _ h => nomatch h⟩
  | cons s rest ih =>
      simp only [level]
      have hgroup : ∀ r : List ℕ × Topology,
          r = (if i % p.fan_out_degree = 0 then (next ++ [(newSwitch t).1], (newSwitch t).2)
            else (next, t)) →
          Grows P t r.2 ∧ next ⊆ r.1 ∧ (∀ s ∈ r.1, Q s) ∧ r.1 ≠ [] := by
        intro r hr
        split at hr
        · subst hr
          refine ⟨(hnew t).1, List.subset_append_left _ _, fun s hs => ?_, by simp⟩
          rcases List.mem_append.mp hs with hs | hs
          · exact hnext s hs
          · exact List.mem_singleton.mp hs ▸ (hnew t).2
        · next hmod =>
            subst hr
            exact ⟨.refl _ _, List.Subset.refl _, hnext, hstart hmod⟩
      obtain ⟨h1, h2, h3, h4⟩ := hgroup _ rfl
      generalize (if i % p.fan_out_degree = 0 then (next ++ [(newSwitch t).1], (newSwitch t).2)
        else (next, t)) = r at h1 h2 h3 h4 ⊢
      have hmem : r.1.getLastD 0 ∈ r.1 := by
        rw [List.getLastD_eq_getLast?, List.getLast?_eq_some_getLast h4]
        exact List.getLast_mem h4
      obtain ⟨h5, h6⟩ := hlink s (r.1.getLastD 0) r.2 (hlast s List.mem_cons_self) (h3 _ hmem)
      obtain ⟨h7, h8, h9, h10⟩ := ih (i := i + 1) (t := link s (r.1.getLastD 0) r.2)
        (fun s' hs' => hlast s' (List.mem_cons_of_mem _ hs')) h3 (fun _ => h4)
      refine ⟨(h1.trans h5).trans h7, List.Subset.trans h2 h8, h9, fun s' hs' => ?_⟩
      rcases List.mem_cons.mp hs' with rfl | hs'
      · exact ⟨r.1.getLastD 0, h8 hmem, hmono h7 h6⟩
      · exact h10 s' hs'

/-- In the row of the nodes' links into the network, links lead to its switches. -/
theorem row_dest (latency : ℕ) (blocks acc : List ℕ) {l : Link}
    (h : l ∈ (row p (fun port s t => t.addLink port s latency) blocks acc t).2.links) :
    l ∈ t.links ∨ l.dest ∈ (row p (fun port s t => t.addLink port s latency) blocks acc t).1 := by
  induction blocks generalizing acc t with
  | nil => exact .inl h
  | cons i rest ih =>
      simp only [row] at h ⊢
      rcases ih _ h with h | h
      · have hports : ∀ (machines : List ℕ) (s : ℕ) (t1 : Topology),
            l ∈ (machines.foldl (fun t m => t.addLink (i * p.MachineType_NUM + m) s latency) t1).links →
            l ∈ t1.links ∨ l.dest = s := by
          intro machines s
          induction machines with
          | nil => exact fun _ h => .inl h
          | cons m machines ihm =>
              intro t1 h
              rcases ihm _ h with h | h
              · rcases List.mem_append.mp h with h | h
                · exact .inl h
                · exact .inr (congrArg Link.dest (List.mem_singleton.mp h))
              · exact .inr h
        rcases hports _ _ _ h with h | h
        · exact .inl h
        · refine .inr ?_
          have hsub : ∀ (blocks acc : List ℕ) (t : Topology),
              acc ⊆ (row p (fun port s t => t.addLink port s latency) blocks acc t).1 := by
            intro blocks
            induction blocks with
            | nil => exact fun acc t => List.Subset.refl _
            | cons i rest ih =>
                intro acc t
                exact List.Subset.trans (List.subset_append_left _ _) (ih _ _)
          rw [h]
          exact hsub _ _ _ (List.mem_append_right _ (List.mem_singleton_self _))
      · exact .inr h

/-! Up and down -/

/-- A link above the nodes. -/
def Inner (p : TopologyParams) (l : Link) : Prop := Link.Good p l ∧ p.m_nodes + p.m_nodes ≤ l.src

theorem inner_link (ha : p.m_nodes + p.m_nodes ≤ a) (hb : p.m_nodes + p.m_nodes ≤ b) :
    Inner p ⟨a, b, p.NETWORK_LINK_LATENCY⟩ :=
  ⟨⟨p.latency_pos, Nat.le_refl _, .inr ⟨ha, (Nat.le_add_right _ _).trans hb⟩⟩, ha⟩

theorem clog_ceil {n : ℕ} (hn : 1 < n) : Nat.clog p.fan_out_degree n =
    Nat.clog p.fan_out_degree ((0 + n + p.fan_out_degree - 1) / p.fan_out_degree) + 1 := by
  have hf := p.fan_out
  rw [Nat.zero_add]
  exact Nat.clog_of_one_lt (by omega) hn

theorem upLevels_spec {last : List ℕ} (hne : last ≠ [])
    (hlast : ∀ s ∈ last, p.m_nodes + p.m_nodes ≤ s) :
    Grows (Inner p) t (upLevels p last t).2 ∧ p.m_nodes + p.m_nodes ≤ (upLevels p last t).1 ∧
      ∀ s ∈ last, Hops (upLevels p last t).2 (Nat.clog p.fan_out_degree last.length) s
        (upLevels p last t).1 := by
  induction last, t using upLevels.induct p with
  | case1 last t hlen ih =>
      have hspec := level_spec (p := p) (newSwitchID p)
        (fun s parent t => t.addLink s parent p.NETWORK_LINK_LATENCY)
        (P := Inner p) (R := fun s parent t => Linked t s parent)
        (S := fun s => p.m_nodes + p.m_nodes ≤ s) (Q := fun s => p.m_nodes + p.m_nodes ≤ s)
        (i := 0) (t := t)
        (fun t => ⟨grows_newSwitchID _, le_newSwitchID⟩)
        (fun s parent t hs hp => ⟨grows_addLink (inner_link hs hp), linked_addLink⟩)
        (fun hg hl => hg.linked hl) hlast (fun _ h => (List.not_mem_nil h).elim)
        (fun h => absurd (Nat.zero_mod _) h)
      obtain ⟨h1, -, h3, h4⟩ := hspec
      have hlength := upLevel_length p last t
      have hne' : (upLevel p last t).1 ≠ [] := by
        obtain ⟨s, hs⟩ := List.exists_mem_of_ne_nil last hne
        obtain ⟨parent, hp, -⟩ := h4 s hs
        exact List.ne_nil_of_mem hp
      obtain ⟨h5, h6, h7⟩ := ih hne' h3
      rw [upLevels, dif_pos hlen]
      refine ⟨h1.trans h5, h6, fun s hs => ?_⟩
      obtain ⟨parent, hp, hl⟩ := h4 s hs
      rw [clog_ceil hlen, ← hlength]
      exact .cons (h5.linked hl) (h7 parent hp)
  | case2 last t hlen =>
      obtain ⟨s, rfl⟩ : ∃ s, last = [s] := by
        cases last with
        | nil => exact absurd rfl hne
        | cons s rest =>
            cases rest with
            | nil => exact ⟨s, rfl⟩
            | cons _ _ => exact absurd (by simp) hlen
      rw [upLevels, dif_neg hlen]
      refine ⟨.refl _ _, hlast s (List.mem_singleton_self s), fun s' hs' => ?_⟩
      rw [List.mem_singleton.mp hs', show Nat.clog p.fan_out_degree [s].length = 0 from
        Nat.clog_one_right _]
      exact .nil s

theorem downLevels_spec {root : ℕ} {last : List ℕ} (hne : last ≠ [])
    (hroot : p.m_nodes + p.m_nodes ≤ root) (hlast : ∀ s ∈ last, p.m_nodes + p.m_nodes ≤ s)
    (hone : last.length = 1 → last = [root]) :
    Grows (Inner p) t (downLevels p root last t) ∧
      ∀ s ∈ last, Hops (downLevels p root last t) (Nat.clog p.fan_out_degree last.length) root s := by
  have hf := p.fan_out
  induction last, t using downLevels.induct p root with
  | case1 last t hlen ih =>
      have hspec := level_spec (p := p)
        (fun t =>
          if last.length > p.fan_out_degree then t.newSwitchID p else (root, t))
        (fun s parent t => t.addLink parent s p.NETWORK_LINK_LATENCY)
        (P := Inner p) (R := fun s parent t => Linked t parent s)
        (S := fun s => p.m_nodes + p.m_nodes ≤ s)
        (Q := fun s => p.m_nodes + p.m_nodes ≤ s ∧ (last.length ≤ p.fan_out_degree → s = root))
        (i := 0) (t := t)
        (fun t => by
          split
          · next hgt => exact ⟨grows_newSwitchID _, le_newSwitchID, fun h => absurd hgt (by omega)⟩
          · exact ⟨.refl _ _, hroot, fun _ => rfl⟩)
        (fun s parent t hs hp => ⟨grows_addLink (inner_link hp.1 hs), linked_addLink⟩)
        (fun hg hl => hg.linked hl) hlast (fun _ h => (List.not_mem_nil h).elim)
        (fun h => absurd (Nat.zero_mod _) h)
      obtain ⟨h1, -, h3, h4⟩ := hspec
      have hlength := downLevel_length p root last t
      have hne' : (downLevel p root last t).1 ≠ [] := by
        obtain ⟨s, hs⟩ := List.exists_mem_of_ne_nil last hne
        obtain ⟨parent, hp, -⟩ := h4 s hs
        exact List.ne_nil_of_mem hp
      have hone' : (downLevel p root last t).1.length = 1 → (downLevel p root last t).1 = [root] := by
        intro h
        obtain ⟨s, hs⟩ := List.length_eq_one_iff.mp h
        have hle : last.length ≤ p.fan_out_degree := by
          rw [hlength] at h
          have := Nat.div_lt_iff_lt_mul (show 0 < p.fan_out_degree by omega) |>.mp
            (show (0 + last.length + p.fan_out_degree - 1) / p.fan_out_degree < 2 by omega)
          omega
        rw [hs, (h3 s (hs ▸ List.mem_singleton_self s)).2 hle]
      obtain ⟨h5, h6⟩ := ih hne' (fun s hs => (h3 s hs).1) hone'
      rw [downLevels, dif_pos hlen]
      refine ⟨h1.trans h5, fun s hs => ?_⟩
      obtain ⟨parent, hp, hl⟩ := h4 s hs
      rw [clog_ceil hlen, ← hlength]
      exact (h6 parent hp).append (.cons (h5.linked hl) (.nil s))
  | case2 last t hlen =>
      have hlen1 : last.length = 1 := by
        have := List.length_pos_of_ne_nil hne
        omega
      rw [downLevels, dif_neg hlen]
      refine ⟨.refl _ _, fun s hs => ?_⟩
      rw [hone hlen1] at hs
      rw [List.mem_singleton.mp hs, hlen1, Nat.clog_one_right]
      exact .nil root

/-! The hierarchical topology -/

theorem blocks_pos (p : TopologyParams) : 0 < p.m_nodes / p.MachineType_NUM :=
  Nat.div_pos p.larger.le p.machines_pos

theorem div_mem_blocks (ha : a < p.m_nodes) :
    a / p.MachineType_NUM ∈ List.range (p.m_nodes / p.MachineType_NUM) :=
  List.mem_range.mpr (Nat.div_lt_div_of_lt_of_dvd p.multiple ha)

theorem lt_of_div_mem_blocks
    (h : ∃ i ∈ List.range (p.m_nodes / p.MachineType_NUM), a / p.MachineType_NUM = i) :
    a < p.m_nodes := by
  obtain ⟨i, hi, rfl⟩ := h
  have h := Nat.div_mul_cancel p.multiple
  have hlt := (Nat.div_lt_iff_lt_mul p.machines_pos).mp (List.mem_range.mp hi)
  rwa [h] at hlt

/-- Every link is a good one, every node has a link into the network, and the switches
that the nodes feed have paths to all nodes. -/
structure Connected (p : TopologyParams) (t : Topology) : Prop where
  ok : Ok p t
  inLink : ∀ i < p.m_nodes, ∃ s, Linked t i s
  path : ∀ i s, i < p.m_nodes → Linked t i s → ∀ j < p.m_nodes,
    Hops t (2 * Nat.clog p.fan_out_degree (p.m_nodes / p.MachineType_NUM) + 1) s (j + p.m_nodes)

theorem makeHierarchicalSwitch_connected (p : TopologyParams) :
    Connected p (makeHierarchicalSwitch p) := by
  have hblocks := blocks_pos p
  unfold makeHierarchicalSwitch
  dsimp only
  have hup := row_spec (p := p) (t := {})
    (fun port s t => t.addLink port s p.NETWORK_LINK_LATENCY) (P := Link.Good p)
    (R := fun port s t => Linked t port s) (List.range (p.m_nodes / p.MachineType_NUM)) []
    (fun port s t hport hs => ⟨grows_addLink
      ⟨p.latency_pos, Nat.le_refl _, .inl ⟨lt_of_div_mem_blocks hport, hs⟩⟩, linked_addLink⟩)
    (fun hg hl => hg.linked hl) (fun _ h => nomatch h)
  have hdest := fun l => row_dest (p := p) (t := {}) (l := l) p.NETWORK_LINK_LATENCY
    (List.range (p.m_nodes / p.MachineType_NUM)) []
  generalize row p (fun port s t => t.addLink port s p.NETWORK_LINK_LATENCY)
    (List.range (p.m_nodes / p.MachineType_NUM)) [] {} = up at hup hdest ⊢
  obtain ⟨hup, -, huplen, hupinner, huplink⟩ := hup
  rw [List.length_nil, Nat.zero_add, List.length_range] at huplen
  have hupne : up.1 ≠ [] := List.ne_nil_of_length_pos (huplen ▸ hblocks)
  obtain ⟨hroot, hrootinner, hrootpath⟩ := upLevels_spec (t := up.2) hupne hupinner
  generalize upLevels p up.1 up.2 = root at hroot hrootinner hrootpath ⊢
  have hdown := row_spec (p := p) (t := root.2)
    (fun port s t => t.addLink s (port + p.m_nodes) 1) (P := Inner p)
    (R := fun port s t => Linked t s (port + p.m_nodes))
    (List.range (p.m_nodes / p.MachineType_NUM)) []
    (fun port s t hport hs => ⟨grows_addLink
      ⟨⟨Nat.one_pos, p.latency_pos, .inr ⟨hs, Nat.le_add_left _ _⟩⟩, hs⟩, linked_addLink⟩)
    (fun hg hl => hg.linked hl) (fun _ h => nomatch h)
  generalize row p (fun port s t => t.addLink s (port + p.m_nodes) 1)
    (List.range (p.m_nodes / p.MachineType_NUM)) [] root.2 = down at hdown ⊢
  obtain ⟨hdown, -, hdownlen, hdowninner, hdownlink⟩ := hdown
  rw [List.length_nil, Nat.zero_add, List.length_range] at hdownlen
  have hdownne : down.1 ≠ [] := List.ne_nil_of_length_pos (hdownlen ▸ hblocks)
  have hone : down.1.length = 1 → down.1 = [root.1] := by
    intro h
    have h1 := Nat.div_mul_cancel p.multiple
    rw [hdownlen] at h
    rw [h, Nat.one_mul] at h1
    exact absurd p.larger (by omega)
  obtain ⟨hlast, hlastpath⟩ :=
    downLevels_spec (t := down.2) hdownne hrootinner hdowninner hone
  have hinner : Grows (Inner p) up.2 (downLevels p root.1 down.1 down.2) :=
    (hroot.trans hdown).trans hlast
  refine ⟨fun l hl => ?_, fun i hi => ?_, fun i s hi hl j hj => ?_⟩
  · rcases hinner.new l hl with hl | hl
    · rcases hup.new l hl with hl | hl
      · cases hl
      · exact hl
    · exact hl.1
  · obtain ⟨s, -, hs⟩ := huplink i (div_mem_blocks hi)
    exact ⟨s, hinner.linked hs⟩
  · obtain ⟨l, hl, rfl, rfl⟩ := hl
    have hl : l ∈ up.2.links := by
      rcases hinner.new l hl with hl | hl
      · exact hl
      · exact absurd hl.2 (by omega)
    have hs : l.dest ∈ up.1 := by
      rcases hdest l hl with hl | hl
      · cases hl
      · exact hl
    obtain ⟨s, hsdown, hslink⟩ := hdownlink j (div_mem_blocks hj)
    have h1 := (hdown.trans hlast).hops (hrootpath l.dest hs)
    have h2 := hlastpath s hsdown
    have h3 : Hops (downLevels p root.1 down.1 down.2) 1 s (j + p.m_nodes) :=
      .cons (hlast.linked hslink) (.nil _)
    rw [huplen] at h1
    rw [hdownlen] at h2
    have h := (h1.append h2).append h3
    rwa [← Nat.two_mul] at h

/-! Weights and distances -/

theorem weights_foldl (links : List Link) {w : ShortestPath.Matrix} :
    (∃ l ∈ links, l.src = a ∧ l.dest = b ∧
      links.foldl (fun w l => ShortestPath.set w l.src l.dest l.latency) w a b = l.latency) ∨
    (∀ l ∈ links, ¬ (l.src = a ∧ l.dest = b)) ∧
      links.foldl (fun w l => ShortestPath.set w l.src l.dest l.latency) w a b = w a b := by
  induction links generalizing w with
  | nil => exact .inr ⟨fun _ h => (nomatch h), rfl⟩
  | cons l links ih =>
      simp only [List.foldl_cons]
      rcases ih (w := ShortestPath.set w l.src l.dest l.latency) with
        ⟨l', hl', ha, hb, hw⟩ | ⟨hno, hw⟩
      · exact .inl ⟨l', List.mem_cons_of_mem _ hl', ha, hb, hw⟩
      · rw [hw, ShortestPath.set_apply]
        by_cases hl : l.src = a ∧ l.dest = b
        · rw [if_pos ⟨hl.1.symm, hl.2.symm⟩]
          exact .inl ⟨l, List.mem_cons_self, hl.1, hl.2, rfl⟩
        · rw [if_neg fun h => hl ⟨h.1.symm, h.2.symm⟩]
          refine .inr ⟨fun l' hl' => ?_, rfl⟩
          rcases List.mem_cons.mp hl' with rfl | hl'
          · exact hl
          · exact hno l' hl'

theorem latency_lt (p : TopologyParams) : p.NETWORK_LINK_LATENCY < INFINITE_LATENCY := by
  have h := p.fits
  have : p.NETWORK_LINK_LATENCY * 1 ≤ p.NETWORK_LINK_LATENCY * (2 * Nat.clog 2 p.m_nodes + 1) :=
    Nat.mul_le_mul_left _ (by omega)
  omega

/-- A weight is that of a link, or there is none. -/
theorem Ok.weights (h : Ok p t) (a b : ℕ) :
    Linked t a b ∧ 0 < t.topology_weights a b ∧
      t.topology_weights a b ≤ p.NETWORK_LINK_LATENCY ∨
    ¬ Linked t a b ∧ t.topology_weights a b = if a = b then 0 else INFINITE_LATENCY := by
  rcases weights_foldl (a := a) (b := b) t.links
    (w := fun i j => if i = j then 0 else INFINITE_LATENCY) with ⟨l, hl, ha, hb, hw⟩ | ⟨hno, hw⟩
  · left
    unfold topology_weights
    rw [hw]
    exact ⟨⟨l, hl, ha, hb⟩, (h l hl).pos, (h l hl).le⟩
  · exact .inr ⟨fun ⟨l, hl, he⟩ => hno l hl he, hw⟩

theorem Ok.hasLink_iff (h : Ok p t) : t.hasLink a b ↔ Linked t a b := by
  have hlt := latency_lt p
  unfold hasLink
  rcases h.weights a b with ⟨hl, h0, hle⟩ | ⟨hl, hw⟩
  · simp only [hl, iff_true, Bool.and_eq_true, decide_eq_true_eq]
    exact ⟨h0, by omega⟩
  · rw [hw]
    simp only [hl, iff_false, Bool.and_eq_true, decide_eq_true_eq, not_and, not_not]
    split
    · exact fun h => absurd h (Nat.lt_irrefl _)
    · exact fun _ => rfl

theorem Ok.hasLink_weight (h : Ok p t) :
    t.hasLink a b ↔ 0 < t.topology_weights a b ∧ t.topology_weights a b < INFINITE_LATENCY := by
  have hlt := latency_lt p
  rw [h.hasLink_iff]
  rcases h.weights a b with ⟨hl, h0, hle⟩ | ⟨hl, hw⟩
  · simp only [hl, true_iff]
    exact ⟨h0, by omega⟩
  · rw [hw]
    simp only [hl, false_iff]
    split
    · exact fun h => absurd h.1 (Nat.lt_irrefl _)
    · exact fun h => absurd h.2 (Nat.lt_irrefl _)

theorem lt_num_switches {l : Link} (hl : l ∈ t.links) :
    l.src < t.num_switches ∧ l.dest < t.num_switches := by
  have h : ∀ (links : List Link) (m : ℕ), m ≤ links.foldl (fun m l => max m (max l.src l.dest)) m ∧
      ∀ l ∈ links, max l.src l.dest ≤ links.foldl (fun m l => max m (max l.src l.dest)) m := by
    intro links
    induction links with
    | nil => exact fun m => ⟨Nat.le_refl m, fun _ h => nomatch h⟩
    | cons l links ih =>
        intro m
        obtain ⟨h1, h2⟩ := ih (max m (max l.src l.dest))
        refine ⟨(Nat.le_max_left _ _).trans h1, fun l' hl' => ?_⟩
        rcases List.mem_cons.mp hl' with rfl | hl'
        · exact (Nat.le_max_right _ _).trans h1
        · exact h2 l' hl'
  have hle := (h t.links 0).2 l hl
  unfold num_switches
  omega

theorem Ok.within (h : Ok p t) :
    ShortestPath.Within t.topology_weights INFINITE_LATENCY t.num_switches := by
  intro a b h0 hlt
  obtain ⟨l, hl, rfl, rfl⟩ := h.hasLink_iff.mp (h.hasLink_weight.mpr ⟨h0, hlt⟩)
  exact lt_num_switches hl

theorem Ok.shortest (h : Ok p t) :
    ShortestPath.Shortest t.topology_weights INFINITE_LATENCY t.num_switches t.dist := by
  refine ShortestPath.shortest_extend fun a b h0 => ?_
  rcases h.weights a b with ⟨-, hpos, -⟩ | ⟨-, hw⟩
  · omega
  · rw [hw] at h0
    by_contra hne
    rw [if_neg hne] at h0
    cases h0

/-- Nothing leaves the ports out of the network. -/
theorem Ok.not_linked (h : Ok p t) {j : ℕ} (hj : j < p.m_nodes) : ¬ Linked t (j + p.m_nodes) b := by
  rintro ⟨l, hl, hsrc, -⟩
  rcases (h l hl).ends with ⟨h1, -⟩ | ⟨h1, -⟩ <;> omega

theorem Ok.weight_self (h : Ok p t) {j : ℕ} (hj : j < p.m_nodes) :
    t.topology_weights (j + p.m_nodes) (j + p.m_nodes) = 0 := by
  rcases h.weights (j + p.m_nodes) (j + p.m_nodes) with ⟨hl, -⟩ | ⟨-, hw⟩
  · exact absurd hl (h.not_linked hj)
  · rw [hw, if_pos rfl]

theorem Ok.walk_of_hops (h : Ok p t) (hh : Hops t k a b) :
    ∃ x ≤ p.NETWORK_LINK_LATENCY * k, ShortestPath.Walk t.topology_weights INFINITE_LATENCY a b x := by
  induction hh with
  | nil a => exact ⟨0, Nat.zero_le _, .nil a⟩
  | @cons k a b c link rest ih =>
      obtain ⟨x, hx, hwalk⟩ := ih
      rcases h.weights a b with ⟨-, h0, hle⟩ | ⟨hno, -⟩
      · have hlt := latency_lt p
        refine ⟨_, ?_, .cons h0 (by omega) hwalk⟩
        rw [Nat.mul_add, Nat.mul_one]
        omega
      · exact absurd link hno

/-- Every node is at a finite distance from where a message enters the network. -/
theorem Connected.dist_lt (h : Connected p t) {i s j : ℕ} (hi : i < p.m_nodes) (hl : Linked t i s)
    (hj : j < p.m_nodes) : t.dist s (j + p.m_nodes) < INFINITE_LATENCY := by
  have hhops := h.path i s hi hl j hj
  obtain ⟨x, hx, hwalk⟩ := h.ok.walk_of_hops hhops
  have hne : s ≠ j + p.m_nodes := by
    obtain ⟨l, hmem, rfl, rfl⟩ := hl
    rcases (h.ok l hmem).ends with ⟨-, h1⟩ | ⟨h1, -⟩ <;> omega
  obtain ⟨l, hmem, -, hdest⟩ := (hhops.last_linked hne).choose_spec
  have hb : j + p.m_nodes < t.num_switches := hdest ▸ (lt_num_switches hmem).2
  have hle := h.ok.shortest.le_walk h.ok.within (h.ok.weight_self hj) hb hwalk
  have hclog : Nat.clog p.fan_out_degree (p.m_nodes / p.MachineType_NUM) ≤ Nat.clog 2 p.m_nodes :=
    Nat.clog_mono (by omega) p.fan_out (Nat.div_le_self _ _)
  have hmul : p.NETWORK_LINK_LATENCY *
      (2 * Nat.clog p.fan_out_degree (p.m_nodes / p.MachineType_NUM) + 1) ≤
      p.NETWORK_LINK_LATENCY * (2 * Nat.clog 2 p.m_nodes + 1) :=
    Nat.mul_le_mul_left _ (by omega)
  have hfits := p.fits
  omega

end Topology
end FeS2.Ruby
