import FeS2.Ruby.Multicast

/-!
The hierarchical topology is a funnel: up to the root every switch has one link
out, and from the root on every switch and port has one link in. Ids grow on the
way up, and down from the root they fall.
-/

namespace FeS2.Ruby
namespace Topology
variable {p : TopologyParams} {t t' : Topology} {a b : ℕ}

/-! Rows and levels attach their switches -/

/-- Every child gets a link with a switch of the level. -/
def Attached (mk : ℕ → ℕ → Link) (children level : List ℕ) (t t' : Topology) : Prop :=
  ∃ parents : List ℕ, parents.length = children.length ∧
    t'.links = t.links ++ List.zipWith mk children parents ∧ ∀ x ∈ parents, x ∈ level

section
variable {mk : ℕ → ℕ → Link} {children level : List ℕ}

/-- The links that are new, with the end that is the child's. -/
theorem Attached.new {g : Link → ℕ} (hg : ∀ s parent, g (mk s parent) = s)
    (h : Attached mk children level t t') : ∃ new : List Link, t'.links = t.links ++ new ∧
      new.map g = children ∧
      ∀ l ∈ new, ∃ s ∈ children, ∃ parent ∈ level, l = mk s parent := by
  obtain ⟨parents, hlen, hlinks, hparents⟩ := h
  refine ⟨_, hlinks, ?_⟩
  clear hlinks
  induction children generalizing parents with
  | nil => simp
  | cons c cs ih =>
      cases parents with
      | nil => cases hlen
      | cons q ps =>
          rw [List.forall_mem_cons] at hparents
          obtain ⟨hmap, hmem⟩ := ih ps (Nat.succ.inj hlen) hparents.2
          rw [List.zipWith_cons_cons, List.map_cons, hg, hmap, List.forall_mem_cons]
          refine ⟨rfl, ⟨c, List.mem_cons_self, q, hparents.1, rfl⟩, fun l hl => ?_⟩
          obtain ⟨s, hs, parent, hparent, rfl⟩ := hmem l hl
          exact ⟨s, List.mem_cons_of_mem _ hs, parent, hparent, rfl⟩

end

theorem level_attached (newSwitch : Topology → ℕ × Topology) (link : ℕ → ℕ → Topology → Topology)
    (mk : ℕ → ℕ → Link) (hnew : ∀ t, (newSwitch t).2.links = t.links)
    (hlink : ∀ s parent t, (link s parent t).links = t.links ++ [mk s parent])
    {i : ℕ} {last next : List ℕ} (hstart : i % p.fan_out_degree ≠ 0 → next ≠ []) :
    next ⊆ (level p newSwitch link i last next t).1 ∧
      Attached mk last (level p newSwitch link i last next t).1 t
        (level p newSwitch link i last next t).2 := by
  induction last generalizing i next t with
  | nil => exact ⟨List.Subset.refl _, [], rfl, (List.append_nil _).symm, by simp⟩
  | cons s rest ih =>
      simp only [level]
      have hgroup : ∀ r : List ℕ × Topology,
          r = (if i % p.fan_out_degree = 0 then (next ++ [(newSwitch t).1], (newSwitch t).2)
            else (next, t)) → r.2.links = t.links ∧ next ⊆ r.1 ∧ r.1 ≠ [] := by
        rintro r rfl
        split
        · exact ⟨hnew t, List.subset_append_left _ _, by simp⟩
        · exact ⟨rfl, List.Subset.refl _, hstart ‹_›⟩
      obtain ⟨hlinks, hsub, hne⟩ := hgroup _ rfl
      generalize (if i % p.fan_out_degree = 0 then (next ++ [(newSwitch t).1], (newSwitch t).2)
        else (next, t)) = r at hlinks hsub hne ⊢
      have hmem : r.1.getLastD 0 ∈ r.1 := by
        rw [List.getLastD_eq_getLast?, List.getLast?_eq_some_getLast hne]
        exact List.getLast_mem hne
      obtain ⟨hsub', parents, hlen, heq, hparents⟩ := ih (i := i + 1)
        (t := link s (r.1.getLastD 0) r.2) (fun _ => hne)
      refine ⟨List.Subset.trans hsub hsub', r.1.getLastD 0 :: parents, by simp [hlen], ?_, ?_⟩
      · rw [heq, hlink, hlinks, List.append_assoc]
        rfl
      · rw [List.forall_mem_cons]
        exact ⟨hsub' hmem, hparents⟩

/-- The switches of a level of new ones have the ids that follow. -/
theorem level_ids (link : ℕ → ℕ → Topology → Topology)
    (hlink : ∀ s parent t, (link s parent t).m_number_of_switches = t.m_number_of_switches)
    (i base : ℕ) {n : ℕ} (last : List ℕ)
    (hcount : p.m_nodes + p.m_nodes + t.m_number_of_switches = base + n) :
    ∃ n', (level p (newSwitchID p) link i last (List.range' base n) t).1 = List.range' base n' ∧
      p.m_nodes + p.m_nodes +
        (level p (newSwitchID p) link i last (List.range' base n) t).2.m_number_of_switches =
          base + n' := by
  induction last generalizing i n t with
  | nil => exact ⟨n, rfl, hcount⟩
  | cons s rest ih =>
      simp only [level]
      split
      · have hid : (newSwitchID p t).1 = base + n := by
          rw [newSwitchID]
          dsimp only
          omega
        rw [hid, ← List.range'_1_concat]
        refine ih (i + 1) ?_
        rw [hlink, newSwitchID]
        dsimp only
        omega
      · refine ih (i + 1) ?_
        rw [hlink]
        exact hcount

/-- The ports of a row, block by block. -/
def rowPorts (p : TopologyParams) (blocks : List ℕ) : List ℕ :=
  blocks.flatMap fun i => (List.range p.MachineType_NUM).map fun m => i * p.MachineType_NUM + m

theorem rowPorts_cons (i : ℕ) (blocks : List ℕ) : rowPorts p (i :: blocks) =
    ((List.range p.MachineType_NUM).map fun m => i * p.MachineType_NUM + m) ++
      rowPorts p blocks := List.flatMap_cons

theorem zipWith_replicate (mk : ℕ → ℕ → Link) (cs : List ℕ) (x : ℕ) :
    List.zipWith mk cs (List.replicate cs.length x) = cs.map fun c => mk c x := by
  induction cs with
  | nil => rfl
  | cons c cs ih =>
      rw [List.length_cons, List.replicate_succ, List.zipWith_cons_cons, ih, List.map_cons]

theorem row_attached (link : ℕ → ℕ → Topology → Topology) (mk : ℕ → ℕ → Link)
    (hlink : ∀ port s t, (link port s t).links = t.links ++ [mk port s])
    (hcount : ∀ port s t, (link port s t).m_number_of_switches = t.m_number_of_switches)
    (blocks : List ℕ) {base n : ℕ}
    (hbase : p.m_nodes + p.m_nodes + t.m_number_of_switches = base + n) :
    (row p link blocks (List.range' base n) t).1 = List.range' base (n + blocks.length) ∧
      p.m_nodes + p.m_nodes +
          (row p link blocks (List.range' base n) t).2.m_number_of_switches =
        base + (n + blocks.length) ∧
      Attached mk (rowPorts p blocks) (List.range' base (n + blocks.length)) t
        (row p link blocks (List.range' base n) t).2 := by
  induction blocks generalizing n t with
  | nil => exact ⟨rfl, hbase, [], rfl, (List.append_nil _).symm, by simp⟩
  | cons i rest ih =>
      simp only [row]
      have hid : (newSwitchID p t).1 = base + n := by
        rw [newSwitchID]
        dsimp only
        omega
      have hports : ∀ (machines : List ℕ) (t1 : Topology),
          (machines.foldl (fun t m => link (i * p.MachineType_NUM + m) (base + n) t) t1).links =
            t1.links ++ machines.map (fun m => mk (i * p.MachineType_NUM + m) (base + n)) ∧
          (machines.foldl (fun t m => link (i * p.MachineType_NUM + m) (base + n) t)
            t1).m_number_of_switches = t1.m_number_of_switches := by
        intro machines
        induction machines with
        | nil => exact fun t1 => ⟨(List.append_nil _).symm, rfl⟩
        | cons m machines ihm =>
            intro t1
            rw [List.foldl_cons]
            obtain ⟨hl, hc⟩ := ihm (link (i * p.MachineType_NUM + m) (base + n) t1)
            exact ⟨by rw [hl, hlink, List.append_assoc]; rfl, by rw [hc, hcount]⟩
      obtain ⟨hl, hc⟩ := hports (List.range p.MachineType_NUM) (newSwitchID p t).2
      rw [hid, ← List.range'_1_concat]
      generalize (List.range p.MachineType_NUM).foldl
        (fun t m => link (i * p.MachineType_NUM + m) (base + n) t) (newSwitchID p t).2 = t2
        at hl hc ⊢
      have hnew : (newSwitchID p t).2.links = t.links := rfl
      have hnum : (newSwitchID p t).2.m_number_of_switches = t.m_number_of_switches + 1 := rfl
      obtain ⟨hlevel, hnext, parents, hlen, heq, hparents⟩ :=
        ih (n := n + 1) (t := t2) (by rw [hc, hnum]; omega)
      have hplus : n + 1 + rest.length = n + (i :: rest).length := by
        rw [List.length_cons]
        omega
      rw [hplus] at hlevel hnext hparents
      refine ⟨hlevel, hnext, List.replicate p.MachineType_NUM (base + n) ++ parents, ?_, ?_, ?_⟩
      · rw [List.length_append, hlen, List.length_replicate, rowPorts_cons, List.length_append,
          List.length_map, List.length_range]
      · have hblock := zipWith_replicate mk
          ((List.range p.MachineType_NUM).map fun m => i * p.MachineType_NUM + m) (base + n)
        rw [List.length_map, List.length_range, List.map_map] at hblock
        rw [heq, hl, hnew, rowPorts_cons, List.zipWith_append (by simp), hblock,
          List.append_assoc]
        rfl
      · intro x hx
        rcases List.mem_append.mp hx with hx | hx
        · rw [List.eq_of_mem_replicate hx, List.mem_range'_1, List.length_cons]
          omega
        · exact hparents x hx

theorem rowPorts_range (n : ℕ) : rowPorts p (List.range n) = List.range (n * p.MachineType_NUM) := by
  induction n with
  | zero => rw [Nat.zero_mul]; rfl
  | succ n ih =>
      have happend : rowPorts p (List.range n ++ [n]) = rowPorts p (List.range n) ++
          rowPorts p [n] := List.flatMap_append
      rw [List.range_succ, happend, ih, rowPorts_cons, Nat.succ_mul, List.range_add]
      exact congrArg _ (List.append_nil _)

theorem rowPorts_nodes (p : TopologyParams) :
    rowPorts p (List.range (p.m_nodes / p.MachineType_NUM)) = List.range p.m_nodes := by
  rw [rowPorts_range, Nat.div_mul_cancel p.multiple]

/-! Up to the root -/

/-- One link out of every switch, to a later one. -/
structure UpTree (p : TopologyParams) (t : Topology) : Prop where
  nodup : (t.links.map Link.src).Nodup
  link : ∀ l ∈ t.links, (l.src < p.m_nodes ∨ p.m_nodes + p.m_nodes ≤ l.src) ∧ l.src < l.dest ∧
    p.m_nodes + p.m_nodes ≤ l.dest ∧ l.dest < p.m_nodes + p.m_nodes + t.m_number_of_switches

/-- Stations that have no link out yet are attached to new switches. -/
theorem UpTree.attach {latency base n start n' : ℕ} (h : UpTree p t)
    (hchildren : base + n ≤ p.m_nodes ∨ p.m_nodes + p.m_nodes ≤ base)
    (hstart : p.m_nodes + p.m_nodes ≤ start) (hle : base + n ≤ start)
    (hsrc : ∀ l ∈ t.links, l.src < base)
    (hold : p.m_nodes + p.m_nodes + t.m_number_of_switches = start)
    (hnew : p.m_nodes + p.m_nodes + t'.m_number_of_switches = start + n')
    (hatt : Attached (fun s parent => ⟨s, parent, latency⟩) (List.range' base n)
      (List.range' start n') t t') :
    UpTree p t' ∧ ∀ l ∈ t'.links, l.src < start := by
  obtain ⟨new, hlinks, hmap, hmk⟩ := hatt.new (g := Link.src) fun _ _ => rfl
  have hmem : ∀ l ∈ t'.links, l ∈ t.links ∨ (base ≤ l.src ∧ l.src < base + n) ∧
      start ≤ l.dest ∧ l.dest < start + n' := by
    intro l hl
    rw [hlinks] at hl
    rcases List.mem_append.mp hl with hl | hl
    · exact .inl hl
    · obtain ⟨s, hs, parent, hparent, rfl⟩ := hmk l hl
      exact .inr ⟨List.mem_range'_1.mp hs, List.mem_range'_1.mp hparent⟩
  refine ⟨⟨?_, fun l hl => ?_⟩, fun l hl => ?_⟩
  · rw [hlinks, List.map_append, hmap]
    refine List.Nodup.append h.nodup List.nodup_range' fun x hx hx' => ?_
    obtain ⟨l, hl, rfl⟩ := List.mem_map.mp hx
    exact absurd (hsrc l hl) (Nat.not_lt.mpr (List.mem_range'_1.mp hx').1)
  · rcases hmem l hl with hl | ⟨hs, hd⟩
    · obtain ⟨h1, h2, h3, h4⟩ := h.link l hl
      exact ⟨h1, h2, h3, by omega⟩
    · omega
  · rcases hmem l hl with hl | ⟨hs, hd⟩
    · exact (hsrc l hl).trans_le (by omega)
    · omega

theorem upLevel_attached {base n : ℕ} (hn : 1 < n)
    (hcount : p.m_nodes + p.m_nodes + t.m_number_of_switches = base + n) :
    ∃ n', 0 < n' ∧ n' < n ∧
      (upLevel p (List.range' base n) t).1 = List.range' (base + n) n' ∧
      p.m_nodes + p.m_nodes + (upLevel p (List.range' base n) t).2.m_number_of_switches =
        base + n + n' ∧
      Attached (fun s parent => ⟨s, parent, p.NETWORK_LINK_LATENCY⟩) (List.range' base n)
        (List.range' (base + n) n') t (upLevel p (List.range' base n) t).2 := by
  have hlength := upLevel_length p (List.range' base n) t
  have hceil := ceil_lt p.fan_out hn
  obtain ⟨n', hids, hnext⟩ := level_ids (p := p) (t := t)
    (fun s parent t => t.addLink s parent p.NETWORK_LINK_LATENCY) (fun _ _ _ => rfl) 0
    (base + n) (List.range' base n) (n := 0) hcount
  have hatt : Attached (fun s parent => ⟨s, parent, p.NETWORK_LINK_LATENCY⟩) (List.range' base n)
      (upLevel p (List.range' base n) t).1 t (upLevel p (List.range' base n) t).2 :=
    (level_attached _ _ _ (fun _ => rfl) (fun _ _ _ => rfl)
      fun h => absurd (Nat.zero_mod _) h).2
  have hids' : (upLevel p (List.range' base n) t).1 = List.range' (base + n) n' := hids
  rw [hids', List.length_range', List.length_range'] at hlength
  refine ⟨n', ?_, hlength ▸ hceil, hids', hnext, hids' ▸ hatt⟩
  rw [hlength]
  exact Nat.div_pos (by have := p.fan_out; omega) (by have := p.fan_out; omega)

/-- The root is the last switch on the way up. -/
theorem upLevels_tree {base n : ℕ} (h : UpTree p t) (hn : 0 < n)
    (hswitch : p.m_nodes + p.m_nodes ≤ base) (hsrc : ∀ l ∈ t.links, l.src < base)
    (hcount : p.m_nodes + p.m_nodes + t.m_number_of_switches = base + n) :
    UpTree p (upLevels p (List.range' base n) t).2 ∧
      p.m_nodes + p.m_nodes ≤ (upLevels p (List.range' base n) t).1 ∧
      (∀ l ∈ (upLevels p (List.range' base n) t).2.links,
        l.src < (upLevels p (List.range' base n) t).1) ∧
      p.m_nodes + p.m_nodes + (upLevels p (List.range' base n) t).2.m_number_of_switches =
        (upLevels p (List.range' base n) t).1 + 1 := by
  induction n using Nat.strong_induction_on generalizing base t with
  | _ n ih =>
      rw [upLevels]
      split
      · rename_i hlen
        rw [List.length_range'] at hlen
        obtain ⟨n', hpos, hlt, hids, hnext, hatt⟩ := upLevel_attached hlen hcount
        obtain ⟨htree, hsrc'⟩ := h.attach (.inr hswitch) (hswitch.trans (Nat.le_add_right _ _))
          (Nat.le_refl _) hsrc hcount hnext hatt
        rw [hids]
        exact ih n' hlt htree hpos (hswitch.trans (Nat.le_add_right _ _)) hsrc' hnext
      · rename_i hlen
        rw [List.length_range'] at hlen
        obtain rfl : n = 1 := by omega
        exact ⟨h, hswitch, hsrc, hcount⟩

/-! Down from the root -/

/-- One link into every switch and port, from a later switch or from the root. -/
structure DownTree (p : TopologyParams) (root : ℕ) (ups : List Link) (t : Topology)
    (downs : List Link) : Prop where
  links : t.links = ups ++ downs
  nodup : (downs.map Link.dest).Nodup
  src : ∀ l ∈ downs, l.src = root ∨ root < l.src ∧ l.dest < l.src
  dest : ∀ l ∈ downs, p.m_nodes ≤ l.dest ∧ (l.dest < p.m_nodes + p.m_nodes ∨ root < l.dest)

/-- A level attaches the switches of the last one, which have no link in yet. -/
theorem DownTree.attach {root latency base n : ℕ} {ups downs : List Link} {level : List ℕ}
    (h : DownTree p root ups t downs) (hroot : p.m_nodes + p.m_nodes ≤ root) (hbase : root < base)
    (hdest : ∀ l ∈ downs, l.dest < base)
    (hlevel : ∀ x ∈ level, x = root ∨ base + n ≤ x)
    (hatt : Attached (fun s parent => ⟨parent, s, latency⟩) (List.range' base n) level t t') :
    ∃ downs', DownTree p root ups t' downs' ∧ ∀ l ∈ downs', l.dest < base + n := by
  obtain ⟨new, hlinks, hmap, hmk⟩ := hatt.new (g := Link.dest) fun _ _ => rfl
  have hnew : ∀ l ∈ new, (base ≤ l.dest ∧ l.dest < base + n) ∧
      (l.src = root ∨ base + n ≤ l.src) := by
    intro l hl
    obtain ⟨s, hs, parent, hparent, rfl⟩ := hmk l hl
    exact ⟨List.mem_range'_1.mp hs, hlevel parent hparent⟩
  refine ⟨downs ++ new, ⟨?_, ?_, ?_, ?_⟩, ?_⟩
  · rw [hlinks, h.links, List.append_assoc]
  · rw [List.map_append, hmap]
    refine List.Nodup.append h.nodup List.nodup_range' fun x hx hx' => ?_
    obtain ⟨l, hl, rfl⟩ := List.mem_map.mp hx
    exact absurd (hdest l hl) (Nat.not_lt.mpr (List.mem_range'_1.mp hx').1)
  · refine List.forall_mem_append.mpr ⟨h.src, fun l hl => ?_⟩
    obtain ⟨hd, hs⟩ := hnew l hl
    exact hs.imp id fun hs => ⟨by omega, by omega⟩
  · refine List.forall_mem_append.mpr ⟨h.dest, fun l hl => ?_⟩
    obtain ⟨hd, -⟩ := hnew l hl
    exact ⟨by omega, .inr (by omega)⟩
  · refine List.forall_mem_append.mpr ⟨fun l hl => ?_, fun l hl => ?_⟩
    · exact (hdest l hl).trans_le (Nat.le_add_right _ _)
    · exact (hnew l hl).1.2

/-- With more than fit under the root, a level of new switches; otherwise the root. -/
theorem downLevel_attached (root : ℕ) {base n : ℕ} (hn : 1 < n)
    (hcount : p.m_nodes + p.m_nodes + t.m_number_of_switches = base + n) :
    (∀ x ∈ (downLevel p root (List.range' base n) t).1, x = root ∨ base + n ≤ x) ∧
      Attached (fun s parent => ⟨parent, s, p.NETWORK_LINK_LATENCY⟩) (List.range' base n)
        (downLevel p root (List.range' base n) t).1 t (downLevel p root (List.range' base n) t).2 ∧
      ((downLevel p root (List.range' base n) t).1.length ≤ 1 ∨
        ∃ n' < n, (downLevel p root (List.range' base n) t).1 = List.range' (base + n) n' ∧
          p.m_nodes + p.m_nodes +
            (downLevel p root (List.range' base n) t).2.m_number_of_switches = base + n + n') := by
  have hlength := downLevel_length p root (List.range' base n) t
  have hceil := ceil_lt p.fan_out hn
  have hf := p.fan_out
  rw [List.length_range'] at hlength
  have hatt : Attached (fun s parent => ⟨parent, s, p.NETWORK_LINK_LATENCY⟩) (List.range' base n)
      (downLevel p root (List.range' base n) t).1 t
      (downLevel p root (List.range' base n) t).2 := by
    refine (level_attached _ _ (fun s parent => ⟨parent, s, p.NETWORK_LINK_LATENCY⟩)
      (fun t => ?_) (fun _ _ _ => rfl) fun h => absurd (Nat.zero_mod _) h).2
    split
    · rfl
    · rfl
  by_cases hmore : n > p.fan_out_degree
  · have hlevel : downLevel p root (List.range' base n) t = level p (newSwitchID p)
        (fun s parent t => t.addLink parent s p.NETWORK_LINK_LATENCY) 0 (List.range' base n)
        (List.range' (base + n) 0) t := by
      rw [downLevel, List.length_range']
      simp only [if_pos hmore]
      rfl
    obtain ⟨n', hids, hnext⟩ := level_ids (p := p) (t := t)
      (fun s parent t => t.addLink parent s p.NETWORK_LINK_LATENCY) (fun _ _ _ => rfl) 0
      (base + n) (List.range' base n) (n := 0) hcount
    rw [← hlevel] at hids hnext
    rw [hids, List.length_range'] at hlength
    refine ⟨fun x hx => ?_, hatt, .inr ⟨n', hlength ▸ hceil, hids, hnext⟩⟩
    rw [hids] at hx
    exact .inr (List.mem_range'_1.mp hx).1
  · have hone : (downLevel p root (List.range' base n) t).1.length ≤ 1 := by
      rw [hlength]
      exact Nat.le_of_lt_succ ((Nat.div_lt_iff_lt_mul (by omega)).mpr (by omega))
    refine ⟨fun x hx => .inl ?_, hatt, .inl hone⟩
    have hgrows : ∀ t : Topology, Grows (fun _ => True) t t := fun t => .refl _ t
    refine (level_spec (p := p) (t := t)
      (fun t => if (List.range' base n).length > p.fan_out_degree then t.newSwitchID p
        else (root, t))
      (fun s parent t => t.addLink parent s p.NETWORK_LINK_LATENCY) (P := fun _ => True)
      (R := fun _ _ _ => True) (S := fun _ => True) (Q := fun x => x = root) (i := 0)
      (fun t => ?_) (fun s parent t _ _ => ⟨grows_addLink trivial, trivial⟩) (fun _ _ => trivial)
      (fun _ _ => trivial) (fun _ h => absurd h List.not_mem_nil)
      fun h => absurd (Nat.zero_mod _) h).2.2.1 x hx
    rw [List.length_range', if_neg hmore]
    exact ⟨hgrows t, rfl⟩

theorem downLevels_tree {root base n : ℕ} {ups downs : List Link}
    (h : DownTree p root ups t downs) (hroot : p.m_nodes + p.m_nodes ≤ root) (hbase : root < base)
    (hdest : ∀ l ∈ downs, l.dest < base)
    (hcount : p.m_nodes + p.m_nodes + t.m_number_of_switches = base + n) :
    ∃ downs', DownTree p root ups (downLevels p root (List.range' base n) t) downs' := by
  induction n using Nat.strong_induction_on generalizing base t downs with
  | _ n ih =>
      rw [downLevels]
      split
      · rename_i hlen
        rw [List.length_range'] at hlen
        obtain ⟨hlevel, hatt, hnext⟩ := downLevel_attached root hlen hcount
        obtain ⟨downs', htree, hdest'⟩ := h.attach hroot hbase hdest hlevel hatt
        rcases hnext with hone | ⟨n', hlt, hids, hnext⟩
        · rw [downLevels, dif_neg (Nat.not_lt.mpr hone)]
          exact ⟨downs', htree⟩
        · rw [hids]
          exact ih n' hlt htree (hbase.trans_le (Nat.le_add_right _ _)) hdest' hnext
      · exact ⟨downs, h⟩

/-! The funnel -/

/-- All links lead to the root or away from it: below its id there is one link out, and from
it on there is one link in. -/
structure Funnel (p : TopologyParams) (t : Topology) (root : ℕ) : Prop where
  root_switch : p.m_nodes + p.m_nodes ≤ root
  up : ∀ {a b b'}, a < root → Linked t a b → Linked t a b' → b = b'
  le_root : ∀ {a b}, a < root → Linked t a b → a < b ∧ b ≤ root
  down : ∀ {a a' b}, root ≤ a → Linked t a b → Linked t a' b → a' = a
  below : ∀ {a b}, root ≤ a → Linked t a b → b < p.m_nodes + p.m_nodes ∨ root < b

theorem makeHierarchicalSwitch_tree (p : TopologyParams) :
    ∃ root t' downs, p.m_nodes + p.m_nodes ≤ root ∧ UpTree p t' ∧
      (∀ l ∈ t'.links, l.src < root ∧ l.dest ≤ root) ∧
      DownTree p root t'.links (makeHierarchicalSwitch p) downs := by
  have hblocks := blocks_pos p
  obtain ⟨hlevel, hcount, hatt⟩ := row_attached (p := p) (t := {})
    (fun port s t => t.addLink port s p.NETWORK_LINK_LATENCY)
    (fun port s => ⟨port, s, p.NETWORK_LINK_LATENCY⟩) (fun _ _ _ => rfl) (fun _ _ _ => rfl)
    (List.range (p.m_nodes / p.MachineType_NUM)) (n := 0) (Nat.add_zero _)
  rw [Nat.zero_add, List.length_range] at hlevel hcount hatt
  rw [rowPorts_nodes, List.range_eq_range'] at hatt
  have hempty : UpTree p {} := ⟨List.nodup_nil, fun l hl => absurd hl List.not_mem_nil⟩
  obtain ⟨htree, hsrc⟩ := hempty.attach (.inl (by omega)) (Nat.le_refl _) (by omega)
    (fun l hl => absurd hl List.not_mem_nil) (Nat.add_zero _) hcount hatt
  obtain ⟨hup, hroot, hrootsrc, hrootcount⟩ :=
    upLevels_tree htree hblocks (Nat.le_refl _) hsrc hcount
  rw [makeHierarchicalSwitch]
  change (row p _ _ [] {}).1 = _ at hlevel
  change UpTree p (upLevels p _ (row p _ _ [] {}).2).2 at hup
  change _ ≤ (upLevels p _ (row p _ _ [] {}).2).1 at hroot
  change ∀ l ∈ (upLevels p _ (row p _ _ [] {}).2).2.links,
    l.src < (upLevels p _ (row p _ _ [] {}).2).1 at hrootsrc
  change _ + (upLevels p _ (row p _ _ [] {}).2).2.m_number_of_switches =
    (upLevels p _ (row p _ _ [] {}).2).1 + 1 at hrootcount
  rw [hlevel]
  generalize upLevels p _ (row p _ _ [] {}).2 = root at hup hroot hrootsrc hrootcount ⊢
  obtain ⟨hdownlevel, hdowncount, hdownatt⟩ := row_attached (p := p) (t := root.2)
    (fun port s t => t.addLink s (port + p.m_nodes) 1)
    (fun port s => ⟨s, port + p.m_nodes, 1⟩) (fun _ _ _ => rfl) (fun _ _ _ => rfl)
    (List.range (p.m_nodes / p.MachineType_NUM)) (n := 0) hrootcount
  rw [Nat.zero_add, List.length_range] at hdownlevel hdowncount hdownatt
  rw [rowPorts_nodes] at hdownatt
  change (row p _ _ [] root.2).1 = _ at hdownlevel
  change _ + (row p _ _ [] root.2).2.m_number_of_switches = _ at hdowncount
  change Attached _ _ _ root.2 (row p _ _ [] root.2).2 at hdownatt
  rw [hdownlevel]
  generalize row p _ _ [] root.2 = down at hdownlevel hdowncount hdownatt ⊢
  -- the links to the ports
  obtain ⟨downs, hlinks, hmap, hmk⟩ := hdownatt.new (g := fun l => l.dest - p.m_nodes)
    fun s _ => Nat.add_sub_cancel s p.m_nodes
  have hports : ∀ l ∈ downs, (p.m_nodes ≤ l.dest ∧ l.dest < p.m_nodes + p.m_nodes) ∧
      root.1 + 1 ≤ l.src := by
    intro l hl
    obtain ⟨s, hs, parent, hparent, rfl⟩ := hmk l hl
    have hlt := List.mem_range.mp hs
    exact ⟨⟨Nat.le_add_left _ _, by dsimp only; omega⟩, (List.mem_range'_1.mp hparent).1⟩
  have htree : DownTree p root.1 root.2.links down.2 downs := by
    refine ⟨hlinks, ?_, fun l hl => ?_, fun l hl => ?_⟩
    · refine List.Nodup.of_map (fun x => x - p.m_nodes) ?_
      rw [List.map_map]
      exact hmap ▸ List.nodup_range
    · have := hports l hl
      exact .inr ⟨by omega, by omega⟩
    · have := hports l hl
      exact ⟨this.1.1, .inl this.1.2⟩
  obtain ⟨downs', hdown⟩ := downLevels_tree htree hroot (Nat.lt_succ_self _)
    (fun l hl => by have := hports l hl; omega) hdowncount
  refine ⟨root.1, root.2, downs', hroot, hup, fun l hl => ⟨hrootsrc l hl, ?_⟩, hdown⟩
  have := (hup.link l hl).2.2.2
  omega

theorem makeHierarchicalSwitch_funnel (p : TopologyParams) :
    ∃ root, Funnel p (makeHierarchicalSwitch p) root := by
  obtain ⟨root, t', downs, hroot, hup, hbelow, hdown⟩ := makeHierarchicalSwitch_tree p
  -- a link is one up or one down, by its source and by its destination
  have hsrc : ∀ l ∈ (makeHierarchicalSwitch p).links,
      l ∈ t'.links ∧ l.src < root ∧ p.m_nodes + p.m_nodes ≤ l.dest ∧ l.dest ≤ root ∨
      l ∈ downs ∧ root ≤ l.src ∧ (l.dest < p.m_nodes + p.m_nodes ∨ root < l.dest) := by
    intro l hl
    rw [hdown.links] at hl
    rcases List.mem_append.mp hl with hl | hl
    · exact .inl ⟨hl, (hbelow l hl).1, (hup.link l hl).2.2.1, (hbelow l hl).2⟩
    · refine .inr ⟨hl, ?_, (hdown.dest l hl).2⟩
      rcases hdown.src l hl with h | h
      · exact h.ge
      · exact h.1.le
  have hupinj := List.inj_on_of_nodup_map hup.nodup
  have hdowninj := List.inj_on_of_nodup_map hdown.nodup
  refine ⟨root, hroot, ?_, ?_, ?_, ?_⟩
  · rintro a b b' ha ⟨l, hl, rfl, rfl⟩ ⟨l', hl', heq, rfl⟩
    rcases hsrc l hl with ⟨hl, -⟩ | ⟨-, hge, -⟩
    · rcases hsrc l' hl' with ⟨hl', -⟩ | ⟨-, hge, -⟩
      · rw [hupinj hl' hl heq]
      · omega
    · omega
  · rintro a b ha ⟨l, hl, rfl, rfl⟩
    rcases hsrc l hl with ⟨hl, -, -, hle⟩ | ⟨-, hge, -⟩
    · exact ⟨(hup.link l hl).2.1, hle⟩
    · omega
  · rintro a a' b ha ⟨l, hl, rfl, rfl⟩ ⟨l', hl', rfl, heq⟩
    rcases hsrc l hl with ⟨-, hlt, -⟩ | ⟨hl, -, hdest⟩
    · omega
    · rcases hsrc l' hl' with ⟨-, -, hge, hle⟩ | ⟨hl', -, -⟩
      · omega
      · rw [hdowninj hl' hl heq]
  · rintro a b ha ⟨l, hl, rfl, rfl⟩
    rcases hsrc l hl with ⟨-, hlt, -⟩ | ⟨-, -, hdest⟩
    · omega
    · exact hdest

end Topology
end FeS2.Ruby
