import Mathlib.Algebra.BigOperators.Ring.Finset
import FeS2.Slicc.Resources

/-!
When a transition is atomic. It is if the pass over its statements comes by
every enqueue and no buffer goes by two names. Where nothing else can make up
for an enqueue that has been passed by, it is atomic only then.
-/

namespace FeS2.Slicc

/-! The enqueues of a statement list -/

namespace StatementList
variable {σ Addr Port Buffer State : Type} [DecidableEq Buffer]

def total (getCode : Port → Buffer) (b : Buffer) : StatementList σ Addr Port → Nat
  | nil | ret => 0
  | eval _ rest | checkAllocate _ rest => rest.total getCode b
  | call body rest | peek body rest => body.total getCode b + rest.total getCode b
  | enqueue port body latency rest => body.total getCode b + latency.total getCode b +
      (if getCode port = b then 1 else 0) + rest.total getCode b
  | copyHead port latency rest => latency.total getCode b +
      (if getCode port = b then 1 else 0) + rest.total getCode b
  | ifThenElse _ thenPart elsePart rest =>
      thenPart.total getCode b + elsePart.total getCode b + rest.total getCode b

/-- What the pass does not come by. -/
def hidden (getCode : Port → Buffer) (b : Buffer) : StatementList σ Addr Port → Nat
  | nil | ret => 0
  | eval _ rest | checkAllocate _ rest => rest.hidden getCode b
  | call body rest => body.total getCode b + rest.hidden getCode b
  | peek body rest => body.hidden getCode b + rest.hidden getCode b
  | enqueue _ body latency rest =>
      body.total getCode b + latency.total getCode b + rest.hidden getCode b
  | copyHead _ latency rest => latency.total getCode b + rest.hidden getCode b
  | ifThenElse _ thenPart elsePart rest =>
      thenPart.hidden getCode b + elsePart.hidden getCode b + rest.hidden getCode b

/-- An `if` chooses between parts that enqueue nothing, and nothing is counted that is not
enqueued. -/
def Straight : StatementList σ Addr Port → Prop
  | nil => True
  | eval _ rest => rest.Straight
  | call body rest => (body.Silent ∨ body.Straight) ∧ rest.Straight
  | peek body rest => body.Straight ∧ rest.Straight
  | enqueue _ body latency rest => body.Straight ∧ latency.Straight ∧ rest.Straight
  | copyHead _ latency rest => latency.Straight ∧ rest.Straight
  | checkAllocate _ _ | ret => False
  | ifThenElse _ thenPart elsePart rest => (thenPart.Silent ∧ thenPart.Straight) ∧
      (elsePart.Silent ∧ elsePart.Straight) ∧ rest.Straight

attribute [local simp] total hidden in
theorem Silent.total_eq {getCode : Port → Buffer} {b : Buffer} {st : StatementList σ Addr Port}
    (h : st.Silent) : st.total getCode b = 0 := by
  induction st with
  | nil | ret => rfl
  | eval effect rest ih | checkAllocate port rest ih => exact ih h
  | call body rest ihb ih | peek body rest ihb ih => rw [total, ihb h.1, ih h.2]
  | enqueue | copyHead => exact h.elim
  | ifThenElse cond thenPart elsePart rest iht ihe ih =>
      rw [total, iht h.1, ihe h.2.1, ih h.2.2]

theorem exists_total (getCode : Port → Buffer) {st : StatementList σ Addr Port}
    (h : ¬st.Silent) : ∃ port, 0 < st.total getCode (getCode port) := by
  induction st with
  | nil | ret => exact absurd trivial h
  | eval effect rest ih | checkAllocate port rest ih => exact ih h
  | call body rest ihb ih | peek body rest ihb ih =>
      simp only [total]
      by_cases hbody : body.Silent
      · obtain ⟨port, hport⟩ := ih fun hrest => h ⟨hbody, hrest⟩
        exact ⟨port, by omega⟩
      · obtain ⟨port, hport⟩ := ihb hbody
        exact ⟨port, by omega⟩
  | enqueue port body latency rest | copyHead port latency rest =>
      refine ⟨port, ?_⟩
      rw [total, if_pos rfl]
      omega
  | ifThenElse cond thenPart elsePart rest iht ihe ih =>
      simp only [total]
      by_cases hthen : thenPart.Silent
      · by_cases helse : elsePart.Silent
        · obtain ⟨port, hport⟩ := ih fun hrest => h ⟨hthen, helse, hrest⟩
          exact ⟨port, by omega⟩
        · obtain ⟨port, hport⟩ := ihe helse
          exact ⟨port, by omega⟩
      · obtain ⟨port, hport⟩ := iht hthen
        exact ⟨port, by omega⟩

theorem exists_hidden (getCode : Port → Buffer) {st : StatementList σ Addr Port}
    (h : ¬st.Counted) : ∃ port, 0 < st.hidden getCode (getCode port) := by
  induction st with
  | nil | ret => exact absurd trivial h
  | eval effect rest ih | checkAllocate port rest ih => exact ih h
  | call body rest _ ih =>
      simp only [hidden]
      by_cases hbody : body.Silent
      · obtain ⟨port, hport⟩ := ih fun hrest => h ⟨hbody, hrest⟩
        exact ⟨port, by omega⟩
      · obtain ⟨port, hport⟩ := exists_total getCode hbody
        exact ⟨port, by omega⟩
  | peek body rest ihb ih =>
      simp only [hidden]
      by_cases hbody : body.Counted
      · obtain ⟨port, hport⟩ := ih fun hrest => h ⟨hbody, hrest⟩
        exact ⟨port, by omega⟩
      · obtain ⟨port, hport⟩ := ihb hbody
        exact ⟨port, by omega⟩
  | enqueue port body latency rest _ _ ih =>
      simp only [hidden]
      by_cases hbody : body.Silent
      · by_cases hlatency : latency.Silent
        · obtain ⟨port, hport⟩ := ih fun hrest => h ⟨hbody, hlatency, hrest⟩
          exact ⟨port, by omega⟩
        · obtain ⟨port, hport⟩ := exists_total getCode hlatency
          exact ⟨port, by omega⟩
      · obtain ⟨port, hport⟩ := exists_total getCode hbody
        exact ⟨port, by omega⟩
  | copyHead port latency rest _ ih =>
      simp only [hidden]
      by_cases hlatency : latency.Silent
      · obtain ⟨port, hport⟩ := ih fun hrest => h ⟨hlatency, hrest⟩
        exact ⟨port, by omega⟩
      · obtain ⟨port, hport⟩ := exists_total getCode hlatency
        exact ⟨port, by omega⟩
  | ifThenElse cond thenPart elsePart rest iht ihe ih =>
      simp only [hidden]
      by_cases hthen : thenPart.Counted
      · by_cases helse : elsePart.Counted
        · obtain ⟨port, hport⟩ := ih fun hrest => h ⟨hthen, helse, hrest⟩
          exact ⟨port, by omega⟩
        · obtain ⟨port, hport⟩ := ihe helse
          exact ⟨port, by omega⟩
      · obtain ⟨port, hport⟩ := iht hthen
        exact ⟨port, by omega⟩

variable [DecidableEq Port] {getCode : Port → Buffer} {st : StatementList σ Addr Port}

theorem Silent.need_eq (hs : st.Silent) (h : st.Straight) (p : Port) : st.need p = 0 := by
  induction st with
  | nil => rfl
  | eval effect rest ih => exact ih hs h
  | call body rest _ ih => exact ih hs.2 h.2
  | peek body rest ihb ih => rw [need_peek, ihb hs.1 h.1, ih hs.2 h.2]
  | enqueue | copyHead => exact hs.elim
  | checkAllocate | ret => exact h.elim
  | ifThenElse cond thenPart elsePart rest iht ihe ih =>
      rw [need_ifThenElse, iht hs.1 h.1.2, ihe hs.2.1 h.2.1.2, ih hs.2.2 h.2.2]

theorem port_le_one (port : Port) {ps : Finset Port} {b : Buffer}
    (hps : ∀ p ∈ ps, getCode p = b) :
    (∑ p ∈ ps, if p = port then 1 else 0) ≤ if getCode port = b then 1 else 0 := by
  rw [Finset.sum_ite_eq' ps port]
  split
  · rw [if_pos (hps port ‹_›)]
  · exact Nat.zero_le _

/-- The enqueues into a buffer, against what is counted for some of its ports. -/
theorem Straight.need_add_hidden (h : st.Straight) {ps : Finset Port} {b : Buffer}
    (hps : ∀ p ∈ ps, getCode p = b) :
    ∑ p ∈ ps, st.need p + st.hidden getCode b ≤ st.total getCode b := by
  induction st with
  | nil => exact (Finset.sum_eq_zero fun p _ => rfl).le
  | eval effect rest ih => exact ih h
  | call body rest _ ih =>
      have hrest := ih h.2
      change ∑ p ∈ ps, rest.need p + _ ≤ _
      rw [hidden, total]
      omega
  | peek body rest ihb ih =>
      simp only [need_peek, Finset.sum_add_distrib]
      rw [hidden, total]
      have hbody := ihb h.1
      have hrest := ih h.2
      omega
  | enqueue port body latency rest _ _ ih =>
      have hself := port_le_one port hps
      have hrest := ih h.2.2
      simp only [need_enqueue, Finset.sum_add_distrib]
      rw [hidden, total]
      omega
  | copyHead port latency rest _ ih =>
      have hself := port_le_one port hps
      have hrest := ih h.2
      simp only [need_copyHead, Finset.sum_add_distrib]
      rw [hidden, total]
      omega
  | checkAllocate | ret => exact h.elim
  | ifThenElse cond thenPart elsePart rest iht ihe ih =>
      have hthen := iht h.1.2
      have helse := ihe h.2.1.2
      have hrest := ih h.2.2
      simp only [need_ifThenElse, Finset.sum_add_distrib]
      rw [hidden, total]
      omega

end StatementList

/-! What straight code enqueues -/

section
variable {σ Addr Port Buffer State : Type} [DecidableEq Buffer]

omit [DecidableEq Buffer] in
theorem Run.andThen_of_not_returned {r : Run σ Buffer} (h : r.returned = false)
    (next : σ → Run σ Buffer) :
    r.andThen next =
      { next r.state with enqueued := r.enqueued ++ (next r.state).enqueued } := by
  rw [Run.andThen, h]
  rfl

/-- However it runs, the code goes on to its end and enqueues `n` messages into the buffer. -/
def Code.Exactly (env : Surroundings σ State Addr Buffer) (addr : Addr) (b : Buffer)
    (k : Code σ Addr Buffer) (n : Nat) : Prop :=
  ∀ s, (k.exec env addr s).enqueued.count b = n ∧ (k.exec env addr s).returned = false

variable {env : Surroundings σ State Addr Buffer} {addr : Addr} {b : Buffer}
  {getCode : Port → Buffer} {k : Code σ Addr Buffer} {n : Nat}

theorem Code.exactly_done (env : Surroundings σ State Addr Buffer) (addr : Addr) (b : Buffer) :
    Code.Exactly env addr b .done 0 := fun _ => ⟨rfl, rfl⟩

/-- Code that goes on is followed by what comes after it. -/
theorem Code.Exactly.andThen {r : Run σ Buffer} {m : Nat} (hr : r.enqueued.count b = m)
    (hgo : r.returned = false) (h : Code.Exactly env addr b k n) :
    (r.andThen (k.exec env addr)).enqueued.count b = m + n ∧
      (r.andThen (k.exec env addr)).returned = false := by
  rw [Run.andThen_of_not_returned hgo]
  exact ⟨by rw [List.count_append, hr, (h _).1], (h _).2⟩

theorem Code.Exactly.enqueue (h : Code.Exactly env addr b k n) (buffer : Buffer) :
    Code.Exactly env addr b (.enqueue buffer k) ((if buffer = b then 1 else 0) + n) := by
  intro s
  refine Code.Exactly.andThen ?_ rfl h
  simp [List.count_singleton]

namespace StatementList

theorem Straight.exactly {st : StatementList σ Addr Port} (hs : st.Straight)
    (h : Code.Exactly env addr b k n) :
    Code.Exactly env addr b (st.generate getCode k) (st.total getCode b + n) := by
  induction st generalizing k n with
  | nil =>
      rw [total, Nat.zero_add]
      exact h
  | eval effect rest ih => exact fun s => ih hs h _
  | call body rest ihb ih =>
      intro s
      rw [total, Nat.add_assoc]
      refine Code.Exactly.andThen ?_ rfl (ih hs.2 h)
      rcases hs.1 with hsilent | hbody
      · rw [hsilent.total_eq]
        exact Nat.le_zero.mp (hsilent.within getCode (Code.within_done env addr b) s)
      · exact (ihb hbody (Code.exactly_done _ _ _) s).1
  | enqueue port body latency rest ihb ihl ih =>
      intro s
      rw [total, Nat.add_assoc]
      have hbody := ihb hs.1 (ihl hs.2.1 ((Code.exactly_done env addr b).enqueue
        (getCode port)))
      refine Code.Exactly.andThen ((hbody s).1.trans ?_) (hbody s).2 (ih hs.2.2 h)
      omega
  | copyHead port latency rest ihl ih =>
      have hrest := ihl hs.1 ((ih hs.2 h).enqueue (getCode port))
      rw [total, Nat.add_assoc, Nat.add_assoc]
      exact hrest
  | checkAllocate | ret => exact hs.elim
  | peek body rest ihb ih =>
      intro s
      have hbody := ihb hs.1 (Code.exactly_done _ _ _) s
      rw [total, Nat.add_assoc]
      exact Code.Exactly.andThen hbody.1 hbody.2 (ih hs.2 h)
  | ifThenElse cond thenPart elsePart rest iht ihe ih =>
      intro s
      have hthen := iht hs.1.2 (Code.exactly_done _ _ _) s
      have helse := ihe hs.2.1.2 (Code.exactly_done _ _ _) s
      rw [hs.1.1.total_eq] at hthen
      rw [hs.2.1.1.total_eq] at helse
      rw [total, hs.1.1.total_eq, hs.2.1.1.total_eq, Nat.add_assoc]
      refine Code.Exactly.andThen ?_ ?_ (ih hs.2.2 h)
      · split
        · exact hthen.1
        · exact helse.1
      · split
        · exact hthen.2
        · exact helse.2

end StatementList
end

namespace Machine
variable {σ State Event Addr Port Buffer : Type} [DecidableEq State] [DecidableEq Event]
  [LinearOrder Buffer] [DecidableEq Port]

omit [DecidableEq State] [DecidableEq Event] [DecidableEq Port] in
theorem runActions_total (m : Machine σ State Event Addr Port Buffer)
    (env : Surroundings σ State Addr Buffer) (addr : Addr) {names : List String} {b : Buffer}
    (hs : ∀ a ∈ names.filterMap m.findIndex, a.body.Straight) (s : σ) :
    (m.runActions env addr names s).enqueued.count b =
      ((names.filterMap m.findIndex).map fun a => a.body.total m.getCode b).sum := by
  induction names generalizing s with
  | nil => rfl
  | cons name names ih =>
      rw [runActions]
      cases hname : m.findIndex name with
      | none =>
          simp only [List.filterMap_cons, hname] at hs ⊢
          exact ih hs s
      | some action =>
          simp only [List.filterMap_cons, hname, List.forall_mem_cons] at hs ⊢
          rw [List.map_cons, List.sum_cons, Run.andThen_of_not_returned rfl, List.count_append,
            ih hs.2]
          exact congrArg (· + _) ((hs.1.exactly (Code.exactly_done _ _ _) s).1.trans (Nat.add_zero _))

theorem sum_need_add_hidden {getCode : Port → Buffer} {actions : List (Action σ Addr Port)}
    (hs : ∀ a ∈ actions, a.body.Straight) {ps : Finset Port} {b : Buffer}
    (hps : ∀ p ∈ ps, getCode p = b) :
    ∑ p ∈ ps, (actions.map fun a => a.body.need p).sum +
        (actions.map fun a => a.body.hidden getCode b).sum ≤
      (actions.map fun a => a.body.total getCode b).sum := by
  induction actions with
  | nil => simp
  | cons a actions ih =>
      rw [List.forall_mem_cons] at hs
      have hfirst := hs.1.need_add_hidden hps
      have hrest := ih hs.2
      simp only [List.map_cons, List.sum_cons, Finset.sum_add_distrib]
      omega

omit [DecidableEq State] [DecidableEq Event] in
theorem exists_tested (m : Machine σ State Event Addr Port Buffer) (t : Transition State Event)
    (p : Port) : ∃ q, m.getCode q = m.getCode p ∧ m.tested t (m.getCode p) ≤ m.resources t q := by
  have hmax : ∀ l : List Nat, l.foldr max 0 = 0 ∨ l.foldr max 0 ∈ l := by
    intro l
    induction l with
    | nil => exact .inl rfl
    | cons n l ih =>
        rw [List.foldr_cons]
        rcases Nat.le_total n (l.foldr max 0) with hle | hle
        · rw [Nat.max_eq_right hle]
          exact ih.imp id (List.mem_cons_of_mem _)
        · rw [Nat.max_eq_left hle]
          exact .inr List.mem_cons_self
  rcases hmax (((m.checks t).filter fun c => c.1 = m.getCode p).map (·.2)) with hzero | hmem
  · exact ⟨p, rfl, hzero.trans_le (Nat.zero_le _)⟩
  · obtain ⟨c, hc, heq⟩ := List.mem_map.mp hmem
    obtain ⟨hmemc, hcode⟩ := List.mem_filter.mp hc
    rw [checks, List.mem_insertionSort] at hmemc
    obtain ⟨q, -, rfl⟩ := List.mem_map.mp hmemc
    exact ⟨q, by simpa using hcode, heq.ge⟩

/-- Everything has room. -/
def roomy (σ State Addr Buffer : Type) : Surroundings σ State Addr Buffer where
  areNSlotsAvailable _ _ _ := true
  enqueue _ s := s
  setState _ _ s := s

/-- Where the transition runs, each buffer has been tested for all that goes into it. -/
theorem Atomic.total_le [Inhabited Addr] [Inhabited σ]
    {m : Machine σ State Event Addr Port Buffer} {t : Transition State Event}
    (ht : t ∈ m.transitions) (hst : stalls t = false)
    (hs : ∀ a ∈ t.actionList.filterMap m.findIndex, a.body.Straight) (h : m.Atomic t) (p : Port) :
    ((t.actionList.filterMap m.findIndex).map fun a => a.body.total m.getCode (m.getCode p)).sum ≤
      m.tested t (m.getCode p) := by
  obtain ⟨r, hr, hcases⟩ := h (roomy σ State Addr Buffer) default default
  have hvalid := m.doTransition_eq ht (roomy σ State Addr Buffer) default default
  have hroom : ((m.checks t).all fun c =>
      (roomy σ State Addr Buffer).areNSlotsAvailable c.1 c.2 default) = true :=
    List.all_eq_true.mpr fun _ _ => rfl
  rw [hr, hroom, if_pos rfl, hst, Option.some_inj] at hvalid
  rcases hcases with ⟨hstall, -⟩ | ⟨-, -, -, henq, hcount⟩
  · exact absurd (congrArg Prod.fst hvalid) hstall
  · have hle := hcount p
    rw [henq, m.runActions_total _ _ hs] at hle
    exact hle

theorem atomic_iff_covered [Inhabited Addr] [Inhabited σ]
    (m : Machine σ State Event Addr Port Buffer) {t : Transition State Event}
    (ht : t ∈ m.transitions) :
    (m.Covered t → m.Atomic t) ∧
      ((∀ a ∈ t.actionList.filterMap m.findIndex, a.body.Straight) →
        (m.Atomic t ↔ m.Covered t)) := by
  refine ⟨Covered.atomic ht, fun hs => ⟨fun h hst => ?_, Covered.atomic ht⟩⟩
  -- what goes into a buffer is no more than what is counted for one of its ports
  have hone : ∀ p, ∃ q, m.getCode q = m.getCode p ∧ ∀ ps : Finset Port,
      (∀ p' ∈ ps, m.getCode p' = m.getCode p) → ∑ p' ∈ ps, m.resources t p' +
        ((t.actionList.filterMap m.findIndex).map
          fun a => a.body.hidden m.getCode (m.getCode p)).sum ≤ m.resources t q := by
    intro p
    obtain ⟨q, hq, htested⟩ := m.exists_tested t p
    refine ⟨q, hq, fun ps hps => ?_⟩
    exact (sum_need_add_hidden hs hps).trans ((Atomic.total_le ht hst hs h p).trans htested)
  constructor
  · intro a ha
    by_contra hcounted
    obtain ⟨p, hp⟩ := StatementList.exists_hidden m.getCode hcounted
    obtain ⟨q, hq, hle⟩ := hone p
    have hhidden := List.single_le_sum (fun _ _ => Nat.zero_le _) _ (List.mem_map_of_mem
      (f := fun a : Action σ Addr Port => a.body.hidden m.getCode (m.getCode p)) ha)
    have := hle {q} fun p' hp' => by rw [Finset.mem_singleton.mp hp', hq]
    rw [Finset.sum_singleton] at this
    omega
  · intro p p' hp hp' hcode
    by_contra hne
    obtain ⟨q, hq, hle⟩ := hone p
    -- one of the two is not the port of the largest test
    obtain ⟨x, hx, hxq, hxcode⟩ : ∃ x, 0 < m.resources t x ∧ x ≠ q ∧
        m.getCode x = m.getCode p := by
      by_cases hpq : p = q
      · exact ⟨p', hp', fun h => hne (hpq.trans h.symm), hcode.symm⟩
      · exact ⟨p, hp, hpq, rfl⟩
    have := hle {x, q} fun y hy => by
      rcases Finset.mem_insert.mp hy with rfl | hy
      · exact hxcode
      · rw [Finset.mem_singleton.mp hy, hq]
    rw [Finset.sum_pair hxq] at this
    omega

/-- A machine with one action. -/
def single (body : StatementList Unit Unit Unit) : Machine Unit Bool Unit Unit Unit Nat where
  ports := [()]
  getCode _ := 0
  actions := [{ ident := "f_forward", body := body }]
  transitions := [{ state := false, event := (), nextState := true, actionList := ["f_forward"] }]
  mem_ports _ := List.mem_singleton.mpr rfl
  known := List.forall_mem_singleton.mpr
    (List.forall_mem_singleton.mpr ⟨_, List.mem_singleton.mpr rfl, rfl⟩)
  unique := List.pairwise_singleton _ _

def forward : Transition Bool Unit :=
  { state := false, event := (), nextState := true, actionList := ["f_forward"] }

theorem atomic_forward :
    (single (.ifThenElse (fun _ _ => true) (.enqueue () .nil .nil .nil) .nil .nil)).Atomic
      forward := by
  refine (atomic_iff_covered _ (t := forward) (by simp [single, forward])).1 fun _ => ⟨?_, ?_⟩
  · simp [forward, single, findIndex, StatementList.Counted, StatementList.Silent]
  · exact fun _ _ _ _ _ => rfl

/-- The message is filled in by an enqueue of its own. -/
theorem nested_not_atomic :
    ¬(single (.enqueue () (.enqueue () .nil .nil .nil) .nil .nil)).Atomic forward := by
  intro h
  have hle := Atomic.total_le (t := forward) (by simp [single, forward]) rfl
    (by simp [forward, single, findIndex, StatementList.Straight]) h ()
  exact absurd hle (by decide)

end Machine
end FeS2.Slicc
