import Mathlib.Data.List.Count
import FeS2.Slicc.Machine

/-!
The two passes over the actions of a transition. A stalled transition changes
nothing, and one that goes on runs its own actions, whichever case its code has
been merged into. What the tests of a transition cover is what the pass over its
statements counts; it passes by the body of an enqueue and by the functions that
an expression calls, and it counts by the variable of a port, not by its buffer.
-/

namespace FeS2.Slicc

/-! The pass that counts -/

namespace StatementList
variable {σ Addr Port Buffer State : Type}

section
variable [DecidableEq Port]

def need (st : StatementList σ Addr Port) (p : Port) : Nat := st.findResources (fun _ => 0) p

attribute [local simp] findResources in
theorem findResources_eq (st : StatementList σ Addr Port) (res : Port → Nat) (p : Port) :
    st.findResources res p = res p + st.need p := by
  induction st generalizing res with
  | nil => rfl
  | eval effect rest ih => exact ih res
  | call body rest _ ih => exact ih res
  | enqueue port body latency rest _ _ ih | copyHead port latency rest _ ih
  | checkAllocate port rest ih =>
      show rest.findResources (Function.update res port (res port + 1)) p =
        res p + rest.findResources (Function.update (fun _ => 0) port (0 + 1)) p
      rw [ih, ih, Function.update_apply, Function.update_apply]
      split
      · rename_i h
        rw [h]
        omega
      · omega
  | peek body rest ihb ih =>
      show rest.findResources (body.findResources res) p =
        res p + rest.findResources (body.findResources fun _ => 0) p
      rw [ih, ih, ihb, need]
      omega
  | ifThenElse cond thenPart elsePart rest iht ihe ih =>
      show rest.findResources (elsePart.findResources (thenPart.findResources res)) p = res p +
        rest.findResources (elsePart.findResources (thenPart.findResources fun _ => 0)) p
      rw [ih, ih, ihe, ihe, iht, need, need]
      omega
  | ret => rfl

@[simp] theorem need_enqueue (port p : Port) (body latency rest : StatementList σ Addr Port) :
    (enqueue port body latency rest).need p = (if p = port then 1 else 0) + rest.need p := by
  rw [need, findResources, findResources_eq, Function.update_apply]

@[simp] theorem need_copyHead (port p : Port) (latency rest : StatementList σ Addr Port) :
    (copyHead port latency rest).need p = (if p = port then 1 else 0) + rest.need p := by
  rw [need, findResources, findResources_eq, Function.update_apply]

@[simp] theorem need_checkAllocate (port p : Port) (rest : StatementList σ Addr Port) :
    (checkAllocate port rest).need p = (if p = port then 1 else 0) + rest.need p := by
  rw [need, findResources, findResources_eq, Function.update_apply]

@[simp] theorem need_peek (body rest : StatementList σ Addr Port) (p : Port) :
    (peek body rest).need p = body.need p + rest.need p := by
  rw [need, findResources, findResources_eq]
  rfl

@[simp] theorem need_ifThenElse (cond : Addr → σ → Bool)
    (thenPart elsePart rest : StatementList σ Addr Port) (p : Port) :
    (ifThenElse cond thenPart elsePart rest).need p =
      thenPart.need p + elsePart.need p + rest.need p := by
  rw [need, findResources, findResources_eq, findResources_eq]
  rfl

end

/-- Nothing is enqueued. -/
def Silent : StatementList σ Addr Port → Prop
  | nil | ret => True
  | eval _ rest | checkAllocate _ rest => rest.Silent
  | call body rest | peek body rest => body.Silent ∧ rest.Silent
  | enqueue _ _ _ _ | copyHead _ _ _ => False
  | ifThenElse _ thenPart elsePart rest => thenPart.Silent ∧ elsePart.Silent ∧ rest.Silent

/-- Only what the pass comes by is enqueued. -/
def Counted : StatementList σ Addr Port → Prop
  | nil | ret => True
  | eval _ rest | checkAllocate _ rest => rest.Counted
  | call body rest => body.Silent ∧ rest.Counted
  | enqueue _ body latency rest => body.Silent ∧ latency.Silent ∧ rest.Counted
  | copyHead _ latency rest => latency.Silent ∧ rest.Counted
  | peek body rest => body.Counted ∧ rest.Counted
  | ifThenElse _ thenPart elsePart rest => thenPart.Counted ∧ elsePart.Counted ∧ rest.Counted

end StatementList

/-! The pass that generates -/

section
variable {σ Addr Port Buffer State : Type} [DecidableEq Buffer]

theorem Run.count_andThen (r : Run σ Buffer) (next : σ → Run σ Buffer) (b : Buffer) :
    (r.andThen next).enqueued.count b ≤
      r.enqueued.count b + (next r.state).enqueued.count b := by
  unfold Run.andThen
  split
  · exact Nat.le_add_right _ _
  · exact List.count_append.le

/-- However it runs, the code enqueues at most `n` messages into the buffer. -/
def Code.Within (env : Surroundings σ State Addr Buffer) (addr : Addr) (b : Buffer)
    (k : Code σ Addr Buffer) (n : Nat) : Prop :=
  ∀ s, (k.exec env addr s).enqueued.count b ≤ n

variable {env : Surroundings σ State Addr Buffer} {addr : Addr} {b : Buffer}
  {getCode : Port → Buffer} {k : Code σ Addr Buffer} {n : Nat}

theorem Code.within_done (env : Surroundings σ State Addr Buffer) (addr : Addr) (b : Buffer) :
    Code.Within env addr b .done 0 := fun _ => Nat.le_refl 0

theorem Code.Within.enqueue (h : Code.Within env addr b k n) (buffer : Buffer) :
    Code.Within env addr b (.enqueue buffer k) ((if buffer = b then 1 else 0) + n) := by
  intro s
  refine (Run.count_andThen _ _ b).trans (Nat.add_le_add ?_ (h _))
  simp [List.count_singleton]

theorem Code.Within.block {body : Code σ Addr Buffer} {m : Nat}
    (hbody : Code.Within env addr b body m) (h : Code.Within env addr b k n) :
    Code.Within env addr b (.block body k) (m + n) :=
  fun s => (Run.count_andThen _ _ b).trans (Nat.add_le_add (hbody s) (h _))

theorem Code.Within.call {body : Code σ Addr Buffer} {m : Nat}
    (hbody : Code.Within env addr b body m) (h : Code.Within env addr b k n) :
    Code.Within env addr b (.call body k) (m + n) :=
  fun s => (Run.count_andThen _ _ b).trans (Nat.add_le_add (hbody s) (h _))

theorem Code.Within.ifElse (cond : Addr → σ → Bool) {thenPart elsePart : Code σ Addr Buffer}
    {m : Nat} (hthen : Code.Within env addr b thenPart m)
    (helse : Code.Within env addr b elsePart m) (h : Code.Within env addr b k n) :
    Code.Within env addr b (.ifElse cond thenPart elsePart k) (m + n) := by
  intro s
  refine (Run.count_andThen _ _ b).trans (Nat.add_le_add ?_ (h _))
  split
  · exact hthen s
  · exact helse s

theorem Code.Within.mono {m : Nat} (h : Code.Within env addr b k n) (hle : n ≤ m) :
    Code.Within env addr b k m := fun s => (h s).trans hle

namespace StatementList

theorem Silent.within (getCode : Port → Buffer) {st : StatementList σ Addr Port} (hs : st.Silent)
    (h : Code.Within env addr b k n) :
    Code.Within env addr b (st.generate getCode k) n := by
  induction st generalizing k n with
  | nil => exact h
  | eval effect rest ih => exact fun s => ih hs h _
  | call body rest ihb ih =>
      have := (ihb hs.1 (Code.within_done env addr b)).call (ih hs.2 h)
      rwa [Nat.zero_add] at this
  | enqueue port body latency rest => exact hs.elim
  | copyHead port latency rest => exact hs.elim
  | checkAllocate port rest ih => exact ih hs h
  | peek body rest ihb ih =>
      have := (ihb hs.1 (Code.within_done env addr b)).block (ih hs.2 h)
      rwa [Nat.zero_add] at this
  | ifThenElse cond thenPart elsePart rest iht ihe ih =>
      have hdone := Code.within_done env addr b
      have := (iht hs.1 hdone).ifElse cond (ihe hs.2.1 hdone) (ih hs.2.2 h)
      rwa [Nat.zero_add] at this
  | ret => exact fun s => Nat.zero_le n

theorem port_le {port p : Port} [DecidableEq Port] (h : getCode port = b → port = p) :
    (if getCode port = b then 1 else 0) ≤ if p = port then 1 else 0 := by
  split
  · rename_i hport
    rw [if_pos (h hport).symm]
  · exact Nat.zero_le _

/-- The generated code stays within what the pass counts for the one port of a buffer. -/
theorem Counted.within [DecidableEq Port] (getCode : Port → Buffer) {st : StatementList σ Addr Port} {p : Port}
    (hc : st.Counted) (hp : ∀ q, 0 < st.need q → getCode q = b → q = p)
    (h : Code.Within env addr b k n) :
    Code.Within env addr b (st.generate getCode k) (st.need p + n) := by
  induction st generalizing k n with
  | nil => exact h.mono (Nat.le_add_left _ _)
  | eval effect rest ih => exact fun s => ih hc hp h _
  | call body rest _ ih =>
      have := (hc.1.within getCode (Code.within_done env addr b)).call (ih hc.2 hp h)
      rwa [Nat.zero_add] at this
  | enqueue port body latency rest _ _ ih =>
      have hbody := hc.1.within getCode (hc.2.1.within getCode
        ((Code.within_done env addr b).enqueue (getCode port)))
      have hrest := ih hc.2.2 (fun q hq => hp q (by simp only [need_enqueue]; omega)) h
      refine (hbody.block hrest).mono ?_
      have hself := port_le (p := p) fun hport => hp port (by simp) hport
      rw [need_enqueue]
      omega
  | copyHead port latency rest _ ih =>
      have hrest := ih hc.2 (fun q hq => hp q (by simp only [need_copyHead]; omega)) h
      refine (hc.1.within getCode (hrest.enqueue (getCode port))).mono ?_
      have hself := port_le (p := p) fun hport => hp port (by simp) hport
      rw [need_copyHead]
      omega
  | checkAllocate port rest ih =>
      refine (ih hc (fun q hq => hp q (by simp only [need_checkAllocate]; omega)) h).mono ?_
      rw [need_checkAllocate]
      omega
  | peek body rest ihb ih =>
      have hbody := ihb hc.1 (fun q hq => hp q (by simp only [need_peek]; omega))
        (Code.within_done env addr b)
      have hrest := ih hc.2 (fun q hq => hp q (by simp only [need_peek]; omega)) h
      refine (hbody.block hrest).mono ?_
      rw [need_peek]
      omega
  | ifThenElse cond thenPart elsePart rest iht ihe ih =>
      -- both branches are counted, one is taken
      have hthen := iht hc.1 (fun q hq => hp q (by simp only [need_ifThenElse]; omega))
        (Code.within_done env addr b)
      have helse := ihe hc.2.1 (fun q hq => hp q (by simp only [need_ifThenElse]; omega))
        (Code.within_done env addr b)
      have hrest := ih hc.2.2 (fun q hq => hp q (by simp only [need_ifThenElse]; omega)) h
      refine ((hthen.mono (Nat.le_add_right _ (elsePart.need p))).ifElse cond
        (helse.mono ?_) hrest).mono ?_
      · omega
      · rw [need_ifThenElse]
        omega
  | ret => exact fun s => Nat.zero_le _

end StatementList
end

/-! The switch -/

namespace Machine
variable {σ State Event Addr Port Buffer : Type} [DecidableEq State] [DecidableEq Event]
  [LinearOrder Buffer] [DecidableEq Port]

omit [DecidableEq Event] [DecidableEq Port] in
theorem labels_addCase {code c : CaseCode State Buffer} {label l : State × Event}
    {blocks : List (CaseCode State Buffer × List (State × Event))} :
    (∃ b ∈ addCase code label blocks, l ∈ b.2 ∧ b.1 = c) ↔
      (∃ b ∈ blocks, l ∈ b.2 ∧ b.1 = c) ∨ (l = label ∧ c = code) := by
  induction blocks with
  | nil => simp [addCase, eq_comm]
  | cons block blocks ih =>
      obtain ⟨c', labels⟩ := block
      rw [addCase]
      split
      · rename_i h
        rw [List.exists_mem_cons_iff, List.exists_mem_cons_iff, List.mem_append,
          List.mem_singleton, or_and_right, h, or_assoc, or_assoc, or_comm (b := ∃ b ∈ blocks, _),
          eq_comm (a := code)]
      · rw [List.exists_mem_cons_iff, List.exists_mem_cons_iff, ih, or_assoc]

omit [DecidableEq Event] in
/-- A label stands at the code of its transition, however the cases are merged. -/
theorem labels_switch (m : Machine σ State Event Addr Port Buffer) {l : State × Event}
    {c : CaseCode State Buffer} :
    (∃ b ∈ m.switch, l ∈ b.2 ∧ b.1 = c) ↔
      ∃ t ∈ m.transitions, l = (t.state, t.event) ∧ c = m.caseCode t := by
  have hfold : ∀ (ts : List (Transition State Event))
      (blocks : List (CaseCode State Buffer × List (State × Event))),
      (∃ b ∈ ts.foldl (fun blocks t => addCase (m.caseCode t) (t.state, t.event) blocks) blocks,
        l ∈ b.2 ∧ b.1 = c) ↔
      (∃ b ∈ blocks, l ∈ b.2 ∧ b.1 = c) ∨
        ∃ t ∈ ts, l = (t.state, t.event) ∧ c = m.caseCode t := by
    intro ts
    induction ts with
    | nil => simp
    | cons t ts ih =>
        intro blocks
        rw [List.foldl_cons, ih, labels_addCase, or_assoc]
        simp only [List.mem_cons, exists_eq_or_imp]
  rw [switch, hfold]
  simp

theorem find_switch (m : Machine σ State Event Addr Port Buffer) {t : Transition State Event}
    (ht : t ∈ m.transitions) :
    (m.switch.find? fun b => b.2.contains (t.state, t.event)).map (·.1) = some (m.caseCode t) := by
  obtain ⟨b, hb, hl, -⟩ := m.labels_switch.mpr ⟨t, ht, rfl, rfl⟩
  have hsome : (m.switch.find? fun b => b.2.contains (t.state, t.event)).isSome :=
    List.find?_isSome.mpr ⟨b, hb, by simpa using hl⟩
  obtain ⟨b', hb'⟩ := Option.isSome_iff_exists.mp hsome
  have hlabel : (t.state, t.event) ∈ b'.2 := by simpa using List.find?_some hb'
  obtain ⟨u, hu, heq, hcode⟩ := m.labels_switch.mp ⟨b', List.mem_of_find?_eq_some hb', hlabel, rfl⟩
  have hinj := List.inj_on_of_nodup_map (List.pairwise_map.mpr m.unique)
  obtain rfl := hinj ht hu heq
  rw [hb', Option.map_some, hcode]

theorem find_switch_none (m : Machine σ State Event Addr Port Buffer) {state : State}
    {event : Event} (h : ∀ t ∈ m.transitions, (t.state, t.event) ≠ (state, event)) :
    (m.switch.find? fun b => b.2.contains (state, event)) = none := by
  rw [List.find?_eq_none]
  intro b hb hl
  obtain ⟨t, ht, heq, -⟩ := m.labels_switch.mp ⟨b, hb, by simpa using hl, rfl⟩
  exact h t ht heq.symm

theorem doTransition_undeclared (m : Machine σ State Event Addr Port Buffer) {state : State}
    {event : Event} (h : ∀ t ∈ m.transitions, (t.state, t.event) ≠ (state, event))
    (env : Surroundings σ State Addr Buffer) (addr : Addr) (s : σ) :
    m.doTransition env event state addr s = none := by
  rw [doTransition, m.find_switch_none h]
  rfl

/-- What the declared transition is to do. -/
theorem doTransition_eq (m : Machine σ State Event Addr Port Buffer) {t : Transition State Event}
    (ht : t ∈ m.transitions) (env : Surroundings σ State Addr Buffer) (addr : Addr) (s : σ) :
    m.doTransition env t.event t.state addr s = some
      (if (m.checks t).all fun c => env.areNSlotsAvailable c.1 c.2 s then
        if stalls t then (.ProtocolStall, { state := s })
        else (.Valid, { m.runActions env addr t.actionList s with
          state := env.setState addr t.nextState (m.runActions env addr t.actionList s).state })
      else (.ResourceStall, { state := s })) := by
  obtain ⟨b, hb, hcode⟩ := Option.map_eq_some_iff.mp (m.find_switch ht)
  have hnext : (m.caseCode t).nextState.getD t.state = t.nextState := by
    rw [caseCode]
    dsimp only
    split
    · assumption
    · rfl
  rw [doTransition, hb, Option.map_some, hcode, hnext]
  refine congrArg some ?_
  split
  · rw [if_pos ‹_›]
    cases hst : stalls t with
    | true => simp only [caseCode, hst, if_true]
    | false => simp only [caseCode, hst, Bool.false_eq_true, if_false]
  · rw [if_neg ‹_›]

/-- A transition that does not abort is a declared one. -/
theorem doTransition_some (m : Machine σ State Event Addr Port Buffer) {state : State}
    {event : Event} {env : Surroundings σ State Addr Buffer} {addr : Addr} {s : σ}
    {r : TransitionResult × Run σ Buffer} (h : m.doTransition env event state addr s = some r) :
    ∃ t ∈ m.transitions, t.state = state ∧ t.event = event ∧ r =
      (if (m.checks t).all fun c => env.areNSlotsAvailable c.1 c.2 s then
        if stalls t then (.ProtocolStall, { state := s })
        else (.Valid, { m.runActions env addr t.actionList s with
          state := env.setState addr t.nextState (m.runActions env addr t.actionList s).state })
      else (.ResourceStall, { state := s })) := by
  by_cases hdeclared : ∃ t ∈ m.transitions, (t.state, t.event) = (state, event)
  · obtain ⟨t, ht, hlabel⟩ := hdeclared
    obtain ⟨rfl, rfl⟩ := Prod.mk.inj hlabel
    rw [m.doTransition_eq ht] at h
    exact ⟨t, ht, rfl, rfl, (Option.some.inj h).symm⟩
  · rw [m.doTransition_undeclared fun t ht heq => hdeclared ⟨t, ht, heq⟩] at h
    cases h

/-! The slots that are tested -/

/-- The most slots of a buffer that one of the tests asks for. -/
def tested (m : Machine σ State Event Addr Port Buffer) (t : Transition State Event)
    (b : Buffer) : Nat :=
  (((m.checks t).filter fun c => c.1 = b).map (·.2)).foldr max 0

omit [DecidableEq State] [DecidableEq Event] in
theorem le_tested {m : Machine σ State Event Addr Port Buffer} {t : Transition State Event}
    {p : Port} : m.resources t p ≤ m.tested t (m.getCode p) := by
  rcases Nat.eq_zero_or_pos (m.resources t p) with hzero | hpos
  · rw [hzero]
    exact Nat.zero_le _
  · have hmem : (m.getCode p, m.resources t p) ∈ m.checks t := by
      rw [checks, List.mem_insertionSort]
      refine List.mem_map_of_mem (List.mem_filter.mpr ⟨m.mem_ports p, ?_⟩)
      simpa using hpos
    have hle : ∀ (l : List Nat) {n : Nat}, n ∈ l → n ≤ l.foldr max 0 := by
      intro l
      induction l with
      | nil => simp
      | cons x l ih =>
          intro n hn
          rcases List.mem_cons.mp hn with rfl | hn
          · exact Nat.le_max_left _ _
          · exact (ih hn).trans (Nat.le_max_right _ _)
    exact hle _ (List.mem_map.mpr ⟨_, List.mem_filter.mpr ⟨hmem, by simp⟩, rfl⟩)

/-- Nothing is enqueued but what the pass counts, and no buffer goes by two names. -/
def Covered (m : Machine σ State Event Addr Port Buffer) (t : Transition State Event) : Prop :=
  stalls t = false →
    (∀ a ∈ t.actionList.filterMap m.findIndex, a.body.Counted) ∧
    ∀ p q, 0 < m.resources t p → 0 < m.resources t q → m.getCode p = m.getCode q → p = q

/-- A transition stalls and leaves everything as it is, or its tests have passed, it runs its
actions and then sets its state; no buffer gets more messages than were tested for. -/
def Atomic (m : Machine σ State Event Addr Port Buffer) (t : Transition State Event) : Prop :=
  ∀ (env : Surroundings σ State Addr Buffer) (addr : Addr) (s : σ),
    ∃ r, m.doTransition env t.event t.state addr s = some r ∧
      ((r.1 ≠ .Valid ∧ r.2.state = s ∧ r.2.enqueued = []) ∨
        (r.1 = .Valid ∧ (∀ c ∈ m.checks t, env.areNSlotsAvailable c.1 c.2 s) ∧
          r.2.state = env.setState addr t.nextState (m.runActions env addr t.actionList s).state ∧
          r.2.enqueued = (m.runActions env addr t.actionList s).enqueued ∧
          ∀ p, r.2.enqueued.count (m.getCode p) ≤ m.tested t (m.getCode p)))

omit [DecidableEq State] [DecidableEq Event] in
theorem runActions_count (m : Machine σ State Event Addr Port Buffer)
    (env : Surroundings σ State Addr Buffer) (addr : Addr) {names : List String} {p : Port} (s : σ)
    (hc : ∀ a ∈ names.filterMap m.findIndex, a.body.Counted)
    (hp : ∀ a ∈ names.filterMap m.findIndex, ∀ q, 0 < a.body.need q →
      m.getCode q = m.getCode p → q = p) :
    (m.runActions env addr names s).enqueued.count (m.getCode p) ≤
      ((names.filterMap m.findIndex).map fun a => a.body.need p).sum := by
  induction names generalizing s with
  | nil => exact Nat.zero_le _
  | cons name names ih =>
      rw [runActions]
      cases hname : m.findIndex name with
      | none =>
          simp only [List.filterMap_cons, hname] at hc hp ⊢
          exact ih s hc hp
      | some action =>
          simp only [List.filterMap_cons, hname, List.forall_mem_cons] at hc hp ⊢
          rw [List.map_cons, List.sum_cons]
          have hfirst := hc.1.within m.getCode hp.1
            (Code.within_done env addr (m.getCode p)) s
          exact (Run.count_andThen _ _ _).trans (Nat.add_le_add hfirst (ih _ hc.2 hp.2))

omit [DecidableEq State] [DecidableEq Event] [LinearOrder Buffer] in
theorem need_le_resources {m : Machine σ State Event Addr Port Buffer}
    {t : Transition State Event} {a : Action σ Addr Port}
    (ha : a ∈ t.actionList.filterMap m.findIndex) (p : Port) :
    a.body.need p ≤ m.resources t p :=
  List.single_le_sum (fun _ _ => Nat.zero_le _) _ (List.mem_map_of_mem ha)

theorem Covered.atomic {m : Machine σ State Event Addr Port Buffer} {t : Transition State Event}
    (ht : t ∈ m.transitions) (h : m.Covered t) : m.Atomic t := by
  intro env addr s
  refine ⟨_, m.doTransition_eq ht env addr s, ?_⟩
  split
  · rename_i hchecks
    cases hst : stalls t with
    | true => exact .inl ⟨by simp, rfl, rfl⟩
    | false =>
        obtain ⟨hcounted, hports⟩ := h hst
        refine .inr ⟨rfl, by simpa using hchecks, rfl, rfl, fun p => ?_⟩
        -- the one port in use of that buffer, if there is one
        by_cases hused : ∃ q, 0 < m.resources t q ∧ m.getCode q = m.getCode p
        · obtain ⟨q, hq, hcode⟩ := hused
          rw [← hcode]
          refine (m.runActions_count env addr s hcounted fun a ha q' hq' hcode' => ?_).trans
            le_tested
          exact hports q' q (hq'.trans_le (need_le_resources ha q')) hq hcode'
        · refine (m.runActions_count env addr s hcounted fun a ha q' hq' hcode' => ?_).trans
            le_tested
          exact absurd ⟨q', hq'.trans_le (need_le_resources ha q'), hcode'⟩ hused
  · exact .inl ⟨by simp, rfl, rfl⟩

end Machine
end FeS2.Slicc
