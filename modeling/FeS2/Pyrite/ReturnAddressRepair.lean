import FeS2.Pyrite.ReturnAddresses

/-!
A squash of the return address stack brings back its two pointers. What the pops see
of the table are the slots that the links lead to from the top, and later pushes never
uncover others, so the stack is repaired if the wrong path has not written these.
-/

namespace FeS2.Pyrite
namespace ReturnAddressStack
open EventSystem
variable {r r' : ReturnAddressStack} {size bits s n q : Nat}

/-- The slots that pops alone lead to. -/
inductive Reaches (r : ReturnAddressStack) : Nat → Prop
  | top {s : Nat} (h : r.speculative.topOfStack = some s) : Reaches r s
  | link {s n : Nat} (h : Reaches r s) (hn : r.next s = some n) : Reaches r n

/-! States -/

structure RasState.Valid (size : Nat) (x : RasState) : Prop where
  nextFree : x.nextFree < size
  top : ∀ s, x.topOfStack = some s → s < size

structure Bounded (size : Nat) (r : ReturnAddressStack) : Prop where
  table : r.table.length = size
  links : r.nextTopOfStack.length = size
  linked : ∀ s n, r.nextTopOfStack.getD s none = some n → n < size
  pointers : RasState.Valid size r.speculative

/-- The pointers are those of the youngest prediction in flight. -/
structure Valid (size : Nat) (r : ReturnAddressStack) : Prop where
  bounded : Bounded size r
  speculative : (r.inflights.entries.getLast?.map (·.2)).getD r.committed = r.speculative
  committed : RasState.Valid size r.committed
  inflights : ∀ e ∈ r.inflights.entries, RasState.Valid size e.2

theorem next_eq_some : r.next s = some n ↔ r.nextTopOfStack.getD s none = some n ∧
    ((decide (r.speculative.nextFree > s) ^^ decide (r.speculative.nextFree > n)) ^^
      decide (s > n)) = true := by
  rw [next]
  cases hlink : r.nextTopOfStack.getD s none with
  | none => simp
  | some k =>
      dsimp only
      constructor
      · intro h
        split at h
        · rename_i hcheck
          obtain rfl := Option.some.inj h
          exact ⟨rfl, hcheck⟩
        · cases h
      · rintro ⟨h, hcheck⟩
        obtain rfl := Option.some.inj h
        exact if_pos hcheck

theorem next_congr (hf : r'.speculative.nextFree = r.speculative.nextFree)
    (hl : r'.nextTopOfStack.getD s none = r.nextTopOfStack.getD s none) : r'.next s = r.next s := by
  rw [next, next, hf, hl]

theorem Bounded.next_lt (h : Bounded size r) (hn : r.next s = some n) : n < size :=
  h.linked s n (next_eq_some.mp hn).1

theorem Bounded.reaches_lt (h : Bounded size r) (hs : r.Reaches s) : s < size := by
  induction hs with
  | top hs => exact h.pointers.top _ hs
  | link _ hn => exact h.next_lt hn

theorem Bounded.push (h : Bounded (2 ^ bits) r) (q : Nat) (a : Waddr) :
    Bounded (2 ^ bits) (r.push q a) := by
  refine ⟨?_, ?_, fun s n hn => ?_, ?_, fun s hs => ?_⟩
  · rw [ReturnAddressStack.push, List.length_set, h.table]
  · rw [ReturnAddressStack.push, List.length_set, h.links]
  · rw [ReturnAddressStack.push, List.getD_eq_getElem?_getD, List.getElem?_set] at hn
    split at hn
    · split at hn
      · exact h.pointers.top n hn
      · cases hn
    · rw [← List.getD_eq_getElem?_getD] at hn
      exact h.linked s n hn
  · rw [ReturnAddressStack.push, rasIncrement_eq h.table]
    exact Nat.mod_lt _ (Nat.two_pow_pos bits)
  · obtain rfl := Option.some.inj hs
    exact h.pointers.nextFree

theorem Bounded.pop (h : Bounded size r) (q : Nat) : Bounded size (r.pop q).2 := by
  rw [ReturnAddressStack.pop]
  dsimp only
  split
  · exact ⟨h.table, h.links, h.linked, h.pointers⟩
  · exact ⟨h.table, h.links, h.linked, h.pointers.nextFree, fun s hs => h.next_lt hs⟩

theorem Bounded.init (bits : Nat) : Bounded (2 ^ bits) (ReturnAddressStack.init (2 ^ bits)) where
  table := List.length_replicate
  links := List.length_replicate
  linked := fun s n hn => by
    rw [ReturnAddressStack.init, List.getD_eq_getElem?_getD, List.getElem?_replicate] at hn
    split at hn
    · cases hn
    · cases hn
  pointers := ⟨Nat.two_pow_pos bits, fun s hs => by cases hs⟩

theorem Valid.init (bits : Nat) : Valid (2 ^ bits) (ReturnAddressStack.init (2 ^ bits)) where
  bounded := .init bits
  speculative := rfl
  committed := (Bounded.init bits).pointers
  inflights := fun _ he => absurd he List.not_mem_nil

section
variable {m : SquashableMap RasState} {l : List (Nat × RasState)} {x : RasState}

theorem getLast_append (h : m.entries = l ++ [(q, x)]) (d : RasState) :
    (m.entries.getLast?.map (·.2)).getD d = x := by
  rw [h, List.getLast?_append]
  rfl

theorem valid_append (h : m.entries = l ++ [(q, x)]) (hl : ∀ e ∈ l, RasState.Valid size e.2)
    (hx : RasState.Valid size x) : ∀ e ∈ m.entries, RasState.Valid size e.2 := by
  rw [h]
  intro e he
  rcases List.mem_append.mp he with he | he
  · exact hl e he
  · rw [List.mem_singleton.mp he]
    exact hx

end

theorem Valid.push (h : Valid (2 ^ bits) r) (hq : ∀ e ∈ r.inflights.entries, e.1 < q) (a : Waddr) :
    Valid (2 ^ bits) (r.push q a) := by
  have hbounded := h.bounded.push q a
  have hlast := SquashableMap.insert_last hq (r.push q a).speculative
  exact ⟨hbounded, getLast_append hlast _, h.committed,
    valid_append hlast h.inflights hbounded.pointers⟩

theorem Valid.pop (h : Valid size r) (hq : ∀ e ∈ r.inflights.entries, e.1 < q) :
    Valid size (r.pop q).2 := by
  have hbounded := h.bounded.pop q
  have hlast := SquashableMap.insert_last hq r.speculative
  cases htos : r.speculative.topOfStack with
  | none =>
      simp only [ReturnAddressStack.pop, htos] at hbounded ⊢
      exact ⟨hbounded, getLast_append hlast _, h.committed,
        valid_append hlast h.inflights h.bounded.pointers⟩
  | some tos =>
      simp only [ReturnAddressStack.pop, htos] at hbounded ⊢
      have hlast := SquashableMap.insert_split hlast
        { r.speculative with topOfStack := r.next tos }
      exact ⟨hbounded, getLast_append hlast _, h.committed,
        valid_append hlast h.inflights hbounded.pointers⟩

theorem Valid.squash (h : Valid size r) (firstBad : Nat) : Valid size (r.squash firstBad) := by
  have hinflights : ∀ e ∈ (r.inflights.squash firstBad).entries, RasState.Valid size e.2 :=
    fun e he => h.inflights e (List.mem_of_mem_filter he)
  refine ⟨⟨h.bounded.table, h.bounded.links, h.bounded.linked, ?_⟩, rfl, h.committed, hinflights⟩
  rw [ReturnAddressStack.squash]
  dsimp only
  cases hlast : (r.inflights.squash firstBad).entries.getLast? with
  | none => exact h.committed
  | some e => exact hinflights e (List.mem_of_getLast? hlast)

theorem Valid.commit (h : Valid size r) (hc : r.commit q = some r') : Valid size r' := by
  obtain ⟨x, hx, hc⟩ := Option.bind_eq_some_iff.mp hc
  obtain ⟨m, hm, rfl⟩ := Option.map_eq_some_iff.mp hc
  obtain ⟨e, he, rfl⟩ := Option.map_eq_some_iff.mp hx
  obtain ⟨hkey, before, after, hentries, -⟩ := List.find?_eq_some_iff_append.mp he
  have hkey : e.1 = q := by simpa using hkey
  rw [SquashableMap.commit] at hm
  split at hm
  · rename_i hfirst
    obtain rfl := Option.some.inj hm
    have hsorted := r.inflights.sorted
    rw [hentries, List.pairwise_append, List.pairwise_cons] at hsorted
    obtain ⟨-, ⟨hafter, -⟩, hbefore⟩ := hsorted
    -- nothing in flight is older
    have hnil : before = [] := by
      refine List.eq_nil_iff_forall_not_mem.mpr fun y hy => ?_
      have hle : q ≤ y.1 := by
        have hy : y ∈ r.inflights.entries := hentries ▸ List.mem_append_left _ hy
        simpa using List.all_eq_true.mp hfirst y hy
      have := hbefore y hy e List.mem_cons_self
      omega
    have hrest : r.inflights.entries.filter (fun y => y.1 ≠ q) = after := by
      rw [hentries, hnil, List.nil_append, List.filter_cons_of_neg (by simp [hkey])]
      refine List.filter_eq_self.mpr fun y hy => ?_
      have := hafter y hy
      simp only [ne_eq, decide_eq_true_eq]
      omega
    have hspeculative := h.speculative
    rw [hentries, hnil, List.nil_append] at hspeculative
    refine ⟨⟨h.bounded.table, h.bounded.links, h.bounded.linked, h.bounded.pointers⟩, ?_,
      h.inflights e ?_, fun y hy => h.inflights y ?_⟩
    · dsimp only
      rw [hrest, ← hspeculative]
      cases after with
      | nil => rfl
      | cons y ys => rw [List.getLast?_cons_cons, List.getLast?_cons, Option.map_some]; rfl
    · exact hentries ▸ List.mem_append_right _ List.mem_cons_self
    · exact List.mem_of_mem_filter hy
  · cases hm

theorem Valid.reachable (h : Reachable step (ReturnAddressStack.init (2 ^ bits)) r) :
    Valid (2 ^ bits) r := by
  refine reachable_invariant (Valid.init bits) (fun r event r' hr hstep => ?_) h
  cases event with
  | predict op =>
      rw [step] at hstep
      split at hstep
      · rename_i hyoung
        obtain rfl := Option.some.inj hstep
        have hyoung : ∀ e ∈ r.inflights.entries, e.1 < op.qPtr := by simpa using hyoung
        cases op with
        | push q a => exact hr.push hyoung a
        | pop q => exact hr.pop hyoung
      · cases hstep
  | squash firstBad =>
      obtain rfl := Option.some.inj hstep
      exact hr.squash firstBad
  | commit q => exact hr.commit hstep

/-! What the pops see -/

theorem cyclicDistance_self (hf : n < size) : cyclicDistance size n n = 0 := by
  rw [cyclicDistance_eq hf hf, if_pos le_rfl, Nat.sub_self]

theorem cyclicDistance_succ {nextFree : Nat} (hf : nextFree < size) (hs : s < size)
    (hne : s ≠ nextFree) :
    cyclicDistance size ((nextFree + 1) % size) s + 1 = cyclicDistance size nextFree s := by
  have hf' : (nextFree + 1) % size = if nextFree + 1 = size then 0 else nextFree + 1 := by
    split
    · rename_i hlast
      rw [hlast, Nat.mod_self]
    · exact Nat.mod_eq_of_lt (by omega)
  rw [cyclicDistance_eq (Nat.mod_lt _ (by omega)) hs, cyclicDistance_eq hf hs, hf']
  split <;> split <;> split <;> omega

theorem push_entries {a : Waddr} (hs : s ≠ r.speculative.nextFree) :
    (r.push q a).table.getD s 0 = r.table.getD s 0 ∧
      (r.push q a).nextTopOfStack.getD s none = r.nextTopOfStack.getD s none := by
  simp only [ReturnAddressStack.push, List.getD_eq_getElem?_getD]
  rw [List.getElem?_set_ne (Ne.symm hs), List.getElem?_set_ne (Ne.symm hs)]
  exact ⟨rfl, rfl⟩

theorem Reaches.of_pop (h : (r.pop q).2.Reaches s) : r.Reaches s := by
  rw [ReturnAddressStack.pop] at h
  dsimp only at h
  split at h
  · induction h with
    | top hs => exact .top hs
    | link _ hn ih => exact .link ih ((next_congr rfl rfl).symm.trans hn)
  · rename_i tos htos
    induction h with
    | top hs => exact .link (.top htos) ((next_congr rfl rfl).symm.trans hs)
    | link _ hn ih => exact .link ih ((next_congr rfl rfl).symm.trans hn)

/-- A push hides slots, and uncovers none but its own. -/
theorem Reaches.of_push {a : Waddr} (h : (r.push q a).Reaches s) (hr : Bounded (2 ^ bits) r) :
    s = r.speculative.nextFree ∨ r.Reaches s := by
  have hf := hr.pointers.nextFree
  induction h with
  | top hs => exact .inl (Option.some.inj hs).symm
  | @link s n hs hn ih =>
      obtain ⟨hlink, hcheck⟩ := next_eq_some.mp hn
      by_cases hsf : s = r.speculative.nextFree
      · refine .inr (.top ?_)
        rw [← hlink, hsf, ReturnAddressStack.push, List.getD_eq_getElem?_getD,
          List.getElem?_set_self (by rw [hr.links]; exact hf), Option.getD_some]
      · rw [(push_entries hsf).2] at hlink
        have hsr := ih.resolve_left hsf
        by_cases hnf : n = r.speculative.nextFree
        · exact .inl hnf
        · have hs' := hr.reaches_lt hsr
          have hn' := hr.linked s n hlink
          refine .inr (.link hsr (next_eq_some.mpr ⟨hlink, (check_iff hf hs' hn').mpr ?_⟩))
          rw [ReturnAddressStack.push, rasIncrement_eq hr.table,
            check_iff (Nat.mod_lt _ (Nat.two_pow_pos bits)) hs' hn'] at hcheck
          have hsd := cyclicDistance_succ hf hs' hsf
          have hnd := cyclicDistance_succ hf hn' hnf
          omega

/-- The same pointers, and the same entries where the links lead. -/
structure Agrees (r r' : ReturnAddressStack) : Prop where
  speculative : r'.speculative = r.speculative
  table : r'.table.length = r.table.length
  links : r'.nextTopOfStack.length = r.nextTopOfStack.length
  entries : ∀ s, r.Reaches s → r'.table.getD s 0 = r.table.getD s 0 ∧
    r'.nextTopOfStack.getD s none = r.nextTopOfStack.getD s none

theorem Agrees.next (h : Agrees r r') (hs : r.Reaches s) : r'.next s = r.next s :=
  next_congr (congrArg _ h.speculative) (h.entries s hs).2

theorem Agrees.pop (h : Agrees r r') (q : Nat) :
    (r'.pop q).1 = (r.pop q).1 ∧ Agrees (r.pop q).2 (r'.pop q).2 := by
  have hentries : ∀ s, (r.pop q).2.Reaches s → r'.table.getD s 0 = r.table.getD s 0 ∧
      r'.nextTopOfStack.getD s none = r.nextTopOfStack.getD s none :=
    fun s hs => h.entries s hs.of_pop
  cases htos : r.speculative.topOfStack with
  | none =>
      simp only [ReturnAddressStack.pop, htos, h.speculative] at hentries ⊢
      exact ⟨trivial, rfl, h.table, h.links, hentries⟩
  | some tos =>
      have hreach : r.Reaches tos := .top htos
      have hnext : ReturnAddressStack.next tos
          { r' with
            speculative := r.speculative
            inflights := r'.inflights.insert q r.speculative } =
          ReturnAddressStack.next tos { r with inflights := r.inflights.insert q r.speculative } :=
        next_congr rfl (h.entries tos hreach).2
      simp only [ReturnAddressStack.pop, htos, h.speculative] at hentries ⊢
      refine ⟨(h.entries tos hreach).1, ?_, h.table, h.links, hentries⟩
      dsimp only
      rw [hnext]

theorem Agrees.push (h : Agrees r r') (hr : Bounded (2 ^ bits) r) (q : Nat) (a : Waddr) :
    Agrees (r.push q a) (r'.push q a) := by
  have hf := hr.pointers.nextFree
  refine ⟨?_, ?_, ?_, fun s hs => ?_⟩
  · simp only [ReturnAddressStack.push, rasIncrement, h.speculative, h.table]
  · rw [ReturnAddressStack.push, ReturnAddressStack.push, List.length_set, List.length_set, h.table]
  · rw [ReturnAddressStack.push, ReturnAddressStack.push, List.length_set, List.length_set, h.links]
  · by_cases hsf : s = r.speculative.nextFree
    · subst hsf
      simp only [ReturnAddressStack.push, h.speculative, List.getD_eq_getElem?_getD]
      rw [List.getElem?_set_self (by rw [h.table, hr.table]; exact hf),
        List.getElem?_set_self (by rw [hr.table]; exact hf),
        List.getElem?_set_self (by rw [h.links, hr.links]; exact hf),
        List.getElem?_set_self (by rw [hr.links]; exact hf)]
      exact ⟨rfl, rfl⟩
    · have hsf' : s ≠ r'.speculative.nextFree := by rwa [h.speculative]
      rw [(push_entries hsf').1, (push_entries hsf').2, (push_entries hsf).1, (push_entries hsf).2]
      exact h.entries s ((hs.of_push hr).resolve_left hsf)

theorem Agrees.answers (h : Agrees r r') (hr : Bounded (2 ^ bits) r) (ops : List Op) :
    r'.answers ops = r.answers ops := by
  induction ops generalizing r r' with
  | nil => rfl
  | cons op ops ih =>
      cases op with
      | push q a => exact ih (h.push hr q a) (hr.push q a)
      | pop q =>
          obtain ⟨hanswer, hagrees⟩ := h.pop q
          exact congrArg₂ List.cons hanswer (ih hagrees (hr.pop q))

/-! The wrong path -/

theorem squash_insert {m : SquashableMap RasState} {x : RasState} {firstBad : Nat}
    (h : firstBad ≤ q) : (m.insert q x).squash firstBad = m.squash firstBad := by
  have hentries : ((m.insert q x).squash firstBad).entries = (m.squash firstBad).entries := by
    simp only [SquashableMap.squash, SquashableMap.entries_insert]
    rw [List.filter_append, List.filter_cons_of_neg (by simpa using h), List.filter_filter,
      List.filter_filter]
    have hold : m.entries.filter (fun e => decide (e.1 < firstBad) && decide (e.1 < q)) =
        m.entries.filter fun e => decide (e.1 < firstBad) := by
      refine List.filter_congr fun e _ => ?_
      by_cases he : e.1 < firstBad
      · simp [he, he.trans_le h]
      · simp [he]
    have hnew : m.entries.filter (fun e => decide (e.1 < firstBad) && decide (q < e.1)) = [] := by
      refine List.filter_eq_nil_iff.mpr fun e _ => ?_
      simp only [Bool.and_eq_true, decide_eq_true_eq]
      omega
    rw [hold, hnew, List.append_nil]
  cases hm : (m.insert q x).squash firstBad
  cases hm' : m.squash firstBad
  simpa [hm, hm'] using hentries

/-- What a wrong path leaves of the stack. -/
structure Kept (firstBad pushes : Nat) (r r' : ReturnAddressStack) : Prop where
  committed : r'.committed = r.committed
  inflights : r'.inflights.squash firstBad = r.inflights.squash firstBad
  table : r'.table.length = r.table.length
  links : r'.nextTopOfStack.length = r.nextTopOfStack.length
  entries : ∀ s < r.table.length,
    pushes ≤ cyclicDistance r.table.length r.speculative.nextFree s →
      r'.table.getD s 0 = r.table.getD s 0 ∧
      r'.nextTopOfStack.getD s none = r.nextTopOfStack.getD s none

theorem Kept.wrongPath (hr : Bounded (2 ^ bits) r) {firstBad : Nat} {wrong : List Op}
    (hbad : ∀ op ∈ wrong, firstBad ≤ op.qPtr) :
    Kept firstBad (wrong.countP Op.isPush) r (wrong.foldl perform r) := by
  induction wrong generalizing r with
  | nil => exact ⟨rfl, rfl, rfl, rfl, fun _ _ _ => ⟨rfl, rfl⟩⟩
  | cons op wrong ih =>
      have hop := hbad op List.mem_cons_self
      have hwrong : ∀ op ∈ wrong, firstBad ≤ op.qPtr := fun op' hop' =>
        hbad op' (List.mem_cons_of_mem _ hop')
      cases op with
      | push q a =>
          have hrest := ih (hr.push q a) hwrong
          have htable : (r.push q a).table.length = r.table.length := List.length_set
          have hlinks : (r.push q a).nextTopOfStack.length = r.nextTopOfStack.length :=
            List.length_set
          refine ⟨hrest.committed, hrest.inflights.trans (squash_insert hop),
            hrest.table.trans htable, hrest.links.trans hlinks, fun s hs hd => ?_⟩
          rw [hr.table] at hs hd
          rw [List.countP_cons_of_pos rfl] at hd
          have hf := hr.pointers.nextFree
          have hsf : s ≠ r.speculative.nextFree := by
            rintro rfl
            rw [cyclicDistance_self hf] at hd
            omega
          have hsucc := cyclicDistance_succ hf hs hsf
          have hnext : (r.push q a).speculative.nextFree =
              (r.speculative.nextFree + 1) % 2 ^ bits := rasIncrement_eq hr.table _
          obtain ⟨htable', hlinks'⟩ := hrest.entries s (by rw [htable, hr.table]; exact hs)
            (by rw [htable, hr.table, hnext]; omega)
          obtain ⟨hsame, hsame'⟩ := push_entries (r := r) (q := q) (a := a) hsf
          exact ⟨htable'.trans hsame, hlinks'.trans hsame'⟩
      | pop q =>
          have hrest := ih (hr.pop q) hwrong
          rw [List.countP_cons_of_neg (by simp [Op.isPush])]
          cases htos : r.speculative.topOfStack with
          | none =>
              simp only [List.foldl_cons, perform, ReturnAddressStack.pop, htos] at hrest ⊢
              exact ⟨hrest.committed, hrest.inflights.trans (squash_insert hop), hrest.table,
                hrest.links, hrest.entries⟩
          | some tos =>
              simp only [List.foldl_cons, perform, ReturnAddressStack.pop, htos] at hrest ⊢
              exact ⟨hrest.committed,
                hrest.inflights.trans ((squash_insert hop).trans (squash_insert hop)),
                hrest.table, hrest.links, hrest.entries⟩

/-- A wrong path that makes no more pushes than there are slots before the nearest one
reachable from the top is undone by its squash, as far as any later pop can tell. -/
theorem squash_repairs {firstBad : Nat} {wrong : List Op}
    (h : Reachable step (ReturnAddressStack.init (2 ^ bits)) r)
    (hgood : ∀ e ∈ r.inflights.entries, e.1 < firstBad)
    (hbad : ∀ op ∈ wrong, firstBad ≤ op.qPtr)
    (hpushes : ∀ s, r.Reaches s →
      wrong.countP Op.isPush ≤ cyclicDistance (2 ^ bits) r.speculative.nextFree s)
    (later : List Op) :
    ((wrong.foldl perform r).squash firstBad).answers later = r.answers later := by
  have hvalid := Valid.reachable h
  have hkept := Kept.wrongPath hvalid.bounded hbad
  have hinflights : (r.inflights.squash firstBad).entries = r.inflights.entries :=
    List.filter_eq_self.mpr fun e he => by simpa using hgood e he
  have hagrees : Agrees r ((wrong.foldl perform r).squash firstBad) := by
    refine ⟨?_, hkept.table, hkept.links, fun s hs => hkept.entries s ?_ ?_⟩
    · rw [squash]
      dsimp only
      rw [hkept.inflights, hkept.committed, hinflights, hvalid.speculative]
    · rw [hvalid.bounded.table]
      exact hvalid.bounded.reaches_lt hs
    · rw [hvalid.bounded.table]
      exact hpushes s hs
  exact hagrees.answers hvalid.bounded later

theorem squash_repairs_call :
    (([Op.push 1 8, .pop 2, .pop 3, .push 4 9].foldl perform
        ((ReturnAddressStack.init (2 ^ 2)).push 0 7)).squash 1).answers [.pop 5, .pop 6] = [7, 0] := by
  have hone : ∀ s, ((ReturnAddressStack.init (2 ^ 2)).push 0 7).Reaches s → s = 0 := by
    intro s hs
    induction hs with
    | top h => exact (Option.some.inj h).symm
    | link _ hn ih =>
        subst ih
        cases hn
  refine squash_repairs ⟨[.predict (.push 0 7)], rfl⟩ (by decide) (by decide)
    (fun s hs => ?_) [.pop 5, .pop 6]
  rw [hone s hs]
  decide

end ReturnAddressStack
end FeS2.Pyrite
