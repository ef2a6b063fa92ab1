import Mathlib.Data.Int.ModEq
import Mathlib.Data.List.Pairwise
import FeS2.Pyrite.ReturnAddressStack

/-!
What the return address stack answers. The check of a pop compares how far the entry
and the one it links to are ahead of the next free slot, so a link is followed only
where no push has written since. The stack therefore answers as an unbounded one does
that forgets what lies too many pushes back.
-/

namespace FeS2.Pyrite
namespace ReturnAddressStack
variable {r : ReturnAddressStack} {size s n tos nextFree : Nat}

/-! Distances -/

/-- How far a slot is ahead of the next free one. -/
def cyclicDistance (size nextFree s : Nat) : Nat := (s + size - nextFree) % size

theorem cyclicDistance_eq (hf : nextFree < size) (hs : s < size) :
    cyclicDistance size nextFree s = if nextFree ≤ s then s - nextFree else s + size - nextFree := by
  rw [cyclicDistance]
  split
  · rw [show s + size - nextFree = s - nextFree + size by omega, Nat.add_mod_right,
      Nat.mod_eq_of_lt (by omega)]
  · exact Nat.mod_eq_of_lt (by omega)

/-- The check of three comparisons is one of distances. -/
theorem check_iff (hf : nextFree < size) (ht : tos < size) (hn : n < size) :
    ((decide (nextFree > tos) ^^ decide (nextFree > n)) ^^ decide (tos > n)) = true ↔
      cyclicDistance size nextFree n < cyclicDistance size nextFree tos := by
  rw [cyclicDistance_eq hf ht, cyclicDistance_eq hf hn]
  by_cases h1 : tos < nextFree <;> by_cases h2 : n < nextFree <;> by_cases h3 : n < tos <;>
    simp only [gt_iff_lt, h1, h2, h3, decide_true, decide_false] <;> grind

/-- The slot of push `k`, seen when `c` pushes have been made. -/
theorem cyclicDistance_mod {c k t : Nat} (hsize : 0 < size) (hle : c ≤ k + t * size)
    (hlt : k + t * size < c + size) :
    cyclicDistance size (c % size) (k % size) = k + t * size - c := by
  have hmod : (c % size : Nat) < size := Nat.mod_lt _ hsize
  have hcast : ((k % size + size - c % size : Nat) : Int) ≡ ((k + t * size - c : Nat) : Int)
      [ZMOD size] := by
    rw [Nat.cast_sub (by omega), Nat.cast_sub hle]
    push_cast
    have hk : (k : Int) % size + size ≡ k + t * size [ZMOD size] := by
      refine Int.ModEq.add (Int.mod_modEq _ _) ?_
      exact (Int.modEq_zero_iff_dvd.mpr dvd_rfl).trans
        (Int.modEq_zero_iff_dvd.mpr (Int.dvd_mul_left _ _)).symm
    exact hk.sub (Int.mod_modEq _ _)
  calc cyclicDistance size (c % size) (k % size)
      = (k + t * size - c) % size := Int.natCast_modEq_iff.mp hcast
    _ = k + t * size - c := Nat.mod_eq_of_lt (by omega)

/-- Pushes that are less than `size` apart write different slots. -/
theorem mod_ne {j k : Nat} (hjk : j < k) (hk : k < j + size) : k % size ≠ j % size := by
  intro heq
  have hdvd : size ∣ k - j := (Nat.modEq_iff_dvd' hjk.le).mp heq.symm
  have := Nat.le_of_dvd (by omega) hdvd
  omega

/-- A link is followed exactly if fewer than `size` pushes came after the one it leads to. -/
theorem check_mod {c j k : Nat} (hjk : j < k) (hk : k < c) (hkept : c < k + 1 + size)
    (hlink : k < j + 1 + size) :
    ((decide (c % size > k % size) ^^ decide (c % size > j % size)) ^^
      decide (k % size > j % size)) = true ↔ c < j + 1 + size := by
  have hsize : 0 < size := by omega
  have hlt : ∀ i : Nat, i % size < size := fun i => Nat.mod_lt i hsize
  rw [check_iff (hlt c) (hlt k) (hlt j),
    cyclicDistance_mod (t := 1) hsize (by omega : c ≤ k + 1 * size) (by omega)]
  by_cases hj : c < j + 1 + size
  · rw [cyclicDistance_mod (t := 1) hsize (by omega : c ≤ j + 1 * size) (by omega)]
    omega
  · rw [cyclicDistance_mod (t := 2) hsize (by omega : c ≤ j + 2 * size) (by omega)]
    omega

theorem rasIncrement_eq {bits : Nat} (h : r.table.length = 2 ^ bits) (index : Nat) :
    r.rasIncrement index = (index + 1) % 2 ^ bits := by
  rw [rasIncrement, h, Nat.and_two_pow_sub_one_eq_mod]

/-! The stack without bounds -/

/-- Each address comes with the number of the push that it is from. -/
structure CallStack where
  pushes : Nat := 0
  entries : List (Nat × Waddr) := []

namespace CallStack

def push (returnTargetRip : Waddr) (c : CallStack) : CallStack :=
  { pushes := c.pushes + 1, entries := (c.pushes, returnTargetRip) :: c.entries }

/-- What is `size` or more pushes back is forgotten. -/
def pop (size : Nat) (c : CallStack) : Waddr × CallStack :=
  match c.entries with
  | [] => (0, c)
  | (k, returnTargetRip) :: rest =>
      (if c.pushes - (k + 1) < size then returnTargetRip else 0, { c with entries := rest })

def answers (size : Nat) (c : CallStack) : List Op → List Waddr
  | [] => []
  | .push _ returnTargetRip :: ops => answers size (c.push returnTargetRip) ops
  | .pop _ :: ops => (c.pop size).1 :: answers size (c.pop size).2 ops

end CallStack

/-- Where the top entry is after `c` pushes, if it is still there. -/
def topSlot (size c : Nat) : List (Nat × Waddr) → Option Nat
  | [] => none
  | (k, _) :: _ => if c < k + 1 + size then some (k % size) else none

/-- The link of an entry is the top of the stack at the time of its push. -/
def Linked (size c : Nat) (r : ReturnAddressStack) : List (Nat × Waddr) → Prop
  | [] => True
  | (k, returnTargetRip) :: rest =>
      (c < k + 1 + size → r.table[k % size]? = some returnTargetRip ∧
        r.nextTopOfStack[k % size]? = some (topSlot size k rest)) ∧ Linked size c r rest

structure Refines (size : Nat) (r : ReturnAddressStack) (c : CallStack) : Prop where
  table : r.table.length = size
  links : r.nextTopOfStack.length = size
  nextFree : r.speculative.nextFree = c.pushes % size
  top : r.speculative.topOfStack = topSlot size c.pushes c.entries
  ordered : (c.pushes :: c.entries.map (·.1)).Pairwise (· > ·)
  linked : Linked size c.pushes r c.entries

theorem Refines.init (bits : Nat) : Refines (2 ^ bits) (init (2 ^ bits)) {} where
  table := List.length_replicate
  links := List.length_replicate
  nextFree := (Nat.zero_mod _).symm
  top := rfl
  ordered := List.pairwise_singleton _ _
  linked := trivial

theorem Linked.push {c : Nat} {entries : List (Nat × Waddr)} {q : Nat} {a : Waddr}
    (h : Linked size c r entries) (hf : r.speculative.nextFree = c % size)
    (hlt : ∀ e ∈ entries, e.1 < c) : Linked size (c + 1) (r.push q a) entries := by
  induction entries with
  | nil => trivial
  | cons e rest ih =>
      obtain ⟨k, b⟩ := e
      refine ⟨fun hkept => ?_, ih h.2 fun e he => hlt e (List.mem_cons_of_mem _ he)⟩
      have hk : k < c := hlt (k, b) List.mem_cons_self
      have hne : c % size ≠ k % size := mod_ne hk (by omega)
      obtain ⟨htable, hnext⟩ := h.1 (by omega)
      rw [ReturnAddressStack.push, hf, List.getElem?_set_ne hne, List.getElem?_set_ne hne]
      exact ⟨htable, hnext⟩

theorem Refines.push {bits : Nat} {c : CallStack} (h : Refines (2 ^ bits) r c) (q : Nat) (a : Waddr) :
    Refines (2 ^ bits) (r.push q a) (c.push a) := by
  have hpos : 0 < 2 ^ bits := Nat.two_pow_pos bits
  have hlt : c.pushes % 2 ^ bits < 2 ^ bits := Nat.mod_lt _ hpos
  have hordered := List.pairwise_cons.mp h.ordered
  have hbelow : ∀ e ∈ c.entries, e.1 < c.pushes := fun e he =>
    hordered.1 e.1 (List.mem_map_of_mem he)
  have hkept : c.pushes + 1 < c.pushes + 1 + 2 ^ bits := by omega
  refine ⟨?_, ?_, ?_, ?_, ?_, fun _ => ⟨?_, ?_⟩, h.linked.push h.nextFree hbelow⟩
  · rw [ReturnAddressStack.push, List.length_set, h.table]
  · rw [ReturnAddressStack.push, List.length_set, h.links]
  · rw [ReturnAddressStack.push, rasIncrement_eq h.table, h.nextFree, CallStack.push]
    exact Nat.mod_add_mod _ _ _
  · rw [ReturnAddressStack.push, h.nextFree, CallStack.push, topSlot, if_pos hkept]
  · refine List.pairwise_cons.mpr ⟨fun k hk => ?_, h.ordered⟩
    rcases List.mem_cons.mp hk with rfl | hk
    · exact Nat.lt_succ_self _
    · exact (hordered.1 k hk).trans (Nat.lt_succ_self _)
  · rw [ReturnAddressStack.push, h.nextFree]
    exact List.getElem?_set_self (by rw [h.table]; exact hlt)
  · rw [ReturnAddressStack.push, h.nextFree, h.top]
    exact List.getElem?_set_self (by rw [h.links]; exact hlt)

/-- The link of the top entry leads to the entry below, if that is still there. -/
theorem Refines.next {c : CallStack} {k : Nat} {a : Waddr} {rest : List (Nat × Waddr)}
    (h : Refines size r c) (he : c.entries = (k, a) :: rest) (hkept : c.pushes < k + 1 + size) :
    r.next (k % size) = topSlot size c.pushes rest := by
  have hordered := h.ordered
  have hlinked := h.linked
  rw [he] at hordered hlinked
  obtain ⟨hbelow, hordered⟩ := List.pairwise_cons.mp hordered
  have hk : k < c.pushes := hbelow k List.mem_cons_self
  rw [ReturnAddressStack.next, List.getD_eq_getElem?_getD, (hlinked.1 hkept).2, Option.getD_some,
    h.nextFree]
  cases rest with
  | nil => rfl
  | cons e rest =>
      obtain ⟨j, b⟩ := e
      have hj : j < k := (List.pairwise_cons.mp hordered).1 j List.mem_cons_self
      simp only [topSlot]
      by_cases hlink : k < j + 1 + size
      · rw [if_pos hlink]
        exact if_congr (check_mod hj hk hkept hlink) rfl rfl
      · rw [if_neg hlink, if_neg (by omega)]

theorem Linked.congr {c : Nat} {r' : ReturnAddressStack} {entries : List (Nat × Waddr)}
    (h : Linked size c r entries) (ht : r'.table = r.table)
    (hn : r'.nextTopOfStack = r.nextTopOfStack) : Linked size c r' entries := by
  induction entries with
  | nil => trivial
  | cons e rest ih =>
      refine ⟨fun hkept => ?_, ih h.2⟩
      rw [ht, hn]
      exact h.1 hkept

theorem topSlot_below {c k : Nat} {rest : List (Nat × Waddr)}
    (h : (k :: rest.map (·.1)).Pairwise (· > ·)) (hkept : ¬ c < k + 1 + size) :
    topSlot size c rest = none := by
  cases rest with
  | nil => rfl
  | cons e rest =>
      have he : e.1 < k := (List.pairwise_cons.mp h).1 e.1 List.mem_cons_self
      exact if_neg (by omega)

theorem Refines.pop {c : CallStack} (h : Refines size r c) (q : Nat) :
    (r.pop q).1 = (c.pop size).1 ∧ Refines size (r.pop q).2 (c.pop size).2 := by
  obtain ⟨pushes, entries⟩ := c
  have htop := h.top
  have hlinked := h.linked
  have hordered := h.ordered
  cases entries with
  | nil =>
      rw [topSlot] at htop
      simp only [ReturnAddressStack.pop, htop, CallStack.pop]
      exact ⟨trivial, h.table, h.links, h.nextFree, htop, hordered, trivial⟩
  | cons e rest =>
      obtain ⟨k, a⟩ := e
      have hbelow : k < pushes := (List.pairwise_cons.mp hordered).1 k List.mem_cons_self
      have hrest : (pushes :: rest.map (·.1)).Pairwise (· > ·) :=
        hordered.sublist ((List.sublist_cons_self _ _).cons_cons _)
      by_cases hkept : pushes < k + 1 + size
      · rw [topSlot, if_pos hkept] at htop
        have hnext := h.next rfl hkept
        have hget : r.table.getD (k % size) 0 = a := by
          rw [List.getD_eq_getElem?_getD, (hlinked.1 hkept).1, Option.getD_some]
        simp only [ReturnAddressStack.pop, htop, CallStack.pop]
        refine ⟨?_, h.table, h.links, h.nextFree, hnext, hrest, hlinked.2.congr rfl rfl⟩
        rw [if_pos (by omega)]
        exact hget
      · rw [topSlot, if_neg hkept] at htop
        have hempty := topSlot_below (List.pairwise_cons.mp hordered).2 hkept
        simp only [ReturnAddressStack.pop, htop, CallStack.pop]
        refine ⟨?_, h.table, h.links, h.nextFree, htop.trans hempty.symm, hrest,
          hlinked.2.congr rfl rfl⟩
        rw [if_neg (by omega)]

theorem Refines.answers {bits : Nat} {c : CallStack} {r : ReturnAddressStack}
    (h : Refines (2 ^ bits) r c) (ops : List Op) :
    r.answers ops = c.answers (2 ^ bits) ops := by
  induction ops generalizing r c with
  | nil => rfl
  | cons op ops ih =>
      cases op with
      | push q a => exact ih (h.push q a)
      | pop q =>
          obtain ⟨hanswer, hrefines⟩ := h.pop q
          exact congrArg₂ List.cons hanswer (ih hrefines)

/-! Links that are followed -/

def CallStack.perform (size : Nat) (c : CallStack) : Op → CallStack
  | .push _ returnTargetRip => c.push returnTargetRip
  | .pop _ => (c.pop size).2

theorem Refines.perform {bits : Nat} {c : CallStack} (h : Refines (2 ^ bits) r c) (op : Op) :
    Refines (2 ^ bits) (r.perform op) (c.perform (2 ^ bits) op) := by
  cases op with
  | push q a => exact h.push q a
  | pop q => exact (h.pop q).2

theorem CallStack.pop_pushes (c : CallStack) : (c.pop size).2.pushes = c.pushes := by
  rw [CallStack.pop]
  split <;> rfl

/-- The pushes write the slots in turn. -/
theorem Refines.writes {bits : Nat} {c : CallStack} {r : ReturnAddressStack}
    (h : Refines (2 ^ bits) r c) (ops : List Op) : ∃ n, ∃ c', c'.pushes = c.pushes + n ∧
      Refines (2 ^ bits) (ops.foldl ReturnAddressStack.perform r) c' ∧
      r.writes ops = (List.range' c.pushes n).map (· % 2 ^ bits) := by
  induction ops generalizing r c with
  | nil => exact ⟨0, c, rfl, h, rfl⟩
  | cons op ops ih =>
      obtain ⟨n, c', hpushes, hrefines, hwrites⟩ := ih (h.perform op)
      cases op with
      | push q a =>
          refine ⟨n + 1, c', ?_, hrefines, ?_⟩
          · rw [hpushes, CallStack.perform, CallStack.push, Nat.add_assoc, Nat.add_comm 1]
          · rw [List.range'_succ, List.map_cons, ReturnAddressStack.writes, h.nextFree]
            exact congrArg _ hwrites
      | pop q =>
          rw [CallStack.perform, CallStack.pop_pushes] at hpushes hwrites
          exact ⟨n, c', hpushes, hrefines, hwrites⟩

/-- A pop follows a link only to a slot that no push has written since the link was made,
the push that made it included. -/
theorem Refines.followed {bits : Nat} {c : CallStack} {q tos n : Nat}
    (h : Refines (2 ^ bits) r c) (ht : r.speculative.topOfStack = some tos)
    (hn : (r.pop q).2.speculative.topOfStack = some n) :
    ∃ before after, (List.range' 0 c.pushes).map (· % 2 ^ bits) = before ++ tos :: after ∧
      tos ∉ after ∧ n ∉ tos :: after := by
  obtain ⟨pushes, entries⟩ := c
  have htop := h.top
  have hordered := h.ordered
  -- the entry at the top, from push `k`, and the one below, from push `j`
  cases entries with
  | nil => cases ht.symm.trans htop
  | cons e rest =>
      obtain ⟨k, a⟩ := e
      obtain ⟨hbelow, hrest⟩ := List.pairwise_cons.mp hordered
      have hk : k < pushes := hbelow k List.mem_cons_self
      rw [topSlot] at htop
      by_cases hkept : pushes < k + 1 + 2 ^ bits
      · rw [if_pos hkept] at htop
        obtain rfl := Option.some.inj (ht.symm.trans htop)
        have hnext : some n = topSlot (2 ^ bits) pushes rest := by
          rw [← h.next rfl hkept, ← hn]
          simp only [ReturnAddressStack.pop, ht]
          rfl
        cases rest with
        | nil => cases hnext
        | cons e rest =>
            obtain ⟨j, b⟩ := e
            have hj : j < k := (List.pairwise_cons.mp hrest).1 j List.mem_cons_self
            rw [topSlot] at hnext
            by_cases hjkept : pushes < j + 1 + 2 ^ bits
            · rw [if_pos hjkept] at hnext
              obtain rfl := Option.some.inj hnext
              refine ⟨(List.range' 0 k).map (· % 2 ^ bits),
                (List.range' (k + 1) (pushes - (k + 1))).map (· % 2 ^ bits), ?_, ?_, ?_⟩
              · rw [← List.map_cons (f := (· % 2 ^ bits)), ← List.range'_succ, ← List.map_append,
                  show pushes - (k + 1) + 1 = pushes - k by omega]
                have happend := List.range'_append_1 (s := 0) (m := k) (n := pushes - k)
                rw [Nat.zero_add, Nat.add_sub_cancel' hk.le] at happend
                rw [happend]
              · intro hmem
                obtain ⟨m, hm, heq⟩ := List.mem_map.mp hmem
                obtain ⟨hkm, hm⟩ := List.mem_range'_1.mp hm
                exact mod_ne hkm (by omega) heq
              · intro hmem
                rw [← List.map_cons (f := (· % 2 ^ bits)), ← List.range'_succ] at hmem
                obtain ⟨m, hm, heq⟩ := List.mem_map.mp hmem
                obtain ⟨hkm, hm⟩ := List.mem_range'_1.mp hm
                exact mod_ne (hj.trans_le hkm) (by omega) heq
            · rw [if_neg hjkept] at hnext
              cases hnext
      · rw [if_neg hkept] at htop
        cases ht.symm.trans htop

/-- The stack answers as one without bounds that forgets what is `2 ^ bits` pushes back, and
a pop follows a link only to a slot that no push has written since the link was made. -/
theorem ideal_return_addresses (bits : Nat) (ops : List Op) :
    answers (ReturnAddressStack.init (2 ^ bits)) ops = CallStack.answers (2 ^ bits) {} ops ∧
    ∀ q tos n,
      (ops.foldl perform (ReturnAddressStack.init (2 ^ bits))).speculative.topOfStack = some tos →
      ((ops.foldl perform (ReturnAddressStack.init (2 ^ bits))).pop q).2.speculative.topOfStack =
        some n →
      ∃ before after,
        ReturnAddressStack.writes (ReturnAddressStack.init (2 ^ bits)) ops =
          before ++ tos :: after ∧ tos ∉ after ∧ n ∉ tos :: after := by
  have hinit := Refines.init bits
  refine ⟨hinit.answers ops, fun q tos n ht hn => ?_⟩
  obtain ⟨m, c, hpushes, hrefines, hwrites⟩ := hinit.writes ops
  obtain ⟨before, after, hslots, hfresh⟩ := hrefines.followed ht hn
  refine ⟨before, after, ?_, hfresh⟩
  rw [hwrites, ← hslots, hpushes]
  simp

theorem ideal_return_addresses_nested : ∃ before after,
    ReturnAddressStack.writes (ReturnAddressStack.init (2 ^ 1)) [.push 0 7, .push 1 8] =
      before ++ 1 :: after ∧ 1 ∉ after ∧ 0 ∉ 1 :: after :=
  (ideal_return_addresses 1 [.push 0 7, .push 1 8]).2 2 1 0 (by decide) (by decide)

end ReturnAddressStack
end FeS2.Pyrite
