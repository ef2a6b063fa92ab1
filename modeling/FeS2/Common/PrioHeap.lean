import Mathlib.Data.Multiset.MapFold
import Mathlib.Data.Finset.Image
import Mathlib.Logic.Equiv.Basic
import Mathlib.Order.Interval.Finset.Nat

/-!
The heap of the event queue and of the message buffers: an array from index 1 on in which no
element is before its parent. An insertion moves ancestors down until the key fits; an extraction
puts the last element at the root and swaps it down.
-/

namespace FeS2.Common

/-- The elements are at the indices from 1 to the size. -/
structure PrioHeap (α : Type) where
  m_heap : Nat → α
  m_current_size : Nat

namespace PrioHeap
variable {α : Type}

def get_parent (i : Nat) : Nat := i / 2

def get_left (i : Nat) : Nat := 2 * i

def get_right (i : Nat) : Nat := 2 * i + 1

def prio_heap_swap (heap : Nat → α) (a b : Nat) : Nat → α := heap ∘ Equiv.swap a b

def init [Inhabited α] : PrioHeap α := { m_heap := fun _ => default, m_current_size := 0 }

def size (h : PrioHeap α) : Nat := h.m_current_size

def peekMin (h : PrioHeap α) : α := h.m_heap 1

section
variable (node_less_then_eq : α → α → Prop) [DecidableRel node_less_then_eq]

/-- The loop of `insert`, with a hole at `i`. -/
def insertAt (key : α) (heap : Nat → α) (i : Nat) : Nat → α :=
  if 1 < i ∧ node_less_then_eq key (heap (get_parent i)) then
    insertAt key (Function.update heap i (heap (get_parent i))) (get_parent i)
  else Function.update heap i key
termination_by i
decreasing_by
  rename_i h
  exact Nat.div_lt_self (by omega) (by decide)

def insert (key : α) (h : PrioHeap α) : PrioHeap α :=
  { m_heap := insertAt node_less_then_eq key h.m_heap (h.m_current_size + 1)
    m_current_size := h.m_current_size + 1 }

/-- The smallest of a node and its children. -/
def smallest (n : Nat) (heap : Nat → α) (current : Nat) : Nat :=
  let left := get_left current
  let right := get_right current
  let smallest :=
    if left ≤ n ∧ node_less_then_eq (heap left) (heap current) then left else current
  if right ≤ n ∧ node_less_then_eq (heap right) (heap smallest) then right else smallest

theorem smallest_cases (n : Nat) (heap : Nat → α) (c : Nat) :
    smallest node_less_then_eq n heap c = c ∨
      (smallest node_less_then_eq n heap c = get_left c ∨
        smallest node_less_then_eq n heap c = get_right c) ∧
      smallest node_less_then_eq n heap c ≤ n := by
  rw [smallest]
  by_cases hleft : get_left c ≤ n ∧ node_less_then_eq (heap (get_left c)) (heap c)
  · rw [if_pos hleft]
    split
    · rename_i hright
      exact .inr ⟨.inr rfl, hright.1⟩
    · exact .inr ⟨.inl rfl, hleft.1⟩
  · rw [if_neg hleft]
    split
    · rename_i hright
      exact .inr ⟨.inr rfl, hright.1⟩
    · exact .inl rfl

def heapify (n : Nat) (heap : Nat → α) (current : Nat) : Nat → α :=
  let s := smallest node_less_then_eq n heap current
  if s = current then heap else heapify n (prio_heap_swap heap current s) s
termination_by n - current
decreasing_by
  rename_i h
  have hcases := smallest_cases node_less_then_eq n heap current
  rw [get_left, get_right] at hcases
  omega

def extractMin (h : PrioHeap α) : α × PrioHeap α :=
  let size := h.m_current_size - 1
  (h.m_heap 1,
    { m_heap := heapify node_less_then_eq size
        (Function.update h.m_heap 1 (h.m_heap h.m_current_size)) 1
      m_current_size := size })

/-- No element is before its parent. -/
def HeapOrdered (n : Nat) (heap : Nat → α) : Prop :=
  ∀ j, 1 < j → j ≤ n → node_less_then_eq (heap (get_parent j)) (heap j)

end

def contents (h : PrioHeap α) : Multiset α := (Finset.Icc 1 h.m_current_size).val.map h.m_heap

/-! The elements -/

theorem swap_contents {n a b : Nat} (ha : a ∈ Finset.Icc 1 n) (hb : b ∈ Finset.Icc 1 n)
    (heap : Nat → α) : (Finset.Icc 1 n).val.map (prio_heap_swap heap a b) =
      (Finset.Icc 1 n).val.map heap := by
  have hmap : (Finset.Icc 1 n).map (Equiv.swap a b).toEmbedding = Finset.Icc 1 n := by
    ext k
    rw [Finset.mem_map_equiv, Equiv.symm_swap, Equiv.swap_apply_def]
    split
    · rename_i hk
      exact iff_of_true hb (hk ▸ ha)
    · split
      · rename_i hk
        exact iff_of_true ha (hk ▸ hb)
      · rfl
  have hval := congrArg (fun s : Finset Nat => s.val.map heap) hmap
  rw [Finset.map_val, Multiset.map_map] at hval
  exact hval

theorem update_swap {i p : Nat} (hne : i ≠ p) (key : α) (heap : Nat → α) :
    Function.update (Function.update heap i (heap p)) p key =
      prio_heap_swap (Function.update heap i key) i p := by
  funext k
  rw [prio_heap_swap, Function.comp_apply]
  by_cases hp : k = p
  · rw [hp, Function.update_self, Equiv.swap_apply_right, Function.update_self]
  · rw [Function.update_of_ne hp]
    by_cases hi : k = i
    · rw [hi, Function.update_self, Equiv.swap_apply_left, Function.update_of_ne (Ne.symm hne)]
    · rw [Function.update_of_ne hi, Equiv.swap_apply_of_ne_of_ne hi hp, Function.update_of_ne hi]

theorem update_contents {n : Nat} (key : α) (heap : Nat → α) :
    (Finset.Icc 1 (n + 1)).val.map (Function.update heap (n + 1) key) =
      key ::ₘ (Finset.Icc 1 n).val.map heap := by
  have hlast : n + 1 ∉ Finset.Icc 1 n := by simp
  have hinsert : Finset.Icc 1 (n + 1) = (Finset.Icc 1 n).cons (n + 1) hlast := by
    ext k
    rw [Finset.mem_cons, Finset.mem_Icc, Finset.mem_Icc]
    omega
  rw [hinsert, Finset.cons_val, Multiset.map_cons, Function.update_self]
  congr 1
  refine Multiset.map_congr rfl fun k hk => Function.update_of_ne ?_ _ _
  have hle := (Finset.mem_Icc.mp (Finset.mem_val.mp hk)).2
  omega

section
variable {le : α → α → Prop} [DecidableRel le]

theorem get_parent_mem {i n : Nat} (h1 : 1 < i) (hn : i ≤ n) : get_parent i ∈ Finset.Icc 1 n := by
  rw [Finset.mem_Icc, get_parent]
  omega

theorem insertAt_contents {n : Nat} (key : α) (heap : Nat → α) (i : Nat) (hi : i ∈ Finset.Icc 1 n) :
    (Finset.Icc 1 n).val.map (insertAt le key heap i) =
      (Finset.Icc 1 n).val.map (Function.update heap i key) := by
  induction heap, i using insertAt.induct le key with
  | case1 heap i h ih =>
      have hn := (Finset.mem_Icc.mp hi).2
      have hparent := get_parent_mem h.1 hn
      have hne : i ≠ get_parent i := by
        rw [get_parent]
        omega
      rw [insertAt, if_pos h, ih hparent, update_swap hne, swap_contents hi hparent]
  | case2 heap i h => rw [insertAt, if_neg h]

theorem heapify_contents {n : Nat} (heap : Nat → α) (c : Nat) (hc : 1 ≤ c) :
    (Finset.Icc 1 n).val.map (heapify le n heap c) = (Finset.Icc 1 n).val.map heap := by
  induction heap, c using heapify.induct le n with
  | case1 heap c s h => rw [heapify, if_pos h]
  | case2 heap c s h ih =>
      have hcases := smallest_cases le n heap c
      rw [get_left, get_right] at hcases
      have hs : s = smallest le n heap c := rfl
      rw [heapify, if_neg h, ih (by omega), swap_contents]
      · rw [Finset.mem_Icc]
        omega
      · rw [Finset.mem_Icc]
        omega

variable (le) in
theorem insert_contents (key : α) (h : PrioHeap α) :
    (h.insert le key).contents = key ::ₘ h.contents := by
  have hmem : h.m_current_size + 1 ∈ Finset.Icc 1 (h.m_current_size + 1) := by simp
  rw [contents, insert, insertAt_contents key _ _ hmem, update_contents, contents]

variable (le) in
theorem insert_empty (key : α) {h : PrioHeap α} (hsize : h.size = 0) : h.insert le key =
    { m_heap := Function.update h.m_heap 1 key, m_current_size := 1 } := by
  have hzero : h.m_current_size = 0 := hsize
  rw [insert, hzero, insertAt, if_neg (by omega)]

variable (le) in
theorem extractMin_contents {h : PrioHeap α} (hsize : 0 < h.size) :
    h.contents = (h.extractMin le).1 ::ₘ (h.extractMin le).2.contents := by
  obtain ⟨n, hn⟩ : ∃ n, h.m_current_size = n + 1 := Nat.exists_eq_succ_of_ne_zero hsize.ne'
  -- the root and the last element change places before the last is dropped
  have hswap : (Finset.Icc 1 (n + 1)).val.map (Function.update
      (Function.update h.m_heap 1 (h.m_heap (n + 1))) (n + 1) (h.m_heap 1)) =
      (Finset.Icc 1 (n + 1)).val.map h.m_heap := by
    by_cases hone : 1 = n + 1
    · rw [← hone, Function.update_eq_self, Function.update_eq_self]
    · rw [update_swap hone, Function.update_eq_self, swap_contents]
      · simp
      · simp
  rw [update_contents] at hswap
  rw [contents, contents, extractMin, hn, ← hswap]
  exact congrArg _ (heapify_contents _ 1 (Nat.le_refl 1)).symm

/-! The order -/

variable [Std.Total le] [IsTrans α le]

/-- An ordered heap but for the element at `i`, which may be before its parent. -/
structure Rising (le : α → α → Prop) (n : Nat) (heap : Nat → α) (i : Nat) : Prop where
  other : ∀ j, 1 < j → j ≤ n → j ≠ i → le (heap (get_parent j)) (heap j)
  below : 1 < i → ∀ j ≤ n, get_parent j = i → le (heap (get_parent i)) (heap j)

/-- An ordered heap but for the element at `c`, which its children may be before. -/
structure Sinking (le : α → α → Prop) (n : Nat) (heap : Nat → α) (c : Nat) : Prop where
  other : ∀ j, 1 < j → j ≤ n → get_parent j ≠ c → le (heap (get_parent j)) (heap j)
  below : 1 < c → ∀ j ≤ n, get_parent j = c → le (heap (get_parent c)) (heap j)

theorem swap_left (heap : Nat → α) (a b : Nat) : prio_heap_swap heap a b a = heap b := by
  rw [prio_heap_swap, Function.comp_apply, Equiv.swap_apply_left]

theorem swap_right (heap : Nat → α) (a b : Nat) : prio_heap_swap heap a b b = heap a := by
  rw [prio_heap_swap, Function.comp_apply, Equiv.swap_apply_right]

theorem swap_other (heap : Nat → α) {a b k : Nat} (ha : k ≠ a) (hb : k ≠ b) :
    prio_heap_swap heap a b k = heap k := by
  rw [prio_heap_swap, Function.comp_apply, Equiv.swap_apply_of_ne_of_ne ha hb]

omit [DecidableRel le] [Std.Total le] in
/-- The element at `i` changes places with its parent, which it is before. -/
theorem Rising.swap {n : Nat} {heap : Nat → α} {i : Nat} (h : Rising le n heap i) (hi : 1 < i)
    (hn : i ≤ n) (hle : le (heap i) (heap (get_parent i))) :
    Rising le n (prio_heap_swap heap i (get_parent i)) (get_parent i) := by
  have hp : get_parent i < i := Nat.div_lt_self (by omega) (by decide)
  constructor
  · intro j hj hjn hne
    by_cases hji : j = i
    · rw [hji, swap_right, swap_left]
      exact hle
    · rw [swap_other _ hji hne]
      by_cases hpi : get_parent j = i
      · rw [hpi, swap_left]
        exact h.below hi j hjn hpi
      · by_cases hpp : get_parent j = get_parent i
        · rw [hpp, swap_right]
          exact IsTrans.trans _ _ _ hle (hpp ▸ h.other j hj hjn hji)
        · rw [swap_other _ hpi hpp]
          exact h.other j hj hjn hji
  · intro hpone j hjn hjp
    have hpp : get_parent (get_parent i) < get_parent i := Nat.div_lt_self (by omega) (by decide)
    have hup := h.other (get_parent i) hpone (by omega) hp.ne
    rw [swap_other _ (by omega) hpp.ne]
    by_cases hji : j = i
    · rw [hji, swap_left]
      exact hup
    · have hj : get_parent j < j := Nat.div_lt_self (by rw [get_parent] at hjp; omega) (by decide)
      rw [swap_other _ hji (by omega)]
      exact IsTrans.trans _ _ _ hup (hjp ▸ h.other j (by omega) hjn hji)

theorem insertAt_ordered {n : Nat} (key : α) (heap : Nat → α) (i : Nat) (hi : i ∈ Finset.Icc 1 n)
    (h : Rising le n (Function.update heap i key) i) :
    HeapOrdered le n (insertAt le key heap i) := by
  induction heap, i using insertAt.induct le key with
  | case1 heap i hup ih =>
      have hn := (Finset.mem_Icc.mp hi).2
      have hne : get_parent i ≠ i := (Nat.div_lt_self (by omega) (by decide)).ne
      rw [insertAt, if_pos hup]
      refine ih (get_parent_mem hup.1 hn) ?_
      rw [update_swap hne.symm]
      refine h.swap hup.1 hn ?_
      rw [Function.update_self, Function.update_of_ne hne]
      exact hup.2
  | case2 heap i hup =>
      rw [insertAt, if_neg hup]
      intro j hj hjn
      by_cases hji : j = i
      · have hne : get_parent j ≠ j := (Nat.div_lt_self (by omega) (by decide)).ne
        subst hji
        rw [Function.update_self, Function.update_of_ne hne]
        exact (Std.Total.total _ _).resolve_left fun hle => hup ⟨hj, hle⟩
      · exact h.other j hj hjn hji

omit [DecidableRel le] [IsTrans α le] [Std.Total le] in
/-- The element at `c` changes places with a child, which is before it and before its sibling. -/
theorem Sinking.swap {n : Nat} {heap : Nat → α} {c s : Nat} (h : Sinking le n heap c) (hc : 1 ≤ c)
    (hsn : s ≤ n) (hparent : get_parent s = c) (hle : le (heap s) (heap c))
    (hleast : ∀ j ≤ n, get_parent j = c → le (heap s) (heap j)) :
    Sinking le n (prio_heap_swap heap c s) s := by
  have hlt : ∀ j, 1 ≤ get_parent j → get_parent j < j := fun j hj =>
    Nat.div_lt_self (by rw [get_parent] at hj; omega) (by decide)
  have hcs := hlt s (hparent ▸ hc)
  constructor
  · intro j hj hjn hne
    by_cases hjs : j = s
    · rw [hjs, hparent, swap_left, swap_right]
      exact hle
    · by_cases hjc : get_parent j = c
      · have hjlt := hlt j (hjc ▸ hc)
        rw [hjc, swap_left, swap_other _ (by omega) hjs]
        exact hleast j hjn hjc
      · rw [swap_other _ hjc hne]
        by_cases heq : j = c
        · rw [heq, swap_left]
          exact h.below (heq ▸ hj) s hsn hparent
        · rw [swap_other _ heq hjs]
          exact h.other j hj hjn hjc
  · intro hs j hjn hjs
    have hjlt := hlt j (hjs ▸ hs.le)
    rw [hparent, swap_left, swap_other _ (by omega) (by omega)]
    exact hjs ▸ h.other j (by omega) hjn (by omega)

variable (le) in
theorem smallest_le (n : Nat) (heap : Nat → α) (c : Nat) :
    le (heap (smallest le n heap c)) (heap c) ∧
      ∀ j ≤ n, get_parent j = c → le (heap (smallest le n heap c)) (heap j) := by
  have hrefl : ∀ x, le x x := fun x => (Std.Total.total x x).elim id id
  obtain ⟨s, hs, hsc, hsl⟩ : ∃ s, (if get_left c ≤ n ∧ le (heap (get_left c)) (heap c)
      then get_left c else c) = s ∧ le (heap s) (heap c) ∧
      (get_left c ≤ n → le (heap s) (heap (get_left c))) := by
    refine ⟨_, rfl, ?_⟩
    split
    · rename_i hleft
      exact ⟨hleft.2, fun _ => hrefl _⟩
    · rename_i hleft
      exact ⟨hrefl _, fun hn => (Std.Total.total _ _).resolve_left fun hle => hleft ⟨hn, hle⟩⟩
  have hchild : ∀ j, get_parent j = c → j = get_left c ∨ j = get_right c := by
    intro j hj
    rw [get_parent] at hj
    rw [get_left, get_right]
    omega
  rw [smallest, hs]
  split
  · rename_i hright
    refine ⟨IsTrans.trans _ _ _ hright.2 hsc, fun j hjn hjc => ?_⟩
    cases hchild j hjc with
    | inl hj => exact hj ▸ IsTrans.trans _ _ _ hright.2 (hsl (hj ▸ hjn))
    | inr hj => exact hj ▸ hrefl _
  · rename_i hright
    refine ⟨hsc, fun j hjn hjc => ?_⟩
    cases hchild j hjc with
    | inl hj => exact hj ▸ hsl (hj ▸ hjn)
    | inr hj =>
        exact hj ▸ (Std.Total.total _ _).resolve_left fun hle => hright ⟨hj ▸ hjn, hle⟩

theorem heapify_ordered {n : Nat} (heap : Nat → α) (c : Nat) (hc : 1 ≤ c) (h : Sinking le n heap c) :
    HeapOrdered le n (heapify le n heap c) := by
  induction heap, c using heapify.induct le n with
  | case1 heap c s hs =>
      have hleast := (smallest_le le n heap c).2
      rw [heapify, if_pos hs]
      intro j hj hjn
      by_cases hjc : get_parent j = c
      · rw [hjc]
        exact hs ▸ hleast j hjn hjc
      · exact h.other j hj hjn hjc
  | case2 heap c s hs ih =>
      have hcases := smallest_cases le n heap c
      have hsmall := smallest_le le n heap c
      rw [get_left, get_right] at hcases
      have hparent : get_parent s = c := by
        rw [get_parent]
        omega
      rw [heapify, if_neg hs]
      exact ih (by omega) (h.swap hc (by omega) hparent hsmall.1 hsmall.2)

omit [DecidableRel le] in
theorem root_le {n : Nat} {heap : Nat → α} (h : HeapOrdered le n heap) {j : Nat} (hj : 1 ≤ j)
    (hn : j ≤ n) : le (heap 1) (heap j) := by
  induction j using Nat.strongRecOn with
  | ind j ih =>
      by_cases hone : j = 1
      · subst hone
        exact (Std.Total.total (r := le) _ _).elim id id
      · have hlt : get_parent j < j := Nat.div_lt_self hj (by decide)
        have hpos : 1 ≤ get_parent j := by
          rw [get_parent]
          omega
        exact IsTrans.trans _ _ _ (ih _ hlt hpos (by omega)) (h j (by omega) hn)

end

/-! The heap -/

/-- A heap of elements that are in their order. -/
def Ordered (le : α → α → Prop) (h : PrioHeap α) : Prop := HeapOrdered le h.m_current_size h.m_heap

section
variable {le : α → α → Prop} [DecidableRel le] [Std.Total le] [IsTrans α le]

omit [DecidableRel le] [Std.Total le] [IsTrans α le] in
theorem init_ordered [Inhabited α] : (init : PrioHeap α).Ordered le :=
  fun _ hj hn => absurd (Nat.lt_of_lt_of_le hj hn) (Nat.not_lt_zero 1)

theorem Ordered.insert {h : PrioHeap α} (hord : h.Ordered le) (key : α) :
    (h.insert le key).Ordered le := by
  have hmem : h.m_current_size + 1 ∈ Finset.Icc 1 (h.m_current_size + 1) := by simp
  have hsize : (h.insert le key).m_current_size = h.m_current_size + 1 := rfl
  refine insertAt_ordered key h.m_heap _ hmem ⟨fun j hj hn hne => ?_, fun _ j hn hj => ?_⟩
  · have hlt : get_parent j < j := Nat.div_lt_self (by omega) (by decide)
    rw [Function.update_of_ne hne, Function.update_of_ne (by omega)]
    exact hord j hj (by omega)
  · rw [get_parent] at hj
    omega

theorem Ordered.extractMin {h : PrioHeap α} (hord : h.Ordered le) :
    (h.extractMin le).2.Ordered le := by
  have hsize : (h.extractMin le).2.m_current_size = h.m_current_size - 1 := rfl
  refine heapify_ordered _ 1 (Nat.le_refl 1) ⟨fun j hj hn hne => ?_, fun hone => ?_⟩
  · rw [Function.update_of_ne hne, Function.update_of_ne (by omega)]
    exact hord j hj (by omega)
  · exact absurd hone (Nat.lt_irrefl 1)

omit [DecidableRel le] in
/-- The element at the root is before all others. -/
theorem Ordered.peekMin_le {h : PrioHeap α} (hord : h.Ordered le) :
    ∀ x ∈ h.contents, le h.peekMin x := by
  intro x hx
  obtain ⟨j, hj, rfl⟩ := Multiset.mem_map.mp hx
  obtain ⟨hone, hn⟩ := Finset.mem_Icc.mp (Finset.mem_val.mp hj)
  exact root_le hord hone hn

end

theorem peekMin_mem {h : PrioHeap α} (hsize : 0 < h.size) : h.peekMin ∈ h.contents :=
  Multiset.mem_map.mpr ⟨1, Finset.mem_val.mpr (Finset.mem_Icc.mpr ⟨Nat.le_refl 1, hsize⟩), rfl⟩

theorem card_contents (h : PrioHeap α) : h.contents.card = h.size := by
  rw [contents, Multiset.card_map, Finset.card_val, Nat.card_Icc, size, Nat.add_sub_cancel]

end PrioHeap
end FeS2.Common
