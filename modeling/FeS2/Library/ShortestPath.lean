import Mathlib.Algebra.BigOperators.Group.Finset.Basic
import Mathlib.Algebra.Order.BigOperators.Group.Finset
import Mathlib.Data.List.Range
import Mathlib.Logic.Function.Basic
import Mathlib.Tactic.Linarith

/-!
All-pairs shortest paths by relaxing a matrix in place until nothing changes.
Weights are natural numbers, and those from `inf` on stand for no link. What
comes out are the lengths of shortest walks, wherever they are below `inf`.
-/

namespace ShortestPath

abbrev Matrix := ℕ → ℕ → ℕ

variable {w d d' : Matrix} {n inf a b c i j k x y : ℕ}

/-- A walk over links, with its length. -/
inductive Walk (w : Matrix) (inf : ℕ) : ℕ → ℕ → ℕ → Prop
  | nil (a : ℕ) : Walk w inf a a 0
  | cons {a b c x : ℕ} (pos : 0 < w a b) (fin : w a b < inf) (rest : Walk w inf b c x) :
      Walk w inf a c (w a b + x)

theorem Walk.append (h : Walk w inf a b x) (h' : Walk w inf b c y) : Walk w inf a c (x + y) := by
  induction h with
  | nil a =>
      rw [Nat.zero_add]
      exact h'
  | cons pos fin rest ih =>
      rw [Nat.add_assoc]
      exact .cons pos fin (ih h')

/-- `d` has shortest lengths among the first `n` vertices. -/
structure Shortest (w : Matrix) (inf n : ℕ) (d : Matrix) : Prop where
  le_weight : ∀ a b, d a b ≤ w a b
  walk : ∀ a b, d a b < inf → Walk w inf a b (d a b)
  triangle : ∀ a b c, a < n → b < n → c < n → d a b ≤ d a c + d c b

/-- All links are between the first `n` vertices. -/
def Within (w : Matrix) (inf n : ℕ) : Prop :=
  ∀ a b, 0 < w a b → w a b < inf → a < n ∧ b < n

theorem Shortest.le_walk (h : Shortest w inf n d) (hw : Within w inf n) (hself : w b b = 0)
    (hb : b < n) (hwalk : Walk w inf a b x) : d a b ≤ x := by
  induction hwalk with
  | nil a => exact (h.le_weight a a).trans hself.le
  | @cons a c b x pos fin rest ih =>
      obtain ⟨ha, hc⟩ := hw a c pos fin
      have h1 := h.triangle a b c ha hb hc
      have h2 := h.le_weight a c
      have h3 := ih hself hb
      omega

/-- Away from its end, a shortest walk goes on over some link. -/
theorem Shortest.next_hop (h : Shortest w inf n d) (hw : Within w inf n) (hself : w b b = 0)
    (hb : b < n) (hd : d a b < inf) (hne : a ≠ b) :
    ∃ c, 0 < w a c ∧ w a c < inf ∧ w a c + d c b = d a b := by
  have hwalk := h.walk a b hd
  generalize hx : d a b = x at hwalk
  cases hwalk with
  | nil => exact absurd rfl hne
  | @cons _ c _ x pos fin rest =>
      obtain ⟨ha, hc⟩ := hw a c pos fin
      have h1 := h.triangle a b c ha hb hc
      have h2 := h.le_weight a c
      have h3 := h.le_walk hw hself hb rest
      exact ⟨c, pos, fin, by omega⟩

/-! Relaxation -/

/-- The best way over one vertex. -/
def viaMin (n : ℕ) (d : Matrix) (i j : ℕ) : ℕ :=
  (List.range n).foldl (fun minimum k => min minimum (d i k + d k j)) (d i j)

theorem foldl_min_le {f : ℕ → ℕ} {ks : List ℕ} {m : ℕ} :
    ks.foldl (fun minimum k => min minimum (f k)) m ≤ m ∧
      ∀ k ∈ ks, ks.foldl (fun minimum k => min minimum (f k)) m ≤ f k := by
  induction ks generalizing m with
  | nil => exact ⟨Nat.le_refl m, fun _ hk => nomatch hk⟩
  | cons k ks ih =>
      simp only [List.foldl_cons]
      obtain ⟨h1, h2⟩ := ih (m := min m (f k))
      refine ⟨h1.trans (Nat.min_le_left _ _), fun k' hk => ?_⟩
      rcases List.mem_cons.mp hk with rfl | hk
      · exact h1.trans (Nat.min_le_right _ _)
      · exact h2 k' hk

theorem foldl_min_eq {f : ℕ → ℕ} (ks : List ℕ) {m : ℕ} :
    ks.foldl (fun minimum k => min minimum (f k)) m = m ∨
      ∃ k ∈ ks, ks.foldl (fun minimum k => min minimum (f k)) m = f k := by
  induction ks generalizing m with
  | nil => exact .inl rfl
  | cons k ks ih =>
      simp only [List.foldl_cons]
      rcases ih (m := min m (f k)) with h | ⟨k', hk, h⟩
      · rw [h]
        rcases Nat.le_total m (f k) with hle | hle
        · exact .inl (Nat.min_eq_left hle)
        · exact .inr ⟨k, List.mem_cons_self, Nat.min_eq_right hle⟩
      · exact .inr ⟨k', List.mem_cons_of_mem _ hk, h⟩

theorem viaMin_le : viaMin n d i j ≤ d i j := foldl_min_le.1

theorem viaMin_le_add (hk : k < n) : viaMin n d i j ≤ d i k + d k j :=
  foldl_min_le.2 k (List.mem_range.mpr hk)

theorem viaMin_eq : viaMin n d i j = d i j ∨ ∃ k < n, viaMin n d i j = d i k + d k j := by
  rcases foldl_min_eq (f := fun k => d i k + d k j) (List.range n) (m := d i j) with
    h | ⟨k, hk, h⟩
  · exact .inl h
  · exact .inr ⟨k, List.mem_range.mp hk, h⟩

def set (d : Matrix) (i j x : ℕ) : Matrix := Function.update d i (Function.update (d i) j x)

theorem set_apply (d : Matrix) (i j x a b : ℕ) :
    set d i j x a b = if a = i ∧ b = j then x else d a b := by
  unfold set
  by_cases ha : a = i
  · subst ha
    by_cases hb : b = j
    · subst hb
      simp
    · simp [hb]
  · simp [ha]

/-- One entry, and whether it has changed. -/
def relax (n : ℕ) (r : Matrix × Bool) (e : ℕ × ℕ) : Matrix × Bool :=
  let minimum := viaMin n r.1 e.1 e.2
  if r.1 e.1 e.2 ≠ minimum then (set r.1 e.1 e.2 minimum, true) else r

/-- All entries, row by row. -/
def pass (n : ℕ) (d : Matrix) : Matrix × Bool :=
  ((List.range n).flatMap fun i => (List.range n).map fun j => (i, j)).foldl (relax n) (d, false)

theorem foldl_relax_invariant {P : Matrix → Prop} {es : List (ℕ × ℕ)} {r : Matrix × Bool}
    (preserved : ∀ d i j, P d → P (set d i j (viaMin n d i j))) (h : P r.1) :
    P (es.foldl (relax n) r).1 := by
  induction es generalizing r with
  | nil => exact h
  | cons e es ih =>
      refine ih ?_
      unfold relax
      dsimp only
      split
      · exact preserved r.1 e.1 e.2 h
      · exact h

theorem foldl_relax_changed {es : List (ℕ × ℕ)} {r : Matrix × Bool} (h : r.2 = true) :
    (es.foldl (relax n) r).2 = true := by
  induction es generalizing r with
  | nil => exact h
  | cons e es ih =>
      refine ih ?_
      unfold relax
      dsimp only
      split
      · rfl
      · exact h

/-- Entries that do not change are at their minimum. -/
theorem foldl_relax_unchanged {es : List (ℕ × ℕ)} {r : Matrix × Bool}
    (h : (es.foldl (relax n) r).2 = false) :
    (es.foldl (relax n) r).1 = r.1 ∧ ∀ e ∈ es, r.1 e.1 e.2 = viaMin n r.1 e.1 e.2 := by
  induction es generalizing r with
  | nil => exact ⟨rfl, fun _ he => nomatch he⟩
  | cons e es ih =>
      simp only [List.foldl_cons] at h ⊢
      by_cases he : r.1 e.1 e.2 = viaMin n r.1 e.1 e.2
      · have hr : relax n r e = r := if_neg (not_not.mpr he)
        rw [hr] at h ⊢
        obtain ⟨h1, h2⟩ := ih h
        refine ⟨h1, fun e' he' => ?_⟩
        rcases List.mem_cons.mp he' with rfl | he'
        · exact he
        · exact h2 e' he'
      · have hr : (relax n r e).2 = true := by
          unfold relax
          dsimp only
          rw [if_pos he]
        rw [foldl_relax_changed hr] at h
        cases h

theorem mem_entries {e : ℕ × ℕ} :
    e ∈ ((List.range n).flatMap fun i => (List.range n).map fun j => (i, j)) ↔
      e.1 < n ∧ e.2 < n := by
  simp only [List.mem_flatMap, List.mem_map, List.mem_range]
  constructor
  · rintro ⟨i, hi, j, hj, rfl⟩
    exact ⟨hi, hj⟩
  · rintro ⟨hi, hj⟩
    exact ⟨e.1, hi, e.2, hj, rfl⟩

/-- The sum of all entries, which each change makes less. -/
def total (n : ℕ) (d : Matrix) : ℕ := ∑ i ∈ Finset.range n, ∑ j ∈ Finset.range n, d i j

theorem total_set_lt (hi : i < n) (hj : j < n) (hx : x < d i j) :
    total n (set d i j x) < total n d := by
  refine Finset.sum_lt_sum (fun a _ => Finset.sum_le_sum fun b _ => ?_)
    ⟨i, Finset.mem_range.mpr hi, Finset.sum_lt_sum (fun b _ => ?_) ⟨j, Finset.mem_range.mpr hj, ?_⟩⟩
  · rw [set_apply]
    split
    · next h => exact h.1 ▸ h.2 ▸ hx.le
    · exact Nat.le_refl _
  · rw [set_apply]
    split
    · next h => exact h.2 ▸ hx.le
    · exact Nat.le_refl _
  · rw [set_apply, if_pos ⟨rfl, rfl⟩]
    exact hx

theorem foldl_relax_total {es : List (ℕ × ℕ)} {r : Matrix × Bool}
    (hes : ∀ e ∈ es, e.1 < n ∧ e.2 < n) :
    total n (es.foldl (relax n) r).1 ≤ total n r.1 ∧
      (r.2 = false → (es.foldl (relax n) r).2 = true →
        total n (es.foldl (relax n) r).1 < total n r.1) := by
  induction es generalizing r with
  | nil =>
      refine ⟨Nat.le_refl _, fun h h' => ?_⟩
      rw [List.foldl_nil, h] at h'
      cases h'
  | cons e es ih =>
      simp only [List.foldl_cons]
      obtain ⟨h1, h2⟩ := ih (r := relax n r e) fun e' he' => hes e' (List.mem_cons_of_mem _ he')
      by_cases he : r.1 e.1 e.2 = viaMin n r.1 e.1 e.2
      · have hr : relax n r e = r := if_neg (not_not.mpr he)
        rw [hr] at h1 h2 ⊢
        exact ⟨h1, h2⟩
      · have hr : relax n r e = (set r.1 e.1 e.2 (viaMin n r.1 e.1 e.2), true) := if_pos he
        obtain ⟨hi, hj⟩ := hes e List.mem_cons_self
        have hlt : total n (relax n r e).1 < total n r.1 := by
          rw [hr]
          exact total_set_lt hi hj (lt_of_le_of_ne viaMin_le (Ne.symm he))
        exact ⟨h1.trans hlt.le, fun _ _ => lt_of_le_of_lt h1 hlt⟩

theorem pass_total_lt (h : (pass n d).2 = true) : total n (pass n d).1 < total n d :=
  (foldl_relax_total fun _ he => mem_entries.mp he).2 rfl h

/-- Passes until one changes nothing. -/
def extend (n : ℕ) (d : Matrix) : Matrix :=
  if _ : (pass n d).2 then extend n (pass n d).1 else (pass n d).1
termination_by total n d
decreasing_by exact pass_total_lt ‹_›

theorem extend_invariant {P : Matrix → Prop}
    (preserved : ∀ d i j, P d → P (set d i j (viaMin n d i j))) (h : P d) : P (extend n d) := by
  induction d using extend.induct n with
  | case1 d hchange ih =>
      rw [extend, dif_pos hchange]
      exact ih (foldl_relax_invariant preserved h)
  | case2 d hsame =>
      rw [extend, dif_neg hsame]
      exact foldl_relax_invariant preserved h

theorem extend_triangle (ha : a < n) (hb : b < n) (hc : c < n) :
    extend n d a b ≤ extend n d a c + extend n d c b := by
  induction d using extend.induct n with
  | case1 d hchange ih =>
      rw [extend, dif_pos hchange]
      exact ih
  | case2 d hsame =>
      rw [extend, dif_neg hsame]
      obtain ⟨heq, hmin⟩ := foldl_relax_unchanged (Bool.eq_false_iff.mpr hsame)
      have heq : (pass n d).1 = d := heq
      rw [heq]
      have h := hmin (a, b) (mem_entries.mpr ⟨ha, hb⟩)
      exact h.trans_le (viaMin_le_add hc)

/-- What comes out is shortest, where lengths are below `inf`. -/
theorem shortest_extend (hzero : ∀ a b, w a b = 0 → a = b) :
    Shortest w inf n (extend n w) := by
  have h : (∀ a b, extend n w a b ≤ w a b) ∧
      ∀ a b, extend n w a b < inf → Walk w inf a b (extend n w a b) := by
    refine extend_invariant (P := fun d => (∀ a b, d a b ≤ w a b) ∧
      ∀ a b, d a b < inf → Walk w inf a b (d a b)) (fun d i j hd => ⟨fun a b => ?_, fun a b => ?_⟩)
      ⟨fun a b => Nat.le_refl _, fun a b hlt => ?_⟩
    · rw [set_apply]
      split
      · next he =>
          rw [he.1, he.2]
          exact viaMin_le.trans (hd.1 i j)
      · exact hd.1 a b
    · rw [set_apply]
      split
      · next he =>
          rw [he.1, he.2]
          intro hlt
          rcases viaMin_eq (n := n) (d := d) (i := i) (j := j) with h | ⟨k, -, h⟩
          · rw [h] at hlt ⊢
            exact hd.2 i j hlt
          · rw [h] at hlt ⊢
            exact (hd.2 i k (by omega)).append (hd.2 k j (by omega))
      · exact hd.2 a b
    · rcases Nat.eq_zero_or_pos (w a b) with h0 | hpos
      · obtain rfl := hzero a b h0
        rw [h0]
        exact .nil a
      · exact .cons hpos hlt (.nil b)
  exact ⟨h.1, h.2, fun a b c ha hb hc => extend_triangle ha hb hc⟩

end ShortestPath
