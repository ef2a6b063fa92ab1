import Mathlib.Algebra.Group.Nat.Defs
import FeS2.Pyrite.Predictor

/-!
The speculative history. A record holds the history up to its branch with the
outcome the predictor was last told of, and a squash takes the register from the
youngest record that stays. So the register is right as long as every resolution
that changes an outcome squashes what was fetched behind the branch; one with
nothing fetched behind it squashes nothing.
-/

namespace FeS2.Pyrite
open EventSystem

/-! Histories -/

namespace GshareParams
variable {p : GshareParams}

theorem toNat_pow_sub_one {n : Nat} (h : n < 31) :
    ((1 : BitVec 32) <<< n - 1).toNat = 2 ^ n - 1 := by
  have hlt : 2 ^ n < 2 ^ 32 := Nat.pow_lt_pow_right (by decide) (by omega)
  have hpos : 0 < 2 ^ n := Nat.two_pow_pos n
  have hshift : ((1 : BitVec 32) <<< n).toNat = 2 ^ n := by
    rw [BitVec.toNat_shiftLeft, Nat.shiftLeft_eq, show (1 : BitVec 32).toNat = 1 from rfl,
      Nat.one_mul, Nat.mod_eq_of_lt hlt]
  rw [BitVec.toNat_sub, hshift, show (1 : BitVec 32).toNat = 1 from rfl]
  omega

theorem historyMask_low (p : GshareParams) : p.historyMask.getLsbD 0 = true := by
  rw [historyMask, BitVec.getLsbD, toNat_pow_sub_one p.history_lt, Nat.testBit_two_pow_sub_one]
  exact decide_eq_true p.history_pos

/-- The outcome is added in at a bit that is clear. -/
theorem getLsbD_add_bit {x : BitVec 32} (hx : x.getLsbD 0 = false) (b : Bool) (i : Nat) :
    (x + if b then 1 else 0).getLsbD i = (x.getLsbD i || (b && decide (i = 0))) := by
  have hclear : x &&& (if b then 1 else 0) = 0 := by
    apply BitVec.eq_of_getLsbD_eq
    intro j hj
    rw [BitVec.getLsbD_and]
    cases j with
    | zero =>
        rw [hx]
        simp
    | succ j => cases b <;> simp
  rw [BitVec.add_eq_or_of_and_eq_zero _ _ hclear, BitVec.getLsbD_or]
  cases b
  · simp
  · by_cases hi : i = 0
    · simp [hi]
    · simp [hi]

theorem getLsbD_push (p : GshareParams) (history : BitVec 32) (taken : Bool) (i : Nat) :
    (p.push history taken).getLsbD i =
      (p.historyMask.getLsbD i && ((history <<< 1).getLsbD i || (taken && decide (i = 0)))) := by
  rw [push, BitVec.getLsbD_and, getLsbD_add_bit (by simp)]

/-- A resolution puts the right outcome at the end of a history. -/
theorem push_resolve (p : GshareParams) (history : BitVec 32) (old new : Bool) :
    (p.push history old &&& ~~~1) + (if new then 1 else 0) = p.push history new := by
  apply BitVec.eq_of_getLsbD_eq
  intro i hi
  have hclear : (p.push history old &&& ~~~1).getLsbD 0 = false := by
    rw [BitVec.getLsbD_and, BitVec.getLsbD_not]
    simp
  rw [getLsbD_add_bit hclear, BitVec.getLsbD_and, getLsbD_push, getLsbD_push]
  cases i with
  | zero => simp [historyMask_low]
  | succ i =>
      rw [BitVec.getLsbD_not, show (1 : BitVec 32).getLsbD (i + 1) = false by simp]
      simp [hi]

theorem hash_lt (p : GshareParams) (history : BitVec 32) (rip : Waddr) :
    p.hash history rip < p.tableSize := by
  have hpos : 0 < p.tableSize := by
    rw [tableSize, Nat.one_shiftLeft]
    exact Nat.two_pow_pos _
  have hle : p.hash history rip ≤ (BitVec.ofNat 32 (p.tableSize - 1)).toNat := by
    rw [hash, BitVec.toNat_and]
    exact Nat.and_le_right
  have hmod := Nat.mod_le (p.tableSize - 1) (2 ^ 32)
  rw [BitVec.toNat_ofNat] at hle
  omega

end GshareParams

/-- What the records of the branches are to be, after a history. -/
def histories (p : GshareParams) : BitVec 32 → List CondBranch → List (Nat × BitVec 32)
  | _, [] => []
  | history, b :: bs =>
      (b.qPtr, p.push history b.outcome) :: histories p (p.push history b.outcome) bs

def outcomes (bs : List CondBranch) : List Bool := bs.map (·.outcome)

theorem outcomes_append (xs ys : List CondBranch) :
    outcomes (xs ++ ys) = outcomes xs ++ outcomes ys := List.map_append

section
variable {p : GshareParams}

attribute [local simp] histories in
theorem histories_append (history : BitVec 32) (xs ys : List CondBranch) :
    histories p history (xs ++ ys) =
      histories p history xs ++ histories p ((outcomes xs).foldl p.push history) ys := by
  induction xs generalizing history with
  | nil => rfl
  | cons x xs ih =>
      rw [List.cons_append, histories, ih]
      rfl

theorem histories_keys (history : BitVec 32) (bs : List CondBranch) :
    (histories p history bs).map (·.1) = bs.map (·.qPtr) := by
  induction bs generalizing history with
  | nil => rfl
  | cons b bs ih => rw [histories, List.map_cons, ih, List.map_cons]

theorem histories_last (history : BitVec 32) (bs : List CondBranch) :
    ((histories p history bs).getLast?.map (·.2)).getD history =
      (outcomes bs).foldl p.push history := by
  induction bs using List.reverseRecOn with
  | nil => rfl
  | append_singleton bs b _ =>
      rw [histories_append, outcomes_append, List.foldl_append]
      simp only [histories, List.getLast?_append, List.getLast?_singleton, Option.some_or,
        Option.map_some, Option.getD_some]
      rfl

theorem histories_filter (history : BitVec 32) {bs : List CondBranch} (k : Nat)
    (h : bs.Pairwise fun a b => a.qPtr < b.qPtr) :
    histories p history (bs.filter fun b => b.qPtr < k) =
      (histories p history bs).filter fun e => e.1 < k := by
  induction bs generalizing history with
  | nil => rfl
  | cons b bs ih =>
      obtain ⟨hb, hbs⟩ := List.pairwise_cons.mp h
      by_cases hk : b.qPtr < k
      · rw [List.filter_cons_of_pos (by simpa using hk), histories, histories,
          List.filter_cons_of_pos (by simpa using hk), ih _ hbs]
      · -- the younger branches go with it
        have hnone : ∀ e ∈ histories p history (b :: bs), ¬ e.1 < k := by
          intro e he
          have hmem := List.mem_map_of_mem (f := (·.1)) he
          rw [histories_keys, List.map_cons] at hmem
          rcases List.mem_cons.mp hmem with heq | hmem
          · rw [heq]
            exact hk
          · obtain ⟨x, hx, heq⟩ := List.mem_map.mp hmem
            have := hb x hx
            omega
        have hgone : ∀ x ∈ b :: bs, ¬ x.qPtr < k := by
          intro x hx
          rcases List.mem_cons.mp hx with rfl | hx
          · exact hk
          · have := hb x hx
            omega
        rw [List.filter_eq_nil_iff.mpr fun x hx => by simpa using hgone x hx]
        exact (List.filter_eq_nil_iff.mpr fun e he => by simpa using hnone e he).symm

end

/-! What the predictor keeps -/

namespace GsharePredictor
variable {p : GshareParams} {g g' : GsharePredictor p} {bs : List CondBranch}

def recorded (g : GsharePredictor p) : List (Nat × BitVec 32) :=
  g.inflights.entries.map fun e => (e.1, e.2.history)

/-- The records are those of the branches, and nothing leads out of the table. -/
structure Tracks (g : GsharePredictor p) (bs : List CondBranch) : Prop where
  recorded : g.recorded = histories p g.committedHistory bs
  length : g.table.length = p.tableSize
  counters : ∀ c ∈ g.table, c ≤ 3
  indices : ∀ e ∈ g.inflights.entries, e.2.index < p.tableSize

theorem Tracks.keys (h : g.Tracks bs) : g.inflights.entries.map (·.1) = bs.map (·.qPtr) := by
  have := congrArg (List.map (·.1)) h.recorded
  rw [histories_keys, GsharePredictor.recorded, List.map_map] at this
  exact this

theorem Tracks.sorted (h : g.Tracks bs) : bs.Pairwise fun a b => a.qPtr < b.qPtr := by
  have hs := List.pairwise_map.mpr g.inflights.sorted
  rw [h.keys] at hs
  exact List.pairwise_map.mp hs

theorem Tracks.lt_of_keys (h : g.Tracks bs) {q : Nat} (hq : ∀ b ∈ bs, b.qPtr < q) :
    ∀ e ∈ g.inflights.entries, e.1 < q := by
  intro e he
  have hmem := List.mem_map_of_mem (f := (·.1)) he
  rw [h.keys] at hmem
  obtain ⟨b, hb, heq⟩ := List.mem_map.mp hmem
  rw [← heq]
  exact hq b hb

theorem tracks_start : ({} : GsharePredictor p).Tracks [] := by
  refine ⟨rfl, List.length_replicate, fun c hc => ?_, fun e he => ?_⟩
  · rw [List.eq_of_mem_replicate hc]
    decide
  · cases he

theorem Tracks.predict (h : g.Tracks bs) (hhist : g.history = (outcomes bs).foldl p.push
    g.committedHistory) {q : Nat} (hq : ∀ b ∈ bs, b.qPtr < q) (rip riptaken ripseq : Waddr) :
    (g.predict rip q).2.Tracks (bs ++ [⟨q, riptaken, ripseq, (g.predict rip q).1, none⟩]) ∧
    (g.predict rip q).2.history =
      (outcomes (bs ++ [⟨q, riptaken, ripseq, (g.predict rip q).1, none⟩])).foldl p.push
        g.committedHistory := by
  have hlast := SquashableMap.insert_last (h.lt_of_keys hq)
  refine ⟨⟨?_, h.length, h.counters, fun e he => ?_⟩, ?_⟩
  · show List.map _ (SquashableMap.insert q _ g.inflights).entries = _
    have hcommitted : (outcomes bs).foldl p.push (g.predict rip q).2.committedHistory =
        g.history := hhist.symm
    rw [hlast, List.map_append, histories_append, hcommitted]
    exact congrArg (· ++ _) h.recorded
  · replace he : e ∈ (SquashableMap.insert q _ g.inflights).entries := he
    rw [hlast] at he
    rcases List.mem_append.mp he with he | he
    · exact h.indices e he
    · rw [List.mem_singleton.mp he]
      exact p.hash_lt _ _
  · rw [outcomes_append, List.foldl_append, ← hhist]
    rfl

theorem recorded_squash (g : GsharePredictor p) (k : Nat) :
    (g.squash k).recorded = g.recorded.filter fun e => e.1 < k :=
  (List.filter_map (p := fun e : Nat × BitVec 32 => decide (e.1 < k)) ..).symm

theorem history_squash {k : Nat} (h : (g.squash k).recorded = histories p g.committedHistory bs) :
    (g.squash k).history = (outcomes bs).foldl p.push g.committedHistory := by
  rw [← histories_last, ← h, GsharePredictor.recorded, List.getLast?_map, Option.map_map]
  rfl

theorem Tracks.squash (h : g.Tracks bs) (k : Nat) :
    (g.squash k).Tracks (bs.filter fun b => b.qPtr < k) ∧
    (g.squash k).history =
      (outcomes (bs.filter fun b => b.qPtr < k)).foldl p.push g.committedHistory := by
  have hrec : (g.squash k).recorded =
      histories p g.committedHistory (bs.filter fun b => b.qPtr < k) := by
    rw [histories_filter _ k h.sorted, ← h.recorded, recorded_squash]
  exact ⟨⟨hrec, h.length, h.counters, fun e he => h.indices e (List.mem_of_mem_filter he)⟩,
    history_squash hrec⟩

theorem Tracks.split {before after : List CondBranch} {b : CondBranch}
    (h : g.Tracks (before ++ b :: after)) :
    ∃ old r new, g.inflights.entries = old ++ (b.qPtr, r) :: new ∧
      r.history = p.push ((outcomes before).foldl p.push g.committedHistory) b.outcome ∧
      old.map (fun e => (e.1, e.2.history)) = histories p g.committedHistory before ∧
      new.map (fun e => (e.1, e.2.history)) = histories p r.history after := by
  have hrec := h.recorded
  rw [histories_append, GsharePredictor.recorded, List.map_eq_append_iff] at hrec
  obtain ⟨old, rest, hentries, hold, hrest⟩ := hrec
  obtain ⟨e, new, rfl, he, hnew⟩ := List.map_eq_cons_iff.mp hrest
  obtain ⟨hkey, hhist⟩ := Prod.mk.inj he
  refine ⟨old, e.2, new, ?_, hhist, hold, ?_⟩
  · rw [hentries, ← hkey]
  · rw [hnew, hhist]

/-- A resolution changes the one record. -/
theorem Tracks.resolve {before after : List CondBranch} {b : CondBranch}
    (h : g.Tracks (before ++ b :: after)) (taken : Bool) :
    ∃ g', g.resolve b.qPtr taken = some g' ∧ g'.history = g.history ∧
      g'.committedHistory = g.committedHistory ∧ g'.table = g.table ∧
      (∀ e ∈ g'.inflights.entries, e.2.index < p.tableSize) ∧
      g'.recorded = histories p g.committedHistory before ++
        (b.qPtr, p.push ((outcomes before).foldl p.push g.committedHistory) taken) ::
          histories p (p.push ((outcomes before).foldl p.push g.committedHistory) b.outcome)
            after := by
  obtain ⟨old, r, new, hentries, hr, hold, hnew⟩ := h.split
  have hinsert := SquashableMap.insert_split hentries
    { r with history := (r.history &&& ~~~1) + if taken then 1 else 0 }
  refine ⟨{ g with
      inflights := g.inflights.insert b.qPtr
        { r with history := (r.history &&& ~~~1) + if taken then 1 else 0 } },
    by rw [GsharePredictor.resolve, SquashableMap.find?_split hentries, Option.map_some],
    rfl, rfl, rfl, fun e he => ?_, ?_⟩
  · rw [hinsert] at he
    have hindex := h.indices
    rw [hentries] at hindex
    rcases List.mem_append.mp he with he | he
    · exact hindex e (List.mem_append_left _ he)
    · rcases List.mem_cons.mp he with rfl | he
      · exact hindex (b.qPtr, r) (List.mem_append_right _ List.mem_cons_self)
      · exact hindex e (List.mem_append_right _ (List.mem_cons_of_mem _ he))
  · rw [GsharePredictor.recorded, hinsert, List.map_append, List.map_cons, hold, hnew, hr,
      GshareParams.push_resolve]

theorem filter_upto {before after : List CondBranch} {b : CondBranch}
    (h : (before ++ b :: after).Pairwise fun a b => a.qPtr < b.qPtr) :
    before.filter (fun x => x.qPtr < b.qPtr + 1) = before ∧
      after.filter (fun x => x.qPtr < b.qPtr + 1) = [] := by
  rw [List.pairwise_append, List.pairwise_cons] at h
  obtain ⟨-, ⟨hafter, -⟩, hbefore⟩ := h
  constructor
  · refine List.filter_eq_self.mpr fun x hx => decide_eq_true ?_
    exact Nat.lt_succ_of_lt (hbefore x hx b List.mem_cons_self)
  · refine List.filter_eq_nil_iff.mpr fun x hx => ?_
    have := hafter x hx
    simp only [decide_eq_true_eq]
    omega

/-- A squash right behind it repairs the history. -/
theorem Tracks.resolve_squash {before after : List CondBranch} {b : CondBranch}
    (h : g.Tracks (before ++ b :: after)) {taken : Bool}
    (hg : g.resolve b.qPtr taken = some g') :
    (g'.squash (b.qPtr + 1)).Tracks (before ++ [{ b with resolved := some taken }]) ∧
    (g'.squash (b.qPtr + 1)).history =
      (outcomes (before ++ [{ b with resolved := some taken }])).foldl p.push
        g'.committedHistory := by
  obtain ⟨g'', hg'', -, hcommitted, htable, hindices, hrec⟩ := h.resolve taken
  obtain rfl := Option.some.inj (hg''.symm.trans hg)
  have hs := h.sorted
  rw [List.pairwise_append, List.pairwise_cons] at hs
  obtain ⟨hsbefore, ⟨-, hsafter⟩, -⟩ := hs
  obtain ⟨hold, hnew⟩ := filter_upto h.sorted
  have hrec' : (g''.squash (b.qPtr + 1)).recorded = histories p g''.committedHistory
      (before ++ [{ b with resolved := some taken }]) := by
    rw [recorded_squash, hrec, List.filter_append,
      List.filter_cons_of_pos (by simp), ← histories_filter _ _ hsbefore,
      ← histories_filter _ _ hsafter, hold, hnew, histories_append, hcommitted]
    rfl
  refine ⟨⟨hrec', ?_, ?_, fun e he => hindices e (List.mem_of_mem_filter he)⟩,
    history_squash hrec'⟩
  · show g''.table.length = _
    rw [htable, h.length]
  · show ∀ c ∈ g''.table, c ≤ 3
    rw [htable]
    exact h.counters

theorem update_le (taken : Bool) {counter : Nat} (h : counter < 4) : update taken counter ≤ 3 := by
  have hall : ∀ taken : Bool, ∀ c < 4, update taken c ≤ 3 := by decide
  exact hall taken counter h

theorem commit_eq {q : Nat} (h : g.commit q = some g') :
    ∃ r counter, g.inflights.find? q = some r ∧ counter ≤ 3 ∧
      (∀ e ∈ g.inflights.entries, q ≤ e.1) ∧
      g'.inflights.entries = g.inflights.entries.filter (fun e => e.1 ≠ q) ∧
      g'.table = g.table.set r.index counter ∧ g'.committedHistory = r.history ∧
      g'.history = g.history := by
  rw [GsharePredictor.commit, Option.bind_eq_some_iff] at h
  obtain ⟨r, hr, h⟩ := h
  dsimp only at h
  split at h
  · rename_i hcounter
    obtain ⟨m, hm, rfl⟩ := Option.map_eq_some_iff.mp h
    rw [SquashableMap.commit] at hm
    split at hm
    · rename_i hall
      obtain rfl := Option.some.inj hm
      exact ⟨r, _, hr, update_le _ hcounter, by simpa using hall, rfl, rfl, rfl, rfl⟩
    · cases hm
  · cases h

theorem Tracks.commit {before after : List CondBranch} {b : CondBranch}
    (h : g.Tracks (before ++ b :: after)) (hc : g.commit b.qPtr = some g') :
    before = [] ∧ g'.Tracks after ∧ g'.history = g.history ∧
      g'.committedHistory = p.push g.committedHistory b.outcome := by
  obtain ⟨r, counter, hr, hle, hfirst, hentries', htable, hcommitted, hhist⟩ := commit_eq hc
  obtain ⟨old, r', new, hentries, hr', hold, hnew⟩ := h.split
  rw [SquashableMap.find?_split hentries] at hr
  obtain rfl := Option.some.inj hr
  have hs := g.inflights.sorted
  rw [hentries, List.pairwise_append, List.pairwise_cons] at hs
  obtain ⟨-, ⟨hafter, -⟩, hbefore⟩ := hs
  -- nothing is older than what retires
  have hnil : old = [] := by
    cases old with
    | nil => rfl
    | cons e es =>
        have hlt := hbefore e List.mem_cons_self (b.qPtr, r') List.mem_cons_self
        have hge := hfirst e (by rw [hentries]; exact List.mem_append_left _ List.mem_cons_self)
        exact absurd hlt (not_lt.mpr hge)
  have hnone : before = [] := by
    rw [hnil, List.map_nil] at hold
    cases before with
    | nil => rfl
    | cons x xs => cases hold
  subst hnil hnone
  have hrest : g'.inflights.entries = new := by
    rw [hentries', hentries, List.nil_append, List.filter_cons_of_neg (by simp),
      List.filter_eq_self.mpr fun e he => by simpa using (hafter e he).ne']
  have hindex := h.indices
  rw [hentries] at hindex
  refine ⟨rfl, ⟨?_, ?_, fun c hmem => ?_, fun e he => ?_⟩, hhist, hcommitted.trans hr'⟩
  · rw [GsharePredictor.recorded, hrest, hnew, hcommitted]
  · rw [htable, List.length_set, h.length]
  · rw [htable] at hmem
    rcases List.mem_or_eq_of_mem_set hmem with hmem | rfl
    · exact h.counters c hmem
    · exact hle
  · rw [hrest] at he
    exact hindex e (List.mem_cons_of_mem _ he)

end GsharePredictor

/-! The window -/

namespace BranchWindow
variable {p : GshareParams} {s s' : BranchWindow p}

/-- The history over the branches that have retired and then those of the window. -/
def speculated (s : BranchWindow p) : BitVec 32 :=
  (s.committed ++ outcomes s.branches).foldl p.push 0

structure Exact (s : BranchWindow p) : Prop where
  history : s.direct.history = s.speculated
  hash : ∀ rip, p.hash s.direct.history rip < s.direct.table.length
  indices : ∀ e ∈ s.direct.inflights.entries, e.2.index < s.direct.table.length
  counters : ∀ c ∈ s.direct.table, c ≤ 3

structure Inv (s : BranchWindow p) : Prop where
  tracks : s.direct.Tracks s.branches
  committed : s.direct.committedHistory = s.committed.foldl p.push 0
  history : s.direct.history = (outcomes s.branches).foldl p.push s.direct.committedHistory
  placed : ∀ b ∈ s.branches, s.qTail ≤ b.qPtr ∧ b.qPtr < s.qHead
  tail_le : s.qTail ≤ s.qHead

/-- A resolution that changes the outcome of a branch finds it mispredicted, with a uop
fetched behind it. -/
def Repairs (s : BranchWindow p) : Event → Prop
  | .resolveBranch q actualTarget =>
      ∀ b ∈ s.branches, b.qPtr = q → (actualTarget ≠ b.ripseq) ≠ (b.outcome = true) →
        q + 1 < s.qHead ∧ actualTarget ≠ b.predTarget
  | _ => True

theorem Inv.exact (h : Inv s) : Exact s := by
  refine ⟨?_, fun rip => ?_, fun e he => ?_, h.tracks.counters⟩
  · rw [h.history, h.committed, speculated, List.foldl_append]
  · rw [h.tracks.length]
    exact p.hash_lt _ _
  · rw [h.tracks.length]
    exact h.tracks.indices e he

theorem inv_start : Inv ({} : BranchWindow p) where
  tracks := GsharePredictor.tracks_start
  committed := rfl
  history := rfl
  placed := fun b hb => by cases hb
  tail_le := Nat.le_refl 0

theorem Inv.fetch (h : Inv s) {numUops : Nat} (hn : numUops ≠ 0) (branch : Option DecodedBranch) :
    Inv (s.fetch numUops branch) := by
  have htail := h.tail_le
  cases branch with
  | none =>
      refine ⟨h.tracks, h.committed, h.history, fun b hb => ?_, ?_⟩
      · exact ⟨(h.placed b hb).1, (h.placed b hb).2.trans_le (Nat.le_add_right _ _)⟩
      · exact htail.trans (Nat.le_add_right _ _)
  | some d =>
      have hq : ∀ b ∈ s.branches, b.qPtr < s.qHead + numUops - 1 := fun b hb => by
        have := (h.placed b hb).2
        omega
      obtain ⟨htracks, hhist⟩ := h.tracks.predict h.history hq d.rip d.riptaken d.ripseq
      refine ⟨htracks, h.committed, hhist, fun b hb => ?_, htail.trans (Nat.le_add_right _ _)⟩
      show s.qTail ≤ b.qPtr ∧ b.qPtr < s.qHead + numUops
      rcases List.mem_append.mp hb with hb | hb
      · have := h.placed b hb
        omega
      · rw [List.mem_singleton.mp hb]
        constructor
        · show s.qTail ≤ s.qHead + numUops - 1
          omega
        · show s.qHead + numUops - 1 < s.qHead + numUops
          omega

theorem Inv.flushPipeline (h : Inv s) {first : Nat} (hfirst : s.qTail ≤ first) :
    Inv (s.flushPipeline first) := by
  obtain ⟨htracks, hhist⟩ := h.tracks.squash first
  refine ⟨htracks, h.committed, hhist, fun b hb => ?_, hfirst⟩
  obtain ⟨hmem, hlt⟩ := List.mem_filter.mp hb
  exact ⟨(h.placed b hmem).1, of_decide_eq_true hlt⟩

theorem Inv.reset (h : Inv s) : Inv s.reset := by
  have hnone : s.branches.filter (fun b => b.qPtr < s.qTail) = [] := by
    rw [List.filter_eq_nil_iff]
    intro b hb
    simpa using (h.placed b hb).1
  obtain ⟨htracks, hhist⟩ := h.tracks.squash s.qTail
  rw [hnone] at htracks hhist
  exact ⟨htracks, h.committed, hhist, List.forall_mem_nil _, Nat.le_refl _⟩

theorem Inv.commitX86Op (h : Inv s) {q : Nat} (hs : s.commitX86Op q = some s') : Inv s' := by
  rw [BranchWindow.commitX86Op] at hs
  split at hs
  · rename_i hq
    obtain rfl := Option.some.inj hs
    obtain ⟨_, hlt, hall⟩ := hq
    refine ⟨h.tracks, h.committed, h.history, fun b hb => ⟨?_, (h.placed b hb).2⟩, hlt⟩
    exact of_decide_eq_true (List.all_eq_true.mp hall b hb)
  · cases hs

theorem find_split {bs : List CondBranch} {q : Nat} {b : CondBranch}
    (h : bs.find? (fun b => b.qPtr = q) = some b) :
    ∃ before after, bs = before ++ b :: after ∧ b.qPtr = q := by
  obtain ⟨hq, before, after, hsplit, -⟩ := List.find?_eq_some_iff_append.mp h
  exact ⟨before, after, hsplit, by simpa using hq⟩

theorem Inv.retireBranch (h : Inv s) {q : Nat} (hs : s.retireBranch q = some s') : Inv s' := by
  obtain ⟨b, hb, hs⟩ := Option.bind_eq_some_iff.mp hs
  obtain ⟨direct, hcommit, rfl⟩ := Option.map_eq_some_iff.mp hs
  obtain ⟨before, after, hsplit, rfl⟩ := find_split hb
  have htracks := h.tracks
  have hhist := h.history
  rw [hsplit] at htracks hhist
  obtain ⟨rfl, htracks', hhist', hcommitted⟩ := htracks.commit hcommit
  have hsorted := htracks.sorted
  rw [List.nil_append, List.pairwise_cons] at hsorted
  have hrest : s.branches.filter (fun x => x.qPtr ≠ b.qPtr) = after := by
    rw [hsplit, List.nil_append, List.filter_cons_of_neg (by simp)]
    exact List.filter_eq_self.mpr fun x hx => by simpa using (hsorted.1 x hx).ne'
  refine ⟨?_, ?_, ?_, fun x hx => h.placed x (List.mem_of_mem_filter hx), h.tail_le⟩
  · show direct.Tracks (s.branches.filter _)
    rw [hrest]
    exact htracks'
  · show direct.committedHistory = (s.committed ++ [b.outcome]).foldl p.push 0
    rw [hcommitted, h.committed, List.foldl_append]
    rfl
  · show direct.history = (outcomes (s.branches.filter _)).foldl p.push direct.committedHistory
    rw [hrest, hhist', hhist, hcommitted]
    rfl

/-- The branch with its resolution, in its place in the window. -/
theorem map_resolved {before after : List CondBranch} {b : CondBranch} (taken : Bool)
    (h : (before ++ b :: after).Pairwise fun a b => a.qPtr < b.qPtr) :
    ((before ++ b :: after).map fun x =>
        if x.qPtr = b.qPtr then { x with resolved := some taken } else x) =
      before ++ { b with resolved := some taken } :: after := by
  rw [List.pairwise_append, List.pairwise_cons] at h
  obtain ⟨-, ⟨hafter, -⟩, hbefore⟩ := h
  have hkeep : ∀ l : List CondBranch, (∀ x ∈ l, x.qPtr ≠ b.qPtr) →
      (l.map fun x => if x.qPtr = b.qPtr then { x with resolved := some taken } else x) = l := by
    intro l hl
    refine (List.map_congr_left fun x hx => ?_).trans (List.map_id _)
    exact if_neg (hl x hx)
  rw [List.map_append, List.map_cons, if_pos rfl,
    hkeep before fun x hx => (hbefore x hx b List.mem_cons_self).ne,
    hkeep after fun x hx => (hafter x hx).ne']

theorem Inv.resolveBranch (h : Inv s) {q : Nat} {actualTarget : Waddr}
    (hC : Repairs s (.resolveBranch q actualTarget))
    (hs : s.resolveBranch q actualTarget = some s') : Inv s' := by
  obtain ⟨b, hb, hs⟩ := Option.bind_eq_some_iff.mp hs
  obtain ⟨direct, hresolve, rfl⟩ := Option.map_eq_some_iff.mp hs
  obtain ⟨before, after, hsplit, rfl⟩ := find_split hb
  have htracks := h.tracks
  rw [hsplit] at htracks
  have hmem : b ∈ s.branches := by
    rw [hsplit]
    exact List.mem_append_right _ List.mem_cons_self
  have hplaced := h.placed b hmem
  obtain ⟨g', hg', hhist, hcommitted, htable, hindices, hrec⟩ :=
    htracks.resolve (decide (actualTarget ≠ b.ripseq))
  obtain rfl := Option.some.inj (hg'.symm.trans hresolve)
  have hmap := map_resolved (decide (actualTarget ≠ b.ripseq)) htracks.sorted
  rw [← hsplit] at hmap
  simp only [hmap]
  by_cases hsame : decide (actualTarget ≠ b.ripseq) = b.outcome
  · -- the register has the outcome already
    have houtcomes : outcomes (before ++
        { b with resolved := some (decide (actualTarget ≠ b.ripseq)) } :: after) =
        outcomes s.branches := by
      rw [hsplit, outcomes_append, outcomes_append, hsame]
      rfl
    have hinv : Inv { s with
        direct := g'
        branches := before ++
          { b with resolved := some (decide (actualTarget ≠ b.ripseq)) } :: after } := by
      refine ⟨⟨?_, ?_, ?_, hindices⟩, ?_, ?_, ?_, h.tail_le⟩
      · rw [hrec, histories_append, hcommitted, hsame]
        rfl
      · rw [htable, htracks.length]
      · rw [htable]
        exact htracks.counters
      · rw [hcommitted, h.committed]
      · rw [hhist, houtcomes, hcommitted, h.history]
      · intro x hx
        rcases List.mem_append.mp hx with hx | hx
        · exact h.placed x (by rw [hsplit]; exact List.mem_append_left _ hx)
        · rcases List.mem_cons.mp hx with rfl | hx
          · exact hplaced
          · exact h.placed x (by
              rw [hsplit]
              exact List.mem_append_right _ (List.mem_cons_of_mem _ hx))
    split
    · exact hinv.flushPipeline (hplaced.1.trans (Nat.le_succ _))
    · exact hinv
  · have hflush := hC b hmem rfl fun heq => hsame (by simp [heq])
    rw [if_pos hflush]
    obtain ⟨hold, hnew⟩ := GsharePredictor.filter_upto htracks.sorted
    have hfilter : (before ++
        { b with resolved := some (decide (actualTarget ≠ b.ripseq)) } :: after).filter
          (fun x => x.qPtr < b.qPtr + 1) =
        before ++ [{ b with resolved := some (decide (actualTarget ≠ b.ripseq)) }] := by
      rw [List.filter_append, hold, List.filter_cons_of_pos (by simp), hnew]
    obtain ⟨htracks', hhist'⟩ := htracks.resolve_squash hg'
    rw [← hfilter] at htracks' hhist'
    refine ⟨htracks', hcommitted.trans h.committed, hhist', fun x hx => ?_,
      hplaced.1.trans (Nat.le_succ _)⟩
    obtain ⟨hmem', hlt⟩ := List.mem_filter.mp hx
    refine ⟨?_, of_decide_eq_true hlt⟩
    rcases List.mem_append.mp hmem' with hx | hx
    · exact (h.placed x (by rw [hsplit]; exact List.mem_append_left _ hx)).1
    · rcases List.mem_cons.mp hx with rfl | hx
      · exact hplaced.1
      · exact (h.placed x (by
          rw [hsplit]
          exact List.mem_append_right _ (List.mem_cons_of_mem _ hx))).1

theorem Inv.step (h : Inv s) {e : Event} (hC : Repairs s e) (hs : s.step e = some s') :
    Inv s' := by
  cases e with
  | fetch numUops branch =>
      simp only [BranchWindow.step] at hs
      split at hs
      · cases hs
      · rename_i hn
        obtain rfl := Option.some.inj hs
        exact h.fetch hn branch
  | resolveBranch q actualTarget => exact h.resolveBranch hC hs
  | flushPipeline first =>
      simp only [BranchWindow.step] at hs
      split at hs
      · rename_i hfirst
        obtain rfl := Option.some.inj hs
        exact h.flushPipeline hfirst.1
      · cases hs
  | retireBranch q => exact h.retireBranch hs
  | commitX86Op q => exact h.commitX86Op hs
  | reset =>
      obtain rfl := Option.some.inj hs
      exact h.reset

/-- As long as every resolution of a run that changes an outcome squashes what was fetched
behind it, the history is exact in every state. -/
theorem exact_throughout {es : List Event} (h : Along step Repairs ({} : BranchWindow p) es) :
    Throughout step Exact ({} : BranchWindow p) es :=
  Along.throughout (fun _ hs => hs.exact) (fun _ _ _ hs hC he => hs.step hC he) inv_start h

/-- A branch predicted not taken, a uop behind it, and the branch resolves taken. -/
def mispredicted : List Event :=
  [.fetch 1 (some ⟨16, 64, 20⟩), .fetch 1 none, .resolveBranch 0 64]

theorem exact_throughout_mispredicted :
    Throughout step Exact ({} : BranchWindow directPredictor) mispredicted :=
  exact_throughout (by
    refine ⟨trivial, fun s h1 => ⟨trivial, fun s' h2 => ⟨?_, fun _ _ => trivial⟩⟩⟩
    obtain rfl := Option.some.inj h1
    obtain rfl := Option.some.inj h2
    intro b hb _ _
    exact ⟨by decide, (by decide : ∀ b ∈ (BranchWindow.fetch 1 (BranchWindow.fetch 1
      ({} : BranchWindow directPredictor) (some ⟨16, 64, 20⟩)) none).branches,
        (64 : Waddr) ≠ b.predTarget) b hb⟩)

/-- The same branch resolves before anything has been fetched behind it. -/
theorem branch_alone_not_repaired :
    ¬ ∀ es, Throughout step Exact ({} : BranchWindow directPredictor) es := by
  intro h
  have hrun : (run step ({} : BranchWindow directPredictor)
      [.fetch 1 (some ⟨16, 64, 20⟩), .resolveBranch 0 64]).map
        (fun s => (s.direct.history, s.speculated)) = some (0, 1) := by
    decide
  obtain ⟨s, hs, heq⟩ := Option.map_eq_some_iff.mp hrun
  have hexact := (h _ _ List.prefix_rfl s hs).history
  rw [(Prod.mk.inj heq).1, (Prod.mk.inj heq).2] at hexact
  exact absurd hexact (by decide)

end BranchWindow
end FeS2.Pyrite
