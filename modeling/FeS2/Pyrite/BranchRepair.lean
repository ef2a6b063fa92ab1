import Mathlib.Data.List.Basic
import FeS2.Pyrite.FetchWindow

/-!
What a resolution leaves behind a branch. Fetch always continues at the target
of the branch, recorded at fetch and replaced by each resolution that moves it;
a resolution compares with the recorded target alone, so a second one that
returns to it leaves the window where an earlier one had sent it.
-/

namespace FeS2.Pyrite.FetchWindow
open EventSystem

/-- The rip of the uop that comes after a part of the window. -/
def headRip (w : List WindowUop) (rip : Waddr) : Waddr := (w.head?.map (·.rip)).getD rip

/-- Behind every branch stands its target, in the window or as the next to fetch. -/
def Tracks : List WindowUop → Waddr → Prop
  | [], _ => True
  | u :: us, rip => (u.isbranch → headRip us rip = u.target) ∧ Tracks us rip

@[simp] theorem headRip_nil (rip : Waddr) : headRip [] rip = rip := rfl

@[simp] theorem headRip_cons (u : WindowUop) (us : List WindowUop) (rip : Waddr) :
    headRip (u :: us) rip = u.rip := rfl

theorem headRip_append (a b : List WindowUop) (rip : Waddr) :
    headRip (a ++ b) rip = headRip a (headRip b rip) := by
  cases a with
  | nil => rfl
  | cons u us => rfl

theorem tracks_append {a b : List WindowUop} {rip : Waddr} :
    Tracks (a ++ b) rip ↔ Tracks a (headRip b rip) ∧ Tracks b rip := by
  induction a with
  | nil => simp [Tracks]
  | cons u us ih =>
      simp only [List.cons_append, Tracks, ih, headRip_append]
      rw [and_assoc]

theorem split_at {w : List WindowUop} {q : Nat} {u : WindowUop} (h : w[q]? = some u) :
    w = w.take q ++ u :: w.drop (q + 1) := by
  obtain ⟨hq, rfl⟩ := List.getElem?_eq_some_iff.mp h
  rw [← List.drop_eq_getElem_cons hq, List.take_append_drop]

theorem tracks_split {w : List WindowUop} {q : Nat} {u : WindowUop} {rip : Waddr}
    (h : w[q]? = some u) (ht : Tracks w rip) :
    Tracks (w.take q) u.rip ∧ (u.isbranch → headRip (w.drop (q + 1)) rip = u.target) ∧
      Tracks (w.drop (q + 1)) rip := by
  rw [split_at h] at ht
  obtain ⟨hold, hu, hyoung⟩ := tracks_append.mp ht
  exact ⟨hold, hu, hyoung⟩

theorem Tracks.drop {w : List WindowUop} {rip : Waddr} (h : Tracks w rip) (n : Nat) :
    Tracks (w.drop n) rip := by
  rw [← List.take_append_drop n w] at h
  exact (tracks_append.mp h).2

/-- A new uop in the place of one of the same rip. -/
theorem Tracks.set {w : List WindowUop} {q : Nat} {u u' : WindowUop} {rip : Waddr}
    (h : Tracks w rip) (hu : w[q]? = some u) (hrip : u'.rip = u.rip)
    (hnext : u'.isbranch → headRip (w.drop (q + 1)) rip = u'.target) :
    Tracks (w.set q u') rip := by
  obtain ⟨hold, _, hyoung⟩ := tracks_split hu h
  have hq : q < w.length := (List.getElem?_eq_some_iff.mp hu).1
  rw [List.set_eq_take_append_cons_drop, if_pos hq]
  refine tracks_append.mpr ⟨?_, hnext, hyoung⟩
  rw [headRip_cons, hrip]
  exact hold

/-- What fetch and resolution look at. -/
def shape (u : WindowUop) : Waddr × Bool × Waddr := (u.rip, u.isbranch, u.target)

theorem Tracks.congr {w w' : List WindowUop} {rip : Waddr} (h : Tracks w rip)
    (hw : w'.map shape = w.map shape) : Tracks w' rip := by
  induction w generalizing w' with
  | nil =>
      rw [List.map_nil, List.map_eq_nil_iff] at hw
      rw [hw]
      trivial
  | cons u us ih =>
      obtain ⟨u', us', rfl, hu, hus⟩ := List.map_eq_cons_iff.mp hw
      have hhead : headRip us' rip = headRip us rip := by
        have hh := congrArg (fun l => (l.head?.map Prod.fst).getD rip) hus
        simpa [headRip, Function.comp_def, shape] using hh
      simp only [shape, Prod.mk.injEq] at hu
      refine ⟨fun hb => ?_, ih h.2 hus⟩
      rw [hhead, hu.2.2]
      exact h.1 (by rw [← hu.2.1]; exact hb)

theorem map_modify_eq {α β : Type} {f : α → β} {g : α → α} {l : List α} {q : Nat}
    (hg : ∀ a, f (g a) = f a) : (l.modify q g).map f = l.map f := by
  induction l generalizing q with
  | nil => cases q <;> rfl
  | cons a l ih =>
      cases q with
      | zero => simp only [List.modify_zero_cons, List.map_cons, hg]
      | succ q => simp only [List.modify_succ_cons, List.map_cons, ih]

/-- The window and the next fetch agree with the branches. -/
def Inv (s : FetchWindow) : Prop := Tracks s.window s.fetchRip

/-- The claim about one state: a resolved branch is followed by its latest target. -/
def NextFollows (s : FetchWindow) : Prop :=
  ∀ q u v t, s.window[q]? = some u → s.window[q + 1]? = some v → u.isbranch →
    u.resolved = some t → v.rip = t

/-- A resolution to the recorded prediction, with a younger uop in the window,
finds no earlier resolution to another target. -/
def Agrees (s : FetchWindow) : Event → Prop
  | .resolveBranch q t => ∀ u t', s.pending q = some u → u.isbranch →
      q + 1 < s.window.length → t = u.predTarget → u.resolved = some t' → t' = t
  | _ => True

theorem inv_start (rip : Waddr) : Inv { fetchRip := rip } := trivial

theorem Inv.nextFollows {s : FetchWindow} (h : Inv s) : NextFollows s := by
  intro q u v t hu hv hb ht
  have hnext := (tracks_split hu h).2.1 hb
  rw [split_at hv, List.drop_append_of_le_length (by
    have := (List.getElem?_eq_some_iff.mp hv).1
    simp only [List.length_take]
    omega)] at hnext
  simpa [WindowUop.target, ht] using hnext

theorem pending_eq {s : FetchWindow} {q : Nat} {u : WindowUop} (h : s.pending q = some u) :
    q < s.qRename ∧ s.window[q]? = some u ∧ u.complete = false := by
  unfold pending at h
  split at h
  · rename_i hq
    obtain ⟨v, hv, h⟩ := Option.bind_eq_some_iff.mp h
    split at h
    · cases h
    · rename_i hc
      obtain rfl := Option.some.inj h
      exact ⟨hq, hv, Bool.eq_false_iff.mpr hc⟩
  · cases h

/-! Fetch -/

theorem x86Op_spec {rip pred : Waddr} {first : Bool} {ops : List DecodedUop}
    {us : List WindowUop} (h : x86Op rip pred first ops = some us) :
    (∀ r, headRip us r = rip) ∧
      ∀ r, (endsInBranch us → r = pred) → Tracks us r := by
  induction ops generalizing first us with
  | nil => cases h
  | cons op ops ih =>
      cases ops with
      | nil =>
          obtain rfl := Option.some.inj h
          exact ⟨fun _ => rfl, fun r hr => ⟨by simpa [WindowUop.target, toWindow,
            endsInBranch] using hr, trivial⟩⟩
      | cons op' ops =>
          simp only [x86Op] at h
          split at h
          · cases h
          · rename_i hb
            obtain ⟨us', hus', rfl⟩ := Option.map_eq_some_iff.mp h
            refine ⟨fun _ => rfl, fun r hr => ⟨fun hb' => absurd hb' hb, ?_⟩⟩
            refine (ih hus').2 r fun hlast => hr ?_
            cases us' with
            | nil => exact absurd hlast (by simp [endsInBranch])
            | cons v vs => simpa [endsInBranch] using hlast

theorem Inv.fetch {s s' : FetchWindow} {uops : List DecodedUop} {size pred : Waddr}
    (h : Inv s) (hs : s.fetch uops size pred = some s') : Inv s' := by
  obtain ⟨us, hus, rfl⟩ := Option.map_eq_some_iff.mp hs
  obtain ⟨hhead, htracks⟩ := x86Op_spec hus
  refine tracks_append.mpr ⟨?_, htracks _ fun hb => if_pos hb⟩
  rw [hhead]
  exact h

/-! Flushes keep a part of the window whose next rip they fetch. -/

theorem Inv.refetch {s s' : FetchWindow} {q : Nat} (h : Inv s) (hs : s.refetch q = some s') :
    Inv s' := by
  obtain ⟨first, _, hs⟩ := Option.bind_eq_some_iff.mp hs
  obtain ⟨u, hu, rfl⟩ := Option.map_eq_some_iff.mp hs
  exact (tracks_split hu h).1

theorem Inv.checkException {s s' : FetchWindow} {q : Nat} {u : WindowUop} (h : Inv s)
    (hu : s.window[q]? = some u) (hb : ¬ u.isbranch) (hs : s.checkException q = some s') :
    Inv s' := by
  obtain ⟨last, _, hs⟩ := Option.bind_eq_some_iff.mp hs
  split at hs
  · cases hs
  obtain ⟨dynLast, _, hs⟩ := Option.bind_eq_some_iff.mp hs
  obtain rfl := Option.some.inj hs
  refine Tracks.congr ?_ (map_modify_eq fun _ => rfl)
  have htake : s.window.take (q + 1) = s.window.take q ++ [u] := by
    rw [List.take_add_one, hu]
    rfl
  simp only [flushPipeline, htake]
  exact tracks_append.mpr ⟨(tracks_split hu h).1, fun hb' => absurd hb' hb, trivial⟩

theorem Inv.complete {s s' : FetchWindow} {q : Nat} {excepting : Bool} (h : Inv s)
    (hs : s.complete q excepting = some s') : Inv s' := by
  obtain ⟨u, hu, hs⟩ := Option.bind_eq_some_iff.mp hs
  obtain ⟨_, hu, _⟩ := pending_eq hu
  split at hs
  · cases hs
  rename_i hb
  obtain ⟨s1, h1, rfl⟩ := Option.map_eq_some_iff.mp hs
  have hinv : Inv s1 := by
    split at h1
    · split at h1
      · obtain rfl := Option.some.inj h1
        exact Tracks.congr h (map_modify_eq fun _ => rfl)
      · exact h.checkException hu hb h1
    · obtain rfl := Option.some.inj h1
      exact h
  exact Tracks.congr hinv (map_modify_eq fun _ => rfl)

theorem Inv.replay {s : FetchWindow} (h : Inv s) (q : Nat) : Inv (replay q s) := by
  refine Tracks.congr h ?_
  have hsquash : shape ∘ WindowUop.squash = shape := rfl
  simp only [FetchWindow.replay, List.map_append, List.map_map, hsquash]
  rw [← List.map_append, List.take_append_drop]

theorem Inv.retireChecked {s s' : FetchWindow} {u : WindowUop} (h : Inv s)
    (hs : s.retireChecked u = some s') : Inv s' := by
  unfold FetchWindow.retireChecked at hs
  split at hs
  · exact h.refetch hs
  split at hs
  · obtain rfl := Option.some.inj hs
    exact Tracks.drop h _
  · obtain rfl := Option.some.inj hs
    exact h

theorem Inv.retire {s s' : FetchWindow} {violation : Violation} (h : Inv s)
    (hs : s.retire violation = some s') : Inv s' := by
  unfold FetchWindow.retire at hs
  split at hs
  · obtain ⟨u, _, hs⟩ := Option.bind_eq_some_iff.mp hs
    split at hs
    · cases hs
    cases violation with
    | none => exact h.retireChecked hs
    | loadOrdering =>
        obtain rfl := Option.some.inj hs
        exact h.replay _
    | loadConsistency => exact (h.replay _).retireChecked hs
  · cases hs

/-! Resolution: the one step that can leave the next rip behind. -/

/-- A branch that is the youngest uop left, when fetch goes to its new target. -/
theorem tracks_resolved_last {w : List WindowUop} {u : WindowUop} {t : Waddr}
    (h : Tracks w u.rip) : Tracks (w ++ [u.resolve t]) t :=
  tracks_append.mpr ⟨h, fun _ => rfl, trivial⟩

theorem Inv.resolveBranch {s s' : FetchWindow} {q : Nat} {t : Waddr} (h : Inv s)
    (hC : Agrees s (.resolveBranch q t)) (hs : s.resolveBranch q t = some s') : Inv s' := by
  obtain ⟨u, hpend, hs⟩ := Option.bind_eq_some_iff.mp hs
  obtain ⟨_, hu, _⟩ := pending_eq hpend
  have hq : q < s.window.length := (List.getElem?_eq_some_iff.mp hu).1
  split at hs
  · cases hs
  rename_i hb
  have hb' : u.isbranch = true := by simpa using hb
  obtain ⟨hold, hnext, _⟩ := tracks_split hu h
  have hset : s.window.set q (u.resolve t)
      = (s.window.take q ++ [u.resolve t]) ++ s.window.drop (q + 1) := by
    rw [List.set_eq_take_append_cons_drop, if_pos hq, List.append_cons]
  simp only [List.length_set] at hs
  split at hs
  · rename_i hlt
    split at hs
    · obtain rfl := Option.some.inj hs
      have htake : (s.window.set q (u.resolve t)).take (q + 1)
          = s.window.take q ++ [u.resolve t] := by
        rw [hset, List.take_left' (by simp [hq.le])]
      simp only [Inv, flushPipeline, htake]
      exact tracks_resolved_last hold
    · rename_i hpred
      obtain rfl := Option.some.inj hs
      refine Tracks.set h hu rfl fun _ => ?_
      have hpred' : t = u.predTarget := by simpa [WindowUop.resolve] using hpred
      rw [hnext hb']
      simp only [WindowUop.target, WindowUop.resolve, Option.getD_some]
      cases hres : u.resolved with
      | none => exact hpred'.symm
      | some t' => exact hC u t' hpend hb' hlt hpred' hres
  · rename_i hlast
    obtain rfl := Option.some.inj hs
    have hnil : s.window.drop (q + 1) = [] := List.drop_eq_nil_iff.mpr (not_lt.mp hlast)
    simp only [Inv, hset, hnil, List.append_nil]
    exact tracks_resolved_last hold

theorem Inv.step {s s' : FetchWindow} {e : Event} (h : Inv s) (hC : Agrees s e)
    (hs : s.step e = some s') : Inv s' := by
  cases e with
  | fetch uops size pred => exact h.fetch hs
  | rename =>
      simp only [FetchWindow.step, FetchWindow.rename] at hs
      split at hs
      · obtain rfl := Option.some.inj hs
        exact h
      · cases hs
  | complete q excepting => exact h.complete hs
  | resolveBranch q t => exact h.resolveBranch hC hs
  | alignmentException q =>
      obtain ⟨_, _, hs⟩ := Option.bind_eq_some_iff.mp hs
      exact h.refetch hs
  | retire violation => exact h.retire hs
  | reset rip =>
      obtain rfl := Option.some.inj hs
      trivial

/-- A resolution back to the prediction, after one elsewhere: the younger uop stays. -/
theorem Inv.stranded {s : FetchWindow} {e : Event} (h : Inv s) (hC : ¬ Agrees s e) :
    ∃ s', s.step e = some s' ∧ ¬ NextFollows s' := by
  cases e with
  | resolveBranch q t =>
      simp only [Agrees, not_forall] at hC
      obtain ⟨u, t', hpend, hb, hlt, hpred, hres, hne⟩ := hC
      obtain ⟨_, hu, _⟩ := pending_eq hpend
      have hmisp : (u.resolve t).mispredicted = false := by simp [WindowUop.resolve, hpred]
      refine ⟨{ s with window := s.window.set q (u.resolve t) },
        by simp [FetchWindow.step, FetchWindow.resolveBranch, hpend, hb, hlt, hmisp],
        fun hP => ?_⟩
      obtain ⟨v, hv⟩ : ∃ v, s.window[q + 1]? = some v := ⟨_, List.getElem?_eq_getElem hlt⟩
      have hrip := h.nextFollows q u v t' hu hv hb hres
      have hq : q < s.window.length := (List.getElem?_eq_some_iff.mp hu).1
      have hnew := hP q (u.resolve t) v t (by simp [hq]) (by simpa [List.getElem?_set] using hv)
        hb rfl
      exact hne (hrip.symm.trans hnew)
  | _ => exact absurd trivial hC

/-- Every state of a run repairs its wrong paths exactly if no resolution of the
run returns to a prediction that an earlier resolution had left. -/
theorem nextFollows_throughout_iff (rip : Waddr) (es : List Event) :
    Throughout step NextFollows { fetchRip := rip } es ↔
      Along step Agrees { fetchRip := rip } es :=
  throughout_iff_along (I := Inv) (fun _ h => h.nextFollows) (fun _ _ _ h hC hs => h.step hC hs)
    (fun _ _ h hC => h.stranded hC) (inv_start rip) es

/-- A store, then a load and a branch on its value. The branch is predicted to
16 and resolves to 32, where fetch goes on; the store turns out to be to the
address of the load, which is replayed, and the branch resolves to 16. The uop
behind the branch is still the one at 32. -/
theorem replayed_branch_keeps_wrong_path :
    ¬ ∀ es, Throughout step NextFollows { fetchRip := 0 } es := by
  intro h
  obtain ⟨s, hs, hw⟩ := Option.map_eq_some_iff.mp (show (run step { fetchRip := 0 }
    [.fetch [{}] 4 0, .fetch [{ isload := true }, { isbranch := true }] 8 16, .fetch [{}] 4 0,
      .rename, .rename, .rename, .complete 1 false, .resolveBranch 2 32, .fetch [{}] 4 0,
      .complete 0 false, .retire .none, .retire .loadOrdering,
      .rename, .rename, .complete 0 false, .resolveBranch 1 16]).map
    (fun s => (s.window.drop 1).map fun u => (u.rip, u.isbranch, u.resolved))
      = some [(4, true, some 16), (32, false, none)] by decide)
  obtain ⟨u, us, hdrop, hu, hus⟩ := List.map_eq_cons_iff.mp hw
  obtain ⟨v, vs, rfl, hv, _⟩ := List.map_eq_cons_iff.mp hus
  simp only [Prod.mk.injEq] at hu hv
  have hwin : ∀ i, s.window[1 + i]? = (u :: v :: vs)[i]? := fun i => by
    rw [← hdrop, List.getElem?_drop]
  have hrip := h _ _ List.prefix_rfl s hs 1 u v 16 (hwin 0) (hwin 1) hu.2.1 hu.2.2
  rw [hv.1] at hrip
  exact absurd hrip (by decide)

end FeS2.Pyrite.FetchWindow
