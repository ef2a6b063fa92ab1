import Mathlib.Data.List.Infix

/-!
Event systems: a state type with a partial step function. All nondeterminism
is in the events, so a run is a list of events and a step that is not enabled
is `none`. The rules below carry a property of one step to every run, either
unconditionally, under a condition on the steps taken, or as an equivalence
between a property of the visited states and a condition on the steps.
-/

namespace EventSystem
universe u v
variable {σ : Type u} {ε : Type v}

def run (step : σ → ε → Option σ) : σ → List ε → Option σ
  | s, [] => some s
  | s, e :: es => (step s e).bind fun s' => run step s' es

/-- Every step of the run meets `C` in the state it is taken from. -/
def Along (step : σ → ε → Option σ) (C : σ → ε → Prop) : σ → List ε → Prop
  | _, [] => True
  | s, e :: es => C s e ∧ ∀ s', step s e = some s' → Along step C s' es

instance instDecidableAlong {step : σ → ε → Option σ} {C : σ → ε → Prop} [∀ s e,
  Decidable (C s e)] :
    ∀ s es, Decidable (Along step C s es)
  | _, [] => isTrue trivial
  | s, e :: es =>
      match h : step s e with
      | none => decidable_of_iff (C s e) (by simp [Along, h])
      | some s' =>
          haveI : Decidable (Along step C s' es) := instDecidableAlong s' es
          decidable_of_iff (C s e ∧ Along step C s' es) (by simp [Along, h])

/-- Every state the run visits, its first and last included, satisfies `P`. -/
def Throughout (step : σ → ε → Option σ) (P : σ → Prop) (s : σ) (es : List ε) : Prop :=
  ∀ before, before <+: es → ∀ s', run step s before = some s' → P s'

def Reachable (step : σ → ε → Option σ) (init s : σ) : Prop :=
  ∃ es, run step init es = some s

@[simp] theorem run_nil (step : σ → ε → Option σ) (s : σ) : run step s [] = some s := rfl

theorem run_cons (step : σ → ε → Option σ) (s : σ) (e : ε) (es : List ε) :
    run step s (e :: es) = (step s e).bind fun s' => run step s' es := rfl

theorem run_cons_eq_some {step : σ → ε → Option σ} {s t : σ} {e : ε} {es : List ε} :
    run step s (e :: es) = some t ↔ ∃ s', step s e = some s' ∧ run step s' es = some t := by
  simp only [run_cons, Option.bind_eq_some_iff]

theorem run_append (step : σ → ε → Option σ) (s : σ) (es fs : List ε) :
    run step s (es ++ fs) = (run step s es).bind fun s' => run step s' fs := by
  induction es generalizing s with
  | nil => rfl
  | cons e es ih =>
      simp only [List.cons_append, run_cons, Option.bind_assoc]
      congr 1
      funext s'
      exact ih s'

theorem Reachable.refl (step : σ → ε → Option σ) (s : σ) : Reachable step s s :=
  ⟨[], rfl⟩

theorem Reachable.step {step : σ → ε → Option σ} {init s s' : σ} {e : ε}
    (h : Reachable step init s) (he : step s e = some s') : Reachable step init s' := by
  obtain ⟨es, hes⟩ := h
  refine ⟨es ++ [e], ?_⟩
  simp only [run_append, hes, Option.bind_some, run_cons, he, run_nil]

/-- The invariant rule for runs whose steps all meet a condition. -/
theorem run_invariant {step : σ → ε → Option σ} {C : σ → ε → Prop} {I : σ → Prop}
    (preserved : ∀ s e s', I s → C s e → step s e = some s' → I s')
    {s t : σ} {es : List ε} (hs : I s) (hC : Along step C s es)
    (ht : run step s es = some t) : I t := by
  induction es generalizing s with
  | nil =>
      obtain rfl := Option.some.inj ht
      exact hs
  | cons e es ih =>
      obtain ⟨s', he, hrest⟩ := run_cons_eq_some.mp ht
      exact ih (preserved s e s' hs hC.1 he) (hC.2 s' he) hrest

theorem along_true (step : σ → ε → Option σ) (s : σ) (es : List ε) :
    Along step (fun _ _ => True) s es := by
  induction es generalizing s with
  | nil => trivial
  | cons e es ih => exact ⟨trivial, fun s' _ => ih s'⟩

/-- A condition on the events alone is met along a completed run exactly when
every event of it meets it. -/
theorem along_event_iff {step : σ → ε → Option σ} {C : ε → Prop} {s t : σ} {es : List ε}
    (h : run step s es = some t) : Along step (fun _ e => C e) s es ↔ ∀ e ∈ es, C e := by
  induction es generalizing s with
  | nil => simp [Along]
  | cons e es ih =>
      obtain ⟨s', he, hrest⟩ := run_cons_eq_some.mp h
      simp only [Along, he, Option.some.injEq, forall_eq', ih hrest, List.forall_mem_cons]

/-- Two conditions that agree wherever an invariant holds, which steps under them keep. -/
theorem along_iff_along {step : σ → ε → Option σ} {C D : σ → ε → Prop} {I : σ → Prop}
    (agree : ∀ s e, I s → (C s e ↔ D s e))
    (preserved : ∀ s e s', I s → C s e → step s e = some s' → I s')
    {s : σ} (hs : I s) (es : List ε) : Along step C s es ↔ Along step D s es := by
  induction es generalizing s with
  | nil => exact Iff.rfl
  | cons e es ih =>
      constructor
      · rintro ⟨hC, h⟩
        exact ⟨(agree s e hs).mp hC, fun s' he => (ih (preserved s e s' hs hC he)).mp (h s' he)⟩
      · rintro ⟨hD, h⟩
        have hC := (agree s e hs).mpr hD
        exact ⟨hC, fun s' he => (ih (preserved s e s' hs hC he)).mpr (h s' he)⟩

/-- The invariant rule for all runs. -/
theorem reachable_invariant {step : σ → ε → Option σ} {I : σ → Prop} {init : σ}
    (start : I init) (preserved : ∀ s e s', I s → step s e = some s' → I s')
    {s : σ} (h : Reachable step init s) : I s := by
  obtain ⟨es, hes⟩ := h
  exact run_invariant (C := fun _ _ => True) (fun s e s' hs _ he => preserved s e s' hs he)
    start (along_true step init es) hes

theorem Along.of_prefix {step : σ → ε → Option σ} {C : σ → ε → Prop} {s : σ}
    {es before : List ε} (h : Along step C s es) (hb : before <+: es) :
    Along step C s before := by
  induction before generalizing s es with
  | nil => trivial
  | cons e before ih =>
      obtain ⟨rest, rfl⟩ := hb
      exact ⟨h.1, fun s' he => ih (h.2 s' he) (List.prefix_append _ _)⟩

/-- A property that an invariant gives holds throughout a run whose steps all meet `C`. -/
theorem Along.throughout {step : σ → ε → Option σ} {C : σ → ε → Prop} {I P : σ → Prop}
    (enough : ∀ s, I s → P s)
    (preserved : ∀ s e s', I s → C s e → step s e = some s' → I s')
    {s : σ} {es : List ε} (hs : I s) (hC : Along step C s es) : Throughout step P s es :=
  fun _ hb s' hs' => enough s' (run_invariant preserved hs (hC.of_prefix hb) hs')

theorem throughout_nil {step : σ → ε → Option σ} {P : σ → Prop} {s : σ} :
    Throughout step P s [] ↔ P s := by
  constructor
  · intro h
    exact h [] List.prefix_rfl s rfl
  · intro h before hb s' hs'
    obtain rfl := List.prefix_nil.mp hb
    obtain rfl := Option.some.inj hs'
    exact h

theorem throughout_cons {step : σ → ε → Option σ} {P : σ → Prop} {s : σ} {e : ε} {es : List ε} :
    Throughout step P s (e :: es) ↔
      P s ∧ ∀ s', step s e = some s' → Throughout step P s' es := by
  constructor
  · intro h
    refine ⟨h [] List.nil_prefix s rfl, ?_⟩
    intro s' he before hb t ht
    exact h (e :: before) (List.cons_prefix_cons.mpr ⟨rfl, hb⟩) t
      (run_cons_eq_some.mpr ⟨s', he, ht⟩)
  · rintro ⟨h0, h1⟩ before hb t ht
    cases before with
    | nil =>
        obtain rfl := Option.some.inj ht
        exact h0
    | cons e' before =>
        obtain ⟨rfl, hb'⟩ := List.cons_prefix_cons.mp hb
        obtain ⟨s', he, hrest⟩ := run_cons_eq_some.mp ht
        exact h1 s' he before hb' t hrest

/-- A property that an invariant keeps exactly while the steps meet `C` holds
throughout a run if and only if all of its steps meet `C`. -/
theorem throughout_iff_along {step : σ → ε → Option σ} {C : σ → ε → Prop} {I P : σ → Prop}
    (enough : ∀ s, I s → P s)
    (preserved : ∀ s e s', I s → C s e → step s e = some s' → I s')
    (broken : ∀ s e, I s → ¬ C s e → ∃ s', step s e = some s' ∧ ¬ P s')
    {s : σ} (hs : I s) (es : List ε) : Throughout step P s es ↔ Along step C s es := by
  induction es generalizing s with
  | nil => exact ⟨fun _ => trivial, fun _ => throughout_nil.mpr (enough s hs)⟩
  | cons e es ih =>
      rw [throughout_cons]
      constructor
      · rintro ⟨_, h⟩
        have hC : C s e := by
          by_contra hC
          obtain ⟨s', he, hP⟩ := broken s e hs hC
          exact hP (h s' he [] List.nil_prefix s' rfl)
        exact ⟨hC, fun s' he => (ih (preserved s e s' hs hC he)).mp (h s' he)⟩
      · rintro ⟨hC, h⟩
        exact ⟨enough s hs, fun s' he => (ih (preserved s e s' hs hC he)).mpr (h s' he)⟩

end EventSystem
