import Mathlib.Init

/-!
Lists of actions that may fail. A list that succeeds has succeeded action by action,
and what every action keeps, the list keeps.
-/

namespace ExceptRun
universe u v w
variable {σ : Type u} {α : Type v} {ε : Type w}

theorem bind_eq_ok {β : Type u} {x : Except ε σ} {f : σ → Except ε β} {r : β} :
    (x >>= f) = .ok r ↔ ∃ s, x = .ok s ∧ f s = .ok r := by
  cases x with
  | error e => exact ⟨fun h => (nomatch h), fun ⟨_, h, _⟩ => (nomatch h)⟩
  | ok s => exact ⟨fun h => ⟨s, rfl, h⟩, fun ⟨_, h, hf⟩ => Except.ok.inj h ▸ hf⟩

theorem bind_eq_error {β : Type u} {x : Except ε σ} {f : σ → Except ε β} {e : ε} :
    (x >>= f) = .error e ↔ x = .error e ∨ ∃ s, x = .ok s ∧ f s = .error e := by
  cases x with
  | error e' =>
      refine ⟨fun h => .inl (Except.error.inj h ▸ rfl), ?_⟩
      rintro (h | ⟨_, h, _⟩)
      · exact Except.error.inj h ▸ rfl
      · cases h
  | ok s =>
      refine ⟨fun h => .inr ⟨s, rfl, h⟩, ?_⟩
      rintro (h | ⟨_, h, hf⟩)
      · cases h
      · exact Except.ok.inj h ▸ hf

variable {f : σ → α → Except ε σ} {s t : σ} {a : α} {as bs : List α} {e : ε}

theorem foldlM_nil_ok : ([] : List α).foldlM f s = .ok t ↔ s = t :=
  ⟨fun h => Except.ok.inj h, fun h => h ▸ rfl⟩

theorem foldlM_cons_ok :
    (a :: as).foldlM f s = .ok t ↔ ∃ s', f s a = .ok s' ∧ as.foldlM f s' = .ok t := by
  rw [List.foldlM_cons, bind_eq_ok]

theorem foldlM_cons_error :
    (a :: as).foldlM f s = .error e ↔
      f s a = .error e ∨ ∃ s', f s a = .ok s' ∧ as.foldlM f s' = .error e := by
  rw [List.foldlM_cons, bind_eq_error]

/-- The invariant rule for lists of actions. The invariant may say what is still to come. -/
theorem foldlM_invariant {I : List α → σ → Prop}
    (preserved : ∀ a as s s', I (a :: as) s → f s a = .ok s' → I as s')
    (hs : I as s) (h : as.foldlM f s = .ok t) : I [] t := by
  induction as generalizing s with
  | nil => exact foldlM_nil_ok.mp h ▸ hs
  | cons a as ih =>
      obtain ⟨s', ha, hrest⟩ := foldlM_cons_ok.mp h
      exact ih (preserved a as s s' hs ha) hrest

/-- A list of actions none of which fails where the invariant holds does not fail. -/
theorem foldlM_total {I : σ → Prop} (preserved : ∀ a ∈ as, ∀ s, I s → ∃ s', f s a = .ok s' ∧ I s')
    (hs : I s) : ∃ t, as.foldlM f s = .ok t ∧ I t := by
  induction as generalizing s with
  | nil => exact ⟨s, rfl, hs⟩
  | cons a as ih =>
      obtain ⟨s', ha, hs'⟩ := preserved a (List.mem_cons_self ..) s hs
      obtain ⟨t, hrest, ht⟩ := ih (fun a ha => preserved a (List.mem_cons_of_mem _ ha)) hs'
      exact ⟨t, foldlM_cons_ok.mpr ⟨s', ha, hrest⟩, ht⟩

/-- A failure of a list is one of its actions', in a state that the invariant holds of. -/
theorem foldlM_error {I : List α → σ → Prop}
    (preserved : ∀ a as s s', I (a :: as) s → f s a = .ok s' → I as s')
    (hs : I as s) (h : as.foldlM f s = .error e) : ∃ a as s, I (a :: as) s ∧ f s a = .error e := by
  induction as generalizing s with
  | nil => cases h
  | cons a as ih =>
      rcases foldlM_cons_error.mp h with ha | ⟨s', ha, hrest⟩
      · exact ⟨a, as, s, hs, ha⟩
      · exact ih (preserved a as s s' hs ha) hrest

end ExceptRun
