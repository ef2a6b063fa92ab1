import Mathlib.Order.WellFounded
import FeS2.Library.EventSystem

/-!
Runs that settle. Steps that lower a count bound the runs that take only them,
and where a state that is not done can be left downwards, some run ends in one
that is.
-/

namespace EventSystem
universe u v
variable {σ : Type u} {ε : Type v} {step : σ → ε → Option σ} {I done : σ → Prop} {A : ε → Prop}

theorem run_length_le {weight : σ → Nat}
    (lowers : ∀ s e s', I s → A e → step s e = some s' → I s' ∧ weight s' < weight s)
    {s t : σ} {es : List ε} (hs : I s) (hA : ∀ e ∈ es, A e) (h : run step s es = some t) :
    es.length ≤ weight s := by
  induction es generalizing s with
  | nil => exact Nat.zero_le _
  | cons e es ih =>
      obtain ⟨s', he, hrest⟩ := run_cons_eq_some.mp h
      obtain ⟨hs', hlt⟩ := lowers s e s' hs (hA e List.mem_cons_self) he
      have hle := ih hs' (fun e he => hA e (List.mem_cons_of_mem _ he)) hrest
      exact Nat.succ_le_of_lt (Nat.lt_of_le_of_lt hle hlt)

theorem settles {r : σ → σ → Prop} (wf : WellFounded r)
    (progress : ∀ s, I s → done s ∨ ∃ e s', A e ∧ step s e = some s' ∧ I s' ∧ r s' s)
    {s : σ} (hs : I s) :
    ∃ es t, (∀ e ∈ es, A e) ∧ run step s es = some t ∧ I t ∧ done t := by
  induction s using wf.induction with
  | _ s ih =>
      rcases progress s hs with hdone | ⟨e, s', hA, he, hs', hr⟩
      · exact ⟨[], s, fun e he => absurd he List.not_mem_nil, rfl, hs, hdone⟩
      · obtain ⟨es, t, hAs, hrun, ht, hdone⟩ := ih s' hr hs'
        refine ⟨e :: es, t, fun x hx => ?_, run_cons_eq_some.mpr ⟨s', he, hrun⟩, ht, hdone⟩
        rcases List.mem_cons.mp hx with rfl | hx
        · exact hA
        · exact hAs x hx

end EventSystem
