import Mathlib.Data.Multiset.AddSub
import Mathlib.Data.Finset.Erase
import Mathlib.Data.Finset.Insert

/-!
An unordered network is the multiset of its messages: any of them may be the
next one delivered. `Carries net P` says that the messages in flight are those
of `P`, each of them once, so a delivery or a send is an equivalence on `P`.
-/

namespace Network
universe u v
variable {M : Type u} {α : Type v} {net net' : Multiset M} {P Q : M → Prop} {m : M}

def Carries (net : Multiset M) (P : M → Prop) : Prop :=
  net.Nodup ∧ ∀ m, m ∈ net ↔ P m

theorem carries_zero : Carries (0 : Multiset M) fun _ => False :=
  ⟨Multiset.nodup_zero, fun m => by simp⟩

theorem carries_singleton (m : M) : Carries {m} fun x => x = m :=
  ⟨Multiset.nodup_singleton m, fun _ => Multiset.mem_singleton⟩

theorem Carries.congr (h : Carries net P) (hpq : ∀ m, P m ↔ Q m) : Carries net Q :=
  ⟨h.1, fun m => (h.2 m).trans (hpq m)⟩

theorem Carries.mem (h : Carries net P) (hm : m ∈ net) : P m := (h.2 m).mp hm

/-- A message leaves the network. -/
theorem Carries.receive [DecidableEq M] (h : Carries net P) (m : M) :
    Carries (net.erase m) fun x => P x ∧ x ≠ m := by
  refine ⟨h.1.erase m, fun x => ?_⟩
  rw [h.1.mem_erase_iff, h.2 x, and_comm]

/-- A message that is not in flight is sent. -/
theorem Carries.send (h : Carries net P) (hm : ¬ P m) :
    Carries (m ::ₘ net) fun x => x = m ∨ P x := by
  refine ⟨Multiset.nodup_cons.mpr ⟨fun hmem => hm (h.mem hmem), h.1⟩, fun x => ?_⟩
  rw [Multiset.mem_cons, h.2 x]

/-- A send on one side of the traffic. -/
theorem Carries.send_right {W : M → Prop} (h : Carries net fun x => W x ∨ P x) (hW : ¬ W m)
    (hP : ¬ P m) (hQ : ∀ x, Q x ↔ x = m ∨ P x) : Carries (m ::ₘ net) fun x => W x ∨ Q x := by
  refine (h.send (not_or.mpr ⟨hW, hP⟩)).congr fun x => ?_
  rw [hQ, or_left_comm]

/-- A delivery on one side of the traffic. -/
theorem Carries.receive_right [DecidableEq M] {W : M → Prop}
    (h : Carries net fun x => W x ∨ P x) (hW : ¬ W m) (hQ : ∀ x, P x ∧ x ≠ m ↔ Q x) :
    Carries (net.erase m) fun x => W x ∨ Q x := by
  refine (h.receive m).congr fun x => ?_
  rw [or_and_right, hQ]
  refine or_congr_left (and_iff_left_of_imp fun hx heq => hW ?_)
  rwa [← heq]

theorem Carries.add (h : Carries net P) (h' : Carries net' Q) (hdisj : ∀ m, P m → ¬ Q m) :
    Carries (net + net') fun x => P x ∨ Q x := by
  refine ⟨?_, fun x => ?_⟩
  · rw [Multiset.nodup_add]
    refine ⟨h.1, h'.1, Multiset.disjoint_left.mpr fun hx hx' => ?_⟩
    exact hdisj _ (h.mem hx) (h'.mem hx')
  · rw [Multiset.mem_add, h.2 x, h'.2 x]

/-- One message to each member of a set of destinations. -/
theorem carries_multicast {f : α → M} (hf : Function.Injective f) (s : Finset α) :
    Carries (s.val.map f) fun x => ∃ a ∈ s, x = f a := by
  refine ⟨(Multiset.nodup_map_iff_of_injective hf).mpr s.nodup, fun x => ?_⟩
  rw [Multiset.mem_map]
  constructor
  · rintro ⟨a, ha, rfl⟩
    exact ⟨a, ha, rfl⟩
  · rintro ⟨a, ha, rfl⟩
    exact ⟨a, ha, rfl⟩

end Network
