import Mathlib.Data.List.Nodup
import FeS2.Library.EventSystem

/-!
An agenda of timed wake-ups. A waiter inserted with a delay is due that many ticks
later, a tick is possible only when nothing due is left, and of the waiters due now the
one inserted first is delivered first. What a run of the agenda has done is said on its
acts alone: every insertion is answered once, on time and in order.
-/

universe u

structure Agenda (ω : Type u) where
  now : Nat
  pending : List (ω × Nat)

namespace Agenda
open EventSystem
variable {ω : Type u}

inductive Act (ω : Type u)
  | insert (w : ω) (delay : Nat)
  | remove (w : ω)
  | deliver (w : ω)
  | tick
  deriving DecidableEq

def empty : Agenda ω := { now := 0, pending := [] }

def Act.waiter? : Act ω → Option ω
  | .insert w _ | .remove w | .deliver w => some w
  | .tick => none

def ticks (acts : List (Act ω)) : Nat :=
  acts.countP fun
    | .tick => true
    | _ => false

theorem ticks_append (xs ys : List (Act ω)) : ticks (xs ++ ys) = ticks xs + ticks ys :=
  List.countP_append

theorem ticks_cons (x : Act ω) (xs : List (Act ω)) : ticks (x :: xs) = ticks [x] + ticks xs :=
  ticks_append [x] xs

/-- No act is about the waiter. -/
def Untouched (w : ω) (acts : List (Act ω)) : Prop := ∀ x ∈ acts, x.waiter? ≠ some w

variable [DecidableEq ω]

def step (a : Agenda ω) : Act ω → Option (Agenda ω)
  | .insert w delay =>
      if 0 < delay ∧ w ∉ a.pending.map Prod.fst then
        some { a with pending := a.pending ++ [(w, a.now + delay)] }
      else none
  | .remove w => some { a with pending := a.pending.filter (·.1 ≠ w) }
  | .deliver w =>
      if a.pending.find? (·.2 = a.now) = some (w, a.now) then
        some { a with pending := a.pending.filter (·.1 ≠ w) }
      else none
  | .tick => if ∀ p ∈ a.pending, a.now < p.2 then some { a with now := a.now + 1 } else none

/-- What has become of an insertion `delay` ticks after which the waiter is due, `after` being
the acts since then: it has been delivered on time, or taken back no later than that, or it is
still waiting and not yet overdue. -/
def Answered (w : ω) (delay : Nat) (settled : Prop) (after : List (Act ω)) : Prop :=
  (∃ mid rest, after = mid ++ .deliver w :: rest ∧ Untouched w mid ∧ ticks mid = delay) ∨
  (∃ mid rest, after = mid ++ .remove w :: rest ∧ Untouched w mid ∧ ticks mid ≤ delay) ∨
  (Untouched w after ∧ ticks after ≤ delay ∧ (settled → ticks after < delay))

structure Delivered (acts : List (Act ω)) (settled : Prop) : Prop where
  answered : ∀ before w delay after, acts = before ++ .insert w delay :: after →
    Answered w delay settled after
  inserted : ∀ before w after, acts = before ++ .deliver w :: after →
    ∃ earlier delay mid, before = earlier ++ .insert w delay :: mid ∧ Untouched w mid ∧
      ticks mid = delay
  ordered : ∀ before w delay mid w' delay' last after,
    acts = before ++ .insert w delay :: mid ++ .insert w' delay' :: last ++ .deliver w' :: after →
      ticks mid + delay' = delay → Untouched w' last →
        ¬ Untouched w (mid ++ .insert w' delay' :: last)

/-! Runs -/

structure Valid (a : Agenda ω) : Prop where
  unique : (a.pending.map Prod.fst).Nodup
  due : ∀ p ∈ a.pending, a.now ≤ p.2

theorem step_now {a a' : Agenda ω} {x : Act ω} (h : step a x = some a') :
    a'.now = a.now + ticks [x] := by
  cases x with
  | insert w delay | deliver w | tick =>
      rw [step, Option.ite_none_right_eq_some] at h
      obtain rfl := Option.some.inj h.2
      rfl
  | remove w =>
      obtain rfl := Option.some.inj h
      rfl

theorem run_now {a a' : Agenda ω} {acts : List (Act ω)} (h : run step a acts = some a') :
    a'.now = a.now + ticks acts := by
  induction acts generalizing a with
  | nil =>
      obtain rfl := Option.some.inj h
      rfl
  | cons x acts ih =>
      obtain ⟨b, hx, hrest⟩ := run_cons_eq_some.mp h
      rw [ih hrest, step_now hx, ticks_cons x acts, Nat.add_assoc]

theorem Valid.step {a a' : Agenda ω} {x : Act ω} (hv : Valid a) (h : step a x = some a') :
    Valid a' := by
  cases x with
  | insert w delay =>
      rw [Agenda.step, Option.ite_none_right_eq_some] at h
      obtain ⟨⟨hdelay, hw⟩, h⟩ := h
      obtain rfl := Option.some.inj h
      constructor
      · rw [List.map_append, List.nodup_append]
        refine ⟨hv.unique, List.nodup_singleton w, fun y hy z hz hyz => ?_⟩
        have hzw : z = w := List.mem_singleton.mp hz
        exact hw (hzw ▸ hyz ▸ hy)
      · intro p hp
        rcases List.mem_append.mp hp with hp | hp
        · exact hv.due p hp
        · rw [List.mem_singleton.mp hp]
          exact Nat.le_add_right a.now delay
  | remove w =>
      obtain rfl := Option.some.inj h
      exact ⟨hv.unique.sublist (List.filter_sublist.map Prod.fst),
        fun p hp => hv.due p (List.mem_of_mem_filter hp)⟩
  | deliver w =>
      rw [Agenda.step, Option.ite_none_right_eq_some] at h
      obtain rfl := Option.some.inj h.2
      exact ⟨hv.unique.sublist (List.filter_sublist.map Prod.fst),
        fun p hp => hv.due p (List.mem_of_mem_filter hp)⟩
  | tick =>
      rw [Agenda.step, Option.ite_none_right_eq_some] at h
      obtain rfl := Option.some.inj h.2
      exact ⟨hv.unique, h.1⟩

theorem Valid.run {a a' : Agenda ω} {acts : List (Act ω)} (hv : Valid a)
    (h : EventSystem.run Agenda.step a acts = some a') : Valid a' := by
  induction acts generalizing a with
  | nil =>
      obtain rfl := Option.some.inj h
      exact hv
  | cons x acts ih =>
      obtain ⟨b, hx, hrest⟩ := run_cons_eq_some.mp h
      exact ih (hv.step hx) hrest

/-- Where the entries after an act come from. -/
theorem mem_step {a a' : Agenda ω} {x : Act ω} {w : ω} {t : Nat} (h : step a x = some a')
    (hw : (w, t) ∈ a'.pending) :
    (∃ delay, x = .insert w delay ∧ t = a.now + delay) ∨
      (w, t) ∈ a.pending ∧ x.waiter? ≠ some w := by
  cases x with
  | insert v delay =>
      rw [step, Option.ite_none_right_eq_some] at h
      obtain ⟨⟨-, hv⟩, h⟩ := h
      obtain rfl := Option.some.inj h
      rcases List.mem_append.mp hw with hw | hw
      · refine .inr ⟨hw, fun hvw => hv ?_⟩
        rw [Option.some.inj hvw]
        exact List.mem_map_of_mem hw
      · obtain ⟨rfl, rfl⟩ := Prod.mk.inj (List.mem_singleton.mp hw)
        exact .inl ⟨delay, rfl, rfl⟩
  | remove v =>
      obtain rfl := Option.some.inj h
      obtain ⟨hw, hne⟩ := List.mem_filter.mp hw
      exact .inr ⟨hw, fun hvw => (of_decide_eq_true hne) (Option.some.inj hvw).symm⟩
  | deliver v =>
      rw [step, Option.ite_none_right_eq_some] at h
      obtain rfl := Option.some.inj h.2
      obtain ⟨hw, hne⟩ := List.mem_filter.mp hw
      exact .inr ⟨hw, fun hvw => (of_decide_eq_true hne) (Option.some.inj hvw).symm⟩
  | tick =>
      rw [step, Option.ite_none_right_eq_some] at h
      obtain rfl := Option.some.inj h.2
      exact .inr ⟨hw, nofun⟩

/-- Entries that no act is about stay, in their order. -/
theorem step_sublist {a a' : Agenda ω} {x : Act ω} {ps : List (ω × Nat)} (h : step a x = some a')
    (hps : ps.Sublist a.pending) (hx : ∀ p ∈ ps, x.waiter? ≠ some p.1) :
    ps.Sublist a'.pending := by
  have hfilter : ∀ v, (∀ p ∈ ps, some v ≠ some p.1) →
      ps.Sublist (a.pending.filter (·.1 ≠ v)) := by
    intro v hv
    have hself : ps.filter (·.1 ≠ v) = ps := by
      refine List.filter_eq_self.mpr fun p hp => decide_eq_true fun heq => ?_
      exact hv p hp (congrArg some heq.symm)
    rw [← hself]
    exact hps.filter _
  cases x with
  | insert v delay =>
      rw [step, Option.ite_none_right_eq_some] at h
      obtain rfl := Option.some.inj h.2
      exact hps.trans (List.sublist_append_left _ _)
  | remove v =>
      obtain rfl := Option.some.inj h
      exact hfilter v hx
  | deliver v =>
      rw [step, Option.ite_none_right_eq_some] at h
      obtain rfl := Option.some.inj h.2
      exact hfilter v hx
  | tick =>
      rw [step, Option.ite_none_right_eq_some] at h
      obtain rfl := Option.some.inj h.2
      exact hps

theorem run_sublist {a a' : Agenda ω} {acts : List (Act ω)} {ps : List (ω × Nat)}
    (h : run step a acts = some a') (hps : ps.Sublist a.pending)
    (hacts : ∀ p ∈ ps, Untouched p.1 acts) : ps.Sublist a'.pending := by
  induction acts generalizing a with
  | nil =>
      obtain rfl := Option.some.inj h
      exact hps
  | cons x acts ih =>
      obtain ⟨b, hx, hrest⟩ := run_cons_eq_some.mp h
      refine ih hrest (step_sublist hx hps fun p hp => hacts p hp x List.mem_cons_self) ?_
      exact fun p hp y hy => hacts p hp y (List.mem_cons_of_mem x hy)

/-- Where the entries after a run come from. -/
theorem mem_run {a a' : Agenda ω} {acts : List (Act ω)} {w : ω} {t : Nat}
    (h : run step a acts = some a') (hw : (w, t) ∈ a'.pending) :
    (w, t) ∈ a.pending ∨ ∃ earlier delay mid, acts = earlier ++ .insert w delay :: mid ∧
      Untouched w mid ∧ t = a.now + ticks earlier + delay := by
  induction acts using List.reverseRecOn generalizing a' with
  | nil =>
      obtain rfl := Option.some.inj h
      exact .inl hw
  | append_singleton acts x ih =>
      rw [run_append, Option.bind_eq_some_iff] at h
      obtain ⟨b, hb, hx⟩ := h
      obtain ⟨b', hx', hend⟩ := run_cons_eq_some.mp hx
      obtain rfl := Option.some.inj hend
      rcases mem_step hx' hw with ⟨delay, rfl, ht⟩ | ⟨hw, hxw⟩
      · refine .inr ⟨acts, delay, [], rfl, by simp [Untouched], ?_⟩
        rw [ht, run_now hb]
      · refine (ih hb hw).imp_right fun ⟨earlier, delay, mid, hacts, hmid, ht⟩ => ?_
        refine ⟨earlier, delay, mid ++ [x], by simp [hacts], fun y hy => ?_, ht⟩
        rcases List.mem_append.mp hy with hy | hy
        · exact hmid y hy
        · exact List.mem_singleton.mp hy ▸ hxw

/-- What becomes of an entry in a run. -/
theorem answered_run {a a' : Agenda ω} {acts : List (Act ω)} {w : ω} {t : Nat} (hv : Valid a)
    (hw : (w, t) ∈ a.pending) (h : run step a acts = some a') :
    (∃ mid rest, acts = mid ++ .deliver w :: rest ∧ Untouched w mid ∧ a.now + ticks mid = t) ∨
    (∃ mid rest, acts = mid ++ .remove w :: rest ∧ Untouched w mid ∧ a.now + ticks mid ≤ t) ∨
    (Untouched w acts ∧ (w, t) ∈ a'.pending) := by
  induction acts generalizing a with
  | nil =>
      obtain rfl := Option.some.inj h
      exact .inr (.inr ⟨by simp [Untouched], hw⟩)
  | cons x acts ih =>
      obtain ⟨b, hx, hrest⟩ := run_cons_eq_some.mp h
      by_cases hxw : x.waiter? = some w
      · cases x with
        | insert v delay =>
            rw [step, Option.ite_none_right_eq_some] at hx
            obtain rfl := Option.some.inj hxw
            exact absurd (List.mem_map_of_mem hw) hx.1.2
        | remove v =>
            obtain rfl := Option.some.inj hxw
            exact .inr (.inl ⟨[], acts, rfl, by simp [Untouched], hv.due _ hw⟩)
        | deliver v =>
            rw [step, Option.ite_none_right_eq_some] at hx
            obtain rfl := Option.some.inj hxw
            have hnow := List.mem_of_find?_eq_some hx.1
            have ht := List.inj_on_of_nodup_map hv.unique hw hnow rfl
            exact .inl ⟨[], acts, rfl, by simp [Untouched], (congrArg Prod.snd ht).symm⟩
        | tick => cases hxw
      · have hwb : (w, t) ∈ b.pending :=
          List.singleton_sublist.mp (step_sublist hx (List.singleton_sublist.mpr hw)
            (fun p hp => List.mem_singleton.mp hp ▸ hxw))
        have hnow := step_now hx
        have hcons : ∀ mid, Untouched w mid → Untouched w (x :: mid) := fun mid hmid =>
          List.forall_mem_cons.mpr ⟨hxw, hmid⟩
        have hticks : ∀ mid, a.now + ticks (x :: mid) = b.now + ticks mid := fun mid => by
          rw [hnow, ticks_cons, Nat.add_assoc]
        rcases ih (hv.step hx) hwb hrest with ⟨mid, rest, rfl, hmid, ht⟩ | ⟨mid, rest, rfl, hmid,
          ht⟩ |
          ⟨hacts, hmem⟩
        · exact .inl ⟨x :: mid, rest, rfl, hcons mid hmid, (hticks mid).trans ht⟩
        · exact .inr (.inl ⟨x :: mid, rest, rfl, hcons mid hmid, (hticks mid).trans_le ht⟩)
        · exact .inr (.inr ⟨hcons acts hacts, hmem⟩)

omit [DecidableEq ω] in
/-- A search does not get past an entry to a later one. -/
theorem find?_ne_of_sublist {l : List (ω × Nat)} {p q : ω × Nat} {f : ω × Nat → Bool}
    (hl : l.Nodup) (h : [p, q].Sublist l) (hp : f p = true) : l.find? f ≠ some q := by
  induction l with
  | nil => cases h
  | cons x l ih =>
      rw [List.nodup_cons] at hl
      cases h with
      | cons _ h =>
          by_cases hx : f x = true
          · rw [List.find?_cons_of_pos hx]
            rintro heq
            obtain rfl := Option.some.inj heq
            exact hl.1 (h.subset (List.mem_cons_of_mem p List.mem_cons_self))
          · rw [List.find?_cons_of_neg hx]
            exact ih hl.2 h
      | cons_cons _ h =>
          rw [List.find?_cons_of_pos hp]
          rintro heq
          obtain rfl := Option.some.inj heq
          exact hl.1 (List.singleton_sublist.mp h)

theorem run_split {a a' : Agenda ω} {before after : List (Act ω)} {x : Act ω}
    (h : run step a (before ++ x :: after) = some a') :
    ∃ b c, run step a before = some b ∧ step b x = some c ∧ run step c after = some a' := by
  rw [run_append, Option.bind_eq_some_iff] at h
  obtain ⟨b, hb, hrest⟩ := h
  obtain ⟨c, hx, hafter⟩ := run_cons_eq_some.mp hrest
  exact ⟨b, c, hb, hx, hafter⟩

/-- Every run from the empty agenda delivers on time and in order. -/
theorem delivered {a : Agenda ω} {acts : List (Act ω)} {settled : Prop}
    (h : run step empty acts = some a) (hsettled : settled → ∀ p ∈ a.pending, a.now < p.2) :
    Delivered acts settled := by
  have hvalid : Valid (empty : Agenda ω) := ⟨List.nodup_nil, fun p hp => by cases hp⟩
  constructor
  · rintro before w delay after rfl
    obtain ⟨b, c, hb, hx, hafter⟩ := run_split h
    have hvb := hvalid.run hb
    have hvc := hvb.step hx
    rw [step, Option.ite_none_right_eq_some] at hx
    obtain rfl := Option.some.inj hx.2
    have hmem : (w, b.now + delay) ∈ b.pending ++ [(w, b.now + delay)] := List.mem_concat_self
    rcases answered_run hvc hmem hafter with ⟨mid, rest, hacts, hmid, ht⟩ |
      ⟨mid, rest, hacts, hmid, ht⟩ | ⟨hacts, hlast⟩
    · exact .inl ⟨mid, rest, hacts, hmid, Nat.add_left_cancel ht⟩
    · exact .inr (.inl ⟨mid, rest, hacts, hmid, Nat.le_of_add_le_add_left ht⟩)
    · have hnow := run_now hafter
      have hdue := (hvc.run hafter).due _ hlast
      refine .inr (.inr ⟨hacts, ?_, fun hs => ?_⟩)
      · dsimp only at hnow hdue
        omega
      · have hlater := hsettled hs _ hlast
        dsimp only at hnow hlater
        omega
  · rintro before w after rfl
    obtain ⟨b, c, hb, hx, -⟩ := run_split h
    rw [step, Option.ite_none_right_eq_some] at hx
    rcases mem_run hb (List.mem_of_find?_eq_some hx.1) with hmem | ⟨earlier, delay, mid, hacts,
      hmid, ht⟩
    · cases hmem
    · refine ⟨earlier, delay, mid, hacts, hmid, ?_⟩
      have hnow := run_now hb
      have htick : ticks [Act.insert w delay] = 0 := rfl
      rw [hacts, ticks_append, ticks_cons, htick] at hnow
      omega
  · rintro before w delay mid w' delay' last after rfl hdue hlast hmid
    rw [List.append_assoc, List.append_assoc] at h
    obtain ⟨b, c, hb, hx, h⟩ := run_split h
    obtain ⟨d, e, hd, hx', h⟩ := run_split h
    obtain ⟨f, g, hf, hx'', -⟩ := run_split h
    have hvd := ((hvalid.run hb).step hx).run hd
    have hvf := (hvd.step hx').run hf
    have hnow := run_now hd
    rw [step, Option.ite_none_right_eq_some] at hx
    rw [step, Option.ite_none_right_eq_some] at hx'
    rw [step, Option.ite_none_right_eq_some] at hx''
    obtain rfl := Option.some.inj hx.2
    obtain rfl := Option.some.inj hx'.2
    have hsame : d.now + delay' = b.now + delay := by
      dsimp only at hnow
      omega
    rw [hsame] at hf
    have hw : Untouched w mid := fun y hy => hmid y (List.mem_append_left _ hy)
    have hw' : Untouched w last := fun y hy =>
      hmid y (List.mem_append_right mid (List.mem_cons_of_mem _ hy))
    have hfirst : [(w, b.now + delay)].Sublist d.pending :=
      run_sublist hd (List.singleton_sublist.mpr List.mem_concat_self)
        (fun p hp => List.mem_singleton.mp hp ▸ hw)
    have hboth : [(w, b.now + delay), (w', b.now + delay)].Sublist f.pending := by
      refine run_sublist hf (hfirst.append (List.Sublist.refl [(w', b.now + delay)])) ?_
      intro p hp
      rcases List.mem_cons.mp hp with rfl | hp
      · exact hw'
      · exact List.mem_singleton.mp hp ▸ hlast
    have hdue' : (w', f.now) = (w', b.now + delay) :=
      List.inj_on_of_nodup_map hvf.unique (List.mem_of_find?_eq_some hx''.1)
        (hboth.subset (List.mem_cons_of_mem _ List.mem_cons_self)) rfl
    have hfind := hx''.1
    rw [hdue'] at hfind
    refine find?_ne_of_sublist hvf.unique.of_map hboth (decide_eq_true ?_) hfind
    exact (congrArg Prod.snd hdue').symm

end Agenda
