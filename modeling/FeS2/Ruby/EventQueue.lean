import Mathlib.Data.List.Basic
import Mathlib.Order.Nat

/-!
The event queue. A wake-up that is asked for the time its consumer was last
scheduled for is redundant; that is right because such a wake-up, when it is
still to come, is in the heap.
-/

namespace FeS2.Ruby

structure EventQueue (Consumer : Type) where
  globalTime : Nat
  heap : List (Consumer × Nat)
  lastScheduledWakeup : Consumer → Nat
  later : ∀ e ∈ heap, globalTime ≤ e.2
  last_mem : ∀ c, globalTime < lastScheduledWakeup c → (c, lastScheduledWakeup c) ∈ heap

namespace EventQueue
variable {Consumer : Type}

def init : EventQueue Consumer where
  globalTime := 1
  heap := []
  lastScheduledWakeup _ := 0
  later := by simp
  last_mem := by simp

variable [DecidableEq Consumer]

/-- `none` is the assertion that the time is still to come. -/
def scheduleEventAbsolute (c : Consumer) (timeAbs : Nat) (q : EventQueue Consumer) :
    Option (EventQueue Consumer) :=
  if q.lastScheduledWakeup c ≠ timeAbs then
    if h : q.globalTime < timeAbs then
      some
        { globalTime := q.globalTime
          heap := (c, timeAbs) :: q.heap
          lastScheduledWakeup := Function.update q.lastScheduledWakeup c timeAbs
          later := fun e he => by
            rcases List.mem_cons.mp he with rfl | he
            · exact h.le
            · exact q.later e he
          last_mem := fun d hd => by
            by_cases hdc : d = c
            · subst hdc
              rw [Function.update_self]
              exact List.mem_cons_self
            · rw [Function.update_of_ne hdc] at hd ⊢
              exact List.mem_cons_of_mem _ (q.last_mem d hd) }
    else none
  else some q

def scheduleEvent (c : Consumer) (timeDelta : Nat) (q : EventQueue Consumer) :
    Option (EventQueue Consumer) :=
  q.scheduleEventAbsolute c (timeDelta + q.globalTime)

/-- One turn of the loop of `triggerEvents`, for the least node of the heap. -/
def extractMin (e : Consumer × Nat) (q : EventQueue Consumer)
    (hmin : ∀ x ∈ q.heap, e.2 ≤ x.2) (hmem : e ∈ q.heap) : EventQueue Consumer where
  globalTime := e.2
  heap := q.heap.erase e
  lastScheduledWakeup := q.lastScheduledWakeup
  later := fun x hx => hmin x (List.mem_of_mem_erase hx)
  last_mem := fun c hc => by
    have hin := q.last_mem c ((q.later e hmem).trans_lt hc)
    exact (List.mem_erase_of_ne fun h => hc.ne' (congrArg Prod.snd h)).mpr hin

/-- The end of `triggerEvents`: nothing up to `t` is left in the heap. -/
def advance (t : Nat) (q : EventQueue Consumer) (hle : q.globalTime ≤ t)
    (hdone : ∀ x ∈ q.heap, t < x.2) : EventQueue Consumer where
  globalTime := t
  heap := q.heap
  lastScheduledWakeup := q.lastScheduledWakeup
  later := fun x hx => (hdone x hx).le
  last_mem := fun c hc => q.last_mem c (hle.trans_lt hc)

/-- Wake-ups are added, and it is the same time. -/
structure Extends (q q' : EventQueue Consumer) : Prop where
  globalTime_eq : q'.globalTime = q.globalTime
  heap_sub : ∀ e ∈ q.heap, e ∈ q'.heap

omit [DecidableEq Consumer] in
theorem Extends.refl (q : EventQueue Consumer) : q.Extends q := ⟨rfl, fun _ he => he⟩

omit [DecidableEq Consumer] in
theorem Extends.trans {q q' q'' : EventQueue Consumer} (h : q.Extends q') (h' : q'.Extends q'') :
    q.Extends q'' :=
  ⟨h'.globalTime_eq.trans h.globalTime_eq, fun e he => h'.heap_sub e (h.heap_sub e he)⟩

/-- The consumer is to be woken in the next cycle. -/
def Next (c : Consumer) (q : EventQueue Consumer) : Prop := (c, q.globalTime + 1) ∈ q.heap

omit [DecidableEq Consumer] in
theorem Next.mono {c : Consumer} {q q' : EventQueue Consumer} (hc : q.Next c) (h : q.Extends q') :
    q'.Next c := by
  rw [Next, h.globalTime_eq]
  exact h.heap_sub _ hc

theorem scheduleEventAbsolute_extends {c : Consumer} {timeAbs : Nat} {q q' : EventQueue Consumer}
    (h : q.scheduleEventAbsolute c timeAbs = some q') : q.Extends q' := by
  rw [scheduleEventAbsolute] at h
  split at h
  · split at h
    · cases h
      exact ⟨rfl, fun _ he => List.mem_cons_of_mem _ he⟩
    · cases h
  · cases h
    exact .refl q

theorem scheduleEventAbsolute_mem (c : Consumer) {timeAbs : Nat} {q : EventQueue Consumer}
    (hlt : q.globalTime < timeAbs) :
    ∃ q', q.scheduleEventAbsolute c timeAbs = some q' ∧ (c, timeAbs) ∈ q'.heap := by
  rw [scheduleEventAbsolute]
  split
  · exact ⟨_, rfl, List.mem_cons_self⟩
  · rename_i hlast
    rw [not_ne_iff] at hlast
    exact ⟨q, rfl, hlast ▸ q.last_mem c (hlast ▸ hlt)⟩

theorem scheduleEvent_next (c : Consumer) (q : EventQueue Consumer) :
    ∃ q', q.scheduleEvent c 1 = some q' ∧ q.Extends q' ∧ q'.Next c := by
  obtain ⟨q', hq', hmem⟩ := scheduleEventAbsolute_mem c
    (show q.globalTime < 1 + q.globalTime by omega)
  have hext := scheduleEventAbsolute_extends hq'
  refine ⟨q', hq', hext, ?_⟩
  rw [Next, hext.globalTime_eq, Nat.add_comm]
  exact hmem

end EventQueue
end FeS2.Ruby
