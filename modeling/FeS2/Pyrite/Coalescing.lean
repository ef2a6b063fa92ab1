import Mathlib.Data.List.Nodup
import FeS2.Library.Network
import FeS2.Pyrite.MemoryInterface

/-!
No requester is lost: one that waits is on one list, once, and the list is that
of an outstanding request for its line or one that is being woken. What a waiter
on a list may be follows from the request of the list.
-/

namespace FeS2.Pyrite

namespace Waiter
variable {L ρ : Type} {r : ρ} {ws ws' : List (Waiter L ρ)}

/-- The requester a waiter stands for. -/
def stands (r : ρ) : Waiter L ρ → Prop
  | .requester r' => r' = r
  | .retry _ _ req => req = some r

theorem requesters_append : requesters (ws ++ ws') = requesters ws ++ requesters ws' := by
  induction ws with
  | nil => rfl
  | cons w ws ih =>
      cases w with
      | requester r => simp only [List.cons_append, requesters, ih]
      | retry addr type req => cases req <;> simp only [List.cons_append, requesters, ih]

theorem mem_requesters : r ∈ requesters ws ↔ ∃ w ∈ ws, stands r w := by
  induction ws with
  | nil => simp [requesters]
  | cons w ws ih =>
      cases w with
      | requester r' => simp [requesters, stands, ih, eq_comm]
      | retry addr type req => cases req <;> simp [requesters, stands, ih, eq_comm]

variable [DecidableEq ρ]

theorem requesters_detach : requesters (detach r ws) = (requesters ws).filter (· ≠ r) := by
  induction ws with
  | nil => rfl
  | cons w ws ih =>
      cases w with
      | requester r' =>
          by_cases h : r' = r
          · simp [detach, requesters, h, ih]
          · simp [detach, requesters, h, ih]
      | retry addr type req =>
          cases req with
          | none => simp [detach, requesters, ih]
          | some r' =>
              by_cases h : r' = r
              · simp [detach, requesters, h, ih]
              · simp [detach, requesters, h, ih]

theorem mem_detach_requester {r' : ρ} (h : .requester r' ∈ detach r ws) :
    .requester r' ∈ ws := by
  induction ws with
  | nil => exact h
  | cons w ws ih =>
      cases w with
      | requester r'' =>
          simp only [detach] at h
          split at h
          · exact List.mem_cons_of_mem _ (ih h)
          · rcases List.mem_cons.mp h with h | h
            · exact h ▸ List.mem_cons_self
            · exact List.mem_cons_of_mem _ (ih h)
      | retry addr type req =>
          rcases List.mem_cons.mp h with h | h
          · cases h
          · exact List.mem_cons_of_mem _ (ih h)

theorem mem_detach_retry {addr : L} {type : RequestType} {req : Option ρ}
    (h : .retry addr type req ∈ detach r ws) :
    ∃ req', .retry addr type req' ∈ ws ∧ (req = none ∨ req = req') := by
  induction ws with
  | nil => cases h
  | cons w ws ih =>
      cases w with
      | requester r'' =>
          simp only [detach] at h
          have h : .retry addr type req ∈ detach r ws := by
            split at h
            · exact h
            · rcases List.mem_cons.mp h with h | h
              · cases h
              · exact h
          obtain ⟨req', h1, h2⟩ := ih h
          exact ⟨req', List.mem_cons_of_mem _ h1, h2⟩
      | retry addr' type' req'' =>
          rcases List.mem_cons.mp h with h | h
          · cases h
            refine ⟨req'', List.mem_cons_self, ?_⟩
            split
            · exact .inl rfl
            · exact .inr rfl
          · obtain ⟨req', h1, h2⟩ := ih h
            exact ⟨req', List.mem_cons_of_mem _ h1, h2⟩

end Waiter

namespace MemoryInterface
variable {L ρ : Type} [DecidableEq L] [DecidableEq ρ] {s s' : MemoryInterface L ρ} {addr : L}
  {type : RequestType} {r : ρ} {line : MissedLineWaitList L ρ}

/-! The two interfaces -/

omit [DecidableEq ρ] in
theorem setLine_self (h : s.requestedLines addr = none) (line : Option (MissedLineWaitList L ρ)) :
    (s.setLine addr line).setLine addr none = s := by
  simp only [setLine, Function.update_idem]
  rw [← h, Function.update_eq_self]

omit [DecidableEq ρ] in
/-- Both interfaces do the same with a request. -/
theorem request_eq_simpleRequest (requester : Option ρ) (hit : Bool) :
    s.request addr type requester hit = s.simpleRequest addr type requester hit := by
  unfold request simpleRequest
  cases h : s.requestedLines addr with
  | some line => rfl
  | none =>
      cases hit with
      | true =>
          have hfill : (s.setLine addr (some { requestType := type })).makeRequest addr type true =
              s := by
            simp only [makeRequest, fillRequest, if_true]
            simp only [setLine, Function.update_self]
            exact setLine_self h _
          simp only [hfill, h, if_true]
      | false =>
          simp only [makeRequest, setLine, Function.update_self, Bool.false_eq_true, if_false]
          cases requester with
          | none => rfl
          | some r => simp only [Function.update_idem]

/-! The history -/

theorem statusOf_report (e : Report L ρ) :
    statusOf r (s.report e).history =
      (statusOf r s.history).bind fun status => e.follow r status := by
  simp only [statusOf, report, List.foldlM_append, List.foldlM_cons, List.foldlM_nil]
  cases List.foldlM (Report.follow r) none s.history with
  | none => rfl
  | some status => simp

theorem follow_of_ne {e : Report L ρ} (h : e.about ≠ r) (status : Option (L × RequestType)) :
    e.follow r status = some status := by
  cases e <;> exact if_neg h

theorem statusOf_report_of_ne {e : Report L ρ} (h : e.about ≠ r) :
    statusOf r (s.report e).history = statusOf r s.history := by
  rw [statusOf_report]
  cases statusOf r s.history with
  | none => rfl
  | some status => exact follow_of_ne h status

/-! The invariant -/

/-- What waits on the list of a request. -/
structure Fits (history : List (Report L ρ)) (addr : L) (line : MissedLineWaitList L ρ) : Prop where
  nodup : (Waiter.requesters line.waiters).Nodup
  requester : ∀ r, .requester r ∈ line.waiters → ∃ type,
    statusOf r history = some (some (addr, type)) ∧ line.requestType.serves type
  retry : ∀ addr' type req, .retry addr' type req ∈ line.waiters →
    addr' = addr ∧ type = .REQUEST_WRITE ∧
      ∀ r, req = some r → statusOf r history = some (some (addr, .REQUEST_WRITE))

/-- The requesters on lists that are being woken. -/
def drained (s : MemoryInterface L ρ) : List ρ :=
  s.draining.flatMap fun x => Waiter.requesters x.2.waiters

/-- `floating`: a requester off the lists that waits all the same, in the middle of a
request. -/
structure Wf (floating : Option (ρ × L × RequestType)) (s : MemoryInterface L ρ) : Prop where
  outstanding : Network.Carries s.outstanding fun m =>
    ∃ line, s.requestedLines m.1 = some line ∧ line.requestType = m.2
  lines : ∀ addr line, s.requestedLines addr = some line → Fits s.history addr line
  draining : ∀ x ∈ s.draining, Fits s.history x.1 x.2
  drained : s.drained.Nodup
  apart : ∀ addr line, s.requestedLines addr = some line →
    ∀ r ∈ Waiter.requesters line.waiters, r ∉ s.drained
  known : ∀ r, ∃ status, statusOf r s.history = some status ∧
    ∀ addr type, status = some (addr, type) → floating = some (r, addr, type) ∨
      s.waitsAt addr r ∨ ∃ line, (addr, line) ∈ s.draining ∧ r ∈ Waiter.requesters line.waiters
  floats : ∀ r addr type, floating = some (r, addr, type) →
    statusOf r s.history = some (some (addr, type)) ∧ s.waitsAt addr r = false ∧ r ∉ s.drained

omit [DecidableEq L] in
theorem waitsAt_iff : s.waitsAt addr r ↔
    ∃ line, s.requestedLines addr = some line ∧ r ∈ Waiter.requesters line.waiters := by
  unfold waitsAt
  cases s.requestedLines addr with
  | none => simp
  | some line => simp

theorem Fits.status {history : List (Report L ρ)} (h : Fits history addr line)
    (hr : r ∈ Waiter.requesters line.waiters) :
    ∃ type, statusOf r history = some (some (addr, type)) := by
  obtain ⟨w, hw, hs⟩ := Waiter.mem_requesters.mp hr
  cases w with
  | requester r' =>
      obtain rfl := hs
      obtain ⟨type, ht, -⟩ := h.requester _ hw
      exact ⟨type, ht⟩
  | retry addr' type req => exact ⟨_, (h.retry _ _ _ hw).2.2 r hs⟩

/-- Lists are not concerned by what happens to others. -/
theorem Fits.congr {history history' : List (Report L ρ)} (h : Fits history addr line)
    (heq : ∀ r ∈ Waiter.requesters line.waiters, statusOf r history' = statusOf r history) :
    Fits history' addr line := by
  refine ⟨h.nodup, fun r hr => ?_, fun addr' type req hr => ?_⟩
  · rw [heq r (Waiter.mem_requesters.mpr ⟨_, hr, rfl⟩)]
    exact h.requester r hr
  · obtain ⟨h1, h2, h3⟩ := h.retry _ _ _ hr
    refine ⟨h1, h2, fun r hreq => ?_⟩
    rw [heq r (Waiter.mem_requesters.mpr ⟨_, hr, hreq⟩)]
    exact h3 r hreq

omit [DecidableEq L] [DecidableEq ρ] in
theorem mem_drained : r ∈ s.drained ↔
    ∃ x ∈ s.draining, r ∈ Waiter.requesters x.2.waiters := by
  simp only [MemoryInterface.drained, List.mem_flatMap]

/-- A report about a requester that is on no list. -/
theorem Wf.report {floating : Option (ρ × L × RequestType)} {e : Report L ρ} (h : s.Wf floating)
    (status : Option (L × RequestType))
    (hfloat : ∀ r addr type, floating = some (r, addr, type) → r = e.about)
    (hstatus : statusOf e.about (s.report e).history = some status)
    (hoff : (∀ addr, s.waitsAt addr e.about = false) ∧ e.about ∉ s.drained) :
    (s.report e).Wf (status.map fun x => (e.about, x)) := by
  have hne : ∀ {addr line}, s.requestedLines addr = some line →
      ∀ r ∈ Waiter.requesters line.waiters, e.about ≠ r := by
    intro addr line hl r hr he
    have := hoff.1 addr
    rw [he, Bool.eq_false_iff] at this
    exact this (waitsAt_iff.mpr ⟨line, hl, hr⟩)
  have hne' : ∀ r ∈ s.drained, e.about ≠ r := fun r hr he => hoff.2 (he ▸ hr)
  refine ⟨h.outstanding, fun addr line hl => ?_, fun x hx => ?_, h.drained, h.apart, fun r => ?_,
    fun r addr type hf => ?_⟩
  · exact (h.lines addr line hl).congr fun r hr => statusOf_report_of_ne (hne hl r hr)
  · refine (h.draining x hx).congr fun r hr => statusOf_report_of_ne (hne' r ?_)
    exact mem_drained.mpr ⟨x, hx, hr⟩
  · by_cases hr : e.about = r
    · subst hr
      refine ⟨status, hstatus, fun addr type hst => .inl ?_⟩
      rw [hst]
      rfl
    · obtain ⟨st, hst, hk⟩ := h.known r
      refine ⟨st, (statusOf_report_of_ne hr).trans hst, fun addr type he => ?_⟩
      rcases hk addr type he with hf | hw
      · exact absurd (hfloat _ _ _ hf).symm hr
      · exact .inr hw
  · cases status with
    | none => cases hf
    | some x =>
        cases hf
        exact ⟨hstatus, hoff.1 _, hoff.2⟩

theorem Wf.of_waitsAt {floating : Option (ρ × L × RequestType)} (h : s.Wf floating)
    (hr : s.waitsAt addr r) : ∃ type, statusOf r s.history = some (some (addr, type)) := by
  obtain ⟨line, hl, hr⟩ := waitsAt_iff.mp hr
  exact (h.lines addr line hl).status hr

theorem Wf.of_drained {floating : Option (ρ × L × RequestType)} (h : s.Wf floating)
    (hr : r ∈ s.drained) : ∃ addr type, statusOf r s.history = some (some (addr, type)) := by
  obtain ⟨x, hx, hr⟩ := mem_drained.mp hr
  exact ⟨x.1, (h.draining x hx).status hr⟩

/-- One that waits for nothing is on no list. -/
theorem Wf.idle_off {floating : Option (ρ × L × RequestType)} (h : s.Wf floating)
    (hr : statusOf r s.history = some none) : (∀ addr,
      s.waitsAt addr r = false) ∧ r ∉ s.drained := by
  refine ⟨fun addr => ?_, fun hd => ?_⟩
  · by_contra hw
    obtain ⟨type, ht⟩ := h.of_waitsAt (Bool.eq_true_of_not_eq_false hw)
    rw [hr] at ht
    cases ht
  · obtain ⟨addr, type, ht⟩ := h.of_drained hd
    rw [hr] at ht
    cases ht

theorem Wf.floating_off (h : s.Wf (some (r, addr, type))) :
    (∀ addr, s.waitsAt addr r = false) ∧ r ∉ s.drained := by
  obtain ⟨hst, hw, hd⟩ := h.floats r addr type rfl
  refine ⟨fun addr' => ?_, hd⟩
  by_contra hw'
  have hw' := Bool.eq_true_of_not_eq_false hw'
  obtain ⟨type', ht⟩ := h.of_waitsAt hw'
  rw [hst] at ht
  cases ht
  exact Bool.false_ne_true (hw.symm.trans hw')

/-! Requests -/

theorem waitsAt_setLine {addr' : L} {line : Option (MissedLineWaitList L ρ)} (hne : addr' ≠ addr) :
    (s.setLine addr line).waitsAt addr' r = s.waitsAt addr' r := by
  unfold waitsAt setLine
  simp only [Function.update_of_ne hne]

theorem waitsAt_setLine_self {line : MissedLineWaitList L ρ} :
    (s.setLine addr (some line)).waitsAt addr r = decide (r ∈ Waiter.requesters line.waiters) := by
  unfold waitsAt setLine
  simp only [Function.update_self]

/-- The list of an outstanding request takes a waiter, for the floating requester if
there is one. -/
theorem Wf.insertWaiter {floating : Option (ρ × L × RequestType)} {w : Waiter L ρ}
    (h : s.Wf floating) (hl : s.requestedLines addr = some line)
    (hreq : Waiter.requesters [w] = (floating.map Prod.fst).toList)
    (hat : ∀ x, floating = some x → x.2.1 = addr)
    (hplain : ∀ r, w = .requester r → ∃ type,
      statusOf r s.history = some (some (addr, type)) ∧ line.requestType.serves type)
    (hretry : ∀ addr' type req, w = .retry addr' type req →
      addr' = addr ∧ type = .REQUEST_WRITE ∧
        ∀ r, req = some r → statusOf r s.history = some (some (addr, .REQUEST_WRITE))) :
    (s.setLine addr (some (line.insertWaiter w))).Wf none := by
  have hreqs : Waiter.requesters (line.insertWaiter w).waiters =
      Waiter.requesters line.waiters ++ (floating.map Prod.fst).toList := by
    rw [← hreq]
    exact Waiter.requesters_append
  have hnew : ∀ r ∈ (floating.map Prod.fst).toList,
      r ∉ Waiter.requesters line.waiters ∧ r ∉ s.drained := by
    intro r hr
    cases floating with
    | none => cases hr
    | some x =>
        obtain rfl := List.mem_singleton.mp hr
        obtain ⟨r, addr', type⟩ := x
        obtain ⟨-, hw, hd⟩ := h.floats _ _ _ rfl
        obtain rfl : addr' = addr := hat _ rfl
        refine ⟨fun hm => ?_, hd⟩
        exact Bool.false_ne_true (hw.symm.trans (waitsAt_iff.mpr ⟨line, hl, hm⟩))
  have hold := h.lines addr line hl
  refine ⟨h.outstanding.congr fun m => ?_, fun addr' line' hl' => ?_, h.draining, h.drained,
    fun addr' line' hl' r hr => ?_, fun r => ?_, fun r addr type hf => ?_⟩
  · by_cases hm : m.1 = addr
    · simp only [setLine, hm, Function.update_self, hl, Option.some.injEq, exists_eq_left']
      rfl
    · simp only [setLine, Function.update_of_ne hm]
  · by_cases ha : addr' = addr
    · subst ha
      simp only [setLine, Function.update_self, Option.some.injEq] at hl'
      subst hl'
      refine ⟨?_, fun r hr => ?_, fun addr type req hr => ?_⟩
      · rw [hreqs]
        refine List.nodup_append.mpr ⟨hold.nodup, ?_, fun a ha b hb hab => ?_⟩
        · cases floating with
          | none => exact List.nodup_nil
          | some x => exact List.nodup_singleton _
        · exact (hnew b hb).1 (hab ▸ ha)
      · rcases List.mem_append.mp hr with hr | hr
        · exact hold.requester r hr
        · exact hplain r (List.mem_singleton.mp hr).symm
      · rcases List.mem_append.mp hr with hr | hr
        · exact hold.retry _ _ _ hr
        · exact hretry _ _ _ (List.mem_singleton.mp hr).symm
    · simp only [setLine, Function.update_of_ne ha] at hl'
      exact h.lines addr' line' hl'
  · by_cases ha : addr' = addr
    · subst ha
      simp only [setLine, Function.update_self, Option.some.injEq] at hl'
      subst hl'
      rw [hreqs] at hr
      rcases List.mem_append.mp hr with hr | hr
      · exact h.apart _ _ hl r hr
      · exact (hnew r hr).2
    · simp only [setLine, Function.update_of_ne ha] at hl'
      exact h.apart addr' line' hl' r hr
  · obtain ⟨st, hst, hk⟩ := h.known r
    refine ⟨st, hst, fun addr' type he => .inr ?_⟩
    rcases hk addr' type he with hf | hw | hd
    · left
      obtain rfl : addr' = addr := hat _ hf
      rw [waitsAt_setLine_self, hreqs, hf]
      simp
    · left
      by_cases ha : addr' = addr
      · subst ha
        obtain ⟨line', hl', hm⟩ := waitsAt_iff.mp hw
        rw [hl] at hl'
        obtain rfl := Option.some.inj hl'
        rw [waitsAt_setLine_self, hreqs]
        exact decide_eq_true (List.mem_append_left _ hm)
      · rw [waitsAt_setLine ha]
        exact hw
    · exact .inr hd
  · cases hf

/-- The first request for a line. -/
theorem Wf.issue {floating : Option (ρ × L × RequestType)} (h : s.Wf floating)
    (hl : s.requestedLines addr = none) (type : RequestType) :
    ({ s.setLine addr (some { requestType := type }) with
      outstanding := (addr, type) ::ₘ s.outstanding }).Wf floating := by
  have hwait : ∀ addr' r, MemoryInterface.waitsAt addr' r
      ({ s.setLine addr (some { requestType := type }) with
        outstanding := (addr, type) ::ₘ s.outstanding }) = s.waitsAt addr' r := by
    intro addr' r
    by_cases ha : addr' = addr
    · subst ha
      unfold waitsAt setLine
      simp only [Function.update_self, hl, Waiter.requesters]
      rfl
    · exact waitsAt_setLine ha
  refine ⟨?_, fun addr' line' hl' => ?_, h.draining, h.drained, fun addr' line' hl' r hr => ?_,
    fun r => ?_, fun r addr' type' hf => ?_⟩
  · refine (h.outstanding.send (m := (addr, type)) ?_).congr fun m => ?_
    · rintro ⟨line, hl', -⟩
      rw [hl] at hl'
      cases hl'
    · by_cases hm : m.1 = addr
      · obtain ⟨a, t⟩ := m
        obtain rfl := hm
        simp only [setLine, Function.update_self, hl, Prod.mk.injEq, true_and, Option.some.injEq,
          exists_eq_left', reduceCtorEq, false_and, exists_false, or_false]
        exact eq_comm
      · have : m ≠ (addr, type) := fun he => hm (congrArg Prod.fst he)
        simp only [this, false_or, setLine, Function.update_of_ne hm]
  · by_cases ha : addr' = addr
    · subst ha
      simp only [setLine, Function.update_self, Option.some.injEq] at hl'
      subst hl'
      refine ⟨List.nodup_nil, fun r hr => ?_, fun _ _ _ hr => ?_⟩ <;> cases hr
    · simp only [setLine, Function.update_of_ne ha] at hl'
      exact h.lines addr' line' hl'
  · by_cases ha : addr' = addr
    · subst ha
      simp only [setLine, Function.update_self, Option.some.injEq] at hl'
      subst hl'
      cases hr
    · simp only [setLine, Function.update_of_ne ha] at hl'
      exact h.apart addr' line' hl' r hr
  · obtain ⟨st, hst, hk⟩ := h.known r
    refine ⟨st, hst, fun addr' type' he => ?_⟩
    rw [hwait]
    exact hk addr' type' he
  · rw [hwait]
    exact h.floats r addr' type' hf

omit [DecidableEq ρ] in
theorem request_hit (hl : s.requestedLines addr = none) (requester : Option ρ) :
    s.request addr type requester true = s := by
  rw [request_eq_simpleRequest, simpleRequest, hl]
  exact if_pos rfl

omit [DecidableEq ρ] in
theorem request_miss (hl : s.requestedLines addr = none) (requester : Option ρ) :
    s.request addr type requester false =
      match requester with
      | none =>
          { s.setLine addr (some { requestType := type }) with
            outstanding := (addr, type) ::ₘ s.outstanding }
      | some r =>
          MemoryInterface.setLine addr
            (some (MissedLineWaitList.insertWaiter (.requester r) { requestType := type }))
            { s.setLine addr (some { requestType := type }) with
              outstanding := (addr, type) ::ₘ s.outstanding } := by
  unfold request
  rw [hl]
  cases requester with
  | none => rfl
  | some r => simp [makeRequest, setLine]

theorem Wf.coalesce (h : s.Wf none) (hl : s.requestedLines addr = some line) :
    (s.coalesce addr type none line).Wf none := by
  unfold MemoryInterface.coalesce
  split
  · next hretry =>
      refine h.insertWaiter hl rfl (fun _ hf => nomatch hf) (fun _ hw => nomatch hw) ?_
      intro addr' type' req hw
      cases hw
      exact ⟨rfl, hretry.1, fun _ hr => nomatch hr⟩
  · exact h

theorem serves_of_not_retry {fill : RequestType}
    (h : ¬ (type = .REQUEST_WRITE ∧ fill = .REQUEST_READ)) : fill.serves type := by
  cases type <;> cases fill <;> simp_all [RequestType.serves]

theorem Wf.coalesce_floating (h : s.Wf (some (r, addr, type)))
    (hl : s.requestedLines addr = some line) :
    (s.coalesce addr type (some r) line).Wf none ∧
      (s.coalesce addr type (some r) line).waitsAt addr r := by
  have hst := (h.floats r addr type rfl).1
  unfold MemoryInterface.coalesce
  split
  · next hretry =>
      refine ⟨?_, ?_⟩
      · refine h.insertWaiter hl rfl (fun _ hf => by cases hf; rfl) (fun _ hw => nomatch hw) ?_
        intro addr' type' req hw
        cases hw
        refine ⟨rfl, hretry.1, fun r' hr => ?_⟩
        cases hr
        rw [hst, hretry.1]
      · rw [waitsAt_setLine_self, MissedLineWaitList.insertWaiter, Waiter.requesters_append]
        simp [Waiter.requesters]
  · next hretry =>
      refine ⟨?_, ?_⟩
      · refine h.insertWaiter hl rfl (fun _ hf => by cases hf; rfl) ?_ (fun _ _ _ hw => nomatch hw)
        intro r' hw
        cases hw
        exact ⟨type, hst, serves_of_not_retry hretry⟩
      · dsimp only
        rw [waitsAt_setLine_self, MissedLineWaitList.insertWaiter, Waiter.requesters_append]
        simp [Waiter.requesters]

theorem Wf.request (h : s.Wf none) (addr : L) (type : RequestType) (hit : Bool) :
    (s.request addr type none hit).Wf none := by
  cases hl : s.requestedLines addr with
  | some line =>
      unfold MemoryInterface.request
      rw [hl]
      exact h.coalesce hl
  | none =>
      cases hit with
      | true => rwa [request_hit hl]
      | false =>
          rw [request_miss hl]
          exact h.issue hl type

/-- A request puts its requester on the list of the line, or is served at once. -/
theorem Wf.request_floating (h : s.Wf (some (r, addr, type))) (hit : Bool) :
    let s' := s.request addr type (some r) hit
    if s'.waitsAt addr r then s'.Wf none else s'.Wf (some (r, addr, type)) := by
  have hst := (h.floats r addr type rfl).1
  cases hl : s.requestedLines addr with
  | some line =>
      have hreq : s.request addr type (some r) hit = s.coalesce addr type (some r) line := by
        unfold MemoryInterface.request
        rw [hl]
      obtain ⟨hwf, hw⟩ := h.coalesce_floating hl
      rw [hreq]
      simp only [hw, if_true]
      exact hwf
  | none =>
      cases hit with
      | true =>
          rw [request_hit hl]
          simp only [(h.floats r addr type rfl).2.1, Bool.false_eq_true, if_false]
          exact h
      | false =>
          rw [request_miss hl]
          have hissue := h.issue hl type
          have hl' : (MemoryInterface.requestedLines
              { s.setLine addr (some { requestType := type }) with
                outstanding := (addr, type) ::ₘ s.outstanding }) addr =
              some { requestType := type } := Function.update_self _ _ _
          have hwf := hissue.insertWaiter (w := .requester r) hl' rfl
            (fun _ hf => by cases hf; rfl)
            (fun r' hw => by
              cases hw
              exact ⟨type, hst, serves_of_not_retry (by cases type <;> simp)⟩)
            (fun _ _ _ hw => nomatch hw)
          dsimp only
          rw [waitsAt_setLine_self, if_pos]
          · exact hwf
          · simp [MissedLineWaitList.insertWaiter, Waiter.requesters]

/-! Steps -/

theorem statusOf_request (h : statusOf r s.history = some none) :
    statusOf r (s.report (.request r addr type)).history = some (some (addr, type)) := by
  rw [statusOf_report, h]
  simp [Report.follow]

theorem Wf.access (h : s.Wf none) (hr : statusOf r s.history = some none) (addr : L)
    (type : RequestType) (hit : Bool) : (s.access addr type (some r) hit).Wf none := by
  have hasked : (s.report (.request r addr type)).Wf (some (r, addr, type)) :=
    h.report (e := .request r addr type) _ (fun _ _ _ hf => nomatch hf) (statusOf_request hr)
      (h.idle_off hr)
  have hreq := hasked.request_floating hit
  simp only [MemoryInterface.access]
  split
  · next hw =>
      simp only [hw, if_true] at hreq
      exact hreq
  · next hw =>
      simp only [hw] at hreq
      have hst := (hreq.floats r addr type rfl).1
      refine hreq.report (e := .hit r) none (fun _ _ _ hf => by cases hf; rfl) ?_
        hreq.floating_off
      rw [statusOf_report, show Report.about (.hit r : Report L ρ) = r from rfl, hst]
      simp [Report.follow]

theorem Wf.wakeup (h : s.Wf (some (r, addr, type))) {fill : RequestType}
    (hfill : fill.serves type) : (s.report (.wakeup r addr fill)).Wf none := by
  have hst := (h.floats r addr type rfl).1
  refine h.report (e := .wakeup r addr fill) none (fun _ _ _ hf => by cases hf; rfl) ?_
    h.floating_off
  rw [statusOf_report, show Report.about (.wakeup r addr fill : Report L ρ) = r from rfl, hst]
  simp [Report.follow, hfill]

theorem Wf.retry (h : s.Wf (some (r, addr, type))) (hit : Bool) :
    (s.retry addr type (some r) hit).Wf none := by
  have hreq := h.request_floating hit
  simp only [MemoryInterface.retry]
  split
  · next hw =>
      simp only [hw, if_true] at hreq
      exact hreq
  · next hw =>
      simp only [hw] at hreq
      exact hreq.wakeup (serves_of_not_retry (by cases type <;> simp))

/-- The next waiter leaves a list that is being woken. -/
theorem Wf.pop (floating : Option (ρ × L × RequestType)) {fill : RequestType}
    {w : Waiter L ρ} {ws : List (Waiter L ρ)} {rest : List (L × MissedLineWaitList L ρ)}
    (h : s.Wf none) (hd : s.draining = (addr, ⟨fill, w :: ws⟩) :: rest)
    (hreq : Waiter.requesters [w] = (floating.map Prod.fst).toList)
    (hst : ∀ r addr' type, floating = some (r, addr', type) →
      addr' = addr ∧ statusOf r s.history = some (some (addr, type))) :
    ({ s with draining := (addr, ⟨fill, ws⟩) :: rest }).Wf floating := by
  have hall : s.drained = (floating.map Prod.fst).toList ++
      (Waiter.requesters ws ++ rest.flatMap fun x => Waiter.requesters x.2.waiters) := by
    unfold MemoryInterface.drained
    rw [hd, List.flatMap_cons, ← hreq, ← List.append_assoc, ← Waiter.requesters_append]
    rfl
  have hnodup := h.drained
  rw [hall] at hnodup
  obtain ⟨-, hrest, hdisj⟩ := List.nodup_append.mp hnodup
  have hfits := h.draining (addr, ⟨fill, w :: ws⟩) (hd ▸ List.mem_cons_self)
  refine ⟨h.outstanding, h.lines, fun x hx => ?_, hrest, fun addr' line' hl r hr hm => ?_,
    fun r => ?_, fun r addr' type hf => ?_⟩
  · rcases List.mem_cons.mp hx with rfl | hx
    · refine ⟨?_, fun r hr => ?_, fun a t q hr => ?_⟩
      · have hn := hfits.nodup
        rw [show w :: ws = [w] ++ ws from rfl, Waiter.requesters_append] at hn
        exact (List.nodup_append.mp hn).2.1
      · exact hfits.requester r (List.mem_cons_of_mem _ hr)
      · exact hfits.retry a t q (List.mem_cons_of_mem _ hr)
    · exact h.draining x (hd ▸ List.mem_cons_of_mem _ hx)
  · refine h.apart addr' line' hl r hr ?_
    rw [hall]
    exact List.mem_append_right _ hm
  · obtain ⟨st, hs, hk⟩ := h.known r
    refine ⟨st, hs, fun addr' type he => ?_⟩
    rcases hk addr' type he with hf | hw | ⟨line', hm, hr⟩
    · cases hf
    · exact .inr (.inl hw)
    · rw [hd] at hm
      rcases List.mem_cons.mp hm with hm | hm
      · cases hm
        have hr : r ∈ (floating.map Prod.fst).toList ++ Waiter.requesters ws := by
          rw [← hreq, ← Waiter.requesters_append]
          exact hr
        rcases List.mem_append.mp hr with hr | hr
        · left
          cases floating with
          | none => cases hr
          | some x =>
              obtain ⟨r', addr', type'⟩ := x
              obtain rfl := List.mem_singleton.mp hr
              obtain ⟨rfl, hst'⟩ := hst _ _ _ rfl
              rw [hs, he] at hst'
              cases hst'
              rfl
        · exact .inr (.inr ⟨_, List.mem_cons_self, hr⟩)
      · exact .inr (.inr ⟨line', List.mem_cons_of_mem _ hm, hr⟩)
  · obtain ⟨rfl, hs⟩ := hst r addr' type hf
    have hmem : r ∈ (floating.map Prod.fst).toList := by
      rw [hf]
      exact List.mem_singleton_self r
    refine ⟨hs, ?_, fun hm => hdisj r hmem r hm rfl⟩
    by_contra hw
    obtain ⟨line', hl, hr⟩ := waitsAt_iff.mp (Bool.eq_true_of_not_eq_false hw)
    refine h.apart _ _ hl r hr ?_
    rw [hall]
    exact List.mem_append_left _ hmem

/-- An empty list that is being woken is no list. -/
theorem Wf.pop_empty {fill : RequestType} {rest : List (L × MissedLineWaitList L ρ)}
    (h : s.Wf none) (hd : s.draining = (addr, ⟨fill, []⟩) :: rest) :
    ({ s with draining := rest }).Wf none := by
  have hall : s.drained = rest.flatMap fun x => Waiter.requesters x.2.waiters := by
    unfold MemoryInterface.drained
    rw [hd]
    rfl
  refine ⟨h.outstanding, h.lines, fun x hx => h.draining x (hd ▸ List.mem_cons_of_mem _ hx), ?_,
    fun addr' line' hl r hr hm => ?_, fun r => ?_, fun r addr' type hf => ?_⟩
  · have := h.drained
    rwa [hall] at this
  · refine h.apart addr' line' hl r hr ?_
    rw [hall]
    exact hm
  · obtain ⟨st, hs, hk⟩ := h.known r
    refine ⟨st, hs, fun addr' type he => ?_⟩
    rcases hk addr' type he with hf | hw | ⟨line', hm, hr⟩
    · cases hf
    · exact .inr (.inl hw)
    · rw [hd] at hm
      rcases List.mem_cons.mp hm with hm | hm
      · cases hm
        cases hr
      · exact .inr (.inr ⟨line', hm, hr⟩)
  · cases hf

theorem Wf.wakeNext {hit : Bool} (h : s.Wf none) (hs : s.wakeNext hit = some s') :
    s'.Wf none := by
  unfold MemoryInterface.wakeNext at hs
  split at hs
  · cases hs
  next addr line rest hd =>
  have hfits := h.draining (addr, line) (hd ▸ List.mem_cons_self)
  obtain ⟨fill, waiters⟩ := line
  cases waiters with
  | nil =>
      obtain rfl := Option.some.inj hs
      exact h.pop_empty hd
  | cons w ws =>
      cases w with
      | requester r =>
          obtain rfl := Option.some.inj hs
          obtain ⟨type, hst, hserves⟩ := hfits.requester r List.mem_cons_self
          exact (h.pop (some (r, addr, type)) hd rfl fun _ _ _ hf => by
            cases hf
            exact ⟨rfl, hst⟩).wakeup hserves
      | retry addr' type req =>
          obtain rfl := Option.some.inj hs
          obtain ⟨rfl, rfl, hreq⟩ := hfits.retry addr' type req List.mem_cons_self
          cases req with
          | none => exact (h.pop none hd rfl fun _ _ _ hf => nomatch hf).request _ _ hit
          | some r =>
              exact (h.pop (some (r, _, _)) hd rfl fun _ _ _ hf => by
                cases hf
                exact ⟨rfl, hreq r rfl⟩).retry hit

theorem Wf.fill {m : L × RequestType} (h : s.Wf none) (hs : s.fill m = some s') : s'.Wf none := by
  unfold MemoryInterface.fill at hs
  split at hs
  swap
  · cases hs
  next hm =>
  obtain rfl := Option.some.inj hs
  obtain ⟨addr, type⟩ := m
  obtain ⟨⟨fill, ws⟩, hl, rfl⟩ := h.outstanding.mem hm
  have hfits := h.lines _ _ hl
  have hother : ∀ {addr' line'}, addr' ≠ addr → s.requestedLines addr' = some line' →
      ∀ r ∈ Waiter.requesters line'.waiters, r ∉ Waiter.requesters ws := by
    intro addr' line' hne hl' r hr hr'
    obtain ⟨t, ht⟩ := (h.lines _ _ hl').status hr
    obtain ⟨t', ht'⟩ := hfits.status (show r ∈ Waiter.requesters (MissedLineWaitList.mk fill ws).waiters from hr')
    rw [ht] at ht'
    cases ht'
    exact hne rfl
  have hwoken : (MemoryInterface.mk (Function.update s.requestedLines addr none)
      (s.outstanding.erase (addr, fill)) ((addr, ⟨fill, ws⟩) :: s.draining) s.history).Wf none := by
    refine ⟨(h.outstanding.receive (addr, fill)).congr fun x => ?_, fun addr' line' hl' => ?_,
      fun x hx => ?_, ?_, fun addr' line' hl' r hr hmem => ?_, fun r => ?_, fun r addr' type hf => ?_⟩
    · obtain ⟨a, t⟩ := x
      by_cases ha : a = addr
      · subst ha
        simp only [Function.update_self, reduceCtorEq, false_and, exists_false, iff_false, hl,
          Option.some.injEq, exists_eq_left']
        rintro ⟨rfl, hne⟩
        exact hne rfl
      · simp only [Function.update_of_ne ha, ne_eq, Prod.mk.injEq, ha, false_and, not_false_eq_true,
          and_true]
    · by_cases ha : addr' = addr
      · simp only [ha, Function.update_self, reduceCtorEq] at hl'
      · simp only [Function.update_of_ne ha] at hl'
        exact h.lines _ _ hl'
    · rcases List.mem_cons.mp hx with rfl | hx
      · exact hfits
      · exact h.draining x hx
    · show (Waiter.requesters ws ++ s.drained).Nodup
      refine List.nodup_append.mpr ⟨hfits.nodup, h.drained, fun a ha b hb hab => ?_⟩
      exact h.apart _ _ hl a ha (hab ▸ hb)
    · have hmem : r ∈ Waiter.requesters ws ++ s.drained := hmem
      by_cases ha : addr' = addr
      · simp only [ha, Function.update_self, reduceCtorEq] at hl'
      · simp only [Function.update_of_ne ha] at hl'
        rcases List.mem_append.mp hmem with hmem | hmem
        · exact hother ha hl' r hr hmem
        · exact h.apart _ _ hl' r hr hmem
    · obtain ⟨st, hst, hk⟩ := h.known r
      refine ⟨st, hst, fun addr' type he => .inr ?_⟩
      rcases hk addr' type he with hf | hw | ⟨line', hm, hr⟩
      · cases hf
      · by_cases ha : addr' = addr
        · subst ha
          obtain ⟨line', hl', hr⟩ := waitsAt_iff.mp hw
          rw [hl] at hl'
          cases hl'
          exact .inr ⟨_, List.mem_cons_self, hr⟩
        · left
          unfold waitsAt at hw ⊢
          simp only [Function.update_of_ne ha]
          exact hw
      · exact .inr ⟨line', List.mem_cons_of_mem _ hm, hr⟩
    · cases hf
  simp only [fillRequest, hl, wakeupAll]
  cases ws with
  | nil => exact hwoken.pop_empty rfl
  | cons w ws => exact hwoken

/-! Squashes -/

theorem Fits.detach {history : List (Report L ρ)} (h : Fits history addr line) (r : ρ) :
    Fits history addr { line with waiters := Waiter.detach r line.waiters } := by
  refine ⟨?_, fun r' hr => h.requester r' (Waiter.mem_detach_requester hr),
    fun addr' type req hr => ?_⟩
  · rw [Waiter.requesters_detach]
    exact h.nodup.filter _
  · obtain ⟨req', hmem, hreq⟩ := Waiter.mem_detach_retry hr
    obtain ⟨h1, h2, h3⟩ := h.retry _ _ _ hmem
    refine ⟨h1, h2, fun r' he => ?_⟩
    rcases hreq with rfl | rfl
    · cases he
    · exact h3 r' he

/-- A squashed requester leaves the lists it waits on. -/
def unlink (r : ρ) (s : MemoryInterface L ρ) : MemoryInterface L ρ :=
  { s with
    requestedLines := fun addr => (s.requestedLines addr).map fun line =>
      { line with waiters := Waiter.detach r line.waiters }
    draining := s.draining.map fun x => (x.1, { x.2 with waiters := Waiter.detach r x.2.waiters }) }

omit [DecidableEq L] in
theorem squash_eq : s.squash r = (s.unlink r).report (.squash r) := rfl

omit [DecidableEq L] in
theorem drained_unlink : (s.unlink r).drained = s.drained.filter (· ≠ r) := by
  unfold drained unlink
  rw [List.flatMap_map, List.filter_flatMap]
  simp only [Waiter.requesters_detach]

omit [DecidableEq L] in
theorem requestedLines_unlink (h : (s.unlink r).requestedLines addr = some line) :
    ∃ line', s.requestedLines addr = some line' ∧
      line = { line' with waiters := Waiter.detach r line'.waiters } := by
  obtain ⟨line', hl, he⟩ := Option.map_eq_some_iff.mp h
  exact ⟨line', hl, he.symm⟩

omit [DecidableEq L] in
theorem waitsAt_unlink {r' : ρ} :
    (s.unlink r).waitsAt addr r' = (decide (r' ≠ r) && s.waitsAt addr r') := by
  unfold waitsAt unlink
  cases h : s.requestedLines addr with
  | none => simp [h]
  | some line => simp [h, Waiter.requesters_detach, and_comm]

theorem Wf.unlink (h : s.Wf none) {status : Option (L × RequestType)}
    (hst : statusOf r s.history = some status) :
    (s.unlink r).Wf (status.map fun x => (r, x)) := by
  refine ⟨h.outstanding.congr fun m => ?_, fun addr line hl => ?_, fun x hx => ?_, ?_,
    fun addr line hl r' hr hm => ?_, fun r' => ?_, fun r' addr type hf => ?_⟩
  · simp only [MemoryInterface.unlink, Option.map_eq_some_iff, exists_exists_and_eq_and]
  · obtain ⟨line', hl', rfl⟩ := requestedLines_unlink hl
    exact (h.lines addr line' hl').detach r
  · obtain ⟨x', hx', rfl⟩ := List.mem_map.mp hx
    exact (h.draining x' hx').detach r
  · rw [drained_unlink]
    exact h.drained.filter _
  · obtain ⟨line', hl', rfl⟩ := requestedLines_unlink hl
    rw [Waiter.requesters_detach] at hr
    rw [drained_unlink] at hm
    exact h.apart addr line' hl' r' (List.mem_of_mem_filter hr) (List.mem_of_mem_filter hm)
  · obtain ⟨st, hst', hk⟩ := h.known r'
    refine ⟨st, hst', fun addr type he => ?_⟩
    by_cases hr : r' = r
    · subst hr
      rw [hst] at hst'
      cases hst'
      left
      rw [he]
      rfl
    · rcases hk addr type he with hf | hw | ⟨line, hm, hmem⟩
      · cases hf
      · refine .inr (.inl ?_)
        rw [waitsAt_unlink, hw]
        simpa using hr
      · refine .inr (.inr ⟨_, List.mem_map_of_mem hm, ?_⟩)
        rw [Waiter.requesters_detach]
        exact List.mem_filter.mpr ⟨hmem, by simpa using hr⟩
  · cases status with
    | none => cases hf
    | some x =>
        cases hf
        refine ⟨hst, ?_, fun hm => ?_⟩
        · rw [waitsAt_unlink]
          simp
        · rw [drained_unlink] at hm
          simpa using (List.mem_filter.mp hm).2

theorem Wf.squash (h : s.Wf none) (r : ρ) : (s.squash r).Wf none := by
  obtain ⟨status, hst, -⟩ := h.known r
  rw [squash_eq]
  refine (h.unlink hst).report (e := .squash r) none (fun r' addr type hf => ?_) ?_
    ⟨fun addr => ?_, fun hm => ?_⟩
  · cases status with
    | none => cases hf
    | some x =>
        cases hf
        rfl
  · rw [statusOf_report]
    show (statusOf r s.history).bind _ = _
    rw [hst]
    simp [Report.follow, Report.about]
  · rw [waitsAt_unlink]
    simp [Report.about]
  · rw [drained_unlink] at hm
    simpa [Report.about] using (List.mem_filter.mp hm).2

theorem Wf.step {e : Event L ρ} (h : s.Wf none) (hs : s.step e = some s') : s'.Wf none := by
  cases e with
  | access addr type requester hit =>
      cases requester with
      | none =>
          obtain rfl := Option.some.inj hs
          exact h.request addr type hit
      | some r =>
          simp only [MemoryInterface.step] at hs
          split at hs
          · next hr =>
              obtain rfl := Option.some.inj hs
              exact h.access hr addr type hit
          · cases hs
  | fill m => exact h.fill hs
  | wakeNext hit => exact h.wakeNext hs
  | squash r =>
      obtain rfl := Option.some.inj hs
      exact h.squash r

theorem Wf.init : (({} : MemoryInterface L ρ)).Wf none where
  outstanding := Network.carries_zero.congr fun m => by simp
  lines _ _ hl := nomatch hl
  draining _ hx := nomatch hx
  drained := List.nodup_nil
  apart _ _ hl := nomatch hl
  known _ := ⟨none, rfl, fun _ _ he => nomatch he⟩
  floats _ _ _ hf := nomatch hf

omit [DecidableEq ρ] in
theorem request_draining (requester : Option ρ) (hit : Bool) :
    (s.request addr type requester hit).draining = s.draining := by
  cases hl : s.requestedLines addr with
  | some line =>
      simp only [request, hl, coalesce]
      split
      · rfl
      · cases requester <;> rfl
  | none =>
      cases hit with
      | true => rw [request_hit hl]
      | false =>
          rw [request_miss hl]
          cases requester <;> rfl

/-- `r` is on the list of the outstanding request for its line, once, and on no other. -/
def WaitsOnLine (s : MemoryInterface L ρ) (r : ρ) (addr : L) : Prop :=
  (∃ line, s.requestedLines addr = some line ∧ (addr, line.requestType) ∈ s.outstanding ∧
    (Waiter.requesters line.waiters).count r = 1) ∧
  (∀ addr', addr' ≠ addr → s.waitsAt addr' r = false) ∧ s.drained.count r = 0

/-- `r` is on one list of those being woken, once, and the list is one of its line. -/
def WaitsForTurn (s : MemoryInterface L ρ) (r : ρ) (addr : L) : Prop :=
  (∃ line, (addr, line) ∈ s.draining ∧ r ∈ Waiter.requesters line.waiters) ∧
  (∀ addr', s.waitsAt addr' r = false) ∧ s.drained.count r = 1

/-- What a requester saw goes with where it is. -/
def Accounted (s : MemoryInterface L ρ) (r : ρ) : Prop :=
  match statusOf r s.history with
  | none => False
  | some none => (∀ addr, s.waitsAt addr r = false) ∧ r ∉ s.drained
  | some (some (addr, _)) => s.WaitsOnLine r addr ∨ s.WaitsForTurn r addr

theorem Wf.waits (h : s.Wf none) (hr : statusOf r s.history = some (some (addr, type))) :
    s.WaitsOnLine r addr ∨ s.WaitsForTurn r addr := by
  obtain ⟨st, hst, hk⟩ := h.known r
  obtain rfl : some (addr, type) = st := Option.some.inj (hr.symm.trans hst)
  rcases hk addr type rfl with hf | hw | ⟨line, hm, hmem⟩
  · cases hf
  · left
    obtain ⟨line, hl, hmem⟩ := waitsAt_iff.mp hw
    refine ⟨⟨line, hl, (h.outstanding.2 _).mpr ⟨line, hl, rfl⟩, ?_⟩, fun addr' hne => ?_, ?_⟩
    · exact List.count_eq_one_of_mem (h.lines _ _ hl).nodup hmem
    · by_contra hw'
      obtain ⟨t, ht⟩ := h.of_waitsAt (Bool.eq_true_of_not_eq_false hw')
      rw [hr] at ht
      cases ht
      exact hne rfl
    · exact List.count_eq_zero_of_not_mem (h.apart _ _ hl r hmem)
  · right
    have hd : r ∈ s.drained := mem_drained.mpr ⟨_, hm, hmem⟩
    refine ⟨⟨line, hm, hmem⟩, fun addr' => ?_, List.count_eq_one_of_mem h.drained hd⟩
    by_contra hw'
    obtain ⟨line', hl, hmem'⟩ := waitsAt_iff.mp (Bool.eq_true_of_not_eq_false hw')
    exact h.apart _ _ hl r hmem' hd

theorem Wf.outstanding_lines (h : s.Wf none) : (s.outstanding.map Prod.fst).Nodup := by
  refine Multiset.Nodup.map_on (fun m hm m' hm' he => ?_) h.outstanding.1
  obtain ⟨line, hl, ht⟩ := h.outstanding.mem hm
  obtain ⟨line', hl', ht'⟩ := h.outstanding.mem hm'
  rw [he, hl'] at hl
  cases hl
  exact Prod.ext he (ht.symm.trans ht')

end MemoryInterface
end FeS2.Pyrite
