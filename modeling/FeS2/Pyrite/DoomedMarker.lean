import FeS2.Pyrite.WindowBounds

/-!
The marker of the oldest bad uop. While it is set nothing is fetched, and when the retire point
comes to it the processor starts over. Rename sets it for an illegal uop, an address that has no
translation for a load or a store, and a failed decode for the place where its uops would go.
-/

namespace FeS2.Pyrite
namespace InstructionWindow

variable {bits : Nat} {s s' : InstructionWindow bits}

/-- Nothing wakes the uop, and it is no store that retirement completes. -/
def stuck (d : BufferedInst) : Bool :=
  d.stage.inFlight && !d.waiting && !(d.op.isstore && d.stage = .MEMORY)

def cannotComplete (d : BufferedInst) : Bool := !d.op.legal || stuck d

/-- Whether a uop assigns `m_fetch_rip` when it runs. -/
def Outcome.redirects (d : BufferedInst) (youngest : Bool) : Outcome → Bool
  | .unaligned => true
  | .complete mispredicted excepting =>
      d.op.isbranch && (mispredicted || youngest) ||
        d.op.ischeck && excepting && !d.endsX86Op
  | _ => false

def redirects (s : InstructionWindow bits) : Event bits → Bool
  | .fetch _ => true
  | .wakeup slot outcome =>
      outcome.redirects (s.buffer slot) (s.qHead ≤ (s.buffer slot).qPtr + 1)
  | .retire storeHit violation succeed =>
      let d := s.getDynamicInst s.qRetire
      if s.qOldestBad = some s.qRetire then true
      else if d.stage ≠ .COMPLETE ∧ !storeHit ∨ violation = .loadOrdering then false
      else d.endsX86Op && (d.op.ischeck && !d.checkException || !succeed)
  | .reset _ => true
  | _ => false

/-- `failed`: the decoder found no instruction at `m_fetch_rip`, which is still the same. -/
structure FetchState (bits : Nat) where
  window : InstructionWindow bits
  failed : Bool

namespace FetchState

def init (params : WindowParams bits) : FetchState bits :=
  { window := .init params, failed := false }

def step (f : FetchState bits) (e : Event bits) : Option (FetchState bits) :=
  (f.window.step e).map fun w =>
    { window := w
      failed := match e with
        | .fetchFailed => true
        | _ => f.failed && !f.window.redirects e }

end FetchState

/-! What keeps the marker -/

/-- The marker with respect to the uops, of which `running` may be on its way from one wait list
to another. -/
structure Marker (running : Option Nat) (s : InstructionWindow bits) : Prop where
  range : ∀ b, s.qOldestBad = some b → s.qRetire ≤ b ∧ b ≤ s.qHead ∧ some b ≠ running
  bad : ∀ b, s.qOldestBad = some b → b < s.qHead →
    stuck (s.getDynamicInst b) ∨ b = s.qRename ∧ (s.getDynamicInst b).op.legal = false
  covered : ∀ q, s.qTail ≤ q → q < s.qHead → stuck (s.getDynamicInst q) → some q ≠ running →
    ∃ b, s.qOldestBad = some b ∧ b ≤ q
  legal : ∀ q, s.qTail ≤ q → q < s.qRename → (s.getDynamicInst q).op.legal
  fresh : ∀ q, s.qExecute ≤ q → q < s.qHead → (s.getDynamicInst q).stage.inFlight = false

theorem squashOldestBad_eq_some {first b : Nat} {m : Option Nat} :
    squashOldestBad first m = some b ↔ m = some b ∧ b < first := by
  unfold squashOldestBad
  rw [Option.bind_eq_some_iff]
  constructor
  · intro ⟨c, hc, h⟩
    split at h
    · cases h
    · cases h
      exact ⟨hc, by omega⟩
  · intro ⟨hm, hlt⟩
    exact ⟨b, hm, if_neg (by omega)⟩

/-- What the marker depends on in a uop. -/
def running (d : BufferedInst) : Op × InstStage × Bool := (d.op, d.stage, d.waiting)

theorem stuck_congr {d d' : BufferedInst} (h : running d = running d') : stuck d = stuck d' := by
  simp only [running, Prod.mk.injEq] at h
  unfold stuck
  rw [h.1, h.2.1, h.2.2]

theorem modify_modify (q : Nat) (f g : BufferedInst → BufferedInst) :
    (s.modify q f).modify q g = s.modify q (g ∘ f) := by
  unfold InstructionWindow.modify
  congr 1
  funext i
  dsimp only
  split
  · rfl
  · rfl

theorem modify_id (q : Nat) : (s.modify q fun d => d) = s := by
  unfold InstructionWindow.modify
  simp only [ite_self]

theorem fetchReady_eq (h : s.fetchReady = true) :
    s.qOldestBad = none ∧ s.qHead < s.qRename + s.params.frontEndMax := by
  unfold fetchReady at h
  have ⟨hnone, hroom⟩ := Bool.and_eq_true_iff.mp h
  exact ⟨Option.isNone_iff_eq_none.mp hnone, of_decide_eq_true hroom⟩

namespace Marker
variable {r : Option Nat}

/-- A step that leaves the uops and the pointers that count. -/
theorem congr (h : s.Marker r) (htail : s'.qTail = s.qTail) (hhead : s'.qHead = s.qHead)
    (hrename : s'.qRename = s.qRename) (hretire : s'.qRetire ≤ s.qRetire)
    (hexecute : s'.qExecute = s.qExecute) (hbad : s'.qOldestBad = s.qOldestBad)
    (hget : ∀ q, s.qTail ≤ q → q < s.qHead →
      running (s'.getDynamicInst q) = running (s.getDynamicInst q))
    (hlow : s.qTail ≤ s.qRetire) (hexec : s.qTail ≤ s.qExecute) (hren : s.qRename ≤ s.qHead) :
    s'.Marker r where
  range b hb := by
    rw [hbad] at hb
    have h1 := h.range b hb
    rw [hhead]
    exact ⟨by omega, h1.2⟩
  bad b hb hlt := by
    rw [hbad] at hb
    rw [hhead] at hlt
    have h1 := h.range b hb
    have hg := hget b (by omega) hlt
    rw [stuck_congr hg, hrename, show (s'.getDynamicInst b).op = _ from congrArg Prod.fst hg]
    exact h.bad b hb hlt
  covered q hq hlt hstuck hne := by
    rw [htail] at hq
    rw [hhead] at hlt
    rw [hbad]
    exact h.covered q hq hlt (stuck_congr (hget q hq hlt) ▸ hstuck) hne
  legal q hq hlt := by
    rw [htail] at hq
    rw [hrename] at hlt
    rw [show (s'.getDynamicInst q).op = _ from congrArg Prod.fst (hget q hq (by omega))]
    exact h.legal q hq hlt
  fresh q hq hlt := by
    rw [hexecute] at hq
    rw [hhead] at hlt
    rw [show (s'.getDynamicInst q).stage = _ from
      congrArg (·.2.1) (hget q (by omega) hlt)]
    exact h.fresh q hq hlt

theorem flushPipeline {first : Nat} (h : s.Marker r) (hk : s.Kept first)
    (hs : s.flushPipeline first = some s') : s'.Marker r := by
  have ⟨_, _, _, _, _, hget⟩ := hk.flushPipeline hs
  obtain ⟨-, rfl⟩ := flushPipeline_eq hs
  have h1 := hk.tail_le
  have h2 := hk.le_rename
  have h3 := hk.ordered.rename_le_head
  have h4 := hk.ordered.tail_le_retire
  have h5 := hk.ordered.retire_le_execute
  constructor
  · intro b hb
    have ⟨hm, hlt⟩ := squashOldestBad_eq_some.mp hb
    have hr := h.range b hm
    dsimp only
    exact ⟨by omega, by omega, hr.2.2⟩
  · intro b hb hlt
    have ⟨hm, _⟩ := squashOldestBad_eq_some.mp hb
    dsimp only at hlt
    have hr := h.range b hm
    rw [hget b (by omega) hlt]
    cases h.bad b hm (by omega) with
    | inl hstuck => exact .inl hstuck
    | inr hren => exact absurd hren.1 (by omega)
  · intro q hq hlt hstuck hne
    dsimp only at hq hlt
    rw [hget q hq hlt] at hstuck
    have ⟨b, hb, hle⟩ := h.covered q hq (by omega) hstuck hne
    exact ⟨b, squashOldestBad_eq_some.mpr ⟨hb, by omega⟩, hle⟩
  · intro q hq hlt
    dsimp only at hq hlt
    rw [hget q hq hlt]
    exact h.legal q hq (by omega)
  · intro q hq hlt
    dsimp only at hq hlt
    rw [hget q (by omega) hlt]
    exact h.fresh q (by omega) (by omega)

theorem replay {first : Nat} (h : s.Marker r) (hwf : s.Wf) (h1 : s.qTail ≤ first)
    (h2 : first ≤ s.qRename) (hs : s.replay first = some s') : s'.Marker r := by
  have ⟨_, _, _, hget⟩ := hwf.replay h1 h2 hs
  obtain ⟨-, rfl⟩ := replay_eq hs
  have h3 := hwf.ordered.rename_le_head
  have h4 := hwf.ordered.tail_le_retire
  have h5 := hwf.ordered.retire_le_execute
  have h6 := hwf.ordered.execute_le_rename
  have hundone : ∀ q, first ≤ q → q < s.qRename →
      ((s.modifyDown unfetch first (s.qRename - first)).getDynamicInst q).stage = .FETCH :=
    fun q hq hlt => modifyDown_all (P := fun d => d.stage = .FETCH) (fun _ => rfl) hq (by omega)
  have hyounger : ∀ q, s.qRename ≤ q → q < s.qHead →
      (s.modifyDown unfetch first (s.qRename - first)).getDynamicInst q = s.getDynamicInst q :=
    fun q hq hlt => modifyDown_getDynamicInst hwf.ordered (by omega) hlt (.inr (by omega)) h1
      (by omega)
  have hfresh : ∀ q, first ≤ q → q < s.qHead →
      ((s.modifyDown unfetch first (s.qRename - first)).getDynamicInst q).stage.inFlight = false := by
    intro q hq hlt
    by_cases hren : q < s.qRename
    · rw [hundone q hq hren]
      rfl
    · rw [hyounger q (by omega) hlt]
      exact h.fresh q (by omega) hlt
  constructor
  · intro b hb
    have ⟨hm, hlt⟩ := squashOldestBad_eq_some.mp hb
    have hr := h.range b hm
    dsimp only
    exact ⟨by omega, by omega, hr.2.2⟩
  · intro b hb hlt
    have ⟨hm, hfirst⟩ := squashOldestBad_eq_some.mp hb
    dsimp only at hlt
    have hr := h.range b hm
    rw [hget b (by omega) hfirst]
    cases h.bad b hm hlt with
    | inl hstuck => exact .inl hstuck
    | inr hren => exact absurd hren.1 (by omega)
  · intro q hq hlt hstuck hne
    dsimp only at hq hlt
    by_cases hfirst : q < first
    · rw [hget q hq hfirst] at hstuck
      have ⟨b, hb, hle⟩ := h.covered q hq hlt hstuck hne
      exact ⟨b, squashOldestBad_eq_some.mpr ⟨hb, by omega⟩, hle⟩
    · have hno := hfresh q (by omega) hlt
      change stuck ((s.modifyDown unfetch first (s.qRename - first)).getDynamicInst q) at hstuck
      unfold stuck at hstuck
      rw [hno] at hstuck
      cases hstuck
  · intro q hq hlt
    dsimp only at hq hlt
    rw [hget q hq hlt]
    exact h.legal q hq (by omega)
  · intro q hq hlt
    dsimp only at hq hlt
    by_cases hfirst : q < first
    · rw [hget q (by omega) hfirst]
      exact h.fresh q (by omega) hlt
    · exact hfresh q (by omega) hlt

/-- A step of one uop, which is not the marker. -/
theorem update {q : Nat} {r' : Option Nat} (h : s.Marker r) (hq : s.qTail ≤ q) (hlt : q < s.qHead)
    (hother : ∀ q', s.qTail ≤ q' → q' < s.qHead → q' ≠ q →
      s'.getDynamicInst q' = s.getDynamicInst q')
    (hop : (s'.getDynamicInst q).op = (s.getDynamicInst q).op)
    (htail : s'.qTail = s.qTail) (hhead : s'.qHead = s.qHead) (hretire : s'.qRetire = s.qRetire)
    (hbad : s'.qOldestBad = s.qOldestBad) (hmarker : s.qOldestBad ≠ some q)
    (hr : ∀ q', q' ≠ q → some q' ≠ r ∧ some q' ≠ r')
    (hstuck : stuck (s'.getDynamicInst q) → some q = r')
    (hexec : s.qExecute ≤ s'.qExecute)
    (hfresh : s'.qExecute ≤ q → (s'.getDynamicInst q).stage.inFlight = false)
    (hren : s.qRename ≤ s'.qRename)
    (hlegal : ∀ q', s.qRename ≤ q' → q' < s'.qRename → q' < s.qHead ∧ (s.getDynamicInst q').op.legal)
    (hlow : s.qTail ≤ s.qRetire) (hup : s.qTail ≤ s.qExecute) (hle : s.qRename ≤ s.qHead) :
    s'.Marker r' := by
  have hops : ∀ q', s.qTail ≤ q' → q' < s.qHead →
      (s'.getDynamicInst q').op = (s.getDynamicInst q').op := by
    intro q' h1 h2
    by_cases he : q' = q
    · rw [he, hop]
    · rw [hother q' h1 h2 he]
  constructor
  · intro b hb
    rw [hbad] at hb
    have h1 := h.range b hb
    have hne : b ≠ q := by
      rintro rfl
      exact hmarker hb
    rw [hhead, hretire]
    exact ⟨h1.1, h1.2.1, (hr b hne).2⟩
  · intro b hb hb'
    rw [hbad] at hb
    rw [hhead] at hb'
    have h1 := h.range b hb
    have hne : b ≠ q := by
      rintro rfl
      exact hmarker hb
    rw [hother b (by omega) hb' hne]
    cases h.bad b hb hb' with
    | inl hst => exact .inl hst
    | inr hill =>
      refine .inr ⟨?_, hill.2⟩
      by_contra hmoved
      have hl := (hlegal b (by omega) (by omega)).2
      rw [hill.2] at hl
      cases hl
  · intro q' h1 h2 hst hne
    rw [htail] at h1
    rw [hhead] at h2
    rw [hbad]
    by_cases he : q' = q
    · rw [he] at hst hne
      exact absurd (hstuck hst) hne
    · rw [hother q' h1 h2 he] at hst
      exact h.covered q' h1 h2 hst (hr q' he).1
  · intro q' h1 h2
    rw [htail] at h1
    by_cases hold : q' < s.qRename
    · rw [hops q' h1 (by omega)]
      exact h.legal q' h1 hold
    · have hl := hlegal q' (by omega) h2
      rw [hops q' h1 hl.1]
      exact hl.2
  · intro q' h1 h2
    rw [hhead] at h2
    by_cases he : q' = q
    · rw [he] at h1 ⊢
      exact hfresh h1
    · rw [hother q' (by omega) h2 he]
      exact h.fresh q' (by omega) h2

theorem modify {q : Nat} {r' : Option Nat} {f : BufferedInst → BufferedInst} (h : s.Marker r)
    (hwf : s.Wf) (hq : s.qTail ≤ q) (hlt : q < s.qHead) (hop : ∀ d, (f d).op = d.op)
    (hmarker : s.qOldestBad ≠ some q) (hr : ∀ q', q' ≠ q → some q' ≠ r ∧ some q' ≠ r')
    (hstuck : stuck (f (s.getDynamicInst q)) → some q = r')
    (hfresh : s.qExecute ≤ q → (f (s.getDynamicInst q)).stage.inFlight = false) :
    (s.modify q f).Marker r' := by
  have ho := hwf.ordered
  have hself := getDynamicInst_modify_self (s := s) q f
  refine h.update hq hlt ?_ (by rw [hself, hop]) rfl rfl rfl rfl hmarker hr (by rwa [hself])
    (Nat.le_refl _) (by rwa [hself]) (Nat.le_refl _) ?_ ho.tail_le_retire
    (ho.tail_le_retire.trans ho.retire_le_execute) ho.rename_le_head
  · intro q' h1 h2 hne
    rw [getDynamicInst_modify, if_neg (ho.slot_ne h1 hq h2 hlt hne)]
  · intro q' h1 h2
    exact absurd h2 (Nat.not_lt.mpr h1)

/-- What the marks of an x86 op are does not matter. -/
theorem modify_same {q : Nat} {f : BufferedInst → BufferedInst} (h : s.Marker r) (ho : s.Ordered)
    (hf : ∀ d, running (f d) = running d) : (s.modify q f).Marker r := by
  refine h.congr rfl rfl rfl (Nat.le_refl _) rfl rfl ?_ ho.tail_le_retire
    (ho.tail_le_retire.trans ho.retire_le_execute) ho.rename_le_head
  intro q' _ _
  rw [getDynamicInst_modify]
  split
  · exact hf _
  · rfl

theorem mark {q : Nat} (h : s.Marker r) (hr : ∀ q', q' ≠ q → some q' ≠ r) (hretire : s.qRetire ≤ q)
    (hlt : q < s.qHead) (hbad : stuck (s.getDynamicInst q) ∨
      q = s.qRename ∧ (s.getDynamicInst q).op.legal = false) : (s.setOldestBad q).Marker none := by
  have hmin : ∀ b, s.qOldestBad = some b → (s.setOldestBad q).qOldestBad = some (min b q) := by
    intro b hb
    unfold setOldestBad
    rw [hb]
  have hnone : s.qOldestBad = none → (s.setOldestBad q).qOldestBad = some q := by
    intro hb
    unfold setOldestBad
    rw [hb]
  have hcases : ∀ b, (s.setOldestBad q).qOldestBad = some b →
      b = q ∨ s.qOldestBad = some b ∧ b ≤ q := by
    intro b hb
    cases hm : s.qOldestBad with
    | none =>
      rw [hnone hm] at hb
      exact .inl (Option.some.inj hb).symm
    | some c =>
      rw [hmin c hm] at hb
      cases hb
      by_cases hle : c ≤ q
      · rw [Nat.min_eq_left hle]
        exact .inr ⟨rfl, hle⟩
      · exact .inl (Nat.min_eq_right (by omega))
  have hle : ∃ b, (s.setOldestBad q).qOldestBad = some b ∧ b ≤ q := by
    cases hm : s.qOldestBad with
    | none => exact ⟨q, hnone hm, Nat.le_refl _⟩
    | some c => exact ⟨min c q, hmin c hm, Nat.min_le_right _ _⟩
  refine ⟨?_, ?_, ?_, h.legal, h.fresh⟩
  · intro b hb
    change s.qRetire ≤ b ∧ b ≤ s.qHead ∧ _
    cases hcases b hb with
    | inl he => exact ⟨by omega, by omega, by rintro ⟨⟩⟩
    | inr hold =>
      have h1 := h.range b hold.1
      exact ⟨h1.1, h1.2.1, by rintro ⟨⟩⟩
  · intro b hb hlt'
    cases hcases b hb with
    | inl he =>
      rw [he]
      exact hbad
    | inr hold => exact h.bad b hold.1 hlt'
  · intro q' h1 h2 hst _
    by_cases he : q' = q
    · rw [he]
      exact hle
    · have ⟨b, hb, hb'⟩ := h.covered q' h1 h2 hst (hr q' he)
      exact ⟨min b q, hmin b hb, (Nat.min_le_left _ _).trans hb'⟩

/-- A uop that has gone runs no longer. -/
theorem gone {q : Nat} (h : s.Marker (some q)) (hq : s.qHead ≤ q) : s.Marker none where
  range b hb := ⟨(h.range b hb).1, (h.range b hb).2.1, by rintro ⟨⟩⟩
  bad := h.bad
  covered q' h1 h2 hst _ := h.covered q' h1 h2 hst (by
    intro he
    have := Option.some.inj he
    omega)
  legal := h.legal
  fresh := h.fresh

theorem refetch {q : Nat} (h : s.Marker r) (hwf : s.Wf) (hq : s.qTail ≤ q) (hlt : q < s.qRename)
    (hs : s.refetch q = some s') : s'.Marker r ∧ s'.qHead ≤ q := by
  have ⟨first, hfirst, hflush⟩ := Option.bind_eq_some_iff.mp hs
  have ⟨h1, h2, _⟩ := hwf.firstOfX86Op hq (hlt.trans_le hwf.ordered.rename_le_head) hfirst
  have hk := hwf.kept h1 (by omega)
  have ⟨_, _, _, _, hhead, _⟩ := hk.flushPipeline hflush
  exact ⟨h.flushPipeline hk hflush, by omega⟩

theorem resolveBranch {q : Nat} {mispredicted : Bool} (h : s.Marker (some q)) (hrun : s.Running q)
    (hs : s.resolveBranch q mispredicted = some s') : s'.Marker (some q) := by
  have htail := hrun.tail_le
  unfold InstructionWindow.resolveBranch at hs
  split at hs
  · split at hs
    · exact h.flushPipeline (hrun.wf.kept (by omega) hrun.lt_rename) hs
    · cases hs
      exact h
  · split at hs
    · -- the place past the head has no uop
      next hhead =>
      cases hs
      refine ⟨by rintro b ⟨⟩, by rintro b ⟨⟩, ?_, h.legal, h.fresh⟩
      intro q' h1 h2 hst hne
      have ⟨b, hb, hle⟩ := h.covered q' h1 h2 hst hne
      rw [hhead] at hb
      cases hb
      exact absurd h2 (Nat.not_lt.mpr hle)
    · cases hs
      exact h

theorem checkException {q : Nat} (h : s.Marker r) (hrun : s.Running q)
    (hs : s.checkException q = some s') : s'.Marker r := by
  have ⟨last, hlast, hs⟩ := Option.bind_eq_some_iff.mp hs
  have ⟨hql, hlh⟩ := hrun.wf.lastOfX86Op hrun.tail_le hrun.lt_head hlast
  have hptr := (hrun.wf.slots.placed last (hrun.tail_le.trans hql) hlh).qPtr
  split at hs
  · cases hs
  next hafter =>
  have ⟨t, ht, heq⟩ := Option.map_eq_some_iff.mp hs
  have ⟨hkept, _⟩ := hrun.kept_unended (by omega) hlh
  have hsame := h.modify_same (q := last) (f := fun d => { d with endsX86Op := false })
    hrun.wf.ordered fun _ => rfl
  have hflushed := hsame.flushPipeline hkept ht
  have ⟨ho, _⟩ := hkept.flushPipeline ht
  rw [← heq]
  exact hflushed.modify_same ho fun _ => rfl

/-- The uop that runs is not the marker. -/
theorem ne_running {q : Nat} (h : s.Marker (some q)) : s.qOldestBad ≠ some q :=
  fun hb => (h.range q hb).2.2 rfl

/-- A uop that runs comes to rest. -/
theorem rest {q : Nat} {f : BufferedInst → BufferedInst} (h : s.Marker (some q))
    (hrun : s.Running q) (hexec : q < s.qExecute) (hop : ∀ d, (f d).op = d.op)
    (hstuck : stuck (f (s.getDynamicInst q)) = false) : (s.modify q f).Marker none := by
  refine h.modify hrun.wf hrun.tail_le hrun.lt_head hop h.ne_running ?_ ?_ ?_
  · intro q' hne
    exact ⟨fun he => hne (Option.some.inj he), by rintro ⟨⟩⟩
  · rw [hstuck]
    rintro ⟨⟩
  · intro hle
    omega

theorem complete {q : Nat} {mispredicted excepting : Bool} (h : s.Marker (some q))
    (hrun : s.Running q) (hs : s.complete q mispredicted excepting = some s') :
    s'.Marker none := by
  have ⟨t, ht, hs⟩ := Option.bind_eq_some_iff.mp hs
  have ⟨u, hu, heq⟩ := Option.map_eq_some_iff.mp hs
  have hmark : t.Marker (some q) ∧ t.Running q := by
    split at ht
    · next hb => exact ⟨h.resolveBranch hrun ht, (hrun.resolveBranch hb ht).1⟩
    · cases ht
      exact ⟨h, hrun⟩
  have hdone : u.Marker (some q) ∧ u.Running q := by
    split at hu
    · split at hu
      · cases hu
        exact ⟨hmark.1.modify_same hmark.2.wf.ordered fun _ => rfl,
          hmark.2.modify (fun _ => rfl) (fun _ => rfl) (.inr (.inr rfl))⟩
      · exact ⟨hmark.1.checkException hmark.2 hu, hmark.2.checkException hu⟩
    · cases hu
      exact hmark
  rw [← heq]
  refine hdone.1.modify hdone.2.wf hdone.2.tail_le hdone.2.lt_head (fun _ => rfl)
    hdone.1.ne_running ?_ ?_ (fun _ => rfl)
  · intro q' hne
    exact ⟨fun he => hne (Option.some.inj he), by rintro ⟨⟩⟩
  · rintro ⟨⟩

theorem schedule {q : Nat} {outcome : Outcome} (h : s.Marker (some q)) (hrun : s.Running q)
    (hr : s.qRetire ≤ q) (hexec : q < s.qExecute) (hs : s.schedule q outcome = some s') :
    s'.Marker none := by
  cases outcome with
  | wait stage =>
    unfold InstructionWindow.schedule at hs
    dsimp only at hs
    split at hs
    · cases hs
      refine h.rest hrun hexec (fun _ => rfl) ?_
      unfold stuck
      simp
    · cases hs
  | noTranslation =>
    cases hs
    have hself := getDynamicInst_modify_self (s := s) q fun d => { d with stage := .WAIT_RB }
    have hstuck : stuck ((s.modify q fun d => { d with stage := .WAIT_RB }).getDynamicInst q) := by
      rw [hself]
      unfold stuck
      rw [hrun.detached]
      simp [InstStage.inFlight]
    have hmoved : (s.modify q fun d => { d with stage := .WAIT_RB }).Marker (some q) := by
      refine h.modify hrun.wf hrun.tail_le hrun.lt_head (fun _ => rfl) h.ne_running ?_
        (fun _ => rfl) (fun hle => absurd hexec (Nat.not_lt.mpr hle))
      intro q' hne
      exact ⟨fun he => hne (Option.some.inj he), fun he => hne (Option.some.inj he)⟩
    exact hmoved.mark (fun q' hne he => hne (Option.some.inj he)) hr hrun.lt_head (.inl hstuck)
  | stored =>
    unfold InstructionWindow.schedule at hs
    dsimp only at hs
    split at hs
    · next hstore =>
      cases hs
      refine h.rest hrun hexec (fun _ => rfl) ?_
      unfold stuck
      simp [hstore]
    · cases hs
  | unaligned =>
    have ⟨hm, hhead⟩ := h.refetch hrun.wf hrun.tail_le hrun.lt_rename hs
    exact hm.gone hhead
  | complete mispredicted excepting => exact h.complete hrun hs

theorem wakeup {slot : Nat} {outcome : Outcome} (h : s.Marker none) (hwf : s.Wf)
    (hs : s.wakeup slot outcome = some s') : s'.Marker none := by
  unfold InstructionWindow.wakeup at hs
  dsimp only at hs
  split at hs
  case isFalse => cases hs
  case isTrue hw =>
    have ⟨hflight, q, h1, h2, hslot⟩ := hwf.waiters slot hw
    have htail : s.qTail ≤ q := hwf.ordered.tail_le_retire.trans h1
    have hlt : q < s.qHead := h2.trans_le hwf.ordered.rename_le_head
    have hq : (s.buffer slot).qPtr = q := by
      rw [hslot]
      exact (hwf.slots.placed q htail hlt).qPtr
    have hget : s.getDynamicInst q = s.buffer slot := by
      rw [hslot]
      rfl
    rw [hq] at hs
    have hexec : q < s.qExecute := by
      by_contra hge
      have hno := h.fresh q (Nat.not_lt.mp hge) hlt
      rw [hget, hflight] at hno
      cases hno
    have hmarker : s.qOldestBad ≠ some q := by
      intro hb
      cases h.bad q hb hlt with
      | inl hst =>
        unfold stuck at hst
        rw [hget, hw] at hst
        simp at hst
      | inr hill => omega
    have hwoken : (s.modify q fun d => { d with waiting := false }).Wf := by
      refine hwf.modify htail hlt (fun _ => rfl) (hwf.slots.placed q htail hlt).executed ?_
      rintro ⟨⟩
    have hrun : (s.modify q fun d => { d with waiting := false }).Running q := by
      refine ⟨hwoken, htail, h2, ?_⟩
      rw [getDynamicInst_modify_self]
    refine Marker.schedule ?_ hrun h1 hexec hs
    refine h.modify hwf htail hlt (fun _ => rfl) hmarker ?_ (fun _ => rfl)
      (fun hle => absurd hexec (Nat.not_lt.mpr hle))
    intro q' hne
    exact ⟨by rintro ⟨⟩, fun he => hne (Option.some.inj he)⟩

/-- Nothing before the execution point is the marker, unless rename has refused it. -/
theorem ne_fresh {q : Nat} (h : s.Marker r) (hexec : s.qExecute ≤ q) (hlt : q < s.qHead)
    (hlegal : (s.getDynamicInst q).op.legal) : s.qOldestBad ≠ some q := by
  intro hb
  cases h.bad q hb hlt with
  | inl hst =>
    unfold stuck at hst
    rw [h.fresh q hexec hlt] at hst
    cases hst
  | inr hill =>
    rw [hill.2] at hlegal
    cases hlegal

/-- The execution point goes past a uop. -/
theorem advanceExecute {f : BufferedInst → BufferedInst} (h : s.Marker none) (r' : Option Nat)
    (hwf : s.Wf) (hlt : s.qExecute < s.qRename) (hop : ∀ d, (f d).op = d.op)
    (hr : r' = none ∨ r' = some s.qExecute)
    (hstuck : stuck (f (s.getDynamicInst s.qExecute)) → some s.qExecute = r') :
    ({ s.modify s.qExecute f with qExecute := s.qExecute + 1 }).Marker r' := by
  have ho := hwf.ordered
  have htail := ho.tail_le_retire.trans ho.retire_le_execute
  have hlt' := hlt.trans_le ho.rename_le_head
  have hself := getDynamicInst_modify_self (s := s) s.qExecute f
  have hmarker := h.ne_fresh (Nat.le_refl _) hlt' (h.legal s.qExecute htail hlt)
  refine h.update (q := s.qExecute) htail hlt' ?_ ?_ rfl rfl rfl rfl hmarker ?_ ?_ (Nat.le_succ _)
    ?_ (Nat.le_refl _) ?_ ho.tail_le_retire htail ho.rename_le_head
  · intro q' h1 h2 hne
    change (s.modify s.qExecute f).getDynamicInst q' = _
    rw [getDynamicInst_modify, if_neg (ho.slot_ne h1 htail h2 hlt' hne)]
  · change ((s.modify s.qExecute f).getDynamicInst s.qExecute).op = _
    rw [hself, hop]
  · intro q' hne
    refine ⟨by rintro ⟨⟩, ?_⟩
    cases hr with
    | inl hr =>
      rw [hr]
      rintro ⟨⟩
    | inr hr =>
      rw [hr]
      exact mt Option.some.inj hne
  · change stuck ((s.modify s.qExecute f).getDynamicInst s.qExecute) → _
    rwa [hself]
  · intro hle
    exact absurd hle (Nat.not_succ_le_self _)
  · intro q' h1 h2
    exact absurd h2 (Nat.not_lt.mpr h1)

theorem execute {outcome : Outcome} (h : s.Marker none) (hwf : s.Wf)
    (hs : s.execute outcome = some s') : s'.Marker none := by
  have ho := hwf.ordered
  have hcore := ho.corePipe.head
  unfold InstructionWindow.execute at hs
  split at hs
  · cases hs
  next hready =>
  have hre : s.qExecute < s.qRename := by
    simp only [Bool.or_eq_true, decide_eq_true_eq, not_or] at hready
    omega
  split at hs
  · next hst =>
    cases hs
    have hdone := h.advanceExecute (f := fun d => d) none hwf hre (fun _ => rfl) (.inl rfl) (by
      unfold stuck
      rw [hst]
      rintro ⟨⟩)
    rwa [modify_id] at hdone
  · cases outcome with
    | wait stage =>
      have ⟨t, ht, heq⟩ := Option.map_eq_some_iff.mp hs
      unfold InstructionWindow.schedule at ht
      dsimp only at ht
      split at ht
      · cases ht
        rw [← heq, modify_modify]
        refine h.advanceExecute none hwf hre (fun _ => rfl) (.inl rfl) ?_
        unfold stuck
        simp
      · cases ht
    | noTranslation =>
      have ⟨t, ht, heq⟩ := Option.map_eq_some_iff.mp hs
      cases ht
      rw [← heq, modify_modify]
      have hlt := hre.trans_le ho.rename_le_head
      have hself := getDynamicInst_modify_self (s := s) s.qExecute
        ((fun d => { d with stage := .WAIT_RB }) ∘ fun d => { d with stage := .WAIT_RA })
      have hwait : (s.getDynamicInst s.qExecute).waiting = false := by
        by_contra hw
        have ⟨hflight, _⟩ := hwf.waiters _ (Bool.eq_true_of_not_eq_false hw)
        have hno := h.fresh s.qExecute (Nat.le_refl _) hlt
        unfold getDynamicInst at hno
        rw [hflight] at hno
        cases hno
      have hmoved := h.advanceExecute
        (f := (fun d => { d with stage := .WAIT_RB }) ∘ fun d => { d with stage := .WAIT_RA })
        (some s.qExecute) hwf hre (fun _ => rfl) (.inr rfl) (fun _ => rfl)
      refine hmoved.mark (fun q' hne => mt Option.some.inj hne) ho.retire_le_execute hlt (.inl ?_)
      change stuck ((s.modify s.qExecute _).getDynamicInst s.qExecute)
      rw [hself]
      unfold stuck
      simp [hwait, InstStage.inFlight]
    | _ => cases hs

/-- The rename point goes past a uop that it has found legal. -/
theorem advanceRename {f : BufferedInst → BufferedInst} (h : s.Marker none) (hwf : s.Wf)
    (hlt : s.qRename < s.qHead) (hlegal : (s.getDynamicInst s.qRename).op.legal)
    (hop : ∀ d, (f d).op = d.op)
    (hflight : (f (s.getDynamicInst s.qRename)).stage.inFlight = false) :
    ({ s.modify s.qRename f with qRename := s.qRename + 1 }).Marker none := by
  have ho := hwf.ordered
  have hup := ho.tail_le_retire.trans ho.retire_le_execute
  have htail := hup.trans ho.execute_le_rename
  have hself := getDynamicInst_modify_self (s := s) s.qRename f
  have hmarker := h.ne_fresh ho.execute_le_rename hlt hlegal
  refine h.update (q := s.qRename) htail hlt ?_ ?_ rfl rfl rfl rfl hmarker ?_ ?_ (Nat.le_refl _)
    ?_ (Nat.le_succ _) ?_ ho.tail_le_retire hup ho.rename_le_head
  · intro q' h1 h2 hne
    change (s.modify s.qRename f).getDynamicInst q' = _
    rw [getDynamicInst_modify, if_neg (ho.slot_ne h1 htail h2 hlt hne)]
  · change ((s.modify s.qRename f).getDynamicInst s.qRename).op = _
    rw [hself, hop]
  · intro q' _
    exact ⟨by rintro ⟨⟩, by rintro ⟨⟩⟩
  · change stuck ((s.modify s.qRename f).getDynamicInst s.qRename) → _
    rw [hself]
    unfold stuck
    rw [hflight]
    rintro ⟨⟩
  · intro _
    change ((s.modify s.qRename f).getDynamicInst s.qRename).stage.inFlight = false
    rw [hself, hflight]
  · intro q' h1 h2
    have he : q' = s.qRename := Nat.le_antisymm (Nat.le_of_lt_succ h2) h1
    rw [he]
    exact ⟨hlt, hlegal⟩

theorem rename (h : s.Marker none) (hwf : s.Wf) (hs : s.rename = some s') : s'.Marker none := by
  have ho := hwf.ordered
  unfold InstructionWindow.rename at hs
  split at hs
  · cases hs
  split at hs
  · cases hs
  next hlt =>
  have hlt' := Nat.not_le.mp hlt
  dsimp only at hs
  split at hs
  case isTrue hill =>
    cases hs
    refine h.mark (fun _ _ => by rintro ⟨⟩) (ho.retire_le_execute.trans ho.execute_le_rename) hlt'
      (.inr ⟨rfl, ?_⟩)
    simpa using hill
  case isFalse hill =>
    have hlegal : (s.getDynamicInst s.qRename).op.legal := by simpa using hill
    split at hs
    · cases hs
      exact h.advanceRename hwf hlt' hlegal (fun _ => rfl) rfl
    · split at hs
      · cases hs
        exact h.advanceRename hwf hlt' hlegal (fun _ => rfl) rfl
      · cases hs

theorem of_empty (hbad : s.qOldestBad = none) (hhead : s.qHead ≤ s.qTail)
    (hexec : s.qTail ≤ s.qExecute) (hren : s.qRename ≤ s.qHead) : s.Marker r where
  range b hb := by
    rw [hbad] at hb
    cases hb
  bad b hb := by
    rw [hbad] at hb
    cases hb
  covered q h1 h2 := absurd h2 (by omega)
  legal q h1 h2 := absurd h2 (by omega)
  fresh q h1 h2 := absurd h2 (by omega)

theorem resetState (s : InstructionWindow bits) : s.resetState.Marker r := by
  unfold InstructionWindow.resetState
  rw [modifyDown_eq]
  exact of_empty rfl (Nat.le_refl _) (Nat.le_refl _) (Nat.le_refl _)

/-- The retire point goes past a uop that is complete, and the older uops leave, or none does. -/
theorem advanceRetire (h : s.Marker none) (ho : s.Ordered) (hlt : s.qRetire < s.qExecute)
    (hmarker : s.qOldestBad ≠ some s.qRetire) (tail : Nat) (buffer : Nat → BufferedInst)
    (htail : s.qTail ≤ tail)
    (hget : ∀ q, tail ≤ q → q < s.qHead → buffer (mappedIndex bits q) = s.getDynamicInst q) 
    (hlow : tail ≤ s.qRetire + 1) :
    ({ s with buffer := buffer, qTail := tail, qRetire := s.qRetire + 1 }).Marker none := by
  have h1 := ho.execute_le_rename
  have h2 := ho.rename_le_head
  have hafter : ∀ b, s.qOldestBad = some b → s.qRetire + 1 ≤ b := by
    intro b hb
    have hr := (h.range b hb).1
    by_contra hge
    have he : b = s.qRetire := by omega
    rw [he] at hb
    exact hmarker hb
  constructor
  · intro b hb
    exact ⟨hafter b hb, (h.range b hb).2⟩
  · intro b hb hb'
    change stuck (buffer _) ∨ _ ∧ (buffer _).op.legal = false
    rw [hget b (hlow.trans (hafter b hb)) hb']
    exact h.bad b hb hb'
  · intro q hq hlt hst hne
    change stuck (buffer _) at hst
    rw [hget q hq hlt] at hst
    exact h.covered q (htail.trans hq) hlt hst hne
  · intro q hq hlt
    dsimp only at hq hlt
    change (buffer _).op.legal
    rw [hget q hq (by omega)]
    exact h.legal q (htail.trans hq) hlt
  · intro q hq hlt
    dsimp only at hq hlt
    change (buffer _).stage.inFlight = false
    rw [hget q (by omega) hlt]
    exact h.fresh q hq hlt

theorem commitX86Op {succeed : Bool} (h : s.Marker none) (hready : s.Ready)
    (hmarker : s.qOldestBad ≠ some s.qRetire) (hs : s.commitX86Op succeed = some s') :
    s'.Marker none := by
  have ho := hready.wf.ordered
  have h1 := ho.tail_le_retire
  have h2 := hready.lt_execute
  have h3 := ho.execute_le_rename
  have h4 := ho.rename_le_head
  unfold InstructionWindow.commitX86Op at hs
  dsimp only at hs
  split at hs
  · cases hs
  split at hs
  · cases hs
    rw [modifyDown_eq]
    refine h.advanceRetire ho h2 hmarker (s.qRetire + 1) _ (by omega) ?_ (Nat.le_refl _)
    intro q hq hlt
    exact modifyDown_getDynamicInst ho (by omega) hlt (.inr (by omega)) (Nat.le_refl _) (by omega)
  · cases hs
    exact resetState _

theorem retireChecked {succeed : Bool} (h : s.Marker none) (hready : s.Ready)
    (hmarker : s.qOldestBad ≠ some s.qRetire) (hs : s.retireChecked succeed = some s') :
    s'.Marker none := by
  have ho := hready.wf.ordered
  unfold InstructionWindow.retireChecked at hs
  dsimp only at hs
  split at hs
  · exact (h.refetch hready.wf ho.tail_le_retire (hready.lt_execute.trans_le ho.execute_le_rename)
      hs).1
  split at hs
  · exact h.commitX86Op hready hmarker hs
  · cases hs
    have hlow := ho.tail_le_retire
    exact h.advanceRetire ho hready.lt_execute hmarker s.qTail s.buffer (Nat.le_refl _)
      (fun _ _ _ => rfl) (by omega)

theorem retireReady {violation : Violation} {succeed : Bool} (h : s.Marker none)
    (hready : s.Ready) (hmarker : s.qOldestBad ≠ some s.qRetire)
    (hs : s.retireReady violation succeed = some s') : s'.Marker none := by
  have ho := hready.wf.ordered
  have hlt := hready.lt_execute.trans_le ho.execute_le_rename
  have htail := ho.tail_le_retire
  have hexec := hready.lt_execute
  have hptr := (hready.wf.slots.placed _ htail (hlt.trans_le ho.rename_le_head)).qPtr
  unfold InstructionWindow.retireReady at hs
  dsimp only at hs
  split at hs
  · cases hs
  cases violation with
  | loadOrdering =>
    dsimp only at hs
    rw [hptr] at hs
    exact h.replay hready.wf htail hlt.le hs
  | loadConsistency =>
    have ⟨t, ht, hs⟩ := Option.bind_eq_some_iff.mp hs
    rw [hptr] at ht
    have ⟨hwf, hretire, hexecute, hget⟩ := hready.wf.replay (by omega) hlt ht
    have hr : t.qRetire = s.qRetire := by omega
    have hdone : t.Ready := by
      refine ⟨hwf, by omega, ?_⟩
      rw [hr, hget _ htail (Nat.lt_succ_self _)]
      exact hready.complete
    refine (h.replay hready.wf (by omega) hlt ht).retireChecked hdone ?_ hs
    obtain ⟨-, rfl⟩ := replay_eq ht
    rw [hr]
    exact fun hb => hmarker (squashOldestBad_eq_some.mp hb).1
  | none => exact h.retireChecked hready hmarker hs

theorem retire {storeHit succeed : Bool} {violation : Violation} (h : s.Marker none)
    (hwf : s.Wf) (hs : s.retire storeHit violation succeed = some s') : s'.Marker none := by
  have ho := hwf.ordered
  have hpipe := ho.retirePipe.head
  unfold InstructionWindow.retire at hs
  split at hs
  · cases hs
    exact resetState s
  next hmarker =>
  split at hs
  · cases hs
  next hahead =>
  have hlt : s.qRetire < s.qExecute := by omega
  have hren := hlt.trans_le ho.execute_le_rename
  have hhead := hren.trans_le ho.rename_le_head
  dsimp only at hs
  split at hs
  · next hc => exact h.retireReady ⟨hwf, hlt, hc⟩ hmarker hs
  next hc =>
  have hflight : (s.getDynamicInst s.qRetire).stage.inFlight :=
    ((hwf.slots.placed _ ho.tail_le_retire hhead).executed hlt).resolve_right hc
  split at hs
  case isFalse => cases hs
  case isTrue hstore =>
  have hdet : (s.getDynamicInst s.qRetire).waiting = false := by
    simp only [Bool.and_eq_true, Bool.not_eq_true'] at hstore
    exact hstore.2
  have hothers : ∀ q', q' ≠ s.qRetire → some q' ≠ (none : Option Nat) ∧ some q' ≠ none :=
    fun _ _ => ⟨by rintro ⟨⟩, by rintro ⟨⟩⟩
  have hnot : ¬ s.qExecute ≤ s.qRetire := Nat.not_le.mpr hlt
  split at hs
  · have hrun : s.Running s.qRetire := ⟨hwf, ho.tail_le_retire, hren, hdet⟩
    have hdone := hrun.modify (f := fun d => { d with stage := .COMPLETE }) (fun _ => rfl)
      (fun _ => rfl) (.inr (.inl rfl))
    have hm : (s.modify s.qRetire fun d => { d with stage := .COMPLETE }).Marker none :=
      h.modify hwf ho.tail_le_retire hhead (fun _ => rfl) hmarker hothers (by rintro ⟨⟩)
        (fun hle => absurd hle hnot)
    refine hm.retireReady ⟨hdone.wf, hlt, ?_⟩ hmarker hs
    change (getDynamicInst s.qRetire _).stage = _
    rw [getDynamicInst_modify_self]
  · cases hs
    refine h.modify hwf ho.tail_le_retire hhead (fun _ => rfl) hmarker hothers ?_
      (fun hle => absurd hle hnot)
    unfold stuck
    simp

theorem fetch {uops : List Op} (h : s.Marker none) (hwf : s.Wf) (hs : s.fetch uops = some s') :
    s'.Marker none := by
  have ho := hwf.ordered
  have hren := ho.rename_le_head
  have hexec := ho.execute_le_rename
  unfold InstructionWindow.fetch at hs
  split at hs
  case isFalse => cases hs
  case isTrue hready =>
  have ⟨hnone, hroom⟩ := fetchReady_eq hready
  unfold decodeCurrentX86Instruction at hs
  dsimp only at hs
  split at hs
  · cases hs
  next hok =>
  simp only [Bool.or_eq_true, decide_eq_true_eq, Bool.not_eq_true', not_or, Nat.not_lt,
    Bool.not_eq_false] at hok
  have ⟨⟨hmax, _⟩, hdet⟩ := hok
  split at hs
  case isFalse => cases hs
  case isTrue =>
  cases hs
  change ({ s.fetched uops with qHead := s.qHead + uops.length }).Marker none
  have hfits := s.params.fits
  have hsize : uops.length ≤ 1 <<< bits := by omega
  have hold : ∀ q, s.qTail ≤ q → q < s.qHead →
      (s.fetched uops).getDynamicInst q = s.getDynamicInst q :=
    fun q h1 h2 => hwf.fetched_old hready hmax h1 h2
  have hnew : ∀ q, s.qHead ≤ q → q < s.qHead + uops.length →
      ((s.fetched uops).getDynamicInst q).stage = .FETCH := by
    intro q h1 h2
    obtain ⟨k, rfl⟩ := Nat.exists_eq_add_of_le h1
    rw [fetched_get (by omega) hsize hdet]
  have htailHead := (ho.tail_le_retire.trans ho.retire_le_execute).trans (hexec.trans hren)
  rw [fetched_eq]
  constructor
  · intro b hb
    rw [show _ = s.qOldestBad from rfl, hnone] at hb
    cases hb
  · intro b hb
    rw [show _ = s.qOldestBad from rfl, hnone] at hb
    cases hb
  · intro q h1 h2 hst hne
    dsimp only at h1 h2
    change stuck ((s.fetched uops).getDynamicInst q) at hst
    by_cases hq : q < s.qHead
    · rw [hold q h1 hq] at hst
      exact h.covered q h1 hq hst hne
    · unfold stuck at hst
      rw [hnew q (by omega) h2] at hst
      cases hst
  · intro q h1 h2
    dsimp only at h1 h2
    change ((s.fetched uops).getDynamicInst q).op.legal
    rw [hold q h1 (by omega)]
    exact h.legal q h1 h2
  · intro q h1 h2
    dsimp only at h1 h2
    change ((s.fetched uops).getDynamicInst q).stage.inFlight = false
    by_cases hq : q < s.qHead
    · rw [hold q (by have := ho.tail_le_retire.trans ho.retire_le_execute; omega) hq]
      exact h.fresh q h1 hq
    · rw [hnew q (by omega) h2]
      rfl

theorem fetchFailed (h : s.Marker none) (hwf : s.Wf) (hs : s.fetchFailed = some s') :
    s'.Marker none := by
  have ho := hwf.ordered
  unfold InstructionWindow.fetchFailed at hs
  split at hs
  case isFalse => cases hs
  case isTrue hready =>
  have ⟨hnone, _⟩ := fetchReady_eq hready
  cases hs
  have hhead : (s.setOldestBad s.qHead).qOldestBad = some s.qHead := by
    unfold setOldestBad
    rw [hnone]
  refine ⟨?_, ?_, ?_, h.legal, h.fresh⟩
  · intro b hb
    rw [hhead] at hb
    cases hb
    exact ⟨(ho.retire_le_execute.trans ho.execute_le_rename).trans ho.rename_le_head,
      Nat.le_refl _, by rintro ⟨⟩⟩
  · intro b hb hlt
    rw [hhead] at hb
    cases hb
    exact absurd hlt (Nat.lt_irrefl _)
  · intro q h1 h2 hst hne
    have ⟨b, hb, _⟩ := h.covered q h1 h2 hst hne
    rw [hnone] at hb
    cases hb

theorem pipes (h : s.Marker none) (hwf : s.Wf) (fetch core retire : PipeStages) :
    ({ s with fetchPipe := fetch, corePipe := core, retirePipe := retire }).Marker none := by
  have ho := hwf.ordered
  exact h.congr rfl rfl rfl (Nat.le_refl _) rfl rfl (fun _ _ _ => rfl) ho.tail_le_retire
    (ho.tail_le_retire.trans ho.retire_le_execute) ho.rename_le_head

theorem insertTail {pipe : Pipe} (h : s.Marker none) (hwf : s.Wf)
    (hs : s.insertTail pipe = some s') : s'.Marker none := by
  cases pipe with
  | fetch | core | retire =>
    have ⟨p, _, heq⟩ := Option.map_eq_some_iff.mp hs
    rw [← heq]
    exact h.pipes hwf _ _ _

theorem step {e : Event bits} (h : s.Marker none) (hwf : s.Wf) (hs : s.step e = some s') :
    s'.Marker none := by
  cases e with
  | fetch uops => exact h.fetch hwf hs
  | fetchFailed => exact h.fetchFailed hwf hs
  | rename => exact h.rename hwf hs
  | execute outcome => exact h.execute hwf hs
  | wakeup slot outcome => exact h.wakeup hwf hs
  | retire storeHit violation succeed => exact h.retire hwf hs
  | insertTail pipe => exact h.insertTail hwf hs
  | cycle =>
    cases hs
    exact h.pipes hwf _ _ _
  | reset params =>
    cases hs
    change ({ s.resetState with params := params }).Marker none
    unfold InstructionWindow.resetState
    rw [modifyDown_eq]
    exact of_empty rfl (Nat.le_refl _) (Nat.le_refl _) (Nat.le_refl _)

end Marker

/-! The decode that failed -/

/-- The marker is for the place past the youngest uop. -/
def HeadMarked (s : InstructionWindow bits) : Prop := s.qOldestBad = some s.qHead

theorem flush_unmarked {first : Nat} (hs : s.flushPipeline first = some s') : ¬ s'.HeadMarked := by
  obtain ⟨-, rfl⟩ := flushPipeline_eq hs
  intro hb
  exact absurd (squashOldestBad_eq_some.mp hb).2 (Nat.lt_irrefl _)

theorem replay_unmarked {first : Nat} (hle : first ≤ s.qHead) (hs : s.replay first = some s') :
    ¬ s'.HeadMarked := by
  obtain ⟨-, rfl⟩ := replay_eq hs
  intro hb
  exact absurd (squashOldestBad_eq_some.mp hb).2 (Nat.not_lt.mpr hle)

theorem setOldestBad_unmarked {q : Nat} (hlt : q < s.qHead) : ¬ (s.setOldestBad q).HeadMarked := by
  intro hb
  unfold HeadMarked setOldestBad at hb
  have he := Option.some.inj hb
  dsimp only at he
  split at he
  · omega
  · omega

theorem refetch_unmarked {q : Nat} (hs : s.refetch q = some s') : ¬ s'.HeadMarked := by
  have ⟨_, _, hflush⟩ := Option.bind_eq_some_iff.mp hs
  exact flush_unmarked hflush

theorem checkException_unmarked {q : Nat} (hs : s.checkException q = some s') :
    ¬ s'.HeadMarked := by
  have ⟨last, _, hs⟩ := Option.bind_eq_some_iff.mp hs
  split at hs
  · cases hs
  have ⟨t, ht, heq⟩ := Option.map_eq_some_iff.mp hs
  rw [← heq]
  intro hb
  exact flush_unmarked ht hb

theorem resetState_unmarked (s : InstructionWindow bits) : ¬ s.resetState.HeadMarked := by
  unfold InstructionWindow.resetState
  rintro ⟨⟩

theorem resolveBranch_marked {q : Nat} {mispredicted : Bool}
    (hs : s.resolveBranch q mispredicted = some s') (hb : s'.HeadMarked) :
    s.HeadMarked ∧ (mispredicted || decide (s.qHead ≤ q + 1)) = false := by
  unfold InstructionWindow.resolveBranch at hs
  split at hs
  · next hlt =>
    split at hs
    · exact absurd hb (flush_unmarked hs)
    · next hm =>
      cases hs
      refine ⟨hb, ?_⟩
      rw [Bool.eq_false_of_not_eq_true hm, decide_eq_false (Nat.not_le.mpr hlt)]
      rfl
  · split at hs
    · cases hs
      cases hb
    · next hne =>
      cases hs
      exact absurd hb hne

theorem complete_marked {q : Nat} {mispredicted excepting : Bool}
    (hs : s.complete q mispredicted excepting = some s') (hb : s'.HeadMarked) :
    s.HeadMarked ∧ (Outcome.complete mispredicted excepting).redirects (s.getDynamicInst q)
      (s.qHead ≤ q + 1) = false := by
  have ⟨t, ht, hs⟩ := Option.bind_eq_some_iff.mp hs
  have ⟨u, hu, heq⟩ := Option.map_eq_some_iff.mp hs
  have hb : u.HeadMarked := by
    rw [← heq] at hb
    exact hb
  have hcheck : t.HeadMarked ∧ ((s.getDynamicInst q).op.ischeck && excepting &&
      !(s.getDynamicInst q).endsX86Op) = false := by
    split at hu
    · split at hu
      · next hends =>
        cases hu
        refine ⟨hb, ?_⟩
        rw [hends, Bool.not_true, Bool.and_false]
      · exact absurd hb (checkException_unmarked hu)
    · next hno =>
      cases hu
      rw [Bool.eq_false_of_not_eq_true hno]
      exact ⟨hb, rfl⟩
  rw [Outcome.redirects, hcheck.2, Bool.or_false]
  split at ht
  · next hbranch =>
    rw [hbranch, Bool.true_and]
    exact resolveBranch_marked ht hcheck.1
  · next hno =>
    cases ht
    rw [Bool.eq_false_of_not_eq_true hno]
    exact ⟨hcheck.1, rfl⟩

theorem schedule_marked {q : Nat} {outcome : Outcome} (hlt : q < s.qHead)
    (hs : s.schedule q outcome = some s') (hb : s'.HeadMarked) :
    s.HeadMarked ∧ outcome.redirects (s.getDynamicInst q) (s.qHead ≤ q + 1) = false := by
  cases outcome with
  | wait stage =>
    unfold schedule at hs
    dsimp only at hs
    split at hs
    · cases hs
      exact ⟨hb, rfl⟩
    · cases hs
  | noTranslation =>
    cases hs
    exact absurd hb (setOldestBad_unmarked hlt)
  | stored =>
    unfold schedule at hs
    dsimp only at hs
    split at hs
    · cases hs
      exact ⟨hb, rfl⟩
    · cases hs
  | unaligned => exact absurd hb (refetch_unmarked hs)
  | complete mispredicted excepting => exact complete_marked hs hb

theorem wakeup_marked {slot : Nat} {outcome : Outcome} (hwf : s.Wf)
    (hs : s.wakeup slot outcome = some s') (hb : s'.HeadMarked) :
    s.HeadMarked ∧ s.redirects (.wakeup slot outcome) = false := by
  unfold wakeup at hs
  dsimp only at hs
  split at hs
  case isFalse => cases hs
  case isTrue hw =>
  have ⟨_, q, h1, h2, hslot⟩ := hwf.waiters slot hw
  have htail := hwf.ordered.tail_le_retire.trans h1
  have hlt := h2.trans_le hwf.ordered.rename_le_head
  have hq : (s.buffer slot).qPtr = q := by
    rw [hslot]
    exact (hwf.slots.placed q htail hlt).qPtr
  rw [hq] at hs
  have ⟨hm, hstay⟩ := schedule_marked (s := s.modify q fun d => { d with waiting := false }) hlt hs hb
  refine ⟨hm, ?_⟩
  rw [getDynamicInst_modify_self] at hstay
  unfold redirects
  dsimp only
  rw [hq, hslot]
  exact hstay

theorem retireReady_marked {violation : Violation} {succeed : Bool} {d : BufferedInst} (hwf : s.Wf)
    (hlt : s.qRetire < s.qRename) (hd : s.getDynamicInst s.qRetire = d)
    (hs : s.retireReady violation succeed = some s') (hb : s'.HeadMarked) :
    s.HeadMarked ∧ (if violation = .loadOrdering then false
      else d.endsX86Op && (d.op.ischeck && !d.checkException || !succeed)) = false := by
  have ho := hwf.ordered
  have hptr := (hwf.slots.placed _ ho.tail_le_retire (hlt.trans_le ho.rename_le_head)).qPtr
  have hchecked : ∀ t : InstructionWindow bits, t.getDynamicInst t.qRetire = d →
      t.retireChecked succeed = some s' → t.HeadMarked ∧
        (d.endsX86Op && (d.op.ischeck && !d.checkException || !succeed)) = false := by
    intro t ht hs
    unfold retireChecked at hs
    dsimp only at hs
    rw [ht] at hs
    split at hs
    · exact absurd hb (refetch_unmarked hs)
    next hno =>
    split at hs
    · next hends =>
      unfold commitX86Op at hs
      dsimp only at hs
      split at hs
      · cases hs
      split at hs
      · next hok =>
        cases hs
        rw [modifyDown_eq] at hb
        refine ⟨hb, ?_⟩
        rw [hends, Bool.and_true] at hno
        rw [Bool.eq_false_of_not_eq_true hno, hok, Bool.not_true, Bool.or_false, Bool.and_false]
      · cases hs
        exact absurd hb (resetState_unmarked _)
    · next hends =>
      cases hs
      rw [Bool.eq_false_of_not_eq_true hends]
      exact ⟨hb, rfl⟩
  unfold retireReady at hs
  dsimp only at hs
  rw [hptr] at hs
  split at hs
  · cases hs
  cases violation with
  | loadOrdering => exact absurd hb (replay_unmarked (hlt.trans_le ho.rename_le_head).le hs)
  | loadConsistency =>
    have ⟨t, ht, hs⟩ := Option.bind_eq_some_iff.mp hs
    have ⟨_, hretire, _, hget⟩ := hwf.replay (ho.tail_le_retire.trans (Nat.le_succ _)) hlt ht
    have hr : t.qRetire = s.qRetire := hretire.trans (Nat.min_eq_left (Nat.le_succ _))
    have hsame : t.getDynamicInst t.qRetire = d := by
      rw [hr, hget _ ho.tail_le_retire (Nat.lt_succ_self _), hd]
    have hhead : t.qHead = s.qHead := by
      obtain ⟨-, rfl⟩ := replay_eq ht
      rfl
    exact absurd (hchecked t hsame hs).1 (replay_unmarked (hlt.trans_le ho.rename_le_head) ht)
  | none => exact hchecked s hd hs

theorem retire_marked {storeHit succeed : Bool} {violation : Violation} (hwf : s.Wf)
    (hs : s.retire storeHit violation succeed = some s') (hb : s'.HeadMarked) :
    s.HeadMarked ∧ s.redirects (.retire storeHit violation succeed) = false := by
  have ho := hwf.ordered
  have hpipe := ho.retirePipe.head
  unfold retire at hs
  unfold redirects
  dsimp only
  split at hs
  · cases hs
    exact absurd hb (resetState_unmarked s)
  next hmarker =>
  rw [if_neg hmarker]
  split at hs
  · cases hs
  next hahead =>
  have hlt : s.qRetire < s.qExecute := by omega
  have hren := hlt.trans_le ho.execute_le_rename
  have hhead := hren.trans_le ho.rename_le_head
  dsimp only at hs
  split at hs
  · next hc =>
    have ⟨hm, hstay⟩ := retireReady_marked hwf hren rfl hs hb
    refine ⟨hm, ?_⟩
    rw [hc]
    simpa using hstay
  next hc =>
  split at hs
  case isFalse => cases hs
  case isTrue hstore =>
  have hdet : (s.getDynamicInst s.qRetire).waiting = false := by
    simp only [Bool.and_eq_true, Bool.not_eq_true'] at hstore
    exact hstore.2
  split at hs
  · next hhit =>
    have hrun : s.Running s.qRetire := ⟨hwf, ho.tail_le_retire, hren, hdet⟩
    have hdone := hrun.modify (f := fun d => { d with stage := .COMPLETE }) (fun _ => rfl)
      (fun _ => rfl) (.inr (.inl rfl))
    have ⟨hm, hstay⟩ := retireReady_marked
      (s := s.modify s.qRetire fun d => { d with stage := .COMPLETE }) hdone.wf hren
      (getDynamicInst_modify_self (s := s) s.qRetire fun d => { d with stage := .COMPLETE }) hs hb
    refine ⟨hm, ?_⟩
    rw [hhit]
    simpa using hstay
  · next hmiss =>
    cases hs
    refine ⟨hb, ?_⟩
    rw [Bool.eq_false_of_not_eq_true hmiss, if_pos (.inl ⟨hc, rfl⟩)]

/-- A step leaves the marker at the head only if it was there and fetch stays where it is. -/
theorem step_marked {e : Event bits} (hwf : s.Wf) (hs : s.step e = some s') (hb : s'.HeadMarked)
    (hdecode : e ≠ .fetchFailed) : s.HeadMarked ∧ s.redirects e = false := by
  have ho := hwf.ordered
  have hexec := ho.execute_le_rename
  have hren := ho.rename_le_head
  cases e with
  | fetchFailed => exact absurd rfl hdecode
  | fetch uops =>
    change s.fetch uops = some s' at hs
    unfold fetch at hs
    split at hs
    case isFalse => cases hs
    case isTrue hready =>
    have ⟨hnone, _⟩ := fetchReady_eq hready
    unfold decodeCurrentX86Instruction at hs
    dsimp only at hs
    split at hs
    · cases hs
    split at hs
    case isFalse => cases hs
    case isTrue =>
    cases hs
    have hsame : (s.fetched uops).qOldestBad = s.qOldestBad := by
      rw [fetched_eq]
    have hb : (s.fetched uops).qOldestBad = some (s.qHead + uops.length) := hb
    rw [hsame, hnone] at hb
    cases hb
  | rename =>
    change s.rename = some s' at hs
    unfold rename at hs
    split at hs
    · cases hs
    split at hs
    · cases hs
    next hlt =>
    dsimp only at hs
    split at hs
    · cases hs
      exact absurd hb (setOldestBad_unmarked (Nat.not_le.mp hlt))
    · split at hs
      · cases hs
        exact ⟨hb, rfl⟩
      · split at hs
        · cases hs
          exact ⟨hb, rfl⟩
        · cases hs
  | execute outcome =>
    change s.execute outcome = some s' at hs
    unfold execute at hs
    split at hs
    · cases hs
    next hready =>
    simp only [Bool.or_eq_true, decide_eq_true_eq, not_or] at hready
    split at hs
    · cases hs
      exact ⟨hb, rfl⟩
    · cases outcome with
      | wait stage =>
        have ⟨t, ht, heq⟩ := Option.map_eq_some_iff.mp hs
        unfold schedule at ht
        dsimp only at ht
        split at ht
        · cases ht
          rw [← heq] at hb
          exact ⟨hb, rfl⟩
        · cases ht
      | noTranslation =>
        have ⟨t, ht, heq⟩ := Option.map_eq_some_iff.mp hs
        cases ht
        rw [← heq] at hb
        exact absurd hb (setOldestBad_unmarked (s := { s.modify s.qExecute _ with
          qExecute := s.qExecute + 1 }) (Nat.not_le.mp hready.2))
      | _ => cases hs
  | wakeup slot outcome => exact wakeup_marked hwf hs hb
  | retire storeHit violation succeed => exact retire_marked hwf hs hb
  | insertTail pipe =>
    cases pipe with
    | fetch | core | retire =>
      have ⟨p, _, heq⟩ := Option.map_eq_some_iff.mp hs
      rw [← heq] at hb
      exact ⟨hb, rfl⟩
  | cycle =>
    cases hs
    exact ⟨hb, rfl⟩
  | reset params =>
    cases hs
    exact absurd hb (resetState_unmarked s)

/-! Runs -/

namespace Marker

theorem init (params : WindowParams bits) : (init params).Marker none :=
  of_empty rfl (Nat.le_refl _) (Nat.le_refl _) (Nat.le_refl _)

/-- No uop older than the marker is unable to complete. -/
theorem oldest (h : s.Marker none) (hwf : s.Wf) {b q : Nat} (hb : s.qOldestBad = some b)
    (hlt : b < s.qHead) (hq : s.qTail ≤ q) (hqb : q < b) :
    cannotComplete (s.getDynamicInst q) = false := by
  have hren : b ≤ s.qRename := by
    cases h.bad b hb hlt with
    | inl hst =>
      by_contra hge
      unfold stuck at hst
      rw [h.fresh b (hwf.ordered.execute_le_rename.trans (by omega)) hlt] at hst
      cases hst
    | inr hill => exact hill.1.le
  unfold cannotComplete
  rw [h.legal q hq (by omega), Bool.not_true, Bool.false_or]
  by_contra hst
  have ⟨c, hc, hle⟩ := h.covered q hq (by omega) (Bool.eq_true_of_not_eq_false hst) (by rintro ⟨⟩)
  rw [hb] at hc
  cases hc
  omega

theorem doomed (h : s.Marker none) {b : Nat} (hb : s.qOldestBad = some b) (hlt : b < s.qHead) :
    cannotComplete (s.getDynamicInst b) = true := by
  unfold cannotComplete
  cases h.bad b hb hlt with
  | inl hst => rw [hst, Bool.or_true]
  | inr hill => rw [hill.2, Bool.not_false, Bool.true_or]

/-- A uop that cannot complete has the marker, or rename has still to come to it. -/
theorem marked (h : s.Marker none) {q : Nat} (hq : s.qTail ≤ q) (hlt : q < s.qHead)
    (hbad : cannotComplete (s.getDynamicInst q)) :
    (∃ b, s.qOldestBad = some b ∧ b ≤ q) ∨
      s.qRename ≤ q ∧ (s.getDynamicInst q).op.legal = false := by
  by_cases hst : stuck (s.getDynamicInst q)
  · exact .inl (h.covered q hq hlt hst (by rintro ⟨⟩))
  · unfold cannotComplete at hbad
    rw [Bool.eq_false_of_not_eq_true hst, Bool.or_false, Bool.not_eq_true'] at hbad
    refine .inr ⟨?_, hbad⟩
    by_contra hren
    have hl := h.legal q hq (by omega)
    rw [hbad] at hl
    cases hl

end Marker

/-- Rename marks an illegal uop when it comes to it, and does not go on. -/
theorem rename_refuses (hlegal : (s.getDynamicInst s.qRename).op.legal = false)
    (hs : s.rename = some s') :
    s'.qRename = s.qRename ∧ ∃ b, s'.qOldestBad = some b ∧ b ≤ s.qRename := by
  unfold rename at hs
  split at hs
  · cases hs
  split at hs
  · cases hs
  dsimp only at hs
  rw [hlegal, Bool.not_false, if_pos rfl] at hs
  cases hs
  refine ⟨rfl, ?_⟩
  unfold setOldestBad
  dsimp only
  split
  · exact ⟨s.qRename, rfl, Nat.le_refl _⟩
  · exact ⟨_, rfl, Nat.min_le_right _ _⟩

theorem retire_restarts (h : s.qOldestBad = some s.qRetire) (storeHit succeed : Bool)
    (violation : Violation) : ∃ s', s.retire storeHit violation succeed = some s' ∧
      s'.qOldestBad = none ∧ s'.qHead = s.qTail := by
  unfold retire
  rw [if_pos h]
  refine ⟨_, rfl, ?_⟩
  unfold resetState
  exact ⟨rfl, rfl⟩

namespace FetchState
variable {f f' : FetchState bits}

structure Inv (f : FetchState bits) : Prop where
  wf : f.window.Wf
  marker : f.window.Marker none
  failed : f.window.HeadMarked → f.failed = true

theorem Inv.step {e : Event bits} (h : f.Inv) (hs : f.step e = some f') : f'.Inv := by
  have ⟨w, hw, heq⟩ := Option.map_eq_some_iff.mp hs
  rw [← heq]
  refine ⟨h.wf.step hw, h.marker.step h.wf hw, fun hb => ?_⟩
  by_cases hdecode : e = .fetchFailed
  · rw [hdecode]
  · have ⟨hm, hstay⟩ := step_marked h.wf hw hb hdecode
    have hfailed := h.failed hm
    cases e with
    | fetchFailed => exact absurd rfl hdecode
    | _ =>
      dsimp only
      rw [hfailed, hstay]
      rfl

/-- The marker, when set, is in the window or at its head; there the decode failed. A uop with the
marker cannot complete, and no older one is so. A uop that cannot complete has the marker at or
before it, unless it is an illegal one that rename has still to come to. -/
structure Sound (f : FetchState bits) : Prop where
  between : ∀ b, f.window.qOldestBad = some b → f.window.qRetire ≤ b ∧ b ≤ f.window.qHead
  oldest : ∀ b, f.window.qOldestBad = some b → b = f.window.qHead ∧ f.failed = true ∨
    b < f.window.qHead ∧ cannotComplete (f.window.getDynamicInst b) = true ∧
      ∀ q, f.window.qTail ≤ q → q < b → cannotComplete (f.window.getDynamicInst q) = false
  marked : ∀ q, f.window.qTail ≤ q → q < f.window.qHead →
    cannotComplete (f.window.getDynamicInst q) = true →
    (∃ b, f.window.qOldestBad = some b ∧ b ≤ q) ∨
      f.window.qRename ≤ q ∧ (f.window.getDynamicInst q).op.legal = false
  refused : ∀ s', (f.window.getDynamicInst f.window.qRename).op.legal = false →
    f.window.rename = some s' → s'.qRename = f.window.qRename ∧
      ∃ b, s'.qOldestBad = some b ∧ b ≤ f.window.qRename
  restarts : f.window.qOldestBad = some f.window.qRetire → ∀ storeHit violation succeed,
    ∃ s', f.window.retire storeHit violation succeed = some s' ∧ s'.qOldestBad = none ∧
      s'.qHead = f.window.qTail

theorem Inv.sound (h : f.Inv) : f.Sound where
  between b hb := ⟨(h.marker.range b hb).1, (h.marker.range b hb).2.1⟩
  oldest b hb := by
    by_cases hlt : b < f.window.qHead
    · exact .inr ⟨hlt, h.marker.doomed hb hlt, fun q hq => h.marker.oldest h.wf hb hlt hq⟩
    · have he : b = f.window.qHead := Nat.le_antisymm (h.marker.range b hb).2.1 (Nat.not_lt.mp hlt)
      refine .inl ⟨he, h.failed ?_⟩
      rw [he] at hb
      exact hb
  marked q hq hlt := h.marker.marked hq hlt
  refused s' hlegal hs := rename_refuses hlegal hs
  restarts h storeHit violation succeed := retire_restarts h storeHit succeed violation

theorem marker_sound (params : WindowParams bits) (events : List (Event bits)) :
    EventSystem.Throughout step Sound (init params) events := by
  intro before _ f hs
  have hinv : f.Inv := EventSystem.run_invariant (I := Inv) (fun _ _ _ h _ hs => h.step hs)
    ⟨wf_init params, Marker.init params, by rintro ⟨⟩⟩ (EventSystem.along_true _ _ _) hs
  exact hinv.sound

/-- Rename refuses an illegal uop behind a load. The load retires with a consistency violation, all
behind it is to be replayed, and the marker goes. -/
theorem replay_unmarks_illegal :
    ¬ ∀ (params : WindowParams 7) (events : List (Event 7)),
      EventSystem.Throughout step (fun f => ∀ q, f.window.qTail ≤ q → q < f.window.qHead →
        cannotComplete (f.window.getDynamicInst q) = true →
        ∃ b, f.window.qOldestBad = some b ∧ b ≤ q) (init params) events := by
  intro h
  have hrun : (EventSystem.run step (init warmup)
      [.fetch [{ isload := true }], .fetch [{ legal := false }], .insertTail .fetch, .cycle, .cycle,
        .cycle, .rename, .rename, .insertTail .core, .cycle, .cycle, .cycle, .execute (.wait .READY),
        .insertTail .retire, .wakeup 0 (.complete false false), .cycle, .cycle, .cycle,
        .retire true .loadConsistency true]).map
      (fun f => (f.window.qTail, f.window.qHead, f.window.qOldestBad,
        cannotComplete (f.window.getDynamicInst 1))) = some (1, 2, none, true) := by
    decide
  have ⟨f, hf, heq⟩ := Option.map_eq_some_iff.mp hrun
  simp only [Prod.mk.injEq] at heq
  have ⟨b, hb, _⟩ := h _ _ _ List.prefix_rfl f hf 1 heq.1.le (by omega) heq.2.2.2
  rw [heq.2.2.1] at hb
  cases hb

end FetchState
end InstructionWindow
end FeS2.Pyrite
