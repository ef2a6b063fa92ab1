import FeS2.Decoder.StringInsn
import FeS2.Pyrite.BranchRepair

/-!
The check that skips a string instruction whose count is zero. It raises an exception, which cuts
its x86 op short behind it and sends fetch on to the next instruction; when it is replayed and
raises none, the x86 op is fetched again. Beside the window stands what the code does not keep: of
which instruction a uop was decoded, how its check last ended, and what has been committed.
-/

namespace FeS2.Pyrite
open EventSystem

/-- A uop of the decoder that is no check. -/
structure PlainUop where
  ripseq : Waddr := 0
  isbranch : Bool := false
  isload : Bool := false

namespace PlainUop

def toDecoded (p : PlainUop) : DecodedUop :=
  { ripseq := p.ripseq, isbranch := p.isbranch, isload := p.isload }

end PlainUop

/-- The instructions as far as checks go: only a repeated string instruction has one. -/
inductive X86Insn
  | plain (uops : List PlainUop)
  | rep (body : List PlainUop)

namespace X86Insn

/-- A repeated string instruction starts with its check and ends with its branch. -/
def uops (next : Waddr) : X86Insn → List DecodedUop
  | .plain uops => uops.map PlainUop.toDecoded
  | .rep body =>
      { ischeck := true } :: body.map PlainUop.toDecoded ++ [{ isbranch := true, ripseq := next }]

theorem check_first {insn : X86Insn} {next : Waddr} {k : Nat} {d : DecodedUop}
    (h : (insn.uops next)[k]? = some d) (hd : d.ischeck = true) :
    k = 0 ∧ d.isbranch = false ∧ ∃ body, insn = .rep body := by
  cases insn with
  | plain uops =>
    have ⟨p, _, hp⟩ := List.mem_map.mp (List.mem_of_getElem? h)
    rw [← hp] at hd
    cases hd
  | rep body =>
    cases k with
    | zero =>
      cases h
      exact ⟨rfl, rfl, body, rfl⟩
    | succ k =>
      have hmem := List.mem_of_getElem? (show (body.map PlainUop.toDecoded ++
        [{ isbranch := true, ripseq := next }])[k]? = some d from h)
      cases List.mem_append.mp hmem with
      | inl hbody =>
        have ⟨p, _, hp⟩ := List.mem_map.mp hbody
        rw [← hp] at hd
        cases hd
      | inr hlast =>
        rw [List.mem_singleton.mp hlast] at hd
        cases hd

theorem rep_last {body : List PlainUop} {next : Waddr} {k : Nat} {d : DecodedUop}
    (h : ((X86Insn.rep body).uops next)[k]? = some d)
    (hk : k + 1 = ((X86Insn.rep body).uops next).length) : d.ripseq = next := by
  have hlen : k = (({ ischeck := true } : DecodedUop) :: body.map PlainUop.toDecoded).length := by
    unfold uops at hk
    rw [List.length_append, List.length_singleton] at hk
    omega
  unfold uops at h
  rw [hlen, List.getElem?_concat_length] at h
  cases h
  rfl

end X86Insn

/-! The decoder makes them so -/

section

/-- What the window needs to know of a uop of the decoder. -/
def decodedUop (t : Decoder.TransOp) : DecodedUop :=
  { ripseq := t.ripseq, isbranch := t.opcode = .br, ischeck := t.opcode = .chkSub
    isload := t.opcode = .ld || t.opcode = .ldx }

def plainUop (t : Decoder.TransOp) : PlainUop :=
  { ripseq := t.ripseq, isbranch := t.opcode = .br, isload := t.opcode = .ld || t.opcode = .ldx }

theorem plainUop_decoded {uops : List Decoder.TransOp} (h : ∀ t ∈ uops, t.opcode ≠ .chkSub) :
    uops.map decodedUop = (uops.map plainUop).map PlainUop.toDecoded := by
  rw [List.map_map]
  apply List.map_congr_left
  intro t ht
  unfold decodedUop
  rw [decide_eq_false (h t ht)]
  rfl

variable {i : Decoder.StringInsn} {dirflag : Bool} {t : Decoder.TransOp}

theorem body_no_check : ∀ t ∈ i.body dirflag, t.opcode ≠ .chkSub := by
  unfold Decoder.StringInsn.body
  cases i.op with
  | lods =>
    dsimp only
    split <;> simp [Decoder.StringInsn.load, Decoder.StringInsn.advance, Decoder.StringInsn.merge]
  | _ =>
    simp [Decoder.StringInsn.load, Decoder.StringInsn.store, Decoder.StringInsn.advance,
      Decoder.StringInsn.compare]

/-- The uops of a string instruction are those of one with a check if it is repeated. -/
theorem string_decoded {uops : List Decoder.TransOp} (h : i.uops dirflag = some uops) :
    ∃ insn, uops.map decodedUop = X86Insn.uops i.rip insn ∧
      ((∃ body, insn = .rep body) ↔ i.rep ≠ .none) := by
  cases Decoder.StringInsn.uops_eq h with
  | inl hone =>
    refine ⟨.plain ((i.body dirflag).map plainUop), ?_, ?_⟩
    · rw [hone.2]
      exact plainUop_decoded body_no_check
    · rw [hone.1]
      constructor
      · rintro ⟨_, ⟨⟩⟩
      · intro hne
        exact absurd rfl hne
  | inr hrep =>
    have hplain : ∀ t ∈ i.body dirflag ++ i.sub :: (if i.compares then [i.orxf] else []),
        t.opcode ≠ .chkSub := by
      intro t ht
      cases List.mem_append.mp ht with
      | inl hbody => exact body_no_check t hbody
      | inr htail =>
        intro hc
        cases List.mem_cons.mp htail with
        | inl hsub => rw [hsub] at hc; cases hc
        | inr horxf =>
          split at horxf
          · rw [List.mem_singleton.mp horxf] at hc
            unfold Decoder.StringInsn.orxf at hc
            dsimp only at hc
            split at hc <;> cases hc
          · cases horxf
    refine ⟨.rep
      ((i.body dirflag ++ i.sub :: if i.compares then [i.orxf] else []).map plainUop), ?_,
      fun _ => hrep.1, fun _ => ⟨_, rfl⟩⟩
    rw [hrep.2]
    unfold X86Insn.uops
    dsimp only
    rw [← plainUop_decoded hplain, Decoder.StringInsn.tail, List.cons_append, List.map_cons,
      ← List.append_assoc, List.map_append]
    rfl

end

/-- What is not kept of a uop in the window. `raised`: how the check last ended. -/
structure Tag where
  insn : X86Insn
  rip : Waddr
  next : Waddr
  index : Nat
  raised : Option Bool := none

namespace Tag

def uops (t : Tag) : List DecodedUop := t.insn.uops t.next

def block (t : Tag) : X86Insn × Waddr × Waddr := (t.insn, t.rip, t.next)

def ofInsn (insn : X86Insn) (rip next : Waddr) : List Tag :=
  (List.range (insn.uops next).length).map fun k =>
    { insn := insn, rip := rip, next := next, index := k }

end Tag

namespace WindowUop

def decoded (u : WindowUop) : DecodedUop :=
  { ripseq := u.ripseq, isbranch := u.isbranch, ischeck := u.ischeck, isload := u.isload }

end WindowUop

/-- `history` has the uops of each commit, and `none` for a reset. -/
structure TaggedWindow where
  fw : FetchWindow
  tags : List Tag := []
  history : List (Option (List (WindowUop × Tag))) := []

namespace TaggedWindow

inductive Event
  | fetch (insn : X86Insn) (size pred : Waddr)
  | rename
  | complete (q : Nat) (excepting : Bool)
  | resolveBranch (q : Nat) (actualTarget : Waddr)
  | alignmentException (q : Nat)
  | retire (violation : Violation)
  | reset (rip : Waddr)

/-- Whether the uop at the retire point ends its x86 op and commits it. -/
def commits (s : FetchWindow) (violation : Violation) : Bool :=
  match s.window[s.qRetire]? with
  | some u => violation ≠ .loadOrdering && u.endsX86Op && !(u.ischeck && !u.checkException)
  | none => false

/-- A flush takes the tags of what it takes from the window. -/
def follow (s : TaggedWindow) (fw : FetchWindow) : TaggedWindow :=
  { s with fw := fw, tags := s.tags.take fw.window.length }

def step (s : TaggedWindow) : Event → Option TaggedWindow
  | .fetch insn size pred =>
      let next := s.fw.fetchRip + size
      (s.fw.fetch (insn.uops next) size pred).map fun fw =>
        { s with fw := fw, tags := s.tags ++ Tag.ofInsn insn s.fw.fetchRip next }
  | .rename => s.fw.rename.map s.follow
  | .complete q excepting =>
      (s.fw.complete q excepting).map
        { s with tags := s.tags.modify q fun t => { t with raised := some excepting } }.follow
  | .resolveBranch q actualTarget => (s.fw.resolveBranch q actualTarget).map s.follow
  | .alignmentException q => (s.fw.alignmentException q).map s.follow
  | .retire violation =>
      (s.fw.retire violation).map fun fw =>
        if commits s.fw violation then
          let n := s.fw.qRetire + 1
          { fw := fw
            tags := s.tags.drop n
            history := s.history ++ [some ((s.fw.window.zip s.tags).take n)] }
        else s.follow fw
  | .reset rip => some { fw := { fetchRip := rip }, history := s.history ++ [none] }

/-! The invariant -/

/-- A uop with its tag. The last end of a completed check shows in its flag. -/
structure Slot (u : WindowUop) (t : Tag) : Prop where
  decoded : t.uops[t.index]? = some u.decoded
  rip : u.rip = t.rip
  starts : u.startsX86Op = decide (t.index = 0)
  whole : u.endsX86Op = true → t.index + 1 = t.uops.length ∨ u.ischeck = true
  more : u.endsX86Op = false → t.index + 1 < t.uops.length
  branch : u.isbranch = true → u.endsX86Op = true
  check : u.ischeck = true → u.complete = true → t.raised = some u.checkException
  cut : u.checkException = true → u.endsX86Op = true ∧ u.complete = true

/-- The rip of the uop at a position, or of the next to fetch. -/
def ripAt (s : FetchWindow) (q : Nat) : Waddr := (s.window[q]?.map (·.rip)).getD s.fetchRip

/-- The uops up to the retire point are complete, and none of them ends an x86 op. -/
structure Inv (s : TaggedWindow) : Prop where
  length : s.tags.length = s.fw.window.length
  slot : ∀ (q : Nat) u t, s.fw.window[q]? = some u → s.tags[q]? = some t → Slot u t
  next : ∀ (q : Nat) u t, s.fw.window[q]? = some u → s.tags[q]? = some t → u.endsX86Op = false →
    ∃ t', s.tags[q + 1]? = some t' ∧ t'.block = t.block ∧ t'.index = t.index + 1
  after : ∀ (q : Nat) u t, s.fw.window[q]? = some u → u.endsX86Op = true →
    s.tags[q + 1]? = some t → t.index = 0
  first : ∀ t, s.tags[0]? = some t → t.index = 0
  seq : ∀ (q : Nat) u t, s.fw.window[q]? = some u → s.tags[q]? = some t → u.ischeck = true →
    u.endsX86Op = true → ripAt s.fw (q + 1) = t.next
  retired : ∀ q, q < s.fw.qRetire → ∃ u, s.fw.window[q]? = some u ∧ u.complete = true ∧
    u.endsX86Op = false
  rename_le : s.fw.qRename ≤ s.fw.window.length
  retire_le : s.fw.qRetire ≤ s.fw.qRename

/-- What does not change of a uop in the window, a check apart. -/
def fixed (u : WindowUop) : DecodedUop × Waddr × Bool × Bool :=
  (u.decoded, u.rip, u.startsX86Op, u.endsX86Op)

def Tag.fixed (t : Tag) : (X86Insn × Waddr × Waddr) × Nat := (t.block, t.index)

theorem Slot.congr {u u' : WindowUop} {t t' : Tag} (h : Slot u t) (hu : fixed u' = fixed u)
    (ht : Tag.fixed t' = Tag.fixed t)
    (hcheck : u'.ischeck = true → u'.complete = true → t'.raised = some u'.checkException)
    (hcut : u'.checkException = true → u'.endsX86Op = true ∧ u'.complete = true) : Slot u' t' := by
  simp only [fixed, Prod.mk.injEq] at hu
  simp only [Tag.fixed, Tag.block, Prod.mk.injEq] at ht
  have hd : u'.ischeck = u.ischeck := congrArg DecodedUop.ischeck hu.1
  have huops : t'.uops = t.uops := by
    unfold Tag.uops
    rw [ht.1.1, ht.1.2.2]
  have hb : u'.isbranch = u.isbranch := congrArg DecodedUop.isbranch hu.1
  refine ⟨?_, ?_, ?_, ?_, ?_, ?_, hcheck, hcut⟩
  · rw [huops, ht.2, hu.1]
    exact h.decoded
  · rw [hu.2.1, ht.1.2.1]
    exact h.rip
  · rw [hu.2.2.1, ht.2]
    exact h.starts
  · rw [hu.2.2.2, ht.2, huops, hd]
    exact h.whole
  · rw [hu.2.2.2, ht.2, huops]
    exact h.more
  · rw [hu.2.2.2, hb]
    exact h.branch

theorem getElem?_of_map {α β : Type} {f : α → β} {l l' : List α} (h : l.map f = l'.map f) {q : Nat}
    {a : α} (ha : l[q]? = some a) : ∃ a', l'[q]? = some a' ∧ f a' = f a := by
  have hq := congrArg (·[q]?) h
  rw [List.getElem?_map, List.getElem?_map, ha] at hq
  exact Option.map_eq_some_iff.mp hq.symm

theorem ripAt_of_map {s : FetchWindow} {w : List WindowUop} {n m : Nat}
    (h : w.map fixed = s.window.map fixed) (q : Nat) :
    ripAt { s with window := w, qRename := n, qRetire := m } q = ripAt s q := by
  unfold ripAt
  have hq := congrArg (fun l => l[q]?.map (·.2.1)) h
  dsimp only at hq ⊢
  rw [List.getElem?_map, List.getElem?_map, Option.map_map, Option.map_map] at hq
  exact congrArg (·.getD s.fetchRip) hq

namespace Inv
variable {s : TaggedWindow}

/-- A uop in the window has a tag. -/
theorem tag (h : s.Inv) {q : Nat} {u : WindowUop} (hu : s.fw.window[q]? = some u) :
    ∃ t, s.tags[q]? = some t ∧ Slot u t := by
  have hq : q < s.tags.length := h.length ▸ (List.getElem?_eq_some_iff.mp hu).1
  have ht := List.getElem?_eq_getElem hq
  exact ⟨_, ht, h.slot q u _ hu ht⟩

/-- A step that changes uops where they are. -/
theorem update (h : s.Inv) (w : List WindowUop) (tags : List Tag) {n m : Nat}
    (hw : w.map fixed = s.fw.window.map fixed)
    (htags : tags.map Tag.fixed = s.tags.map Tag.fixed)
    (hcheck : ∀ (q : Nat) u t, w[q]? = some u → tags[q]? = some t → u.ischeck = true →
      u.complete = true → t.raised = some u.checkException)
    (hcut : ∀ u ∈ w, u.checkException = true → u.endsX86Op = true ∧ u.complete = true)
    (hretired : ∀ q, q < m → ∃ u, w[q]? = some u ∧ u.complete = true ∧ u.endsX86Op = false)
    (hn : n ≤ s.fw.window.length) (hm : m ≤ n) :
    Inv { s with fw := { s.fw with window := w, qRename := n, qRetire := m }, tags := tags } := by
  have hlw : w.length = s.fw.window.length := by
    have := congrArg List.length hw
    rwa [List.length_map, List.length_map] at this
  have hlt : tags.length = s.tags.length := by
    have := congrArg List.length htags
    rwa [List.length_map, List.length_map] at this
  have hends : ∀ {u u' : WindowUop}, fixed u' = fixed u → u'.endsX86Op = u.endsX86Op :=
    fun he => congrArg (·.2.2.2) he
  refine ⟨?_, ?_, ?_, ?_, ?_, ?_, hretired, ?_, hm⟩
  · exact hlt.trans (h.length.trans hlw.symm)
  · intro q u t hu ht
    have ⟨u', hu', hfix⟩ := getElem?_of_map hw hu
    have ⟨t', ht', hfixt⟩ := getElem?_of_map htags ht
    exact (h.slot q u' t' hu' ht').congr hfix.symm hfixt.symm (hcheck q u t hu ht)
      (hcut u (List.mem_of_getElem? hu))
  · intro q u t hu ht hne
    have ⟨u', hu', hfix⟩ := getElem?_of_map hw hu
    have ⟨t', ht', hfixt⟩ := getElem?_of_map htags ht
    have ⟨v, hv, hblock, hindex⟩ := h.next q u' t' hu' ht' ((hends hfix).trans hne)
    have ⟨v', hv', hfixv⟩ := getElem?_of_map htags.symm hv
    have hfixt := Prod.mk.inj hfixt
    have hfixv := Prod.mk.inj hfixv
    exact ⟨v', hv', (hfixv.1.trans hblock).trans hfixt.1, by rw [hfixv.2, hindex, hfixt.2]⟩
  · intro q u t hu he ht
    have ⟨u', hu', hfix⟩ := getElem?_of_map hw hu
    have ⟨t', ht', hfixt⟩ := getElem?_of_map htags ht
    rw [← (Prod.mk.inj hfixt).2]
    exact h.after q u' t' hu' ((hends hfix).trans he) ht'
  · intro t ht
    have ⟨t', ht', hfixt⟩ := getElem?_of_map htags ht
    rw [← (Prod.mk.inj hfixt).2]
    exact h.first t' ht'
  · intro q u t hu ht hc he
    have ⟨u', hu', hfix⟩ := getElem?_of_map hw hu
    have ⟨t', ht', hfixt⟩ := getElem?_of_map htags ht
    have hc' : u'.ischeck = true := (congrArg (fun x => x.1.ischeck) hfix).trans hc
    have hseq := h.seq q u' t' hu' ht' hc' ((hends hfix).trans he)
    have hnext : t'.next = t.next := congrArg (·.1.2.2) hfixt
    rw [← hnext, ← hseq]
    exact ripAt_of_map hw (q + 1)
  · exact hn.trans hlw.symm.le

theorem of_getElem?_take {α : Type} {l : List α} {n q : Nat} {a : α}
    (ha : (l.take n)[q]? = some a) : q < n ∧ l[q]? = some a := by
  rw [List.getElem?_take] at ha
  split at ha
  · next hq => exact ⟨hq, ha⟩
  · cases ha

theorem ripAt_flush {s : FetchWindow} {first q : Nat} (hq : q < first)
    (hfirst : first ≤ s.window.length) (rip : Waddr) :
    ripAt (FetchWindow.flushPipeline first { s with fetchRip := rip }) q = ripAt s q := by
  unfold ripAt FetchWindow.flushPipeline
  dsimp only
  rw [List.getElem?_take, if_pos hq, List.getElem?_eq_getElem (hq.trans_le hfirst)]
  rfl

/-- A flush at the end of an x86 op. -/
theorem flush (h : s.Inv) {first : Nat} (rip : Waddr) (hfirst : first ≤ s.fw.window.length)
    (hends : ∀ q u, q + 1 = first → s.fw.window[q]? = some u → u.endsX86Op = true)
    (hseq : ∀ (q : Nat) u t, q + 1 = first → s.fw.window[q]? = some u → s.tags[q]? = some t →
      u.ischeck = true → rip = t.next) :
    (s.follow (FetchWindow.flushPipeline first { s.fw with fetchRip := rip })).Inv := by
  have hlen : (s.fw.window.take first).length = first := List.length_take_of_le hfirst
  have htake : s.tags.take (s.fw.window.take first).length = s.tags.take first := by rw [hlen]
  refine ⟨?_, ?_, ?_, ?_, ?_, ?_, ?_, hlen.ge, Nat.min_le_right _ _⟩
  · change (s.tags.take (s.fw.window.take first).length).length = (s.fw.window.take first).length
    rw [htake, List.length_take_of_le (h.length ▸ hfirst), hlen]
  · intro q u t hu ht
    change (s.tags.take (s.fw.window.take first).length)[q]? = some t at ht
    rw [htake] at ht
    exact h.slot q u t (of_getElem?_take hu).2 (of_getElem?_take ht).2
  · intro q u t hu ht hne
    change (s.tags.take (s.fw.window.take first).length)[q]? = some t at ht
    rw [htake] at ht
    have ⟨hq, hu⟩ := of_getElem?_take hu
    have ⟨t', ht', hsame⟩ := h.next q u t hu (of_getElem?_take ht).2 hne
    have hin : q + 1 < first := by
      by_contra hge
      have he := hends q u (by omega) hu
      rw [hne] at he
      cases he
    refine ⟨t', ?_, hsame⟩
    change (s.tags.take (s.fw.window.take first).length)[q + 1]? = some t'
    rw [htake, List.getElem?_take, if_pos hin, ht']
  · intro q u t hu he ht
    change (s.tags.take (s.fw.window.take first).length)[q + 1]? = some t at ht
    rw [htake] at ht
    exact h.after q u t (of_getElem?_take hu).2 he (of_getElem?_take ht).2
  · intro t ht
    change (s.tags.take (s.fw.window.take first).length)[0]? = some t at ht
    rw [htake] at ht
    exact h.first t (of_getElem?_take ht).2
  · intro q u t hu ht hc he
    change (s.tags.take (s.fw.window.take first).length)[q]? = some t at ht
    rw [htake] at ht
    have ⟨hq, hu⟩ := of_getElem?_take hu
    by_cases hin : q + 1 < first
    · exact (ripAt_flush hin hfirst rip).trans (h.seq q u t hu (of_getElem?_take ht).2 hc he)
    · have hnone : (s.fw.window.take first)[q + 1]? = none := by
        rw [List.getElem?_take, if_neg hin]
      change (((s.fw.window.take first)[q + 1]?).map _).getD rip = t.next
      rw [hnone]
      exact hseq q u t (by omega) hu (of_getElem?_take ht).2 hc
  · intro q hq
    have ⟨u, hu, hdone⟩ := h.retired q (hq.trans_le (Nat.min_le_left _ _))
    refine ⟨u, ?_, hdone⟩
    change (s.fw.window.take first)[q]? = some u
    rw [List.getElem?_take, if_pos (hq.trans_le (Nat.min_le_right _ _)), hu]

/-- The window ends with the end of an x86 op. -/
theorem last_ends (h : s.Inv) {q : Nat} {u : WindowUop} (hq : q + 1 = s.fw.window.length)
    (hu : s.fw.window[q]? = some u) : u.endsX86Op = true := by
  by_contra hne
  have ⟨t, ht, _⟩ := h.tag hu
  have ⟨t', ht', _⟩ := h.next q u t hu ht (eq_false_of_ne_true hne)
  rw [List.getElem?_eq_none (by rw [h.length, hq])] at ht'
  cases ht'

/-- A new x86 op behind the window. -/
theorem append (h : s.Inv) (us : List WindowUop) (tags : List Tag) (rip : Waddr) (n : Nat)
    (b : X86Insn × Waddr × Waddr) (hlen : tags.length = us.length) (hne : us ≠ [])
    (hslot : ∀ (q : Nat) u t, us[q]? = some u → tags[q]? = some t → Slot u t)
    (htags : ∀ (q : Nat) t, tags[q]? = some t → t.index = q ∧ t.block = b)
    (hends : ∀ (q : Nat) u, us[q]? = some u → (u.endsX86Op = true ↔ q + 1 = us.length))
    (hrip : ∀ u, us[0]? = some u → u.rip = s.fw.fetchRip)
    (hseq : ∀ (q : Nat) u t, us[q]? = some u → tags[q]? = some t → u.ischeck = true →
      u.endsX86Op = true → rip = t.next)
    (hn : n ≤ s.fw.window.length + us.length) (hm : s.fw.qRetire ≤ n) :
    Inv { s with
      fw := { s.fw with window := s.fw.window ++ us, fetchRip := rip, qRename := n }
      tags := s.tags ++ tags } := by
  have hold : ∀ {q : Nat} {u : WindowUop}, s.fw.window[q]? = some u →
      (s.fw.window ++ us)[q]? = some u := fun hu => by
    rw [List.getElem?_append_left (List.getElem?_eq_some_iff.mp hu).1, hu]
  have hcases : ∀ {q : Nat} {u : WindowUop} {t : Tag}, (s.fw.window ++ us)[q]? = some u →
      (s.tags ++ tags)[q]? = some t →
      s.fw.window[q]? = some u ∧ s.tags[q]? = some t ∨ ∃ k, q = s.fw.window.length + k ∧
        us[k]? = some u ∧ tags[k]? = some t := by
    intro q u t hu ht
    by_cases hq : q < s.fw.window.length
    · rw [List.getElem?_append_left hq] at hu
      rw [List.getElem?_append_left (h.length ▸ hq)] at ht
      exact .inl ⟨hu, ht⟩
    · rw [List.getElem?_append_right (Nat.not_lt.mp hq)] at hu
      rw [List.getElem?_append_right (h.length ▸ Nat.not_lt.mp hq), h.length] at ht
      exact .inr ⟨_, (Nat.add_sub_cancel' (Nat.not_lt.mp hq)).symm, hu, ht⟩
  have htag : ∀ k : Nat, (s.tags ++ tags)[s.fw.window.length + k]? = tags[k]? := by
    intro k
    rw [List.getElem?_append_right (by rw [h.length]; exact Nat.le_add_right _ _), h.length,
      Nat.add_sub_cancel_left]
  have hfirst : ∀ t, tags[0]? = some t → t.index = 0 := fun t ht => (htags 0 t ht).1
  refine ⟨?_, ?_, ?_, ?_, ?_, ?_, ?_, ?_, hm⟩
  · change (s.tags ++ tags).length = (s.fw.window ++ us).length
    rw [List.length_append, List.length_append, h.length, hlen]
  · intro q u t hu ht
    cases hcases hu ht with
    | inl hin => exact h.slot q u t hin.1 hin.2
    | inr hnew =>
      obtain ⟨k, -, hk, hk'⟩ := hnew
      exact hslot k u t hk hk'
  · intro q u t hu ht hno
    cases hcases hu ht with
    | inl hin =>
      have ⟨t', ht', hsame⟩ := h.next q u t hin.1 hin.2 hno
      refine ⟨t', ?_, hsame⟩
      change (s.tags ++ tags)[q + 1]? = some t'
      rw [List.getElem?_append_left (List.getElem?_eq_some_iff.mp ht').1, ht']
    | inr hnew =>
      obtain ⟨k, rfl, hk, hk'⟩ := hnew
      have hin := (List.getElem?_eq_some_iff.mp hk).1
      have hmore : k + 1 < tags.length := by
        rw [hlen]
        by_contra hge
        have he := (hends k u hk).mpr (by omega)
        rw [hno] at he
        cases he
      have ht' := List.getElem?_eq_getElem hmore
      have ⟨hi, hb⟩ := htags _ _ ht'
      have ⟨hi', hb'⟩ := htags _ _ hk'
      refine ⟨tags[k + 1], (htag (k + 1)).trans ht', hb.trans hb'.symm, ?_⟩
      rw [hi, hi']
  · intro q u t hu he ht
    change (s.fw.window ++ us)[q]? = some u at hu
    change (s.tags ++ tags)[q + 1]? = some t at ht
    by_cases hin : q < s.fw.window.length
    · rw [List.getElem?_append_left hin] at hu
      by_cases hin' : q + 1 < s.fw.window.length
      · rw [List.getElem?_append_left (h.length ▸ hin')] at ht
        exact h.after q u t hu he ht
      · have hlast : q + 1 = s.fw.window.length + 0 := by omega
        rw [hlast, htag] at ht
        exact hfirst t ht
    · obtain ⟨k, rfl⟩ := Nat.exists_eq_add_of_le (Nat.not_lt.mp hin)
      rw [Nat.add_assoc, htag] at ht
      rw [List.getElem?_append_right (Nat.le_add_right _ _), Nat.add_sub_cancel_left] at hu
      have hk := (List.getElem?_eq_some_iff.mp ht).1
      have hend := (hends k u hu).mp he
      omega
  · intro t ht
    change (s.tags ++ tags)[0]? = some t at ht
    by_cases hzero : s.fw.window.length = 0
    · have := htag 0
      rw [hzero] at this
      exact hfirst t (this.symm.trans ht)
    · rw [List.getElem?_append_left (by rw [h.length]; omega)] at ht
      exact h.first t ht
  · intro q u t hu ht hc he
    cases hcases hu ht with
    | inl hin =>
      rw [← h.seq q u t hin.1 hin.2 hc he]
      unfold ripAt
      dsimp only
      by_cases hq : q + 1 < s.fw.window.length
      · rw [List.getElem?_append_left hq, List.getElem?_eq_getElem hq]
        rfl
      · have hin' := (List.getElem?_eq_some_iff.mp hin.1).1
        have hlast : q + 1 = s.fw.window.length + 0 := by omega
        rw [hlast, List.getElem?_append_right (Nat.le_add_right _ _), Nat.add_sub_cancel_left,
          List.getElem?_eq_none (Nat.le_add_right _ _),
          List.getElem?_eq_getElem (List.length_pos_iff.mpr hne)]
        exact hrip _ (List.getElem?_eq_getElem _)
    | inr hnew =>
      obtain ⟨k, rfl, hk, hk'⟩ := hnew
      have hend := (hends k u hk).mp he
      unfold ripAt
      dsimp only
      rw [List.getElem?_eq_none (by rw [List.length_append]; omega)]
      exact hseq k u t hk hk' hc he
  · intro q hq
    have ⟨u, hu, hdone⟩ := h.retired q hq
    exact ⟨u, hold hu, hdone⟩
  · change n ≤ (s.fw.window ++ us).length
    rw [List.length_append]
    exact hn

end Inv

/-! Fetch -/

theorem x86Op_get {rip pred : Waddr} {first : Bool} {ops : List DecodedUop} {us : List WindowUop}
    (h : FetchWindow.x86Op rip pred first ops = some us) :
    us.length = ops.length ∧ us ≠ [] ∧ ∀ (k : Nat) u, us[k]? = some u →
      ∃ op, ops[k]? = some op ∧ (op.isbranch = true → k + 1 = ops.length) ∧
        u = FetchWindow.toWindow rip pred (first && decide (k = 0))
          (decide (k + 1 = ops.length)) op := by
  induction ops generalizing first us with
  | nil => cases h
  | cons op ops ih =>
    cases ops with
    | nil =>
      cases h
      refine ⟨rfl, by rintro ⟨⟩, ?_⟩
      intro k u hu
      cases k with
      | zero =>
        cases hu
        refine ⟨op, rfl, fun _ => rfl, ?_⟩
        simp
      | succ k => cases hu
    | cons op' ops =>
      unfold FetchWindow.x86Op at h
      split at h
      · cases h
      next hb =>
      obtain ⟨us', hus', heq⟩ := Option.map_eq_some_iff.mp h
      obtain ⟨hlen, _, hget⟩ := ih hus'
      rw [← heq]
      refine ⟨congrArg (· + 1) hlen, by rintro ⟨⟩, ?_⟩
      intro k u hu
      cases k with
      | zero =>
        cases hu
        refine ⟨op, rfl, fun hb' => absurd hb' hb, ?_⟩
        simp
      | succ k =>
        obtain ⟨op'', hop, hlast, hu⟩ := hget k u hu
        refine ⟨op'', hop, fun hb' => by rw [List.length_cons, hlast hb'], ?_⟩
        have hend : (k + 1 + 1 = (op :: op' :: ops).length) = (k + 1 = (op' :: ops).length) :=
          propext Nat.succ_inj
        rw [hu, Bool.false_and, decide_eq_false (Nat.succ_ne_zero k), Bool.and_false]
        simp only [hend]

theorem ofInsn_get {insn : X86Insn} {rip next : Waddr} {k : Nat} {t : Tag}
    (h : (Tag.ofInsn insn rip next)[k]? = some t) :
    t = { insn := insn, rip := rip, next := next, index := k } := by
  unfold Tag.ofInsn at h
  rw [List.getElem?_map] at h
  have ⟨j, hj, ht⟩ := Option.map_eq_some_iff.mp h
  have ⟨hlt, he⟩ := List.getElem?_eq_some_iff.mp hj
  rw [List.getElem_range] at he
  rw [← ht, he]

theorem Inv.fetch {s s' : TaggedWindow} (h : s.Inv) {insn : X86Insn} {size pred : Waddr}
    (hs : s.step (.fetch insn size pred) = some s') : s'.Inv := by
  have ⟨fw, hfw, heq⟩ := Option.map_eq_some_iff.mp hs
  have ⟨us, hus, hfetch⟩ := Option.map_eq_some_iff.mp hfw
  have ⟨hlen, hne, hget⟩ := x86Op_get hus
  rw [← heq, ← hfetch]
  have huncut : ∀ {k : Nat} {u : WindowUop}, us[k]? = some u → u.complete = false ∧
      u.checkException = false ∧ u.rip = s.fw.fetchRip ∧
      u.endsX86Op = decide (k + 1 = (insn.uops (s.fw.fetchRip + size)).length) := by
    intro k u hu
    have ⟨op, _, _, he⟩ := hget k u hu
    rw [he]
    exact ⟨rfl, rfl, rfl, rfl⟩
  refine h.append us _ _ _ (insn, s.fw.fetchRip, s.fw.fetchRip + size) ?_ hne ?_ ?_ ?_ ?_ ?_
    (h.rename_le.trans (Nat.le_add_right _ _)) h.retire_le
  · unfold Tag.ofInsn
    rw [List.length_map, List.length_range, hlen]
  · intro k u t hu ht
    have ⟨op, hop, hlast, he⟩ := hget k u hu
    have ⟨hcomplete, hflag, hrip, hends⟩ := huncut hu
    rw [ofInsn_get ht]
    refine ⟨?_, hrip, ?_, ?_, ?_, ?_, ?_, ?_⟩
    · rw [he]
      exact hop
    · rw [he]
      exact Bool.true_and _
    · intro hend
      rw [hends] at hend
      exact .inl (of_decide_eq_true hend)
    · intro hend
      rw [hends] at hend
      have hin := (List.getElem?_eq_some_iff.mp hop).1
      have hno := of_decide_eq_false hend
      change k + 1 < (insn.uops (s.fw.fetchRip + size)).length
      omega
    · intro hb
      rw [he] at hb
      rw [hends]
      exact decide_eq_true (hlast hb)
    · rw [hcomplete]
      rintro _ ⟨⟩
    · rw [hflag]
      rintro ⟨⟩
  · intro k t ht
    rw [ofInsn_get ht]
    exact ⟨rfl, rfl⟩
  · intro k u hu
    rw [(huncut hu).2.2.2, hlen]
    exact decide_eq_true_iff
  · intro u hu
    exact (huncut hu).2.2.1
  · intro k u t hu ht hc he
    have ⟨op, hop, _, hu'⟩ := hget k u hu
    have hcheck : op.ischeck = true := by
      rw [hu'] at hc
      exact hc
    -- a check is not the last uop
    rw [(huncut hu).2.2.2] at he
    have hk := of_decide_eq_true he
    have ⟨hzero, _, body, hrep⟩ := X86Insn.check_first hop hcheck
    rw [hzero, hrep] at hk
    unfold X86Insn.uops at hk
    rw [List.length_append, List.length_cons, List.length_singleton] at hk
    omega

/-! Flushes -/

theorem firstOfX86Op_starts {w : List WindowUop} {q first : Nat}
    (h : FetchWindow.firstOfX86Op w q = some first) :
    first ≤ q ∧ ∃ u, w[first]? = some u ∧ u.startsX86Op = true := by
  induction q with
  | zero =>
    have ⟨u, hu, h⟩ := Option.bind_eq_some_iff.mp h
    split at h
    · next hstarts =>
      cases h
      exact ⟨Nat.le_refl _, u, hu, hstarts⟩
    · cases h
  | succ q ih =>
    have ⟨u, hu, h⟩ := Option.bind_eq_some_iff.mp h
    split at h
    · next hstarts =>
      cases h
      exact ⟨Nat.le_refl _, u, hu, hstarts⟩
    · have ⟨hle, hfound⟩ := ih h
      exact ⟨hle.trans (Nat.le_succ q), hfound⟩

/-- The rip of the oldest uop, or of the next to fetch. -/
def frontRip (s : TaggedWindow) : Waddr := ripAt s.fw 0

namespace Inv
variable {s : TaggedWindow}

/-- Before the first uop of an x86 op ends another, and a cut one leads to it. -/
theorem boundary (h : s.Inv) {first : Nat} {u : WindowUop} (hu : s.fw.window[first]? = some u)
    (hstarts : u.startsX86Op = true) :
    (∀ (q : Nat) v, q + 1 = first → s.fw.window[q]? = some v → v.endsX86Op = true) ∧
      ∀ (q : Nat) v t, q + 1 = first → s.fw.window[q]? = some v → s.tags[q]? = some t →
        v.ischeck = true → u.rip = t.next := by
  have ⟨t, ht, hslot⟩ := h.tag hu
  have hends : ∀ (q : Nat) v, q + 1 = first → s.fw.window[q]? = some v → v.endsX86Op = true := by
    intro q v hq hv
    by_contra hne
    have ⟨tv, htv, _⟩ := h.tag hv
    have ⟨t', ht', _, hindex⟩ := h.next q v tv hv htv (eq_false_of_ne_true hne)
    rw [hq, ht] at ht'
    cases ht'
    rw [hslot.starts, hindex] at hstarts
    cases of_decide_eq_true hstarts
  refine ⟨hends, ?_⟩
  intro q v tv hq hv htv hc
  rw [← h.seq q v tv hv htv hc (hends q v hq hv), hq]
  unfold ripAt
  rw [hu]
  rfl

theorem refetch (h : s.Inv) {q : Nat} {fw : FetchWindow} (hs : s.fw.refetch q = some fw) :
    (s.follow fw).Inv ∧ frontRip (s.follow fw) = frontRip s := by
  have ⟨first, hfirst, hs⟩ := Option.bind_eq_some_iff.mp hs
  have ⟨u, hu, hfw⟩ := Option.map_eq_some_iff.mp hs
  have ⟨_, v, hv, hstarts⟩ := firstOfX86Op_starts hfirst
  rw [hu] at hv
  cases hv
  have hin := (List.getElem?_eq_some_iff.mp hu).1
  have ⟨hends, hseq⟩ := h.boundary hu hstarts
  rw [← hfw]
  refine ⟨h.flush u.rip hin.le hends hseq, ?_⟩
  by_cases hzero : first = 0
  · rw [hzero] at hu ⊢
    unfold frontRip ripAt
    rw [hu]
    rfl
  · exact ripAt_flush (Nat.pos_of_ne_zero hzero) hin.le u.rip

/-- Fetch goes on elsewhere, behind a uop that is no check. -/
theorem redirect (h : s.Inv) {q : Nat} {u : WindowUop} (hq : s.fw.window.length ≤ q + 1)
    (hu : s.fw.window[q]? = some u) (hc : u.ischeck = false) (rip : Waddr) :
    Inv { s with fw := { s.fw with fetchRip := rip } } := by
  refine ⟨h.length, h.slot, h.next, h.after, h.first, ?_, h.retired, h.rename_le, h.retire_le⟩
  intro k v t hv ht hcheck he
  rw [← h.seq k v t hv ht hcheck he]
  unfold ripAt
  dsimp only
  by_cases hin : k + 1 < s.fw.window.length
  · rw [List.getElem?_eq_getElem hin]
    rfl
  · have hk : k < s.fw.window.length := (List.getElem?_eq_some_iff.mp hv).1
    have hq' : q < s.fw.window.length := (List.getElem?_eq_some_iff.mp hu).1
    have he : k = q := by omega
    rw [he, hu] at hv
    cases hv
    rw [hc] at hcheck
    cases hcheck

theorem branch_not_check {u : WindowUop} {t : Tag} (h : Slot u t) (hb : u.isbranch = true) :
    u.ischeck = false := by
  by_contra hc
  have ⟨_, hno, _⟩ := X86Insn.check_first h.decoded (eq_true_of_ne_false hc)
  change u.isbranch = false at hno
  rw [hb] at hno
  cases hno

theorem map_set_eq {α β : Type} {f : α → β} {l : List α} {q : Nat} {a a' : α} (ha : l[q]? = some a)
    (hf : f a' = f a) : (l.set q a').map f = l.map f := by
  have ⟨hq, he⟩ := List.getElem?_eq_some_iff.mp ha
  rw [List.map_set, hf, ← he, ← List.getElem_map f (h := by rwa [List.length_map]),
    List.set_getElem_self]

theorem follow_same (h : s.Inv) (fw : FetchWindow)
    (hlen : fw.window.length = s.fw.window.length) : s.follow fw = { s with fw := fw } := by
  unfold follow
  rw [hlen, ← h.length, List.take_length]

theorem resolveBranch (h : s.Inv) {q : Nat} {actualTarget : Waddr} {fw : FetchWindow}
    (hs : s.fw.resolveBranch q actualTarget = some fw) :
    (s.follow fw).Inv ∧ frontRip (s.follow fw) = frontRip s := by
  have ⟨u, hpend, hs⟩ := Option.bind_eq_some_iff.mp hs
  have ⟨hq, hu, hpending⟩ := FetchWindow.pending_eq hpend
  have ⟨t, ht, hslot⟩ := h.tag hu
  split at hs
  · cases hs
  next hb =>
  have hb : u.isbranch = true := by simpa using hb
  have hno := branch_not_check hslot hb
  have hin := (List.getElem?_eq_some_iff.mp hu).1
  have hw : (s.fw.window.set q (u.resolve actualTarget)).map fixed = s.fw.window.map fixed :=
    map_set_eq hu rfl
  have hself : (s.fw.window.set q (u.resolve actualTarget))[q]? =
      some (u.resolve actualTarget) := by
    rw [List.getElem?_set_self hin]
  have hset : Inv { s with
      fw := { s.fw with window := s.fw.window.set q (u.resolve actualTarget) } } := by
    refine h.update _ _ hw rfl ?_ ?_ ?_ h.rename_le h.retire_le
    · intro k v tv hv htv hc hcomplete
      by_cases hk : k = q
      · rw [hk, hself] at hv
        cases hv
        exact absurd hc (ne_true_of_eq_false hno)
      · rw [List.getElem?_set_ne (Ne.symm hk)] at hv
        exact (h.slot k v tv hv htv).check hc hcomplete
    · intro v hv
      cases List.mem_or_eq_of_mem_set hv with
      | inl hold =>
        have ⟨k, hk⟩ := List.mem_iff_getElem?.mp hold
        have ⟨tv, _, hslotv⟩ := h.tag hk
        exact hslotv.cut
      | inr hnew =>
        rw [hnew]
        intro hflag
        have hdone := (hslot.cut hflag).2
        rw [hpending] at hdone
        cases hdone
    · intro k hk
      have ⟨v, hv, hcomplete, hends⟩ := h.retired k hk
      by_cases he : k = q
      · rw [he, hu] at hv
        cases hv
        rw [hpending] at hcomplete
        cases hcomplete
      · exact ⟨v, by rw [List.getElem?_set_ne (Ne.symm he), hv], hcomplete, hends⟩
  have hfront : ripAt { s.fw with window := s.fw.window.set q (u.resolve actualTarget) } 0 =
      frontRip s := ripAt_of_map hw 0
  have hlen : (s.fw.window.set q (u.resolve actualTarget)).length = s.fw.window.length :=
    List.length_set
  dsimp only at hs
  split at hs
  · next hlt =>
    split at hs
    · cases hs
      refine ⟨hset.flush actualTarget (Nat.le_of_lt hlt) ?_ ?_, ?_⟩
      · intro k v hk hv
        have he : k = q := by omega
        rw [he] at hv
        cases hself.symm.trans hv
        exact hslot.branch hb
      · intro k v tv hk hv _ hc
        have he : k = q := by omega
        rw [he] at hv
        cases hself.symm.trans hv
        exact absurd hc (ne_true_of_eq_false hno)
      · exact (ripAt_flush (Nat.succ_pos q) hlt.le actualTarget).trans hfront
    · cases hs
      rw [h.follow_same _ hlen]
      exact ⟨hset, hfront⟩
  · next hlast =>
    cases hs
    rw [h.follow_same _ hlen]
    refine ⟨hset.redirect (Nat.not_lt.mp hlast) hself hno actualTarget, ?_⟩
    rw [← hfront]
    unfold frontRip ripAt
    have hhead := List.getElem?_eq_getElem (hlen ▸ Nat.zero_lt_of_lt hin)
    dsimp only
    rw [hhead]
    rfl

end Inv

/-! Checks -/

theorem lastOfX86Op_cons {w : List WindowUop} {q : Nat} {u : WindowUop} (hu : w[q]? = some u) :
    FetchWindow.lastOfX86Op w q =
      if u.endsX86Op then some q else FetchWindow.lastOfX86Op w (q + 1) := by
  have ⟨hq, he⟩ := List.getElem?_eq_some_iff.mp hu
  unfold FetchWindow.lastOfX86Op
  rw [List.drop_eq_getElem_cons hq, he, List.findIdx?_cons]
  split
  · simp
  · rw [Option.map_map]
    congr 1
    funext k
    simp only [Function.comp_apply]
    omega

theorem singleton_get {α : Type} {a b : α} {k : Nat} (h : [a][k]? = some b) : k = 0 ∧ a = b := by
  cases k with
  | zero => exact ⟨rfl, Option.some.inj h⟩
  | succ k => cases h

theorem modify_last {α : Type} {l : List α} {q : Nat} {a : α} (ha : l[q]? = some a) (f : α → α) :
    (l.take (q + 1)).modify q f = l.take q ++ [f a] := by
  induction l generalizing q with
  | nil => cases ha
  | cons b l ih =>
    cases q with
    | zero =>
      cases ha
      simp
    | succ q =>
      simp only [List.take_succ_cons, List.modify_succ_cons, List.cons_append, List.cons.injEq,
        true_and]
      exact ih ha

namespace Inv
variable {s : TaggedWindow}

/-- From any uop the search comes to the last of its x86 op. -/
theorem last_found (h : s.Inv) {q : Nat} {u : WindowUop} {t : Tag}
    (hu : s.fw.window[q]? = some u) (ht : s.tags[q]? = some t) :
    ∃ k v tv, FetchWindow.lastOfX86Op s.fw.window q = some (q + k) ∧
      s.fw.window[q + k]? = some v ∧ s.tags[q + k]? = some tv ∧ v.endsX86Op = true ∧
      tv.block = t.block ∧ tv.index = t.index + k := by
  induction hn : s.fw.window.length - q generalizing q u t with
  | zero =>
    have hq := (List.getElem?_eq_some_iff.mp hu).1
    omega
  | succ n ih =>
    rw [lastOfX86Op_cons hu]
    cases he : u.endsX86Op with
    | true => exact ⟨0, u, t, rfl, hu, ht, he, rfl, rfl⟩
    | false =>
      have ⟨t', ht', hblock, hindex⟩ := h.next q u t hu ht he
      have hin : q + 1 < s.fw.window.length := by
        rw [← h.length]
        exact (List.getElem?_eq_some_iff.mp ht').1
      have ⟨k, v, tv, hfound, hv, htv, hends, hblockv, hindexv⟩ :=
        ih (List.getElem?_eq_getElem hin) ht' (by omega)
      have hk : q + 1 + k = q + (k + 1) := by omega
      rw [hk] at hfound hv htv
      exact ⟨k + 1, v, tv, hfound, hv, htv, hends, hblockv.trans hblock, by omega⟩

/-- A check that does not end its x86 op finds the last uop of it behind it, with the rip of the
next instruction. -/
theorem check_last (h : s.Inv) {q : Nat} {u : WindowUop} {t : Tag}
    (hu : s.fw.window[q]? = some u) (ht : s.tags[q]? = some t) (hc : u.ischeck = true)
    (hends : u.endsX86Op = false) :
    ∃ last v, FetchWindow.lastOfX86Op s.fw.window q = some last ∧ q < last ∧
      s.fw.window[last]? = some v ∧ v.ripseq = t.next ∧ t.index = 0 := by
  have ⟨k, v, tv, hfound, hv, htv, hlast, hblock, hindex⟩ := h.last_found hu ht
  have ⟨hzero, _, body, hrep⟩ := X86Insn.check_first (h.slot q u t hu ht).decoded hc
  have hk : k ≠ 0 := by
    rintro rfl
    rw [Nat.add_zero, hu] at hv
    cases hv
    rw [hends] at hlast
    cases hlast
  have hslot := h.slot _ v tv hv htv
  have hwhole : tv.index + 1 = tv.uops.length := by
    cases hslot.whole hlast with
    | inl hw => exact hw
    | inr hcheck =>
      have ⟨hz, _⟩ := X86Insn.check_first hslot.decoded hcheck
      omega
  have hinsn : tv.insn = X86Insn.rep body := (congrArg Prod.fst hblock).trans hrep
  have hnext : tv.next = t.next := congrArg (·.2.2) hblock
  have hdecoded := hslot.decoded
  unfold Tag.uops at hdecoded hwhole
  rw [hinsn] at hdecoded hwhole
  refine ⟨q + k, v, hfound, by omega, hv, ?_, hzero⟩
  rw [← hnext]
  exact X86Insn.rep_last hdecoded hwhole

/-- A uop completes where it is. -/
theorem finish (h : s.Inv) {q : Nat} {u : WindowUop} {e : Bool} {f : WindowUop → WindowUop}
    (hu : s.fw.window[q]? = some u) (hpending : u.complete = false)
    (hf : ∀ v, fixed (f v) = fixed v)
    (hcheck : u.ischeck = true → (f u).checkException = e)
    (hcut : (f u).checkException = true → u.endsX86Op = true ∧ (f u).complete = true) :
    Inv { s with
      fw := { s.fw with window := s.fw.window.modify q f }
      tags := s.tags.modify q fun t => { t with raised := some e } } := by
  have hischeck : (f u).ischeck = u.ischeck := congrArg (fun x => x.1.ischeck) (hf u)
  have hends : (f u).endsX86Op = u.endsX86Op := congrArg (·.2.2.2) (hf u)
  have hself : (s.fw.window.modify q f)[q]? = some (f u) := by
    rw [List.getElem?_modify_eq, hu]
    rfl
  have htags : (s.tags.modify q fun t => { t with raised := some e }).map Tag.fixed =
      s.tags.map Tag.fixed :=
    FetchWindow.map_modify_eq (g := fun t : Tag => { t with raised := some e }) (fun _ => rfl)
  refine h.update _ _ (FetchWindow.map_modify_eq hf) htags ?_ ?_ ?_ h.rename_le h.retire_le
  · intro k v t hv ht hc hcomplete
    by_cases hk : q = k
    · rw [← hk] at hv ht
      cases hself.symm.trans hv
      rw [List.getElem?_modify_eq] at ht
      have ⟨t₀, _, he⟩ := Option.map_eq_some_iff.mp ht
      rw [← he, hcheck (hischeck ▸ hc)]
    · rw [List.getElem?_modify_ne _ _ hk] at hv ht
      exact (h.slot k v t hv ht).check hc hcomplete
  · intro v hv hflag
    have ⟨k, hk⟩ := List.mem_iff_getElem?.mp hv
    by_cases he : q = k
    · rw [← he] at hk
      cases hself.symm.trans hk
      rw [hends]
      exact hcut hflag
    · rw [List.getElem?_modify_ne _ _ he] at hk
      have ⟨t, _, hslot⟩ := h.tag hk
      exact hslot.cut hflag
  · intro k hk
    have ⟨v, hv, hcomplete, hno⟩ := h.retired k hk
    have he : q ≠ k := by
      rintro rfl
      rw [hu] at hv
      cases hv
      rw [hpending] at hcomplete
      cases hcomplete
    exact ⟨v, by rw [List.getElem?_modify_ne _ _ he, hv], hcomplete, hno⟩

/-- A check that raises its exception is the last uop in the window. -/
theorem cutShort (h : s.Inv) {q : Nat} {u : WindowUop} {t : Tag} (hu : s.fw.window[q]? = some u)
    (ht : s.tags[q]? = some t) (hc : u.ischeck = true) (hpending : u.complete = false) :
    Inv { s with
      fw := { s.fw with
        window := s.fw.window.take q ++
          [{ u with endsX86Op := true, checkException := true, complete := true }]
        fetchRip := t.next
        qRename := q + 1
        qRetire := min s.fw.qRetire (q + 1) }
      tags := s.tags.take q ++ [{ t with raised := some true }] } := by
  have hin := (List.getElem?_eq_some_iff.mp hu).1
  have hslot := h.slot q u t hu ht
  have ⟨hzero, _⟩ := X86Insn.check_first hslot.decoded hc
  have hstarts : u.startsX86Op = true := by rw [hslot.starts, hzero]; rfl
  have ⟨hends, hseq⟩ := h.boundary hu hstarts
  have hflush := h.flush u.rip hin.le hends hseq
  have hlen : (s.fw.window.take q).length = q := List.length_take_of_le hin.le
  have hretire : s.fw.qRetire ≤ q := by
    by_contra hlt
    have ⟨v, hv, hcomplete, _⟩ := h.retired q (by omega)
    rw [hu] at hv
    cases hv
    rw [hpending] at hcomplete
    cases hcomplete
  have hnew := hflush.append
    [{ u with endsX86Op := true, checkException := true, complete := true }]
    [{ t with raised := some true }] t.next (q + 1) t.block rfl (by rintro ⟨⟩) ?_ ?_ ?_ ?_ ?_ ?_ ?_
  · have htake : (s.follow (FetchWindow.flushPipeline q { s.fw with fetchRip := u.rip })).tags =
        s.tags.take q := congrArg (fun n => s.tags.take n) hlen
    have hmin : min s.fw.qRetire q = min s.fw.qRetire (q + 1) := by omega
    rw [htake] at hnew
    rw [← hmin]
    exact hnew
  · intro k v tv hv htv
    have ⟨hk, hv⟩ := singleton_get hv
    have ⟨_, htv⟩ := singleton_get htv
    rw [← hv, ← htv]
    refine ⟨hslot.decoded, hslot.rip, hslot.starts, fun _ => .inr hc, by rintro ⟨⟩, fun _ => rfl,
      fun _ _ => rfl, fun _ => ⟨rfl, rfl⟩⟩
  · intro k tv htv
    have ⟨hk, htv⟩ := singleton_get htv
    rw [← htv, hk]
    exact ⟨hzero, rfl⟩
  · intro k v hv
    have ⟨hk, hv⟩ := singleton_get hv
    rw [← hv, hk]
    exact ⟨fun _ => rfl, fun _ => rfl⟩
  · intro v hv
    have ⟨_, hv⟩ := singleton_get hv
    rw [← hv]
    rfl
  · intro k v tv _ htv _ _
    have ⟨_, htv⟩ := singleton_get htv
    rw [← htv]
  · change q + 1 ≤ (s.fw.window.take q).length + 1
    rw [hlen]
  · change min s.fw.qRetire q ≤ q + 1
    omega

/-- The assertion of `checkException` holds, and its search comes to an end. -/
theorem checkException_eq (h : s.Inv) {q : Nat} {u : WindowUop} {t : Tag}
    (hu : s.fw.window[q]? = some u) (ht : s.tags[q]? = some t) (hc : u.ischeck = true)
    (hends : u.endsX86Op = false) :
    s.fw.checkException q = some
      { s.fw with
        window := s.fw.window.take q ++ [{ u with endsX86Op := true, checkException := true }]
        fetchRip := t.next
        qRename := q + 1
        qRetire := min s.fw.qRetire (q + 1) } := by
  have ⟨last, v, hfound, hlt, hv, hseq, _⟩ := h.check_last hu ht hc hends
  unfold FetchWindow.checkException
  rw [hfound, Option.bind_some, if_neg (Nat.not_le.mpr hlt), hv, Option.bind_some]
  unfold FetchWindow.flushPipeline
  dsimp only
  rw [modify_last hu, hseq]

theorem front_of_map {w : List WindowUop} {tags : List Tag}
    (hw : w.map fixed = s.fw.window.map fixed) :
    frontRip { s with fw := { s.fw with window := w }, tags := tags } = frontRip s :=
  ripAt_of_map hw 0

theorem complete (h : s.Inv) {q : Nat} {e : Bool} {fw : FetchWindow}
    (hs : s.fw.complete q e = some fw) :
    ({ s with tags := s.tags.modify q fun t => { t with raised := some e } }.follow fw).Inv ∧
      frontRip ({ s with tags := s.tags.modify q fun t => { t with raised := some e } }.follow fw) =
        frontRip s := by
  have ⟨u, hpend, hs⟩ := Option.bind_eq_some_iff.mp hs
  have ⟨_, hu, hpending⟩ := FetchWindow.pending_eq hpend
  have ⟨t, ht, hslot⟩ := h.tag hu
  have hin := (List.getElem?_eq_some_iff.mp hu).1
  split at hs
  · cases hs
  have ⟨fw₁, h₁, heq⟩ := Option.map_eq_some_iff.mp hs
  have hfollow : ∀ f : WindowUop → WindowUop,
      { s with tags := s.tags.modify q fun t => { t with raised := some e } }.follow
        { s.fw with window := s.fw.window.modify q f } =
      { s with
        fw := { s.fw with window := s.fw.window.modify q f }
        tags := s.tags.modify q fun t => { t with raised := some e } } := by
    intro f
    unfold follow
    dsimp only
    rw [List.length_modify, ← h.length, ← List.length_modify (fun t : Tag => _) s.tags q,
      List.take_length]
  have hflag : u.checkException = false := by
    by_contra hflag
    have hdone := (hslot.cut (eq_true_of_ne_false hflag)).2
    rw [hpending] at hdone
    cases hdone
  split at h₁
  case isTrue hraises =>
    have ⟨hc, he⟩ := Bool.and_eq_true_iff.mp hraises
    split at h₁
    · next hends =>
      cases h₁
      rw [← heq, List.modify_modify_eq, hfollow]
      have hsame : ∀ v, fixed (((fun u : WindowUop => { u with complete := true }) ∘
          fun u => { u with checkException := true }) v) = fixed v := fun _ => rfl
      exact ⟨h.finish hu hpending hsame (fun _ => he.symm) (fun _ => ⟨hends, rfl⟩),
        front_of_map (FetchWindow.map_modify_eq hsame)⟩
    · next hends =>
      rw [h.checkException_eq hu ht hc (eq_false_of_ne_true hends)] at h₁
      cases h₁
      have hwindow :
          (s.fw.window.take q ++ [{ u with endsX86Op := true, checkException := true }]).modify q
            (fun u => { u with complete := true }) =
          s.fw.window.take q ++
            [{ u with endsX86Op := true, checkException := true, complete := true }] := by
        rw [← modify_last hu fun u => { u with endsX86Op := true, checkException := true },
          List.modify_modify_eq, modify_last hu]
        rfl
      have htags : (s.tags.modify q fun t => { t with raised := some e }).take (q + 1) =
          s.tags.take q ++ [{ t with raised := some e }] := by
        rw [List.take_modify, modify_last ht]
      have hlen : (s.fw.window.take q ++
          [{ u with endsX86Op := true, checkException := true, complete := true }]).length =
            q + 1 := by
        rw [List.length_append, List.length_take_of_le hin.le]
        rfl
      rw [← heq]
      unfold follow
      dsimp only
      rw [hwindow, hlen, htags, he]
      refine ⟨h.cutShort hu ht hc hpending, ?_⟩
      unfold frontRip ripAt
      dsimp only
      cases q with
      | zero =>
        rw [hu]
        rfl
      | succ q =>
        rw [List.getElem?_append_left (by rw [List.length_take_of_le hin.le]; exact Nat.succ_pos q),
          List.getElem?_take, if_pos (Nat.succ_pos q),
          List.getElem?_eq_getElem (Nat.zero_lt_of_lt hin)]
        rfl
  case isFalse hno =>
    cases h₁
    rw [← heq, hfollow]
    have hsame : ∀ v, fixed ((fun u : WindowUop => { u with complete := true }) v) = fixed v :=
      fun _ => rfl
    refine ⟨h.finish hu hpending hsame ?_ ?_, front_of_map (FetchWindow.map_modify_eq hsame)⟩
    · intro hc
      rw [hc, Bool.true_and] at hno
      exact hflag.trans (eq_false_of_ne_true hno).symm
    · intro hset
      exact absurd hset (ne_true_of_eq_false hflag)

/-- No uop is stopped by an assertion as it completes. -/
theorem complete_isSome (h : s.Inv) {q : Nat} {u : WindowUop} (e : Bool)
    (hpend : s.fw.pending q = some u) (hb : u.isbranch = false) :
    ∃ fw, s.fw.complete q e = some fw := by
  have ⟨_, hu, _⟩ := FetchWindow.pending_eq hpend
  have ⟨t, ht, _⟩ := h.tag hu
  unfold FetchWindow.complete
  rw [hpend, Option.bind_some, if_neg (ne_true_of_eq_false hb)]
  dsimp only
  split
  case isTrue hraises =>
    split
    · exact ⟨_, rfl⟩
    · next hends =>
      rw [h.checkException_eq hu ht (Bool.and_eq_true_iff.mp hraises).1 (eq_false_of_ne_true hends)]
      exact ⟨_, rfl⟩
  case isFalse => exact ⟨_, rfl⟩

/-! Retirement -/

theorem replay (h : s.Inv) (n : Nat) (hn : n ≤ s.fw.window.length) (hle : s.fw.qRetire ≤ n) :
    Inv { s with fw := FetchWindow.replay n s.fw } ∧
      frontRip { s with fw := FetchWindow.replay n s.fw } = frontRip s := by
  have hw : (s.fw.window.take n ++ (s.fw.window.drop n).map WindowUop.squash).map fixed =
      s.fw.window.map fixed := by
    have hsame : fixed ∘ WindowUop.squash = fixed := rfl
    rw [List.map_append, List.map_map, hsame, ← List.map_append, List.take_append_drop]
  have hcases : ∀ {q : Nat} {u : WindowUop},
      (s.fw.window.take n ++ (s.fw.window.drop n).map WindowUop.squash)[q]? = some u →
      s.fw.window[q]? = some u ∨ u.complete = false ∧ u.checkException = false := by
    intro q u hu
    by_cases hq : q < (s.fw.window.take n).length
    · rw [List.getElem?_append_left hq] at hu
      exact .inl (of_getElem?_take hu).2
    · rw [List.getElem?_append_right (Nat.not_lt.mp hq), List.getElem?_map] at hu
      have ⟨v, _, he⟩ := Option.map_eq_some_iff.mp hu
      rw [← he]
      exact .inr ⟨rfl, rfl⟩
  have hmin : min s.fw.qRetire n = s.fw.qRetire := Nat.min_eq_left hle
  refine ⟨?_, ripAt_of_map hw 0⟩
  refine h.update _ s.tags hw rfl ?_ ?_ ?_ hn (Nat.min_le_right _ _)
  · intro q u t hu ht hc hcomplete
    cases hcases hu with
    | inl hold => exact (h.slot q u t hold ht).check hc hcomplete
    | inr hnew =>
      rw [hnew.1] at hcomplete
      cases hcomplete
  · intro u hu hflag
    have ⟨q, hq⟩ := List.mem_iff_getElem?.mp hu
    cases hcases hq with
    | inl hold =>
      have ⟨t, _, hslot⟩ := h.tag hold
      exact hslot.cut hflag
    | inr hnew =>
      rw [hnew.2] at hflag
      cases hflag
  · intro q hq
    rw [hmin] at hq
    have ⟨u, hu, hdone⟩ := h.retired q hq
    refine ⟨u, ?_, hdone⟩
    rw [List.getElem?_append_left (by rw [List.length_take_of_le hn]; omega),
      List.getElem?_take, if_pos (by omega), hu]

theorem rename (h : s.Inv) {fw : FetchWindow} (hs : s.fw.rename = some fw) :
    (s.follow fw).Inv ∧ frontRip (s.follow fw) = frontRip s := by
  unfold FetchWindow.rename at hs
  split at hs
  · next hlt =>
    cases hs
    rw [h.follow_same { s.fw with qRename := s.fw.qRename + 1 } rfl]
    exact ⟨⟨h.length, h.slot, h.next, h.after, h.first, h.seq, h.retired, hlt,
      h.retire_le.trans (Nat.le_succ _)⟩, rfl⟩
  · cases hs

/-- The uops up to the retire point are of one x86 op. -/
theorem oldest_block (h : s.Inv) {t₀ : Tag} (h₀ : s.tags[0]? = some t₀) {q : Nat} {t : Tag}
    (hq : q ≤ s.fw.qRetire) (ht : s.tags[q]? = some t) : t.index = q ∧ t.block = t₀.block := by
  induction q generalizing t with
  | zero =>
    rw [h₀] at ht
    cases ht
    exact ⟨h.first _ h₀, rfl⟩
  | succ q ih =>
    have ⟨u, hu, _, hends⟩ := h.retired q (by omega)
    have ⟨tq, htq, _⟩ := h.tag hu
    have ⟨t', ht', hblock, hindex⟩ := h.next q u tq hu htq hends
    have ⟨hi, hb⟩ := ih (by omega) htq
    rw [ht] at ht'
    cases ht'
    exact ⟨hindex.trans (congrArg (· + 1) hi), hblock.trans hb⟩

theorem commit (h : s.Inv) {u : WindowUop} (hu : s.fw.window[s.fw.qRetire]? = some u)
    (hends : u.endsX86Op = true) (hlt : s.fw.qRetire < s.fw.qRename) :
    Inv { s with fw := s.fw.commit, tags := s.tags.drop (s.fw.qRetire + 1) } := by
  have hren := h.rename_le
  have hrip : ∀ q, ripAt s.fw.commit q = ripAt s.fw (s.fw.qRetire + 1 + q) := by
    intro q
    unfold ripAt FetchWindow.commit
    dsimp only
    rw [List.getElem?_drop]
  refine ⟨?_, ?_, ?_, ?_, ?_, ?_, ?_, ?_, Nat.zero_le _⟩
  · change (s.tags.drop _).length = (s.fw.window.drop _).length
    rw [List.length_drop, List.length_drop, h.length]
  · intro q v t hv ht
    have hv : (s.fw.window.drop (s.fw.qRetire + 1))[q]? = some v := hv
    rw [List.getElem?_drop] at hv ht
    exact h.slot _ v t hv ht
  · intro q v t hv ht hno
    have hv : (s.fw.window.drop (s.fw.qRetire + 1))[q]? = some v := hv
    rw [List.getElem?_drop] at hv ht
    have ⟨t', ht', hsame⟩ := h.next _ v t hv ht hno
    exact ⟨t', by rw [List.getElem?_drop]; exact ht', hsame⟩
  · intro q v t hv he ht
    have hv : (s.fw.window.drop (s.fw.qRetire + 1))[q]? = some v := hv
    rw [List.getElem?_drop] at hv ht
    exact h.after _ v t hv he ht
  · intro t ht
    rw [List.getElem?_drop] at ht
    exact h.after _ u t hu hends ht
  · intro q v t hv ht hc he
    have hv : (s.fw.window.drop (s.fw.qRetire + 1))[q]? = some v := hv
    rw [List.getElem?_drop] at hv ht
    exact (hrip (q + 1)).trans (h.seq _ v t hv ht hc he)
  · intro q hq
    exact absurd hq (Nat.not_lt_zero q)
  · change s.fw.qRename - (s.fw.qRetire + 1) ≤ (s.fw.window.drop (s.fw.qRetire + 1)).length
    rw [List.length_drop]
    omega

end Inv

/-! Commits -/

/-- The uops of a commit are all those of its instruction if that has no check, or if its check
has last passed, and else those up to the check. -/
def Exact (c : List (WindowUop × Tag)) : Prop :=
  ∃ insn rip next, (∀ p ∈ c, p.2.block = (insn, rip, next)) ∧ c ≠ [] ∧
    ((∀ d ∈ X86Insn.uops next insn, d.ischeck = false) ∧
        c.map (fun p => p.1.decoded) = X86Insn.uops next insn ∨
      ∃ p ∈ c, p.1.ischeck = true ∧
        (p.2.raised = some false ∧ c.map (fun p => p.1.decoded) = X86Insn.uops next insn ∨
          p.2.raised = some true ∧ c.map (fun p => p.1.decoded) =
            (X86Insn.uops next insn).take
              ((X86Insn.uops next insn).findIdx (·.ischeck) + 1)))

/-- Behind a check that has raised its exception comes the next instruction. -/
def Follows (c c' : List (WindowUop × Tag)) : Prop :=
  ∀ p ∈ c, p.1.ischeck = true → p.2.raised = some true →
    ∀ p', c'.head? = some p' → p'.1.rip = p.2.next

namespace Inv
variable {s : TaggedWindow}

theorem committed_get {n q : Nat} {p : WindowUop × Tag}
    (hp : ((s.fw.window.zip s.tags).take n)[q]? = some p) :
    q < n ∧ s.fw.window[q]? = some p.1 ∧ s.tags[q]? = some p.2 := by
  have ⟨hq, hzip⟩ := of_getElem?_take hp
  have ⟨hu, ht⟩ := List.getElem?_zip_eq_some.mp hzip
  exact ⟨hq, hu, ht⟩

theorem get_committed {n q : Nat} {u : WindowUop} {t : Tag} (hq : q < n)
    (hu : s.fw.window[q]? = some u) (ht : s.tags[q]? = some t) :
    ((s.fw.window.zip s.tags).take n)[q]? = some (u, t) := by
  rw [List.getElem?_take, if_pos hq]
  exact List.getElem?_zip_eq_some.mpr ⟨hu, ht⟩

/-- What commits is the beginning of an instruction, as it was decoded. -/
theorem committed_decoded (h : s.Inv) {u : WindowUop} {t : Tag}
    (hu : s.fw.window[s.fw.qRetire]? = some u) (ht : s.tags[s.fw.qRetire]? = some t) :
    t.index = s.fw.qRetire ∧
      (∀ p ∈ (s.fw.window.zip s.tags).take (s.fw.qRetire + 1), p.2.block = t.block) ∧
      ((s.fw.window.zip s.tags).take (s.fw.qRetire + 1)).map (fun p => p.1.decoded) =
        t.uops.take (s.fw.qRetire + 1) := by
  have hin := (List.getElem?_eq_some_iff.mp hu).1
  have ⟨t₀, h₀, _⟩ := h.tag (List.getElem?_eq_getElem (Nat.zero_lt_of_lt hin))
  have ⟨hindex, hblock⟩ := h.oldest_block h₀ (Nat.le_refl _) ht
  refine ⟨hindex, ?_, ?_⟩
  · intro p hp
    have ⟨q, hq⟩ := List.mem_iff_getElem?.mp hp
    have ⟨hlt, _, htag⟩ := committed_get hq
    exact (h.oldest_block h₀ (Nat.le_of_lt_succ hlt) htag).2.trans hblock.symm
  · apply List.ext_getElem?
    intro q
    rw [List.getElem?_map]
    by_cases hq : q < s.fw.qRetire + 1
    · have ⟨v, hv⟩ : ∃ v, s.fw.window[q]? = some v := ⟨_, List.getElem?_eq_getElem (by omega)⟩
      have ⟨tv, htv, hslot⟩ := h.tag hv
      have ⟨hi, hb⟩ := h.oldest_block h₀ (Nat.le_of_lt_succ hq) htv
      have huops : tv.uops = t.uops := by
        have hsame := hb.trans hblock.symm
        simp only [Tag.block, Prod.mk.injEq] at hsame
        unfold Tag.uops
        rw [hsame.1, hsame.2.2]
      rw [get_committed hq hv htv, List.getElem?_take, if_pos hq, ← huops, ← hi]
      exact hslot.decoded.symm
    · rw [List.getElem?_eq_none (by rw [List.length_take]; omega),
        List.getElem?_eq_none (by rw [List.length_take]; omega)]
      rfl

theorem exact_commit (h : s.Inv) {u : WindowUop} (hu : s.fw.window[s.fw.qRetire]? = some u)
    (hcomplete : u.complete = true) (hends : u.endsX86Op = true)
    (hcheck : u.ischeck = true → u.checkException = true) :
    Exact ((s.fw.window.zip s.tags).take (s.fw.qRetire + 1)) := by
  have hin := (List.getElem?_eq_some_iff.mp hu).1
  have ⟨t, ht, hslot⟩ := h.tag hu
  have ⟨hindex, hblock, hdecoded⟩ := h.committed_decoded hu ht
  have hlast := get_committed (Nat.lt_succ_self _) hu ht
  refine ⟨t.insn, t.rip, t.next, hblock, ?_, ?_⟩
  · intro hnil
    rw [hnil] at hlast
    cases hlast
  rw [hdecoded]
  cases hc : u.ischeck with
  | true =>
    have ⟨hzero, _, body, hrep⟩ := X86Insn.check_first hslot.decoded hc
    refine .inr ⟨(u, t), List.mem_of_getElem? hlast, hc, .inr ⟨?_, ?_⟩⟩
    · rw [hslot.check hc hcomplete, hcheck hc]
    · unfold Tag.uops
      rw [← hindex, hzero, hrep]
      rfl
  | false =>
    have hwhole : t.uops.take (s.fw.qRetire + 1) = t.uops := by
      cases hslot.whole hends with
      | inl hw => rw [← hindex, hw, List.take_length]
      | inr hcheck => exact absurd hcheck (ne_true_of_eq_false hc)
    rw [hwhole]
    cases hinsn : t.insn with
    | plain uops =>
      refine .inl ⟨?_, ?_⟩
      · intro d hd
        have ⟨p, _, hp⟩ := List.mem_map.mp hd
        rw [← hp]
        rfl
      · unfold Tag.uops
        rw [hinsn]
    | rep body =>
      have ⟨v, hv⟩ : ∃ v, s.fw.window[0]? = some v :=
        ⟨_, List.getElem?_eq_getElem (Nat.zero_lt_of_lt hin)⟩
      have ⟨tv, htv, hslotv⟩ := h.tag hv
      have hmem := get_committed (Nat.succ_pos s.fw.qRetire) hv htv
      have hsame := hblock _ (List.mem_of_getElem? hmem)
      simp only [Tag.block, Prod.mk.injEq] at hsame
      have hdecodedv := hslotv.decoded
      unfold Tag.uops at hdecodedv
      rw [h.first tv htv, hsame.1, hinsn] at hdecodedv
      have hcheckv : v.ischeck = true :=
        (congrArg DecodedUop.ischeck (Option.some.inj hdecodedv)).symm
      have hpos : 0 < s.fw.qRetire := by
        apply Nat.pos_of_ne_zero
        intro hzero
        rw [hzero, hv] at hu
        cases hu
        rw [hcheckv] at hc
        cases hc
      have ⟨v', hv', hcompletev, hendsv⟩ := h.retired 0 hpos
      cases hv.symm.trans hv'
      have hflag : v.checkException = false := by
        by_contra hflag
        have he := (hslotv.cut (eq_true_of_ne_false hflag)).1
        rw [hendsv] at he
        cases he
      refine .inr ⟨_, List.mem_of_getElem? hmem, hcheckv, .inl ⟨?_, ?_⟩⟩
      · exact (hslotv.check hcheckv hcompletev).trans (congrArg some hflag)
      · unfold Tag.uops
        rw [hinsn]

/-- Only the last uop of a commit is a check that has raised its exception. -/
theorem raised_last (h : s.Inv) {u : WindowUop} {t : Tag}
    (hu : s.fw.window[s.fw.qRetire]? = some u) (ht : s.tags[s.fw.qRetire]? = some t)
    {p : WindowUop × Tag} (hp : p ∈ (s.fw.window.zip s.tags).take (s.fw.qRetire + 1))
    (hc : p.1.ischeck = true) (hraised : p.2.raised = some true) : p = (u, t) := by
  have ⟨q, hq⟩ := List.mem_iff_getElem?.mp hp
  have ⟨hlt, hv, htv⟩ := committed_get hq
  by_cases he : q = s.fw.qRetire
  · rw [he] at hv htv
    cases hu.symm.trans hv
    cases ht.symm.trans htv
    rfl
  · have ⟨v, hv', hcomplete, hends⟩ := h.retired q (by omega)
    cases hv.symm.trans hv'
    have hslot := h.slot q _ _ hv htv
    have hflag := hslot.check hc hcomplete
    rw [hraised] at hflag
    have hcut := (hslot.cut (Option.some.inj hflag).symm).1
    rw [hends] at hcut
    cases hcut

/-- Whether the uop commits its x86 op, what the commit leaves, and what else happens. -/
theorem retireChecked (h : s.Inv) {u : WindowUop} {fw : FetchWindow}
    (hlt : s.fw.qRetire < s.fw.qRename) (hu : s.fw.window[s.fw.qRetire]? = some u)
    (hcomplete : u.complete = true) (hs : s.fw.retireChecked u = some fw) :
    if u.endsX86Op && !(u.ischeck && !u.checkException) then
      Inv { s with fw := fw, tags := s.tags.drop (s.fw.qRetire + 1) } ∧
        ripAt fw 0 = ripAt s.fw (s.fw.qRetire + 1)
    else (s.follow fw).Inv ∧ frontRip (s.follow fw) = frontRip s := by
  unfold FetchWindow.retireChecked at hs
  split at hs
  · next hcheck =>
    have ⟨hmismatch, _⟩ := Bool.and_eq_true_iff.mp hcheck
    rw [hmismatch, Bool.not_true, Bool.and_false, if_neg Bool.false_ne_true]
    exact h.refetch hs
  next hcheck =>
  split at hs
  · next hends =>
    cases hs
    rw [hends, Bool.and_true] at hcheck
    rw [hends, eq_false_of_ne_true hcheck, Bool.not_false, Bool.and_true, if_pos rfl]
    refine ⟨h.commit hu hends hlt, ?_⟩
    unfold ripAt FetchWindow.commit
    dsimp only
    rw [List.getElem?_drop]
  · next hends =>
    cases hs
    rw [eq_false_of_ne_true hends, Bool.false_and, if_neg Bool.false_ne_true,
      h.follow_same { s.fw with qRetire := s.fw.qRetire + 1 } rfl]
    refine ⟨⟨h.length, h.slot, h.next, h.after, h.first, h.seq, ?_, h.rename_le, hlt⟩, rfl⟩
    intro q hq
    by_cases he : q = s.fw.qRetire
    · exact ⟨u, by rw [he]; exact hu, hcomplete, eq_false_of_ne_true hends⟩
    · exact h.retired q (by change q < s.fw.qRetire + 1 at hq; omega)

end Inv

/-- What a step does to the history: nothing, or one commit. -/
inductive Advances (s s' : TaggedWindow) : Prop
  | stays (inv : s'.Inv) (history : s'.history = s.history) (front : frontRip s' = frontRip s)
  | commits (inv : s'.Inv) (c : List (WindowUop × Tag))
      (history : s'.history = s.history ++ [some c]) (exact : Exact c)
      (head : ∀ p, c.head? = some p → p.1.rip = frontRip s)
      (next : ∀ p ∈ c, p.1.ischeck = true → p.2.raised = some true → frontRip s' = p.2.next)

theorem Inv.retire {s s' : TaggedWindow} (h : s.Inv) {violation : Violation}
    (hs : s.step (.retire violation) = some s') : Advances s s' := by
  have ⟨fw, hfw, heq⟩ := Option.map_eq_some_iff.mp hs
  unfold FetchWindow.retire at hfw
  split at hfw
  case isFalse => cases hfw
  case isTrue hlt =>
  have ⟨u, hu, hfw⟩ := Option.bind_eq_some_iff.mp hfw
  split at hfw
  case isTrue => cases hfw
  case isFalse hready =>
  have hcomplete : u.complete = true := by
    rw [Bool.or_eq_true, not_or, Bool.not_eq_true'] at hready
    exact eq_true_of_ne_false hready.1
  have hin : s.fw.qRetire < s.fw.window.length := (List.getElem?_eq_some_iff.mp hu).1
  have ⟨t, ht, hslot⟩ := h.tag hu
  -- what retires does so in the window, or in the one that is left by a replay behind it
  have hchecked : ∀ fw₀, Inv { s with fw := fw₀ } → frontRip { s with fw := fw₀ } = frontRip s →
      fw₀.qRetire = s.fw.qRetire → fw₀.qRetire < fw₀.qRename →
      fw₀.window[s.fw.qRetire]? = some u → fw₀.retireChecked u = some fw →
      violation ≠ .loadOrdering → Advances s s' := by
    intro fw₀ h₀ hfront hretire hlt₀ hu₀ hs₀ hviolation
    rw [← hretire] at hu₀
    have hout := h₀.retireChecked hlt₀ hu₀ hcomplete hs₀
    have hcommits : commits s.fw violation =
        (u.endsX86Op && !(u.ischeck && !u.checkException)) := by
      unfold commits
      rw [hu]
      dsimp only
      rw [decide_eq_true hviolation, Bool.true_and]
    rw [hcommits] at heq
    split at hout
    · next hcommit =>
      rw [if_pos hcommit] at heq
      have ⟨hends, hmismatch⟩ := Bool.and_eq_true_iff.mp hcommit
      have hcheck : u.ischeck = true → u.checkException = true := by
        intro hc
        rw [hc, Bool.true_and, Bool.not_not] at hmismatch
        exact hmismatch
      rw [← heq]
      refine .commits ?_ _ rfl (h.exact_commit hu hcomplete hends hcheck) ?_ ?_
      · rw [← hretire]
        exact ⟨hout.1.length, hout.1.slot, hout.1.next, hout.1.after, hout.1.first, hout.1.seq,
          hout.1.retired, hout.1.rename_le, hout.1.retire_le⟩
      · intro p hp
        rw [List.head?_eq_getElem?] at hp
        have ⟨_, hv, _⟩ := Inv.committed_get hp
        unfold frontRip ripAt
        rw [hv]
        rfl
      · intro p hp hc hraised
        have he := h.raised_last hu ht hp hc hraised
        rw [he] at hc ⊢
        refine (hout.2).trans ?_
        have ht₀ : s.tags[fw₀.qRetire]? = some t := by rw [hretire]; exact ht
        exact h₀.seq fw₀.qRetire u t hu₀ ht₀ hc hends
    · next hno =>
      rw [if_neg hno] at heq
      rw [← heq]
      exact .stays hout.1 rfl (hout.2.trans hfront)
  cases violation with
  | loadOrdering =>
    cases hfw
    have hno : commits s.fw .loadOrdering = false := by
      unfold commits
      rw [hu]
      rfl
    have ⟨hinv, hfront⟩ := h.replay s.fw.qRetire hin.le (Nat.le_refl _)
    have hlen : (FetchWindow.replay s.fw.qRetire s.fw).window.length = s.fw.window.length := by
      unfold FetchWindow.replay
      dsimp only
      rw [List.length_append, List.length_map, ← List.length_append, List.take_append_drop]
    rw [← heq, hno, if_neg Bool.false_ne_true, h.follow_same _ hlen]
    exact .stays hinv rfl hfront
  | loadConsistency =>
    have ⟨hinv, hfront⟩ := h.replay (s.fw.qRetire + 1) hin (Nat.le_succ _)
    refine hchecked _ hinv hfront (Nat.min_eq_left (Nat.le_succ _)) ?_ ?_ hfw (by rintro ⟨⟩)
    · exact Nat.lt_of_le_of_lt (Nat.min_le_left _ _) (Nat.lt_succ_self _)
    · unfold FetchWindow.replay
      dsimp only
      rw [List.getElem?_append_left (by rw [List.length_take_of_le hin]; exact Nat.lt_succ_self _),
        List.getElem?_take, if_pos (Nat.lt_succ_self _), hu]
  | none => exact hchecked s.fw h rfl rfl hlt hu hfw (by rintro ⟨⟩)

/-! The history -/

/-- What the history says, and where the window goes on from it. -/
structure Recorded (s : TaggedWindow) : Prop where
  inv : s.Inv
  exact : ∀ c, some c ∈ s.history → Exact c
  follows : ∀ (i : Nat) c c', s.history[i]? = some (some c) → s.history[i + 1]? = some (some c') →
    Follows c c'
  front : ∀ c, s.history.getLast? = some (some c) →
    ∀ p ∈ c, p.1.ischeck = true → p.2.raised = some true → frontRip s = p.2.next

theorem consecutive_concat {α : Type} {l : List α} {a x y : α} {i : Nat}
    (hx : (l ++ [a])[i]? = some x) (hy : (l ++ [a])[i + 1]? = some y) :
    l[i]? = some x ∧ l[i + 1]? = some y ∨ l.getLast? = some x ∧ a = y := by
  have hin := (List.getElem?_eq_some_iff.mp hy).1
  rw [List.length_append, List.length_singleton] at hin
  rw [List.getElem?_append_left (by omega)] at hx
  by_cases hi : i + 1 < l.length
  · rw [List.getElem?_append_left hi] at hy
    exact .inl ⟨hx, hy⟩
  · have hlast : i + 1 = l.length := by omega
    rw [hlast, List.getElem?_concat_length] at hy
    refine .inr ⟨?_, Option.some.inj hy⟩
    rw [List.getLast?_eq_getElem?, ← hlast, Nat.add_sub_cancel]
    exact hx

theorem Inv.empty (rip : Waddr) (history : List (Option (List (WindowUop × Tag)))) :
    Inv { fw := { fetchRip := rip }, history := history } := by
  refine ⟨rfl, ?_, ?_, ?_, ?_, ?_, ?_, Nat.le_refl _, Nat.le_refl _⟩
  · rintro q u t ⟨⟩
  · rintro q u t ⟨⟩
  · rintro q u t ⟨⟩
  · rintro t ⟨⟩
  · rintro q u t ⟨⟩
  · intro q hq
    exact absurd hq (Nat.not_lt_zero q)

namespace Recorded
variable {s s' : TaggedWindow}

theorem stays (h : s.Recorded) (hinv : s'.Inv) (hhistory : s'.history = s.history)
    (hfront : frontRip s' = frontRip s) : s'.Recorded := by
  refine ⟨hinv, ?_, ?_, ?_⟩
  · rw [hhistory]
    exact h.exact
  · rw [hhistory]
    exact h.follows
  · rw [hhistory, hfront]
    exact h.front

theorem commits (h : s.Recorded) (hinv : s'.Inv) {c : List (WindowUop × Tag)}
    (hhistory : s'.history = s.history ++ [some c]) (hexact : Exact c)
    (hhead : ∀ p, c.head? = some p → p.1.rip = frontRip s)
    (hnext : ∀ p ∈ c, p.1.ischeck = true → p.2.raised = some true → frontRip s' = p.2.next) :
    s'.Recorded := by
  refine ⟨hinv, ?_, ?_, ?_⟩
  · intro c' hc'
    rw [hhistory] at hc'
    cases List.mem_append.mp hc' with
    | inl hold => exact h.exact c' hold
    | inr hnew =>
      cases List.mem_singleton.mp hnew
      exact hexact
  · intro i c₁ c₂ h₁ h₂
    rw [hhistory] at h₁ h₂
    cases consecutive_concat h₁ h₂ with
    | inl hold => exact h.follows i c₁ c₂ hold.1 hold.2
    | inr hlast =>
      obtain ⟨hlast, heq⟩ := hlast
      cases heq
      intro p hp hc hraised p' hp'
      exact (hhead p' hp').trans (h.front c₁ hlast p hp hc hraised)
  · intro c' hc'
    rw [hhistory, List.getLast?_concat] at hc'
    cases hc'
    exact hnext

theorem reset (h : s.Recorded) (rip : Waddr) :
    Recorded { fw := { fetchRip := rip }, history := s.history ++ [none] } := by
  refine ⟨Inv.empty rip _, ?_, ?_, ?_⟩
  · intro c hc
    cases List.mem_append.mp hc with
    | inl hold => exact h.exact c hold
    | inr hnew => cases List.mem_singleton.mp hnew
  · intro i c₁ c₂ h₁ h₂
    cases consecutive_concat h₁ h₂ with
    | inl hold => exact h.follows i c₁ c₂ hold.1 hold.2
    | inr hlast => cases hlast.2
  · intro c hc
    rw [List.getLast?_concat] at hc
    cases hc

theorem fetch (h : s.Recorded) {insn : X86Insn} {size pred : Waddr}
    (hs : s.step (.fetch insn size pred) = some s') : s'.Recorded := by
  have hinv := h.inv.fetch hs
  have ⟨fw, hfw, heq⟩ := Option.map_eq_some_iff.mp hs
  have ⟨us, hus, hfetch⟩ := Option.map_eq_some_iff.mp hfw
  refine h.stays hinv ?_ ?_
  · rw [← heq]
  · have ⟨_, hne, hget⟩ := x86Op_get hus
    rw [← heq, ← hfetch]
    unfold frontRip ripAt
    dsimp only
    by_cases hzero : 0 < s.fw.window.length
    · rw [List.getElem?_append_left hzero, List.getElem?_eq_getElem hzero]
      rfl
    · have hnil := List.eq_nil_of_length_eq_zero (Nat.eq_zero_of_not_pos hzero)
      have hhead := List.getElem?_eq_getElem (List.length_pos_iff.mpr hne)
      have ⟨op, _, _, he⟩ := hget 0 _ hhead
      rw [hnil, List.nil_append, hhead, Option.map_some, Option.getD_some, he]
      rfl

/-- A step that commits nothing. -/
theorem followed (h : s.Recorded) {s₀ : TaggedWindow} {o : Option FetchWindow}
    (hs : o.map s₀.follow = some s') (hhistory : s₀.history = s.history)
    (hstep : ∀ fw, o = some fw → (s₀.follow fw).Inv ∧ frontRip (s₀.follow fw) = frontRip s) :
    s'.Recorded := by
  have ⟨fw, hfw, heq⟩ := Option.map_eq_some_iff.mp hs
  have ⟨hinv, hfront⟩ := hstep fw hfw
  rw [heq] at hinv hfront
  refine h.stays hinv ?_ hfront
  rw [← heq]
  exact hhistory

theorem step (h : s.Recorded) {e : Event} (hs : s.step e = some s') : s'.Recorded := by
  cases e with
  | fetch insn size pred => exact h.fetch hs
  | rename => exact h.followed hs rfl fun fw hfw => h.inv.rename hfw
  | complete q excepting => exact h.followed hs rfl fun fw hfw => h.inv.complete hfw
  | resolveBranch q actualTarget => exact h.followed hs rfl fun fw hfw => h.inv.resolveBranch hfw
  | alignmentException q =>
    refine h.followed hs rfl fun fw hfw => ?_
    have ⟨_, _, hrefetch⟩ := Option.bind_eq_some_iff.mp hfw
    exact h.inv.refetch hrefetch
  | retire violation =>
    cases h.inv.retire hs with
    | stays inv history front => exact h.stays inv history front
    | commits inv c history exact head next => exact h.commits inv history exact head next
  | reset rip =>
    cases hs
    exact h.reset rip

theorem start (rip : Waddr) : Recorded { fw := { fetchRip := rip } } := by
  refine ⟨Inv.empty rip _, ?_, ?_, ?_⟩
  · intro c hc
    cases hc
  · rintro i c c' ⟨⟩
  · rintro c ⟨⟩

end Recorded

/-- Each commit is exact, and the next one comes from where it should, unless the processor was
reset between them. No uop is stopped by an assertion as it completes. -/
structure SkipsExactly (s : TaggedWindow) : Prop where
  exact : ∀ c, some c ∈ s.history → Exact c
  follows : ∀ (i : Nat) c c', s.history[i]? = some (some c) → s.history[i + 1]? = some (some c') →
    Follows c c'
  asserts : ∀ (q : Nat) u excepting, s.fw.pending q = some u → u.isbranch = false →
    ∃ fw, s.fw.complete q excepting = some fw

theorem skips_exactly (rip : Waddr) (events : List Event) :
    Throughout step SkipsExactly { fw := { fetchRip := rip } } events := by
  intro before _ s hs
  have h : s.Recorded := run_invariant (I := Recorded) (fun _ _ _ h _ hs => h.step hs)
    (Recorded.start rip) (along_true _ _ _) hs
  exact ⟨h.exact, h.follows, fun q u e hpend hb => h.inv.complete_isSome e hpend hb⟩

end TaggedWindow
end FeS2.Pyrite
