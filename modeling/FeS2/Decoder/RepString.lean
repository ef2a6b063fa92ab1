import FeS2.Decoder.StringUops

/-!
The repeated string instructions, trip after trip. They repeat as x86 prescribes if and only if
no carry of the host gets into an address and the elements they compare, which are read at the
whole registers, agree with those of the segments at the address size.
-/

namespace FeS2.Decoder

/-- The first uop is a check and fails. -/
def skips (left : Nat → Leftover) (uops : List TransOp) (m : Machine) : Bool :=
  match uops with
  | [] => false
  | t :: ts =>
      match t.exec (left ts.length) m with
      | some (.checkFailed _) => true
      | _ => false

namespace StringInsn
variable (i : StringInsn)

/-- Trips until fetch leaves the instruction: where it goes on, and how many of the trips got
past their check. -/
def trips (uops : List TransOp) :
    Nat → (Nat → Nat → Leftover) → Machine → Option (Machine × W64 × Nat)
  | 0, _, _ => none
  | fuel + 1, left, m =>
      match runUops (left 0) i.rip uops m with
      | none => none
      | some (m', rip) =>
          if rip = i.ripstart then
            (trips uops fuel (fun k => left (k + 1)) m').map fun r => (r.1, r.2.1, r.2.2 + 1)
          else some (m', rip, if skips (left 0) uops m then 0 else 1)

/-- The address x86 takes an element from, of a segment and a register. -/
def linear (base r : W64) : W64 :=
  let sum := base + (r.setWidth i.addrSize.bits).setWidth 64
  if i.use64 then sum else (sum.setWidth 32).setWidth 64

/-- The bases of the segments of the source, which a prefix may name, and of the destination. -/
structure Segments where
  src : W64
  dst : W64

def x86Breaks (segs : Segments) (m : Machine) (c : Counters) : Bool :=
  i.breaks m (i.linear segs.src c.rsi) (i.linear segs.dst c.rdi)

/-- The iterations that x86 prescribes. -/
def x86Loop (df : Bool) (segs : Segments) (m : Machine) : Counters × Nat :=
  i.loop df (i.x86Breaks segs m) (i.count m.counters).toNat noCarry m.counters

/-- The trips are the prescribed iterations. -/
def Repeats (df : Bool) (segs : Segments) (uops : List TransOp) (fuel : Nat)
    (left : Nat → Nat → Leftover) (m : Machine) : Prop :=
  ∃ m', i.trips uops fuel left m = some (m', i.rip, (i.x86Loop df segs m).2) ∧
    m'.counters = (i.x86Loop df segs m).1

variable {i} {dirflag : Bool} {uops : List TransOp}

theorem count_step (dirflag : Bool) (carry : Gpr → Bool) {c : Counters} (hcount : i.count c ≠ 0) :
    (i.count (i.step dirflag carry c)).toNat + 1 = (i.count c).toNat := by
  have hone : (1 : W64).setWidth i.addrSize.bits = 1 := by cases i.addrSize <;> decide
  have hsub : i.count (i.step dirflag carry c) = i.count c - 1 := by
    rw [count, step, x86Merge_setWidth, Size.setWidth_sub, hone, count]
  have hnat : (1 : BitVec i.addrSize.bits).toNat = 1 := BitVec.toNat_one i.addrSize.bits_pos
  have hne : (i.count c).toNat ≠ 0 := fun hzero => hcount (BitVec.eq_of_toNat_eq hzero)
  have hle : 1 ≤ i.count c := BitVec.le_def.mpr (by omega)
  rw [hsub, BitVec.toNat_sub_of_le hle, hnat]
  omega

theorem skips_eq (h : i.uops dirflag = some uops) (hrep : i.rep ≠ .none) (left : Nat → Leftover)
    (m : Machine) : skips left uops m = decide (i.count m.counters = 0) := by
  obtain ⟨hnone, -⟩ | ⟨-, rfl⟩ := uops_eq h
  · exact absurd hnone hrep
  rw [List.cons_append, skips, chk_exec]
  by_cases hcount : i.count m.counters = 0
  · rw [if_pos hcount, decide_eq_true hcount]
  · rw [if_neg hcount, decide_eq_false hcount]

theorem breaks_congr {m m' : Machine} {carry : Gpr → Bool} (h : i.Trip dirflag carry m m')
    (src dst : W64) : i.breaks m' src dst = i.breaks m src dst := by
  by_cases hcmp : i.compares = true
  · rw [breaks, breaks, i.same_congr (h.memory hcmp) (h.rax hcmp)]
  · simp [breaks, hcmp]

/-- The trips are the iterations, with the carries that get in and the elements at the whole
registers. -/
theorem trips_eq (h : i.uops dirflag = some uops) (hrep : i.rep ≠ .none) {fuel : Nat}
    (left : Nat → Nat → Leftover) (m : Machine) (hfuel : (i.count m.counters).toNat < fuel) :
    ∃ m', i.trips uops fuel left m = some (m', i.rip, (i.loop dirflag
        (fun c => i.breaks m c.rsi c.rdi) (i.count m.counters).toNat
        (fun k r => carriesInto (left k) r uops) m.counters).2) ∧
      m'.counters = (i.loop dirflag (fun c => i.breaks m c.rsi c.rdi)
        (i.count m.counters).toNat (fun k r => carriesInto (left k) r uops) m.counters).1 := by
  induction fuel generalizing left m with
  | zero => exact absurd hfuel (Nat.not_lt_zero _)
  | succ fuel ih =>
      rw [trips, skips_eq h hrep]
      by_cases hcount : i.count m.counters = 0
      · obtain ⟨m', hcounters, hrun⟩ := i.run_skip m (left 0) h hrep hcount
        refine ⟨m', ?_, ?_⟩
        · rw [hrun]
          dsimp only
          rw [if_neg i.moved, decide_eq_true hcount, hcount]
          rfl
        · rw [hcounters, hcount]
          rfl
      · obtain ⟨m1, htrip, hrun⟩ := i.run_trip m (left 0) h hrep hcount
        have hstep := count_step dirflag (fun r => carriesInto (left 0) r uops) hcount
        rw [← htrip.counters] at hstep
        rw [hrun]
        dsimp only
        rw [decide_eq_false hcount, ← hstep]
        by_cases hstop : i.count m1.counters = 0 ∨ i.breaks m m.counters.rsi m.counters.rdi = true
        · have hone : i.loop dirflag (fun c => i.breaks m c.rsi c.rdi)
              ((i.count m1.counters).toNat + 1) (fun k r => carriesInto (left k) r uops) m.counters =
              (i.step dirflag (fun r => carriesInto (left 0) r uops) m.counters, 1) := by
            cases hstop with
            | inl hzero =>
                rw [hzero]
                exact i.loop_one _ _ _ _
            | inr hbreak => exact i.loop_break _ _ _ hbreak
          rw [if_pos hstop, if_neg i.moved, hone]
          exact ⟨m1, rfl, htrip.counters⟩
        · have hgo : i.breaks m m.counters.rsi m.counters.rdi = false :=
            Bool.eq_false_iff.mpr fun hbreak => hstop (.inr hbreak)
          have hsame : (fun c : Counters => i.breaks m1 c.rsi c.rdi) =
              fun c => i.breaks m c.rsi c.rdi := funext fun c => breaks_congr htrip c.rsi c.rdi
          obtain ⟨m', hrest, hcounters⟩ := ih (fun k => left (k + 1)) m1 (by omega)
          rw [hsame, htrip.counters] at hrest hcounters
          rw [if_neg hstop, if_pos rfl, i.loop_next _ _ _ hgo, hrest, htrip.counters]
          exact ⟨m', rfl, hcounters⟩

/-- What x86 prescribes is done if and only if no carry gets into an address and, but for the
last count, the elements at the whole registers say what those of the segments say. -/
theorem repeats_iff {df : Bool} (hdf : dirflag = df) (h : i.uops dirflag = some uops)
    (hrep : i.rep ≠ .none) (segs : Segments) {fuel : Nat} (left : Nat → Nat → Leftover)
    (m : Machine) (hfuel : (i.count m.counters).toNat < fuel) :
    i.Repeats df segs uops fuel left m ↔
      (∀ k < (i.x86Loop df segs m).2, i.Clear fun r => carriesInto (left k) r uops) ∧
      ∀ k < (i.x86Loop df segs m).2, k + 1 < (i.count m.counters).toNat →
        i.breaks m (i.before df m.counters k).rsi (i.before df m.counters k).rdi =
          i.x86Breaks segs m (i.before df m.counters k) := by
  subst hdf
  obtain ⟨m', htrips, hcounters⟩ := trips_eq h hrep left m hfuel
  refine Iff.trans (b := i.loop dirflag (fun c => i.breaks m c.rsi c.rdi)
    (i.count m.counters).toNat (fun k r => carriesInto (left k) r uops) m.counters =
      i.x86Loop dirflag segs m) ?_ (loop_eq_iff (i.count m.counters).isLt)
  rw [Repeats, htrips]
  constructor
  · rintro ⟨m'', heq, hsame⟩
    obtain ⟨rfl, -, hnumber⟩ : m' = m'' ∧ i.rip = i.rip ∧ _ := by simpa using heq
    exact Prod.ext (hcounters.symm.trans hsame) hnumber
  · intro heq
    exact ⟨m', by rw [heq], by rw [hcounters, heq]⟩

theorem three_bytes_moved : (0x1003 : W64) ≠ 0x1000 := by decide

/-- `rep` with a string operation on bytes, in 64-bit mode. -/
def repByte (op : StringOp) (addrsizePrefix : Bool) : StringInsn :=
  { op := op, rep := .repz, bytewise := true, use64 := true, mode64 := false,
    opsizePrefix := false, addrsizePrefix := addrsizePrefix, ripstart := 0x1000, rip := 0x1003,
    moved := three_bytes_moved }

/-- Two bytes to go, from `0x2000` on as far as `edi` says. -/
def highRdi : Machine :=
  { regs := fun r => if r = .gpr .rcx then 2 else if r = .gpr .rdi then 0x100002000 else 0
    flags := fun _ => .clear
    memory := fun addr => if addr = 0x100002000 then 1 else 0 }

def nothingLeft : Nat → Nat → Leftover := fun _ _ => { carry := false, result := 0, flags := .clear }

theorem repeats_stosb : (repByte .stos true).Repeats false { src := 0, dst := 0 }
    ((repByte .stos true).chk :: (repByte .stos true).body false ++ (repByte .stos true).tail) 3
    nothingLeft highRdi := by
  refine (repeats_iff rfl rfl (by decide) _ nothingLeft highRdi (by decide)).mpr ⟨?_, fun _ _ _ => rfl⟩
  intro k _ r _
  cases r <;> rfl

/-- `repe scasb` compares the byte at `rdi` where that at `edi` is meant. -/
theorem scasb_stops_early : ¬ ∀ (i : StringInsn) df uops, i.uops df = some uops → i.rep ≠ .none →
    ∀ segs fuel left m, (i.count m.counters).toNat < fuel →
      i.Repeats df segs uops fuel left m := by
  intro h
  obtain ⟨m', htrips, -⟩ := h (repByte .scas true) false _ rfl (by decide) { src := 0, dst := 0 } 3
    nothingLeft highRdi (by decide)
  have hnumber : Option.map (fun r => r.2.2) ((repByte .scas true).trips
      ((repByte .scas true).chk :: (repByte .scas true).body false ++ (repByte .scas true).tail) 3
      nothingLeft highRdi) =
      some ((repByte .scas true).x86Loop false { src := 0, dst := 0 } highRdi).2 :=
    congrArg (Option.map fun r => r.2.2) htrips
  exact absurd hnumber (by decide)

end StringInsn
end FeS2.Decoder
