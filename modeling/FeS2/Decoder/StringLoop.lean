import FeS2.Decoder.StringInsn

/-!
What x86 prescribes for a repeated string instruction: the counter and the addresses, one
iteration after another, until the counter is zero or a comparison breaks the condition. The
loop is that of addresses that may drift, by a carry that gets into their increments.
-/

namespace FeS2.Decoder

structure Counters where
  rcx : W64
  rsi : W64
  rdi : W64
  deriving DecidableEq

/-- The address in a register. -/
def Counters.addr (c : Counters) : Gpr → W64
  | .rsi => c.rsi
  | .rdi => c.rdi
  | _ => 0

namespace StringInsn
variable (i : StringInsn) (dirflag : Bool)

/-- The registers that hold the addresses of the instruction. -/
def uses : Gpr → Bool
  | .rsi => i.op = .movs || i.op = .cmps || i.op = .lods
  | .rdi => i.op = .movs || i.op = .cmps || i.op = .stos || i.op = .scas
  | _ => false

def count (c : Counters) : BitVec i.addrSize.bits := c.rcx.setWidth _

/-- An address behind its element. -/
def passed (carry : Bool) (r : W64) : W64 :=
  x86Merge i.addrSize r (r + i.increment dirflag + (BitVec.ofBool carry).setWidth 64)

/-- One iteration. -/
def step (carry : Gpr → Bool) (c : Counters) : Counters where
  rcx := x86Merge i.addrSize c.rcx (c.rcx - 1)
  rsi := if i.uses .rsi then i.passed dirflag (carry .rsi) c.rsi else c.rsi
  rdi := if i.uses .rdi then i.passed dirflag (carry .rdi) c.rdi else c.rdi

/-- The iterations while a counter lasts, and their number. -/
def loop (breaks : Counters → Bool) : Nat → (Nat → Gpr → Bool) → Counters → Counters × Nat
  | 0, _, c => (c, 0)
  | n + 1, carry, c =>
      let c' := i.step dirflag (carry 0) c
      if breaks c then (c', 1)
      else
        let rest := loop breaks n (fun k => carry (k + 1)) c'
        (rest.1, rest.2 + 1)

def noCarry : Nat → Gpr → Bool := fun _ _ => false

/-- The counters before an iteration. -/
def before (c : Counters) : Nat → Counters
  | 0 => c
  | k + 1 => before (i.step dirflag (noCarry 0) c) k

/-- No carry gets into an address. -/
def Clear (carry : Gpr → Bool) : Prop := ∀ r, i.uses r → carry r = false

variable (breaks : Counters → Bool) (n : Nat) (carry : Nat → Gpr → Bool) (c : Counters)

attribute [local simp] loop in
theorem loop_le : (i.loop dirflag breaks n carry c).2 ≤ n := by
  induction n generalizing carry c with
  | zero => exact Nat.le_refl 0
  | succ n ih =>
      rw [loop]
      dsimp only
      split
      · exact Nat.succ_le_succ (Nat.zero_le n)
      · exact Nat.succ_le_succ (ih _ _)

theorem loop_one : i.loop dirflag breaks 1 carry c = (i.step dirflag (carry 0) c, 1) := by
  rw [loop]
  dsimp only
  split <;> rfl

section
variable {breaks c}

theorem loop_break (h : breaks c = true) :
    i.loop dirflag breaks (n + 1) carry c = (i.step dirflag (carry 0) c, 1) := by
  rw [loop, h]
  rfl

theorem loop_next (h : breaks c = false) :
    i.loop dirflag breaks (n + 1) carry c =
      ((i.loop dirflag breaks n (fun k => carry (k + 1)) (i.step dirflag (carry 0) c)).1,
        (i.loop dirflag breaks n (fun k => carry (k + 1)) (i.step dirflag (carry 0) c)).2 + 1) := by
  rw [loop, h]
  rfl

end

theorem loop_pos : 0 < (i.loop dirflag breaks (n + 1) carry c).2 := by
  cases h : breaks c with
  | true => exact i.loop_break dirflag n carry h ▸ Nat.one_pos
  | false => exact i.loop_next dirflag n carry h ▸ Nat.succ_pos _

/-! Drift -/

theorem step_clear {carry : Gpr → Bool} (h : i.Clear carry) :
    i.step dirflag carry c = i.step dirflag (noCarry 0) c := by
  rw [step, step, Counters.mk.injEq]
  refine ⟨rfl, ?_, ?_⟩
  · split
    · rename_i huses
      rw [h .rsi huses]
      rfl
    · rfl
  · split
    · rename_i huses
      rw [h .rdi huses]
      rfl
    · rfl

variable {r : Gpr}

theorem step_addr (hr : i.uses r = true) (carry : Gpr → Bool) :
    ((i.step dirflag carry c).addr r).setWidth i.addrSize.bits =
      (c.addr r).setWidth i.addrSize.bits + (i.increment dirflag).setWidth i.addrSize.bits +
        BitVec.ofNat i.addrSize.bits (carry r).toNat := by
  have hpassed : ∀ x, (i.passed dirflag (carry r) x).setWidth i.addrSize.bits =
      x.setWidth i.addrSize.bits + (i.increment dirflag).setWidth i.addrSize.bits +
        BitVec.ofNat i.addrSize.bits (carry r).toNat := by
    intro x
    rw [passed, x86Merge_setWidth, Size.setWidth_add, Size.setWidth_add]
    congr 1
    cases carry r <;> cases i.addrSize <;> rfl
  cases r with
  | rsi =>
      rw [step, Counters.addr, Counters.addr, if_pos hr]
      exact hpassed c.rsi
  | rdi =>
      rw [step, Counters.addr, Counters.addr, if_pos hr]
      exact hpassed c.rdi
  | _ => cases hr

/-- An address is off by the number of carries it has met. -/
theorem loop_drift (hr : i.uses r = true) : ∃ d ≤ (i.loop dirflag breaks n carry c).2,
    (d = 0 ↔ ∀ k < (i.loop dirflag breaks n carry c).2, carry k r = false) ∧
    ((i.loop dirflag breaks n carry c).1.addr r).setWidth i.addrSize.bits =
      (c.addr r).setWidth i.addrSize.bits +
        BitVec.ofNat i.addrSize.bits (i.loop dirflag breaks n carry c).2 *
          (i.increment dirflag).setWidth i.addrSize.bits + BitVec.ofNat i.addrSize.bits d := by
  induction n generalizing carry c with
  | zero =>
      refine ⟨0, Nat.le_refl 0, ⟨fun _ k hk => absurd hk (Nat.not_lt_zero k), fun _ => rfl⟩, ?_⟩
      simp [loop]
  | succ n ih =>
      have hone := i.step_addr dirflag c hr (carry 0)
      cases h : breaks c with
      | true =>
          rw [i.loop_break dirflag n carry h]
          refine ⟨(carry 0 r).toNat, Bool.toNat_le _, ?_, ?_⟩
          · rw [Bool.toNat_eq_zero]
            exact ⟨fun h0 k hk => Nat.lt_one_iff.mp hk ▸ h0, fun hall => hall 0 Nat.one_pos⟩
          · dsimp only
            rw [hone, BitVec.one_mul]
      | false =>
          rw [i.loop_next dirflag n carry h]
          obtain ⟨d, hd, hiff, heq⟩ := ih (fun k => carry (k + 1)) (i.step dirflag (carry 0) c)
          refine ⟨(carry 0 r).toNat + d, ?_, ?_, ?_⟩
          · have := Bool.toNat_le (carry 0 r)
            dsimp only
            omega
          · rw [Nat.add_eq_zero_iff, Bool.toNat_eq_zero, hiff]
            constructor
            · rintro ⟨hfirst, hrest⟩ k hk
              cases k with
              | zero => exact hfirst
              | succ k => exact hrest k (Nat.lt_of_succ_lt_succ hk)
            · intro hall
              exact ⟨hall 0 (Nat.succ_pos _), fun k hk => hall (k + 1) (Nat.succ_lt_succ hk)⟩
          · dsimp only
            rw [heq, hone, BitVec.ofNat_add, BitVec.ofNat_add, BitVec.add_mul, BitVec.one_mul]
            ac_rfl

end StringInsn

/-! The loop against the prescribed one -/

namespace StringInsn
variable {i : StringInsn} {dirflag : Bool} {breaks breaks' : Counters → Bool} {n : Nat}
  {carry : Nat → Gpr → Bool} {c : Counters}

/-- Only without a carry do the addresses end where they should: there are too few iterations
for them to go around. -/
theorem clear_of_loop_eq (hn : n < 2 ^ i.addrSize.bits)
    (h : i.loop dirflag breaks n carry c = i.loop dirflag breaks' n noCarry c) :
    ∀ k < (i.loop dirflag breaks' n noCarry c).2, i.Clear (carry k) := by
  intro k hk r hr
  obtain ⟨d, hd, hiff, heq⟩ := i.loop_drift dirflag breaks n carry c hr
  obtain ⟨e, _, hiff', heq'⟩ := i.loop_drift dirflag breaks' n noCarry c hr
  rw [h] at hd hiff heq
  have he : e = 0 := hiff'.mpr fun _ _ => rfl
  have hle := i.loop_le dirflag breaks' n noCarry c
  have hoff : BitVec.ofNat i.addrSize.bits d = BitVec.ofNat i.addrSize.bits e :=
    (BitVec.add_right_inj _).mp (heq.symm.trans heq')
  have hnat := congrArg BitVec.toNat hoff
  rw [he, BitVec.toNat_ofNat, BitVec.toNat_ofNat, Nat.zero_mod,
    Nat.mod_eq_of_lt (by omega)] at hnat
  exact hiff.mp hnat k hk

theorem loop_eq_of_agree
    (hclear : ∀ k < (i.loop dirflag breaks' n noCarry c).2, i.Clear (carry k))
    (hagree : ∀ k < (i.loop dirflag breaks' n noCarry c).2, k + 1 < n →
      breaks (i.before dirflag c k) = breaks' (i.before dirflag c k)) :
    i.loop dirflag breaks n carry c = i.loop dirflag breaks' n noCarry c := by
  induction n generalizing carry c with
  | zero => rfl
  | succ n ih =>
      have hpos := i.loop_pos dirflag breaks' n noCarry c
      have hstep := i.step_clear dirflag c (hclear 0 hpos)
      cases n with
      | zero => rw [loop_one, loop_one, hstep]
      | succ n =>
          have hfirst : breaks c = breaks' c :=
            hagree 0 hpos (Nat.succ_lt_succ (Nat.succ_pos n))
          cases h : breaks' c with
          | true =>
              rw [i.loop_break dirflag _ carry (hfirst.trans h), i.loop_break dirflag _ noCarry h,
                hstep]
          | false =>
              rw [i.loop_next dirflag _ noCarry h] at hclear hagree
              have hrest := ih (fun k hk => hclear (k + 1) (Nat.succ_lt_succ hk))
                fun k hk hlast => hagree (k + 1) (Nat.succ_lt_succ hk) (Nat.succ_lt_succ hlast)
              rw [i.loop_next dirflag _ carry (hfirst.trans h), i.loop_next dirflag _ noCarry h,
                hstep, hrest]
              rfl

theorem agree_of_loop_eq
    (hclear : ∀ k < (i.loop dirflag breaks' n noCarry c).2, i.Clear (carry k))
    (h : (i.loop dirflag breaks n carry c).2 = (i.loop dirflag breaks' n noCarry c).2) :
    ∀ k < (i.loop dirflag breaks' n noCarry c).2, k + 1 < n →
      breaks (i.before dirflag c k) = breaks' (i.before dirflag c k) := by
  induction n generalizing carry c with
  | zero => exact fun k _ hlast => absurd hlast (Nat.not_lt_zero _)
  | succ n ih =>
      intro k hk hlast
      have hstep := i.step_clear dirflag c (hclear 0 (i.loop_pos dirflag breaks' n noCarry c))
      obtain ⟨n, rfl⟩ := Nat.exists_eq_succ_of_ne_zero (by omega : n ≠ 0)
      cases hb : breaks c with
      | true =>
          cases hb' : breaks' c with
          | true =>
              rw [i.loop_break dirflag _ noCarry hb'] at hk
              rw [Nat.lt_one_iff.mp hk]
              exact hb.trans hb'.symm
          | false =>
              have hmore := i.loop_pos dirflag breaks' n noCarry (i.step dirflag (noCarry 0) c)
              rw [i.loop_break dirflag _ carry hb, i.loop_next dirflag _ noCarry hb'] at h
              exact absurd (Nat.succ.inj h) (Nat.ne_of_lt hmore)
      | false =>
          cases hb' : breaks' c with
          | true =>
              have hmore := i.loop_pos dirflag breaks n (fun k => carry (k + 1))
                (i.step dirflag (carry 0) c)
              rw [i.loop_break dirflag _ noCarry hb', i.loop_next dirflag _ carry hb] at h
              exact absurd (Nat.succ.inj h).symm (Nat.ne_of_lt hmore)
          | false =>
              rw [i.loop_next dirflag _ noCarry hb'] at hclear hk h
              rw [i.loop_next dirflag _ carry hb, hstep] at h
              cases k with
              | zero => exact hb.trans hb'.symm
              | succ k =>
                  exact ih (fun k hk => hclear (k + 1) (Nat.succ_lt_succ hk)) (Nat.succ.inj h) k
                    (Nat.lt_of_succ_lt_succ hk) (Nat.lt_of_succ_lt_succ hlast)

/-- The loop is the prescribed one if and only if no carry gets in and the comparisons agree;
what the comparison at the last count says does not matter. -/
theorem loop_eq_iff (hn : n < 2 ^ i.addrSize.bits) :
    i.loop dirflag breaks n carry c = i.loop dirflag breaks' n noCarry c ↔
      (∀ k < (i.loop dirflag breaks' n noCarry c).2, i.Clear (carry k)) ∧
      ∀ k < (i.loop dirflag breaks' n noCarry c).2, k + 1 < n →
        breaks (i.before dirflag c k) = breaks' (i.before dirflag c k) := by
  constructor
  · intro h
    have hclear := clear_of_loop_eq hn h
    exact ⟨hclear, agree_of_loop_eq hclear (congrArg Prod.snd h)⟩
  · rintro ⟨hclear, hagree⟩
    exact loop_eq_of_agree hclear hagree

end StringInsn
end FeS2.Decoder
