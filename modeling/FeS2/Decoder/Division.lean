import Mathlib.Algebra.Group.Nat.Defs

/-!
The divide uops. Up to four bytes they divide on the host; eight bytes are divided bit by
bit, on pairs of words. Where the guard of a uop keeps it from dividing, its result is what
the variable for it happens to hold.
-/

namespace FeS2.Decoder

abbrev W64 := BitVec 64

inductive Size
  | w8
  | w16
  | w32
  | w64
  deriving DecidableEq

def Size.bits : Size → Nat
  | .w8 => 8
  | .w16 => 16
  | .w32 => 32
  | .w64 => 64

def bitmask (l : Nat) : W64 := if l = 64 then -1 else ((1 : W64) <<< l) - 1

def signext64 (x : W64) (i : Nat) : W64 := (x <<< (64 - i)).sshiftRight (64 - i)

/-- Of the bytes of `rd`, those of the size are replaced; four bytes clear the others. -/
def x86Merge (size : Size) (rd ra : W64) : W64 :=
  match size with
  | .w8 => rd.extractLsb' 8 56 ++ ra.setWidth 8
  | .w16 => rd.extractLsb' 16 48 ++ ra.setWidth 16
  | .w32 => (ra.setWidth 32).setWidth 64
  | .w64 => ra

/-! The bytes of a size -/

theorem Size.bits_le (size : Size) : size.bits ≤ 64 := by cases size <;> decide

theorem x86Merge_setWidth (size : Size) (rd x : W64) :
    (x86Merge size rd x).setWidth size.bits = x.setWidth size.bits := by
  cases size with
  | w8 => exact BitVec.setWidth_append_eq_right
  | w16 => exact BitVec.setWidth_append_eq_right
  | w32 => exact BitVec.setWidth_setWidth_of_le _ (by decide)
  | w64 => rfl

/-- Only the bytes of the size are taken. -/
theorem x86Merge_congr {size : Size} (rd : W64) {x y : W64}
    (h : x.setWidth size.bits = y.setWidth size.bits) :
    x86Merge size rd x = x86Merge size rd y := by
  cases size with
  | w8 => exact congrArg (rd.extractLsb' 8 56 ++ ·) h
  | w16 => exact congrArg (rd.extractLsb' 16 48 ++ ·) h
  | w32 => exact congrArg (BitVec.setWidth 64) h
  | w64 => exact (BitVec.setWidth_eq x).symm.trans (h.trans (BitVec.setWidth_eq y))

theorem Size.setWidth_add (size : Size) (x y : W64) :
    (x + y).setWidth size.bits = x.setWidth size.bits + y.setWidth size.bits :=
  BitVec.setWidth_add x y size.bits_le

theorem Size.setWidth_sub (size : Size) (x y : W64) :
    (x - y).setWidth size.bits = x.setWidth size.bits - y.setWidth size.bits := by
  have hsum : (x - y).setWidth size.bits + y.setWidth size.bits = x.setWidth size.bits := by
    rw [← size.setWidth_add, BitVec.sub_add_cancel]
  exact (BitVec.eq_sub_iff_add_eq ).mpr hsum

/-! The host's divisions, which trap -/

def hostDiv (a b : W64) : Option (W64 × W64) := if b = 0 then none else some (a / b, a % b)

def hostIdiv (a b : W64) : Option (W64 × W64) :=
  if b = 0 ∨ a = BitVec.intMin 64 ∧ b = -1 then none else some (a.sdiv b, a.srem b)

/-! Up to four bytes -/

section
variable {n : Nat}

/-- The dividend is in `rc` and `ra`, but for single bytes in `ra` alone. -/
def dividendU (ra rc : BitVec n) : W64 :=
  if n = 8 then ra.setWidth 64 else (rc.setWidth 64 <<< n) + ra.setWidth 64

def dividendS (ra rc : BitVec n) : W64 :=
  if n = 8 then signext64 (ra.setWidth 64) 8
  else (signext64 (rc.setWidth 64) n <<< n) + ra.setWidth 64

/-- `make_x86_divop_u`; `result` takes the quotient and the remainder. -/
def divopU (result : BitVec n → BitVec n → BitVec n) (rd ra rb rc : BitVec n) : Option (BitVec n) :=
  let dividend := dividendU ra rc
  let divisor : W64 := rb.setWidth 64
  if divisor ≠ 0 then
    (hostDiv dividend divisor).map fun (q, r) => result (q.setWidth n) (r.setWidth n)
  else some rd

/-- `make_x86_divop_s`. -/
def divopS (result : BitVec n → BitVec n → BitVec n) (rd ra rb rc : BitVec n) : Option (BitVec n) :=
  let dividend := dividendS ra rc
  let divisor : W64 := signext64 (rb.setWidth 64) n
  if divisor ≠ 0 ∧
      ¬ (dividend = signext64 ((1 : W64) <<< (n * 2 - 1)) (n * 2) ∧ divisor = bitmask n) then
    (hostIdiv dividend divisor).map fun (q, r) => result (q.setWidth n) (r.setWidth n)
  else some rd

end

/-! Eight bytes -/

structure W128 where
  lo : W64
  hi : W64
  deriving DecidableEq

def longNeg (n : W128) : W128 :=
  let hi := if n.lo < n.lo - 1 then n.hi - 1 else n.hi
  { lo := -n.lo, hi := ~~~hi }

def longShl (a : W128) : W128 :=
  { lo := a.lo <<< 1, hi := (a.hi <<< 1) ||| (a.lo >>> 63) }

def longShr (a : W128) : W128 :=
  { lo := (a.lo >>> 1) ||| (a.hi <<< 63), hi := a.hi >>> 1 }

/-- The difference, and whether it was seen to borrow. -/
def longSub (a b : W128) : W128 × Bool :=
  let lo := a.lo - b.lo
  let c : W64 := if a.lo < lo then 1 else 0
  let hi := a.hi - (b.hi + c)
  ({ lo := lo, hi := hi }, a.hi < hi)

def longLe (a b : W128) : Bool := if a.hi = b.hi then a.lo ≤ b.lo else a.hi ≤ b.hi

/-- The first loop of `long_div`, with the turns it has left and those it has taken. -/
def longAlign (acc : W128) : Nat → W128 → Nat → W128 × Nat
  | 0, d, n => (d, n)
  | left + 1, d, n => if longLe d acc then longAlign acc left (longShl d) (n + 1) else (d, n)

/-- The second loop of `long_div`: the quotient and what is left of the dividend. -/
def longSteps : Nat → W128 → W128 → W128 → W128 × W128
  | 0, _, acc, q => (q, acc)
  | n + 1, d, acc, q =>
      let d := longShr d
      let q := longShl q
      let (difference, c) := longSub acc d
      if c then longSteps n d acc q else longSteps n d difference { q with lo := q.lo + 1 }

def longDiv (dividend : W128) (divisor : W64) : W128 × W64 :=
  let (d, n) := longAlign dividend 128 { lo := divisor, hi := 0 } 0
  let (q, acc) := longSteps n d dividend { lo := 0, hi := 0 }
  (q, acc.lo)

def longIdiv (dividend : W128) (divisor : W64) : W128 × W64 :=
  let dividendWasNegative := dividend.hi.slt 0
  let divisorWasNegative := divisor.slt 0
  let temp := if dividendWasNegative then longNeg dividend else dividend
  let (quotient, remainder) := longDiv temp (if divisorWasNegative then -divisor else divisor)
  (if dividendWasNegative ^^ divisorWasNegative then longNeg quotient else quotient,
    if dividendWasNegative then -remainder else remainder)

def divopU64 (result : W64 → W64 → W64) (rd ra rb rc : W64) : W64 :=
  if rb ≠ 0 then
    let (quotient, remainder) := longDiv { lo := ra, hi := rc } rb
    result quotient.lo remainder
  else rd

def divopS64 (result : W64 → W64 → W64) (rd ra rb rc : W64) : W64 :=
  if rb ≠ 0 ∧ ¬ (rb = -1 ∧ rc = 0x8000000000000000 ∧ ra = 0) then
    let (quotient, remainder) := longIdiv { lo := ra, hi := rc } rb
    result quotient.lo remainder
  else rd

/-! The uops -/

inductive DivOp
  | divr
  | divq
  | divru
  | divqu
  deriving DecidableEq

namespace DivOp

def signed : DivOp → Bool
  | .divr | .divq => true
  | .divru | .divqu => false

def result {n : Nat} : DivOp → BitVec n → BitVec n → BitVec n
  | .divr | .divru => fun _ rdx => rdx
  | .divq | .divqu => fun rax _ => rax

/-- The uop on its operands; `rd` is what its result variable holds before. A trap of the
host has no result. -/
def eval (op : DivOp) (size : Size) (rd ra rb rc : W64) : Option W64 :=
  match size with
  | .w64 =>
      some (if op.signed then divopS64 op.result rd ra rb rc else divopU64 op.result rd ra rb rc)
  | s =>
      let narrow (x : W64) : BitVec s.bits := x.setWidth s.bits
      let rt := if op.signed then divopS op.result (narrow rd) (narrow ra) (narrow rb) (narrow rc)
        else divopU op.result (narrow rd) (narrow ra) (narrow rb) (narrow rc)
      rt.map fun rt => x86Merge s ra (rt.setWidth 64)

end DivOp
end FeS2.Decoder
