import Mathlib.Algebra.Group.Nat.Defs
import Mathlib.Data.Nat.Log

/-!
Physical addresses and the bits cut out of them. An assertion that fails ends the simulation:
`none`.
-/

namespace FeS2.Common

structure Address where
  m_address : BitVec 64
  deriving DecidableEq, Repr

namespace Address

/-- `ADDRESS_WIDTH`. -/
def width : Int := 64

/-- The constant `DATA_BLOCK_BITS` of the header, which is not the parameter of that name. -/
def dataBlockBits : Nat := 6

/-- Bits `small` to `big`, both included. -/
def bitSelect (a : Address) (small big : Int) : Option (BitVec 64) :=
  if big + 1 ≥ small then
    if big ≥ width - 1 then some (a.m_address >>> small.toNat)
    else
      let mask := ~~~(BitVec.allOnes 64 <<< (big + 1).toNat)
      some ((a.m_address &&& mask) >>> small.toNat)
  else none

def maskLowOrderBits (a : Address) (number : Nat) : BitVec 64 :=
  if (number : Int) ≥ width - 1 then a.m_address &&& BitVec.allOnes 64
  else a.m_address &&& (BitVec.allOnes 64 <<< number)

def makeLineAddress (a : Address) : Address where
  m_address := a.maskLowOrderBits dataBlockBits

/-- `address == line_address(address)`, what every entry point asserts. -/
def IsLine (a : Address) : Prop := a = a.makeLineAddress

instance (a : Address) : Decidable a.IsLine := inferInstanceAs (Decidable (a = _))

theorem makeLineAddress_isLine (a : Address) : a.makeLineAddress.IsLine := by
  unfold IsLine makeLineAddress maskLowOrderBits
  rw [if_neg (by decide), if_neg (by decide), BitVec.and_assoc, BitVec.and_self]

theorem ext_toNat {a b : Address} (h : a.m_address.toNat = b.m_address.toNat) : a = b := by
  cases a
  cases b
  exact congrArg _ (BitVec.eq_of_toNat_eq h)

/-- Both branches of the code cut the same bits. -/
theorem bitSelect_toNat (a : Address) {small count : Nat} {x : BitVec 64}
    (h : a.bitSelect small (small + count - 1) = some x) :
    x.toNat = a.m_address.toNat / 2 ^ small % 2 ^ count := by
  unfold bitSelect at h
  rw [if_pos (by omega)] at h
  split at h
  · rename_i hbig
    have hx : a.m_address >>> small = x := by simpa using h
    have hlt : a.m_address.toNat / 2 ^ small < 2 ^ count := by
      apply Nat.div_lt_of_lt_mul
      rw [← Nat.pow_add]
      exact a.m_address.isLt.trans_le
        (Nat.pow_le_pow_right (by decide) (by unfold width at hbig; omega))
    rw [← hx, BitVec.toNat_ushiftRight, Nat.shiftRight_eq_div_pow, Nat.mod_eq_of_lt hlt]
  · rename_i hbig
    have hx : (a.m_address &&& ~~~(BitVec.allOnes 64 <<< (small + count))) >>> small = x := by
      have hn : ((small : Int) + count - 1 + 1).toNat = small + count := by omega
      rw [hn] at h
      exact Option.some.inj h
    rw [← hx]
    apply Nat.eq_of_testBit_eq
    intro i
    rw [BitVec.testBit_toNat, BitVec.getLsbD_ushiftRight, BitVec.getLsbD_and,
      BitVec.getLsbD_not, BitVec.getLsbD_shiftLeft, BitVec.getLsbD_allOnes,
      Nat.testBit_mod_two_pow, Nat.testBit_div_two_pow, BitVec.testBit_toNat]
    unfold width at hbig
    by_cases hi : i < count
    · have h1 : small + i < 64 := by omega
      have h2 : small + i < small + count := by omega
      simp [hi, h1, h2, Nat.add_comm i small]
    · have h2 : ¬ small + i < small + count := by omega
      by_cases h1 : small + i < 64
      · have h3 : small + i - (small + count) < 64 := by omega
        simp [hi, h1, h2, h3]
      · simp [hi, h1]

theorem bitSelect_isSome (a : Address) (small count : Nat) :
    ∃ x, a.bitSelect small (small + count - 1) = some x := by
  unfold bitSelect
  rw [if_pos (by omega)]
  split
  · exact ⟨_, rfl⟩
  · exact ⟨_, rfl⟩

/-- All the bits from `small` on. -/
theorem bitSelect_width (a : Address) {small : Nat} (h : small ≤ 65) :
    a.bitSelect small width = some (a.m_address >>> small) := by
  unfold bitSelect width
  rw [if_pos (by omega), if_pos (by decide)]
  rfl

end Address
end FeS2.Common
