import Mathlib.Data.Nat.Bitwise

/-! Integer arithmetic of C on a machine with 32-bit `int` and 64-bit `unsigned
long`, as its usual compilers define it: signed right shifts copy the sign bit and
signed left shifts drop what leaves the type. A shift by the width of its operand or
more is undefined. -/
namespace C

structure IntType where
  width : Nat
  signed : Bool
  deriving DecidableEq, Repr

abbrev int : IntType := ⟨32, true⟩

abbrev uint32 : IntType := ⟨32, false⟩

abbrev uint64 : IntType := ⟨64, false⟩

/-- A value together with its type. -/
structure Value where
  type : IntType
  bits : BitVec type.width
  deriving DecidableEq, Repr

namespace Value

/-- Bit `i` of a value, in two's complement without a last bit. -/
def bit (v : Value) (i : Nat) : Bool :=
  if i < v.type.width then v.bits.getLsbD i else v.type.signed && v.bits.msb

/-- The bits of a value after its conversion to a type. -/
def bitsAs (t : IntType) (v : Value) : BitVec t.width :=
  if v.type.signed then v.bits.signExtend t.width else v.bits.setWidth t.width

def convert (t : IntType) (v : Value) : Value := ⟨t, v.bitsAs t⟩

/-- Integer promotion: types below `int` become `int`. -/
def promote (v : Value) : Value := if v.type.width < 32 then v.convert int else v

/-- The type in which two promoted operands are combined. -/
def commonType (a b : IntType) : IntType :=
  if a.width < b.width then b
  else if b.width < a.width then a
  else ⟨a.width, a.signed && b.signed⟩

def shl (v : Value) (k : Nat) : Option Value :=
  if k < v.promote.type.width then some ⟨v.promote.type, v.promote.bits <<< k⟩ else none

def shr (v : Value) (k : Nat) : Option Value :=
  if k < v.promote.type.width then
    some ⟨v.promote.type,
      if v.promote.type.signed then v.promote.bits.sshiftRight k else v.promote.bits >>> k⟩
  else none

/-- Combine two operands bit by bit in their common type. -/
def bitwise (op : {w : Nat} → BitVec w → BitVec w → BitVec w) (a b : Value) : Value :=
  let t := commonType a.promote.type b.promote.type
  ⟨t, op (a.promote.bitsAs t) (b.promote.bitsAs t)⟩

def or (a b : Value) : Value := bitwise (· ||| ·) a b

def and (a b : Value) : Value := bitwise (· &&& ·) a b

variable {v : Value} {i : Nat}

theorem bit_of_lt (hi : i < v.type.width) : v.bit i = v.bits.getLsbD i := by
  simp [bit, hi]

theorem bit_of_le (hi : v.type.width ≤ i) :
    v.bit i = (v.type.signed && v.bits.msb) := by
  simp [bit, Nat.not_lt.mpr hi]

theorem getLsbD_bitsAs {t : IntType} (hi : i < t.width) :
    (v.bitsAs t).getLsbD i = v.bit i := by
  unfold bitsAs bit
  cases v.type.signed with
  | false =>
    by_cases hv : i < v.type.width
    · simp [hi, hv]
    · simp [hv, BitVec.getLsbD_of_ge _ _ (Nat.not_lt.mp hv)]
  | true => simp only [if_true, BitVec.getLsbD_signExtend, hi, decide_true, Bool.true_and]

theorem bit_convert {t : IntType} (hi : i < t.width) :
    (v.convert t).bit i = v.bit i :=
  (bit_of_lt (v := v.convert t) hi).trans (getLsbD_bitsAs hi)

theorem le_promote_width (v : Value) : 32 ≤ v.promote.type.width := by
  unfold promote
  split
  · exact Nat.le_refl 32
  · omega

theorem bit_promote (v : Value) (i : Nat) : v.promote.bit i = v.bit i := by
  unfold promote
  split
  case isFalse => rfl
  case isTrue hNarrow =>
      rcases Nat.lt_or_ge i 32 with hi | hi
      · exact bit_convert hi
      · -- above the new type only its sign counts, which is the old sign
        have hTop := bit_convert (t := int) (v := v) (i := 31) (by decide)
        rw [bit_of_le (v := v.convert int) hi, bit_of_le (v := v) (by omega)]
        rw [bit_of_lt (v := v.convert int) (show 31 < 32 by decide),
          bit_of_le (v := v) (by omega)] at hTop
        rw [← hTop, BitVec.msb_eq_getLsbD_last]
        rfl

theorem promote_of_le (h : 32 ≤ v.type.width) : v.promote = v :=
  if_neg (Nat.not_lt.mpr h)

theorem width_le_promote (v : Value) : v.type.width ≤ v.promote.type.width := by
  unfold promote
  split
  case isTrue hNarrow => exact hNarrow.le
  case isFalse => exact Nat.le_refl _

variable {k : Nat}

theorem shl_type {v w : Value} (h : v.shl k = some w) : w.type = v.promote.type := by
  unfold shl at h
  split at h <;> cases h
  rfl

theorem shr_type {v w : Value} (h : v.shr k = some w) : w.type = v.promote.type := by
  unfold shr at h
  split at h <;> cases h
  rfl

theorem bit_shl {v w : Value} {i : Nat} (h : v.shl k = some w) (hi : i < w.type.width) :
    w.bit i = (decide (k ≤ i) && v.bit (i - k)) := by
  unfold shl at h
  split at h
  case isFalse => cases h
  case isTrue hk =>
      cases h
      have hi' : i < v.promote.type.width := hi
      rw [bit_of_lt hi, ← bit_promote v, bit_of_lt (v := v.promote) (by omega)]
      simp only [BitVec.getLsbD_shiftLeft]
      by_cases hki : k ≤ i
      · simp [hki, hi']
      · simp [hki, show i < k by omega]

theorem bit_shr {v w : Value} (h : v.shr k = some w) (i : Nat) : w.bit i = v.bit (k + i) := by
  unfold shr at h
  split at h
  case isFalse => cases h
  case isTrue hk =>
      cases h
      rw [← bit_promote v]
      unfold bit
      cases hSigned : v.promote.type.signed with
      | false =>
        by_cases hi : k + i < v.promote.type.width
        · simp [hi, show i < v.promote.type.width by omega]
        · simp [hi, BitVec.getLsbD_of_ge _ _ (Nat.not_lt.mp hi)]
      | true =>
        by_cases hi : i < v.promote.type.width
        · simp only [hi, if_true, BitVec.getLsbD_sshiftRight, show ¬ v.promote.type.width ≤ i by omega,
            decide_false, Bool.not_false, Bool.true_and]
        · simp [hi, show ¬ k + i < v.promote.type.width by omega]

theorem commonType_width (a b : IntType) : (commonType a b).width = max a.width b.width := by
  unfold commonType
  split
  · omega
  · split
    · omega
    · show a.width = _
      omega

theorem or_width (a b : Value) :
    (or a b).type.width = max a.promote.type.width b.promote.type.width := commonType_width _ _

theorem and_width (a b : Value) :
    (and a b).type.width = max a.promote.type.width b.promote.type.width := commonType_width _ _

theorem getLsbD_bitsAs_promote {t : IntType} (hi : i < t.width) :
    (v.promote.bitsAs t).getLsbD i = v.bit i := by
  rw [getLsbD_bitsAs hi, bit_promote]

theorem bit_or {a b : Value} (hi : i < (or a b).type.width) :
    (or a b).bit i = (a.bit i || b.bit i) := by
  rw [bit_of_lt hi, ← getLsbD_bitsAs_promote (v := a) hi, ← getLsbD_bitsAs_promote (v := b) hi]
  exact BitVec.getLsbD_or

theorem bit_and {a b : Value} (hi : i < (and a b).type.width) :
    (and a b).bit i = (a.bit i && b.bit i) := by
  rw [bit_of_lt hi, ← getLsbD_bitsAs_promote (v := a) hi, ← getLsbD_bitsAs_promote (v := b) hi]
  exact BitVec.getLsbD_and

theorem exists_shl (hk : k < v.promote.type.width) : ∃ w, v.shl k = some w := ⟨_, if_pos hk⟩

theorem exists_shr (hk : k < v.promote.type.width) : ∃ w, v.shr k = some w := ⟨_, if_pos hk⟩

/-- The argument of a function that takes an `unsigned int`. -/
def toWord (v : Value) : BitVec 32 := v.bitsAs uint32

theorem getLsbD_toWord (hi : i < 32) : v.toWord.getLsbD i = v.bit i :=
  getLsbD_bitsAs hi

def ofWord (w : BitVec 32) : Value := ⟨uint32, w⟩

theorem bit_ofWord (w : BitVec 32) (i : Nat) : (ofWord w).bit i = w.getLsbD i := by
  unfold bit ofWord
  split
  · rfl
  · next hi => simp [BitVec.getLsbD_of_ge _ _ (Nat.not_lt.mp hi)]

end Value

end C
