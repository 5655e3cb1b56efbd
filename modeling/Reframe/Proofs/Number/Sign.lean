import Mathlib
import Reframe.Number.Scalar

/-!
# Signs of machine numbers

A machine number is unpacked, an operation is done, and the result is packed again.
None of this turns a number that is not below zero into one that is, as long as the
operation itself does not.

* `Binary.NotNegative`: not below zero, `NaN` and both zeros included.
* `Binary.notNegative_unpack_pack`: packing keeps it.
* `Binary.not_lt_zero_mul`: products of such numbers are such numbers.
-/

namespace Reframe.Binary

open Float.Model (Format UnpackedFloat)
open Float.Model.UnpackedFloat

variable {f : Format} {x y : UnpackedFloat}

/-- The number is not below zero, if it is one. -/
def NotNegative : UnpackedFloat → Prop
  | .infinity .negative => False
  | .finite .negative _ _ _ => False
  | _ => True

theorem notNegative_iff_lt_zero {s : Sign} : NotNegative x ↔ ¬ x.lt (.zero s) := by
  cases x with
  | notANumber => simp [NotNegative, UnpackedFloat.lt, UnpackedFloat.compare]
  | zero t => simp [NotNegative, UnpackedFloat.lt, UnpackedFloat.compare]
  | infinity t => cases t <;> simp [NotNegative, UnpackedFloat.lt, UnpackedFloat.compare]
  | finite t m e hm => cases t <;> simp [NotNegative, UnpackedFloat.lt, UnpackedFloat.compare]

/-- What is at least a number that is not below zero is not below zero either. -/
theorem NotNegative.of_le (hx : NotNegative x) (h : x.le y) : NotNegative y := by
  rcases y with (_ | _) | _ | _ | ⟨_ | _, _, _, _⟩
  -- nothing that is not below zero is at most a number that is
  case infinity.negative =>
    rcases x with (_ | _) | _ | _ | ⟨_ | _, _, _, _⟩
    all_goals first | exact hx.elim | exact absurd h Bool.false_ne_true
  case finite.negative =>
    rcases x with (_ | _) | _ | _ | ⟨_ | _, _, _, _⟩
    all_goals first | exact hx.elim | exact absurd h Bool.false_ne_true
  all_goals trivial

/-- A pattern without sign is not below zero. -/
theorem notNegative_unpack_packComponents (e : BitVec f.exponentBits)
    (m : BitVec f.mantissaBitsWithoutImplicit) :
    NotNegative (unpack f (packComponents f .positive e m)) := by
  unfold unpack
  extract_lets _ _ _ signVec sign
  have hsign : sign = .positive := by
    have hvec : signVec = Sign.toBitVec .positive := unpackSign_packComponents _ _ _
    rw [show sign = Sign.ofBitVec signVec from rfl, hvec, Sign.ofBitVec_toBitVec]
  rw [hsign]
  split
  · split <;> trivial
  · split
    · split <;> trivial
    · trivial

/-- **Packing keeps numbers from falling below zero.** -/
theorem notNegative_unpack_pack (hx : NotNegative x) : NotNegative (unpack f (pack f x)) := by
  cases x with
  | notANumber => exact notNegative_unpack_packComponents _ _
  | zero s =>
    rw [pack, unpack_packedZero]
    trivial
  | infinity s =>
    cases s with
    | positive => exact notNegative_unpack_packComponents _ _
    | negative => exact hx.elim
  | finite s m e hm =>
    cases s with
    | negative => exact hx.elim
    | positive =>
      unfold pack
      extract_lets
      split
      · exact notNegative_unpack_packComponents _ _
      · split
        · exact notNegative_unpack_packComponents _ _
        · exact notNegative_unpack_packComponents _ _

theorem notNegative_roundWithAccuracy (m : Nat) (e : Int) (accuracy : Accuracy) :
    NotNegative (roundWithAccuracy f .positive m e accuracy) := by
  unfold roundWithAccuracy
  split
  extract_lets
  split
  extract_lets
  split <;> trivial

theorem notNegative_round (m : Nat) (e : Int) : NotNegative (round f .positive m e) :=
  notNegative_roundWithAccuracy _ _ _

theorem NotNegative.mul (hx : NotNegative x) (hy : NotNegative y) :
    NotNegative (mul f x y) := by
  cases x with
  | notANumber => trivial
  | zero s => cases y <;> trivial
  | infinity s =>
    cases s with
    | negative => exact hx.elim
    | positive => cases y with
      | notANumber => trivial
      | zero t => trivial
      | infinity t => cases t <;> trivial
      | finite t m e hm => cases t <;> trivial
  | finite s m e hm =>
    cases s with
    | negative => exact hx.elim
    | positive => cases y with
      | notANumber => trivial
      | zero t => trivial
      | infinity t => cases t <;> trivial
      | finite t m e hm =>
        cases t with
        | negative => exact hy.elim
        | positive => exact notNegative_roundWithAccuracy _ _ _

theorem notNegative_ofNat (n : Nat) : NotNegative (ofNat f n) := by
  rw [UnpackedFloat.ofNat, UnpackedFloat.ofInt, UnpackedFloat.normalize]
  split
  next h => exact absurd (Int.compare_eq_lt.1 h) (by omega)
  · trivial
  · exact notNegative_round _ _

theorem notNegative_ofScientific_zero (n : Nat) : NotNegative (ofScientific f n 0) := by
  have hpow : (0 : Int) ≤ 2 ^ f.exponentBits := Int.le_of_lt (Int.pow_pos (by decide))
  unfold UnpackedFloat.ofScientific
  split
  · trivial
  · rw [if_neg (by omega), if_neg (by omega), if_pos (Int.le_refl 0)]
    exact notNegative_roundWithAccuracy _ _ _

theorem NotNegative.convert (hx : NotNegative x) : NotNegative (convert f x) := by
  cases x with
  | notANumber => trivial
  | zero s => trivial
  | infinity s => exact hx
  | finite s m e hm =>
    cases s with
    | negative => exact hx.elim
    | positive =>
      rw [Binary.convert, ofParts, if_neg (Nat.ne_of_gt hm)]
      exact notNegative_round _ _

theorem lt_iff_unpack (a b : Float) : a < b ↔ a.toModel.unpack.lt b.toModel.unpack = true :=
  decide_eq_true_iff

theorem le_iff_unpack (a b : Float) : a ≤ b ↔ a.toModel.unpack.le b.toModel.unpack = true :=
  decide_eq_true_iff

theorem unpack_zero : (0.0 : Float).toModel.unpack = .zero .positive := rfl

theorem not_lt_zero_iff {a : Float} : ¬ a < 0.0 ↔ NotNegative a.toModel.unpack := by
  rw [lt_iff_unpack, unpack_zero, notNegative_iff_lt_zero]

theorem not_lt_zero_iff_single {a : Float32} : ¬ a < 0.0 ↔ NotNegative a.toModel.unpack := by
  have hzero : (0.0 : Float32).toModel.unpack = .zero .positive := rfl
  have hlt : a < 0.0 ↔ a.toModel.unpack.lt (.zero .positive) = true := by
    rw [← hzero]
    exact decide_eq_true_iff
  rw [hlt, notNegative_iff_lt_zero]

/-- **A product of numbers that are not below zero is not below zero.** -/
theorem not_lt_zero_mul {a b : Float} (ha : ¬ a < 0.0) (hb : ¬ b < 0.0) : ¬ a * b < 0.0 := by
  rw [not_lt_zero_iff] at ha hb ⊢
  exact notNegative_unpack_pack (ha.mul hb)

theorem not_lt_zero_ofNat (n : Nat) : ¬ Float.ofNat n < 0.0 := by
  change ¬ Float.ofScientific n false 0 < 0.0
  unfold Float.ofScientific
  split
  · -- the power of ten is 1
    have hone : ¬ Float.ofBits 0x3FF0000000000000 < 0.0 := by decide
    refine not_lt_zero_mul ?_ hone
    rw [not_lt_zero_iff]
    exact notNegative_unpack_pack (notNegative_ofNat _)
  · rw [not_lt_zero_iff]
    exact notNegative_unpack_pack (notNegative_ofScientific_zero n)

theorem not_lt_zero_ofInt {n : Int} (hn : 0 ≤ n) : ¬ (Scalar.ofInt n : Float) < 0.0 := by
  obtain ⟨k, rfl⟩ := Int.eq_ofNat_of_zero_le hn
  exact not_lt_zero_ofNat k

/-- A 32-bit number that is not below zero is not below zero in 64 bits. -/
theorem not_lt_zero_widen {a : Float32} (ha : ¬ a < 0.0) : ¬ widen a < 0.0 := by
  rw [not_lt_zero_iff_single] at ha
  rw [not_lt_zero_iff]
  exact notNegative_unpack_pack ha.convert

theorem not_lt_zero_of_le_single {a b : Float32} (ha : ¬ a < 0.0) (h : a ≤ b) : ¬ b < 0.0 := by
  have hle : a.toModel.unpack.le b.toModel.unpack = true := of_decide_eq_true h
  rw [not_lt_zero_iff_single] at ha ⊢
  exact ha.of_le hle

end Reframe.Binary
