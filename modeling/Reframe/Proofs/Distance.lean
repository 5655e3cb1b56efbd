import Reframe.Proofs.Number.Nearest
import Reframe.Proofs.Number.Root
import Reframe.Proofs.Mean

/-!
# Distances of points

The distance of two points does not depend on their order, is never below zero, and is zero
only where the coordinates do not differ enough. On one axis it is a rounded difference and on
two a root of exact squares, and neither makes zero of numbers that differ at all. On three axes
or more the squares are rounded one by one, and the square of a difference up to `Binary.slack`
is rounded to zero.

* `Binary.signals_apart`, `Binary.signals_square`: what differences and their squares tell.
* `Point.signals_distance`: what a distance tells.
* `Point.dist_definite`: **when a distance is zero**.
-/

namespace Reframe

namespace Binary

open Float.Model (Format UnpackedFloat)
open Float.Model.UnpackedFloat

variable {a b : Float} {x y : ℚ}

/-- Finite numbers are multiples of the least one. -/
theorem Denotes.exists_multiple (h : Denotes a x) : ∃ k : Int, x = k * least := by
  rcases rational?_cases h with ⟨s, -, rfl⟩ | ⟨s, m, e, hm, hu, rfl⟩
  · exact ⟨0, by rw [Int.cast_zero, zero_mul]⟩
  · have hfits := canonical a
    rw [hu] at hfits
    have hmin : (-1074 : Int) ≤ e := hfits.le
    rw [← magnitude_lower m hmin]
    cases s with
    | positive => exact ⟨(m * 2 ^ (e - -1074).toNat : Nat), by rw [Int.cast_natCast]; rfl⟩
    | negative =>
      refine ⟨-(m * 2 ^ (e - -1074).toNat : Nat), ?_⟩
      rw [Int.cast_neg, Int.cast_natCast, neg_mul]
      rfl

/-- **A difference tells whether two numbers differ.** -/
theorem signals_apart (ha : Denotes a x) (hb : Denotes b y) : Signals (apart a b) (x ≠ y) := by
  obtain ⟨u, hround, hunpack⟩ := exists_apart ha hb
  refine (hround.signals.of_unpack_eq hunpack).congr ⟨?_, fun hne => ?_⟩
  · rintro hlt rfl
    rw [sub_self, abs_zero] at hlt
    exact absurd hlt (not_lt.2 (half_pos least_pos).le)
  · obtain ⟨k, rfl⟩ := ha.exists_multiple
    obtain ⟨l, rfl⟩ := hb.exists_multiple
    have hkl : 1 ≤ |k - l| := Int.one_le_abs (sub_ne_zero.2 fun h => hne (by rw [h]))
    have hone : (1 : ℚ) ≤ |((k - l : Int) : ℚ)| := by exact_mod_cast hkl
    calc least / 2 < least := half_lt_self least_pos
      _ ≤ |((k - l : Int) : ℚ)| * least := le_mul_of_one_le_left least_pos.le hone
      _ = |(k * least - l * least : ℚ)| := by
        rw [← sub_mul, abs_mul, abs_of_pos least_pos, Int.cast_sub]

/-- The largest difference whose square is rounded to zero: the difference is rounded down to
`6369051672525772 * 2 ^ (-590)`, which is just below the root of half of the least number. -/
def slack : ℚ :=
  (6369051672525772 + 1 / 2) * 2 ^ (-590 : Int)

theorem fits_slack : Fits .binary64 6369051672525772 (-590) :=
  ⟨by decide, by decide, .inl (by decide)⟩

theorem magnitude_square_le (k : Nat) :
    magnitude k (-590) * magnitude k (-590) ≤ least / 2 ↔ k * k ≤ 2 ^ 105 := by
  have hpow : (0 : ℚ) < 2 ^ (-1180 : Int) := by positivity
  have hsquare : magnitude k (-590) * magnitude k (-590) = (k * k : Nat) * 2 ^ (-1180 : Int) := by
    have hsum : (-1180 : Int) = -590 + -590 := by norm_num
    rw [magnitude, hsum, zpow_add₀ two_ne_zero]
    generalize (2 : ℚ) ^ (-590 : Int) = c
    push_cast
    ring
  have hhalf : least / 2 = ((2 ^ 105 : Nat) : ℚ) * 2 ^ (-1180 : Int) := by
    have hsum : (-1074 : Int) = 106 + -1180 := by norm_num
    rw [least, hsum, zpow_add₀ two_ne_zero]
    generalize (2 : ℚ) ^ (-1180 : Int) = c
    push_cast
    ring
  rw [hsquare, hhalf, mul_le_mul_iff_left₀ hpow, Nat.cast_le]

/-- **A square tells whether two numbers differ by more than the slack.** -/
theorem signals_square (ha : Denotes a x) (hb : Denotes b y) :
    Signals (apart a b * apart a b) (slack < |x - y|) := by
  obtain ⟨u, hround, hunpack⟩ := exists_apart ha hb
  obtain ⟨m, e, hstores, hfits⟩ := hround.exists_stores
  have hslack : magnitude m e ≤ magnitude 6369051672525772 (-590) ↔ |x - y| ≤ slack :=
    hround.le_iff_of_even hstores fits_slack (by decide)
  have hmul : apart a b * apart a b = double (UnpackedFloat.mul .binary64
      (apart a b).toModel.unpack (apart a b).toModel.unpack) := rfl
  by_cases he : e ≤ 971
  · have hdenotes : Denotes (apart a b) (magnitude m e) := by
      rw [Denotes, hunpack]
      exact (hstores.amount hfits he).denotes
    have hnonneg := magnitude_nonneg m e
    have hproduct := roundsEven_mul (canonical (apart a b)) (canonical (apart a b)) hdenotes
      hdenotes hnonneg hnonneg
    refine hproduct.signals.congr ?_
    rw [← not_le, ← not_le, not_iff_not, ← hslack]
    refine ⟨fun hle => ?_, fun hle => ?_⟩
    · -- the next number up has a square that is not rounded to zero
      by_contra hlarge
      have hnext := fits_slack.succ_le hfits (not_le.1 hlarge)
      have hsquare := (mul_le_mul hnext hnext (magnitude_nonneg _ _) hnonneg).trans hle
      rw [magnitude_square_le] at hsquare
      exact absurd hsquare (by decide)
    · refine (mul_le_mul hle hle hnonneg (magnitude_nonneg _ _)).trans ?_
      rw [magnitude_square_le]
      decide
  · have hinfinity : (apart a b).toModel.unpack = .infinity .positive := by
      rw [hunpack, hstores.overflow hfits (by omega)]
    refine Signals.of_infinity ?_ ?_
    · rw [hmul, hinfinity]
      exact unpack_double_infinity .positive
    · rw [← not_le, ← hslack, not_le, magnitude_lt_iff fits_slack hfits]
      exact .inl (by omega)

theorem exists_denotes (h : Scalar.isFinite a) : ∃ x, Denotes a x :=
  exists_rational? h

theorem apart_comm_of_isFinite (ha : Scalar.isFinite a) (hb : Scalar.isFinite b) :
    apart a b = apart b a := by
  obtain ⟨x, hx⟩ := exists_denotes ha
  obtain ⟨y, hy⟩ := exists_denotes hb
  exact apart_comm hx hy

theorem le_and_le_iff_value (ha : Scalar.isFinite a) (hb : Scalar.isFinite b) :
    a ≤ b ∧ b ≤ a ↔ value a = value b := by
  obtain ⟨x, hx⟩ := exists_denotes ha
  obtain ⟨y, hy⟩ := exists_denotes hb
  rw [hx.le_and_le_iff hy, hx.value_eq, hy.value_eq, Rat.cast_inj]

end Binary

namespace Point

open Binary

variable {p q : Point Float} {xs ys : List Float} {dimension : Nat}

/-- The distance of points of a dimension notices that two coordinates differ. -/
def Notices (dimension : Nat) (x : Float × Float) : Prop :=
  if dimension ≤ 2 then value x.1 ≠ value x.2 else slack < |value x.1 - value x.2|

theorem signals_apart_value {a b : Float} (ha : Scalar.isFinite a) (hb : Scalar.isFinite b)
    (hdimension : dimension ≤ 2) : Signals (apart a b) (Notices dimension (a, b)) := by
  obtain ⟨x, hx⟩ := exists_denotes ha
  obtain ⟨y, hy⟩ := exists_denotes hb
  refine (signals_apart hx hy).congr ?_
  rw [Notices, if_pos hdimension, hx.value_eq, hy.value_eq, Ne, Ne, Rat.cast_inj]

theorem signals_square_value {a b : Float} (ha : Scalar.isFinite a) (hb : Scalar.isFinite b)
    (hdimension : ¬ dimension ≤ 2) :
    Signals (apart a b * apart a b) (Notices dimension (a, b)) := by
  obtain ⟨x, hx⟩ := exists_denotes ha
  obtain ⟨y, hy⟩ := exists_denotes hb
  refine (signals_square hx hy).congr ?_
  rw [Notices, if_neg hdimension, hx.value_eq, hy.value_eq]
  exact_mod_cast Iff.rfl

/-- **What a distance tells**: whether a difference is noticed on one of the axes. -/
theorem signals_distance (hlength : xs.length = ys.length) (hxs : ∀ x ∈ xs, Scalar.isFinite x)
    (hys : ∀ y ∈ ys, Scalar.isFinite y) :
    Signals (distance xs ys) (∃ x ∈ xs.zip ys, Notices xs.length x) := by
  match xs, ys with
  | [], [] => exact ⟨fun ⟨_, hx, _⟩ => absurd hx List.not_mem_nil, fun _ => rfl⟩
  | [x], [y] =>
    have hx := signals_apart_value (hxs x (by simp)) (hys y (by simp)) one_le_two
    exact hx.congr (by simp)
  | [x, x'], [y, y'] =>
    have hx := signals_apart_value (hxs x (by simp)) (hys y (by simp)) (le_refl 2)
    have hx' := signals_apart_value (hxs x' (by simp)) (hys y' (by simp)) (le_refl 2)
    exact (hx.hypot hx').congr (by simp)
  | x :: x' :: x'' :: xs, y :: y' :: y'' :: ys =>
    have hmany : ¬ (x :: x' :: x'' :: xs).length ≤ 2 := by simp
    have hdistance : distance (x :: x' :: x'' :: xs) (y :: y' :: y'' :: ys) =
        Scalar.sqrt (Scalar.sum (List.zipWith (fun x y => apart x y * apart x y)
          (x :: x' :: x'' :: xs) (y :: y' :: y'' :: ys))) := rfl
    rw [hdistance, ← List.map_uncurry_zip_eq_zipWith]
    refine (Signals.sum _ fun i hi => ?_).sqrt
    obtain ⟨hi, hi'⟩ := List.of_mem_zip hi
    exact signals_square_value (hxs i.1 hi) (hys i.2 hi') hmany

theorem zipWith_apart_comm (hlength : xs.length = ys.length) (hxs : ∀ x ∈ xs, Scalar.isFinite x)
    (hys : ∀ y ∈ ys, Scalar.isFinite y) :
    List.zipWith (fun x y => apart x y * apart x y) xs ys =
      List.zipWith (fun x y => apart x y * apart x y) ys xs := by
  induction xs generalizing ys with
  | nil => rw [List.length_eq_zero_iff.1 hlength.symm]
  | cons x xs ih =>
    cases ys with
    | nil => cases hlength
    | cons y ys =>
      obtain ⟨hx, hxs⟩ := List.forall_mem_cons.1 hxs
      obtain ⟨hy, hys⟩ := List.forall_mem_cons.1 hys
      rw [List.zipWith_cons_cons, List.zipWith_cons_cons, ih (Nat.succ.inj hlength) hxs hys,
        apart_comm_of_isFinite hx hy]

/-- **Distances do not depend on the order.** -/
theorem distance_comm (hlength : xs.length = ys.length) (hxs : ∀ x ∈ xs, Scalar.isFinite x)
    (hys : ∀ y ∈ ys, Scalar.isFinite y) : distance xs ys = distance ys xs := by
  match xs, ys with
  | [], [] => rfl
  | [x], [y] => exact apart_comm_of_isFinite (hxs x (by simp)) (hys y (by simp))
  | [x, x'], [y, y'] =>
    have hx := apart_comm_of_isFinite (hxs x (by simp)) (hys y (by simp))
    have hx' := apart_comm_of_isFinite (hxs x' (by simp)) (hys y' (by simp))
    exact congrArg₂ Scalar.hypot hx hx'
  | x :: x' :: x'' :: xs, y :: y' :: y'' :: ys =>
    exact congrArg (fun squares => Scalar.sqrt (Scalar.sum squares))
      (zipWith_apart_comm hlength hxs hys)

/-- **When a distance is zero**: for finite points of one dimension there is a distance, the
same both ways and not below zero. On up to two axes it is zero only for equal points; on more
axes it is zero exactly if no coordinates differ by more than the slack. -/
theorem dist_definite (hdimension : p.dimension = q.dimension)
    (hp : ∀ x ∈ p.coordinates, Scalar.isFinite x) (hq : ∀ x ∈ q.coordinates, Scalar.isFinite x) :
    ∃ d, p.dist q = .ok d ∧ q.dist p = .ok d ∧ 0.0 ≤ d ∧
      (p.dimension ≤ 2 → (d == 0.0 ↔ p.Agrees q)) ∧
      (2 < p.dimension → (d == 0.0 ↔
        ∀ x ∈ p.coordinates.zip q.coordinates, |value x.1 - value x.2| ≤ slack)) := by
  have hdist : ∀ {p q : Point Float}, p.dimension = q.dimension →
      p.dist q = .ok (distance p.coordinates q.coordinates) := by
    intro p q h
    rw [dist, sameDimension, if_pos h]
    rfl
  have hsignals : Signals (distance p.coordinates q.coordinates)
      (∃ x ∈ p.coordinates.zip q.coordinates, Notices p.dimension x) :=
    signals_distance hdimension hp hq
  refine ⟨distance p.coordinates q.coordinates, hdist hdimension, ?_, hsignals.zero_le,
    fun hfew => ?_, fun hmany => ?_⟩
  · rw [hdist hdimension.symm, distance_comm hdimension hp hq]
  · rw [hsignals.beq_zero_iff, Agrees, and_iff_right hdimension, not_exists]
    refine forall_congr' fun x => ?_
    rw [not_and]
    refine forall_congr' fun hx => ?_
    obtain ⟨hx1, hx2⟩ := List.of_mem_zip hx
    rw [Notices, if_pos hfew, le_and_le_iff_value (hp _ hx1) (hq _ hx2), not_not]
  · rw [hsignals.beq_zero_iff, not_exists]
    refine forall_congr' fun x => ?_
    rw [not_and, Notices, if_neg (Nat.not_le.2 hmany), not_lt]

/-- On three axes the distance of points that differ is zero if the squares of their
differences underflow. -/
theorem dist_definite_underflow :
    let p : Point Float := ⟨[0.0, 0.0, 0.0]⟩
    let q : Point Float := ⟨[1e-200, 0.0, 0.0]⟩
    (∀ x ∈ p.coordinates ++ q.coordinates, Scalar.isFinite x) ∧ ¬ p.Agrees q ∧
      ∃ d, p.dist q = .ok d ∧ q.dist p = .ok d ∧ d == 0.0 ∧
        ∀ x ∈ p.coordinates.zip q.coordinates, |value x.1 - value x.2| ≤ slack := by
  intro p q
  have hfinite : ∀ x ∈ p.coordinates ++ q.coordinates, Scalar.isFinite x := by decide +kernel
  have hdiffer : ¬ p.Agrees q := by decide +kernel
  obtain ⟨d, hd, hback, -, -, hzero⟩ := dist_definite (p := p) (q := q) (by decide)
    (fun x hx => hfinite x (List.mem_append_left _ hx))
    (fun x hx => hfinite x (List.mem_append_right _ hx))
  have hsame : d = 0.0 := by
    have heval : p.dist q = .ok 0.0 := by decide +kernel
    exact Except.ok.inj (hd.symm.trans heval)
  have hd0 : d == 0.0 := by
    rw [hsame]
    decide
  exact ⟨hfinite, hdiffer, d, hd, hback, hd0, (hzero (by decide)).1 hd0⟩

end Point

end Reframe
