import Reframe.Proofs.Anchor.Refusal
import Reframe.Proofs.Cluster.Members
import Reframe.Proofs.Cluster.Partition
import Reframe.Proofs.Number.Nearest

/-!
# Detections that are shifted together

Detections are grouped by their distances as parts of a side. In machine arithmetic such a
distance is a difference of two quotients, each of them rounded, so it also depends on where the
detections lie; but by no more than three roundings can make of it. So detections that move
together along the axis keep their groups, unless the threshold is so near to the distance of two
of them that rounding decides. For a side and a threshold there is at most one such distance.

* `Detection.gap`, `gapGraph`: exact distances, and the links up to a reach.
* `lost`: what rounding can make of a distance.
* `apart_fractionOf_le_iff`: **the machine links by the exact distance**, up to that.
* `Cluster.cluster_ofFn`: the groups of a family, by index.
* `Anchor.locate_shift`: **the groups move with the detections**.
-/

namespace Reframe

open Binary

/-- The spot, moved along an axis. -/
def Spot.shift (axis : Axis) (step : ℤ) (p : Spot) : Spot :=
  match axis with
  | .horizontal => ⟨p.x + step, p.y⟩
  | .vertical => ⟨p.x, p.y + step⟩

namespace Detection

/-- The detection, moved along an axis. -/
def shift (axis : Axis) (step : ℤ) (d : Detection) : Detection :=
  { d with spot := d.spot.shift axis step }

/-- How far apart two detections are on an axis, as a part of the side. -/
def gap (e : Extent) (axis : Axis) (d d' : Detection) : ℚ :=
  |(d.spot.along axis : ℚ) - d'.spot.along axis| / e.along axis

end Detection

/-- The links between detections whose distance on an axis is at most `reach`. -/
def gapGraph {n : ℕ} (e : Extent) (axis : Axis) (reach : ℚ) (d : Fin n → Detection) :
    SimpleGraph (Fin n) :=
  .fromRel fun i j => (d i).gap e axis (d j) ≤ reach

/-- What rounding can make of the distance of two fractions of a side: both fractions are
rounded, and so is their difference. -/
def lost : ℚ :=
  3 / 2 ^ 54

theorem lost_pos : 0 < lost := by
  norm_num [lost]

section Distance

variable {length : ℕ} {x y : ℤ} {threshold : Float} {t : ℚ}

/-- A place of a side, as a fraction of it. -/
theorem exists_fractionOf_near (hlength : length ≤ maxSide) (h0 : 0 ≤ x) (h1 : x < length) :
    ∃ z, Amount (fractionOf length x : Float) z ∧ z < 1 ∧ |z - x / length| ≤ 1 / 2 ^ 54 := by
  obtain ⟨k, rfl⟩ := Int.eq_ofNat_of_zero_le h0
  have hk : k < length := by omega
  have hbits : length < 2 ^ 53 := Nat.lt_of_le_of_lt hlength (by decide)
  have hplace : Amount (Scalar.ofInt (k : ℤ) : Float) k :=
    ⟨denotes_ofNat (by omega), Nat.cast_nonneg k⟩
  have hside : Amount (Scalar.ofInt (length : ℤ) : Float) length :=
    ⟨denotes_ofNat hbits, Nat.cast_nonneg length⟩
  have hlt : (k : ℚ) < length := by exact_mod_cast hk
  obtain ⟨z, hz, hnear⟩ := hplace.exists_div_near hside hlt
  have hfraction : (fractionOf length k : Float) =
      Scalar.ofInt (k : ℤ) / Scalar.ofInt (length : ℤ) := by
    rw [fractionOf, Whole.clampInt_of_mem h0 (by omega)]
  refine ⟨z, hfraction ▸ hz, ?_, by rwa [Int.cast_natCast]⟩
  -- the last place is a whole pixel short of the side
  have hpos : (0 : ℚ) < length := (Nat.cast_nonneg k).trans_lt hlt
  have hlast : (k : ℚ) / length ≤ 1 - 1 / length := by
    rw [le_sub_iff_add_le, ← add_div, div_le_one hpos]
    exact_mod_cast hk
  have hpixel : (1 : ℚ) / 2 ^ 32 ≤ 1 / length :=
    one_div_le_one_div_of_le hpos (by exact_mod_cast hlength.trans (by decide))
  have hupper := (abs_le.1 hnear).2
  have hsmall : (1 : ℚ) / 2 ^ 54 < 1 / 2 ^ 32 := by norm_num
  linarith

/-- **The machine's distance of two places** is the exact one, up to three roundings. -/
theorem exists_apart_fractionOf_near (hlength : length ≤ maxSide) (hx0 : 0 ≤ x)
    (hx1 : x < length) (hy0 : 0 ≤ y) (hy1 : y < length) :
    ∃ z, Amount (apart (fractionOf length x) (fractionOf length y) : Float) z ∧
      |z - |(x : ℚ) - y| / length| ≤ lost := by
  obtain ⟨a, ha, halt, hanear⟩ := exists_fractionOf_near hlength hx0 hx1
  obtain ⟨b, hb, hblt, hbnear⟩ := exists_fractionOf_near hlength hy0 hy1
  have hbelow : |a - b| < 1 := by
    rw [abs_lt]
    constructor <;> linarith [ha.nonneg, hb.nonneg]
  obtain ⟨z, hz, hznear⟩ := exists_apart_near ha.denotes hb.denotes hbelow
  refine ⟨z, hz, ?_⟩
  have hlengthpos : (0 : ℚ) < length := by
    have hpos : 0 < length := by omega
    exact_mod_cast hpos
  have hexact : |(x : ℚ) - y| / length = |(x : ℚ) / length - y / length| := by
    rw [← sub_div, abs_div, abs_of_pos hlengthpos]
  rw [hexact]
  generalize (x : ℚ) / length = u at hanear
  generalize (y : ℚ) / length = v at hbnear
  have hfractions : |(|a - b|) - (|u - v|)| ≤ 2 / 2 ^ 54 := by
    calc |(|a - b|) - (|u - v|)| ≤ |(a - b) - (u - v)| := abs_abs_sub_abs_le _ _
      _ = |(a - u) - (b - v)| := by rw [sub_sub_sub_comm]
      _ ≤ |a - u| + |b - v| := abs_sub _ _
      _ ≤ 2 / 2 ^ 54 := by linarith
  calc |z - (|u - v|)| ≤ |z - (|a - b|)| + |(|a - b|) - (|u - v|)| := abs_sub_le _ _ _
    _ ≤ lost := by
      unfold lost
      linarith

/-- Places that are clearly near are linked. -/
theorem apart_fractionOf_le (hlength : length ≤ maxSide) (hx0 : 0 ≤ x) (hx1 : x < length)
    (hy0 : 0 ≤ y) (hy1 : y < length) (ht : Amount threshold t)
    (hnear : |(x : ℚ) - y| / length ≤ t - lost) :
    apart (fractionOf length x) (fractionOf length y) ≤ threshold := by
  obtain ⟨z, hz, hzlost⟩ := exists_apart_fractionOf_near hlength hx0 hx1 hy0 hy1
  refine (hz.le_iff ht).2 ?_
  linarith [(abs_le.1 hzlost).2]

/-- Places that are linked are not clearly far from each other. -/
theorem le_of_apart_fractionOf_le (hlength : length ≤ maxSide) (hx0 : 0 ≤ x) (hx1 : x < length)
    (hy0 : 0 ≤ y) (hy1 : y < length) (ht : Amount threshold t)
    (hlink : apart (fractionOf length x) (fractionOf length y) ≤ threshold) :
    |(x : ℚ) - y| / length ≤ t + lost := by
  obtain ⟨z, hz, hzlost⟩ := exists_apart_fractionOf_near hlength hx0 hx1 hy0 hy1
  have hle := (hz.le_iff ht).1 hlink
  linarith [(abs_le.1 hzlost).1]

/-- **The machine links by the exact distance**, wherever the places lie, unless the threshold is
so near to it that rounding decides. -/
theorem apart_fractionOf_le_iff (hlength : length ≤ maxSide) (hx0 : 0 ≤ x) (hx1 : x < length)
    (hy0 : 0 ≤ y) (hy1 : y < length) (ht : Amount threshold t)
    (hclear : lost < |(|(x : ℚ) - y| / length - t)|) :
    apart (fractionOf length x) (fractionOf length y) ≤ threshold ↔
      |(x : ℚ) - y| / length ≤ t := by
  have hlost := lost_pos
  rcases lt_abs.1 hclear with hfar | hnear
  · refine iff_of_false (fun hlink => ?_) (by linarith)
    linarith [le_of_apart_fractionOf_le hlength hx0 hx1 hy0 hy1 ht hlink]
  · refine iff_of_true ?_ (by linarith)
    exact apart_fractionOf_le hlength hx0 hx1 hy0 hy1 ht (by linarith)

/-- **Rounding decides at one distance at most**: pixels are too large for two. -/
theorem eq_of_abs_sub_le_lost (hpos : 0 < length) (hlength : length ≤ maxSide) {k l : ℕ}
    (hk : |(k : ℚ) / length - t| ≤ lost) (hl : |(l : ℚ) / length - t| ≤ lost) : k = l := by
  by_contra hne
  have hone : (1 : ℚ) ≤ |(k : ℚ) - l| := by
    exact_mod_cast Int.one_le_abs (show (k : ℤ) - l ≠ 0 by omega)
  have hpos : (0 : ℚ) < length := by exact_mod_cast hpos
  have hside : (length : ℚ) ≤ 2 ^ 32 := by exact_mod_cast hlength.trans (by decide)
  have hpixels : |(k : ℚ) - l| / length ≤ 2 * lost := by
    calc |(k : ℚ) - l| / length = |(k : ℚ) / length - l / length| := by
          rw [← sub_div, abs_div, abs_of_pos hpos]
      _ ≤ |(k : ℚ) / length - t| + |t - l / length| := abs_sub_le _ _ _
      _ ≤ 2 * lost := by
        rw [abs_sub_comm t]
        linarith
  have hless : |(k : ℚ) - l| < 1 := by
    calc |(k : ℚ) - l| ≤ 2 * lost * length := (div_le_iff₀ hpos).1 hpixels
      _ ≤ 2 * lost * 2 ^ 32 := mul_le_mul_of_nonneg_left hside (by linarith [lost_pos])
      _ < 1 := by norm_num [lost]
  exact absurd hone (not_le.2 hless)

end Distance

section Graphs

variable {n : ℕ} {e : Extent} {axis : Axis} {d : Fin n → Detection} {i j : Fin n}

/-- A graph between two others, of which the larger joins nothing that the smaller does not,
joins the same. -/
theorem reachable_iff_of_between {V : Type} {small middle large : SimpleGraph V}
    (hlow : small ≤ middle) (hhigh : middle ≤ large)
    (hjoins : ∀ u v, large.Adj u v → small.Reachable u v) (u v : V) :
    middle.Reachable u v ↔ small.Reachable u v := by
  constructor
  · rintro ⟨walk⟩
    induction walk with
    | nil => rfl
    | cons hadj _ ih => exact (hjoins _ _ (hhigh hadj)).trans ih
  · exact .mono hlow

namespace Detection

theorem gap_comm (e : Extent) (axis : Axis) (d d' : Detection) :
    d.gap e axis d' = d'.gap e axis d := by
  rw [gap, gap, abs_sub_comm]

theorem along_shift (axis : Axis) (step : ℤ) (d : Detection) :
    (d.shift axis step).spot.along axis = d.spot.along axis + step := by
  cases axis <;> rfl

/-- **Detections that are shifted together keep their distances.** -/
theorem gap_shift (e : Extent) (axis : Axis) (step : ℤ) (d d' : Detection) :
    (d.shift axis step).gap e axis (d'.shift axis step) = d.gap e axis d' := by
  unfold gap
  rw [along_shift, along_shift]
  push_cast
  rw [add_sub_add_right_eq_sub]

theorem fractionOn_eq {α : Type} [Scalar α] (e : Extent) (axis : Axis) (d : Detection) :
    (d.fractionOn e axis : α) = fractionOf (e.along axis) (d.spot.along axis) := by
  cases axis <;> rfl

theorem along_mem {p : Spot} (h : e.Contains p) (axis : Axis) :
    0 ≤ p.along axis ∧ p.along axis < e.along axis := by
  obtain ⟨hx0, hx1, hy0, hy1⟩ := h
  cases axis with
  | horizontal => exact ⟨hx0, hx1⟩
  | vertical => exact ⟨hy0, hy1⟩

end Detection

theorem gapGraph_adj {reach : ℚ} :
    (gapGraph e axis reach d).Adj i j ↔ i ≠ j ∧ (d i).gap e axis (d j) ≤ reach := by
  rw [gapGraph, SimpleGraph.fromRel_adj, (d j).gap_comm, or_self]

theorem gapGraph_mono {reach reach' : ℚ} (h : reach ≤ reach') :
    gapGraph e axis reach d ≤ gapGraph e axis reach' d := by
  intro i j hadj
  rw [gapGraph_adj] at hadj ⊢
  exact ⟨hadj.1, hadj.2.trans h⟩

theorem gapGraph_shift (reach : ℚ) (step : ℤ) :
    gapGraph e axis reach (fun i => (d i).shift axis step) = gapGraph e axis reach d := by
  simp only [gapGraph, Detection.gap_shift]

end Graphs

section Groups

variable {α : Type} [Scalar α] {n : ℕ} {e : Extent} {ratio threshold : α} {d : Fin n → Detection}

/-- **The groups of a family of samples**, by index: the components of its links. -/
theorem Cluster.cluster_ofFn (item : Fin n → Sample α)
    (haxis : ∀ i, (item i).point.dimension = 1) (ht : IsThreshold threshold) :
    ∃ parts : List (List (Fin n)),
      cluster (List.ofFn item) threshold = .ok (parts.map fun part => ⟨part.map item⟩) ∧
      IsComponents
        (.fromRel fun i j => i < j ∧ apart (item i).place (item j).place ≤ threshold) parts := by
  -- places of the list and indices of the family are the same up to a cast
  have hlist : ∀ (samples : List (Sample α)) (hlength : samples.length = n),
      (∀ i : Fin samples.length, samples.get i = item (i.cast hlength)) →
      ∃ parts : List (List (Fin n)),
        cluster samples threshold = .ok (parts.map fun part => ⟨part.map item⟩) ∧
        IsComponents
          (.fromRel fun i j => i < j ∧ apart (item i).place (item j).place ≤ threshold) parts := by
    rintro samples rfl hitem
    obtain rfl : item = samples.get := funext fun i => (hitem i).symm
    have hone : OneAxis samples := by
      intro s hs
      obtain ⟨i, rfl⟩ := List.mem_iff_get.1 hs
      exact haxis i
    obtain ⟨parts, hcluster, hparts⟩ := cluster_isComponents ⟨1, hone⟩ ht
    refine ⟨parts, hcluster, ?_⟩
    simp only [← linked_iff_apart hone]
    exact hparts
  exact hlist _ List.length_ofFn fun i => List.get_ofFn item i

namespace Anchor

/-- The links that the machine makes between detections of a frame. -/
def linkGraph (e : Extent) (axis : Axis) (threshold : α) (d : Fin n → Detection) :
    SimpleGraph (Fin n) :=
  .fromRel fun i j => i < j ∧
    apart ((d i).fractionOn e axis) ((d j).fractionOn e axis) ≤ threshold

/-- The groups that are shown when detections are located, by the indices of their members. -/
def Shows (e : Extent) (ratio threshold : α) (d : Fin n → Detection)
    (parts : List (List (Fin n))) : Prop :=
  (locate e ratio threshold (List.ofFn d)).seen =
    [parts.map fun part => ⟨part.map fun i => (d i).onAxis e (Axis.dominant e ratio)⟩]

/-- Detections that are not refused show the components of their links. -/
theorem exists_shows (ratio : α) (h : refusal? e threshold (List.ofFn d) = none) :
    ∃ parts, Shows e ratio threshold d parts ∧
      Cluster.IsComponents (linkGraph e (Axis.dominant e ratio) threshold d) parts := by
  obtain ⟨ht, hgood⟩ := of_refusal?_eq_none h
  have hsamples : (Detection.samplesOn e (Axis.dominant e ratio) (List.ofFn d) :
      List (Sample α)) = List.ofFn fun i => (d i).onAxis e (Axis.dominant e ratio) :=
    List.map_ofFn
  obtain ⟨parts, hcluster, hparts⟩ := Cluster.cluster_ofFn
    (fun i => (d i).onAxis e (Axis.dominant e ratio)) (fun _ => rfl) ht
  have hgroups : groupsOn (Axis.dominant e ratio) e threshold (List.ofFn d) =
      cluster (List.ofFn fun i => (d i).onAxis e (Axis.dominant e ratio)) threshold := by
    rw [groupsOn, Detection.samplesOn_eq_ok hgood, hsamples]
    rfl
  refine ⟨parts, ?_, hparts⟩
  unfold Shows locate
  extract_lets axis
  rw [hgroups, hcluster]

/-- Why detections are refused does not depend on where they are. -/
theorem refusal?_map (f : Detection → Detection) (hweight : ∀ d, ((f d).weight : α) = d.weight)
    (detections : List Detection) :
    refusal? e threshold (detections.map f) = refusal? e threshold detections := by
  unfold refusal?
  have hfind : (detections.map f).find? (fun d => ¬ Sample.IsWeight (d.weight : α)) =
      (detections.find? fun d => ¬ Sample.IsWeight (d.weight : α)).map f := by
    rw [List.find?_map]
    simp only [Function.comp_def, hweight]
  rw [hfind]
  cases detections.find? fun d => ¬ Sample.IsWeight (d.weight : α) with
  | none => simp only [ne_eq, List.map_eq_nil_iff, Option.map_none]
  | some d => simp only [ne_eq, List.map_eq_nil_iff, Option.map_some, hweight]

end Anchor

end Groups

namespace Anchor

section Machine

variable {n : ℕ} {e : Extent} {axis : Axis} {threshold : Float} {t : ℚ} {d : Fin n → Detection}

theorem along_le_maxSide (hw : e.width ≤ maxSide) (hh : e.height ≤ maxSide) (axis : Axis) :
    e.along axis ≤ maxSide := by
  cases axis with
  | horizontal => exact hw
  | vertical => exact hh

/-- **The machine's links join what the exact links join**, unless rounding decides: unless
detections at the distance of the threshold are joined by no other chain. -/
theorem reachable_linkGraph_iff (hlength : e.along axis ≤ maxSide)
    (hframe : ∀ i, e.Contains (d i).spot) (ht : Amount threshold t)
    (hclear : ∀ i j, (gapGraph e axis (t + lost) d).Adj i j →
      (gapGraph e axis (t - lost) d).Reachable i j) (i j : Fin n) :
    (linkGraph e axis threshold d).Reachable i j ↔ (gapGraph e axis t d).Reachable i j := by
  have hplace := fun i => Detection.along_mem (hframe i) axis
  have hlow : gapGraph e axis (t - lost) d ≤ linkGraph e axis threshold d := by
    intro i j hadj
    obtain ⟨hne, hnear⟩ := gapGraph_adj.1 hadj
    have hlink : ∀ {i j}, (d i).gap e axis (d j) ≤ t - lost →
        apart ((d i).fractionOn e axis) ((d j).fractionOn e axis) ≤ threshold := by
      intro i j hnear
      rw [Detection.fractionOn_eq, Detection.fractionOn_eq]
      exact apart_fractionOf_le hlength (hplace i).1 (hplace i).2 (hplace j).1 (hplace j).2 ht hnear
    refine (SimpleGraph.fromRel_adj _ _ _).2 ⟨hne, ?_⟩
    rcases lt_or_gt_of_ne hne with hlt | hgt
    · exact .inl ⟨hlt, hlink hnear⟩
    · exact .inr ⟨hgt, hlink ((d j).gap_comm e axis (d i) ▸ hnear)⟩
  have hhigh : linkGraph e axis threshold d ≤ gapGraph e axis (t + lost) d := by
    have hnear : ∀ {i j}, apart ((d i).fractionOn e axis) ((d j).fractionOn e axis) ≤ threshold →
        (d i).gap e axis (d j) ≤ t + lost := by
      intro i j hlink
      rw [Detection.fractionOn_eq, Detection.fractionOn_eq] at hlink
      exact le_of_apart_fractionOf_le hlength (hplace i).1 (hplace i).2 (hplace j).1 (hplace j).2
        ht hlink
    intro i j hadj
    obtain ⟨hne, ⟨-, hlink⟩ | ⟨-, hlink⟩⟩ := (SimpleGraph.fromRel_adj _ _ _).1 hadj
    · exact gapGraph_adj.2 ⟨hne, hnear hlink⟩
    · exact gapGraph_adj.2 ⟨hne, (d i).gap_comm e axis (d j) ▸ hnear hlink⟩
  have hbelow : gapGraph e axis (t - lost) d ≤ gapGraph e axis t d :=
    gapGraph_mono (sub_le_self t lost_pos.le)
  have habove : gapGraph e axis t d ≤ gapGraph e axis (t + lost) d :=
    gapGraph_mono (le_add_of_nonneg_right lost_pos.le)
  rw [reachable_iff_of_between hlow hhigh hclear, reachable_iff_of_between hbelow habove hclear]

end Machine

/-- **The groups move with the detections.** Take a valid threshold, and any ratio. Two places of
the side are linked exactly when their distance, as a part of the side, is at most the threshold,
wherever they lie; unless the two are so near to each other that rounding decides, and that is
so for one number of pixels at most. Take any detections in the frame that stay in it when they
are shifted along the axis that the crop cuts. They are refused for the same reason before and
after. Or they show the same groups, by their indices, which are the components of the exact
links; unless two of them are at the distance at which rounding decides, and no chain of shorter
links joins the two. -/
theorem locate_shift {e : Extent} {threshold : Float} (hw : e.width ≤ maxSide)
    (hh : e.height ≤ maxSide) (ht : IsThreshold threshold) (ratio : Float) :
    let axis := Axis.dominant e ratio
    let length := e.along axis
    ∃ t, Amount threshold t ∧
      (∀ x y : ℤ, 0 ≤ x → x < length → 0 ≤ y → y < length →
        lost < |(|(x : ℚ) - y| / length - t)| →
        (apart (fractionOf length x) (fractionOf length y) ≤ threshold ↔
          |(x : ℚ) - y| / length ≤ t)) ∧
      (∀ k l : ℕ, 0 < length → |(k : ℚ) / length - t| ≤ lost → |(l : ℚ) / length - t| ≤ lost →
        k = l) ∧
      ∀ (n : ℕ) (d : Fin n → Detection) (step : ℤ),
        let shifted := fun i => (d i).shift axis step
        (∀ i, e.Contains (d i).spot) → (∀ i, e.Contains (shifted i).spot) →
        (∀ i j, (gapGraph e axis (t + lost) d).Adj i j →
          (gapGraph e axis (t - lost) d).Reachable i j) →
        match refusal? e threshold (List.ofFn d) with
        | some failure => locate e ratio threshold (List.ofFn d) = ⟨[], .error failure⟩ ∧
            locate e ratio threshold (List.ofFn shifted) = ⟨[], .error failure⟩
        | none => ∃ parts, Cluster.IsComponents (gapGraph e axis t d) parts ∧
            Shows e ratio threshold d parts ∧ Shows e ratio threshold shifted parts := by
  intro axis length
  have hlength : length ≤ maxSide := along_le_maxSide hw hh axis
  obtain ⟨t, hamount⟩ := exists_amount ht.1 ht.2
  refine ⟨t, hamount, fun x y hx0 hx1 hy0 hy1 => apart_fractionOf_le_iff hlength hx0 hx1 hy0 hy1
    hamount, fun k l hpos => eq_of_abs_sub_le_lost hpos hlength, ?_⟩
  intro n d step shifted hframe hframe' hclear
  have hshifted : List.ofFn shifted = (List.ofFn d).map (·.shift axis step) := by
    rw [List.map_ofFn]
    rfl
  have hrefusal : refusal? e threshold (List.ofFn shifted) =
      refusal? e threshold (List.ofFn d) := by
    rw [hshifted]
    exact refusal?_map (·.shift axis step) (fun d => rfl) _
  split
  next failure hrefused =>
    have hrefused' := hrefusal.trans hrefused
    exact ⟨locate_of_error (groupsOn_refused hrefused _),
      locate_of_error (groupsOn_refused hrefused' _)⟩
  next hnone =>
    obtain ⟨parts, hshows, hparts⟩ := exists_shows ratio hnone
    obtain ⟨parts', hshows', hparts'⟩ := exists_shows ratio (hrefusal.trans hnone)
    have hsame : ∀ reach, gapGraph e axis reach shifted = gapGraph e axis reach d :=
      fun reach => gapGraph_shift reach step
    -- both graphs of links join what the exact links join, and these are the same
    have hexact := hparts.congr (reachable_linkGraph_iff hlength hframe hamount hclear)
    have hexact' := hparts'.congr (reachable_linkGraph_iff hlength hframe' hamount (by
      rw [hsame, hsame]
      exact hclear))
    rw [hsame] at hexact'
    obtain rfl := hexact.eq hexact'
    exact ⟨parts, hexact, hshows, hshows'⟩

/-- Two detections on neighbouring pixels. -/
def neighbours (x : ℤ) : Fin 2 → Detection :=
  ![⟨⟨x, 0⟩, 1, Float32.ofBits 0x3F800000⟩, ⟨⟨x + 1, 0⟩, 1, Float32.ofBits 0x3F800000⟩]

/-- On a side of 20 pixels the threshold 0.05 is the distance of neighbours. At the pixels 1 and 2
they are one group, at 7 and 8 they are two: `0.4 - 0.35` is rounded up. -/
theorem locate_shift_neighbours :
    let e : Extent := ⟨20, 1⟩
    let axis := Axis.dominant e (1.0 : Float)
    (e.width ≤ maxSide ∧ e.height ≤ maxSide ∧ IsThreshold (0.05 : Float)) ∧
    ((∀ i, e.Contains (neighbours 7 i).spot) ∧
      ∀ i, e.Contains ((neighbours 7 i).shift axis (-6)).spot) ∧
    refusal? e (0.05 : Float) (List.ofFn (neighbours 7)) = none ∧
    ¬ ∃ parts, Shows e (1.0 : Float) 0.05 (neighbours 7) parts ∧
      Shows e (1.0 : Float) 0.05 (fun i => (neighbours 7 i).shift axis (-6)) parts := by
  intro e axis
  have haxis : axis = .horizontal := by decide +kernel
  have hsides : e.width ≤ maxSide ∧ e.height ≤ maxSide := by decide
  have ht : IsThreshold (0.05 : Float) := by decide
  have hframe : ∀ i, e.Contains (neighbours 7 i).spot := by decide
  have hnone : refusal? e (0.05 : Float) (List.ofFn (neighbours 7)) = none := by decide +kernel
  have htwo : (locate e (1.0 : Float) 0.05
      (List.ofFn (neighbours 7))).seen.map List.length = [2] := by
    decide +kernel
  rw [haxis]
  have hframe' : ∀ i, e.Contains ((neighbours 7 i).shift .horizontal (-6)).spot := by decide
  have hone : (locate e (1.0 : Float) 0.05
      (List.ofFn fun i => (neighbours 7 i).shift .horizontal (-6))).seen.map List.length = [1] := by
    decide +kernel
  refine ⟨⟨hsides.1, hsides.2, ht⟩, ⟨hframe, hframe'⟩, hnone, ?_⟩
  rintro ⟨parts, hshows, hshows'⟩
  rw [Shows] at hshows hshows'
  rw [hshows, List.map_singleton, List.length_map] at htwo
  rw [hshows', List.map_singleton, List.length_map, htwo] at hone
  cases hone

/-- A threshold between the distances of one and of two pixels, a pair of neighbours and a third
detection apart from them. -/
theorem locate_shift_apart :
    let e : Extent := ⟨20, 1⟩
    let d : Fin 3 → Detection := ![neighbours 1 0, neighbours 1 1, neighbours 5 0]
    let shifted := fun i => (d i).shift .horizontal 6
    (e.width ≤ maxSide ∧ e.height ≤ maxSide ∧ IsThreshold (0.0625 : Float)) ∧
    Amount 0.0625 (1 / 16) ∧
    ((∀ i, e.Contains (d i).spot) ∧ ∀ i, e.Contains (shifted i).spot) ∧
    ∃ parts, Cluster.IsComponents (gapGraph e .horizontal (1 / 16) d) parts ∧
      Shows e (1.0 : Float) 0.0625 d parts ∧ Shows e (1.0 : Float) 0.0625 shifted parts := by
  intro e d shifted
  have hw : e.width ≤ maxSide := by decide
  have hh : e.height ≤ maxSide := by decide
  have ht : IsThreshold (0.0625 : Float) := by decide
  have haxis : Axis.dominant e (1.0 : Float) = .horizontal := by decide +kernel
  have hframe : ∀ i, e.Contains (d i).spot := by decide
  have hframe' : ∀ i, e.Contains (shifted i).spot := by decide
  have hnone : refusal? e (0.0625 : Float) (List.ofFn d) = none := by decide +kernel
  have hvalue : Amount 0.0625 (1 / 16) := by
    refine ⟨HasValue.denotes ⟨4503599627370496, -56, by decide, rfl, ?_⟩, by norm_num⟩
    norm_num [magnitude]
  obtain ⟨t, hamount, -, -, hgroups⟩ := locate_shift hw hh ht 1.0
  obtain rfl := hamount.denotes.eq hvalue.denotes
  -- no distance is near the threshold
  have hclear : ∀ i j, (gapGraph e .horizontal (1 / 16 + lost) d).Adj i j →
      (gapGraph e .horizontal (1 / 16 - lost) d).Reachable i j := by
    have hnear : ∀ i j, (d i).gap e .horizontal (d j) ≤ 1 / 16 + lost →
        (d i).gap e .horizontal (d j) ≤ 1 / 16 - lost := by
      decide +kernel
    intro i j hadj
    obtain ⟨hne, hle⟩ := gapGraph_adj.1 hadj
    exact (gapGraph_adj.2 ⟨hne, hnear i j hle⟩).reachable
  have hmatch := hgroups 3 d 6 hframe (by rwa [haxis]) (by rwa [haxis])
  rw [hnone, haxis] at hmatch
  exact ⟨⟨hw, hh, ht⟩, hvalue, ⟨hframe, hframe'⟩, hmatch⟩

end Anchor

end Reframe
