import Mathlib.Data.List.Nodup
import Reframe.Detector.Sample
import Reframe.Proofs.Turn.RightAngle

/-!
# Detectors that look at single pixels

A detector may judge every pixel by its brightness alone, and report those that have a size
and a quality, in whatever order it comes upon them. When the picture turns by a right
angle, its pixels only change places; so what such a detector reports turns with them.

* `Extent.spots`: the spots of a frame.
* `Detector.marks`: the detections at the spots that are bright enough.
* `Detector.IsPointwise`: the detector reports them, under every scan and in any order.
* `Detector.marks_turned`: **marks turn with the picture**.
-/

namespace Reframe

variable {e : Extent} {p : Spot}

/-- The spots of a frame, row by row. -/
def Extent.spots (e : Extent) : List Spot :=
  (List.range (e.width * e.height)).map fun i => ⟨(i % e.width : Nat), (i / e.width : Nat)⟩

theorem Extent.mem_spots : p ∈ e.spots ↔ e.Contains p := by
  constructor
  · intro h
    obtain ⟨i, hi, rfl⟩ := List.mem_map.1 h
    have hi : i < e.width * e.height := List.mem_range.1 hi
    have hwidth : 0 < e.width := Nat.pos_of_mul_pos_right (Nat.zero_lt_of_lt hi)
    exact ⟨Int.natCast_nonneg _, Int.ofNat_lt.2 (Nat.mod_lt i hwidth), Int.natCast_nonneg _,
      Int.ofNat_lt.2 (Nat.div_lt_of_lt_mul hi)⟩
  · rintro ⟨hx, hx', hy, hy'⟩
    obtain ⟨px, py⟩ := p
    obtain ⟨x, rfl⟩ := Int.eq_ofNat_of_zero_le hx
    obtain ⟨y, rfl⟩ := Int.eq_ofNat_of_zero_le hy
    have hx : x < e.width := Int.ofNat_lt.1 hx'
    have hy : y < e.height := Int.ofNat_lt.1 hy'
    refine List.mem_map.2 ⟨y * e.width + x, List.mem_range.2 (Raster.index_lt hx hy), ?_⟩
    rw [Raster.index_mod hx, Raster.index_div hx]

theorem Extent.nodup_spots (e : Extent) : e.spots.Nodup := by
  refine List.Nodup.map_on (fun i _ j _ h => ?_) List.nodup_range
  have hx : i % e.width = j % e.width := Int.ofNat_inj.1 (congrArg Spot.x h)
  have hy : i / e.width = j / e.width := Int.ofNat_inj.1 (congrArg Spot.y h)
  calc i = e.width * (i / e.width) + i % e.width := (Nat.div_add_mod i e.width).symm
    _ = e.width * (j / e.width) + j % e.width := by rw [hx, hy]
    _ = j := Nat.div_add_mod j e.width

namespace RightAngle

theorem inverse_inverse (a : RightAngle) : a.inverse.inverse = a := by
  cases a <;> rfl

/-- **Every spot of the turned frame is one that has moved there.** -/
theorem exists_spot (a : RightAngle) {q : Spot} (h : (a.extent e).Contains q) :
    ∃ p, e.Contains p ∧ a.spot e p = q := by
  have hinside := a.inverse.contains_spot h
  have hback := a.inverse.spot_inverse (a.extent e) q
  rw [extent_inverse] at hinside
  rw [inverse_inverse, extent_inverse] at hback
  exact ⟨_, hinside, hback⟩

/-- Turning permutes the spots. -/
theorem perm_spots (a : RightAngle) (e : Extent) :
    (a.extent e).spots.Perm (e.spots.map (a.spot e)) := by
  have hinjective : (e.spots.map (a.spot e)).Nodup := by
    refine e.nodup_spots.map fun p q h => ?_
    rw [← a.spot_inverse e p, h, a.spot_inverse]
  refine (List.perm_ext_iff_of_nodup (Extent.nodup_spots _) hinjective).2 fun q => ?_
  rw [Extent.mem_spots, List.mem_map]
  constructor
  · intro hq
    obtain ⟨p, hp, rfl⟩ := a.exists_spot hq
    exact ⟨p, Extent.mem_spots.2 hp, rfl⟩
  · rintro ⟨p, hp, rfl⟩
    exact a.contains_spot (Extent.mem_spots.1 hp)

end RightAngle

/-- The detection at another place. -/
def Detection.move (f : Spot → Spot) (d : Detection) : Detection :=
  { d with spot := f d.spot }

namespace Detector

variable {size : UInt8 → Option (Int × Float32)} {gray : Gray} {picture : Picture} {d : Detection}

/-- The detection at a spot, if its byte has a size and a quality. -/
def markAt (size : UInt8 → Option (Int × Float32)) (gray : Gray) (p : Spot) : Option Detection :=
  (gray.get? p.x.toNat p.y.toNat).bind fun v =>
    (size v).map fun s => { spot := p, scale := s.1, quality := s.2 }

/-- The detections at all spots whose bytes have a size and a quality, row by row. -/
def marks (size : UInt8 → Option (Int × Float32)) (gray : Gray) : List Detection :=
  gray.extent.spots.filterMap (markAt size gray)

/-- The detector reports these, under every scan and in any order. -/
def IsPointwise (detector : Detector) (size : UInt8 → Option (Int × Float32)) : Prop :=
  ∀ gray scan, ∃ report, (detector gray scan).report = some report ∧
    report.Perm (marks size gray)

theorem spot_of_markAt (h : markAt size gray p = some d) : d.spot = p := by
  obtain ⟨v, -, hmark⟩ := Option.bind_eq_some_iff.1 h
  obtain ⟨s, -, rfl⟩ := Option.map_eq_some_iff.1 hmark
  rfl

theorem contains_of_mem_marks (h : d ∈ marks size gray) : gray.extent.Contains d.spot := by
  obtain ⟨p, hp, hmark⟩ := List.mem_filterMap.1 h
  rw [spot_of_markAt hmark]
  exact Extent.mem_spots.1 hp

/-- The `i`-th byte lies at the `i`-th spot. -/
theorem get?_spotOf (gray : Gray) {i : Nat} (hi : i < gray.pixels.size) :
    gray.get? (i % gray.width) (i / gray.width) = some gray.pixels[i] := by
  have hsize : i < gray.width * gray.height := gray.size_pixels ▸ hi
  have hwidth : 0 < gray.width := Nat.pos_of_mul_pos_right (Nat.zero_lt_of_lt hsize)
  have hinside : i % gray.width < gray.width ∧ i / gray.width < gray.height :=
    ⟨Nat.mod_lt i hwidth, Nat.div_lt_of_lt_mul hsize⟩
  rw [Raster.get?, if_pos hinside, Nat.div_add_mod', Array.getElem?_eq_getElem hi]

/-- **The detector for single pixels** is one. -/
theorem isPointwise_perPixel (size : UInt8 → Option (Int × Float32)) :
    (perPixel size).IsPointwise size := by
  intro gray scan
  refine ⟨_, rfl, .of_eq ?_⟩
  have hzip : gray.pixels.zipIdx.toList =
      (List.finRange gray.pixels.size).map fun i => (gray.pixels[i], i.val) := by
    refine List.ext_getElem (by simp) fun i hi hi' => ?_
    simp
  have hrange : List.range (gray.width * gray.height) =
      (List.finRange gray.pixels.size).map Fin.val := by
    rw [List.map_coe_finRange_eq_range, gray.size_pixels]
  rw [hzip, List.filterMap_map, marks, Extent.spots, hrange, List.map_map, List.filterMap_map]
  refine List.filterMap_congr fun i _ => ?_
  simp only [Function.comp_apply, markAt, Int.toNat_natCast, get?_spotOf gray i.isLt,
    Option.bind_some]
  rfl

/-- A mark of the turned picture is a mark that has turned. -/
theorem markAt_turned (size : UInt8 → Option (Int × Float32)) (a : RightAngle)
    (h : picture.extent.Contains p) :
    markAt size (a.raster picture).toGray (a.spot picture.extent p) =
      (markAt size picture.toGray p).map (Detection.move (a.spot picture.extent)) := by
  have hbyte := congrArg (Option.map Pixel.luma) (a.get?_raster picture h)
  rw [markAt, markAt, Raster.toGray, Raster.toGray, Raster.get?_map, Raster.get?_map, hbyte]
  cases (picture.get? p.x.toNat p.y.toNat).map Pixel.luma with
  | none => rfl
  | some v =>
    rw [Option.bind_some, Option.bind_some, Option.map_map]
    rfl

/-- **Marks turn with the picture.** -/
theorem marks_turned (size : UInt8 → Option (Int × Float32)) (a : RightAngle)
    (picture : Picture) :
    (marks size (a.raster picture).toGray).Perm
      ((marks size picture.toGray).map (Detection.move (a.spot picture.extent))) := by
  have hextent : (a.raster picture).toGray.extent = a.extent picture.extent :=
    a.extent_raster picture
  have hmarks : (picture.extent.spots.map (a.spot picture.extent)).filterMap
      (markAt size (a.raster picture).toGray) =
      (marks size picture.toGray).map (Detection.move (a.spot picture.extent)) := by
    rw [List.filterMap_map, marks, List.map_filterMap]
    refine List.filterMap_congr fun p hp => ?_
    exact markAt_turned size a (Extent.mem_spots.1 hp)
  rw [← hmarks, marks, hextent]
  exact (a.perm_spots picture.extent).filterMap _

end Detector

end Reframe
