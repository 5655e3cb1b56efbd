import Reframe.Proofs.Mean
import Reframe.Proofs.Ranking

/-!
# The heaviest group

An anchor that is found is the mean of a group: of the first one, in the order of the
detections, among the heaviest. Ranking compares weights as patterns of bits and a mean
divides one rounded sum by another, but weights are finite and not below zero, so neither
is ever seen: patterns rank as numbers do, and the mean is a place on the picture.

* `Cluster.Heaviest`: the groups, split at the heaviest.
* `Anchor.exists_heaviest`: an anchor is the mean of the heaviest group.
* `Detection.isMeasured_onAxis`: what a detection can weigh, and where it can lie.
* `Anchor.locate_heaviest`: **where the subject is**, in machine arithmetic and exactly.
-/

namespace Reframe

variable {α : Type} [Scalar α]

/-- The group of the samples at some places of a list. -/
def Group.ofPlaces (samples : List (Sample α)) (part : List (Fin samples.length)) : Group α :=
  ⟨part.map samples.get⟩

/-- The groups of some samples, split at the heaviest. Since groups come in the order of
their first members, it is the first of the heaviest. -/
structure Cluster.Heaviest (samples : List (Sample α)) (threshold : α) where
  before : List (List (Fin samples.length))
  part : List (Fin samples.length)
  after : List (List (Fin samples.length))
  clustered : cluster samples threshold =
    .ok ((before ++ part :: after).map (Group.ofPlaces samples))
  components : IsComponents (linkGraph samples threshold) (before ++ part :: after)
  lighter : ∀ p ∈ before,
    (Group.ofPlaces samples p).weight < (Group.ofPlaces samples part).weight
  not_heavier : ∀ p ∈ after,
    (Group.ofPlaces samples p).weight ≤ (Group.ofPlaces samples part).weight

/-- The heaviest group. -/
def Cluster.Heaviest.group {samples : List (Sample α)} {threshold : α}
    (c : Heaviest samples threshold) : Group α :=
  .ofPlaces samples c.part

/-- Among groups of some samples, and next to one that has weight, ranking is the order of
weights. -/
def RanksGroups (samples : List (Sample α)) : Prop :=
  ∀ g g' : Group α, g.members ⊆ samples → g'.members ⊆ samples → ¬ g.weight ≤ 0.0 →
    (Scalar.rankLe g'.weight g.weight → g'.weight ≤ g.weight) ∧
      (¬ Scalar.rankLe g.weight g'.weight → g'.weight < g.weight)

section Groups

variable {samples : List (Sample α)} {threshold : α} {groups : List (Group α)}
  {anchor : Anchor α} {axis : Axis} {y : α}

omit [Scalar α] in
theorem Group.ofPlaces_subset (samples : List (Sample α)) (part : List (Fin samples.length)) :
    (ofPlaces samples part).members ⊆ samples := by
  intro s hs
  obtain ⟨i, -, rfl⟩ := List.mem_map.1 hs
  exact List.get_mem samples i

/-- A mean that has a place is one of samples with weight. -/
theorem Group.not_weight_le_of_mean {g : Group α} (haxis : OneAxis g.members)
    (h : g.mean = .ok ⟨[y]⟩) : ¬ g.weight ≤ 0.0 :=
  ((weightedMean_axis haxis).1 h).2.1

/-- Only a threshold is accepted. -/
theorem isThreshold_of_cluster (h : cluster samples threshold = .ok groups) :
    IsThreshold threshold := by
  by_contra ht
  rw [cluster, if_pos ht] at h
  cases h

namespace Anchor

/-- What an anchor that is found comes from. -/
theorem of_found (h : ofGroups axis groups = .ok anchor) (hfound : anchor.found) :
    ∃ heaviest rest, Group.rankByWeight groups = heaviest :: rest ∧
      heaviest.mean = .ok ⟨[anchor.position]⟩ := by
  unfold ofGroups at h
  split at h
  · cases h
    cases hfound
  next heaviest rest hrank =>
    obtain ⟨mean, hmean, h⟩ := ok_of_bind h
    split at h
    next position hposition =>
      cases h
      have hmean : heaviest.mean = .ok ⟨mean.coordinates⟩ := hmean
      rw [hposition] at hmean
      exact ⟨heaviest, rest, hrank, hmean⟩
    · cases h
      cases hfound

/-- **An anchor is the mean of the heaviest group**, the first in the order of the samples. -/
theorem exists_heaviest (htrans : ∀ a b c : α, Scalar.rankLe a b → Scalar.rankLe b c →
      Scalar.rankLe a c) (htotal : ∀ a b : α, Scalar.rankLe a b || Scalar.rankLe b a)
    (hranks : RanksGroups samples) (haxis : OneAxis samples)
    (hcluster : cluster samples threshold = .ok groups) (h : ofGroups axis groups = .ok anchor)
    (hfound : anchor.found) :
    ∃ c : Cluster.Heaviest samples threshold, c.group.mean = .ok ⟨[anchor.position]⟩ := by
  obtain ⟨heaviest, rest, hrank, hmean⟩ := of_found h hfound
  obtain ⟨label, hclasses, hlabel⟩ :=
    Cluster.exists_cluster ⟨1, haxis⟩ (isThreshold_of_cluster hcluster)
  have hclasses : cluster samples threshold =
      .ok ((Cluster.classes label (List.finRange samples.length)).map (Group.ofPlaces samples)) :=
    hclasses
  have hgroups := Except.ok.inj (hclasses.symm.trans hcluster)
  -- the first in the ranking, among the parts
  obtain ⟨before, after, hsplit, hbefore, hafter⟩ := descending_eq_cons htrans htotal hrank
  rw [hsplit] at hgroups
  obtain ⟨before, rest', hparts, rfl, hrest⟩ := List.map_eq_append_iff.1 hgroups
  obtain ⟨part, after, rfl, rfl, rfl⟩ := List.map_eq_cons_iff.1 hrest
  have hsubset := Group.ofPlaces_subset samples part
  have hweight := Group.not_weight_le_of_mean (fun s hs => haxis s (hsubset hs)) hmean
  have hagrees := fun p => hranks _ _ hsubset (Group.ofPlaces_subset samples p) hweight
  refine ⟨⟨before, part, after, ?_, ?_, fun p hp => ?_, fun p hp => ?_⟩, hmean⟩
  · rw [hclasses, hparts]
  · rw [← hparts]
    exact Cluster.isComponents_classes hlabel
  · exact (hagrees p).2 (hbefore _ (List.mem_map_of_mem hp))
  · exact (hagrees p).1 (hafter _ (List.mem_map_of_mem hp))

end Anchor

end Groups

section Detections

variable {e : Extent} {axis : Axis} {d : Detection} {detections : List Detection}
  {samples : List (Sample α)}

/-- A fraction of a side is that of a place on the side. -/
theorem fractionOf_eq {length : Nat} (hpos : 0 < length) (x : Int) :
    ∃ k : Int, 0 ≤ k ∧ k ≤ length ∧
      (fractionOf length x : α) = Scalar.ofInt k / Scalar.ofInt length := by
  have hlast : Whole.clampInt 0 (length - 1 : Nat) x ≤ (length - 1 : Nat) :=
    Whole.clampInt_le (Int.natCast_nonneg _) x
  exact ⟨_, Whole.le_clampInt _ _ _, by omega, rfl⟩

/-- Only a detection in a frame with pixels, and with a weight, becomes a sample. -/
theorem Detection.of_sampleOn {s : Sample α} (h : d.sampleOn e axis = .ok s) :
    ¬ e.IsEmpty ∧ Sample.IsWeight (d.weight : α) := by
  by_contra hbad
  have hsample : ∃ failure : Failure α, d.sample e = .error failure := by
    unfold Detection.sample Sample.ofWeight
    by_cases he : e.IsEmpty
    · exact ⟨_, if_pos he⟩
    · refine ⟨.badWeight d.weight, ?_⟩
      rw [if_neg he, if_neg fun hd => hbad ⟨he, hd⟩]
  obtain ⟨failure, hfailure⟩ := hsample
  rw [Detection.sampleOn, hfailure] at h
  cases h

/-- The samples that detections become. -/
theorem Detection.of_samplesOn (h : detections.mapM (·.sampleOn e axis) = .ok samples) :
    samples = samplesOn e axis detections ∧
      ∀ d ∈ detections, ¬ e.IsEmpty ∧ Sample.IsWeight (d.weight : α) := by
  have hgood : ∀ d ∈ detections, ¬ e.IsEmpty ∧ Sample.IsWeight (d.weight : α) := fun d hd =>
    have ⟨s, hs⟩ := exists_of_mapM_eq_ok h d hd
    of_sampleOn hs
  exact ⟨Except.ok.inj (h.symm.trans (samplesOn_eq_ok hgood)), hgood⟩

/-- Where an anchor comes from: samples of detections, and the mean of their heaviest
group. -/
structure Anchor.Source (e : Extent) (ratio threshold : α) (detections : List Detection)
    (anchor : Anchor α) where
  samples : List (Sample α)
  projected : detections.mapM (·.sampleOn e (Axis.dominant e ratio)) = .ok samples
  heaviest : Cluster.Heaviest samples threshold
  mean : heaviest.group.mean = .ok ⟨[anchor.position]⟩

/-- The members of the group that the anchor is the mean of. -/
def Anchor.Source.members {ratio threshold : α} {anchor : Anchor α}
    (source : Source e ratio threshold detections anchor) : List (Sample α) :=
  source.heaviest.group.members

theorem Anchor.Source.exists_onAxis {ratio threshold : α} {anchor : Anchor α}
    (source : Source e ratio threshold detections anchor) {s : Sample α}
    (hs : s ∈ source.members) : ∃ d ∈ detections, ¬ e.IsEmpty ∧
      Sample.IsWeight (d.weight : α) ∧ s = d.onAxis e (Axis.dominant e ratio) := by
  obtain ⟨hsamples, hgood⟩ := Detection.of_samplesOn source.projected
  have hmem : s ∈ source.samples := Group.ofPlaces_subset _ _ hs
  rw [hsamples] at hmem
  obtain ⟨d, hd, rfl⟩ := List.mem_map.1 hmem
  exact ⟨d, hd, (hgood d hd).1, (hgood d hd).2, rfl⟩

theorem Anchor.Source.oneAxis {ratio threshold : α} {anchor : Anchor α}
    (source : Source e ratio threshold detections anchor) : OneAxis source.members := by
  intro s hs
  obtain ⟨d, -, -, -, rfl⟩ := source.exists_onAxis hs
  rfl

/-- **An anchor that is found has a source**, if ranking is the order of weights. -/
theorem Anchor.exists_source {ratio threshold : α} {anchor : Anchor α}
    (htrans : ∀ a b c : α, Scalar.rankLe a b → Scalar.rankLe b c → Scalar.rankLe a c)
    (htotal : ∀ a b : α, Scalar.rankLe a b || Scalar.rankLe b a)
    (hranks : (∀ d ∈ detections, ¬ e.IsEmpty ∧ Sample.IsWeight (d.weight : α)) →
      RanksGroups (Detection.samplesOn e (Axis.dominant e ratio) detections : List (Sample α)))
    (h : (locate e ratio threshold detections).result = .ok anchor) (hfound : anchor.found) :
    Nonempty (Source e ratio threshold detections anchor) := by
  obtain ⟨groups, hgroups, hanchor⟩ := exists_groups h
  obtain ⟨samples, hsamples, hcluster⟩ := ok_of_bind hgroups
  obtain ⟨rfl, hgood⟩ := Detection.of_samplesOn hsamples
  obtain ⟨heaviest, hmean⟩ := exists_heaviest htrans htotal (hranks hgood)
    (Detection.dimension_samplesOn _ _ _) hcluster hanchor hfound
  exact ⟨_, hsamples, heaviest, hmean⟩

/-- If the group that is ranked first has a mean, then that is the anchor. -/
theorem Anchor.ofGroups_of_mean {groups rest : List (Group α)} {heaviest : Group α} {y : α}
    (hrank : Group.rankByWeight groups = heaviest :: rest) (hmean : heaviest.mean = .ok ⟨[y]⟩)
    (axis : Axis) : ofGroups axis groups = .ok ⟨y, true, axis⟩ := by
  unfold ofGroups
  rw [hrank]
  dsimp only
  rw [hmean]
  rfl

/-- Groups that come heaviest first are ranked as they come. -/
theorem Anchor.locate_of_ranked {ratio threshold y : α} {heaviest : Group α}
    {rest : List (Group α)}
    (hgroups : groupsOn (Axis.dominant e ratio) e threshold detections = .ok (heaviest :: rest))
    (hranked : (heaviest :: rest).Pairwise fun g g' => Scalar.rankLe g'.weight g.weight)
    (hmean : heaviest.mean = .ok ⟨[y]⟩) :
    (locate e ratio threshold detections).result = .ok ⟨y, true, Axis.dominant e ratio⟩ := by
  have hrank : Group.rankByWeight (heaviest :: rest) = heaviest :: rest :=
    List.mergeSort_of_pairwise hranked
  unfold locate
  extract_lets axis
  rw [hgroups]
  exact ofGroups_of_mean hrank hmean axis

/-- A lone detection is the one group. -/
theorem Anchor.groupsOn_lone {threshold : α} (he : ¬ e.IsEmpty) (ht : IsThreshold threshold)
    (hd : Sample.IsWeight (d.weight : α)) :
    groupsOn axis e threshold [d] = .ok [⟨[d.onAxis e axis]⟩] := by
  rw [groupsOn, List.mapM_cons, List.mapM_nil, Detection.sampleOn_eq_ok he hd]
  change cluster [d.onAxis e axis] threshold = _
  rw [cluster, if_neg (not_not.2 ht)]
  rfl

end Detections

section Machine

open Binary

variable {e : Extent} {axis : Axis} {d : Detection} {samples : List (Sample Float)}

/-- **Weights of groups are ranked as numbers.** -/
theorem ranksGroups_machine (hmeasured : ∀ s ∈ samples, s.IsMeasured (2 ^ 159)) :
    RanksGroups samples := by
  intro g g' hg hg' hpos
  obtain ⟨-, v, -, hv, -, -⟩ := exists_moment_le absorbs_large fun s hs => hmeasured s (hg hs)
  obtain ⟨-, v', -, hv', -, -⟩ := exists_moment_le absorbs_large fun s hs => hmeasured s (hg' hs)
  have hv : Amount g.weight v := hv
  have hv' : Amount g'.weight v' := hv'
  have hpos : 0 < v := by rwa [hv.le_iff amount_zero, not_le] at hpos
  rw [hv'.rankLe_iff hv (.inr hpos), hv.rankLe_iff hv' (.inl hpos), hv'.le_iff hv, hv'.lt_iff hv,
    not_le]
  exact ⟨id, id⟩

/-- A place on a side is a part of the side. -/
theorem exists_fractionOf {length : Nat} (hpos : 0 < length) (hle : length ≤ maxSide) (x : Int) :
    ∃ r, Amount (fractionOf length x) r ∧ r ≤ 1 := by
  obtain ⟨k, hk0, hk1, hfraction⟩ := fractionOf_eq (α := Float) hpos x
  have hside : length < 2 ^ 53 := Nat.lt_of_le_of_lt hle (by decide)
  have hk : |k| < 2 ^ 53 := by
    rw [abs_of_nonneg hk0]
    omega
  have hplace : Amount (Scalar.ofInt k) k := ⟨denotes_ofInt hk, by exact_mod_cast hk0⟩
  have hlength : Amount (Scalar.ofInt length) length := ⟨denotes_ofNat hside, Nat.cast_nonneg _⟩
  rw [hfraction]
  exact hplace.exists_div_le hlength (by exact_mod_cast hpos) (by exact_mod_cast hk1)

/-- **How much a detection can weigh**: a scale of 32 bits times a quality of 32 bits. -/
theorem Detection.exists_weight (hscale : |d.scale| ≤ 2 ^ 31)
    (hd : Sample.IsWeight (d.weight : Float)) : ∃ w, Amount (d.weight : Float) w ∧ w ≤ 2 ^ 159 := by
  obtain ⟨hfinite, hneg⟩ := hd
  have hfinite : (d.weight : Float).toModel.unpack.isFinite = true := hfinite
  obtain ⟨w, hw⟩ := exists_amount hfinite hneg
  have hquality : (widen d.quality).toModel.unpack.isFinite :=
    (isFinite_of_mul (isFinite_of_pack hfinite)).2
  obtain ⟨q, hq, hq1⟩ := exists_widen hquality
  have hround : IsNearest (d.weight : Float) (d.scale * q) := (denotes_ofInt (by omega)).mul hq
  have hlarge : magnitude 1 159 = 2 ^ 159 := by norm_num [magnitude]
  have hbound : |d.scale * q| ≤ magnitude 1 159 := by
    have hscale : |(d.scale : ℚ)| ≤ 2 ^ 31 := by exact_mod_cast hscale
    rw [hlarge, abs_mul]
    calc |(d.scale : ℚ)| * |q| ≤ 2 ^ 31 * 2 ^ 128 :=
          mul_le_mul hscale hq1 (abs_nonneg q) (by positivity)
      _ = 2 ^ 159 := by norm_num
  obtain ⟨y, hy, hle, -⟩ := hround.exists_abs_le (by decide) (by decide) (by decide) hbound
  obtain rfl : y = w := hy.eq hw.denotes
  exact ⟨y, hw, (le_abs_self y).trans (hle.trans_eq hlarge)⟩

/-- **What a detection becomes** lies on the picture, and has a weight that sums absorb. -/
theorem Detection.isMeasured_onAxis (hw : e.width ≤ maxSide) (hh : e.height ≤ maxSide)
    (hscale : |d.scale| ≤ 2 ^ 31) (he : ¬ e.IsEmpty) (hd : Sample.IsWeight (d.weight : Float)) :
    (d.onAxis e axis : Sample Float).IsMeasured (2 ^ 159) := by
  obtain ⟨hwidth, hheight⟩ := Extent.sides_pos he
  refine ⟨?_, exists_weight hscale hd⟩
  cases axis with
  | horizontal => exact exists_fractionOf hwidth hw d.spot.x
  | vertical => exact exists_fractionOf hheight hh d.spot.y

end Machine

section Exact

variable {e : Extent} {axis : Axis} {d : Detection}

theorem isFraction_fractionOf {length : Nat} (hpos : 0 < length) (x : Int) :
    IsFraction (fractionOf length x : ℝ) := by
  obtain ⟨k, hk0, hk1, hfraction⟩ := fractionOf_eq (α := ℝ) hpos x
  have hone : (1.0 : ℝ) = 1 := by norm_num
  have hlength : (0 : ℝ) < ((length : Int) : ℝ) := by exact_mod_cast hpos
  have hplace : (fractionOf length x : ℝ) = (k : ℝ) / ((length : Int) : ℝ) := hfraction
  rw [IsFraction, hplace, zero_real, hone]
  exact ⟨div_nonneg (by exact_mod_cast hk0) hlength.le,
    (div_le_one hlength).2 (by exact_mod_cast hk1)⟩

theorem Detection.isFraction_onAxis (he : ¬ e.IsEmpty) :
    IsFraction (d.onAxis e axis : Sample ℝ).place := by
  obtain ⟨hwidth, hheight⟩ := Extent.sides_pos he
  cases axis with
  | horizontal => exact isFraction_fractionOf hwidth d.spot.x
  | vertical => exact isFraction_fractionOf hheight d.spot.y

/-- Over the reals a detection of quality 1 weighs as much as its scale. -/
theorem Detection.weight_real (h : d.quality = Float32.ofBits 0x3F800000) :
    (d.weight : ℝ) = d.scale := by
  have hquality : (Scalar.ofSingle (Float32.ofBits 0x3F800000) : ℝ) =
      (Binary.magnitude (2 ^ 23) (-23) : ℚ) := rfl
  have hone : Binary.magnitude (2 ^ 23) (-23) = 1 := by norm_num [Binary.magnitude]
  rw [weight, h, hquality, hone, Rat.cast_one, mul_one]
  rfl

theorem rankLe_trans_real (a b c : ℝ) (hab : Scalar.rankLe a b) (hbc : Scalar.rankLe b c) :
    Scalar.rankLe a c := by
  have hab : a ≤ b := of_decide_eq_true hab
  have hbc : b ≤ c := of_decide_eq_true hbc
  exact decide_eq_true (hab.trans hbc)

theorem rankLe_total_real (a b : ℝ) : Scalar.rankLe a b || Scalar.rankLe b a := by
  rw [Bool.or_eq_true]
  exact (le_total a b).imp decide_eq_true decide_eq_true

theorem ranksGroups_exact (samples : List (Sample ℝ)) : RanksGroups samples := by
  intro g g' _ _ _
  refine ⟨of_decide_eq_true, fun h => ?_⟩
  exact lt_of_not_ge fun hle => h (decide_eq_true hle)

end Exact

/-- **Where the subject is.** An anchor that is found is the weighted mean of a group of the
clustering, of the heaviest one, and of the first of these if there are several. It is a
fraction of the side, both in machine arithmetic, where the sums and their quotient are
rounded, and in exact arithmetic. The exact mean of the group lies between the places of
members that have weight. Sides and scales are what 32 bits can hold. -/
theorem Anchor.locate_heaviest {e : Extent} {detections : List Detection}
    (hw : e.width ≤ maxSide) (hh : e.height ≤ maxSide)
    (hscale : ∀ d ∈ detections, |d.scale| ≤ 2 ^ 31) :
    (∀ (ratio threshold : Float) (anchor : Anchor Float),
      (locate e ratio threshold detections).result = .ok anchor → anchor.found →
      IsFraction anchor.position ∧ ∃ source : Source e ratio threshold detections anchor,
        ∃ mean, weightedMean (source.members.map Sample.exact) = .ok ⟨[mean]⟩ ∧
          IsAmong (source.members.map Sample.exact) mean) ∧
    ∀ (ratio threshold : ℝ) (anchor : Anchor ℝ),
      (locate e ratio threshold detections).result = .ok anchor → anchor.found →
      IsFraction anchor.position ∧ ∃ source : Source e ratio threshold detections anchor,
        IsAmong source.members anchor.position := by
  constructor
  · intro ratio threshold anchor h hfound
    have hmeasured : ∀ d ∈ detections, ¬ e.IsEmpty → Sample.IsWeight (d.weight : Float) →
        (d.onAxis e (Axis.dominant e ratio) : Sample Float).IsMeasured (2 ^ 159) :=
      fun d hd he hweight => d.isMeasured_onAxis hw hh (hscale d hd) he hweight
    obtain ⟨source⟩ := exists_source Binary.rankLe_trans Binary.rankLe_total
      (fun hgood => ranksGroups_machine fun s hs => by
        obtain ⟨d, hd, rfl⟩ := List.mem_map.1 hs
        exact hmeasured d hd (hgood d hd).1 (hgood d hd).2) h hfound
    have hmembers : ∀ s ∈ source.members, s.IsMeasured (2 ^ 159) := by
      intro s hs
      obtain ⟨d, hd, he, hweight, rfl⟩ := source.exists_onAxis hs
      exact hmeasured d hd he hweight
    exact ⟨isFraction_weightedMean source.oneAxis hmembers source.mean, source,
      Sample.exists_exact_mean source.oneAxis hmembers source.mean⟩
  · intro ratio threshold anchor h hfound
    obtain ⟨source⟩ := exists_source rankLe_trans_real rankLe_total_real
      (fun _ => ranksGroups_exact _) h hfound
    have hmembers : ∀ s ∈ source.members, IsFraction s.place ∧ 0 ≤ s.weight := by
      intro s hs
      obtain ⟨d, -, he, hweight, rfl⟩ := source.exists_onAxis hs
      refine ⟨d.isFraction_onAxis he, ?_⟩
      have hnonneg : ¬ (d.weight : ℝ) < 0.0 := hweight.2
      rwa [zero_real, not_lt] at hnonneg
    have hamong := isAmong_weightedMean source.oneAxis (fun s hs => (hmembers s hs).2) source.mean
    exact ⟨isFraction_of_isAmong (fun s hs => (hmembers s hs).1) hamong, source, hamong⟩

/-- Two detections of the same weight, too far apart to be linked. -/
def tied : List Detection :=
  [⟨⟨1, 1⟩, 2, Float32.ofBits 0x3F800000⟩, ⟨⟨6, 2⟩, 2, Float32.ofBits 0x3F800000⟩]

theorem weight_tied : ((tied[0]).weight : ℝ) = 2 := by
  rw [Detection.weight_real rfl]
  norm_num [tied]

theorem Anchor.locate_tied :
    (locate ⟨8, 4⟩ (1.0 : Float) 0.05 tied).result = .ok ⟨0.125, true, .horizontal⟩ := by
  have hgroups : groupsOn (Axis.dominant ⟨8, 4⟩ (1.0 : Float)) ⟨8, 4⟩ (0.05 : Float) tied =
      .ok [⟨[⟨⟨[0.125]⟩, 2.0⟩]⟩, ⟨[⟨⟨[0.75]⟩, 2.0⟩]⟩] := by decide +kernel
  exact locate_of_ranked hgroups (by decide +kernel) (by decide +kernel)

theorem Anchor.locate_lone : ∃ anchor : Anchor ℝ,
    (locate ⟨8, 4⟩ (1.0 : ℝ) 0.05 [tied[0]]).result = .ok anchor ∧ anchor.found := by
  let s : Sample ℝ := (tied[0]).onAxis ⟨8, 4⟩ (Axis.dominant ⟨8, 4⟩ (1.0 : ℝ))
  have hthreshold : IsThreshold (0.05 : ℝ) := ⟨rfl, by norm_num⟩
  have hweight : Sample.IsWeight ((tied[0]).weight : ℝ) := ⟨rfl, by norm_num [weight_tied]⟩
  have hpos : ¬ Sample.totalWeight [s] ≤ 0.0 := by
    have htotal : Sample.totalWeight [s] = 2 := by
      rw [totalWeight_real, List.map_singleton, List.sum_singleton]
      exact weight_tied
    rw [htotal]
    norm_num
  have haxis : OneAxis [s] := List.forall_mem_singleton.2 rfl
  have hmean := (weightedMean_axis haxis).2 ⟨List.cons_ne_nil _ _, hpos, rfl⟩
  exact ⟨_, locate_of_ranked (groupsOn_lone (by decide) hthreshold hweight)
    (List.pairwise_singleton _ _) hmean, rfl⟩

/-- Of two detections of the same weight the machine takes the first; over the reals the
first alone is taken. -/
theorem Anchor.locate_heaviest_tied :
    ((8 ≤ maxSide ∧ 4 ≤ maxSide) ∧ ∀ d ∈ tied, |d.scale| ≤ 2 ^ 31) ∧
    (IsFraction (0.125 : Float) ∧
      ∃ source : Source ⟨8, 4⟩ (1.0 : Float) 0.05 tied ⟨0.125, true, .horizontal⟩,
        ∃ mean, weightedMean (source.members.map Sample.exact) = .ok ⟨[mean]⟩ ∧
          IsAmong (source.members.map Sample.exact) mean) ∧
    ∃ anchor : Anchor ℝ, IsFraction anchor.position ∧
      ∃ source : Source ⟨8, 4⟩ (1.0 : ℝ) 0.05 [tied[0]] anchor,
        IsAmong source.members anchor.position := by
  have hsides : 8 ≤ maxSide ∧ 4 ≤ maxSide := by decide
  have hscale : ∀ d ∈ tied, |d.scale| ≤ 2 ^ 31 := by decide
  have hfirst : ∀ d ∈ [tied[0]], |d.scale| ≤ 2 ^ 31 := by decide
  have hmachine := (locate_heaviest hsides.1 hsides.2 hscale).1 _ _ _ locate_tied rfl
  obtain ⟨anchor, hanchor, hfound⟩ := locate_lone
  have hexact := (locate_heaviest hsides.1 hsides.2 hfirst).2 _ _ _ hanchor hfound
  exact ⟨⟨hsides, hscale⟩, hmachine, anchor, hexact⟩

end Reframe
