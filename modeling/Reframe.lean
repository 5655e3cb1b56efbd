import Reframe.Pool.Course
import Reframe.Proofs.Anchor.Found
import Reframe.Proofs.Anchor.Heaviest
import Reframe.Proofs.Crop.Inside
import Reframe.Proofs.Locator.Axis
import Reframe.Proofs.Locator.Fallback
import Reframe.Proofs.Locator.Strategies
import Reframe.Proofs.Pool.FanOut
import Reframe.Proofs.Pool.Nested
import Reframe.Proofs.Pool.Poison
import Reframe.Proofs.Survey.Blame
import Reframe.Proofs.Survey.Origin
import Reframe.Proofs.Survey.Presets
import Reframe.Proofs.Turn.RightAngle
import Reframe.Proofs.Turn.RoundTrip
import Reframe.Proofs.Cluster.Gaps
import Reframe.Proofs.Anchor.Reordered
import Reframe.Proofs.Anchor.Refusal
import Reframe.Proofs.Crop.Largest
import Reframe.Proofs.Mean.Laws
import Reframe.Proofs.Ranking.Lexicographic
import Reframe.Proofs.Crop.Centred
import Reframe.Proofs.Turn.Source
import Reframe.Proofs.Anchor.Shifted
import Reframe.Proofs.Cluster.Mismatch
import Reframe.Proofs.Cluster.History
import Reframe.Proofs.Angle
import Reframe.Proofs.Number.Root
import Reframe.Proofs.Number.Product
import Reframe.Proofs.Distance
import Reframe.Proofs.Mean.Lone
