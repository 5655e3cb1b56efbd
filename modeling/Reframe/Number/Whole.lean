/-!
# Whole numbers out of a rounding

Rounding a machine number gives an integer, unless the number is infinite or not
a number at all. `Whole` keeps the four cases apart, and `Whole.clamp` brings
them into an interval of integers: what lies beyond all integers goes to the
nearer end, and what is no number counts as 0.

* `Whole.le_clamp`, `Whole.clamp_le`: the result lies in the interval.
* `Whole.clamp_of_mem`: an integer of the interval is left alone.
-/

namespace Reframe

/-- What rounding a number to an integer can give. -/
inductive Whole where
  | int (n : Int)
  | low
  | high
  | undefined
  deriving DecidableEq, Repr

namespace Whole

/-- The member of `lo .. hi` nearest to an integer. -/
def clampInt (lo hi n : Int) : Int :=
  max lo (min hi n)

/-- The nearest member of `lo .. hi`; what is no number counts as 0. -/
def clamp (lo hi : Int) : Whole → Int
  | int n => clampInt lo hi n
  | low => clampInt lo hi lo
  | high => clampInt lo hi hi
  | undefined => clampInt lo hi 0

theorem le_clampInt (lo hi n : Int) : lo ≤ clampInt lo hi n := by
  unfold clampInt; omega

theorem clampInt_le {lo hi : Int} (h : lo ≤ hi) (n : Int) : clampInt lo hi n ≤ hi := by
  unfold clampInt; omega

theorem clampInt_of_mem {lo hi n : Int} (hlo : lo ≤ n) (hhi : n ≤ hi) : clampInt lo hi n = n := by
  unfold clampInt; omega

theorem clampInt_mono (lo hi : Int) {m n : Int} (h : m ≤ n) :
    clampInt lo hi m ≤ clampInt lo hi n := by
  unfold clampInt; omega

theorem le_clamp (lo hi : Int) (w : Whole) : lo ≤ w.clamp lo hi := by
  cases w <;> exact le_clampInt ..

theorem clamp_le {lo hi : Int} (h : lo ≤ hi) (w : Whole) : w.clamp lo hi ≤ hi := by
  cases w <;> exact clampInt_le h _

theorem clamp_of_mem {lo hi n : Int} (hlo : lo ≤ n) (hhi : n ≤ hi) :
    (int n).clamp lo hi = n :=
  clampInt_of_mem hlo hhi

end Whole

end Reframe
