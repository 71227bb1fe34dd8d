import Mathlib.Algebra.Order.Ring.Rat
import Mathlib.Data.List.Sort

/-!
# Change points of a series

`src/performance/edm.ts`. The energy statistic is of exact numbers. The search for change points has
the statistic, the comparison of its values, and the threshold of a segment for parameters, so that
they may be those of the language's numbers, `NaN` among them. How deep the search may call itself
is bounded; a search that needs more has no result.
-/

namespace VeriNode

namespace Edm

section Statistic

/-- The median of a sample that is not empty. -/
def median (arr : List ℚ) : ℚ :=
  let sorted := arr.insertionSort (· ≤ ·)
  let mid := sorted.length / 2
  if sorted.length % 2 = 0 then (sorted.getD (mid - 1) 0 + sorted.getD mid 0) / 2
  else sorted.getD mid 0

/-- The distances of the pairs of different places. -/
def pairSum : List ℚ → ℚ
  | [] => 0
  | a :: arr => (arr.map fun b => |a - b|).sum + pairSum arr

def withinDispersion (arr : List ℚ) : ℚ :=
  if arr.length ≤ 1 then 0
  else if arr.length ≤ 200 then 2 * pairSum arr / (arr.length * arr.length)
  else
    let med := median arr
    median (arr.map fun v => |v - med|)

def energyStatistic (x y : List ℚ) : ℚ :=
  if x.length = 0 ∨ y.length = 0 then 0
  else
    let crossDist :=
      if x.length * y.length ≤ 10000 then
        (x.map fun a => (y.map fun b => |a - b|).sum).sum / (x.length * y.length)
      else |median x - median y|
    2 * crossDist - withinDispersion x - withinDispersion y

end Statistic

section Search

variable {α ν : Type*} (energyStatistic : List α → List α → ν) (lt : ν → ν → Bool)
variable (negInfinity : ν) (threshold : ℕ → ν) (minSize : ℕ)

/-- `series.slice(start, stop)`. -/
def slice (series : List α) (start stop : ℕ) : List α := (series.drop start).take (stop - start)

/-- The split with the most energy so far, if any, and its energy. -/
def better (series : List α) (start stop : ℕ) (best : Option ℕ × ν) (split : ℕ) : Option ℕ × ν :=
  let e := energyStatistic (slice series start split) (slice series split stop)
  if lt best.2 e then (some split, e) else best

/-- The splits that leave `minSize` on both sides. -/
def splits (start stop : ℕ) : List ℕ :=
  List.range' (start + minSize) (stop - minSize + 1 - (start + minSize))

def bestSplit (series : List α) (start stop : ℕ) : Option ℕ × ν :=
  (splits minSize start stop).foldl (better energyStatistic lt series start stop)
    (none, negInfinity)

def searchSegment (series : List α) : ℕ → ℕ → ℕ → List ℕ → Option (List ℕ)
  | 0, _, _, _ => none
  | depth + 1, start, stop, results =>
    let segLen := stop - start
    if segLen < 2 * minSize then some results
    else
      match bestSplit energyStatistic lt negInfinity minSize series start stop with
      | (none, _) => some results
      | (some best, bestEnergy) =>
        if lt bestEnergy (threshold segLen) then some results
        else
          (searchSegment series depth start best (results ++ [best])).bind
            (searchSegment series depth best stop)

def findChangePoints (depth : ℕ) (series : List α) : Option (List ℕ) :=
  let results :=
    searchSegment energyStatistic lt negInfinity threshold minSize series depth 0 series.length []
  results.map fun results => results.insertionSort (· ≤ ·)

end Search

end Edm

end VeriNode
