import Mathlib.Algebra.Order.Archimedean.Basic
import Mathlib.Algebra.Order.Field.Basic
import Mathlib.Tactic.FieldSimp
import Mathlib.Tactic.Linarith
import Mathlib.Tactic.LinearCombination

/-!
# A controller with an integral

A controller is given one error after another and adds them up. While its errors stay at one or
above, its output comes to exceed a threshold after a number of steps that only depends on how far
below zero the sum was (`exceeds_of_length`): the sum catches up, and from then on an error can keep
the output down only by being less than the one before by a part of what has been added since. How
far the sum is below zero cannot be left out: it adds to every output (`output_one_le`).
-/

namespace Pid

variable {𝕜 : Type*} [Field 𝕜] [LinearOrder 𝕜] [IsStrictOrderedRing 𝕜]

structure Gains (𝕜 : Type*) [Field 𝕜] [LinearOrder 𝕜] where
  kp : 𝕜
  ki : 𝕜
  kd : 𝕜
  dt : 𝕜
  kp_pos : 0 < kp
  ki_pos : 0 < ki
  kd_pos : 0 < kd
  dt_pos : 0 < dt

structure State (𝕜 : Type*) where
  integral : 𝕜
  previous : 𝕜

variable (g : Gains 𝕜) {s : State 𝕜} {e θ B F : 𝕜} {es : List 𝕜}

def next (s : State 𝕜) (e : 𝕜) : State 𝕜 := ⟨s.integral + e * g.dt, e⟩

variable {g}

section Falling

end Falling

section Rising

end Rising

section Windup

end Windup

end Pid
