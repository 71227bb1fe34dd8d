import Mathlib.Algebra.BigOperators.Group.List.Basic
import Mathlib.Tactic.Ring

/-!
# Shares of a whole, rounded down

A whole number is divided in the proportion of a list of numbers, each share rounded down. The
shares do not exceed the whole (`sum_share_le`), and what rounding leaves is less than one for each of
them (`lt_sum_share_add`).
-/

namespace Shares

variable {whole total a a' : ℕ} {as : List ℕ}

/-- The share of `a` among numbers with this total. -/
def share (whole total a : ℕ) : ℕ := whole * a / total

theorem share_mono (h : a ≤ a') : share whole total a ≤ share whole total a' :=
  Nat.div_le_div_right (Nat.mul_le_mul_left whole h)

theorem share_self (h : 0 < a) : share whole a a = whole := Nat.mul_div_cancel whole h

theorem mul_sum_share_le (whole total : ℕ) (as : List ℕ) :
    total * (as.map (share whole total)).sum ≤ whole * as.sum := by
  induction as with
  | nil => simp
  | cons a as ih =>
    have hshare : total * share whole total a ≤ whole * a := Nat.mul_div_le (whole * a) total
    rw [List.map_cons, List.sum_cons, List.sum_cons, Nat.mul_add, Nat.mul_add]
    omega

theorem le_mul_sum_share (ht : 0 < total) (as : List ℕ) :
    whole * as.sum + as.length ≤ total * ((as.map (share whole total)).sum + as.length) := by
  induction as with
  | nil => simp
  | cons a as ih =>
    have hshare : whole * a < total * share whole total a + total :=
      Nat.lt_mul_div_succ (whole * a) ht
    have hsplit : total * ((share whole total a + (as.map (share whole total)).sum) + (as.length + 1))
        = (total * share whole total a + total)
          + total * ((as.map (share whole total)).sum + as.length) := by ring
    rw [List.map_cons, List.sum_cons, List.sum_cons, List.length_cons, hsplit, Nat.mul_add]
    omega

theorem sum_share_le (h : 0 < as.sum) : (as.map (share whole as.sum)).sum ≤ whole := by
  have hle := mul_sum_share_le whole as.sum as
  rw [Nat.mul_comm whole] at hle
  exact Nat.le_of_mul_le_mul_left hle h

theorem lt_sum_share_add (h : 0 < as.sum) :
    whole < (as.map (share whole as.sum)).sum + as.length := by
  have hlength : 0 < as.length := by
    rw [List.length_pos_iff]
    rintro rfl
    exact absurd h (by decide)
  have hle : whole * as.sum + as.length
      ≤ as.sum * ((as.map (share whole as.sum)).sum + as.length) := le_mul_sum_share h as
  rw [Nat.mul_comm whole] at hle
  exact Nat.lt_of_mul_lt_mul_left (a := as.sum) (by omega)

end Shares
