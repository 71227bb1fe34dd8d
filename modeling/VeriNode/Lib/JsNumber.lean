import Mathlib.Data.Rat.Lemmas
import Mathlib.Algebra.Order.Ring.Rat
import Mathlib.Data.Nat.Cast.Order.Ring
import Mathlib.Tactic.NormNum
import Mathlib.Algebra.Order.Floor.Ring
import Mathlib.Data.Int.Log
import Mathlib.Data.Rat.Floor

/-!
# Numbers of the language

A `number` is a double: not a number, an infinity, or a rational value. Comparisons with `NaN`
are false, and `NaN` is not `===` to itself. Differences are taken exactly; a double rounds
monotonically and has every integer up to `2 ^ 53`, so the comparison of a difference with such
an integer is the one the program makes. A `protocol number`, a non-negative safe integer, is a
natural number below `2 ^ 53` (`isProtocol_iff`).
-/

/-- A double-precision number, by its value. -/
inductive JsNumber
  | nan
  | negInf
  | posInf
  | fin (q : ℚ)
deriving DecidableEq

namespace JsNumber

instance : Inhabited JsNumber := ⟨.fin 0⟩

/-- The number a natural number is. -/
def ofNat (n : ℕ) : JsNumber := .fin n

instance (n : ℕ) : OfNat JsNumber n := ⟨ofNat n⟩

/-- `Number.MAX_SAFE_INTEGER`. -/
def maxSafe : ℕ := 2 ^ 53 - 1

/-- `a < b`. -/
def lt : JsNumber → JsNumber → Bool
  | .fin a, .fin b => a < b
  | .negInf, .fin _ => true
  | .negInf, .posInf => true
  | .fin _, .posInf => true
  | _, _ => false

/-- `a === b`. -/
def strictEq : JsNumber → JsNumber → Bool
  | .nan, _ => false
  | a, b => a = b

/-- `a <= b`. -/
def le (a b : JsNumber) : Bool := a.lt b || a.strictEq b

/-- `a - b`. -/
def sub : JsNumber → JsNumber → JsNumber
  | .fin a, .fin b => .fin (a - b)
  | .nan, _ => .nan
  | _, .nan => .nan
  | .posInf, .posInf => .nan
  | .negInf, .negInf => .nan
  | .posInf, _ => .posInf
  | .negInf, _ => .negInf
  | _, .posInf => .negInf
  | _, .negInf => .posInf

/-- `Number.isSafeInteger(a)`. -/
def isSafeInteger : JsNumber → Bool
  | .fin q => q.den = 1 && q.num.natAbs ≤ maxSafe
  | _ => false

/-- A non-negative safe integer. -/
def isProtocol (a : JsNumber) : Bool := a.isSafeInteger && !a.lt 0

/-- `a === b` where either may be `undefined`. -/
def optStrictEq : Option JsNumber → Option JsNumber → Bool
  | none, none => true
  | some a, some b => a.strictEq b
  | _, _ => false

theorem ofNat_eq (n : ℕ) : (OfNat.ofNat n : JsNumber) = ofNat n := rfl

@[simp] theorem ofNat_inj {m n : ℕ} : ofNat m = ofNat n ↔ m = n := by
  simp [ofNat]

theorem fin_lt_fin {p q : ℚ} : (fin p).lt (fin q) = decide (p < q) := rfl

theorem ofNat_lt_ofNat {m n : ℕ} : (ofNat m).lt (ofNat n) = decide ((m : ℚ) < (n : ℚ)) := rfl

theorem isSafeInteger_iff {a : JsNumber} :
    a.isSafeInteger = true ↔ ∃ z : ℤ, a = .fin z ∧ z.natAbs ≤ maxSafe := by
  rcases a with _ | _ | _ | q
  · simp [isSafeInteger]
  · simp [isSafeInteger]
  · simp [isSafeInteger]
  · simp only [isSafeInteger, Bool.and_eq_true, decide_eq_true_eq]
    constructor
    · rintro ⟨hd, hn⟩
      exact ⟨q.num, by rw [Rat.den_eq_one_iff q |>.1 hd], hn⟩
    · rintro ⟨z, hz, hn⟩
      simp only [fin.injEq] at hz
      subst hz
      exact ⟨Rat.den_intCast z, by simpa using hn⟩

theorem isProtocol_iff {a : JsNumber} :
    a.isProtocol = true ↔ ∃ n : ℕ, a = ofNat n ∧ n ≤ maxSafe := by
  simp only [isProtocol, Bool.and_eq_true, isSafeInteger_iff, Bool.not_eq_true']
  constructor
  · rintro ⟨⟨z, rfl, hz⟩, h0⟩
    rw [ofNat_eq] at h0
    have h0' : ¬ ((z : ℚ) < ((0 : ℕ) : ℚ)) := of_decide_eq_false h0
    have hz0 : 0 ≤ z := by
      have := not_lt.1 h0'
      exact_mod_cast this
    obtain ⟨n, rfl⟩ := Int.eq_ofNat_of_zero_le hz0
    exact ⟨n, by simp [ofNat], by simpa using hz⟩
  · rintro ⟨n, rfl, hn⟩
    refine ⟨⟨n, by simp [ofNat], by simpa using hn⟩, ?_⟩
    rw [ofNat_eq, ofNat_lt_ofNat]
    simp

@[simp] theorem lt_ofNat {m n : ℕ} : (ofNat m).lt (ofNat n) = true ↔ m < n := by
  simp [ofNat_lt_ofNat]

@[simp] theorem strictEq_ofNat {m n : ℕ} : (ofNat m).strictEq (ofNat n) = true ↔ m = n := by
  simp [strictEq, ofNat]

@[simp] theorem le_ofNat {m n : ℕ} : (ofNat m).le (ofNat n) = true ↔ m ≤ n := by
  simp [le, Nat.le_iff_lt_or_eq]

theorem not_lt_of_le {a b : JsNumber} (h : a.le b = true) : b.lt a = false := by
  rcases a with _ | _ | _ | p <;> rcases b with _ | _ | _ | q <;>
    simp_all [le, lt, strictEq]
  rcases h with h | h
  · exact h.le
  · exact h.le

theorem sub_lt_ofNat {m n k : ℕ} : ((ofNat m).sub (ofNat n)).lt (ofNat k) = true ↔ m < n + k := by
  show decide ((m : ℚ) - n < k) = true ↔ m < n + k
  rw [decide_eq_true_eq, sub_lt_iff_lt_add, add_comm (k : ℚ)]
  exact_mod_cast Iff.rfl

@[simp] theorem le_fin {p q : ℚ} : (fin p).le (fin q) = true ↔ p ≤ q := by
  simp [le, fin_lt_fin, strictEq, le_iff_lt_or_eq]

theorem ofNat_of_le {a : JsNumber} {n : ℕ} (ha : a.isSafeInteger = true)
    (h : (ofNat n).le a = true) : ∃ m : ℕ, a = ofNat m ∧ n ≤ m ∧ m ≤ maxSafe := by
  obtain ⟨z, rfl, hz⟩ := isSafeInteger_iff.1 ha
  have hnz : (n : ℚ) ≤ (z : ℚ) := by simpa [ofNat] using h
  have hnz' : (n : ℤ) ≤ z := by exact_mod_cast hnz
  obtain ⟨m, rfl⟩ := Int.eq_ofNat_of_zero_le (by omega : 0 ≤ z)
  exact ⟨m, by simp [ofNat], by omega, by simpa using hz⟩

theorem isSafeInteger_ofNat {n : ℕ} : (ofNat n).isSafeInteger = true ↔ n ≤ maxSafe := by
  rw [isSafeInteger_iff]
  constructor
  · rintro ⟨z, hz, hn⟩
    simp only [ofNat, fin.injEq] at hz
    have : (n : ℤ) = z := by exact_mod_cast hz
    omega
  · intro hn
    exact ⟨n, by simp [ofNat], by simpa using hn⟩

section Order

variable {x y z : JsNumber}

theorem lt_asymm (h : x.lt y = true) : y.lt x = false := by
  cases x <;> cases y <;> simp_all [lt, le_of_lt]

theorem lt_or_lt (hy : y ≠ .nan) (h : x.lt z = true) : x.lt y = true ∨ y.lt z = true := by
  cases y with
  | nan => exact absurd rfl hy
  | negInf => cases z <;> simp_all [lt]
  | posInf => cases x <;> simp_all [lt]
  | fin q =>
    cases x <;> cases z <;> simp_all [lt]
    exact (lt_or_ge _ q).imp_right fun hq => hq.trans_lt h

theorem strictEq_symm (h : x.strictEq y = true) : y.strictEq x = true := by
  cases x <;> cases y <;> simp_all [strictEq]

theorem not_lt_of_strictEq (h : x.strictEq y = true) : x.lt y = false := by
  cases x <;> cases y <;> simp_all [lt, strictEq]

theorem sub_lt_zero : (x.sub y).lt 0 = true ↔ x.lt y = true := by
  cases x <;> cases y <;> simp [lt, sub, ofNat_eq, ofNat]

theorem sub_falsy : x.sub y = .nan ∨ x.sub y = 0 ↔ x.lt y = false ∧ y.lt x = false := by
  cases x <;> cases y <;> simp [lt, sub, ofNat_eq, ofNat, sub_eq_zero]
  exact ⟨fun h => ⟨h.ge, h.le⟩, fun h => le_antisymm h.2 h.1⟩

end Order

theorem strictEq_self_of_isProtocol {a : JsNumber} (h : a.isProtocol = true) :
    a.strictEq a = true := by
  obtain ⟨n, rfl, -⟩ := isProtocol_iff.1 h
  simp

end JsNumber

/-!
# Rounding to a double

A quotient is rounded to the nearest multiple of the spacing of the doubles around it, and of two that
are as near to the even one. So it does not go past a multiple of that spacing (`value_le`), and below
`2 ^ 52` the halves of integers are such (`exists_half`).
-/

namespace Double

/-- The spacing of the doubles around a number: the last of 53 bits, or that of the subnormal ones. -/
def spacing (q : ℚ) : ℚ := 2 ^ (max (Int.log 2 |q|) (-1022) - 52)

/-- The nearest integer, and the even one of two. -/
def nearest (q : ℚ) : ℤ :=
  if q - ⌊q⌋ < 1 / 2 then ⌊q⌋
  else if 1 / 2 < q - ⌊q⌋ then ⌊q⌋ + 1
  else if ⌊q⌋ % 2 = 0 then ⌊q⌋
  else ⌊q⌋ + 1

def value (q : ℚ) : ℚ := nearest (q / spacing q) * spacing q

/-- The double that a number is rounded to. -/
def round (q : ℚ) : JsNumber :=
  if value q ≤ -2 ^ 1024 then .negInf
  else if value q < 2 ^ 1024 then .fin (value q)
  else .posInf

/-- `n / x`. -/
def divide (n : ℕ) : JsNumber → JsNumber
  | .fin q => if q = 0 then if n = 0 then .nan else .posInf else round (n / q)
  | .posInf | .negInf => 0
  | .nan => .nan

variable {q : ℚ} {k : ℤ} {m n : ℕ}

theorem nearest_le (h : q ≤ k) : nearest q ≤ k := by
  have hfloor : ⌊q⌋ ≤ k := Int.cast_le.1 ((Int.floor_le q).trans h)
  have hnext : ¬ q - ⌊q⌋ < 1 / 2 → ⌊q⌋ + 1 ≤ k := fun hhalf => by
    have hlt : (⌊q⌋ : ℚ) < k := by linarith
    exact Int.add_one_le_iff.2 (Int.cast_lt.1 hlt)
  unfold nearest
  split_ifs with hhalf
  · exact hfloor
  · exact hnext hhalf
  · exact hfloor
  · exact hnext hhalf

theorem le_nearest (h : k ≤ q) : k ≤ nearest q := by
  have hfloor : k ≤ ⌊q⌋ := Int.le_floor.2 h
  unfold nearest
  split_ifs
  · exact hfloor
  · exact hfloor.trans (Int.le_add_one (Int.le_refl _))
  · exact hfloor
  · exact hfloor.trans (Int.le_add_one (Int.le_refl _))

theorem spacing_pos (q : ℚ) : 0 < spacing q := zpow_pos two_pos _

theorem value_le (h : q ≤ k * spacing q) : value q ≤ k * spacing q := by
  have hk : q / spacing q ≤ k := (div_le_iff₀ (spacing_pos q)).2 h
  exact mul_le_mul_of_nonneg_right (Int.cast_le.2 (nearest_le hk)) (spacing_pos q).le

theorem le_value (h : k * spacing q ≤ q) : k * spacing q ≤ value q := by
  have hk : k ≤ q / spacing q := (le_div_iff₀ (spacing_pos q)).2 h
  exact mul_le_mul_of_nonneg_right (Int.cast_le.2 (le_nearest hk)) (spacing_pos q).le

theorem exists_half (hpos : 0 < q) (hq : q < 2 ^ 52) (m : ℕ) : ∃ k : ℤ, (m / 2 : ℚ) = k * spacing q := by
  have hlog : Int.log 2 |q| < 52 := by
    rw [abs_of_pos hpos]
    exact (Int.lt_zpow_iff_log_lt one_lt_two hpos).1 (by exact_mod_cast hq)
  obtain ⟨d, hd⟩ := Int.le.dest (show max (Int.log 2 |q|) (-1022) ≤ 51 by omega)
  refine ⟨m * 2 ^ d, ?_⟩
  have hexp : max (Int.log 2 |q|) (-1022) - 52 = -1 - (d : ℤ) := by omega
  rw [spacing, hexp, zpow_sub₀ two_ne_zero, zpow_natCast]
  push_cast
  field_simp

theorem value_pos (h : 2 ^ (-1074 : ℤ) ≤ q) : 0 < value q := by
  have hpos : 0 < q := (zpow_pos two_pos _).trans_le h
  have hspacing : spacing q ≤ q := by
    rw [spacing, abs_of_pos hpos]
    rcases le_total (Int.log 2 q) (-1022) with hlog | hlog
    · rw [max_eq_right hlog]
      exact h
    · rw [max_eq_left hlog]
      exact (zpow_le_zpow_right₀ one_le_two (Int.sub_le_self _ (by decide))).trans
        (by exact_mod_cast Int.zpow_log_le_self one_lt_two hpos)
  have hone := le_value (q := q) (k := 1) (by rw [Int.cast_one, one_mul]; exact hspacing)
  rw [Int.cast_one, one_mul] at hone
  exact (spacing_pos q).trans_le hone

theorem round_of_value (hpos : 0 ≤ value q) (h : value q < 2 ^ 1024) : round q = .fin (value q) := by
  have hneg : ¬ value q ≤ -2 ^ 1024 := fun hle =>
    not_le.2 (neg_neg_of_pos (pow_pos two_pos 1024)) (hpos.trans hle)
  rw [round, if_neg hneg, if_pos h]

section Lengths

variable {p : ℚ} (hpos : 0 < n) (hn : n < 2 ^ 32)

include hn

theorem lt_of_length {e : ℕ} (he : 32 ≤ e) : (n : ℚ) < 2 ^ e := by
  have hlt : (n : ℚ) < 2 ^ 32 := by exact_mod_cast hn
  exact hlt.trans_le (pow_le_pow_right₀ one_le_two he)

include hpos

theorem divide_of_two_le (hp : 2 ≤ p) (hp' : p < 2 ^ 1024) :
    ∃ r : ℚ, divide n (.fin p) = .fin r ∧ 0 < r ∧ r ≤ n / 2 := by
  have hn0 : (1 : ℚ) ≤ n := by exact_mod_cast hpos
  have hp0 : 0 < p := two_pos.trans_le hp
  have hhalf : (n / p : ℚ) ≤ n / 2 := div_le_div_of_nonneg_left (zero_le_one.trans hn0) two_pos hp
  have hle : (n / 2 : ℚ) ≤ n := div_le_self (zero_le_one.trans hn0) one_le_two
  obtain ⟨k, hk⟩ := exists_half (div_pos (zero_lt_one.trans_le hn0) hp0)
    ((hhalf.trans hle).trans_lt (lt_of_length hn (by decide))) n
  have hvalue : value (n / p) ≤ n / 2 := by
    rw [hk]
    exact value_le (hk ▸ hhalf)
  have hleast : (2 : ℚ) ^ (-1074 : ℤ) ≤ n / p := by
    have hsmall : (2 : ℚ) ^ (-1074 : ℤ) ≤ 1 / 2 ^ 1024 := by
      rw [one_div, ← zpow_natCast, ← zpow_neg]
      exact zpow_le_zpow_right₀ one_le_two (by decide)
    exact hsmall.trans (div_le_div₀ (zero_le_one.trans hn0) hn0 hp0 hp'.le)
  have hpos' := value_pos hleast
  refine ⟨value (n / p), ?_, hpos', hvalue⟩
  rw [divide, if_neg hp0.ne']
  exact round_of_value hpos'.le ((hvalue.trans hle).trans_lt (lt_of_length hn (by decide)))

theorem divide_one : divide n (.fin 1) = .ofNat n := by
  have hn0 : (0 : ℚ) < n := by exact_mod_cast hpos
  obtain ⟨k, hk⟩ := exists_half hn0 (lt_of_length hn (by decide)) (2 * n)
  have hk' : (n : ℚ) = k * spacing n := by
    rw [← hk]
    push_cast
    ring
  have hvalue : value n = n :=
    le_antisymm ((value_le hk'.le).trans hk'.ge) (hk'.le.trans (le_value hk'.ge))
  have hround := round_of_value (q := (n : ℚ)) (hvalue.symm ▸ hn0.le)
    (hvalue.symm ▸ lt_of_length hn (by decide))
  rw [divide, if_neg one_ne_zero, div_one, hround, hvalue]
  rfl

omit hn in
theorem divide_zero : divide n (.fin 0) = .posInf := by
  rw [divide, if_pos rfl, if_neg hpos.ne']

end Lengths

end Double
