import Mathlib.Algebra.Order.Ring.Nat
import Mathlib.Data.List.Basic
import Mathlib.Data.Rat.Floor

/-!
# Decimal texts of fixed-point numbers

A number of units, `10 ^ k` of them to one, as a text with `k` digits after the point. A text may
have fewer digits after the point when it is read, or no point (`parse_eq_some_iff`); writing a number
and reading it gives it back (`parse_format`).
-/

namespace Decimal

/-- The units of a text of digits, with at most `k` more after a point. -/
def parse (k : ℕ) (text : String) : Option ℕ :=
  let whole := text.toList.takeWhile Char.isDigit
  if whole = [] then none
  else
    match text.toList.dropWhile Char.isDigit with
    | [] => some (Nat.ofDigitChars 10 whole 0 * 10 ^ k)
    | c :: fraction =>
      if c = '.' ∧ fraction.all Char.isDigit ∧ fraction.length ≤ k then
        some (Nat.ofDigitChars 10 whole 0 * 10 ^ k
          + Nat.ofDigitChars 10 (fraction ++ List.replicate (k - fraction.length) '0') 0)
      else none

/-- The digits, at least `k` of them. -/
def padded (k n : ℕ) : List Char :=
  List.replicate (k - (Nat.toDigits 10 n).length) '0' ++ Nat.toDigits 10 n

/-- The number of units with `k` digits after the point. -/
def format (k n : ℕ) : String :=
  String.ofList (Nat.toDigits 10 (n / 10 ^ k) ++ '.' :: padded k (n % 10 ^ k))

/-- `q.toFixed(k)`, below `10 ^ 21`: the nearest units, and of two the larger ones. -/
def toFixed (k : ℕ) (q : ℚ) : String :=
  (if q < 0 then "-" else "") ++ format k ⌊|q| * 10 ^ k + 1 / 2⌋.toNat

variable {k n : ℕ}

theorem all_toDigits (n : ℕ) : ∀ c ∈ Nat.toDigits 10 n, c.isDigit = true := fun _ hc =>
  Nat.isDigit_of_mem_toDigits (by decide) (by decide) hc

theorem length_padded (hk : 0 < k) (h : n < 10 ^ k) : (padded k n).length = k := by
  have hlen := (Nat.length_toDigits_le_iff (by decide) hk).2 h
  simp only [padded, List.length_append, List.length_replicate]
  omega

theorem all_padded (k n : ℕ) : (padded k n).all Char.isDigit = true := by
  rw [List.all_eq_true]
  intro c hc
  rcases List.mem_append.1 hc with hc | hc
  · rw [List.eq_of_mem_replicate hc]
    rfl
  · exact all_toDigits n c hc

theorem ofDigitChars_padded (k n : ℕ) : Nat.ofDigitChars 10 (padded k n) 0 = n := by
  unfold padded
  rw [Nat.ofDigitChars_append, Nat.ofDigitChars_replicate_zero, Nat.mul_zero,
    Nat.ofDigitChars_ten_toDigits]

theorem parse_format (hk : 0 < k) (n : ℕ) : parse k (format k n) = some n := by
  have hlt : n % 10 ^ k < 10 ^ k := Nat.mod_lt _ (Nat.pow_pos (by decide))
  have htake : (Nat.toDigits 10 (n / 10 ^ k) ++ '.' :: padded k (n % 10 ^ k)).takeWhile Char.isDigit
      = Nat.toDigits 10 (n / 10 ^ k) := by
    rw [List.takeWhile_append_of_pos (all_toDigits _)]
    simp
  have hdrop : (Nat.toDigits 10 (n / 10 ^ k) ++ '.' :: padded k (n % 10 ^ k)).dropWhile Char.isDigit
      = '.' :: padded k (n % 10 ^ k) := by
    rw [List.dropWhile_append_of_pos (all_toDigits _)]
    simp
  have hlen := length_padded hk hlt
  unfold parse format
  simp only [String.toList_ofList, htake, hdrop]
  rw [if_neg Nat.toDigits_ne_nil, if_pos ⟨trivial, all_padded _ _, Nat.le_of_eq hlen⟩, hlen,
    Nat.sub_self, List.replicate_zero, List.append_nil, ofDigitChars_padded,
    Nat.ofDigitChars_ten_toDigits, Nat.mul_comm, Nat.div_add_mod]

theorem format_inj (hk : 0 < k) {m : ℕ} : format k m = format k n ↔ m = n := by
  refine ⟨fun h => ?_, fun h => h ▸ rfl⟩
  have hparse := parse_format hk m
  rw [h, parse_format hk n] at hparse
  exact (Option.some.inj hparse).symm

section Numerals

/-- Digits, and perhaps a point with at most `k` digits after it. -/
structure Numeral (k : ℕ) where
  whole : List Char
  fraction : Option (List Char)
  whole_ne : whole ≠ []
  whole_digits : ∀ c ∈ whole, c.isDigit = true
  fraction_digits : ∀ f ∈ fraction, ∀ c ∈ f, c.isDigit = true
  fraction_short : ∀ f ∈ fraction, f.length ≤ k

def Numeral.text (a : Numeral k) : String :=
  String.ofList (a.whole ++ a.fraction.elim [] ('.' :: ·))

/-- The number it denotes. -/
def Numeral.value (a : Numeral k) : ℚ :=
  Nat.ofDigitChars 10 a.whole 0 +
    a.fraction.elim 0 fun f => (Nat.ofDigitChars 10 f 0 : ℚ) / 10 ^ f.length

/-- The number of units. -/
def Numeral.units (a : Numeral k) : ℕ :=
  Nat.ofDigitChars 10 a.whole 0 * 10 ^ k +
    a.fraction.elim 0 fun f => Nat.ofDigitChars 10 f 0 * 10 ^ (k - f.length)

theorem Numeral.units_eq (a : Numeral k) : (a.units : ℚ) = 10 ^ k * a.value := by
  unfold units value
  rcases hf : a.fraction with _ | f
  · simp [mul_comm]
  · have hlen := a.fraction_short f hf
    have hpow : (10 : ℚ) ^ k = 10 ^ (k - f.length) * 10 ^ f.length := by
      rw [← pow_add, Nat.sub_add_cancel hlen]
    have hne : (10 : ℚ) ^ f.length ≠ 0 := pow_ne_zero _ (by decide)
    have hfraction : (10 : ℚ) ^ f.length * (Nat.ofDigitChars 10 f 0 / 10 ^ f.length) =
        Nat.ofDigitChars 10 f 0 := by
      rw [mul_div_assoc', mul_div_cancel_left₀ _ hne]
    simp only [Option.elim_some, Nat.cast_add, Nat.cast_mul, Nat.cast_pow, Nat.cast_ofNat]
    rw [mul_add, hpow, mul_assoc _ _ (_ / _ : ℚ), hfraction, mul_comm (Nat.ofDigitChars 10 f 0 : ℚ),
      mul_comm (Nat.ofDigitChars 10 a.whole 0 : ℚ)]

theorem Numeral.parse_text (a : Numeral k) : parse k a.text = some a.units := by
  have htake : (a.whole ++ a.fraction.elim [] ('.' :: ·)).takeWhile Char.isDigit = a.whole := by
    rw [List.takeWhile_append_of_pos a.whole_digits]
    cases a.fraction <;> simp
  have hdrop : (a.whole ++ a.fraction.elim [] ('.' :: ·)).dropWhile Char.isDigit =
      a.fraction.elim [] ('.' :: ·) := by
    rw [List.dropWhile_append_of_pos a.whole_digits]
    cases a.fraction <;> simp
  unfold parse text units
  simp only [String.toList_ofList, htake, hdrop]
  rw [if_neg a.whole_ne]
  rcases hf : a.fraction with _ | f
  · rfl
  · have hall : f.all Char.isDigit = true := List.all_eq_true.2 (a.fraction_digits f hf)
    simp only [Option.elim_some]
    rw [if_pos ⟨trivial, hall, a.fraction_short f hf⟩, Nat.ofDigitChars_append,
      Nat.ofDigitChars_replicate_zero, mul_comm (10 ^ _)]

/-- What is read is a numeral, with its units. -/
theorem parse_eq_some_iff {text : String} :
    parse k text = some n ↔ ∃ a : Numeral k, a.text = text ∧ a.units = n := by
  constructor
  · intro h
    have htext := List.takeWhile_append_dropWhile (p := Char.isDigit) (l := text.toList)
    have hparse := h
    unfold parse at h
    simp only at h
    split_ifs at h with hwhole
    have hdigits : ∀ c ∈ text.toList.takeWhile Char.isDigit, c.isDigit = true :=
      List.all_eq_true.1 List.all_takeWhile
    split at h
    · next hrest =>
      let a : Numeral k := ⟨text.toList.takeWhile Char.isDigit, none, hwhole, hdigits,
        (fun f hf => by cases hf), (fun f hf => by cases hf)⟩
      have ha : a.text = text := by
        rw [hrest] at htext
        rw [Numeral.text, show a.whole ++ a.fraction.elim [] ('.' :: ·) = text.toList from htext,
          String.ofList_toList]
      refine ⟨a, ha, Option.some.inj ?_⟩
      rw [← a.parse_text, ha, hparse]
    · next c fraction hrest =>
      split_ifs at h with hfraction
      obtain ⟨rfl, hall, hlen⟩ := hfraction
      let a : Numeral k := ⟨text.toList.takeWhile Char.isDigit, some fraction, hwhole, hdigits,
        (fun f hf => Option.some.inj hf ▸ List.all_eq_true.1 hall),
        (fun f hf => Option.some.inj hf ▸ hlen)⟩
      have ha : a.text = text := by
        rw [hrest] at htext
        rw [Numeral.text, show a.whole ++ a.fraction.elim [] ('.' :: ·) = text.toList from htext,
          String.ofList_toList]
      refine ⟨a, ha, Option.some.inj ?_⟩
      rw [← a.parse_text, ha, hparse]
  · rintro ⟨a, rfl, rfl⟩
    exact a.parse_text

end Numerals

end Decimal
