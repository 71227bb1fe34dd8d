import VeriNode.Lib.Decimal
import Mathlib.Algebra.Order.Group.Int
import Mathlib.Algebra.Order.Group.Nat

/-!
# Dates of the language

A valid `Date` is a number of milliseconds since the epoch, within a hundred million days of it.
`toISOString` writes it with the proleptic Gregorian calendar, in fields of fixed width, with a sign
and two more digits for a year that has not four. No two dates have the same text
(`toISOString_injective`). Years of the computation begin in March, so that a leap day is the last
day of its year, of its four years and of its four centuries.
-/

/-- A `Date` that is valid. -/
structure JsDate where
  ms : ℤ
  valid : -8640000000000000 ≤ ms ∧ ms ≤ 8640000000000000
deriving DecidableEq

namespace JsDate

theorem zero_valid : -8640000000000000 ≤ (0 : ℤ) ∧ (0 : ℤ) ≤ 8640000000000000 := by decide

def epoch : JsDate := ⟨0, zero_valid⟩

structure Civil where
  year : ℤ
  month : ℕ
  day : ℕ
deriving DecidableEq

/-- The day of the calendar that is so many days after the epoch. -/
def civil (days : ℤ) : Civil :=
  let z := days + 719468
  let doe := z % 146097
  let n100 := min (doe / 36524) 3
  let doc := doe - 36524 * n100
  let n4 := doc / 1461
  let n1 := min (doc % 1461 / 365) 3
  let doy := doc % 1461 - 365 * n1
  let mp := (5 * doy + 2) / 153
  let year := 400 * (z / 146097) + 100 * n100 + 4 * n4 + n1
  { year := if mp < 10 then year else year + 1
    month := (if mp < 10 then mp + 3 else mp - 9).toNat
    day := (doy - (153 * mp + 2) / 5 + 1).toNat }

example : civil 0 = ⟨1970, 1, 1⟩ := by decide

example : civil 11016 = ⟨2000, 2, 29⟩ := by decide

/-- How many days the day of the calendar is after the epoch. -/
def dayOf (c : Civil) : ℤ :=
  let mp : ℤ := if c.month < 3 then c.month + 9 else c.month - 3
  let year := if c.month < 3 then c.year - 1 else c.year
  365 * year + year / 4 - year / 100 + year / 400 + (153 * mp + 2) / 5 + c.day - 1 - 719468

theorem doe_split {doe : ℤ} (h : 0 ≤ doe ∧ doe < 146097) :
    ∃ n100 doc n4 n1 doy : ℤ, n100 = min (doe / 36524) 3 ∧ doc = doe - 36524 * n100
      ∧ n4 = doc / 1461 ∧ n1 = min (doc % 1461 / 365) 3 ∧ doy = doc % 1461 - 365 * n1
      ∧ 0 ≤ n100 ∧ n100 ≤ 3 ∧ 0 ≤ n4 ∧ n4 ≤ 24 ∧ 0 ≤ n1 ∧ n1 ≤ 3 ∧ 0 ≤ doy ∧ doy ≤ 365
      ∧ doe = 36524 * n100 + 1461 * n4 + 365 * n1 + doy :=
  ⟨_, _, _, _, _, rfl, rfl, rfl, rfl, rfl, by omega, by omega, by omega, by omega, by omega,
    by omega, by omega, by omega, by omega⟩

theorem dayOf_civil (days : ℤ) : dayOf (civil days) = days := by
  have hdoe : 0 ≤ (days + 719468) % 146097 ∧ (days + 719468) % 146097 < 146097 := by omega
  obtain ⟨n100, doc, n4, n1, doy, h100, hdoc, h4, h1, hdoy, hb⟩ := doe_split hdoe
  have hday : days = 146097 * ((days + 719468) / 146097) + (36524 * n100 + 1461 * n4 + 365 * n1
      + doy) - 719468 := by omega
  unfold civil dayOf
  simp only [← h100, ← hdoc, ← h4, ← h1, ← hdoy]
  clear h100 hdoc h4 h1 hdoy
  generalize (days + 719468) / 146097 = era at hday
  obtain ⟨mp, hmp⟩ : ∃ mp, mp = (5 * doy + 2) / 153 := ⟨_, rfl⟩
  have hmp' : 0 ≤ mp ∧ mp ≤ 11 := by omega
  have hfirst : (153 * mp + 2) / 5 ≤ doy := by omega
  have hfour : (400 * era + 100 * n100 + 4 * n4 + n1) / 4 = 100 * era + 25 * n100 + n4 := by omega
  have hhundred : (400 * era + 100 * n100 + 4 * n4 + n1) / 100 = 4 * era + n100 := by omega
  have hera : (400 * era + 100 * n100 + 4 * n4 + n1) / 400 = era := by omega
  rw [← hmp]
  by_cases hm : mp < 10
  · have hmonth : ((mp + 3).toNat : ℤ) = mp + 3 := by omega
    have hspring : ¬ (mp + 3).toNat < 3 := by omega
    simp only [if_pos hm, if_neg hspring, hmonth, add_sub_cancel_right, hfour, hhundred, hera]
    omega
  · have hmonth : ((mp - 9).toNat : ℤ) = mp - 9 := by omega
    have hwinter : (mp - 9).toNat < 3 := by omega
    simp only [if_neg hm, if_pos hwinter, hmonth, sub_add_cancel, add_sub_cancel_right, hfour,
      hhundred, hera]
    omega

theorem civil_injective {z z' : ℤ} (h : civil z = civil z') : z = z' := by
  rw [← dayOf_civil z, h, dayOf_civil]

theorem civil_bounds (days : ℤ) : (civil days).month < 100 ∧ (civil days).day < 100 := by
  have hdoe : 0 ≤ (days + 719468) % 146097 ∧ (days + 719468) % 146097 < 146097 := by omega
  obtain ⟨n100, doc, n4, n1, doy, h100, hdoc, h4, h1, hdoy, hb⟩ := doe_split hdoe
  unfold civil
  simp only [← h100, ← hdoc, ← h1, ← hdoy]
  clear h100 hdoc h4 h1
  split_ifs <;> omega

def sign (year : ℤ) : Char := if year < 0 then '-' else '+'

/-- The year, with a sign and six digits if it has not four. -/
def yearText (year : ℤ) : List Char :=
  if 0 ≤ year ∧ year ≤ 9999 then Decimal.padded 4 year.toNat
  else sign year :: Decimal.padded 6 year.natAbs

/-- `toISOString`. -/
def toISOString (d : JsDate) : String :=
  let c := civil (d.ms / 86400000)
  let t := (d.ms % 86400000).toNat
  String.ofList (yearText c.year ++ '-' :: Decimal.padded 2 c.month ++ '-' :: Decimal.padded 2 c.day
    ++ 'T' :: Decimal.padded 2 (t / 3600000) ++ ':' :: Decimal.padded 2 (t / 60000 % 60)
    ++ ':' :: Decimal.padded 2 (t / 1000 % 60) ++ '.' :: Decimal.padded 3 (t % 1000) ++ ['Z'])

example : toISOString ⟨1704067200123, by decide⟩ = "2024-01-01T00:00:00.123Z" := by decide

example : toISOString ⟨-8640000000000000, by decide⟩ = "-271821-04-20T00:00:00.000Z" := by decide

variable {k n m : ℕ} {l l' : List Char} {y y' : ℤ}

theorem padded_append (hk : 0 < k) (hn : n < 10 ^ k) (hm : m < 10 ^ k)
    (h : Decimal.padded k n ++ l = Decimal.padded k m ++ l') : n = m ∧ l = l' := by
  have hlen : (Decimal.padded k n).length = (Decimal.padded k m).length := by
    rw [Decimal.length_padded hk hn, Decimal.length_padded hk hm]
  obtain ⟨hp, hl⟩ := List.append_inj h hlen
  exact ⟨by rw [← Decimal.ofDigitChars_padded k n, hp, Decimal.ofDigitChars_padded], hl⟩

theorem head_padded (hk : 0 < k) (hn : n < 10 ^ k) :
    ∃ c cs, Decimal.padded k n = c :: cs ∧ c.isDigit = true := by
  have hlen := Decimal.length_padded hk hn
  have hall := Decimal.all_padded k n
  rcases hp : Decimal.padded k n with _ | ⟨c, cs⟩
  · rw [hp, List.length_nil] at hlen
    omega
  · rw [hp, List.all_cons, Bool.and_eq_true] at hall
    exact ⟨c, cs, rfl, hall.1⟩

theorem sign_not_digit (y : ℤ) : (sign y).isDigit = false := by
  unfold sign
  split_ifs
  · rfl
  · rfl

theorem sign_ne_padded {c : Char} (hc : c.isDigit = false) (hk : 0 < k) (hn : n < 10 ^ k) :
    c :: l ≠ Decimal.padded k n ++ l' := by
  obtain ⟨d, ds, hp, hd⟩ := head_padded hk hn
  intro h
  rw [hp, List.cons_append] at h
  rw [(List.cons.inj h).1, hd] at hc
  cases hc

theorem yearText_append (hy : -1000000 < y ∧ y < 1000000) (hy' : -1000000 < y' ∧ y' < 1000000)
    (h : yearText y ++ l = yearText y' ++ l') : y = y' ∧ l = l' := by
  unfold yearText at h
  split_ifs at h with h1 h2 h2
  · obtain ⟨hn, hl⟩ := padded_append (by decide) (by omega) (by omega) h
    exact ⟨by omega, hl⟩
  · exact absurd h.symm (sign_ne_padded (sign_not_digit y') (by decide) (by omega))
  · exact absurd h (sign_ne_padded (sign_not_digit y) (by decide) (by omega))
  · rw [List.cons_append, List.cons_append] at h
    obtain ⟨hs, hrest⟩ := List.cons.inj h
    obtain ⟨hn, hl⟩ := padded_append (by decide) (by omega) (by omega) hrest
    have hneg : y < 0 ↔ y' < 0 := by
      unfold sign at hs
      by_cases h3 : y < 0 <;> by_cases h4 : y' < 0 <;> simp [h3, h4] at hs ⊢
    exact ⟨by omega, hl⟩

theorem year_bounds (d : JsDate) : -1000000 < (civil (d.ms / 86400000)).year
    ∧ (civil (d.ms / 86400000)).year < 1000000 := by
  have hv := d.valid
  have hdoe : 0 ≤ (d.ms / 86400000 + 719468) % 146097
      ∧ (d.ms / 86400000 + 719468) % 146097 < 146097 := by omega
  obtain ⟨n100, doc, n4, n1, doy, h100, hdoc, h4, h1, hdoy, hb⟩ := doe_split hdoe
  unfold civil
  simp only [← h100, ← hdoc, ← h4, ← h1]
  clear h100 hdoc h4 h1 hdoy
  split_ifs <;> omega

theorem toISOString_injective {d d' : JsDate} (h : toISOString d = toISOString d') : d = d' := by
  have hlist := String.ofList_injective h
  simp only [List.append_assoc, List.cons_append] at hlist
  have hb := civil_bounds (d.ms / 86400000)
  have hb' := civil_bounds (d'.ms / 86400000)
  obtain ⟨hy, hlist⟩ := yearText_append (year_bounds d) (year_bounds d') hlist
  obtain ⟨hm, hlist⟩ := padded_append (by decide) hb.1 hb'.1 (List.cons.inj hlist).2
  obtain ⟨hd, hlist⟩ := padded_append (by decide) hb.2 hb'.2 (List.cons.inj hlist).2
  obtain ⟨hh, hlist⟩ := padded_append (by decide) (by omega) (by omega) (List.cons.inj hlist).2
  obtain ⟨hmin, hlist⟩ := padded_append (by decide) (by omega) (by omega) (List.cons.inj hlist).2
  obtain ⟨hs, hlist⟩ := padded_append (by decide) (by omega) (by omega) (List.cons.inj hlist).2
  obtain ⟨hms, -⟩ := padded_append (by decide) (by omega) (by omega) (List.cons.inj hlist).2
  have hcivil : civil (d.ms / 86400000) = civil (d'.ms / 86400000) := by
    rcases hc : civil (d.ms / 86400000) with ⟨y, m, k⟩
    rcases hc' : civil (d'.ms / 86400000) with ⟨y', m', k'⟩
    rw [hc, hc'] at hy hm hd
    simp only [] at hy hm hd
    rw [hy, hm, hd]
  have hday := civil_injective hcivil
  obtain ⟨ms, hv⟩ := d
  obtain ⟨ms', hv'⟩ := d'
  simp only [] at *
  simp only [mk.injEq]
  omega

theorem digits_ne {c : Char} (hc : c.isDigit = false) (k n : ℕ) : c ∉ Decimal.padded k n := by
  intro hm
  rw [List.all_eq_true.1 (Decimal.all_padded k n) c hm] at hc
  cases hc

theorem not_mem_toISOString {c : Char} (hc : c.isDigit = false) (hne : c ∉ "+-T:.Z".toList)
    (d : JsDate) : c ∉ (toISOString d).toList := by
  have hyear : ∀ y : ℤ, c ∉ yearText y := by
    intro y
    unfold yearText sign
    split_ifs
    · exact digits_ne hc _ _
    · exact fun hm => (List.mem_cons.1 hm).elim (fun he => hne (he ▸ by decide)) (digits_ne hc _ _)
    · exact fun hm => (List.mem_cons.1 hm).elim (fun he => hne (he ▸ by decide)) (digits_ne hc _ _)
  have hchars : ∀ x ∈ ['-', 'T', ':', '.', 'Z'], c ≠ x := by
    rintro x hx rfl
    simp only [List.mem_cons, List.not_mem_nil, or_false] at hx
    rcases hx with rfl | rfl | rfl | rfl | rfl <;> exact hne (by decide)
  simp only [List.forall_mem_cons] at hchars
  obtain ⟨hdash, ht, hcolon, hpoint, hz, -⟩ := hchars
  simp [toISOString, hyear, digits_ne hc, hdash, ht, hcolon, hpoint, hz]

end JsDate
