import Mathlib.Data.List.Lex
import Mathlib.Data.List.Sort
import Mathlib.Tactic.IntervalCases
import Mathlib.Data.List.Basic

/-!
# Strings of the language

What `trim` strips, the order `sort` puts strings in (by their UTF-16 code units), and how
`JSON.stringify` writes a string and an object of strings. A written string is read off the front of
a text in one way (`quote_append`).
-/

namespace JsString

/-- White space and line terminators, the characters `trim` strips. -/
def isWhitespace (c : Char) : Bool :=
  c.toNat ∈ [0x9, 0xA, 0xB, 0xC, 0xD, 0x20, 0xA0, 0x1680, 0x2028, 0x2029, 0x202F, 0x205F, 0x3000,
    0xFEFF] || (0x2000 ≤ c.toNat && c.toNat ≤ 0x200A)

/-- `s.trim().length === 0`. -/
def isBlank (s : String) : Bool := s.toList.all isWhitespace

/-- The characters that end a line. -/
def isLineTerminator (c : Char) : Bool := c.toNat ∈ [0xA, 0xD, 0x2028, 0x2029]

/-- `trim`. -/
def trim (cs : List Char) : List Char :=
  ((cs.dropWhile isWhitespace).reverse.dropWhile isWhitespace).reverse

/-- The UTF-16 code units of a character: itself, or a surrogate pair. -/
def codeUnits (c : Char) : List ℕ :=
  if c.toNat < 0x10000 then [c.toNat]
  else [0xD800 + (c.toNat - 0x10000) / 0x400, 0xDC00 + (c.toNat - 0x10000) % 0x400]

/-- The string as UTF-16 code units. -/
def utf16 (s : String) : List ℕ := s.toList.flatMap codeUnits

/-- `xs.sort()` on strings. -/
def sort (xs : List String) : List String := xs.insertionSort fun a b => utf16 a ≤ utf16 b

/-- A hexadecimal digit. -/
def hexDigit (n : ℕ) : Char := if n < 10 then Char.ofNat (0x30 + n) else Char.ofNat (0x57 + n)

/-- A character inside the quotes of JSON. -/
def escape (c : Char) : List Char :=
  match [(0x22, 0x22), (0x5C, 0x5C), (0x8, 0x62), (0xC, 0x66), (0xA, 0x6E), (0xD, 0x72),
      (0x9, 0x74)].lookup c.toNat with
  | some letter => [Char.ofNat 0x5C, Char.ofNat letter]
  | none =>
    if c.toNat < 0x20 then
      [Char.ofNat 0x5C, 'u', '0', '0', hexDigit (c.toNat / 16), hexDigit (c.toNat % 16)]
    else [c]

/-- `JSON.stringify` of a string. -/
def quote (s : String) : String := "\"" ++ String.ofList (s.toList.flatMap escape) ++ "\""

/-- `JSON.stringify` of an object whose fields are strings. -/
def stringify (fields : List (String × String)) : String :=
  "\x7b" ++ ",".intercalate (fields.map fun f => quote f.1 ++ ":" ++ quote f.2) ++ "\x7d"

/-- What a hexadecimal digit stands for. -/
def hexValue (c : Char) : ℕ := if c.isDigit then c.toNat - 0x30 else c.toNat - 0x57

/-- Reads back a character from inside the quotes. -/
def unescape : List Char → Option (Char × List Char)
  | [] => none
  | c :: l =>
    if c.toNat = 0x5C then
      match l with
      | 'u' :: _ :: _ :: h :: d :: rest =>
        some (Char.ofNat (16 * hexValue h + hexValue d), rest)
      | letter :: rest =>
        match [(0x22, 0x22), (0x5C, 0x5C), (0x62, 0x8), (0x66, 0xC), (0x6E, 0xA), (0x72, 0xD),
            (0x74, 0x9)].lookup letter.toNat with
        | some code => some (Char.ofNat code, rest)
        | none => none
      | [] => none
    else some (c, l)

theorem escape_of_plain {c : Char} (hlow : ¬ c.toNat < 0x20) (hq : c.toNat ≠ 0x22)
    (hb : c.toNat ≠ 0x5C) : escape c = [c] := by
  unfold escape
  have hnone : [(0x22, 0x22), (0x5C, 0x5C), (0x8, 0x62), (0xC, 0x66), (0xA, 0x6E),
      (0xD, 0x72), (0x9, 0x74)].lookup c.toNat = none := by
    simp only [List.lookup_eq_none_iff, List.mem_cons, List.not_mem_nil, or_false]
    rintro p (rfl | rfl | rfl | rfl | rfl | rfl | rfl) <;> simp <;> omega
  rw [hnone]
  simp only [if_neg hlow]

theorem unescape_escape (c : Char) (l : List Char) : unescape (escape c ++ l) = some (c, l) := by
  have hc : Char.ofNat c.toNat = c := Char.ofNat_toNat c
  by_cases hlow : c.toNat < 0x20
  · rw [← hc]
    generalize c.toNat = n at hlow
    interval_cases n <;> rfl
  · by_cases hq : c.toNat = 0x22
    · rw [← hc, hq]
      rfl
    · by_cases hb : c.toNat = 0x5C
      · rw [← hc, hb]
        rfl
      · rw [escape_of_plain hlow hq hb]
        simp [unescape, hb]

theorem escape_append {c d : Char} {l l' : List Char} (h : escape c ++ l = escape d ++ l') :
    c = d ∧ l = l' := by
  have hread := congrArg unescape h
  rw [unescape_escape, unescape_escape] at hread
  exact Prod.mk.inj (Option.some.inj hread)

theorem escape_ne_quote {c : Char} {l l' : List Char} : escape c ++ l ≠ '"' :: l' := by
  intro h
  have hread := congrArg unescape h
  rw [unescape_escape] at hread
  obtain ⟨rfl, -⟩ := Prod.mk.inj (Option.some.inj (hread.trans rfl : some (c, l) = some ('"', l')))
  exact absurd (List.cons.inj h).1 (by decide)

theorem flatMap_escape_append : ∀ (s s' : List Char) {l l' : List Char},
    s.flatMap escape ++ '"' :: l = s'.flatMap escape ++ '"' :: l' → s = s' ∧ l = l'
  | [], [], _, _, h => ⟨rfl, (List.cons.inj h).2⟩
  | [], c :: s', _, _, h => by
    rw [List.flatMap_cons, List.append_assoc] at h
    exact absurd h.symm escape_ne_quote
  | c :: s, [], _, _, h => by
    rw [List.flatMap_cons, List.append_assoc] at h
    exact absurd h escape_ne_quote
  | c :: s, d :: s', _, _, h => by
    rw [List.flatMap_cons, List.flatMap_cons, List.append_assoc, List.append_assoc] at h
    obtain ⟨rfl, hrest⟩ := escape_append h
    obtain ⟨rfl, hl⟩ := flatMap_escape_append s s' hrest
    exact ⟨rfl, hl⟩

theorem toList_quote (s : String) :
    (quote s).toList = '"' :: (s.toList.flatMap escape ++ ['"']) := by
  simp [quote]

theorem quote_append {s s' : String} {l l' : List Char}
    (h : (quote s).toList ++ l = (quote s').toList ++ l') : s = s' ∧ l = l' := by
  rw [toList_quote, toList_quote] at h
  simp only [List.cons_append, List.append_assoc, List.cons.injEq, true_and,
    List.nil_append] at h
  obtain ⟨hs, hl⟩ := flatMap_escape_append _ _ h
  exact ⟨String.toList_injective hs, hl⟩

theorem stringify_ne_empty (fields : List (String × String)) : stringify fields ≠ "" := by
  intro h
  have hl := congrArg String.length h
  simp [stringify] at hl

theorem sort_perm (xs : List String) : (sort xs).Perm xs := List.perm_insertionSort _ xs

theorem mem_sort {xs : List String} {x : String} : x ∈ sort xs ↔ x ∈ xs := (sort_perm xs).mem_iff

theorem codeUnits_append {c d : Char} {l l' : List ℕ} (h : codeUnits c ++ l = codeUnits d ++ l') :
    c = d ∧ l = l' := by
  have hvalid : ∀ c : Char, ¬ (0xD800 ≤ c.toNat ∧ c.toNat < 0xE000) ∧ c.toNat < 0x110000 := by
    intro c
    have := c.valid
    simp only [UInt32.isValidChar, Nat.isValidChar] at this
    have : c.toNat = c.val.toNat := rfl
    omega
  have hc := hvalid c
  have hd := hvalid d
  unfold codeUnits at h
  split_ifs at h with hc' hd' hd' <;> simp only [List.cons_append, List.nil_append, List.cons.injEq] at h
  · exact ⟨Char.toNat_inj.1 h.1, h.2⟩
  · omega
  · omega
  · exact ⟨Char.toNat_inj.1 (by omega), h.2.2⟩

theorem flatMap_codeUnits_injective : ∀ {s s' : List Char},
    s.flatMap codeUnits = s'.flatMap codeUnits → s = s'
  | [], [], _ => rfl
  | [], c :: s', h => by
    simp only [List.flatMap_nil, List.flatMap_cons, codeUnits] at h
    split_ifs at h <;> simp at h
  | c :: s, [], h => by
    simp only [List.flatMap_nil, List.flatMap_cons, codeUnits] at h
    split_ifs at h <;> simp at h
  | c :: s, d :: s', h => by
    rw [List.flatMap_cons, List.flatMap_cons] at h
    obtain ⟨rfl, hrest⟩ := codeUnits_append h
    rw [flatMap_codeUnits_injective hrest]

theorem utf16_injective : Function.Injective utf16 := fun _ _ h =>
  String.toList_injective (flatMap_codeUnits_injective h)

theorem pairwise_sort (xs : List String) : (sort xs).Pairwise fun a b => utf16 a ≤ utf16 b := by
  exact List.pairwise_insertionSort _ xs

theorem eq_of_utf16_le {a b : String} (h : utf16 a ≤ utf16 b) (h' : utf16 b ≤ utf16 a) : a = b :=
  utf16_injective (le_antisymm h h')

end JsString

/-!
# Upper and lower case

`toUpperCase` maps each character of a text by itself, and `toLowerCase` may look at its neighbours.
Either leaves ASCII that has the case already as it is, and full stops and underscores where they
are. The other letters of Unicode are not told apart.
-/

/-- `toUpperCase` and `toLowerCase`. -/
structure CaseMapping where
  upper : String → String
  lower : String → String
  upper_append : ∀ s t, upper (s ++ t) = upper s ++ upper t
  upper_capitals : ∀ s : String, (∀ c ∈ s.toList, c.isUpper ∨ c = '_') → upper s = s
  lower_letters : ∀ s : String, (∀ c ∈ s.toList, c.isLower) → lower s = s
  mem_lower : ∀ s, ∀ c ∈ ['.', '_'], c ∈ (lower s).toList ↔ c ∈ s.toList

namespace CaseMapping

theorem toUpper_of_isUpper {c : Char} (h : c.isUpper ∨ c = '_') : c.toUpper = c := by
  refine dif_neg ?_
  rintro ⟨hlow, -⟩
  rcases h with h | rfl
  · have hup : c.val ≤ 'Z'.val := (of_decide_eq_true h).2
    have hle : 'a'.val ≤ 'Z'.val := UInt32.le_trans hlow hup
    exact absurd hle (by decide)
  · exact absurd hlow (by decide)

theorem toLower_of_isLower {c : Char} (h : c.isLower) : c.toLower = c := by
  refine dif_neg ?_
  rintro ⟨-, hup⟩
  have hlow : 'a'.val ≤ c.val := of_decide_eq_true (Bool.and_eq_true_iff.1 h).1
  have hle : 'a'.val ≤ 'Z'.val := UInt32.le_trans hlow hup
  exact absurd hle (by decide)

theorem toLower_eq_iff {c d : Char} (hd : d = '.' ∨ d = '_') : c.toLower = d ↔ c = d := by
  have hsep : ∀ d : Char, d = '.' ∨ d = '_' → d.toLower = d := by
    rintro d (rfl | rfl) <;> rfl
  constructor
  · intro h
    by_cases hc : 'A'.val ≤ c.val ∧ c.val ≤ 'Z'.val
    · have hval : d.val = c.val + ('a'.val - 'A'.val) := by
        rw [← h]
        exact congrArg Char.val (dif_pos hc : c.toLower = _)
      have hnat := congrArg UInt32.toNat hval
      have hlow : 65 ≤ c.val.toNat := hc.1
      have hup : c.val.toNat ≤ 90 := hc.2
      rw [UInt32.toNat_add] at hnat
      have hdiff : ('a'.val - 'A'.val).toNat = 32 := rfl
      rw [hdiff] at hnat
      rcases hd with rfl | rfl
      · have hdot : ('.').val.toNat = 46 := rfl
        omega
      · have hunder : ('_').val.toNat = 95 := rfl
        omega
    · have hsame : c.toLower = c := dif_neg hc
      exact hsame.symm.trans h
  · rintro rfl
    exact hsep c hd

/-- The case of ASCII; other characters are left as they are. -/
def ascii : CaseMapping where
  upper s := String.ofList (s.toList.map Char.toUpper)
  lower s := String.ofList (s.toList.map Char.toLower)
  upper_append s t := by simp
  upper_capitals s h := by
    rw [List.map_congr_left fun c hc => toUpper_of_isUpper (h c hc), List.map_id',
      String.ofList_toList]
  lower_letters s h := by
    rw [List.map_congr_left fun c hc => toLower_of_isLower (h c hc), List.map_id',
      String.ofList_toList]
  mem_lower s c hc := by
    rw [String.toList_ofList, List.mem_map]
    constructor
    · rintro ⟨d, hd, hdc⟩
      rw [toLower_eq_iff (by simpa using hc)] at hdc
      exact hdc ▸ hd
    · exact fun h => ⟨c, h, (toLower_eq_iff (by simpa using hc)).2 rfl⟩

end CaseMapping
