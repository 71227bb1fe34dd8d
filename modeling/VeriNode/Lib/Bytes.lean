import Mathlib.Data.List.Basic
import Mathlib.Tactic.IntervalCases

/-!
# Base64 as the platform writes and reads it

Bytes are written in groups of three, with the alphabet that is safe in a URL and without padding
(`encode`), or with the other one and padding (`encodePadded`). What reads them takes both
alphabets, passes over every other character, and ends at a `=`.
-/

namespace Base64

/-- The character of six bits. -/
def letter (n : ℕ) : Char :=
  if n < 26 then Char.ofNat (0x41 + n)
  else if n < 52 then Char.ofNat (0x61 + (n - 26))
  else if n < 62 then Char.ofNat (0x30 + (n - 52))
  else if n = 62 then '-' else '_'

/-- The six bits of a character, in either alphabet. -/
def sextet (c : Char) : Option ℕ :=
  if c.isUpper then some (c.toNat - 0x41)
  else if c.isLower then some (c.toNat - 0x61 + 26)
  else if c.isDigit then some (c.toNat - 0x30 + 52)
  else if c = '-' ∨ c = '+' then some 62
  else if c = '_' ∨ c = '/' then some 63
  else none

def sextets : List UInt8 → List ℕ
  | a :: b :: c :: rest =>
    a.toNat / 4 :: (a.toNat % 4 * 16 + b.toNat / 16) :: (b.toNat % 16 * 4 + c.toNat / 64)
      :: (c.toNat % 64) :: sextets rest
  | [a, b] => [a.toNat / 4, a.toNat % 4 * 16 + b.toNat / 16, b.toNat % 16 * 4]
  | [a] => [a.toNat / 4, a.toNat % 4 * 16]
  | [] => []

/-- A sextet that is left over has no byte. -/
def bytes : List ℕ → List UInt8
  | w :: x :: y :: z :: rest =>
    .ofNat (w * 4 + x / 16) :: .ofNat (x % 16 * 16 + y / 4) :: .ofNat (y % 4 * 64 + z)
      :: bytes rest
  | [w, x, y] => [.ofNat (w * 4 + x / 16), .ofNat (x % 16 * 16 + y / 4)]
  | [w, x] => [.ofNat (w * 4 + x / 16)]
  | _ => []

/-- `buffer.toString('base64url')`. -/
def encode (b : List UInt8) : String := String.ofList ((sextets b).map letter)

/-- `buffer.toString('base64')`. -/
def encodePadded (b : List UInt8) : String :=
  let letters := (sextets b).map fun n => if n = 62 then '+' else if n = 63 then '/' else letter n
  String.ofList (letters ++ List.replicate ((3 - b.length % 3) % 3) '=')

/-- `Buffer.from(text, 'base64')`, and `'base64url'`. -/
def decode (text : String) : List UInt8 :=
  bytes ((text.toList.takeWhile (· ≠ '=')).filterMap sextet)

example : encode [0xFB, 0xEF, 0xFF, 1] = "--__AQ"
    ∧ encodePadded [0xFB, 0xEF, 0xFF, 1] = "++//AQ=="
    ∧ decode "++_/\nA Q==AAAA" = [0xFB, 0xEF, 0xFF, 1] := by
  decide

theorem sextet_letter {n : ℕ} (h : n < 64) : sextet (letter n) = some n ∧ letter n ≠ '=' := by
  interval_cases n <;> decide

theorem lt_of_mem_sextets {n : ℕ} {b : List UInt8} (h : n ∈ sextets b) : n < 64 := by
  induction b using sextets.induct with
  | case1 a b c rest ih =>
    have ha := a.toNat_lt
    have hb := b.toNat_lt
    have hc := c.toNat_lt
    simp only [sextets, List.mem_cons] at h
    obtain rfl | rfl | rfl | rfl | h := h
    · omega
    · omega
    · omega
    · omega
    · exact ih h
  | case2 a b =>
    have ha := a.toNat_lt
    have hb := b.toNat_lt
    simp only [sextets, List.mem_cons, List.not_mem_nil, or_false] at h
    omega
  | case3 a =>
    have ha := a.toNat_lt
    simp only [sextets, List.mem_cons, List.not_mem_nil, or_false] at h
    omega
  | case4 => cases h

theorem ofNat_eq {n : ℕ} {a : UInt8} (h : n = a.toNat) : UInt8.ofNat n = a := by
  rw [h, UInt8.ofNat_toNat]

theorem bytes_sextets (b : List UInt8) : bytes (sextets b) = b := by
  induction b using sextets.induct with
  | case1 a b c rest ih =>
    have ha := a.toNat_lt
    have hb := b.toNat_lt
    have hc := c.toNat_lt
    rw [sextets, bytes, ih, ofNat_eq (a := a) (by omega), ofNat_eq (a := b) (by omega),
      ofNat_eq (a := c) (by omega)]
  | case2 a b =>
    have ha := a.toNat_lt
    have hb := b.toNat_lt
    rw [sextets, bytes, ofNat_eq (a := a) (by omega), ofNat_eq (a := b) (by omega)]
  | case3 a =>
    have ha := a.toNat_lt
    rw [sextets, bytes, ofNat_eq (a := a) (by omega)]
  | case4 => rfl

theorem filterMap_letter : ∀ {ns : List ℕ}, (∀ n ∈ ns, n < 64) →
    ((ns.map letter).takeWhile (· ≠ '=')).filterMap sextet = ns
  | [], _ => rfl
  | n :: ns, h => by
    obtain ⟨hn, hne⟩ := sextet_letter (h n List.mem_cons_self)
    rw [List.map_cons, List.takeWhile_cons_of_pos (by simpa using hne),
      List.filterMap_cons_some hn, filterMap_letter fun m hm => h m (List.mem_cons_of_mem n hm)]

theorem decode_encode (b : List UInt8) : decode (encode b) = b := by
  rw [decode, encode, String.toList_ofList, filterMap_letter fun _ => lt_of_mem_sextets,
    bytes_sextets]

end Base64

/-!
# UTF-8 as the platform writes and reads it

Bytes that are no UTF-8 are not refused by what reads them: in their place stands the character for
a replacement, once for as many of them as begin one character.
-/

namespace Utf8

/-- `Buffer.from(text, 'utf8')`. -/
def encode (text : String) : List UInt8 := text.toList.flatMap String.utf8EncodeChar

def isContinuation (b : UInt8) : Bool := 0x80 ≤ b && b ≤ 0xBF

/-- The second byte of a character may follow the first. -/
def goesOn (first second : UInt8) : Bool :=
  if first = 0xE0 then 0xA0 ≤ second && second ≤ 0xBF
  else if first = 0xED then 0x80 ≤ second && second ≤ 0x9F
  else if first = 0xF0 then 0x90 ≤ second && second ≤ 0xBF
  else if first = 0xF4 then 0x80 ≤ second && second ≤ 0x8F
  else isContinuation second

/-- How many bytes are replaced where no character can be read. -/
def illFormed : List UInt8 → ℕ
  | first :: second :: rest =>
    if 0xE0 ≤ first && first ≤ 0xF4 && goesOn first second then
      match rest with
      | third :: _ => if 0xF0 ≤ first && isContinuation third then 3 else 2
      | [] => 2
    else 1
  | _ => 1

/-- As many characters as there are bytes, at most. -/
def chars : ℕ → List UInt8 → List Char
  | fuel + 1, first :: rest =>
    match (first :: rest).toByteArray.utf8DecodeChar? 0 with
    | some c => c :: chars fuel ((first :: rest).drop c.utf8Size)
    | none => Char.ofNat 0xFFFD :: chars fuel ((first :: rest).drop (illFormed (first :: rest)))
  | _, _ => []

/-- `buffer.toString('utf8')`. -/
def decode (bytes : List UInt8) : String := String.ofList (chars bytes.length bytes)

example : decode [0x61, 0xE2, 0x82, 0xC3, 0xA9, 0xFF] = "a\uFFFDé\uFFFD" := by decide

theorem chars_encode : ∀ (cs : List Char) {fuel : ℕ},
    (cs.flatMap String.utf8EncodeChar).length ≤ fuel →
    chars fuel (cs.flatMap String.utf8EncodeChar) = cs
  | [], fuel, _ => by cases fuel <;> rfl
  | c :: cs, fuel, h => by
    have hlen := String.length_utf8EncodeChar c
    have hpos := c.utf8Size_pos
    rw [List.flatMap_cons] at h ⊢
    rw [List.length_append] at h
    obtain ⟨fuel, rfl⟩ : ∃ m, fuel = m + 1 := ⟨fuel - 1, by omega⟩
    obtain ⟨first, rest, hcons⟩ := List.exists_cons_of_length_pos (hlen ▸ hpos)
    have hread : (String.utf8EncodeChar c
        ++ cs.flatMap String.utf8EncodeChar).toByteArray.utf8DecodeChar? 0 = some c := by
      rw [List.toByteArray_append, ByteArray.utf8DecodeChar?_utf8EncodeChar_append]
    have hdrop : (String.utf8EncodeChar c ++ cs.flatMap String.utf8EncodeChar).drop c.utf8Size
        = cs.flatMap String.utf8EncodeChar := by
      rw [← hlen, List.drop_left]
    rw [hcons, List.cons_append] at hread hdrop ⊢
    rw [chars, hread]
    simp only
    rw [hdrop, chars_encode cs (by omega)]

theorem decode_encode (text : String) : decode (encode text) = text := by
  rw [decode, encode, chars_encode _ (Nat.le_refl _), String.ofList_toList]

end Utf8
