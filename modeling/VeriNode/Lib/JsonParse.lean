import VeriNode.Lib.Json
import Mathlib.Data.List.TakeWhile

/-!
# Reading JSON

`JSON.parse`: what it makes of the text of a value is that value (`parse_stringify`). The depth of
the recursion is bounded by the length of the text, which is always enough for a text that was
written.
-/

/-- Numbers that can be read, from every text that stands for one. -/
class ReadableNumber (ν : Type*) extends JsonNumber ν where
  read : List Char → Option ν
  read_text : ∀ n, read (text n) = some n
  one : ν
  text_one : text one = ['1']

instance : ReadableNumber ℕ where
  read t :=
    let n := Nat.ofDigitChars 10 t 0
    if Nat.toDigits 10 n = t then some n else none
  read_text n := by
    have hn : Nat.ofDigitChars 10 (JsonNumber.text n) 0 = n := Nat.ofDigitChars_ten_toDigits
    simp only [hn]
    exact if_pos rfl
  one := 1
  text_one := by decide

namespace Json

variable {ν : Type*}

section Strings

def hexDigit? (c : Char) : Option ℕ :=
  if c.isDigit then some (c.toNat - 0x30)
  else if 'a' ≤ c ∧ c ≤ 'f' then some (c.toNat - 0x57)
  else if 'A' ≤ c ∧ c ≤ 'F' then some (c.toNat - 0x37)
  else none

/-- The code unit that four digits name. -/
def codeUnit? (cs : List Char) : Option ℕ :=
  (cs.mapM hexDigit?).map fun ds => ds.foldl (fun n d => 16 * n + d) 0

/-- A character inside the quotes. A surrogate without the other is in no string here, and is not
read. -/
def readChar : List Char → Option (Char × List Char)
  | '\x5c' :: 'u' :: a :: b :: c :: d :: rest =>
    match codeUnit? [a, b, c, d] with
    | none => none
    | some n =>
      if n < 0xD800 ∨ 0xE000 ≤ n then some (Char.ofNat n, rest)
      else
        match rest with
        | '\x5c' :: 'u' :: e :: f :: g :: h :: rest =>
          match codeUnit? [e, f, g, h] with
          | some m =>
            if n < 0xDC00 ∧ 0xDC00 ≤ m ∧ m < 0xE000 then
              some (Char.ofNat (0x10000 + (n - 0xD800) * 0x400 + (m - 0xDC00)), rest)
            else none
          | none => none
        | _ => none
  | '\x5c' :: letter :: rest =>
    ([(0x22, 0x22), (0x5C, 0x5C), (0x2F, 0x2F), (0x62, 0x8), (0x66, 0xC), (0x6E, 0xA), (0x72, 0xD),
      (0x74, 0x9)].lookup letter.toNat).map fun code => (Char.ofNat code, rest)
  | c :: rest => if c.toNat < 0x20 then none else some (c, rest)
  | [] => none

/-- The characters up to the quote that ends a string. -/
def parseString : ℕ → List Char → Option (List Char × List Char)
  | 0, _ => none
  | _ + 1, '"' :: rest => some ([], rest)
  | fuel + 1, l =>
    match readChar l with
    | none => none
    | some (c, l) => (parseString fuel l).map fun r => (c :: r.1, r.2)

theorem readChar_escape (c : Char) (l : List Char) :
    readChar (JsString.escape c ++ l) = some (c, l) := by
  have hc : Char.ofNat c.toNat = c := Char.ofNat_toNat c
  by_cases hlow : c.toNat < 0x20
  · rw [← hc]
    generalize c.toNat = n at hlow
    interval_cases n <;> rfl
  · by_cases hq : c.toNat = 0x22
    · rw [← hc, hq]
      rfl
    · by_cases hb : c.toNat = 0x5C
      · rw [← hc, hb]
        rfl
      · have hesc : JsString.escape c = [c] := by
          unfold JsString.escape
          have hnone : [(0x22, 0x22), (0x5C, 0x5C), (0x8, 0x62), (0xC, 0x66), (0xA, 0x6E),
              (0xD, 0x72), (0x9, 0x74)].lookup c.toNat = none := by
            simp only [List.lookup_eq_none_iff, List.mem_cons, List.not_mem_nil, or_false]
            rintro p (rfl | rfl | rfl | rfl | rfl | rfl | rfl) <;> simp <;> omega
          rw [hnone]
          simp only [if_neg hlow]
        have hne : c ≠ '\x5c' := by
          rintro rfl
          exact hb rfl
        rw [hesc, List.singleton_append]
        unfold readChar
        split
        · rename_i heq
          exact absurd (List.cons.inj heq).1 hne
        · rename_i heq
          exact absurd (List.cons.inj heq).1 hne
        · rename_i heq
          obtain ⟨rfl, rfl⟩ := List.cons.inj heq
          rw [if_neg hlow]
        · rename_i heq
          cases heq

theorem length_le_escape (s : List Char) : s.length ≤ (s.flatMap JsString.escape).length := by
  induction s with
  | nil => exact le_rfl
  | cons c s ih =>
    have hpos : (JsString.escape c).length ≠ 0 := by
      intro h0
      have hread := readChar_escape c []
      rw [List.length_eq_zero_iff.1 h0] at hread
      cases hread
    rw [List.flatMap_cons, List.length_append, List.length_cons]
    omega

theorem parseString_escape : ∀ (s : List Char) {fuel : ℕ} (l : List Char), s.length < fuel →
    parseString fuel (s.flatMap JsString.escape ++ '"' :: l) = some (s, l)
  | _, 0, _, h => absurd h (Nat.not_lt_zero _)
  | [], fuel + 1, l, _ => rfl
  | c :: s, fuel + 1, l, h => by
    rw [List.flatMap_cons, List.append_assoc, parseString, readChar_escape]
    · simp only
      rw [parseString_escape s l (by simpa using h)]
      rfl
    · intro rest hq
      exact JsString.escape_ne_quote hq

end Strings

section Values

/-- White space between the parts of a text. -/
def isSpace (c : Char) : Bool := [' ', '\t', '\n', '\r'].contains c

def skip (l : List Char) : List Char := l.dropWhile isSpace

def isNumeric (c : Char) : Bool := isNumberChar c || c = 'E'

/-- The object with this field in its place: a key that is there keeps it. -/
def put (fs : List (String × Json ν)) (f : String × Json ν) : List (String × Json ν) :=
  if f.1 ∈ fs.map Prod.fst then fs.map fun g => if g.1 = f.1 then f else g
  else fs.takeWhile (fun g => precedes g.1 f.1) ++ f :: fs.dropWhile (fun g => precedes g.1 f.1)

variable [ReadableNumber ν]

/-- A value that is one word. -/
def literal (v : Json ν) (l : List Char) : Option (Json ν × List Char) :=
  if (chars v).isPrefixOf l then some (v, l.drop (chars v).length) else none

mutual

def parseValue : ℕ → List Char → Option (Json ν × List Char)
  | 0, _ => none
  | fuel + 1, l =>
    match kindOf (skip l) with
    | 0 => literal .null (skip l)
    | 1 => literal (.bool true) (skip l)
    | 2 => literal (.bool false) (skip l)
    | 3 => (parseString fuel (skip l).tail).map fun r => (.str (String.ofList r.1), r.2)
    | 4 =>
      match skip (skip l).tail with
      | ']' :: l => some (.arr [], l)
      | l => do
        let (x, l) ← parseValue fuel l
        let (xs, l) ← parseItems fuel l
        return (.arr (x :: xs), l)
    | 5 =>
      match skip (skip l).tail with
      | '\x7d' :: l => some (.obj [], l)
      | l => do
        let (f, l) ← parseField fuel l
        let (fs, l) ← parseFields fuel l
        return (.obj ((f :: fs).foldl put []), l)
    | _ =>
      (ReadableNumber.read ((skip l).takeWhile isNumeric)).map fun n =>
        (.num n, (skip l).dropWhile isNumeric)

/-- The items after the first. -/
def parseItems : ℕ → List Char → Option (List (Json ν) × List Char)
  | 0, _ => none
  | fuel + 1, l =>
    match skip l with
    | ']' :: l => some ([], l)
    | ',' :: l => do
      let (x, l) ← parseValue fuel l
      let (xs, l) ← parseItems fuel l
      return (x :: xs, l)
    | _ => none

def parseField : ℕ → List Char → Option ((String × Json ν) × List Char)
  | 0, _ => none
  | fuel + 1, l =>
    match skip l with
    | '"' :: l =>
      match parseString fuel l with
      | none => none
      | some (k, l) =>
        match skip l with
        | ':' :: l => (parseValue fuel l).map fun r => ((String.ofList k, r.1), r.2)
        | _ => none
    | _ => none

/-- The fields after the first. -/
def parseFields : ℕ → List Char → Option (List (String × Json ν) × List Char)
  | 0, _ => none
  | fuel + 1, l =>
    match skip l with
    | '\x7d' :: l => some ([], l)
    | ',' :: l => do
      let (f, l) ← parseField fuel l
      let (fs, l) ← parseFields fuel l
      return (f :: fs, l)
    | _ => none

end

/-- `JSON.parse`. -/
def parse (text : String) : Option (Json ν) :=
  match parseValue (text.toList.length + 1) text.toList with
  | some (v, l) => if skip l = [] then some v else none
  | none => none

example : (parse " [1 , \x7b\"b\":null,\"2\":\"\\u00e9\\/\",\"b\":[ ] \x7d]" : Option (Json ℕ))
    = some (.arr [.num 1, .obj [("2", .str "é/"), ("b", .arr [])]]) := by decide +kernel

theorem isSpace_isNumeric {c : Char} (h : isNumeric c = true) : isSpace c = false := by
  rw [Bool.eq_false_iff]
  intro hs
  simp only [isSpace, List.contains_eq_mem, List.mem_cons, List.not_mem_nil, or_false,
    decide_eq_true_eq] at hs
  obtain rfl | rfl | rfl | rfl := hs <;> exact absurd h (by decide)

theorem skip_cons {c : Char} (h : isSpace c = false) (l : List Char) : skip (c :: l) = c :: l :=
  List.dropWhile_cons_of_neg (by simp [h])

theorem skip_chars (j : Json ν) (l : List Char) : skip (chars j ++ l) = chars j ++ l := by
  cases j with
  | null => rfl
  | bool b => cases b <;> rfl
  | num n =>
    rcases ht : JsonNumber.text n with _ | ⟨c, cs⟩
    · exact absurd ht (JsonNumber.text_ne_nil n)
    · have hc := JsonNumber.text_chars n c (ht ▸ List.mem_cons_self)
      rw [chars, ht]
      exact skip_cons (isSpace_isNumeric (by rw [isNumeric, hc]; rfl)) _
  | str s => rw [chars, JsString.toList_quote]; rfl
  | arr items => cases items <;> rfl
  | obj fields => cases fields <;> rfl

/-- A number is not gone on with. -/
def Halts (l : List Char) : Prop := ∀ c, l.head? = some c → isNumeric c = false

theorem halts_nil : Halts [] := by
  rintro c hc
  cases hc

theorem halts_cons {c : Char} (h : isNumeric c = false) (l : List Char) : Halts (c :: l) := by
  intro d hd
  obtain rfl : c = d := Option.some.inj hd
  exact h

theorem halts_itemsRest (xs : List (Json ν)) (l : List Char) : Halts (itemsRest xs ++ l) := by
  cases xs <;> exact halts_cons (by decide) _

theorem halts_fieldsRest (fs : List (String × Json ν)) (l : List Char) :
    Halts (fieldsRest fs ++ l) := by
  cases fs <;> exact halts_cons (by decide) _

theorem parse_num (n : ν) {l : List Char} (hl : Halts l) (fuel : ℕ) :
    parseValue (fuel + 1) (JsonNumber.text n ++ l) = some (.num n, l) := by
  have hall : ∀ c ∈ JsonNumber.text n, isNumeric c = true := by
    intro c hc
    rw [isNumeric, JsonNumber.text_chars n c hc]
    rfl
  have hskip : skip (JsonNumber.text n ++ l) = JsonNumber.text n ++ l := skip_chars (.num n) l
  have htake : (JsonNumber.text n ++ l).takeWhile isNumeric = JsonNumber.text n := by
    rw [List.takeWhile_append_of_pos hall]
    rcases l with _ | ⟨c, l⟩
    · simp
    · rw [List.takeWhile_cons_of_neg (by simp [hl c rfl]), List.append_nil]
  have hdrop : (JsonNumber.text n ++ l).dropWhile isNumeric = l := by
    rw [List.dropWhile_append_of_pos hall]
    rcases l with _ | ⟨c, l⟩
    · rfl
    · rw [List.dropWhile_cons_of_neg (by simp [hl c rfl])]
  rw [parseValue, hskip, kindOf_text]
  simp only
  rw [htake, hdrop, ReadableNumber.read_text]
  rfl

theorem literal_chars (v : Json ν) (l : List Char) : literal v (chars v ++ l) = some (v, l) := by
  rw [literal, if_pos (by simp), List.drop_left]

omit [ReadableNumber ν] in
theorem foldl_put : ∀ (fs acc : List (String × Json ν)),
    ((acc ++ fs).map Prod.fst).Pairwise (precedes · ·) → fs.foldl put acc = acc ++ fs
  | [], acc, _ => by simp
  | f :: fs, acc, h => by
    have hbefore : ∀ g ∈ acc, precedes g.1 f.1 = true := by
      intro g hg
      rw [List.map_append, List.pairwise_append] at h
      exact h.2.2 g.1 (List.mem_map_of_mem hg) f.1 (by simp)
    have hnew : f.1 ∉ acc.map Prod.fst := by
      intro hf
      obtain ⟨g, hg, he⟩ := List.mem_map.1 hf
      have := hbefore g hg
      simp [precedes, he] at this
    have hput : put acc f = acc ++ [f] := by
      rw [put, if_neg hnew, List.takeWhile_eq_self_iff.2 hbefore,
        List.dropWhile_eq_nil_iff.2 hbefore]
    rw [List.foldl_cons, hput, foldl_put fs (acc ++ [f]) (by simpa using h), List.append_assoc]
    rfl

theorem chars_length_pos (j : Json ν) : 0 < (chars j).length := by
  cases j with
  | null => exact Nat.succ_pos _
  | bool b => cases b <;> exact Nat.succ_pos _
  | num n => exact List.length_pos_iff.2 (JsonNumber.text_ne_nil n)
  | str s => rw [chars, JsString.toList_quote]; exact Nat.succ_pos _
  | arr items => cases items <;> exact Nat.succ_pos _
  | obj fields => cases fields <;> exact Nat.succ_pos _

theorem length_quote (s : String) :
    (JsString.quote s).toList.length = (s.toList.flatMap JsString.escape).length + 2 := by
  rw [JsString.toList_quote]
  simp

theorem quote_ne {c : Char} (hc : '"' ≠ c) {k : String} {l l' : List Char} :
    (JsString.quote k).toList ++ l ≠ c :: l' := by
  rw [JsString.toList_quote, List.cons_append]
  intro h
  exact hc (List.cons.inj h).1

theorem skip_quote (k : String) (l : List Char) :
    skip ((JsString.quote k).toList ++ l) = (JsString.quote k).toList ++ l := by
  rw [JsString.toList_quote, List.cons_append, skip_cons (by decide)]

theorem parse_field {k : String} {v : Json ν} {fuel : ℕ} {l : List Char}
    (hf : (JsString.quote k).toList.length < fuel + 1)
    (hv : parseValue fuel (chars v ++ l) = some (v, l)) :
    parseField (fuel + 1) ((JsString.quote k).toList ++ ':' :: (chars v ++ l))
      = some ((k, v), l) := by
  have hlen := length_le_escape k.toList
  rw [length_quote] at hf
  rw [JsString.toList_quote, List.cons_append, List.append_assoc, parseField,
    skip_cons (by decide)]
  simp only [List.singleton_append]
  rw [parseString_escape _ _ (by omega)]
  simp only
  rw [skip_cons (by decide)]
  simp only
  rw [hv, String.ofList_toList]
  rfl

mutual

theorem parse_chars : ∀ (v : Json ν) {fuel : ℕ} {l : List Char}, v.wellFormed = true → Halts l →
    (chars v).length ≤ fuel → parseValue fuel (chars v ++ l) = some (v, l)
  | v, 0, l, _, _, hf => absurd (chars_length_pos v) (by omega)
  | .null, fuel + 1, l, _, _, _ => literal_chars .null l
  | .bool true, fuel + 1, l, _, _, _ => literal_chars (.bool true) l
  | .bool false, fuel + 1, l, _, _, _ => literal_chars (.bool false) l
  | .num n, fuel + 1, l, _, hl, _ => parse_num n hl fuel
  | .str s, fuel + 1, l, _, _, hf => by
    have hskip := skip_chars (ν := ν) (.str s) l
    have hkind := kindOf_chars (ν := ν) (.str s) l
    have hlen := length_le_escape s.toList
    rw [chars, length_quote] at hf
    rw [parseValue, hskip, hkind, chars, JsString.toList_quote]
    simp only [kind, List.cons_append, List.append_assoc, List.tail_cons]
    rw [List.nil_append, parseString_escape _ _ (by omega)]
    simp
  | .arr [], fuel + 1, l, _, _, _ => rfl
  | .arr (x :: xs), fuel + 1, l, hw, _, hf => by
    rw [wellFormed, everyObj, everyItem, Bool.and_eq_true] at hw
    simp only [chars, List.length_cons, List.length_append] at hf
    have hx : parseValue fuel (chars x ++ (itemsRest xs ++ l)) = some (x, itemsRest xs ++ l) :=
      parse_chars x hw.1 (halts_itemsRest xs l) (by omega)
    have hxs : parseItems fuel (itemsRest xs ++ l) = some (xs, l) :=
      parse_itemsRest xs hw.2 (by omega)
    have hskip := skip_chars x (itemsRest xs ++ l)
    have hkind := kindOf_chars (.arr (x :: xs)) l
    rw [parseValue, skip_chars, hkind]
    simp only [kind, chars, List.cons_append, List.append_assoc, List.tail_cons]
    rw [hskip]
    split
    · rename_i hclose
      exact absurd hclose (chars_ne_close x)
    · rw [hx]
      simp only [Option.bind_eq_bind, Option.bind_some]
      rw [hxs]
      rfl
  | .obj [], fuel + 1, l, _, _, _ => rfl
  | .obj ((k, v) :: fs), fuel + 1, l, hw, _, hf => by
    rw [wellFormed, everyObj, everyField, Bool.and_eq_true, Bool.and_eq_true,
      decide_eq_true_eq] at hw
    simp only [chars, List.length_cons, List.length_append] at hf
    have hpos := chars_length_pos v
    obtain ⟨fuel, rfl⟩ : ∃ m, fuel = m + 1 := ⟨fuel - 1, by omega⟩
    have hv : parseValue fuel (chars v ++ (fieldsRest fs ++ l)) = some (v, fieldsRest fs ++ l) :=
      parse_chars v hw.2.1 (halts_fieldsRest fs l) (by omega)
    have hfield := parse_field (k := k) (by omega) hv
    have hfs : parseFields (fuel + 1) (fieldsRest fs ++ l) = some (fs, l) :=
      parse_fieldsRest fs hw.2.2 (by omega)
    have hkind := kindOf_chars (.obj ((k, v) :: fs)) l
    rw [parseValue, skip_chars, hkind]
    simp only [kind, chars, List.cons_append, List.append_assoc, List.tail_cons]
    rw [skip_quote]
    split
    · rename_i hclose
      exact absurd hclose (quote_ne (by decide))
    · rw [hfield]
      simp only [Option.bind_eq_bind, Option.bind_some]
      rw [hfs]
      simp only [Option.bind_some]
      rw [foldl_put _ [] hw.1]
      rfl

theorem parse_itemsRest : ∀ (xs : List (Json ν)) {fuel : ℕ} {l : List Char},
    everyItem (fun keys => keys.Pairwise (precedes · ·)) xs = true →
    (itemsRest xs).length ≤ fuel → parseItems fuel (itemsRest xs ++ l) = some (xs, l)
  | [], 0, _, _, hf => absurd hf (by simp [itemsRest])
  | x :: xs, 0, _, _, hf => absurd hf (by simp [itemsRest])
  | [], fuel + 1, l, _, _ => rfl
  | x :: xs, fuel + 1, l, hw, hf => by
    rw [everyItem, Bool.and_eq_true] at hw
    simp only [itemsRest, List.length_cons, List.length_append] at hf
    have hx : parseValue fuel (chars x ++ (itemsRest xs ++ l)) = some (x, itemsRest xs ++ l) :=
      parse_chars x hw.1 (halts_itemsRest xs l) (by omega)
    have hxs : parseItems fuel (itemsRest xs ++ l) = some (xs, l) :=
      parse_itemsRest xs hw.2 (by omega)
    rw [itemsRest, List.cons_append, List.append_assoc, parseItems, skip_cons (by decide)]
    simp only [Option.bind_eq_bind]
    rw [hx, Option.bind_some, hxs]
    rfl

theorem parse_fieldsRest : ∀ (fs : List (String × Json ν)) {fuel : ℕ} {l : List Char},
    everyField (fun keys => keys.Pairwise (precedes · ·)) fs = true →
    (fieldsRest fs).length ≤ fuel → parseFields fuel (fieldsRest fs ++ l) = some (fs, l)
  | [], 0, _, _, hf => absurd hf (by simp [fieldsRest])
  | f :: fs, 0, _, _, hf => absurd hf (by simp [fieldsRest])
  | [], fuel + 1, l, _, _ => rfl
  | (k, v) :: fs, fuel + 1, l, hw, hf => by
    rw [everyField, Bool.and_eq_true] at hw
    simp only [fieldsRest, List.length_cons, List.length_append] at hf
    have hpos := chars_length_pos v
    obtain ⟨fuel, rfl⟩ : ∃ m, fuel = m + 1 := ⟨fuel - 1, by omega⟩
    have hv : parseValue fuel (chars v ++ (fieldsRest fs ++ l)) = some (v, fieldsRest fs ++ l) :=
      parse_chars v hw.1 (halts_fieldsRest fs l) (by omega)
    have hfield := parse_field (k := k) (by omega) hv
    have hfs : parseFields (fuel + 1) (fieldsRest fs ++ l) = some (fs, l) :=
      parse_fieldsRest fs hw.2 (by omega)
    rw [fieldsRest, List.cons_append, List.append_assoc, List.cons_append, List.append_assoc,
      parseFields, skip_cons (by decide)]
    simp only [Option.bind_eq_bind]
    rw [hfield, Option.bind_some, hfs]
    rfl

end

theorem parse_stringify {v : Json ν} (hw : v.wellFormed = true) : parse (stringify v) = some v := by
  have hread : parseValue ((chars v).length + 1) (chars v ++ []) = some (v, []) :=
    parse_chars v hw halts_nil (by omega)
  rw [List.append_nil] at hread
  rw [parse, stringify, String.toList_ofList, hread]
  rfl

end Values

end Json
