import VeriNode.Lib.JsString

/-!
# JSON values and their texts

A JSON value, over numbers of which only the text is known that is written for them, and what
`JSON.stringify` writes for a value. A text that is followed by something no number goes on with is
read in one way (`chars_append`), so the text of a value determines it (`stringify_injective`). An
object keeps the order of its keys; the objects of the language have no key twice, and those keys
first that are array indices, in their order (`Json.wellFormed`).
-/

/-- A character of a number. -/
def isNumberChar (c : Char) : Bool := c.isDigit || ['-', '+', '.', 'e'].contains c

/-- Numbers, by the text that is written for them: a double that is finite, `0` and `-0` being the
same. -/
class JsonNumber (ν : Type*) where
  text : ν → List Char
  text_injective : Function.Injective text
  text_ne_nil : ∀ n, text n ≠ []
  text_chars : ∀ n, ∀ c ∈ text n, isNumberChar c = true

/-- The integers from zero on, up to the largest that is safe, are written with their digits. -/
instance : JsonNumber ℕ where
  text := Nat.toDigits 10
  text_injective m n h := by
    have hm := congrArg (Nat.ofDigitChars 10 · 0) h
    simpa [Nat.ofDigitChars_ten_toDigits] using hm
  text_ne_nil _ := Nat.toDigits_ne_nil
  text_chars _ _ hc := by
    simp [isNumberChar, Nat.isDigit_of_mem_toDigits (by decide) (by decide) hc]

inductive Json (ν : Type*) where
  | null
  | bool (b : Bool)
  | num (n : ν)
  | str (s : String)
  | arr (items : List (Json ν))
  | obj (fields : List (String × Json ν))

namespace Json

variable {ν : Type*}

section Text

variable [JsonNumber ν]

mutual

/-- `JSON.stringify`, as characters. -/
def chars : Json ν → List Char
  | .null => ['n', 'u', 'l', 'l']
  | .bool true => ['t', 'r', 'u', 'e']
  | .bool false => ['f', 'a', 'l', 's', 'e']
  | .num n => JsonNumber.text n
  | .str s => (JsString.quote s).toList
  | .arr [] => ['[', ']']
  | .arr (x :: xs) => '[' :: (chars x ++ itemsRest xs)
  | .obj [] => ['\x7b', '\x7d']
  | .obj (f :: fs) =>
    '\x7b' :: ((JsString.quote f.1).toList ++ ':' :: (chars f.2 ++ fieldsRest fs))

/-- The items after the first, and the end of the array. -/
def itemsRest : List (Json ν) → List Char
  | [] => [']']
  | x :: xs => ',' :: (chars x ++ itemsRest xs)

/-- The fields after the first, and the end of the object. -/
def fieldsRest : List (String × Json ν) → List Char
  | [] => ['\x7d']
  | f :: fs => ',' :: ((JsString.quote f.1).toList ++ ':' :: (chars f.2 ++ fieldsRest fs))

end

/-- `JSON.stringify`. -/
def stringify (j : Json ν) : String := String.ofList (chars j)

example : stringify (.obj [("a", .arr [.num 10, .null]), ("b\n", .str "|")] : Json ℕ)
    = "\x7b\"a\":[10,null],\"b\\n\":\"|\"\x7d" := by decide

end Text

section Reading

/-- A number does not go on with this. -/
def Stops (l : List Char) : Prop := ∀ c, l.head? = some c → isNumberChar c = false

/-- The kind of a value, by the character its text begins with. -/
def kindOf (l : List Char) : ℕ :=
  match l.head? with
  | some 'n' => 0
  | some 't' => 1
  | some 'f' => 2
  | some '"' => 3
  | some '[' => 4
  | some '\x7b' => 5
  | _ => 6

def kind : Json ν → ℕ
  | .null => 0
  | .bool true => 1
  | .bool false => 2
  | .str _ => 3
  | .arr _ => 4
  | .obj _ => 5
  | .num _ => 6

variable [JsonNumber ν] {l l' : List Char}

theorem kindOf_text (n : ν) (l : List Char) : kindOf (JsonNumber.text n ++ l) = 6 := by
  rcases ht : JsonNumber.text n with _ | ⟨c, cs⟩
  · exact absurd ht (JsonNumber.text_ne_nil n)
  · have hc := JsonNumber.text_chars n c (ht ▸ List.mem_cons_self)
    unfold kindOf
    simp only [List.cons_append, List.head?_cons]
    have hne : ∀ d, isNumberChar d = false → c ≠ d := by
      rintro d hd rfl
      rw [hd] at hc
      cases hc
    split <;> rename_i hh
    · exact absurd (Option.some.inj hh) (hne _ (by decide))
    · exact absurd (Option.some.inj hh) (hne _ (by decide))
    · exact absurd (Option.some.inj hh) (hne _ (by decide))
    · exact absurd (Option.some.inj hh) (hne _ (by decide))
    · exact absurd (Option.some.inj hh) (hne _ (by decide))
    · exact absurd (Option.some.inj hh) (hne _ (by decide))
    · rfl

theorem kindOf_chars (j : Json ν) (l : List Char) : kindOf (chars j ++ l) = kind j := by
  cases j with
  | null => rfl
  | bool b => cases b <;> rfl
  | num n => exact kindOf_text n l
  | str s =>
    simp only [chars, JsString.toList_quote]
    rfl
  | arr items => cases items <;> rfl
  | obj fields => cases fields <;> rfl

theorem stops_cons {c : Char} (hc : isNumberChar c = false) : Stops (c :: l) := by
  intro d hd
  obtain rfl : c = d := Option.some.inj hd
  exact hc

theorem takeWhile_text (n : ν) (hs : Stops l) :
    (JsonNumber.text n ++ l).takeWhile isNumberChar = JsonNumber.text n := by
  rw [List.takeWhile_append_of_pos (JsonNumber.text_chars n)]
  rcases l with _ | ⟨c, l⟩
  · simp
  · have hc : ¬ isNumberChar c = true := by simp [hs c rfl]
    rw [List.takeWhile_cons_of_neg hc, List.append_nil]

theorem text_append {n n' : ν} (hs : Stops l) (hs' : Stops l')
    (h : JsonNumber.text n ++ l = JsonNumber.text n' ++ l') : n = n' ∧ l = l' := by
  have hn : JsonNumber.text n = JsonNumber.text n' := by
    rw [← takeWhile_text n hs, h, takeWhile_text n' hs']
  exact ⟨JsonNumber.text_injective hn, List.append_cancel_left (hn ▸ h)⟩

theorem stops_itemsRest (xs : List (Json ν)) (l : List Char) : Stops (itemsRest xs ++ l) := by
  cases xs <;> exact stops_cons (by decide)

theorem stops_fieldsRest (fs : List (String × Json ν)) (l : List Char) :
    Stops (fieldsRest fs ++ l) := by
  cases fs <;> exact stops_cons (by decide)

theorem chars_ne_close (j : Json ν) : chars j ++ l ≠ ']' :: l' := by
  intro h
  have hk : kind j = 6 := by rw [← kindOf_chars j l, h]; rfl
  cases j with
  | num n =>
    rcases ht : JsonNumber.text n with _ | ⟨c, cs⟩
    · exact absurd ht (JsonNumber.text_ne_nil n)
    · have hc := JsonNumber.text_chars n c (ht ▸ List.mem_cons_self)
      rw [chars, ht] at h
      obtain ⟨rfl, -⟩ := List.cons.inj h
      exact absurd hc (by decide)
  | bool b => cases b <;> cases hk
  | _ => cases hk

mutual

/-- A text that a number does not go on after is read in one way. -/
theorem chars_append : ∀ (j j' : Json ν) {l l' : List Char}, Stops l → Stops l' →
    chars j ++ l = chars j' ++ l' → j = j' ∧ l = l'
  | .null, j', l, l', hs, hs', h => by
    have hk : kind j' = 0 := by rw [← kindOf_chars j' l', ← h, kindOf_chars]; rfl
    cases j' with
    | null => exact ⟨rfl, List.append_cancel_left h⟩
    | bool b => cases b <;> cases hk
    | _ => cases hk
  | .bool true, j', l, l', hs, hs', h => by
    have hk : kind j' = 1 := by rw [← kindOf_chars j' l', ← h, kindOf_chars]; rfl
    cases j' with
    | bool b =>
      cases b with
      | true => exact ⟨rfl, List.append_cancel_left h⟩
      | false => cases hk
    | _ => cases hk
  | .bool false, j', l, l', hs, hs', h => by
    have hk : kind j' = 2 := by rw [← kindOf_chars j' l', ← h, kindOf_chars]; rfl
    cases j' with
    | bool b =>
      cases b with
      | true => cases hk
      | false => exact ⟨rfl, List.append_cancel_left h⟩
    | _ => cases hk
  | .num n, j', l, l', hs, hs', h => by
    have hk : kind j' = 6 := by rw [← kindOf_chars j' l', ← h, kindOf_chars]; rfl
    cases j' with
    | num n' =>
      obtain ⟨rfl, hl⟩ := text_append hs hs' h
      exact ⟨rfl, hl⟩
    | bool b => cases b <;> cases hk
    | _ => cases hk
  | .str s, j', l, l', hs, hs', h => by
    have hk : kind j' = 3 := by rw [← kindOf_chars j' l', ← h, kindOf_chars]; rfl
    cases j' with
    | str s' =>
      obtain ⟨rfl, hl⟩ := JsString.quote_append h
      exact ⟨rfl, hl⟩
    | bool b => cases b <;> cases hk
    | _ => cases hk
  | .arr items, j', l, l', hs, hs', h => by
    have hk : kind j' = 4 := by rw [← kindOf_chars j' l', ← h, kindOf_chars]; rfl
    cases j' with
    | arr items' =>
      obtain ⟨rfl, hl⟩ := items_append items items' h
      exact ⟨rfl, hl⟩
    | bool b => cases b <;> cases hk
    | _ => cases hk
  | .obj fields, j', l, l', hs, hs', h => by
    have hk : kind j' = 5 := by rw [← kindOf_chars j' l', ← h, kindOf_chars]; rfl
    cases j' with
    | obj fields' =>
      obtain ⟨rfl, hl⟩ := fields_append fields fields' h
      exact ⟨rfl, hl⟩
    | bool b => cases b <;> cases hk
    | _ => cases hk

theorem items_append : ∀ (xs xs' : List (Json ν)) {l l' : List Char},
    chars (.arr xs) ++ l = chars (.arr xs') ++ l' → xs = xs' ∧ l = l'
  | [], [], _, _, h => ⟨rfl, List.append_cancel_left h⟩
  | [], x' :: xs', l, l', h => by
    simp only [chars, List.cons_append, List.nil_append, List.append_assoc, List.cons.injEq,
      true_and] at h
    exact absurd h.symm (chars_ne_close x')
  | x :: xs, [], l, l', h => by
    simp only [chars, List.cons_append, List.nil_append, List.append_assoc, List.cons.injEq,
      true_and] at h
    exact absurd h (chars_ne_close x)
  | x :: xs, x' :: xs', l, l', h => by
    simp only [chars, List.cons_append, List.append_assoc, List.cons.injEq, true_and] at h
    obtain ⟨rfl, hrest⟩ := chars_append x x' (stops_itemsRest xs l) (stops_itemsRest xs' l') h
    obtain ⟨rfl, hl⟩ := itemsRest_append xs xs' hrest
    exact ⟨rfl, hl⟩

theorem itemsRest_append : ∀ (xs xs' : List (Json ν)) {l l' : List Char},
    itemsRest xs ++ l = itemsRest xs' ++ l' → xs = xs' ∧ l = l'
  | [], [], _, _, h => ⟨rfl, List.append_cancel_left h⟩
  | [], _ :: _, _, _, h => by cases h
  | _ :: _, [], _, _, h => by cases h
  | x :: xs, x' :: xs', l, l', h => by
    simp only [itemsRest, List.cons_append, List.append_assoc, List.cons.injEq, true_and] at h
    obtain ⟨rfl, hrest⟩ := chars_append x x' (stops_itemsRest xs l) (stops_itemsRest xs' l') h
    obtain ⟨rfl, hl⟩ := itemsRest_append xs xs' hrest
    exact ⟨rfl, hl⟩

theorem fields_append : ∀ (fs fs' : List (String × Json ν)) {l l' : List Char},
    chars (.obj fs) ++ l = chars (.obj fs') ++ l' → fs = fs' ∧ l = l'
  | [], [], _, _, h => ⟨rfl, List.append_cancel_left h⟩
  | [], f' :: fs', l, l', h => by
    simp only [chars, JsString.toList_quote, List.cons_append, List.nil_append,
      List.cons.injEq, true_and] at h
    exact absurd h.1 (by decide)
  | f :: fs, [], l, l', h => by
    simp only [chars, JsString.toList_quote, List.cons_append, List.nil_append,
      List.cons.injEq, true_and] at h
    exact absurd h.1 (by decide)
  | (k, v) :: fs, (k', v') :: fs', l, l', h => by
    simp only [chars, List.cons_append, List.append_assoc, List.cons.injEq, true_and] at h
    obtain ⟨rfl, hv⟩ := JsString.quote_append h
    simp only [List.cons.injEq, true_and] at hv
    obtain ⟨rfl, hrest⟩ := chars_append v v' (stops_fieldsRest fs l) (stops_fieldsRest fs' l') hv
    obtain ⟨rfl, hl⟩ := fieldsRest_append fs fs' hrest
    exact ⟨rfl, hl⟩

theorem fieldsRest_append : ∀ (fs fs' : List (String × Json ν)) {l l' : List Char},
    fieldsRest fs ++ l = fieldsRest fs' ++ l' → fs = fs' ∧ l = l'
  | [], [], _, _, h => ⟨rfl, List.append_cancel_left h⟩
  | [], _ :: _, _, _, h => by cases h
  | _ :: _, [], _, _, h => by cases h
  | (k, v) :: fs, (k', v') :: fs', l, l', h => by
    simp only [fieldsRest, List.cons_append, List.append_assoc, List.cons.injEq, true_and] at h
    obtain ⟨rfl, hv⟩ := JsString.quote_append h
    simp only [List.cons.injEq, true_and] at hv
    obtain ⟨rfl, hrest⟩ := chars_append v v' (stops_fieldsRest fs l) (stops_fieldsRest fs' l') hv
    obtain ⟨rfl, hl⟩ := fieldsRest_append fs fs' hrest
    exact ⟨rfl, hl⟩

end

theorem stringify_injective {j j' : Json ν} (h : stringify j = stringify j') : j = j' := by
  have hlist := String.ofList_injective h
  have hstops : Stops [] := by
    rintro c hc
    cases hc
  exact (chars_append j j' hstops hstops (by rw [hlist])).1

instance : DecidableEq (Json ν) := fun j j' =>
  decidable_of_iff (stringify j = stringify j') ⟨stringify_injective, congrArg stringify⟩

end Reading

section Keys

/-- A string of digits that is the name of an array index, as a number. -/
def arrayIndex (k : String) : Option ℕ :=
  let n := Nat.ofDigitChars 10 k.toList 0
  if Nat.toDigits 10 n = k.toList ∧ n < 2 ^ 32 - 1 then some n else none

example : ["7", "07", "", "a", "4294967295"].map arrayIndex = [some 7, none, none, none, none] := by
  decide

theorem arrayIndex_injective {k k' : String} {n : ℕ} (hk : arrayIndex k = some n)
    (hk' : arrayIndex k' = some n) : k = k' := by
  unfold arrayIndex at hk hk'
  simp only [Option.ite_none_right_eq_some, Option.some.injEq] at hk hk'
  obtain ⟨⟨hd, -⟩, rfl⟩ := hk
  obtain ⟨⟨hd', -⟩, he⟩ := hk'
  rw [he] at hd'
  exact String.toList_injective (hd.symm.trans hd')

/-- A key may stand before another in an object: it is not the same, and array indices come first,
in their order. -/
def precedes (k k' : String) : Bool :=
  k ≠ k' && match arrayIndex k', arrayIndex k with
    | none, _ => true
    | some n, some m => m < n
    | some _, none => false

mutual

/-- The keys of every object within. -/
def everyObj (p : List String → Bool) : Json ν → Bool
  | .arr items => everyItem p items
  | .obj fields => p (fields.map Prod.fst) && everyField p fields
  | _ => true

def everyItem (p : List String → Bool) : List (Json ν) → Bool
  | [] => true
  | x :: xs => everyObj p x && everyItem p xs

def everyField (p : List String → Bool) : List (String × Json ν) → Bool
  | [] => true
  | f :: fs => everyObj p f.2 && everyField p fs

end

/-- The objects within are objects of the language. -/
def wellFormed (j : Json ν) : Bool := everyObj (fun keys => keys.Pairwise (precedes · ·)) j

theorem everyItem_iff {p : List String → Bool} {xs : List (Json ν)} :
    everyItem p xs = true ↔ ∀ x ∈ xs, everyObj p x = true := by
  induction xs with
  | nil => simp [everyItem]
  | cons x xs ih => simp [everyItem, ih]

theorem everyField_iff {p : List String → Bool} {fs : List (String × Json ν)} :
    everyField p fs = true ↔ ∀ f ∈ fs, everyObj p f.2 = true := by
  induction fs with
  | nil => simp [everyField]
  | cons f fs ih => simp [everyField, ih]

end Keys

end Json

/-- A value of the language that is JSON. -/
structure JsValue (ν : Type*) where
  json : Json ν
  wellFormed : json.wellFormed = true
