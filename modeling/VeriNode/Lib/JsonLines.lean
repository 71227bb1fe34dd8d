import VeriNode.Lib.JsonParse

/-!
# Files of JSON, a value to a line

The text of a value has no line break in it (`not_control_chars`), so that a file to which such
texts were appended, each with a line break after it, splits into them again (`splitLines_lines`).
-/

namespace Json

section Lines

/-- The pieces of `split(/\r?\n/)`. -/
def splitLines : List Char → List (List Char)
  | [] => [[]]
  | '\r' :: '\n' :: cs => [] :: splitLines cs
  | '\n' :: cs => [] :: splitLines cs
  | c :: cs =>
    match splitLines cs with
    | [] => [[c]]
    | line :: lines => (c :: line) :: lines

example : splitLines ['a', '\r', '\r', '\n', '\n', 'b'] = [['a', '\r'], [], ['b']] := by decide

/-- Control characters, the line breaks among them. -/
def isControl (c : Char) : Bool := c.toNat < 0x20

theorem splitLines_append {line : List Char} (h : ∀ c ∈ line, isControl c = false)
    (rest : List Char) : splitLines (line ++ '\n' :: rest) = line :: splitLines rest := by
  induction line with
  | nil => rw [List.nil_append, splitLines]
  | cons c line ih =>
    have hc : isControl c = false := h c List.mem_cons_self
    rw [List.cons_append, splitLines, ih fun d hd => h d (List.mem_cons_of_mem _ hd)]
    · rintro cs rfl
      exact absurd hc (by decide)
    · rintro rfl
      exact absurd hc (by decide)

theorem splitLines_lines {lines : List (List Char)}
    (h : ∀ line ∈ lines, ∀ c ∈ line, isControl c = false) :
    splitLines (lines.flatMap (· ++ ['\n'])) = lines ++ [[]] := by
  induction lines with
  | nil => rfl
  | cons line lines ih =>
    rw [List.forall_mem_cons] at h
    rw [List.flatMap_cons, List.append_assoc, List.singleton_append, splitLines_append h.1, ih h.2,
      List.cons_append]

end Lines

section Text

theorem forall_not_control {cs : List Char} (h : cs.any isControl = false) :
    ∀ c ∈ cs, isControl c = false :=
  fun c hc => eq_false_of_ne_true (List.any_eq_false.1 h c hc)

theorem not_control_escape (c : Char) : ∀ d ∈ JsString.escape c, isControl d = false := by
  have hc : Char.ofNat c.toNat = c := Char.ofNat_toNat c
  by_cases hlow : c.toNat < 0x20
  · rw [← hc]
    generalize c.toNat = n at hlow
    interval_cases n <;> exact forall_not_control rfl
  · by_cases hq : c.toNat = 0x22
    · rw [← hc, hq]
      exact forall_not_control rfl
    · by_cases hb : c.toNat = 0x5C
      · rw [← hc, hb]
        exact forall_not_control rfl
      · rw [JsString.escape_of_plain hlow hq hb, List.forall_mem_singleton]
        exact decide_eq_false hlow

theorem not_control_quote (s : String) :
    ∀ c ∈ (JsString.quote s).toList, isControl c = false := by
  rw [JsString.toList_quote]
  intro c hc
  rcases List.mem_cons.1 hc with rfl | hc
  · rfl
  · rcases List.mem_append.1 hc with hc | hc
    · obtain ⟨d, -, hc⟩ := List.mem_flatMap.1 hc
      exact not_control_escape d c hc
    · rw [List.mem_singleton.1 hc]
      rfl

theorem not_control_of_isNumberChar {c : Char} (h : isNumberChar c = true) :
    isControl c = false := by
  unfold isNumberChar at h
  rw [Bool.or_eq_true] at h
  rcases h with h | h
  · have hlow : 48 ≤ c.toNat := (of_decide_eq_true (Bool.and_eq_true_iff.1 h).1 : '0'.val ≤ c.val)
    exact decide_eq_false (by omega)
  · simp only [List.contains_eq_mem, List.mem_cons, List.not_mem_nil, or_false,
      decide_eq_true_eq] at h
    obtain rfl | rfl | rfl | rfl := h <;> rfl

variable {ν : Type*} [JsonNumber ν]

mutual

theorem not_control_chars : ∀ (j : Json ν), ∀ c ∈ chars j, isControl c = false
  | .null => forall_not_control rfl
  | .bool true => forall_not_control rfl
  | .bool false => forall_not_control rfl
  | .num n => fun c hc => not_control_of_isNumberChar (JsonNumber.text_chars n c hc)
  | .str s => not_control_quote s
  | .arr [] => forall_not_control rfl
  | .arr (x :: xs) => by
    rw [chars, List.forall_mem_cons, List.forall_mem_append]
    exact ⟨rfl, not_control_chars x, not_control_itemsRest xs⟩
  | .obj [] => forall_not_control rfl
  | .obj ((k, v) :: fs) => by
    rw [chars, List.forall_mem_cons, List.forall_mem_append, List.forall_mem_cons,
      List.forall_mem_append]
    exact ⟨rfl, not_control_quote k, rfl, not_control_chars v, not_control_fieldsRest fs⟩

theorem not_control_itemsRest : ∀ (xs : List (Json ν)), ∀ c ∈ itemsRest xs, isControl c = false
  | [] => forall_not_control rfl
  | x :: xs => by
    rw [itemsRest, List.forall_mem_cons, List.forall_mem_append]
    exact ⟨rfl, not_control_chars x, not_control_itemsRest xs⟩

theorem not_control_fieldsRest : ∀ (fs : List (String × Json ν)),
    ∀ c ∈ fieldsRest fs, isControl c = false
  | [] => forall_not_control rfl
  | (k, v) :: fs => by
    rw [fieldsRest, List.forall_mem_cons, List.forall_mem_append, List.forall_mem_cons,
      List.forall_mem_append]
    exact ⟨rfl, not_control_quote k, rfl, not_control_chars v, not_control_fieldsRest fs⟩

end

end Text

end Json
