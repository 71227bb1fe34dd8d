import Mathlib.Data.List.Basic

/-!
# Texts with separators

Parts are joined with a character between them, and a text is split at it. Parts without the
character are found again (`split_join`), and so are the parts of a number that is known, of which
all but the last are without it (`join_inj`).
-/

namespace Separated

section Lists

variable {α : Type*} [DecidableEq α] {sep : α}

theorem not_mem_of_mem_splitOn : ∀ (l : List α), ∀ part ∈ l.splitOn sep, sep ∉ part
  | [], part, h => by
    rw [List.splitOn_nil, List.mem_singleton] at h
    rw [h]
    exact List.not_mem_nil
  | c :: l, part, h => by
    have ih := not_mem_of_mem_splitOn l
    rw [List.splitOn_cons_eq_if_modifyHead] at h
    split_ifs at h with hc
    · rcases List.mem_cons.1 h with rfl | hm
      · exact List.not_mem_nil
      · exact ih part hm
    · obtain ⟨x, xs, hx⟩ := List.exists_cons_of_ne_nil (List.splitOn_ne_nil sep l)
      rw [hx] at h ih
      rcases List.mem_cons.1 h with rfl | hm
      · rw [List.mem_cons, not_or]
        exact ⟨fun he => hc (by rw [he]; exact beq_self_eq_true c), ih x List.mem_cons_self⟩
      · exact ih part (List.mem_cons_of_mem _ hm)

theorem append_cons_inj {a b c d : List α} (ha : sep ∉ a) (hb : sep ∉ b)
    (h : a ++ sep :: c = b ++ sep :: d) : a = b ∧ c = d := by
  have hsplit := congrArg (List.splitOn sep) h
  rw [List.splitOn_append_cons_self_of_not_mem ha, List.splitOn_append_cons_self_of_not_mem hb,
    List.cons.injEq] at hsplit
  obtain ⟨rfl, -⟩ := hsplit
  exact ⟨rfl, (List.cons.inj (List.append_cancel_left h)).2⟩

theorem intercalate_inj : ∀ {ps qs : List (List α)}, ps.length = qs.length →
    (∀ p ∈ ps.dropLast, sep ∉ p) → (∀ q ∈ qs.dropLast, sep ∉ q) →
    [sep].intercalate ps = [sep].intercalate qs → ps = qs
  | [], [], _, _, _, _ => rfl
  | [p], [q], _, _, _, h => by simpa using h
  | p :: p' :: ps, q :: q' :: qs, hlen, hp, hq, h => by
    rw [List.intercalate_cons_cons, List.intercalate_cons_cons, List.append_assoc,
      List.append_assoc] at h
    rw [List.dropLast_cons_cons, List.forall_mem_cons] at hp hq
    obtain ⟨rfl, hrest⟩ := append_cons_inj hp.1 hq.1 h
    rw [intercalate_inj (Nat.succ.inj hlen) hp.2 hq.2 hrest]

end Lists

section Texts

/-- `parts.join(sep)`. -/
def join (sep : Char) (parts : List String) : String :=
  String.ofList ([sep].intercalate (parts.map String.toList))

/-- `text.split(sep)`. -/
def split (sep : Char) (text : String) : List String :=
  (text.toList.splitOn sep).map String.ofList

variable {sep : Char} {parts qs : List String}

theorem not_mem_of_mem_split {part text : String} (h : part ∈ split sep text) :
    sep ∉ part.toList := by
  obtain ⟨p, hp, rfl⟩ := List.mem_map.1 h
  rw [String.toList_ofList]
  exact not_mem_of_mem_splitOn _ _ hp

theorem split_join (hne : parts ≠ []) (h : ∀ p ∈ parts, sep ∉ p.toList) :
    split sep (join sep parts) = parts := by
  have hparts : ∀ l ∈ parts.map String.toList, sep ∉ l := by
    intro l hl
    obtain ⟨p, hp, rfl⟩ := List.mem_map.1 hl
    exact h p hp
  unfold split join
  rw [String.toList_ofList, List.splitOn_intercalate sep hparts (by simpa using hne), List.map_map]
  simp

theorem join_inj (hlen : parts.length = qs.length) (hp : ∀ p ∈ parts.dropLast, sep ∉ p.toList)
    (hq : ∀ q ∈ qs.dropLast, sep ∉ q.toList) (h : join sep parts = join sep qs) : parts = qs := by
  have hfree : ∀ {l : List String}, (∀ p ∈ l.dropLast, sep ∉ p.toList) →
      ∀ p ∈ (l.map String.toList).dropLast, sep ∉ p := by
    intro l hl p hp
    rw [← List.map_dropLast] at hp
    obtain ⟨s, hs, rfl⟩ := List.mem_map.1 hp
    exact hl s hs
  have hlists := intercalate_inj (by simpa using hlen) (hfree hp) (hfree hq) (String.ofList_inj.1 h)
  exact List.map_injective_iff.2 (fun _ _ => String.toList_inj.1) hlists

end Texts

end Separated
