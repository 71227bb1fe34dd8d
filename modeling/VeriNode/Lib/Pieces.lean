import Mathlib.Data.List.Nodup
import VeriNode.Lib.OrdMap

/-!
# Lists in pieces

A list cut into pieces of one length, of which the last may be shorter (`chunks`), and the groups of
a list by a key, in the order in which the keys first occur (`groups`). The pieces are the list, in
its order; a group has the elements of its key, in the list's order. An element of pieces that have
no element twice is in one of them (`length_filter_mem_eq_one`).
-/

namespace Pieces

variable {α κ : Type*}

section Chunks

/-- The pieces of length `n`, as a loop over their starts makes them. -/
def chunks (n : ℕ) (l : List α) : List (List α) :=
  (List.range ((l.length + n - 1) / n)).map fun i => (l.drop (i * n)).take n

theorem flatten_pieces (l : List α) (n : ℕ) : ∀ m : ℕ,
    ((List.range m).map fun i => (l.drop (i * n)).take n).flatten = l.take (m * n)
  | 0 => by simp
  | m + 1 => by
    rw [List.range_succ, List.map_append, List.flatten_append, flatten_pieces l n m,
      Nat.succ_mul, List.take_add]
    simp

variable {n : ℕ} {l : List α}

theorem lt_of_lt_chunks (hn : 0 < n) {i : ℕ} (hi : i < (l.length + n - 1) / n) :
    i * n < l.length := by
  have h1 : (i + 1) * n ≤ l.length + n - 1 := (Nat.le_div_iff_mul_le hn).1 hi
  rw [Nat.succ_mul] at h1
  omega

@[simp] theorem flatten_chunks (hn : 0 < n) : (chunks n l).flatten = l := by
  unfold chunks
  rw [flatten_pieces]
  refine List.take_of_length_le ?_
  have h1 := Nat.lt_div_mul_add (a := l.length + n - 1) hn
  omega

theorem length_of_mem_chunks (hn : 0 < n) {c : List α} (hc : c ∈ chunks n l) :
    1 ≤ c.length ∧ c.length ≤ n := by
  obtain ⟨i, hi, rfl⟩ := List.mem_map.1 hc
  have hlt := lt_of_lt_chunks hn (List.mem_range.1 hi)
  rw [List.length_take, List.length_drop]
  omega

theorem mem_of_mem_chunks (hn : 0 < n) {c : List α} (hc : c ∈ chunks n l) {a : α} (ha : a ∈ c) :
    a ∈ l := by
  rw [← flatten_chunks (l := l) hn]
  exact List.mem_flatten.2 ⟨c, hc, ha⟩

end Chunks

section Groups

variable [DecidableEq κ]

/-- The element joins its group. -/
def join (key : α → κ) (m : OrdMap κ (List α)) (a : α) : OrdMap κ (List α) :=
  m.set (key a) ((m.get (key a)).getD [] ++ [a])

def groups (key : α → κ) (l : List α) : OrdMap κ (List α) := l.foldl (join key) ∅

variable {key : α → κ}

theorem get_foldl_join : ∀ (l : List α) (m : OrdMap κ (List α)) (k : κ),
    ((l.foldl (join key) m).get k).getD [] = (m.get k).getD [] ++ l.filter (key · = k)
  | [], m, k => by simp
  | a :: l, m, k => by
    rw [List.foldl_cons, get_foldl_join l, join, OrdMap.get_set]
    by_cases hk : k = key a
    · subst hk
      simp
    · rw [if_neg hk, List.filter_cons_of_neg (by simpa using fun h => hk h.symm)]

theorem get_groups (l : List α) (k : κ) :
    ((groups key l).get k).getD [] = l.filter (key · = k) := by
  unfold groups
  rw [get_foldl_join]
  rfl

theorem group_of_mem {l : List α} {e : κ × List α} (he : e ∈ (groups key l).entries) :
    e.2 = l.filter (key · = e.1) := by
  have : ((groups key l).get e.1).getD [] = _ := get_groups l e.1
  rw [OrdMap.mem_entries_iff.1 he] at this
  exact this

theorem mem_keys_foldl_join : ∀ (l : List α) (m : OrdMap κ (List α)) {k : κ},
    k ∈ (l.foldl (join key) m).keys ↔ k ∈ m.keys ∨ ∃ a ∈ l, key a = k
  | [], m, k => by simp
  | a :: l, m, k => by
    have hjoin : k ∈ (join key m a).keys ↔ k ∈ m.keys ∨ key a = k := by
      rw [join, OrdMap.keys_set]
      split_ifs with hk
      · rw [List.mem_append, List.mem_singleton, eq_comm (a := k)]
      · rw [OrdMap.get_eq_none_iff, not_not] at hk
        exact ⟨.inl, fun h => h.elim id fun h => h ▸ hk⟩
    rw [List.foldl_cons, mem_keys_foldl_join l, hjoin, List.exists_mem_cons_iff, or_assoc]

theorem mem_keys_groups {l : List α} {k : κ} : k ∈ (groups key l).keys ↔ ∃ a ∈ l, key a = k := by
  have hempty : k ∉ (∅ : OrdMap κ (List α)).keys := List.not_mem_nil
  rw [groups, mem_keys_foldl_join, or_iff_right hempty]

theorem filter_flatMap_entries : ∀ {es : List (κ × List α)}, (es.map Prod.fst).Nodup →
    (∀ e ∈ es, ∀ a ∈ e.2, key a = e.1) → ∀ k,
    (es.flatMap Prod.snd).filter (key · = k) =
      (((es.find? (·.1 = k)).map Prod.snd).getD [])
  | [], _, _, k => by simp
  | e :: es, hn, hk, k => by
    obtain ⟨hne, hn⟩ := List.nodup_cons.1 hn
    rw [List.forall_mem_cons] at hk
    rw [List.flatMap_cons, List.filter_append, filter_flatMap_entries hn hk.2 k]
    by_cases he : e.1 = k
    · have hnone : es.find? (·.1 = k) = none := by
        refine List.find?_eq_none.2 fun d hd => ?_
        simpa using fun hdk : d.1 = k => hne (List.mem_map.2 ⟨d, hd, hdk.trans he.symm⟩)
      have hall : e.2.filter (key · = k) = e.2 :=
        List.filter_eq_self.2 fun a ha => by simpa using (hk.1 a ha).trans he
      rw [hnone, hall, List.find?_cons_of_pos (by simpa using he)]
      simp
    · have hnil : e.2.filter (key · = k) = [] :=
        List.filter_eq_nil_iff.2 fun a ha => by simpa [hk.1 a ha] using he
      rw [hnil, List.nil_append, List.find?_cons_of_neg (by simpa using he)]

theorem filter_groups (l : List α) (k : κ) :
    ((groups key l).entries.flatMap Prod.snd).filter (key · = k) = l.filter (key · = k) := by
  rw [filter_flatMap_entries (groups key l).nodup, ← get_groups]
  · rfl
  · intro e he a ha
    rw [group_of_mem he] at ha
    simpa using (List.mem_filter.1 ha).2

theorem perm_of_filter_eq [DecidableEq α] (key : α → κ) {l l' : List α}
    (h : ∀ k, l.filter (key · = k) = l'.filter (key · = k)) : l.Perm l' := by
  refine List.perm_iff_count.2 fun a => ?_
  have hcount : ∀ m : List α, m.count a = (m.filter (key · = key a)).count a := fun m =>
    (List.count_filter (by simp)).symm
  rw [hcount l, hcount l', h]

theorem length_flatMap_groups (l : List α) :
    ((groups key l).entries.flatMap Prod.snd).length = l.length := by
  have : DecidableEq α := Classical.decEq α
  exact (perm_of_filter_eq key (filter_groups l)).length_eq

end Groups

section Places

variable [DecidableEq α]

theorem length_filter_mem_eq_one : ∀ {ls : List (List α)} {a : α}, ls.flatten.Nodup →
    a ∈ ls.flatten → (ls.filter (a ∈ ·)).length = 1
  | [], a, _, ha => by simp at ha
  | l :: ls, a, hn, ha => by
    rw [List.flatten_cons] at hn ha
    obtain ⟨-, hls, hdis⟩ := List.nodup_append.1 hn
    by_cases hl : a ∈ l
    · have hnone : ls.filter (a ∈ ·) = [] := List.filter_eq_nil_iff.2 fun m hm => by
        intro ham
        exact hdis a hl a (List.mem_flatten.2 ⟨m, hm, by simpa using ham⟩) rfl
      rw [List.filter_cons_of_pos (by simpa using hl), hnone]
      rfl
    · rw [List.filter_cons_of_neg (by simpa using hl)]
      exact length_filter_mem_eq_one hls ((List.mem_append.1 ha).resolve_left hl)

end Places

end Pieces
