import Mathlib.Data.List.Nodup
import Mathlib.Algebra.BigOperators.Group.List.Basic
import Mathlib.Data.List.Dedup
import Mathlib.Data.Finset.Card

/-!
# Insertion-ordered maps

A finite map that remembers the order its keys were first set in, as the entries of a
JavaScript `Map` are, and as the rows of a table with a primary key may be listed. Setting a key
that is present replaces its value in place; setting a new one appends it. The entries carry the
proof that no key occurs twice, so that a key has at most one value (`mem_entries_iff`) and a sum
over the values moves by what a single update does (`sum_set`, `sum_delete`).
-/

/-- A list of entries, no key occurring twice. -/
structure OrdMap (κ ν : Type*) where
  entries : List (κ × ν)
  nodup : (entries.map Prod.fst).Nodup

namespace OrdMap

variable {κ ν : Type*}

/-- The map with no entries. -/
def empty : OrdMap κ ν := ⟨[], List.nodup_nil⟩

instance : EmptyCollection (OrdMap κ ν) := ⟨empty⟩

instance : Inhabited (OrdMap κ ν) := ⟨empty⟩

/-- The keys, oldest first. -/
def keys (m : OrdMap κ ν) : List κ := m.entries.map Prod.fst

/-- The values, oldest key first. -/
def values (m : OrdMap κ ν) : List ν := m.entries.map Prod.snd

/-- How many keys the map has. -/
def size (m : OrdMap κ ν) : ℕ := m.entries.length

theorem eq_empty_of_size {m : OrdMap κ ν} (h : m.size = 0) : m = ∅ := by
  obtain ⟨l, hn⟩ := m
  obtain rfl : l = [] := List.length_eq_zero_iff.1 h
  rfl

variable [DecidableEq κ]

/-- The value at a key. -/
def get (m : OrdMap κ ν) (k : κ) : Option ν := (m.entries.find? (·.1 = k)).map Prod.snd

/-- Whether the key is present. -/
def has (m : OrdMap κ ν) (k : κ) : Bool := (m.get k).isSome

/-- The map without a key. -/
def delete (m : OrdMap κ ν) (k : κ) : OrdMap κ ν where
  entries := m.entries.filter (·.1 ≠ k)
  nodup := m.nodup.sublist (List.Sublist.map _ List.filter_sublist)

/-- The entries with the value at `k` replaced. -/
def replaceIn (k : κ) (v : ν) (l : List (κ × ν)) : List (κ × ν) :=
  l.map fun e => if e.1 = k then (k, v) else e

theorem keys_replaceIn (k : κ) (v : ν) (l : List (κ × ν)) :
    (replaceIn k v l).map Prod.fst = l.map Prod.fst := by
  unfold replaceIn
  rw [List.map_map]
  refine List.map_congr_left fun e _ => ?_
  by_cases h : e.1 = k <;> simp [h]

theorem find?_eq_none_of_not_mem {l : List (κ × ν)} {k : κ} (h : k ∉ l.map Prod.fst) :
    l.find? (·.1 = k) = none := by
  rw [List.find?_eq_none]
  intro e he hk
  exact h (List.mem_map.2 ⟨e, he, by simpa using hk⟩)

theorem get_eq_none_iff {m : OrdMap κ ν} {k : κ} : m.get k = none ↔ k ∉ m.keys := by
  unfold get keys
  rw [Option.map_eq_none_iff, List.find?_eq_none]
  simp only [List.mem_map, not_exists, not_and, decide_eq_true_eq]

theorem has_iff {m : OrdMap κ ν} {k : κ} : m.has k = true ↔ ∃ v, m.get k = some v := by
  simp [has, Option.isSome_iff_exists]

theorem has_eq_false_iff {m : OrdMap κ ν} {k : κ} : m.has k = false ↔ m.get k = none := by
  simp [has]

theorem nodup_append_new {m : OrdMap κ ν} {k : κ} (h : m.get k = none) (v : ν) :
    ((m.entries ++ [(k, v)]).map Prod.fst).Nodup := by
  rw [List.map_append, List.nodup_append]
  refine ⟨m.nodup, List.nodup_singleton _, fun a ha b hb => ?_⟩
  rintro rfl
  simp only [List.map_cons, List.map_nil, List.mem_singleton] at hb
  subst hb
  exact get_eq_none_iff.1 h ha

/-- The map with `v` at `k`: in place of the old value, or as the newest entry. -/
def set (m : OrdMap κ ν) (k : κ) (v : ν) : OrdMap κ ν :=
  if h : m.get k = none then ⟨m.entries ++ [(k, v)], nodup_append_new h v⟩
  else ⟨replaceIn k v m.entries, by rw [keys_replaceIn]; exact m.nodup⟩

theorem find?_of_mem_nodup : ∀ {l : List (κ × ν)} {k : κ} {v : ν},
    (l.map Prod.fst).Nodup → (k, v) ∈ l → l.find? (·.1 = k) = some (k, v)
  | [], _, _, _, h => by simp at h
  | e :: l, k, v, hn, h => by
    simp only [List.map_cons, List.nodup_cons, List.mem_map, not_exists, not_and] at hn
    rcases List.mem_cons.1 h with rfl | h
    · simp
    · have hne : e.1 ≠ k := fun he => hn.1 _ h he.symm
      rw [List.find?_cons_of_neg (by simpa using hne)]
      exact find?_of_mem_nodup hn.2 h

theorem mem_entries_iff {m : OrdMap κ ν} {k : κ} {v : ν} :
    (k, v) ∈ m.entries ↔ m.get k = some v := by
  constructor
  · intro h
    simp [get, find?_of_mem_nodup m.nodup h]
  · intro h
    obtain ⟨e, he, rfl⟩ := Option.map_eq_some_iff.1 h
    have hk := List.find?_some he
    have hm := List.mem_of_find?_eq_some he
    simp only [decide_eq_true_eq] at hk
    subst hk
    exact hm

theorem of_any_eq_false {m : OrdMap κ ν} {p : κ × ν → Bool} {k : κ} {v : ν}
    (h : m.entries.any p = false) (hg : m.get k = some v) : p (k, v) = false :=
  eq_false_of_ne_true (List.any_eq_false.1 h (k, v) (mem_entries_iff.2 hg))

@[simp] theorem get_empty (k : κ) : (∅ : OrdMap κ ν).get k = none := rfl

@[simp] theorem get_set_self (m : OrdMap κ ν) (k : κ) (v : ν) : (m.set k v).get k = some v := by
  rw [← mem_entries_iff]
  unfold set
  split_ifs with h
  · simp
  · have hm : k ∈ m.keys := by
      by_contra hk
      exact h (get_eq_none_iff.2 hk)
    obtain ⟨e, he, hek⟩ := List.mem_map.1 hm
    exact List.mem_map.2 ⟨e, he, by rw [if_pos hek]⟩

theorem get_set_of_ne (m : OrdMap κ ν) {k k' : κ} (v : ν) (h : k' ≠ k) :
    (m.set k v).get k' = m.get k' := by
  refine Option.ext fun w => ?_
  rw [← mem_entries_iff, ← mem_entries_iff]
  unfold set
  split_ifs with hn
  · simp [h]
  · simp only [replaceIn, List.mem_map]
    constructor
    · rintro ⟨e, he, hew⟩
      split_ifs at hew with hk
      · exact absurd (Prod.mk.inj hew).1.symm h
      · exact hew ▸ he
    · intro hm
      exact ⟨(k', w), hm, by rw [if_neg h]⟩

theorem get_set (m : OrdMap κ ν) (k k' : κ) (v : ν) :
    (m.set k v).get k' = if k' = k then some v else m.get k' := by
  split_ifs with h
  · rw [h, get_set_self]
  · exact get_set_of_ne m v h

@[simp] theorem get_delete_self (m : OrdMap κ ν) (k : κ) : (m.delete k).get k = none := by
  rw [get_eq_none_iff]
  simp [keys, delete]

theorem get_delete_of_ne (m : OrdMap κ ν) {k k' : κ} (h : k' ≠ k) :
    (m.delete k).get k' = m.get k' := by
  refine Option.ext fun w => ?_
  rw [← mem_entries_iff, ← mem_entries_iff]
  simp [delete, h]

theorem get_delete (m : OrdMap κ ν) (k k' : κ) :
    (m.delete k).get k' = if k' = k then none else m.get k' := by
  split_ifs with h
  · rw [h, get_delete_self]
  · exact get_delete_of_ne m h

theorem of_get_set {m : OrdMap κ ν} {k k' : κ} {v w : ν} (h : (m.set k v).get k' = some w) :
    (k' = k ∧ w = v) ∨ (k' ≠ k ∧ m.get k' = some w) := by
  rw [get_set] at h
  split_ifs at h with he
  · exact .inl ⟨he, (Option.some.inj h).symm⟩
  · exact .inr ⟨he, h⟩

theorem of_get_delete {m : OrdMap κ ν} {k k' : κ} {w : ν} (h : (m.delete k).get k' = some w) :
    k' ≠ k ∧ m.get k' = some w := by
  rw [get_delete] at h
  split_ifs at h with he
  exact ⟨he, h⟩

theorem filter_ne_of_not_mem {l : List (κ × ν)} {k : κ} (h : k ∉ l.map Prod.fst) :
    l.filter (·.1 ≠ k) = l := by
  refine List.filter_eq_self.2 fun e he => ?_
  simp only [ne_eq, decide_not, Bool.not_eq_true', decide_eq_false_iff_not]
  rintro rfl
  exact h (List.mem_map_of_mem he)

theorem delete_of_get_eq_none {m : OrdMap κ ν} {k : κ} (h : m.get k = none) : m.delete k = m := by
  obtain ⟨l, hn⟩ := m
  have hl : l.filter (·.1 ≠ k) = l := filter_ne_of_not_mem (get_eq_none_iff.1 h)
  unfold delete
  simp only [hl]

theorem exists_oldest {m : OrdMap κ ν} (h : m.size ≠ 0) :
    ∃ k v, m.keys.head? = some k ∧ m.get k = some v := by
  obtain ⟨_ | ⟨e, l⟩, hn⟩ := m
  · exact absurd rfl h
  · exact ⟨e.1, e.2, rfl, by simp [get]⟩

theorem size_delete_oldest {m : OrdMap κ ν} {k : κ} (h : m.keys.head? = some k) :
    (m.delete k).size + 1 = m.size := by
  obtain ⟨l, hn⟩ := m
  rcases l with _ | ⟨e, l⟩
  · simp [keys] at h
  · simp only [keys, List.map_cons, List.head?_cons, Option.some.injEq] at h
    subst h
    simp only [List.map_cons, List.nodup_cons] at hn
    simp only [size, delete, List.length_cons]
    rw [List.filter_cons_of_neg (by simp), filter_ne_of_not_mem hn.1]

theorem keys_delete (m : OrdMap κ ν) (k : κ) : (m.delete k).keys = m.keys.filter (· ≠ k) := by
  unfold keys delete
  rw [List.filter_map]
  rfl

theorem keys_set (m : OrdMap κ ν) (k : κ) (v : ν) :
    (m.set k v).keys = if m.get k = none then m.keys ++ [k] else m.keys := by
  unfold keys set
  split_ifs with h
  · exact List.map_append
  · exact keys_replaceIn k v m.entries

theorem size_set_le (m : OrdMap κ ν) (k : κ) (v : ν) : (m.set k v).size ≤ m.size + 1 := by
  unfold set size
  split_ifs <;> simp [replaceIn]

theorem perm_of_get_eq {m m' : OrdMap κ ν} (h : ∀ k, m.get k = m'.get k) :
    m.entries.Perm m'.entries := by
  have hnd : ∀ m : OrdMap κ ν, m.entries.Nodup := fun m => List.Nodup.of_map _ m.nodup
  refine (List.perm_ext_iff_of_nodup (hnd m) (hnd m')).2 fun ⟨k, v⟩ => ?_
  rw [mem_entries_iff, mem_entries_iff, h]

section Sum

variable {A : Type*} [AddCommGroup A]

/-- The sum of `f` over the entries. -/
def sum (m : OrdMap κ ν) (f : κ → ν → A) : A := (m.entries.map fun e => f e.1 e.2).sum

/-- What the key contributes to a sum. -/
def term (m : OrdMap κ ν) (f : κ → ν → A) (k : κ) : A := ((m.get k).map (f k)).getD 0

omit [DecidableEq κ] in
@[simp] theorem sum_empty (f : κ → ν → A) : (∅ : OrdMap κ ν).sum f = 0 := rfl

theorem sum_filter_ne : ∀ (l : List (κ × ν)) (f : κ → ν → A) (k : κ),
    (l.map Prod.fst).Nodup →
    ((l.filter (·.1 ≠ k)).map fun e => f e.1 e.2).sum
      + ((l.find? (·.1 = k)).map fun e => f e.1 e.2).getD 0
      = (l.map fun e => f e.1 e.2).sum
  | [], _, _, _ => by simp
  | e :: l, f, k, hn => by
    simp only [List.map_cons, List.nodup_cons] at hn
    have ih := sum_filter_ne l f k hn.2
    by_cases he : e.1 = k
    · have hk : k ∉ l.map Prod.fst := he ▸ hn.1
      rw [find?_eq_none_of_not_mem hk] at ih
      simp only [Option.map_none, Option.getD_none, add_zero] at ih
      rw [List.filter_cons_of_neg (by simp [he]), List.find?_cons_of_pos (by simp [he]), ih]
      simp [add_comm]
    · rw [List.filter_cons_of_pos (by simp [he]), List.find?_cons_of_neg (by simp [he])]
      simp only [List.map_cons, List.sum_cons, ← ih, add_assoc]

theorem sum_delete (m : OrdMap κ ν) (f : κ → ν → A) (k : κ) :
    (m.delete k).sum f = m.sum f - m.term f k := by
  have h := sum_filter_ne m.entries f k m.nodup
  have ht : m.term f k = ((m.entries.find? (·.1 = k)).map fun e => f e.1 e.2).getD 0 := by
    unfold term get
    rcases hf : m.entries.find? (·.1 = k) with _ | e <;> rw [hf]
    · rfl
    · have he := List.find?_some hf
      simp only [decide_eq_true_eq] at he
      simp [he]
  rw [ht]
  exact eq_sub_of_add_eq h

theorem sum_eq_of_get_eq {m m' : OrdMap κ ν} (f : κ → ν → A) (h : ∀ k, m.get k = m'.get k) :
    m.sum f = m'.sum f :=
  ((perm_of_get_eq h).map _).sum_eq

theorem sum_set (m : OrdMap κ ν) (f : κ → ν → A) (k : κ) (v : ν) :
    (m.set k v).sum f = m.sum f - m.term f k + f k v := by
  have hd := sum_delete (m.set k v) f k
  have ht : (m.set k v).term f k = f k v := by simp [term]
  have hs : ((m.set k v).delete k).sum f = (m.delete k).sum f := by
    refine sum_eq_of_get_eq f fun k' => ?_
    rw [get_delete, get_delete]
    split_ifs with hk
    · rfl
    · exact get_set_of_ne m v hk
  rw [ht, hs, sum_delete] at hd
  rw [hd, sub_add_cancel]

end Sum

section Map

variable {μ : Type*} (f : ν → μ)

omit [DecidableEq κ] in
theorem nodup_map (m : OrdMap κ ν) :
    ((m.entries.map fun e => (e.1, f e.2)).map Prod.fst).Nodup := by
  rw [List.map_map]
  exact m.nodup

/-- The map with the values as the function has them. -/
def map (m : OrdMap κ ν) : OrdMap κ μ := ⟨m.entries.map fun e => (e.1, f e.2), m.nodup_map f⟩

theorem get_map (m : OrdMap κ ν) (k : κ) : (m.map f).get k = (m.get k).map f := by
  refine Option.ext fun w => ?_
  rw [← mem_entries_iff, Option.map_eq_some_iff]
  simp only [map, List.mem_map, Prod.mk.injEq]
  constructor
  · rintro ⟨e, he, rfl, rfl⟩
    exact ⟨e.2, mem_entries_iff.1 he, rfl⟩
  · rintro ⟨v, hv, rfl⟩
    exact ⟨(k, v), mem_entries_iff.2 hv, rfl, rfl⟩

theorem entries_set (m : OrdMap κ ν) (k : κ) (v : ν) : (m.set k v).entries
    = if m.get k = none then m.entries ++ [(k, v)] else replaceIn k v m.entries := by
  unfold set
  split_ifs <;> rfl

theorem set_map (m : OrdMap κ ν) (k : κ) (v : ν) : (m.map f).set k (f v) = (m.set k v).map f := by
  have hentries : ((m.map f).set k (f v)).entries = ((m.set k v).map f).entries := by
    have hget := m.get_map f k
    simp only [map] at hget ⊢
    rw [entries_set, entries_set]
    rcases hk : m.get k with _ | w
    · rw [hk] at hget
      simp [hget]
    · rw [hk, Option.map_some] at hget
      rw [hget, if_neg (Option.some_ne_none _), if_neg (Option.some_ne_none _), replaceIn, replaceIn,
        List.map_map, List.map_map]
      refine List.map_congr_left fun e _ => ?_
      by_cases he : e.1 = k <;> simp [he]
  generalize (m.map f).set k (f v) = m₁ at hentries
  generalize (m.set k v).map f = m₂ at hentries
  obtain ⟨l, hl⟩ := m₁
  obtain rfl : l = m₂.entries := hentries
  rfl

end Map

section Numbered

variable {α β : Type*}

/-- Calls known by their numbers, and their answers: no number from `n` on has been given out, and
a call that is under way has no answer. -/
structure Numbered (n : ℕ) (calls : OrdMap ℕ α) (answers : OrdMap ℕ β) : Prop where
  fresh : ∀ id, n ≤ id → calls.get id = none ∧ answers.get id = none
  unanswered : ∀ id call, calls.get id = some call → answers.get id = none

namespace Numbered

variable {n id : ℕ} {calls : OrdMap ℕ α} {answers : OrdMap ℕ β} {call : α} {answer : β}

theorem lt (h : Numbered n calls answers) (hc : calls.get id = some call) : id < n := by
  by_contra hle
  rw [(h.fresh id (Nat.le_of_not_lt hle)).1] at hc
  cases hc

theorem start (h : Numbered n calls answers) (call : α) :
    Numbered (n + 1) (calls.set n call) answers := by
  refine ⟨fun id hle => ?_, fun id call' hc => ?_⟩
  · rw [get_set_of_ne _ _ (Nat.ne_of_gt hle)]
    exact h.fresh id (Nat.le_of_succ_le hle)
  · rcases of_get_set hc with ⟨rfl, -⟩ | ⟨-, hc⟩
    · exact (h.fresh id le_rfl).2
    · exact h.unanswered id call' hc

theorem startFinished (h : Numbered n calls answers) (answer : β) :
    Numbered (n + 1) calls (answers.set n answer) := by
  refine ⟨fun id hle => ?_, fun id call hc => ?_⟩
  · rw [get_set_of_ne _ _ (Nat.ne_of_gt hle)]
    exact h.fresh id (Nat.le_of_succ_le hle)
  · rw [get_set_of_ne _ _ (Nat.ne_of_lt (h.lt hc))]
    exact h.unanswered id call hc

theorem goOn (h : Numbered n calls answers) (hc : calls.get id = some call) (call' : α) :
    Numbered n (calls.set id call') answers := by
  refine ⟨fun id' hle => ?_, fun id' call'' hc' => ?_⟩
  · rw [get_set_of_ne _ _ (Nat.ne_of_gt ((h.lt hc).trans_le hle))]
    exact h.fresh id' hle
  · rcases of_get_set hc' with ⟨rfl, -⟩ | ⟨-, hc'⟩
    · exact h.unanswered _ call hc
    · exact h.unanswered id' call'' hc'

theorem abort (h : Numbered n calls answers) (id : ℕ) : Numbered n (calls.delete id) answers := by
  refine ⟨fun id' hle => ⟨?_, (h.fresh id' hle).2⟩, fun id' call hc => ?_⟩
  · rw [get_delete, (h.fresh id' hle).1, ite_self]
  · exact h.unanswered id' call (of_get_delete hc).2

theorem finish (h : Numbered n calls answers) (hc : calls.get id = some call) (answer : β) :
    Numbered n (calls.delete id) (answers.set id answer) := by
  have habort := h.abort id
  refine ⟨fun id' hle => ⟨(habort.fresh id' hle).1, ?_⟩, fun id' call' hc' => ?_⟩
  · rw [get_set_of_ne _ _ (Nat.ne_of_gt ((h.lt hc).trans_le hle))]
    exact (h.fresh id' hle).2
  · rw [get_set_of_ne _ _ (of_get_delete hc').1]
    exact habort.unanswered id' call' hc'

theorem answered (h : Numbered n calls answers) {id' : ℕ} (ha : answers.get id' = some answer)
    (hid : id = n ∨ ∃ call, calls.get id = some call) (answer' : β) :
    (answers.set id answer').get id' = some answer := by
  have hnone : answers.get id = none := by
    rcases hid with rfl | ⟨call, hc⟩
    · exact (h.fresh _ le_rfl).2
    · exact h.unanswered id call hc
  rw [get_set_of_ne, ha]
  rintro rfl
  rw [hnone] at ha
  cases ha

end Numbered

end Numbered

end OrdMap

/-!
# Insertion-ordered sets

The elements of a JavaScript `Set`, in the order they were first added, none of them twice. Two
subsets of a set of `n` elements share at least what their sizes exceed `n` by (`shared_ge`).
-/

/-- A list of elements, none occurring twice. -/
structure OrdSet (α : Type*) where
  elems : List α
  nodup : elems.Nodup

namespace OrdSet

variable {α : Type*}

instance : EmptyCollection (OrdSet α) := ⟨⟨[], List.nodup_nil⟩⟩

/-- How many elements the set has. -/
def size (s : OrdSet α) : ℕ := s.elems.length

variable [DecidableEq α]

/-- Whether the element is in the set. -/
def has (s : OrdSet α) (a : α) : Bool := a ∈ s.elems

omit [DecidableEq α] in
theorem nodup_append_new {s : OrdSet α} {a : α} (h : a ∉ s.elems) : (s.elems ++ [a]).Nodup := by
  rw [List.nodup_append]
  refine ⟨s.nodup, List.nodup_singleton _, fun b hb c hc => ?_⟩
  rintro rfl
  rw [List.mem_singleton] at hc
  exact h (hc ▸ hb)

/-- The set with the element, as its newest if it is new. -/
def add (s : OrdSet α) (a : α) : OrdSet α :=
  if h : a ∈ s.elems then s else ⟨s.elems ++ [a], nodup_append_new h⟩

/-- The elements of a list, each where it occurs first. -/
def ofList (xs : List α) : OrdSet α := xs.foldl add ∅

theorem has_iff {s : OrdSet α} {a : α} : s.has a = true ↔ a ∈ s.elems := by simp [has]

theorem elems_add_of_not_mem {s : OrdSet α} {a : α} (h : a ∉ s.elems) :
    (s.add a).elems = s.elems ++ [a] := by
  simp [add, h]

theorem mem_add {s : OrdSet α} {a b : α} : b ∈ (s.add a).elems ↔ b ∈ s.elems ∨ b = a := by
  by_cases h : a ∈ s.elems
  · simp only [add, h, dif_pos]
    exact ⟨.inl, fun hb => hb.elim id fun e => e ▸ h⟩
  · simp [elems_add_of_not_mem h]

theorem mem_foldl_add : ∀ {xs : List α} {s : OrdSet α} {a : α},
    a ∈ (xs.foldl add s).elems ↔ a ∈ s.elems ∨ a ∈ xs
  | [], s, a => by simp
  | x :: xs, s, a => by
    rw [List.foldl_cons, mem_foldl_add, mem_add, List.mem_cons, or_assoc]

@[simp] theorem mem_ofList {xs : List α} {a : α} : a ∈ (ofList xs).elems ↔ a ∈ xs := by
  unfold ofList
  rw [mem_foldl_add]
  exact ⟨fun h => h.elim (fun h => absurd h List.not_mem_nil) id, .inr⟩

theorem ofList_elems (s : OrdSet α) : (ofList s.elems).size = s.size := by
  refine (List.perm_ext_iff_of_nodup (ofList s.elems).nodup s.nodup).2 (fun a => ?_) |>.length_eq
  exact mem_ofList

/-- The elements of one list that are in the other. -/
def shared (xs ys : List α) : List α := xs.filter (· ∈ ys)

theorem shared_ge {xs ys zs : List α} (hx : xs.Nodup) (hy : ys.Nodup) (hxz : xs ⊆ zs)
    (hyz : ys ⊆ zs) : xs.length + ys.length ≤ zs.length + (shared xs ys).length := by
  have h1 : (xs.toFinset ∪ ys.toFinset).card ≤ zs.length := by
    refine le_trans (Finset.card_le_card (t := zs.toFinset) ?_) (List.toFinset_card_le zs)
    intro a ha
    simp only [Finset.mem_union, List.mem_toFinset] at ha ⊢
    exact ha.elim (fun h => hxz h) fun h => hyz h
  have h2 : (xs.toFinset ∩ ys.toFinset).card = (shared xs ys).length := by
    unfold shared
    rw [← List.toFinset_card_of_nodup (hx.filter _)]
    congr 1
    ext a
    simp
  have h3 := Finset.card_union_add_card_inter xs.toFinset ys.toFinset
  rw [List.toFinset_card_of_nodup hx, List.toFinset_card_of_nodup hy] at h3
  omega

end OrdSet
