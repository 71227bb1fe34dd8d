import Mathlib.Data.List.Nodup

/-!
# Lists of fields

An object as the list of its keys and values, where a key is looked up. Of distinct keys each has the
value it stands with (`lookup_eq_some_iff_mem`), and so what is looked up is the same in any order
(`lookup_perm`).
-/

namespace Fields

variable {κ α β : Type*} [DecidableEq κ] {k : κ} {v : α} {fs gs : List (κ × α)}

theorem lookup_cons (k : κ) (f : κ × α) (fs : List (κ × α)) :
    (f :: fs).lookup k = if k = f.1 then some f.2 else fs.lookup k := by
  obtain ⟨l, v⟩ := f
  rw [List.lookup_cons]
  by_cases h : k = l
  · rw [if_pos h, beq_iff_eq.2 h]
  · rw [if_neg h, beq_false_of_ne h]

theorem lookup_eq_some_iff_mem (hn : (fs.map Prod.fst).Nodup) :
    fs.lookup k = some v ↔ (k, v) ∈ fs := by
  induction fs with
  | nil => simp
  | cons f fs ih =>
    obtain ⟨l, w⟩ := f
    rw [List.map_cons, List.nodup_cons] at hn
    rw [lookup_cons, List.mem_cons, Prod.mk.injEq]
    by_cases hk : k = l
    · have hnot : (k, v) ∉ fs := fun hm => hn.1 (List.mem_map.2 ⟨_, hm, hk⟩)
      simp only [hk, if_true, true_and, Option.some.injEq, eq_comm]
      exact (or_iff_left (hk ▸ hnot)).symm
    · simp [hk, ih hn.2]

theorem lookup_isSome_iff_mem : (fs.lookup k).isSome ↔ k ∈ fs.map Prod.fst := by
  simp only [List.lookup_isSome_iff, beq_iff_eq, List.mem_map]
  constructor
  · rintro ⟨f, hf, rfl⟩
    exact ⟨f, hf, rfl⟩
  · rintro ⟨f, hf, rfl⟩
    exact ⟨f, hf, rfl⟩

theorem lookup_eq_none_iff_not_mem : fs.lookup k = none ↔ k ∉ fs.map Prod.fst := by
  rw [← lookup_isSome_iff_mem, Option.not_isSome_iff_eq_none]

theorem exists_lookup_of_mem (hk : k ∈ fs.map Prod.fst) : ∃ v, fs.lookup k = some v :=
  Option.isSome_iff_exists.1 (lookup_isSome_iff_mem.2 hk)

theorem mem_of_lookup (h : fs.lookup k = some v) : (k, v) ∈ fs := by
  obtain ⟨l, r, rfl, -⟩ := List.lookup_eq_some_iff.1 h
  exact List.mem_append_right _ List.mem_cons_self

theorem lookup_perm (hn : (fs.map Prod.fst).Nodup) (h : fs.Perm gs) :
    fs.lookup k = gs.lookup k := by
  have hn' : (gs.map Prod.fst).Nodup := (h.map _).nodup_iff.1 hn
  refine Option.ext fun v => ?_
  rw [lookup_eq_some_iff_mem hn, lookup_eq_some_iff_mem hn']
  exact h.mem_iff

theorem lookup_filter {p : κ → Bool} :
    (fs.filter fun f => p f.1).lookup k = if p k = true then fs.lookup k else none := by
  induction fs with
  | nil => simp
  | cons f fs ih =>
    rw [List.filter_cons]
    split_ifs with hp hpk hpk
    · rw [lookup_cons, lookup_cons, ih, if_pos hpk]
    · have hk : k ≠ f.1 := fun hk => hpk (hk ▸ hp)
      rw [lookup_cons, if_neg hk, ih, if_neg hpk]
    · have hk : k ≠ f.1 := fun hk => hp (hk ▸ hpk)
      rw [lookup_cons, if_neg hk, ih, if_pos hpk]
    · rw [ih, if_neg hpk]

theorem lookup_mapValues (g : α → β) (k : κ) (fs : List (κ × α)) :
    (fs.map fun f => (f.1, g f.2)).lookup k = (fs.lookup k).map g := by
  induction fs with
  | nil => rfl
  | cons f fs ih =>
    rw [List.map_cons, lookup_cons, lookup_cons, ih]
    split_ifs <;> rfl

theorem eq_of_lookup (hkeys : fs.map Prod.fst = gs.map Prod.fst) (hn : (fs.map Prod.fst).Nodup)
    (h : ∀ k, fs.lookup k = gs.lookup k) : fs = gs := by
  have hn' : (gs.map Prod.fst).Nodup := hkeys ▸ hn
  refine List.ext_getElem (by simpa using congrArg List.length hkeys) fun i hi hi' => ?_
  have hkey : fs[i].1 = gs[i].1 := by
    have := congrArg (fun l => l[i]?) hkeys
    simpa [hi, hi'] using this
  have hf : fs.lookup fs[i].1 = some fs[i].2 :=
    (lookup_eq_some_iff_mem hn).2 (List.getElem_mem hi)
  have hg : gs.lookup gs[i].1 = some gs[i].2 :=
    (lookup_eq_some_iff_mem hn').2 (List.getElem_mem hi')
  rw [hkey, h, hg] at hf
  exact Prod.ext hkey (Option.some.inj hf).symm

end Fields
