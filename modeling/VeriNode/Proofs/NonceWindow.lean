import Mathlib
import VeriNode.Staking.SlashingSequencer

/-!
# A window of nonces

The slot of an index is taken exactly if the nonce of that index has been claimed and not released
since (`Inv`). A claim looks at every slot, so it finds one that is free if there is one; and while
one nonce is free and nothing is released, every claim takes another one of the rest, so they come to
an end before there are as many as the window has slots (`claims_of_quiet`).
-/

namespace VeriNode

namespace NonceWindow

variable {size : ℕ} {s s' : State} {h later : List (Taken State Action)} {n : ℤ} {O : Finset ℤ}

section Slots

/-- The nonces that have been claimed and not released since. -/
def outstanding (size : ℕ) : List (Taken State Action) → Finset ℤ
  | [] => ∅
  | t :: h =>
    match t.act with
    | .claim => (claim size t.pre).1.elim (outstanding size h) fun n => insert n (outstanding size h)
    | .release n => (outstanding size h).erase n

/-- The slots are those of the nonces that are outstanding. -/
structure Inv (size : ℕ) (s : State) (O : Finset ℤ) : Prop where
  length : s.slots.length = size
  slot : ∀ i < size, s.slots[i]? = some (if (i : ℤ) ∈ O then some (i : ℤ) else none)
  range : O ⊆ Finset.Ico 0 (size : ℤ)

theorem Inv.slot_eq_none_iff (hi : Inv size s O) {i : ℕ} (hlt : i < size) :
    s.slots[i]? = some none ↔ (i : ℤ) ∉ O := by
  rw [hi.slot i hlt]
  split_ifs with h <;> simp [h]

theorem Inv.slot_eq_some_iff (hi : Inv size s O) (i : ℕ) (n : ℤ) :
    s.slots[i]? = some (some n) ↔ n = i ∧ n ∈ O := by
  by_cases hlt : i < size
  · rw [hi.slot i hlt]
    split_ifs with h
    · rw [Option.some.injEq, Option.some.injEq, eq_comm]
      exact ⟨fun hn => ⟨hn, hn ▸ h⟩, And.left⟩
    · simp only [Option.some.injEq, reduceCtorEq, false_iff, not_and]
      rintro rfl
      exact h
  · rw [List.getElem?_eq_none (hi.length.trans_le (not_lt.1 hlt))]
    simp only [reduceCtorEq, false_iff, not_and]
    rintro rfl hn
    have hmem := Finset.mem_Ico.1 (hi.range hn)
    omega

theorem inv_construct (size : ℕ) : Inv size (construct size) ∅ := by
  refine ⟨List.length_replicate, fun i hlt => ?_, Finset.empty_subset _⟩
  rw [if_neg (Finset.notMem_empty _)]
  exact List.getElem?_replicate_of_lt hlt

theorem exists_index (head : ℕ) {j : ℕ} (hj : j < size) : ∃ i < size, (head + i) % size = j := by
  have hpos : 0 < size := Nat.zero_lt_of_lt hj
  have hmod := Nat.mod_lt head hpos
  refine ⟨(j + (size - head % size)) % size, Nat.mod_lt _ hpos, ?_⟩
  have hround : head + (j + (size - head % size)) = j + size * (head / size + 1) := by
    have hdiv := Nat.div_add_mod head size
    rw [Nat.mul_add_one]
    omega
  rw [Nat.add_mod_mod, hround, Nat.add_mul_mod_self_left, Nat.mod_eq_of_lt hj]

theorem freeIndex_eq_some (hi : Inv size s O) {index : ℕ} (h : freeIndex size s = some index) :
    index < size ∧ (index : ℤ) ∉ O := by
  have hfree := List.find?_some h
  obtain ⟨i, hmem, rfl⟩ := List.mem_map.1 (List.mem_of_find?_eq_some h)
  have hlt : (s.head + i) % size < size :=
    Nat.mod_lt _ (Nat.zero_lt_of_lt (List.mem_range.1 hmem))
  exact ⟨hlt, (hi.slot_eq_none_iff hlt).1 (of_decide_eq_true hfree)⟩

theorem freeIndex_eq_none_iff (hi : Inv size s O) :
    freeIndex size s = none ↔ O = Finset.Ico 0 (size : ℤ) := by
  unfold freeIndex
  rw [List.find?_eq_none]
  constructor
  · intro hnone
    refine hi.range.antisymm fun n hn => ?_
    obtain ⟨hzero, hlt⟩ := Finset.mem_Ico.1 hn
    obtain ⟨i, hmem, hj⟩ := exists_index s.head (show n.toNat < size by omega)
    have hslot := hnone n.toNat (List.mem_map.2 ⟨i, List.mem_range.2 hmem, hj⟩)
    rw [decide_eq_true_eq, hi.slot_eq_none_iff (by omega), not_not, Int.toNat_of_nonneg hzero]
      at hslot
    exact hslot
  · rintro rfl index hindex
    obtain ⟨i, hmem, rfl⟩ := List.mem_map.1 hindex
    have hlt : (s.head + i) % size < size :=
      Nat.mod_lt _ (Nat.zero_lt_of_lt (List.mem_range.1 hmem))
    rw [decide_eq_true_eq, hi.slot_eq_none_iff hlt, not_not, Finset.mem_Ico]
    omega

theorem inv_insert (hi : Inv size s O) {index : ℕ} (hlt : index < size) (head : ℕ) :
    Inv size { slots := s.slots.set index (some index), head } (insert (index : ℤ) O) := by
  refine ⟨List.length_set.trans hi.length, fun i hlt' => ?_, ?_⟩
  · rw [List.getElem?_set, hi.length]
    by_cases heq : index = i
    · rw [if_pos heq, if_pos hlt, ← heq, if_pos (Finset.mem_insert_self _ _)]
    · have hne : (i : ℤ) ≠ index := by omega
      rw [if_neg heq, hi.slot i hlt']
      simp only [Finset.mem_insert, hne, false_or]
  · exact Finset.insert_subset (Finset.mem_Ico.2 (by omega)) hi.range

theorem inv_erase (hi : Inv size s O) (index : ℕ) :
    Inv size { s with slots := s.slots.set index none } (O.erase (index : ℤ)) := by
  refine ⟨List.length_set.trans hi.length, fun i hlt => ?_, ?_⟩
  · rw [List.getElem?_set, hi.length]
    by_cases heq : index = i
    · rw [if_pos heq, if_pos (heq ▸ hlt), ← heq, if_neg (Finset.notMem_erase _ _)]
    · have hne : (i : ℤ) ≠ index := by omega
      rw [if_neg heq, hi.slot i hlt]
      simp only [Finset.mem_erase, ne_eq, hne, not_false_eq_true, true_and]
  · exact (Finset.erase_subset _ _).trans hi.range

theorem claim_eq_some (hi : Inv size s O) (hn : (claim size s).1 = some n) :
    n ∉ O ∧ n ∈ Finset.Ico 0 (size : ℤ) ∧ Inv size (claim size s).2 (insert n O) := by
  unfold claim at hn ⊢
  rcases hfree : freeIndex size s with _ | index <;> rw [hfree] at hn
  · cases hn
  · obtain rfl := Option.some.inj hn
    obtain ⟨hlt, hnot⟩ := freeIndex_eq_some hi hfree
    exact ⟨hnot, Finset.mem_Ico.2 (by omega), inv_insert hi hlt _⟩

theorem claim_eq_none_iff (hi : Inv size s O) : (claim size s).1 = none ↔ O.card = size := by
  have hcard : (Finset.Ico 0 (size : ℤ)).card = size := by
    rw [Int.card_Ico, sub_zero, Int.toNat_natCast]
  have hnone : (claim size s).1 = none ↔ freeIndex size s = none := by
    unfold claim
    rcases freeIndex size s with _ | index
    · exact iff_of_true rfl rfl
    · simp
  rw [hnone, freeIndex_eq_none_iff hi]
  constructor
  · rintro rfl
    exact hcard
  · intro hO
    exact Finset.eq_of_subset_of_card_le hi.range (by rw [hcard, hO])

theorem Inv.eq_of_claim_eq_none (hi : Inv size s O) (hn : (claim size s).1 = none) :
    O = Finset.Ico 0 (size : ℤ) := by
  refine Finset.eq_of_subset_of_card_le hi.range ?_
  rw [(claim_eq_none_iff hi).1 hn, Int.card_Ico, sub_zero, Int.toNat_natCast]

theorem claim_of_none (hn : (claim size s).1 = none) : (claim size s).2 = s := by
  rcases hfree : freeIndex size s with _ | index
  · rw [claim, hfree]
  · rw [claim, hfree] at hn
    cases hn

theorem release_of_mem (hi : Inv size s O) (hn : n ∈ O) :
    s.slots[n.toNat]? = some (some n) ∧
      release size n s = { s with slots := s.slots.set n.toNat none } := by
  obtain ⟨hzero, hlt⟩ := Finset.mem_Ico.1 (hi.range hn)
  have hslot : s.slots[n.toNat]? = some (some n) :=
    (hi.slot_eq_some_iff _ n).2 ⟨(Int.toNat_of_nonneg hzero).symm, hn⟩
  refine ⟨hslot, ?_⟩
  have hmod : n.tmod size = n := Int.tmod_eq_of_lt hzero hlt
  unfold release
  simp only [hmod, hzero, hslot, and_self, if_true]

theorem release_of_not_mem (hi : Inv size s O) (hn : n ∉ O) : release size n s = s :=
  if_neg fun h => hn ((hi.slot_eq_some_iff _ n).1 h.2).2

theorem inv_release (hi : Inv size s O) (n : ℤ) : Inv size (release size n s) (O.erase n) := by
  by_cases hn : n ∈ O
  · have hzero := (Finset.mem_Ico.1 (hi.range hn)).1
    rw [(release_of_mem hi hn).2]
    have herase := inv_erase hi n.toNat
    rw [Int.toNat_of_nonneg hzero] at herase
    exact herase
  · rw [release_of_not_mem hi hn, Finset.erase_eq_of_notMem hn]
    exact hi

theorem inv_of_run (hr : Run (window size) h s) : Inv size s (outstanding size h) := by
  induction hr with
  | start hs =>
    obtain rfl : _ = construct size := hs
    exact inv_construct size
  | @next h s s' a hr hs ih =>
    cases a with
    | claim =>
      obtain rfl : (claim size s).2 = s' := Option.some.inj hs
      show Inv size _ ((claim size s).1.elim (outstanding size h) fun n =>
        insert n (outstanding size h))
      rcases hn : (claim size s).1 with _ | n
      · rw [claim_of_none hn]
        exact ih
      · exact (claim_eq_some ih hn).2.2
    | release n =>
      obtain rfl : release size n s = s' := Option.some.inj hs
      exact inv_release ih n

end Slots

section Claims

/-- In the later steps a nonce is not returned, and none that is outstanding is released. -/
def Quiet (size : ℕ) (n : ℤ) (h : List (Taken State Action)) : List (Taken State Action) → Prop
  | [] => True
  | t :: later =>
    (match t.act with
      | .claim => (claim size t.pre).1 ≠ some n
      | .release m => m ∉ outstanding size (later ++ h)) ∧ Quiet size n h later

/-- While a nonce is free and none is released, the claims take others. -/
theorem claims_of_quiet (hr : Run (window size) (later ++ h) s) (hn : n ∉ outstanding size h)
    (hrange : n ∈ Finset.Ico 0 (size : ℤ)) (hq : Quiet size n h later) :
    n ∉ outstanding size (later ++ h) ∧
      later.countP (·.act = .claim) + (outstanding size h).card =
        (outstanding size (later ++ h)).card := by
  induction later generalizing s with
  | nil => exact ⟨hn, by rw [List.countP_nil, zero_add, List.nil_append]⟩
  | cons t later ih =>
    obtain ⟨hpre, hs⟩ := hr.split (l := []) rfl
    obtain ⟨hfree, hcount⟩ := ih hpre hq.2
    rcases t with ⟨s₀, a, s₁⟩
    have hi : Inv size s₀ (outstanding size (later ++ h)) := inv_of_run hpre
    cases a with
    | claim =>
      have hne : (claim size s₀).1 ≠ some n := hq.1
      have hall : outstanding size (⟨s₀, .claim, s₁⟩ :: (later ++ h)) =
          (claim size s₀).1.elim (outstanding size (later ++ h)) fun m =>
            insert m (outstanding size (later ++ h)) := rfl
      rw [List.cons_append, hall, List.countP_cons_of_pos (by rfl)]
      rcases hm : (claim size s₀).1 with _ | m
      · -- the nonce is free, so the claim finds one
        refine absurd ?_ hfree
        rw [hi.eq_of_claim_eq_none hm]
        exact hrange
      · have hmn : n ≠ m := fun h => hne (h ▸ hm)
        refine ⟨fun hmem => ?_, ?_⟩
        · rcases Finset.mem_insert.1 hmem with h | h
          · exact hmn h
          · exact hfree h
        · rw [Option.elim_some, Finset.card_insert_of_notMem (claim_eq_some hi hm).1]
          omega
    | release m =>
      have hm : m ∉ outstanding size (later ++ h) := hq.1
      have hall : outstanding size (⟨s₀, .release m, s₁⟩ :: (later ++ h)) =
          outstanding size (later ++ h) := Finset.erase_eq_of_notMem hm
      rw [List.cons_append, hall, List.countP_cons_of_neg (by simp)]
      exact ⟨hfree, hcount⟩

/-- A nonce is never handed out twice: at every point of a history a claim returns one that is free
and in the window, or `null` just if all are outstanding; a release frees the nonce if it is
outstanding and else changes nothing; and a nonce that has been released is returned again before
there have been more claims than the window has slots, if nothing else is released. -/
theorem window_fair (hr : Run (window size) h s) :
    (∀ n, (claim size s).1 = some n → n ∉ outstanding size h ∧ 0 ≤ n ∧ n < size) ∧
      ((claim size s).1 = none ↔ (outstanding size h).card = size) ∧
      (∀ n, if n ∈ outstanding size h then
          s.slots[n.toNat]? = some (some n) ∧
            release size n s = { s with slots := s.slots.set n.toNat none }
        else release size n s = s) ∧
      ∀ later t e n, h = later ++ t :: e → t.act = .release n → n ∈ outstanding size e →
        Quiet size n (t :: e) later → later.countP (·.act = .claim) < size := by
  have hi := inv_of_run hr
  refine ⟨fun n hn => ?_, claim_eq_none_iff hi, fun n => ?_, ?_⟩
  · obtain ⟨hnot, hmem, -⟩ := claim_eq_some hi hn
    exact ⟨hnot, Finset.mem_Ico.1 hmem⟩
  · split_ifs with hn
    · exact release_of_mem hi hn
    · exact release_of_not_mem hi hn
  · rintro later ⟨s₀, a, s₁⟩ e n rfl rfl hn hq
    have hrange := (inv_of_run (hr.split rfl).1).range hn
    have hfree : n ∉ outstanding size (⟨s₀, .release n, s₁⟩ :: e) := Finset.notMem_erase n _
    obtain ⟨hnot, hcount⟩ := claims_of_quiet hr hfree hrange hq
    have hlt := Finset.card_lt_card (hi.range.ssubset_of_ne
      fun heq => hnot (heq ▸ hrange))
    rw [Int.card_Ico, sub_zero, Int.toNat_natCast] at hlt
    omega

/-- A nonce of a window of three is released, and two others are claimed before it is again. -/
theorem window_fair_three : ∃ h s, Run (window 3) h s ∧
    ((claim 3 s).1 = none ↔ (outstanding 3 h).card = 3) := by
  obtain ⟨h, s, hr, -⟩ := Sys.exists_run (S := window 3) (s := construct 3) rfl
    [.claim, .release 0, .claim, .claim, .claim] (p := fun r => r.2.head = 1) (by decide +kernel)
  exact ⟨h, s, hr, (window_fair hr).2.1⟩

end Claims

end NonceWindow

end VeriNode
