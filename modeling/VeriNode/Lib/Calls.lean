import VeriNode.Lib.Run

/-!
# Calls in flight

Functions that wait, over a state they share. An input may start calls; a call that waits goes on
with what it is given, in one piece up to its next wait, and the pieces of different calls come in
any order (`Calls.system`). A call is known by its place among those started, and stays there when
it is over. What a step does is said once (`step_cases`); what it does to the number of calls of a
kind is `countP_set`.
-/

/-- What an input does, with the calls it starts, and what a call does with what it waited for. -/
structure Calls (σ τ ι ε : Type*) where
  enter : ι → σ → σ × List τ
  resume : ε → τ → σ → Option (σ × τ)

namespace Calls

variable {σ τ ι ε : Type*}

inductive Action (ι ε : Type*)
  | enter (input : ι)
  | resume (call : ℕ) (event : ε)
deriving DecidableEq

structure State (σ τ : Type*) where
  shared : σ
  calls : List τ := []

section Steps

variable (C : Calls σ τ ι ε)

def step (s : State σ τ) : Action ι ε → Option (State σ τ)
  | .enter input => some ⟨(C.enter input s.shared).1, s.calls ++ (C.enter input s.shared).2⟩
  | .resume call event =>
    match s.calls[call]? with
    | none => none
    | some t => (C.resume event t s.shared).map fun r => ⟨r.1, s.calls.set call r.2⟩

/-- The calls of the program, from a state that meets the condition. -/
def system (init : State σ τ → Prop) : Sys (State σ τ) (Action ι ε) where
  init := init
  step := C.step

variable {C} {s s' : State σ τ} {a : Action ι ε}

theorem step_cases (h : C.step s a = some s') :
    (∃ input, a = .enter input ∧
      s' = ⟨(C.enter input s.shared).1, s.calls ++ (C.enter input s.shared).2⟩) ∨
    ∃ call event t shared t', a = .resume call event ∧ s.calls[call]? = some t ∧
      C.resume event t s.shared = some (shared, t') ∧ s' = ⟨shared, s.calls.set call t'⟩ := by
  rcases a with input | ⟨call, event⟩
  · simp only [step, Option.some.injEq] at h
    exact .inl ⟨input, rfl, h.symm⟩
  · simp only [step] at h
    split at h
    · simp at h
    · rename_i t ht
      obtain ⟨⟨shared, t'⟩, hr, rfl⟩ := Option.map_eq_some_iff.1 h
      exact .inr ⟨call, event, t, shared, t', rfl, ht, hr, rfl⟩

end Steps

section Places

variable {l l' : List τ} {t t' : τ} {i n : ℕ}

theorem lt_length (h : l[i]? = some t) : i < l.length := (List.getElem?_eq_some_iff.1 h).1

theorem of_get_append (h : (l ++ l')[i]? = some t) :
    l[i]? = some t ∨ l.length ≤ i ∧ t ∈ l' := by
  rcases Nat.lt_or_ge i l.length with hi | hi
  · rw [List.getElem?_append_left hi] at h
    exact .inl h
  · rw [List.getElem?_append_right hi] at h
    exact .inr ⟨hi, List.mem_of_getElem? h⟩

theorem of_get_concat (h : (l ++ [t'])[i]? = some t) :
    l[i]? = some t ∨ i = l.length ∧ t = t' := by
  rcases Nat.lt_or_ge i l.length with hi | hi
  · rw [List.getElem?_append_left hi] at h
    exact .inl h
  · rw [List.getElem?_append_right hi, List.getElem?_singleton] at h
    split_ifs at h with hz
    · exact .inr ⟨by omega, (Option.some.inj h).symm⟩

theorem get_append (h : l[i]? = some t) : (l ++ l')[i]? = some t := by
  rw [List.getElem?_append_left (lt_length h)]
  exact h

theorem of_get_set (h : (l.set n t')[i]? = some t) : i = n ∧ t = t' ∨ i ≠ n ∧ l[i]? = some t := by
  by_cases hi : i = n
  · subst hi
    rw [List.getElem?_set_self (by simpa using lt_length h)] at h
    exact .inl ⟨rfl, (Option.some.inj h).symm⟩
  · rw [List.getElem?_set_ne (Ne.symm hi)] at h
    exact .inr ⟨hi, h⟩

theorem get_set_self (h : l[n]? = some t) : (l.set n t')[n]? = some t' :=
  List.getElem?_set_self (lt_length h)

theorem get_set_of_ne (hi : i ≠ n) : (l.set n t')[i]? = l[i]? := List.getElem?_set_ne (Ne.symm hi)

theorem set_self (h : l[n]? = some t) : l.set n t = l := by
  obtain ⟨hn, rfl⟩ := List.getElem?_eq_some_iff.1 h
  exact List.set_getElem_self hn

theorem countP_set (p : τ → Bool) (t' : τ) (h : l[n]? = some t) :
    (l.set n t').countP p + (p t).toNat = l.countP p + (p t').toNat := by
  induction l generalizing n with
  | nil => simp at h
  | cons u l ih =>
    rcases n with _ | n
    · simp only [List.getElem?_cons_zero, Option.some.injEq] at h
      subst h
      simp only [List.set_cons_zero, List.countP_cons]
      cases p u <;> cases p t' <;> simp
    · simp only [List.getElem?_cons_succ] at h
      have := ih h
      simp only [List.set_cons_succ, List.countP_cons]
      omega

theorem countP_le_one_iff {p : τ → Bool} : l.countP p ≤ 1 ↔
    ∀ (i j : ℕ) (t u : τ), l[i]? = some t → l[j]? = some u → p t = true → p u = true → i = j := by
  induction l with
  | nil => simp
  | cons v l ih =>
    have hmem : ∀ {i : ℕ} {t : τ}, l[i]? = some t → p t = true → 0 < l.countP p :=
      fun hi ht => List.countP_pos_iff.2 ⟨_, List.mem_of_getElem? hi, ht⟩
    rw [List.countP_cons]
    constructor
    · intro h i j t u hi hj ht hu
      rcases i with _ | i <;> rcases j with _ | j <;>
        simp only [List.getElem?_cons_zero, List.getElem?_cons_succ, Option.some.injEq] at hi hj
      · rfl
      · have := hmem hj hu
        subst hi
        simp only [ht, ↓reduceIte] at h
        omega
      · have := hmem hi ht
        subst hj
        simp only [hu, ↓reduceIte] at h
        omega
      · rw [ih.1 (by omega) i j t u hi hj ht hu]
    · intro h
      have hl : l.countP p ≤ 1 := ih.2 fun i j t u hi hj ht hu =>
        Nat.succ.inj (h (i + 1) (j + 1) t u hi hj ht hu)
      split
      · rename_i hv
        have : l.countP p = 0 := List.countP_eq_zero.2 fun u hu hp => by
          obtain ⟨j, hj⟩ := List.mem_iff_getElem?.1 hu
          have := h 0 (j + 1) v u rfl hj hv hp
          omega
        omega
      · exact hl

end Places

end Calls
