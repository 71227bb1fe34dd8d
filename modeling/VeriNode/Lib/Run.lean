import Mathlib.Data.List.Basic

/-!
# Runs of a transition system

A system says where it may start and what an action does to a state it is enabled in. A run keeps
its history, newest step first, so that a property may speak of the steps taken and of their
order, and not only of the state reached. A property of states that every step keeps holds in
every state reached (`Run.invariant`); one that a step keeps only under a condition holds along
the runs all of whose steps meet it (`Run.invariant_of`).
-/

/-- Where a system may start, and the state an action leads to, if it is enabled. -/
structure Sys (σ α : Type*) where
  init : σ → Prop
  step : σ → α → Option σ

/-- A step taken: the state before it, the action, and the state after. -/
structure Taken (σ α : Type*) where
  pre : σ
  act : α
  post : σ

variable {σ α : Type*}

/-- The run with history `h`, newest step first, ends in the state. -/
inductive Run (S : Sys σ α) : List (Taken σ α) → σ → Prop
  | start {s : σ} : S.init s → Run S [] s
  | next {h : List (Taken σ α)} {s s' : σ} {a : α} :
      Run S h s → S.step s a = some s' → Run S (⟨s, a, s'⟩ :: h) s'

/-- Some run ends in the state. -/
def Sys.Reachable (S : Sys σ α) (s : σ) : Prop := ∃ h, Run S h s

/-- The system, from one state on. -/
def Sys.onwards (S : Sys σ α) (s : σ) : Sys σ α where
  init s' := s' = s
  step := S.step

/-- Every step of the history meets the condition on the state before it and the action. -/
def Along (C : σ → α → Prop) (h : List (Taken σ α)) : Prop := ∀ t ∈ h, C t.pre t.act

variable {S : Sys σ α} {h : List (Taken σ α)} {s s' : σ}

theorem Along.tail {C : σ → α → Prop} {t : Taken σ α} (hC : Along C (t :: h)) : Along C h :=
  fun u hu => hC u (List.mem_cons_of_mem _ hu)

theorem Along.head {C : σ → α → Prop} {t : Taken σ α} (hC : Along C (t :: h)) : C t.pre t.act :=
  hC t List.mem_cons_self

theorem along_cons {C : σ → α → Prop} {t : Taken σ α} :
    Along C (t :: h) ↔ C t.pre t.act ∧ Along C h := List.forall_mem_cons

namespace Run

/-- A property every step keeps, under a condition on the steps, holds where runs that meet the
condition end. -/
theorem invariant_of {P : σ → Prop} {C : σ → α → Prop} (hinit : ∀ s, S.init s → P s)
    (hstep : ∀ s a s', P s → C s a → S.step s a = some s' → P s') (hr : Run S h s)
    (hC : Along C h) : P s := by
  induction hr with
  | start hi => exact hinit _ hi
  | next _ hs ih => exact hstep _ _ _ (ih hC.tail) hC.head hs

theorem invariant {P : σ → Prop} (hinit : ∀ s, S.init s → P s)
    (hstep : ∀ s a s', P s → S.step s a = some s' → P s') (hr : Run S h s) : P s :=
  hr.invariant_of (C := fun _ _ => True) hinit (fun s a s' hP _ => hstep s a s' hP)
    (fun _ _ => trivial)

theorem iff_along {P : σ → Prop} {C : σ → α → Prop} (hinit : ∀ s, S.init s → P s)
    (hstep : ∀ h s a s', Run S h s → S.step s a = some s' → (P s' ↔ C s a ∧ P s))
    (hr : Run S h s) : P s ↔ Along C h := by
  induction hr with
  | start hi => exact iff_of_true (hinit _ hi) fun _ ht => by cases ht
  | next hr hs ih => rw [hstep _ _ _ _ hr hs, along_cons, ih]

theorem of_posts {P : σ → Prop} (hinit : ∀ s, S.init s → P s) (hr : Run S h s)
    (hP : ∀ t ∈ h, P t.post) : P s := by
  cases hr with
  | start hi => exact hinit _ hi
  | next hr hs => exact hP _ List.mem_cons_self

/-- Where a step keeps a property just when it meets a condition, every step has led to where the
property holds just when all of them meet it. -/
theorem posts_iff_along {P : σ → Prop} {C D : σ → α → Prop} (hinit : ∀ s, S.init s → P s)
    (hstep : ∀ h s a s', Run S h s → Along D h → D s a → S.step s a = some s' → P s →
      (P s' ↔ C s a))
    (hr : Run S h s) (hD : Along D h) : (∀ t ∈ h, P t.post) ↔ Along C h := by
  induction hr with
  | start hi => exact iff_of_true (fun _ ht => by cases ht) fun _ ht => by cases ht
  | next hr hs ih =>
    rw [List.forall_mem_cons, along_cons, ← ih hD.tail]
    refine and_congr_left fun hP => ?_
    exact hstep _ _ _ _ hr hD.tail hD.head hs (hr.of_posts hinit hP)

theorem split (hr : Run S h s) : ∀ {l : List (Taken σ α)} {t : Taken σ α} {e : List (Taken σ α)},
    h = l ++ t :: e → Run S e t.pre ∧ S.step t.pre t.act = some t.post := by
  induction hr with
  | start _ => intro l t e h; simp at h
  | next hr hs ih =>
    intro l t e h
    rcases l with _ | ⟨u, l⟩
    · simp only [List.nil_append, List.cons.injEq] at h
      obtain ⟨rfl, rfl⟩ := h
      exact ⟨hr, hs⟩
    · simp only [List.cons_append, List.cons.injEq] at h
      exact ih h.2

theorem reachable (hr : Run S h s) : S.Reachable s := ⟨h, hr⟩

theorem taken (hr : Run S h s) {t : Taken σ α} (ht : t ∈ h) :
    S.Reachable t.pre ∧ S.step t.pre t.act = some t.post := by
  obtain ⟨l, e, rfl⟩ := List.append_of_mem ht
  exact ⟨(hr.split rfl).1.reachable, (hr.split rfl).2⟩

theorem taken_along {C : σ → α → Prop} (hr : Run S h s) (hC : Along C h) {t : Taken σ α}
    (ht : t ∈ h) :
    ∃ e, Run S e t.pre ∧ Along C e ∧ C t.pre t.act ∧ S.step t.pre t.act = some t.post := by
  obtain ⟨l, e, rfl⟩ := List.append_of_mem ht
  obtain ⟨hre, hs⟩ := hr.split rfl
  have hCe : Along C e := fun u hu => hC u (List.mem_append_right _ (List.mem_cons_of_mem _ hu))
  exact ⟨e, hre, hCe, hC t ht, hs⟩

end Run

/-- Every step of the history, with the steps before it, meets the condition. -/
def Throughout (P : Taken σ α → List (Taken σ α) → Prop) : List (Taken σ α) → Prop
  | [] => True
  | t :: h => P t h ∧ Throughout P h

theorem Run.throughout_iff {P Q : Taken σ α → List (Taken σ α) → Prop}
    (hstep : ∀ h s a s', Run S h s → S.step s a = some s' → (P ⟨s, a, s'⟩ h ↔ Q ⟨s, a, s'⟩ h))
    (hr : Run S h s) : Throughout P h ↔ Throughout Q h := by
  induction hr with
  | start _ => exact Iff.rfl
  | next hr hs ih => exact and_congr (hstep _ _ _ _ hr hs) ih

theorem throughout_const {Q : Taken σ α → Prop} :
    Throughout (fun t _ => Q t) h ↔ ∀ t ∈ h, Q t := by
  induction h with
  | nil => exact iff_of_true trivial fun _ ht => by cases ht
  | cons t h ih => rw [Throughout, List.forall_mem_cons, ih]

/-- Where runs that meet a condition decide that the next step is right just when it meets it too,
all steps of a run are right just when all of them meet the condition. -/
theorem Run.throughout_iff_along {Q : Taken σ α → List (Taken σ α) → Prop} {C : σ → α → Prop}
    (hstep : ∀ h s a s', Run S h s → Along C h → S.step s a = some s' →
      (Q ⟨s, a, s'⟩ h ↔ C s a))
    (hr : Run S h s) : Throughout Q h ↔ Along C h := by
  induction hr with
  | start _ => exact iff_of_true trivial fun _ ht => by cases ht
  | next hr hs ih =>
    rw [Throughout, along_cons, ih]
    exact and_congr_left fun hC => hstep _ _ _ _ hr hC hs

theorem Run.taken_iff_along {Q : Taken σ α → Prop} {C : σ → α → Prop}
    (hstep : ∀ h s a s', Run S h s → Along C h → S.step s a = some s' → (Q ⟨s, a, s'⟩ ↔ C s a))
    (hr : Run S h s) : (∀ t ∈ h, Q t) ↔ Along C h :=
  throughout_const.symm.trans (hr.throughout_iff_along hstep)

theorem Sys.Reachable.invariant {P : σ → Prop} (hinit : ∀ s, S.init s → P s)
    (hstep : ∀ s a s', P s → S.step s a = some s' → P s') (hr : S.Reachable s) : P s :=
  hr.elim fun _ hr => hr.invariant hinit hstep

theorem Sys.Reachable.step {a : α} (hr : S.Reachable s) (hs : S.step s a = some s') :
    S.Reachable s' :=
  hr.elim fun _ hr => (hr.next hs).reachable

namespace Sys

/-- The history and the last state of taking the actions in order, if each is enabled. -/
def exec (S : Sys σ α) : σ → List (Taken σ α) → List α → Option (List (Taken σ α) × σ)
  | s, h, [] => some (h, s)
  | s, h, a :: as =>
    match S.step s a with
    | none => none
    | some s' => exec S s' (⟨s, a, s'⟩ :: h) as

theorem run_of_exec : ∀ {as : List α} {s s' : σ} {h h' : List (Taken σ α)}, Run S h s →
    S.exec s h as = some (h', s') → Run S h' s'
  | [], _, _, _, _, hr, he => by
    simp only [exec, Option.some.injEq, Prod.mk.injEq] at he
    obtain ⟨rfl, rfl⟩ := he
    exact hr
  | a :: as, s, _, _, _, hr, he => by
    simp only [exec] at he
    split at he
    · simp at he
    · rename_i s₁ hs
      exact run_of_exec (hr.next hs) he

theorem exists_run {s : σ} (hi : S.init s) (as : List α)
    {p : List (Taken σ α) × σ → Bool} (hp : ((S.exec s [] as).map p) = some true) :
    ∃ h s', Run S h s' ∧ p (h, s') = true := by
  obtain ⟨⟨h, s'⟩, he, ht⟩ := Option.map_eq_some_iff.1 hp
  exact ⟨h, s', run_of_exec (.start hi) he, ht⟩

theorem exists_run_from {p : σ → Bool} : ∀ (as : List α) {g h : List (Taken σ α)} {s : σ},
    Run S h s → ((S.exec s g as).map fun x => p x.2) = some true →
    ∃ h' s', Run S h' s' ∧ p s' = true
  | [], _, h, s, hr, hp => ⟨h, s, hr, by simpa [exec] using hp⟩
  | a :: as, _, h, s, hr, hp => by
    simp only [exec] at hp
    split at hp
    · simp at hp
    · rename_i s' hs
      exact exists_run_from as (hr.next hs) hp

end Sys
