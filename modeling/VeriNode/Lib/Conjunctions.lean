import Mathlib.Order.WellFoundedSet
import Mathlib.Order.Bounds.Defs

/-!
# Conjunctions over a graph

Each node is given outright, or holds if all of a list of nodes do. What holds is the least solution
of these equations (`isLeast_holds`). Evaluation goes through a list from left to right, to the first
node that does not hold, and evaluates each node on the way. What it returns is right (`eval_sound`);
it returns from a node if no chain of nodes, each asked for by the one before, goes on forever
(`halts_iff_acc`), and from all nodes, where finitely many ask for another, if no node asks for
itself (`halts_iff_acyclic`).
-/

namespace Conjunctions

/-- What a node is: given outright, or all of a list. -/
inductive Rule (κ : Type*)
  | const (b : Bool)
  | all (ks : List κ)

variable {κ : Type*} (rule : κ → Rule κ)

/-- A solution: what is in it is given, or has all of its list in it. -/
def Solves (E : Set κ) : Prop :=
  ∀ k, k ∈ E ↔ rule k = .const true ∨ ∃ ks, rule k = .all ks ∧ ∀ d ∈ ks, d ∈ E

inductive Holds : κ → Prop
  | const {k : κ} : rule k = .const true → Holds k
  | all {k : κ} {ks : List κ} : rule k = .all ks → (∀ d ∈ ks, Holds d) → Holds k

/-- All of a list, as far as the first that does not hold. None is no answer. -/
def evalAll (ev : κ → Option Bool) : List κ → Option Bool
  | [] => some true
  | k :: ks =>
    match ev k with
    | none => none
    | some false => some false
    | some true => evalAll ev ks

/-- To a depth. -/
def eval : ℕ → κ → Option Bool
  | 0, _ => none
  | n + 1, k =>
    match rule k with
    | .const b => some b
    | .all ks => evalAll (eval n) ks

/-- The evaluation of a node returns. -/
def Halts (k : κ) : Prop := ∃ n b, eval rule n k = some b

/-- The evaluation of the node goes on to `d` if all that stands before it holds. -/
def Asks (k d : κ) : Prop :=
  ∃ before after, rule k = .all (before ++ d :: after) ∧ ∀ b ∈ before, Holds rule b

/-- Given outright, or all of a list that is in the set. -/
def Rule.Within (E : Set κ) : Rule κ → Prop
  | .const b => b = true
  | .all ks => ∀ d ∈ ks, d ∈ E

variable {rule} {rule' : κ → Rule κ} {ev ev' : κ → Option Bool} {k d : κ} {ks : List κ} {n : ℕ}
variable {b : Bool}

theorem solves_holds : Solves rule {k | Holds rule k} := by
  intro k
  constructor
  · rintro (hconst | ⟨hall, hks⟩)
    · exact .inl hconst
    · exact .inr ⟨_, hall, hks⟩
  · rintro (hconst | ⟨ks, hall, hks⟩)
    · exact .const hconst
    · exact .all hall hks

theorem isLeast_holds : IsLeast {E | Solves rule E} {k | Holds rule k} := by
  refine ⟨solves_holds, fun E hE k hk => ?_⟩
  induction hk with
  | const hconst => exact (hE _).2 (.inl hconst)
  | all hall _ ih => exact (hE _).2 (.inr ⟨_, hall, ih⟩)

theorem holds_of_within (h : (rule k).Within {d | Holds rule d}) : Holds rule k := by
  cases hrule : rule k with
  | const b =>
    rw [hrule] at h
    obtain rfl : b = true := h
    exact .const hrule
  | all ks =>
    rw [hrule] at h
    exact .all hrule h

theorem Holds.of_within (h : ∀ k E, (rule k).Within E → (rule' k).Within E) (hk : Holds rule k) :
    Holds rule' k := by
  induction hk with
  | const hconst =>
    refine holds_of_within (h _ _ ?_)
    rw [hconst]
    rfl
  | all hall _ ih =>
    refine holds_of_within (h _ _ ?_)
    rw [hall]
    exact ih

theorem evalAll_cons_of_true (h : ev k = some true) : evalAll ev (k :: ks) = evalAll ev ks := by
  rw [evalAll, h]

theorem evalAll_cons_of_false (h : ev k = some false) : evalAll ev (k :: ks) = some false := by
  rw [evalAll, h]

theorem evalAll_cons_eq_some (h : evalAll ev (k :: ks) = some b) :
    ev k = some false ∧ b = false ∨ ev k = some true ∧ evalAll ev ks = some b := by
  rw [evalAll] at h
  cases hk : ev k with
  | none =>
    rw [hk] at h
    cases h
  | some found =>
    rw [hk] at h
    cases found with
    | false => exact .inl ⟨rfl, (Option.some.inj h).symm⟩
    | true => exact .inr ⟨rfl, h⟩

theorem evalAll_mono (hev : ∀ k b, ev k = some b → ev' k = some b) :
    ∀ {ks : List κ}, evalAll ev ks = some b → evalAll ev' ks = some b
  | [], h => h
  | k :: ks, h => by
    rcases evalAll_cons_eq_some h with ⟨hk, rfl⟩ | ⟨hk, hks⟩
    · exact evalAll_cons_of_false (hev k false hk)
    · rw [evalAll_cons_of_true (hev k true hk)]
      exact evalAll_mono hev hks

theorem eval_const (h : rule k = .const b) : eval rule (n + 1) k = some b := by
  rw [eval, h]

theorem eval_all (h : rule k = .all ks) : eval rule (n + 1) k = evalAll (eval rule n) ks := by
  rw [eval, h]

theorem eval_succ : ∀ {n : ℕ} {k : κ} {b : Bool},
    eval rule n k = some b → eval rule (n + 1) k = some b
  | n + 1, k, b, h => by
    cases hrule : rule k with
    | const c =>
      rw [eval_const hrule] at h ⊢
      exact h
    | all ks =>
      rw [eval_all hrule] at h ⊢
      exact evalAll_mono (fun _ _ => eval_succ) h

theorem eval_mono {m : ℕ} (hle : n ≤ m) (h : eval rule n k = some b) : eval rule m k = some b := by
  induction hle with
  | refl => exact h
  | step _ ih => exact eval_succ ih

theorem evalAll_sound (hev : ∀ k b, ev k = some b → (b = true ↔ Holds rule k)) :
    ∀ {ks : List κ}, evalAll ev ks = some b → (b = true ↔ ∀ d ∈ ks, Holds rule d)
  | [], h => by
    obtain rfl := Option.some.inj h
    exact iff_of_true rfl fun _ hd => nomatch hd
  | k :: ks, h => by
    rw [List.forall_mem_cons]
    rcases evalAll_cons_eq_some h with ⟨hk, rfl⟩ | ⟨hk, hks⟩
    · exact iff_of_false Bool.false_ne_true fun hall => Bool.false_ne_true ((hev k _ hk).2 hall.1)
    · rw [evalAll_sound hev hks]
      exact (and_iff_right ((hev k _ hk).1 rfl)).symm

theorem eval_sound : ∀ {n : ℕ} {k : κ} {b : Bool}, eval rule n k = some b →
    (b = true ↔ Holds rule k)
  | n + 1, k, b, h => by
    have hsolves : Holds rule k ↔ _ := solves_holds k
    rw [hsolves]
    cases hrule : rule k with
    | const c =>
      rw [eval_const hrule] at h
      obtain rfl := Option.some.inj h
      simp
    | all ks =>
      rw [eval_all hrule] at h
      rw [evalAll_sound (fun _ _ => eval_sound) h]
      simp

theorem exists_of_evalAll {after : List κ} : ∀ {before : List κ},
    (∀ k ∈ before, ev k ≠ some false) → evalAll ev (before ++ d :: after) = some b →
    ∃ c, ev d = some c
  | [], _, h => by
    rcases evalAll_cons_eq_some h with ⟨hd, -⟩ | ⟨hd, -⟩
    · exact ⟨_, hd⟩
    · exact ⟨_, hd⟩
  | k :: before, hbefore, h => by
    rcases evalAll_cons_eq_some h with ⟨hk, -⟩ | ⟨-, hrest⟩
    · exact absurd hk (hbefore k List.mem_cons_self)
    · exact exists_of_evalAll (fun k hk => hbefore k (List.mem_cons_of_mem _ hk)) hrest

theorem eval_of_asks (h : eval rule (n + 1) k = some b) (hd : Asks rule k d) :
    ∃ c, eval rule n d = some c := by
  obtain ⟨before, after, hrule, hbefore⟩ := hd
  rw [eval_all hrule] at h
  refine exists_of_evalAll (fun k hk hfalse => ?_) h
  exact Bool.false_ne_true ((eval_sound hfalse).2 (hbefore k hk))

theorem acc_of_eval : ∀ {n : ℕ} {k : κ} {b : Bool}, eval rule n k = some b →
    Acc (fun d k => Asks rule k d) k
  | _ + 1, _, _, h => ⟨_, fun _ hd => (eval_of_asks h hd).elim fun _ h => acc_of_eval h⟩

theorem exists_evalAll (ih : ∀ d, Asks rule k d → Halts rule d) : ∀ ks before : List κ,
    rule k = .all (before ++ ks) → (∀ b ∈ before, Holds rule b) →
    ∃ n b, evalAll (eval rule n) ks = some b
  | [], _, _, _ => ⟨0, true, rfl⟩
  | d :: ks, before, hrule, hbefore => by
    obtain ⟨n, b, hd⟩ := ih d ⟨before, ks, hrule, hbefore⟩
    cases b with
    | false => exact ⟨n, false, evalAll_cons_of_false hd⟩
    | true =>
      have hholds : ∀ b ∈ before ++ [d], Holds rule b := by
        rw [List.forall_mem_append, List.forall_mem_singleton]
        exact ⟨hbefore, (eval_sound hd).1 rfl⟩
      obtain ⟨m, b, hks⟩ := exists_evalAll ih ks (before ++ [d])
        (by rw [hrule, List.append_assoc, List.singleton_append]) hholds
      refine ⟨max n m, b, ?_⟩
      rw [evalAll_cons_of_true (eval_mono (Nat.le_max_left n m) hd)]
      exact evalAll_mono (fun _ _ => eval_mono (Nat.le_max_right n m)) hks

theorem halts_iff_acc : Halts rule k ↔ Acc (fun d k => Asks rule k d) k := by
  constructor
  · rintro ⟨n, b, h⟩
    exact acc_of_eval h
  · intro hacc
    induction hacc with
    | intro k _ ih =>
      cases hrule : rule k with
      | const b => exact ⟨1, b, eval_const hrule⟩
      | all ks =>
        obtain ⟨n, b, h⟩ := exists_evalAll ih ks [] hrule fun _ hb => nomatch hb
        exact ⟨n + 1, b, (eval_all hrule).trans h⟩

theorem not_transGen_of_acc (hacc : Acc (fun d k => Asks rule k d) k) :
    ¬ Relation.TransGen (Asks rule) k k := by
  have htrans := hacc.transGen
  clear hacc
  induction htrans with
  | intro k _ ih =>
    intro hcycle
    exact ih k (Relation.transGen_swap.2 hcycle) hcycle

theorem halts_iff_acyclic (hfinite : {k | ∃ d, Asks rule k d}.Finite) :
    (∀ k, Halts rule k) ↔ ∀ k, ¬ Relation.TransGen (Asks rule) k k := by
  simp only [halts_iff_acc]
  constructor
  · exact fun hacc k => not_transGen_of_acc (hacc k)
  · intro hacyclic
    have hgiven : ∀ k, k ∉ {k | ∃ d, Asks rule k d} → Acc (fun d k => Asks rule k d) k :=
      fun k hk => ⟨_, fun d hd => absurd ⟨d, hd⟩ hk⟩
    have : Finite {k | ∃ d, Asks rule k d} := hfinite.to_subtype
    let r (d k : {k | ∃ d, Asks rule k d}) : Prop := Relation.TransGen (Asks rule) k d
    have : IsTrans _ r := ⟨fun _ _ _ hab hbc => hbc.trans hab⟩
    have : Std.Irrefl r := ⟨fun k => hacyclic k⟩
    have hwf : WellFounded r := Finite.wellFounded_of_trans_of_irrefl r
    have hall : ∀ k : {k | ∃ d, Asks rule k d}, Acc (fun d k => Asks rule k d) k.1 := by
      intro k
      induction k using hwf.induction with
      | _ k ih =>
        refine ⟨_, fun d hd => ?_⟩
        by_cases hasks : d ∈ {k | ∃ d, Asks rule k d}
        · exact ih ⟨d, hasks⟩ (.single hd)
        · exact hgiven d hasks
    intro k
    by_cases hasks : k ∈ {k | ∃ d, Asks rule k d}
    · exact hall ⟨k, hasks⟩
    · exact hgiven k hasks

end Conjunctions
