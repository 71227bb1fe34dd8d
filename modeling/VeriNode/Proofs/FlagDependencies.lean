import VeriNode.Lib.Conjunctions
import VeriNode.Proofs.CapacityShedder

/-!
# Flags that depend on flags

Whether a flag is enabled is a conjunction over the dependencies where it is degraded. What
`isEnabled` answers is right, but it follows the dependencies without a look at where it has been,
so that it answers for all keys if and only if no degraded flag comes back to itself
(`isEnabled_exact`). Shedding under a load only turns flags off, and they are what they were when it
is over (`load_only_refuses`).
-/

namespace VeriNode

namespace Ingress

open Conjunctions

variable {config : Tree} {f f' f'' : Flags} {k : String} {b : Bool}

section Property

/-- The status of a key, if it is one of the three. -/
def statusOf (config : Tree) (f : Flags) (k : String) : Option FeatureFlagStatus :=
  FeatureFlagStatus.ofValue (getStatus config k f).1

def dependenciesOf (f : Flags) (k : String) : List String :=
  ((f.registry.get k).bind FeatureFlag.dependencies).getD []

def IsSolution (config : Tree) (f : Flags) (E : Set String) : Prop :=
  ∀ k, k ∈ E ↔ statusOf config f k = some .enabled
    ∨ statusOf config f k = some .degraded ∧ ∀ d ∈ dependenciesOf f k, d ∈ E

/-- What is in every solution. -/
def leastEnabled (config : Tree) (f : Flags) : Set String :=
  {k | ∀ E, IsSolution config f E → k ∈ E}

/-- The flag is degraded, and all dependencies before this one are in every solution. -/
def GoesOnTo (config : Tree) (f : Flags) (k d : String) : Prop :=
  statusOf config f k = some .degraded ∧ ∃ before after,
    dependenciesOf f k = before ++ d :: after ∧ ∀ b ∈ before, b ∈ leastEnabled config f

/-- What the call returns, if it returns. -/
def Answers (config : Tree) (f : Flags) (k : String) (b : Bool) : Prop :=
  ∃ depth f', isEnabled config depth k f = some (b, f')

end Property

section Statuses

structure Same (config : Tree) (f f' : Flags) : Prop where
  registry : f'.registry = f.registry
  statuses : ∀ k, (getStatus config k f').1 = (getStatus config k f).1

theorem Same.trans (h : Same config f f') (h' : Same config f' f'') : Same config f f'' :=
  ⟨h'.registry.trans h.registry, fun k => (h'.statuses k).trans (h.statuses k)⟩

theorem Same.refl (config : Tree) (f : Flags) : Same config f f := ⟨rfl, fun _ => rfl⟩

theorem getStatus_of_cached {cached : Value} (h : (f.cache.get k).filter truthy = some cached) :
    getStatus config k f = (cached, f) := by
  unfold getStatus
  rw [h]

theorem getStatus_of_unregistered (h : (f.cache.get k).filter truthy = none)
    (hr : f.registry.get k = none) :
    getStatus config k f = (FeatureFlagStatus.disabled.value, f) := by
  unfold getStatus
  rw [h, hr]

theorem getStatus_of_registered {flag : FeatureFlag} (h : (f.cache.get k).filter truthy = none)
    (hr : f.registry.get k = some flag) :
    getStatus config k f = ((configuredStatus config k flag).value,
      { f with cache := f.cache.set k (configuredStatus config k flag).value }) := by
  unfold getStatus
  rw [h, hr]

theorem getStatus_congr (hcache : f'.cache.get k = f.cache.get k)
    (hregistry : f'.registry = f.registry) : (getStatus config k f').1 = (getStatus config k f).1 := by
  unfold getStatus
  rw [hcache, hregistry]
  cases (f.cache.get k).filter truthy with
  | some cached => rfl
  | none => cases f.registry.get k <;> rfl

theorem same_getStatus (config : Tree) (k : String) (f : Flags) :
    Same config f (getStatus config k f).2 := by
  cases hc : (f.cache.get k).filter truthy with
  | some cached =>
    rw [getStatus_of_cached hc]
    exact .refl config f
  | none =>
    cases hr : f.registry.get k with
    | none =>
      rw [getStatus_of_unregistered hc hr]
      exact .refl config f
    | some flag =>
      have hstatus : getStatus config k f = _ := getStatus_of_registered hc hr
      refine ⟨by rw [hstatus], fun k' => ?_⟩
      by_cases hk : k' = k
      · subst hk
        have hcached : ((f.cache.set k' (configuredStatus config k' flag).value).get k').filter truthy
            = some (configuredStatus config k' flag).value := by
          rw [OrdMap.get_set_self, Option.filter_some_pos (FeatureFlagStatus.truthy_value _)]
        rw [hstatus, getStatus_of_cached hcached]
      · rw [hstatus]
        exact getStatus_congr (OrdMap.get_set_of_ne _ _ hk) rfl

end Statuses

section Rules

/-- What a key is, as a node of the graph. -/
def ruleOf (config : Tree) (f : Flags) (k : String) : Rule String :=
  match statusOf config f k with
  | some .enabled => .const true
  | some .degraded => .all (dependenciesOf f k)
  | _ => .const false

theorem ruleOf_eq (h : Same config f f') : ruleOf config f' = ruleOf config f := by
  funext k
  unfold ruleOf statusOf dependenciesOf
  rw [h.statuses, h.registry]

theorem isSolution_iff {E : Set String} : IsSolution config f E ↔ Solves (ruleOf config f) E := by
  refine forall_congr' fun k => iff_congr Iff.rfl ?_
  unfold ruleOf
  cases statusOf config f k with
  | none => simp
  | some st => cases st <;> simp

theorem mem_leastEnabled_iff : k ∈ leastEnabled config f ↔ Holds (ruleOf config f) k := by
  constructor
  · exact fun hk => hk _ (isSolution_iff.2 solves_holds)
  · exact fun hk E hE => isLeast_holds.2 (isSolution_iff.1 hE) hk

theorem goesOnTo_iff {d : String} : GoesOnTo config f k d ↔ Asks (ruleOf config f) k d := by
  unfold GoesOnTo Asks
  simp only [mem_leastEnabled_iff]
  unfold ruleOf
  cases statusOf config f k with
  | none => simp
  | some st => cases st <;> simp

theorem finite_asks (config : Tree) (f : Flags) :
    {k | ∃ d, Asks (ruleOf config f) k d}.Finite := by
  refine (List.finite_toSet f.registry.keys).subset fun k ⟨d, hd⟩ => ?_
  obtain ⟨-, before, after, hdeps, -⟩ := goesOnTo_iff.2 hd
  by_contra hk
  unfold dependenciesOf at hdeps
  rw [OrdMap.get_eq_none_iff.2 hk, Option.bind_none, Option.getD_none] at hdeps
  exact List.cons_ne_nil _ _ (List.append_eq_nil_iff.1 hdeps.symm).2

end Rules

section Calls

/-- A call answers as the evaluation does, and leaves all statuses as they are. -/
def Refines (config : Tree) (f : Flags) (r : Option (Bool × Flags)) (answer : Option Bool) : Prop :=
  r.map Prod.fst = answer ∧ ∀ b f', r = some (b, f') → Same config f f'

theorem refines_allEnabled {call : String → Flags → Option (Bool × Flags)} {ev : String → Option Bool}
    (hcall : ∀ k f', Same config f f' → Refines config f' (call k f') (ev k)) :
    ∀ (deps : List String) (f' : Flags), Same config f f' →
      Refines config f' (allEnabled call deps f') (evalAll ev deps)
  | [], f', _ => by
    refine ⟨rfl, fun b f'' h => ?_⟩
    obtain ⟨-, rfl⟩ := Prod.mk.inj (Option.some.inj h)
    exact .refl config f'
  | dep :: deps, f', hf' => by
    obtain ⟨hfst, hsame⟩ := hcall dep f' hf'
    rw [allEnabled, evalAll, ← hfst]
    rcases hr : call dep f' with _ | ⟨_ | _, f₁⟩
    · exact ⟨rfl, fun _ _ hnone => absurd hnone (Option.some_ne_none _).symm⟩
    · refine ⟨rfl, fun b f'' h => ?_⟩
      obtain ⟨-, rfl⟩ := Prod.mk.inj (Option.some.inj h)
      exact hsame _ _ hr
    · have hfirst := hsame _ _ hr
      obtain ⟨hrest, hkept⟩ := refines_allEnabled hcall deps f₁ (hf'.trans hfirst)
      exact ⟨hrest, fun b f'' h => hfirst.trans (hkept b f'' h)⟩

theorem refines_isEnabled (config : Tree) : ∀ (n : ℕ) (k : String) (f : Flags),
    Refines config f (isEnabled config n k f) (eval (ruleOf config f) n k)
  | 0, _, _ => ⟨rfl, fun _ _ hnone => absurd hnone (Option.some_ne_none _).symm⟩
  | n + 1, k, f => by
    have hsame := same_getStatus config k f
    have hdeps : dependenciesOf (getStatus config k f).2 k = dependenciesOf f k := by
      rw [dependenciesOf, dependenciesOf, hsame.registry]
    have hdone : ∀ b, Refines config f (some (b, (getStatus config k f).2)) (some b) := by
      refine fun b => ⟨rfl, fun b' f' h => ?_⟩
      obtain ⟨-, rfl⟩ := Prod.mk.inj (Option.some.inj h)
      exact hsame
    have hcall : ∀ k' f', Same config f f' →
        Refines config f' (isEnabled config n k' f') (eval (ruleOf config f) n k') := fun k' f' hf' =>
      ruleOf_eq hf' ▸ refines_isEnabled config n k' f'
    rw [isEnabled, eval, ruleOf, statusOf]
    dsimp only
    cases hstatus : FeatureFlagStatus.ofValue (getStatus config k f).1 with
    | none => exact hdone false
    | some st =>
      cases st with
      | enabled => exact hdone true
      | disabled => exact hdone false
      | degraded =>
        rw [← hdeps, dependenciesOf]
        dsimp only
        cases (getStatus config k f).2.registry.get k |>.bind FeatureFlag.dependencies with
        | none => exact hdone true
        | some deps =>
          obtain ⟨hanswer, hkept⟩ := refines_allEnabled hcall deps _ hsame
          exact ⟨hanswer, fun b f' h => hsame.trans (hkept b f' h)⟩

theorem answers_iff : Answers config f k b ↔ ∃ n, eval (ruleOf config f) n k = some b := by
  refine exists_congr fun n => ?_
  rw [← (refines_isEnabled config n k f).1, Option.map_eq_some_iff]
  constructor
  · rintro ⟨f', h⟩
    exact ⟨(b, f'), h, rfl⟩
  · rintro ⟨⟨_, f'⟩, h, rfl⟩
    exact ⟨f', h⟩

theorem answers_iff_acyclic (config : Tree) (f : Flags) :
    (∀ k, ∃ b, Answers config f k b) ↔ ∀ k, ¬ Relation.TransGen (GoesOnTo config f) k k := by
  have hrelation : GoesOnTo config f = Asks (ruleOf config f) :=
    funext fun _ => funext fun _ => propext goesOnTo_iff
  rw [hrelation, ← halts_iff_acyclic (finite_asks config f)]
  refine forall_congr' fun k => ?_
  simp only [answers_iff]
  exact exists_comm

theorem isLeast_of_answers (h : ∀ k, ∃ b, Answers config f k b) :
    IsLeast {E | IsSolution config f E} {k | Answers config f k true} := by
  have hanswers : {k | Answers config f k true} = {k | Holds (ruleOf config f) k} := by
    ext k
    constructor
    · intro hk
      obtain ⟨n, hn⟩ := answers_iff.1 hk
      exact (eval_sound hn).1 rfl
    · intro hk
      obtain ⟨b, hb⟩ := h k
      obtain ⟨n, hn⟩ := answers_iff.1 hb
      obtain rfl : b = true := (eval_sound hn).2 hk
      exact hb
  have hsolutions : {E | IsSolution config f E} = {E | Solves (ruleOf config f) E} :=
    Set.ext fun _ => isSolution_iff
  rw [hanswers, hsolutions]
  exact isLeast_holds

end Calls

/-- `isEnabled` returns for every key, and finds the least solution, if and only if no degraded flag
comes back to itself through the dependencies that it goes on to. -/
theorem isEnabled_exact (config : Tree) (f : Flags) :
    ((∀ k, ∃ b, Answers config f k b)
        ∧ IsLeast {E | IsSolution config f E} {k | Answers config f k true})
      ↔ ∀ k, ¬ Relation.TransGen (GoesOnTo config f) k k := by
  rw [← answers_iff_acyclic]
  exact ⟨And.left, fun h => ⟨h, isLeast_of_answers h⟩⟩

/-- Two flags that are degraded and depend on each other. -/
def eachOther : Flags :=
  registerFlag ⟨"search", .degraded, some ["ranking"]⟩
    (registerFlag ⟨"ranking", .degraded, some ["search"]⟩ ⟨∅, ∅, false⟩)

theorem not_isEnabled_eachOther : ¬ ((∀ k, ∃ b, Answers [] eachOther k b)
    ∧ IsLeast {E | IsSolution [] eachOther E} {k | Answers [] eachOther k true}) := by
  rintro ⟨hanswers, -⟩
  have hsearch : GoesOnTo [] eachOther "search" "ranking" :=
    ⟨by decide, [], [], by decide, fun _ hb => nomatch hb⟩
  have hranking : GoesOnTo [] eachOther "ranking" "search" :=
    ⟨by decide, [], [], by decide, fun _ hb => nomatch hb⟩
  exact (answers_iff_acyclic [] eachOther).1 hanswers "search" (.tail (.single hsearch) hranking)

section Load

variable {schema : Config.Schema JsNumber} {valid : Tree → Bool} {s s' : State} {e : Event}
variable {g : String → FeatureFlag → Value}

/-- How far a status lets through. -/
def rank (v : Value) : ℕ :=
  match FeatureFlagStatus.ofValue v with
  | some .enabled => 2
  | some .degraded => 1
  | _ => 0

theorem within_ruleOf_iff {E : Set String} : (ruleOf config f k).Within E ↔
    2 ≤ rank (getStatus config k f).1 ∨
      1 ≤ rank (getStatus config k f).1 ∧ ∀ d ∈ dependenciesOf f k, d ∈ E := by
  unfold ruleOf rank statusOf
  cases FeatureFlagStatus.ofValue (getStatus config k f).1 with
  | none => simp [Rule.Within]
  | some st => cases st <;> simp [Rule.Within]

theorem leastEnabled_subset (hregistry : f'.registry = f.registry)
    (hrank : ∀ k, rank (getStatus config k f').1 ≤ rank (getStatus config k f).1) :
    leastEnabled config f' ⊆ leastEnabled config f := by
  intro k hk
  rw [mem_leastEnabled_iff] at hk ⊢
  refine hk.of_within fun k E hE => ?_
  have hdeps : dependenciesOf f' k = dependenciesOf f k := by
    rw [dependenciesOf, dependenciesOf, hregistry]
  rw [within_ruleOf_iff, hdeps] at hE
  rw [within_ruleOf_iff]
  have hle := hrank k
  rcases hE with hfull | ⟨hpart, hall⟩
  · exact .inl (by omega)
  · exact .inr ⟨by omega, hall⟩

theorem Becomes.getStatus_eq (h : Becomes config f f' g) (hc : CachesRegistered f) (k : String) :
    (getStatus config k f').1 = match f.registry.get k with
      | some flag => g k flag
      | none => FeatureFlagStatus.disabled.value := by
  cases hk : f.registry.get k with
  | some flag => rw [getStatus_fst (h.registry ▸ hk), h.statuses k flag hk]
  | none =>
    have hnone : f'.cache.get k = none := by
      by_contra hne
      obtain ⟨v, hv⟩ := Option.ne_none_iff_exists'.1 hne
      obtain ⟨flag, hflag⟩ := h.cached hc k v hv
      rw [h.registry, hk] at hflag
      cases hflag
    rw [getStatus_of_unregistered (by rw [hnone, Option.filter_none]) (h.registry ▸ hk)]

/-- The load is measured, or a status is read. -/
def Observes (_ : State) : Event → Prop
  | .evaluate _ _ | .getStatus _ => True
  | _ => False

/-- The status of a flag at a level, where it was in force without load. -/
def statusUnder (s : State) (level : SheddingLevel) (k : String) (flag : FeatureFlag) : Value :=
  match s.shedderConfig.flagsToShed.get k with
  | some v =>
    if level ≠ .none then asCached (configuredStatus s.config k flag).value (some v)
    else status s.config s.flags k flag
  | none => status s.config s.flags k flag

/-- The statuses are those at the level. -/
structure Shed (s s' : State) : Prop where
  config : s'.config = s.config
  shedderConfig : s'.shedderConfig = s.shedderConfig
  becomes : Becomes s.config s.flags s'.flags (statusUnder s s'.currentLevel)

theorem statusUnder_none (s : State) : statusUnder s .none = status s.config s.flags := by
  funext k flag
  unfold statusUnder
  split
  · rw [if_neg (not_not.2 rfl)]
  · rfl

theorem Shed.step (ha : Agrees s) (hlevel : s.currentLevel = .none) (hs : Shed s s')
    {s'' : State} (he : Observes s' e) (hstep : step schema valid s' e = some s'') :
    Shed s s'' := by
  cases e with
  | evaluate snapshot now =>
    obtain rfl := Option.some.inj hstep
    cases hm : moves snapshot now s' with
    | none =>
      obtain ⟨previous, heq⟩ := evaluate_of_stays hm
      rw [heq]
      exact ⟨hs.config, hs.shedderConfig, hs.becomes⟩
    | some level =>
      obtain ⟨previous, heq⟩ := evaluate_of_moves hm
      rw [heq]
      have hshed := becomes_applyShedding level s'
      rw [hs.config] at hshed
      refine ⟨hs.config, hs.shedderConfig, (hs.becomes.trans hshed).congr fun k flag hk => ?_⟩
      have hstatus := hs.becomes.statuses k flag hk
      have hconfigured := ha.configured hlevel k flag hk
      rw [getStatus_fst hk] at hconfigured
      rw [hs.shedderConfig, statusUnder]
      rw [statusUnder] at hstatus
      cases hv : s.shedderConfig.flagsToShed.get k with
      | none =>
        rw [hv] at hstatus
        exact hstatus
      | some v =>
        simp only
        split_ifs
        · rfl
        · exact hconfigured.symm
  | getStatus key =>
    obtain rfl := Option.some.inj hstep
    have hread := becomes_getStatus s.config key s'.flags
    refine ⟨hs.config, hs.shedderConfig, ?_⟩
    simp only [hs.config]
    exact (hs.becomes.trans hread).congr fun k flag hk => hs.becomes.statuses k flag hk
  | _ => exact he.elim

theorem shed_run {h : List (Taken State Event)} (ha : Agrees s) (hlevel : s.currentLevel = .none)
    (hr : Run ((sys schema valid).onwards s) h s') (hobs : Along Observes h) : Shed s s' := by
  refine hr.invariant_of (P := Shed s) ?_
    (fun _ _ _ hs he hstep => hs.step ha hlevel he hstep) hobs
  rintro _ rfl
  refine ⟨rfl, rfl, ?_⟩
  rw [hlevel, statusUnder_none]
  exact .refl _ _

/-- What is listed is shed to a status that lets no more through than the configured one. -/
def Lowers (s : State) : Prop :=
  ∀ k flag v, s.flags.registry.get k = some flag → s.shedderConfig.flagsToShed.get k = some v →
    truthy v = true → rank v ≤ rank (configuredStatus s.config k flag).value

/-- No flag depends on itself, directly or through others. -/
def Acyclic (f : Flags) : Prop :=
  ∀ k, ¬ Relation.TransGen (fun k d => d ∈ dependenciesOf f k) k k

/-- The middleware calls `next`. -/
def Passes (s : State) (k : String) (options : FlagCheckOptions) : Prop :=
  ∃ depth f, requireFlag s.config depth k options s.flags = some (none, f)

/-- The middleware answers, and with this refusal. -/
def Refuses (s : State) (k : String) (options : FlagCheckOptions) (r : Refusal) : Prop :=
  ∃ depth f, requireFlag s.config depth k options s.flags = some (some r, f)

theorem passes_iff {options : FlagCheckOptions} :
    Passes s k options ↔ Answers s.config s.flags k true := by
  refine exists_congr fun depth => exists_congr fun f => ?_
  rw [requireFlag, Option.map_eq_some_iff]
  constructor
  · rintro ⟨⟨_ | _, f'⟩, h, heq⟩
    · cases heq
    · obtain ⟨-, rfl⟩ := Prod.mk.inj heq
      exact h
  · exact fun h => ⟨(true, f), h, rfl⟩

theorem refuses_iff {options : FlagCheckOptions} {r : Refusal} : Refuses s k options r ↔
    Answers s.config s.flags k false ∧ r = options.refusal ("feature", .json (.str k)) := by
  constructor
  · rintro ⟨depth, f, h⟩
    obtain ⟨⟨_ | _, f'⟩, hcall, heq⟩ := Option.map_eq_some_iff.1 h
    · obtain ⟨hr, rfl⟩ := Prod.mk.inj heq
      exact ⟨⟨depth, f', hcall⟩, (Option.some.inj hr).symm⟩
    · cases heq
  · rintro ⟨⟨depth, f, h⟩, rfl⟩
    exact ⟨depth, f, by rw [requireFlag, h]; rfl⟩

theorem answers_of_acyclic (h : Acyclic f) (config : Tree) (k : String) :
    ∃ b, Answers config f k b := by
  refine (answers_iff_acyclic config f).2 (fun k hk => h k (Relation.TransGen.mono ?_ _ _ hk)) k
  rintro k d ⟨-, before, after, hdeps, -⟩
  rw [hdeps]
  exact List.mem_append_right _ List.mem_cons_self

theorem answers_true_iff (h : Acyclic f) :
    Answers config f k true ↔ k ∈ leastEnabled config f := by
  rw [mem_leastEnabled_iff]
  constructor
  · intro hk
    obtain ⟨n, hn⟩ := answers_iff.1 hk
    exact (eval_sound hn).1 rfl
  · intro hk
    obtain ⟨b, hb⟩ := answers_of_acyclic h config k
    obtain ⟨n, hn⟩ := answers_iff.1 hb
    obtain rfl : b = true := (eval_sound hn).2 hk
    exact hb

/-- What a load does to the requests: each is answered, none that was refused is let through, and
all are let through as before once the load is over. -/
structure OnlyRefuses (s s' : State) : Prop where
  enabled : leastEnabled s'.config s'.flags ⊆ leastEnabled s.config s.flags
  restored : s'.currentLevel = .none →
    leastEnabled s'.config s'.flags = leastEnabled s.config s.flags
  decides : Acyclic s.flags → ∀ k options, Passes s' k options
    ∨ Refuses s' k options (options.refusal ("feature", .json (.str k)))
  served : Acyclic s.flags → ∀ k options, Passes s' k options → Passes s k options
  servedAgain : Acyclic s.flags → s'.currentLevel = .none → ∀ k options,
    Passes s k options → Passes s' k options
  belowLevel : ∀ minLevel options, degradeOnLevel minLevel options s' = none →
    degradeOnLevel minLevel options s = none

/-- While the load is measured and statuses are read, from a state without load where the flags have
their configured statuses, requests are at most refused that were let through, as long as no flag is
shed to a status that lets more through. -/
theorem load_only_refuses {h₀ h : List (Taken State Event)} (hr₀ : Run (sys schema valid) h₀ s)
    (ha : Agrees s) (hlevel : getCurrentLevel s = .none) (hlowers : Lowers s)
    (hr : Run ((sys schema valid).onwards s) h s') (hobs : Along Observes h) :
    OnlyRefuses s s' := by
  have hs := shed_run ha hlevel hr hobs
  have hregistry := hs.becomes.registry
  have hcached := (wired_run hr₀).cached
  have hbefore := fun k => (Becomes.refl s.config s.flags).getStatus_eq hcached k
  have hafter := fun k => hs.becomes.getStatus_eq hcached k
  have hsubset : leastEnabled s'.config s'.flags ⊆ leastEnabled s.config s.flags := by
    rw [hs.config]
    refine leastEnabled_subset hregistry fun k => ?_
    rw [hbefore, hafter]
    cases hk : s.flags.registry.get k with
    | none => exact le_rfl
    | some flag =>
      have hconfigured := ha.configured hlevel k flag hk
      rw [getStatus_fst hk] at hconfigured
      simp only [statusUnder]
      split
      · rename_i v hv
        split_ifs
        · rw [hconfigured]
          by_cases htruthy : truthy v = true
          · rw [asCached_of_truthy htruthy]
            exact hlowers k flag v hk hv htruthy
          · rw [asCached, Option.filter_some_neg (by simpa using htruthy), Option.getD_none]
        · exact le_rfl
      · exact le_rfl
  have hrestored : s'.currentLevel = .none →
      leastEnabled s'.config s'.flags = leastEnabled s.config s.flags := by
    intro hnone
    refine hsubset.antisymm ?_
    rw [hs.config]
    refine leastEnabled_subset hregistry.symm fun k => ?_
    rw [hbefore, hafter, hnone, statusUnder_none]
  have hacyclic : Acyclic s.flags → Acyclic s'.flags := by
    unfold Acyclic dependenciesOf
    rw [hregistry]
    exact id
  refine ⟨hsubset, hrestored, fun hacy k options => ?_, fun hacy k options => ?_,
    fun hacy hnone k options => ?_, fun minLevel options hpass => ?_⟩
  · rw [passes_iff, refuses_iff]
    obtain ⟨_ | _, hb⟩ := answers_of_acyclic (hacyclic hacy) s'.config k
    · exact .inr ⟨hb, rfl⟩
    · exact .inl hb
  · rw [passes_iff, passes_iff, answers_true_iff hacy, answers_true_iff (hacyclic hacy)]
    exact fun hk => hsubset hk
  · rw [passes_iff, passes_iff, answers_true_iff hacy, answers_true_iff (hacyclic hacy),
      hrestored hnone]
    exact id
  · simp only [degradeOnLevel, ite_eq_right_iff, reduceCtorEq, imp_false, not_le] at hpass ⊢
    rw [hlevel]
    exact Nat.lt_of_le_of_lt (Nat.zero_le _) hpass

def lowersAt (s : State) : Bool :=
  s.flags.registry.entries.all fun e => (s.shedderConfig.flagsToShed.get e.1).all fun v =>
    !truthy v || rank v ≤ rank (configuredStatus s.config e.1 e.2).value

theorem lowers_of_lowersAt (h : lowersAt s = true) : Lowers s := by
  intro k flag v hk hv htruthy
  have hflag := List.all_eq_true.1 h (k, flag) (OrdMap.mem_entries_iff.2 hk)
  simp only [hv, Option.all_some, htruthy, Bool.not_true, Bool.false_or] at hflag
  exact of_decide_eq_true hflag

theorem exists_unloaded : ∃ h s, Run (sys sheddingSchema fun _ => true) h s ∧ Agrees s
    ∧ getCurrentLevel s = .none ∧ Lowers s
    ∧ getCurrentLevel (evaluate (some busy) 0 s) = .critical := by
  obtain ⟨h, s, hr, ht⟩ := Sys.exists_run (S := sys sheddingSchema fun _ => true)
    ⟨shedsSearch, by decide, rfl⟩ (shedding.take 3)
    (p := fun x => agreesAt x.2 && getCurrentLevel x.2 = .none && lowersAt x.2
      && getCurrentLevel (evaluate (some busy) 0 x.2) = .critical) (by decide +kernel)
  simp only [Bool.and_eq_true, decide_eq_true_eq] at ht
  obtain ⟨⟨⟨hagrees, hlevel⟩, hlowers⟩, hbusy⟩ := ht
  exact ⟨h, s, hr, agrees_of_agreesAt hagrees, hlevel, lowers_of_lowersAt hlowers, hbusy⟩

/-- A critical load comes. -/
theorem load_only_refuses_busy : ∃ s s' : State,
    getCurrentLevel s' = .critical ∧ OnlyRefuses s s' := by
  obtain ⟨h, s, hr, ha, hlevel, hlowers, hbusy⟩ := exists_unloaded
  have hrun : Run ((sys sheddingSchema fun _ => true).onwards s) _ _ :=
    .next (a := .evaluate (some busy) 0) (.start rfl) rfl
  refine ⟨s, _, hbusy, load_only_refuses hr ha hlevel hlowers hrun ?_⟩
  exact along_cons.2 ⟨trivial, fun _ ht => by cases ht⟩

end Load

end Ingress

end VeriNode
