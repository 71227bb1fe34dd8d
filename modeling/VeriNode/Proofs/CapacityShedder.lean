import VeriNode.Ingress.CapacityShedder
import VeriNode.Proofs.FeatureFlags

/-!
# Shedding levels and flags

Whether the statuses of the flags agree with the level (`Agrees`). Two modules write the statuses:
one on changes of the level, the other on every change of the configuration, where it undoes what
was shed. So the statuses stay in agreement through the steps that set no flag apart (`Harmless`),
and through no others (`levels_agree_iff`).
-/

namespace VeriNode

namespace Ingress

open JsVal Config

variable {schema : Schema JsNumber} {valid : Tree → Bool} {config : Tree} {s s' : State}
  {k : String} {flag : FeatureFlag}

/-- With a level, every flag that is listed has its status to be shed; without, every flag has its
configured one. -/
structure Agrees (s : State) : Prop where
  shed : getCurrentLevel s ≠ .none → ∀ k flag v, s.flags.registry.get k = some flag →
    s.shedderConfig.flagsToShed.get k = some v → (getStatus s.config k s.flags).1 = v
  configured : getCurrentLevel s = .none → ∀ k flag, s.flags.registry.get k = some flag →
    (getStatus s.config k s.flags).1 = (configuredStatus s.config k flag).value

/-- What is asked of one flag. -/
def Fits (level : SheddingLevel) (shed : Option Value) (configured status : Value) : Prop :=
  if level = .none then status = configured else ∀ v, shed = some v → status = v

theorem agrees_iff : Agrees s ↔ ∀ k flag, s.flags.registry.get k = some flag →
    Fits s.currentLevel (s.shedderConfig.flagsToShed.get k) (configuredStatus s.config k flag).value
      (status s.config s.flags k flag) := by
  constructor
  · intro h k flag hk
    rw [Fits, ← getStatus_fst hk]
    split_ifs with hlevel
    · exact h.configured hlevel k flag hk
    · exact fun v hv => h.shed hlevel k flag v hk hv
  · refine fun h => ⟨fun hlevel k flag v hk hv => ?_, fun hlevel k flag hk => ?_⟩
    · have hfits := h k flag hk
      unfold getCurrentLevel at hlevel
      rw [Fits, if_neg hlevel] at hfits
      rw [getStatus_fst hk]
      exact hfits v hv
    · have hfits := h k flag hk
      unfold getCurrentLevel at hlevel
      rw [Fits, if_pos hlevel] at hfits
      rw [getStatus_fst hk]
      exact hfits

theorem agrees_iff_of (f : Flags) {g : String → FeatureFlag → Value}
    (hregistry : s.flags.registry = f.registry) (hstatus : ∀ k flag,
      f.registry.get k = some flag → status s.config s.flags k flag = g k flag) :
    Agrees s ↔ ∀ k flag, f.registry.get k = some flag →
      Fits s.currentLevel (s.shedderConfig.flagsToShed.get k)
        (configuredStatus s.config k flag).value (g k flag) := by
  rw [agrees_iff, hregistry]
  exact forall_congr' fun k => forall_congr' fun flag => forall_congr' fun hk => by
    rw [hstatus k flag hk]

section Levels

variable {snapshot : Option MetricSnapshot} {now : JsNumber} {level : SheddingLevel}

theorem becomes_applyShedding (level : SheddingLevel) (s : State) :
    Becomes s.config s.flags (applyShedding level s) fun k flag =>
      match s.shedderConfig.flagsToShed.get k with
      | some v =>
        if level ≠ .none then asCached (configuredStatus s.config k flag).value (some v)
        else (configuredStatus s.config k flag).value
      | none => status s.config s.flags k flag := by
  have hstep : ∀ f : Flags, f.registry = s.flags.registry →
      ∀ e ∈ s.shedderConfig.flagsToShed.entries, Becomes s.config f
        (if level ≠ .none then (setOverride s.config e.1 e.2 f).2
          else (resetOverride s.config e.1 f).2)
        fun k flag => if k = e.1 then
            if level ≠ .none then asCached (configuredStatus s.config e.1 flag).value (some e.2)
            else (configuredStatus s.config e.1 flag).value
          else status s.config f k flag := by
    intro f _ e _
    split_ifs
    · refine (becomes_setOverride s.config e.1 e.2 f).congr fun k flag _ => ?_
      split_ifs with hk
      · rw [hk]
      · rfl
    · refine (becomes_resetOverride s.config e.1 f).congr fun k flag _ => ?_
      split_ifs with hk
      · rw [hk]
      · rfl
  refine (becomes_foldl (v := fun e flag => if level ≠ .none then
      asCached (configuredStatus s.config e.1 flag).value (some e.2)
    else (configuredStatus s.config e.1 flag).value) s.shedderConfig.flagsToShed.nodup hstep).congr
    fun k flag _ => ?_
  rw [OrdMap.get]
  cases hfind : s.shedderConfig.flagsToShed.entries.find? (·.1 = k) with
  | none => rfl
  | some e =>
    obtain rfl : e.1 = k := by simpa using List.find?_some hfind
    rfl

/-- The level that an evaluation moves to. -/
def moves (snapshot : Option MetricSnapshot) (now : JsNumber) (s : State) : Option SheddingLevel :=
  if s.collector then
    snapshot.bind fun snapshot =>
      let level := determineLevel s.shedderConfig.thresholds snapshot
      if level = s.currentLevel then none
      else if level = .none ∧ (now.sub s.lastElevatedAt).lt s.shedderConfig.cooldownPeriodMs = true
      then none
      else some level
  else none

theorem evaluate_of_stays (h : moves snapshot now s = none) :
    ∃ previous, evaluate snapshot now s = { s with previousLevel := previous } := by
  unfold evaluate
  split_ifs with hc
  · exact ⟨_, rfl⟩
  · rw [moves, if_pos (by simpa using hc)] at h
    cases snapshot with
    | none => exact ⟨_, rfl⟩
    | some snapshot =>
      simp only [Option.bind_some] at h
      simp only
      split_ifs at h with hsame hcool
      · exact ⟨_, if_pos hsame⟩
      · refine ⟨_, (if_neg hsame).trans (if_pos ⟨hcool.1, ?_, hcool.2⟩)⟩
        exact fun hnone => hsame (hcool.1.trans hnone.symm)

theorem evaluate_of_moves (h : moves snapshot now s = some level) :
    ∃ previous, evaluate snapshot now s = { s with
      previousLevel := previous
      lastElevatedAt := if level ≠ .none then now else s.lastElevatedAt
      currentLevel := level
      flags := applyShedding level s } := by
  unfold moves at h
  split_ifs at h with hc
  cases snapshot with
  | none => cases h
  | some m =>
  simp only [Option.bind_some] at h
  split_ifs at h with hsame hcool
  obtain rfl := Option.some.inj h
  unfold evaluate
  rw [if_neg (by simp [hc])]
  simp only
  rw [if_neg hsame, if_neg fun hlow => hcool ⟨hlow.1, hlow.2.2⟩]
  split_ifs
  · exact ⟨_, rfl⟩
  · exact ⟨_, rfl⟩

theorem collector_of_moves (h : moves snapshot now s = some level) : s.collector = true := by
  unfold moves at h
  split_ifs at h with hc
  exact hc

end Levels

section Changes

variable {old : Tree}

theorem getIn_append {ν : Type*} (p q : List String) (v : JsVal ν) :
    getIn (p ++ q) v = getIn q (getIn p v) := by
  induction p generalizing v with
  | nil => rfl
  | cons k p ih =>
    cases v with
    | obj fields => rw [List.cons_append, getIn, getIn, ih]
    | json j =>
      cases j with
      | arr items => rw [List.cons_append, getIn, getIn, ih]
      | _ => cases q <;> rfl
    | _ => cases q <;> rfl

theorem isObject_of_getIn {k k' : String} {v : Value} (h : isObject (getIn [k, k'] v) = true)
    (hk : Json.arrayIndex k' = none) : isObject (getIn [k] v) = true := by
  have h : isObject (getIn ([k] ++ [k']) v) = true := h
  rw [getIn_append] at h
  cases hv : getIn [k] v with
  | obj fields => rfl
  | json j =>
    rw [hv] at h
    cases j with
    | arr items =>
      rw [getIn, hk] at h
      cases h
    | _ => cases h
  | _ =>
    rw [hv] at h
    cases h

theorem strictNe_of_isObject {v : Value} (h : isObject v = true) (w : Value) :
    strictNe v w = true := by
  cases v with
  | obj fields => cases w <;> rfl
  | _ => cases h

theorem callback_eq (h : sectionsValid old = true) (s : State) (subscriber : Subscriber) :
    callback old s subscriber = match subscriber with
      | .featureFlags => { s with flags := refresh s.config s.flags }
      | .capacityShedding => { s with shedderConfig := loadConfig s.config } := by
  obtain ⟨hflags, hshed⟩ := Bool.and_eq_true_iff.1 h
  have hobject : isObject (getIn (splitPath subscriber.path) (.obj old)) = true := by
    cases subscriber with
    | featureFlags =>
      rw [show splitPath Subscriber.featureFlags.path = ["feature_flags"] by decide]
      exact isObject_of_getIn hflags (by decide)
    | capacityShedding =>
      rw [show splitPath Subscriber.capacityShedding.path = ["capacity_shedding"] by decide]
      exact isObject_of_getIn hshed (by decide)
  cases subscriber with
  | featureFlags => exact if_pos (strictNe_of_isObject hobject _)
  | capacityShedding => exact if_pos (strictNe_of_isObject hobject _)

/-- What a flag has after a change, with the callbacks there are. -/
def statusAfter (config : Tree) (callbacks : List Subscriber) (f : Flags) (k : String)
    (flag : FeatureFlag) : Value :=
  if .featureFlags ∈ callbacks then (configuredStatus config k flag).value
  else status config f k flag

theorem foldl_callback (h : sectionsValid old = true) : ∀ (l : List Subscriber) (s : State),
    ∃ flags, Becomes s.config s.flags flags (statusAfter s.config l s.flags)
      ∧ l.foldl (callback old) s = { s with
        flags := flags
        shedderConfig :=
          if .capacityShedding ∈ l then loadConfig s.config else s.shedderConfig }
  | [], s => ⟨s.flags, .refl _ _, rfl⟩
  | .featureFlags :: l, s => by
    obtain ⟨flags, hbecomes, hfold⟩ :=
      foldl_callback h l { s with flags := refresh s.config s.flags }
    have hrefresh := becomes_refresh s.config s.flags
    refine ⟨flags, (hrefresh.trans hbecomes).congr fun k flag hk => ?_, ?_⟩
    · simp [statusAfter, hrefresh.statuses k flag hk]
    · rw [List.foldl_cons, callback_eq h, hfold]
      simp
  | .capacityShedding :: l, s => by
    obtain ⟨flags, hbecomes, hfold⟩ :=
      foldl_callback h l { s with shedderConfig := loadConfig s.config }
    refine ⟨flags, hbecomes.congr fun k flag hk => ?_, ?_⟩
    · simp [statusAfter]
    · rw [List.foldl_cons, callback_eq h, hfold]
      simp

theorem deliver_eq (h : sectionsValid s.config = true) (config : Tree) :
    ∃ flags, Becomes config s.flags flags (statusAfter config s.callbacks s.flags)
      ∧ deliver config s = { s with
        config := config
        flags := flags
        shedderConfig :=
          if .capacityShedding ∈ s.callbacks then loadConfig config else s.shedderConfig } :=
  foldl_callback h s.callbacks { s with config := config }

end Changes

section Wiring

variable {e : Event}

/-- How the modules hang together in every state that is reached. -/
structure Wired (s : State) : Prop where
  cached : CachesRegistered s.flags
  valid : sectionsValid s.config = true
  loaded : .capacityShedding ∈ s.callbacks → s.shedderConfig = loadConfig s.config
  listens : s.collector = true → .capacityShedding ∈ s.callbacks
  collects : s.currentLevel ≠ .none → s.collector = true
  subscribed : s.flags.initialized = true ↔ .featureFlags ∈ s.callbacks

theorem Wired.loaded_of_level (hs : Wired s) (h : s.currentLevel ≠ .none) :
    s.shedderConfig = loadConfig s.config :=
  hs.loaded (hs.listens (hs.collects h))

theorem wired_start (h : sectionsValid config = true) : Wired (.start config) where
  cached _ _ hv := by cases hv
  valid := h
  loaded hm := absurd hm List.not_mem_nil
  listens hc := by cases hc
  collects hlevel := absurd rfl hlevel
  subscribed := iff_of_false Bool.false_ne_true List.not_mem_nil

theorem wired_evaluate (hs : Wired s) (snapshot : Option MetricSnapshot) (now : JsNumber) :
    Wired (evaluate snapshot now s) := by
  cases hm : moves snapshot now s with
  | none =>
    obtain ⟨previous, he⟩ := evaluate_of_stays hm
    rw [he]
    exact ⟨hs.cached, hs.valid, hs.loaded, hs.listens, hs.collects, hs.subscribed⟩
  | some level =>
    obtain ⟨previous, he⟩ := evaluate_of_moves hm
    have hbecomes := becomes_applyShedding level s
    have hc := collector_of_moves hm
    rw [he]
    refine ⟨hbecomes.cached hs.cached, hs.valid, hs.loaded, hs.listens, fun _ => hc, ?_⟩
    rw [show (applyShedding level s).initialized = _ from hbecomes.initialized]
    exact hs.subscribed

theorem wired_initCapacityShedder (hs : Wired s) : Wired (initCapacityShedder s) := by
  unfold initCapacityShedder
  split_ifs
  · exact hs
  · refine ⟨hs.cached, hs.valid, fun _ => rfl, fun _ => by simp, fun _ => rfl, ?_⟩
    simpa using hs.subscribed

theorem wired_stopCapacityShedder (hs : Wired s) : Wired (stopCapacityShedder s) :=
  ⟨hs.cached, hs.valid, hs.loaded, hs.listens, fun h => absurd rfl h, hs.subscribed⟩

theorem cachesRegistered_registerFlag {f : Flags} (h : CachesRegistered f) (flag : FeatureFlag) :
    CachesRegistered (registerFlag flag f) := by
  intro k v hv
  obtain ⟨old, hold⟩ := h k v hv
  by_cases hk : k = flag.key
  · exact ⟨flag, hk ▸ OrdMap.get_set_self _ _ _⟩
  · exact ⟨old, (OrdMap.get_set_of_ne _ _ hk).trans hold⟩

theorem wired_registerFlag (hs : Wired s) (flag : FeatureFlag) :
    Wired { s with flags := registerFlag flag s.flags } :=
  ⟨cachesRegistered_registerFlag hs.cached flag, hs.valid, hs.loaded, hs.listens, hs.collects,
    hs.subscribed⟩

theorem wired_initFeatureFlags (hs : Wired s) : Wired { s with
    flags := (initFeatureFlags s.config s.flags).1
    callbacks := if (initFeatureFlags s.config s.flags).2 then s.callbacks ++ [.featureFlags]
      else s.callbacks } := by
  cases hi : s.flags.initialized with
  | true =>
    have hsame : initFeatureFlags s.config s.flags = (s.flags, false) := by
      rw [initFeatureFlags, hi, if_pos rfl]
    rw [hsame]
    exact hs
  | false =>
    obtain ⟨hsubscribes, hinit, hbecomes⟩ := becomes_initFeatureFlags s.config hi
    rw [hsubscribes]
    refine ⟨hbecomes.cached hs.cached, hs.valid, fun h => hs.loaded ?_, fun h => ?_, hs.collects, ?_⟩
    · simpa using h
    · simpa using hs.listens h
    · simp [hinit]

theorem wired_getStatus (hs : Wired s) (key : String) :
    Wired { s with flags := (getStatus s.config key s.flags).2 } := by
  have hbecomes := becomes_getStatus s.config key s.flags
  refine ⟨hbecomes.cached hs.cached, hs.valid, hs.loaded, hs.listens, hs.collects, ?_⟩
  rw [show (getStatus s.config key s.flags).2.initialized = _ from hbecomes.initialized]
  exact hs.subscribed

theorem wired_deliver (hs : Wired s) (h : sectionsValid config = true) :
    Wired (deliver config s) := by
  obtain ⟨flags, hbecomes, he⟩ := deliver_eq hs.valid config
  rw [he]
  refine ⟨hbecomes.cached hs.cached, h, fun hm => if_pos hm, hs.listens, hs.collects, ?_⟩
  rw [show flags.initialized = _ from hbecomes.initialized]
  exact hs.subscribed

theorem newConfig_valid (h : newConfig schema valid s e = some config) :
    sectionsValid config = true := by
  cases e with
  | update path value =>
    obtain ⟨c, -, hc⟩ := Option.bind_eq_some_iff.1 h
    simp only at hc
    split_ifs at hc with hv
    obtain rfl := Option.some.inj hc
    exact (Bool.and_eq_true_iff.1 hv).1
  | reload c =>
    simp only [newConfig] at h
    split_ifs at h with hv
    obtain rfl := Option.some.inj h
    exact (Bool.and_eq_true_iff.1 hv).1
  | _ => cases h

theorem wired_step (hs : Wired s) (h : step schema valid s e = some s') : Wired s' := by
  cases e with
  | evaluate snapshot now =>
    obtain rfl := Option.some.inj h
    exact wired_evaluate hs snapshot now
  | initCapacityShedder =>
    obtain rfl := Option.some.inj h
    exact wired_initCapacityShedder hs
  | stopCapacityShedder =>
    obtain rfl := Option.some.inj h
    exact wired_stopCapacityShedder hs
  | registerFlag flag =>
    simp only [step] at h
    split_ifs at h
    obtain rfl := Option.some.inj h
    exact wired_registerFlag hs flag
  | initFeatureFlags =>
    obtain rfl := Option.some.inj h
    exact wired_initFeatureFlags hs
  | getStatus key =>
    obtain rfl := Option.some.inj h
    exact wired_getStatus hs key
  | _ =>
    simp only [step] at h
    split at h
    · obtain rfl := Option.some.inj h
      exact wired_deliver hs (newConfig_valid ‹_›)
    · obtain rfl := Option.some.inj h
      exact hs

theorem wired_run {h : List (Taken State Event)} (hr : Run (sys schema valid) h s) : Wired s := by
  refine hr.invariant (fun s hi => ?_) fun _ _ _ hs h => wired_step hs h
  obtain ⟨config, hv, rfl⟩ := hi
  exact wired_start hv

end Wiring

section Harm

variable {e : Event} {snapshot : Option MetricSnapshot} {now : JsNumber}

/-- A change of the configuration sets no flag apart. Flags that are initialised have their
configured status then, whatever the level is; others keep what the cache has of them. -/
def HarmlessChange (config : Tree) (s : State) (k : String) (flag : FeatureFlag) : Prop :=
  if s.flags.initialized then
    s.currentLevel = .none ∨ ∀ v, (loadConfig config).flagsToShed.get k = some v →
      (configuredStatus config k flag).value = v
  else
    Fits s.currentLevel ((loadConfig config).flagsToShed.get k) (configuredStatus config k flag).value
      (status config s.flags k flag)

/-- A flag is registered with the status that it has, or is to have. -/
def HarmlessFlag (s : State) (flag : FeatureFlag) : Prop :=
  match (s.flags.cache.get flag.key).filter truthy with
  | some v => s.currentLevel = .none → v = (configuredStatus s.config flag.key flag).value
  | none => s.currentLevel ≠ .none → ∀ v, s.shedderConfig.flagsToShed.get flag.key = some v →
    (configuredStatus s.config flag.key flag).value = v

/-- The event sets no flag apart from the level. -/
def Harmless (schema : Schema JsNumber) (valid : Tree → Bool) (s : State) (e : Event) : Prop :=
  match e with
  | .evaluate snapshot now =>
    ∀ level, moves snapshot now s = some level →
      ∀ k flag, s.flags.registry.get k = some flag →
        -- a flag that is not listed any more is not reset, and one shed as nothing is not shed
        if level = .none then s.shedderConfig.flagsToShed.get k = none →
          status s.config s.flags k flag = (configuredStatus s.config k flag).value
        else ∀ v, s.shedderConfig.flagsToShed.get k = some v → truthy v = true
  | .stopCapacityShedder => s.currentLevel = .none ∨ ∀ k flag, s.flags.registry.get k = some flag →
    status s.config s.flags k flag = (configuredStatus s.config k flag).value
  | .registerFlag flag => HarmlessFlag s flag
  | .initFeatureFlags => s.flags.initialized = true ∨ ∀ k flag,
    s.flags.registry.get k = some flag → Fits s.currentLevel (s.shedderConfig.flagsToShed.get k)
      (configuredStatus s.config k flag).value (initialStatus s.config s.flags k flag)
  | .update _ _ | .reload _ => ∀ config, newConfig schema valid s e = some config →
    ∀ k flag, s.flags.registry.get k = some flag → HarmlessChange config s k flag
  | .initCapacityShedder | .getStatus _ => True

theorem agrees_evaluate (ha : Agrees s) (snapshot : Option MetricSnapshot) (now : JsNumber) :
    Agrees (evaluate snapshot now s) ↔ Harmless schema valid s (.evaluate snapshot now) := by
  cases hm : moves snapshot now s with
  | none =>
    obtain ⟨previous, he⟩ := evaluate_of_stays hm
    rw [he]
    refine iff_of_true ⟨ha.shed, ha.configured⟩ fun level hlevel => ?_
    rw [hm] at hlevel
    cases hlevel
  | some level =>
    obtain ⟨previous, he⟩ := evaluate_of_moves hm
    have hbecomes := becomes_applyShedding level s
    rw [he]
    refine Iff.trans (agrees_iff_of s.flags hbecomes.registry hbecomes.statuses) ?_
    simp only [Harmless, hm, Option.some.injEq, forall_eq']
    refine forall_congr' fun k => forall_congr' fun flag => forall_congr' fun hk => ?_
    by_cases hlevel : level = .none
    · rw [Fits, if_pos hlevel, if_pos hlevel]
      cases s.shedderConfig.flagsToShed.get k with
      | none => simp
      | some v => simp [hlevel]
    · rw [Fits, if_neg hlevel, if_neg hlevel]
      cases s.shedderConfig.flagsToShed.get k with
      | none => simp
      | some v => simp [hlevel, asCached_eq_iff]

theorem agrees_stopCapacityShedder (ha : Agrees s) :
    Agrees (stopCapacityShedder s) ↔ Harmless schema valid s .stopCapacityShedder := by
  have hstop : Agrees (stopCapacityShedder s) ↔ ∀ k flag, s.flags.registry.get k = some flag →
      status s.config s.flags k flag = (configuredStatus s.config k flag).value := by
    exact agrees_iff
  rw [hstop, Harmless, or_iff_right_of_imp]
  intro hlevel k flag hk
  rw [← getStatus_fst hk]
  exact ha.configured hlevel k flag hk

theorem agrees_initCapacityShedder (hs : Wired s) (ha : Agrees s) :
    Agrees (initCapacityShedder s) := by
  unfold initCapacityShedder
  split_ifs
  · exact ha
  · refine ⟨fun hlevel k flag v hk hv => ha.shed hlevel k flag v hk ?_, ha.configured⟩
    rw [hs.loaded_of_level hlevel]
    exact hv

theorem agrees_registerFlag (hs : Wired s) (ha : Agrees s) (flag : FeatureFlag) :
    Agrees { s with flags := registerFlag flag s.flags } ↔ HarmlessFlag s flag := by
  have hsame : ∀ k flag', status s.config (registerFlag flag s.flags) k flag'
      = status s.config s.flags k flag' := fun _ _ => rfl
  have hflag : Agrees { s with flags := registerFlag flag s.flags } ↔
      Fits s.currentLevel (s.shedderConfig.flagsToShed.get flag.key)
        (configuredStatus s.config flag.key flag).value (status s.config s.flags flag.key flag) := by
    rw [agrees_iff]
    refine ⟨fun h => h flag.key flag (OrdMap.get_set_self _ _ _), fun h k flag' hk => ?_⟩
    rcases OrdMap.of_get_set hk with ⟨rfl, rfl⟩ | ⟨-, hk⟩
    · exact h
    · exact agrees_iff.1 ha k flag' hk
  rw [hflag, HarmlessFlag, Fits, status, asCached]
  cases hc : (s.flags.cache.get flag.key).filter truthy with
  | none =>
    split_ifs with hlevel
    · exact iff_of_true rfl fun h => absurd hlevel h
    · simp [hlevel]
  | some v =>
    split_ifs with hlevel
    · simp [hlevel]
    · refine iff_of_true (fun st hst => ?_) fun h => absurd h hlevel
      obtain ⟨old, hold⟩ := hs.cached flag.key v (Option.filter_eq_some_iff.1 hc).1
      have hstatus := ha.shed hlevel flag.key old st hold hst
      rw [getStatus_fst hold, status, asCached, hc] at hstatus
      exact hstatus

theorem agrees_initFeatureFlags (ha : Agrees s) : Agrees { s with
    flags := (initFeatureFlags s.config s.flags).1
    callbacks := if (initFeatureFlags s.config s.flags).2 then s.callbacks ++ [.featureFlags]
      else s.callbacks } ↔ Harmless schema valid s .initFeatureFlags := by
  cases hi : s.flags.initialized with
  | true =>
    have hsame : initFeatureFlags s.config s.flags = (s.flags, false) := by
      rw [initFeatureFlags, hi, if_pos rfl]
    rw [hsame]
    exact iff_of_true ha (.inl hi)
  | false =>
    obtain ⟨-, -, hbecomes⟩ := becomes_initFeatureFlags s.config hi
    refine Iff.trans (agrees_iff_of s.flags hbecomes.registry hbecomes.statuses) ?_
    rw [Harmless, hi]
    simp

theorem agrees_getStatus (ha : Agrees s) (key : String) :
    Agrees { s with flags := (getStatus s.config key s.flags).2 } := by
  have hbecomes := becomes_getStatus s.config key s.flags
  exact (agrees_iff_of s.flags hbecomes.registry hbecomes.statuses).2 (agrees_iff.1 ha)

theorem agrees_deliver (hs : Wired s) (config : Tree) : Agrees (deliver config s) ↔
    ∀ k flag, s.flags.registry.get k = some flag → HarmlessChange config s k flag := by
  obtain ⟨flags, hbecomes, he⟩ := deliver_eq hs.valid config
  rw [he]
  refine Iff.trans (agrees_iff_of s.flags hbecomes.registry hbecomes.statuses) ?_
  refine forall_congr' fun k => forall_congr' fun flag => forall_congr' fun hk => ?_
  have hloaded : s.currentLevel ≠ .none → .capacityShedding ∈ s.callbacks := fun h =>
    hs.listens (hs.collects h)
  rw [HarmlessChange, statusAfter, Fits, Fits]
  simp only [hs.subscribed]
  by_cases hlevel : s.currentLevel = .none
  · simp only [hlevel, if_true, true_or]
    split_ifs <;> simp
  · simp only [hlevel, if_false, false_or, hloaded hlevel, if_true]
    split_ifs <;> rfl

theorem agrees_step (hs : Wired s) (ha : Agrees s) (h : step schema valid s e = some s') :
    Agrees s' ↔ Harmless schema valid s e := by
  cases e with
  | evaluate snapshot now =>
    obtain rfl := Option.some.inj h
    exact agrees_evaluate ha snapshot now
  | initCapacityShedder =>
    obtain rfl := Option.some.inj h
    exact iff_of_true (agrees_initCapacityShedder hs ha) trivial
  | stopCapacityShedder =>
    obtain rfl := Option.some.inj h
    exact agrees_stopCapacityShedder ha
  | registerFlag flag =>
    simp only [step] at h
    split_ifs at h
    obtain rfl := Option.some.inj h
    exact agrees_registerFlag hs ha flag
  | initFeatureFlags =>
    obtain rfl := Option.some.inj h
    exact agrees_initFeatureFlags ha
  | getStatus key =>
    obtain rfl := Option.some.inj h
    exact iff_of_true (agrees_getStatus ha key) trivial
  | _ =>
    simp only [step] at h
    rw [Harmless]
    split at h
    · obtain rfl := Option.some.inj h
      simp only [‹newConfig _ _ _ _ = _›, Option.some.injEq, forall_eq']
      exact agrees_deliver hs _
    · obtain rfl := Option.some.inj h
      simp only [‹newConfig _ _ _ _ = _›]
      exact iff_of_true ha fun _ hc => by cases hc

theorem agrees_start (config : Tree) : Agrees (.start config) :=
  ⟨fun _ _ _ _ hk => (nomatch hk), fun _ _ _ hk => (nomatch hk)⟩

/-- The statuses agree with the level in every state of a run exactly if no step of it sets a flag
apart. -/
theorem levels_agree_iff {h : List (Taken State Event)} (hr : Run (sys schema valid) h s) :
    (Agrees s ∧ ∀ t ∈ h, Agrees t.pre) ↔ Along (Harmless schema valid) h := by
  induction hr with
  | start hi =>
    obtain ⟨config, -, rfl⟩ := hi
    exact iff_of_true ⟨agrees_start config, fun _ ht => nomatch ht⟩ fun _ ht => nomatch ht
  | next hr hstep ih =>
    rw [Along, List.forall_mem_cons, List.forall_mem_cons]
    refine (and_congr_left fun hbefore => ?_).trans (and_congr_right fun _ => ih)
    exact agrees_step (wired_run hr) hbefore.1 hstep

end Harm

section Tests

/-- As far as the statuses are no objects. -/
def agreesAt (s : State) : Bool :=
  s.flags.registry.entries.all fun e =>
    let status := (getStatus s.config e.1 s.flags).1
    if s.currentLevel = .none then !strictNe status (configuredStatus s.config e.1 e.2).value
    else (s.shedderConfig.flagsToShed.get e.1).all fun v => !strictNe status v

theorem agrees_of_agreesAt (h : agreesAt s = true) : Agrees s := by
  refine ⟨fun hlevel k flag v hk hv => ?_, fun hlevel k flag hk => ?_⟩
  · have hflag := List.all_eq_true.1 h (k, flag) (OrdMap.mem_entries_iff.2 hk)
    unfold getCurrentLevel at hlevel
    simp only [hlevel, if_false, hv, Option.all_some, Bool.not_eq_true'] at hflag
    exact eq_of_strictNe hflag
  · have hflag := List.all_eq_true.1 h (k, flag) (OrdMap.mem_entries_iff.2 hk)
    unfold getCurrentLevel at hlevel
    simp only [hlevel, if_true, Bool.not_eq_true'] at hflag
    exact eq_of_strictNe hflag

/-- The schema of the two sections. -/
def sheddingSchema : Schema JsNumber :=
  let statuses : Schema JsNumber := .mk true (some (.obj [])) []
  .mk true none
    [("feature_flags", .mk true (some (.obj [])) [("overrides", statuses)]),
      ("capacity_shedding", .mk true (some (.obj [])) [("flagsToShed", statuses)])]

/-- A configuration that sheds `search`. -/
def shedsSearch : Tree :=
  [("app", .obj [("logLevel", .json (.str "info"))]),
    ("feature_flags", .obj [("overrides", .obj [])]),
    ("capacity_shedding", .obj [("flagsToShed", .obj [("search", .json (.str "disabled"))])])]

/-- Under a load that is critical. -/
def shedding : List Event :=
  [.registerFlag ⟨"search", .enabled, none⟩, .initFeatureFlags, .initCapacityShedder,
    .evaluate (some ⟨99, 0, 0, 0⟩) 0]

/-- A load comes and goes. -/
theorem levels_agree_peak : ∃ h s, Run (sys sheddingSchema fun _ => true) h s
    ∧ (h.any fun t => t.pre.currentLevel = .critical) = true ∧ s.currentLevel = .none
    ∧ Along (Harmless sheddingSchema fun _ => true) h := by
  obtain ⟨h, s, hr, ht⟩ := Sys.exists_run (S := sys sheddingSchema fun _ => true)
    ⟨shedsSearch, by decide, rfl⟩ (shedding ++ [.evaluate (some ⟨0, 0, 0, 0⟩) 60000])
    (p := fun x => x.1.any (fun t => t.pre.currentLevel = .critical) && x.2.currentLevel = .none
      && agreesAt x.2 && x.1.all fun t => agreesAt t.pre) (by decide +kernel)
  simp only [Bool.and_eq_true, decide_eq_true_eq, List.all_eq_true] at ht
  obtain ⟨⟨⟨hpeak, hnone⟩, hlast⟩, hall⟩ := ht
  exact ⟨h, s, hr, hpeak, hnone,
    (levels_agree_iff hr).1 ⟨agrees_of_agreesAt hlast, fun t ht => agrees_of_agreesAt (hall t ht)⟩⟩

/-- Another setting is changed while the load is on. -/
theorem update_ends_shedding : ¬ ∀ (schema : Schema JsNumber) (valid : Tree → Bool)
    (h : List (Taken State Event)) (s : State), Run (sys schema valid) h s → Agrees s := by
  intro hall
  obtain ⟨h, s, hr, ht⟩ := Sys.exists_run (S := sys sheddingSchema fun _ => true)
    ⟨shedsSearch, by decide, rfl⟩ (shedding ++ [.update "app.logLevel" (.json (.str "debug"))])
    (p := fun x => x.2.currentLevel = .critical && (x.2.flags.registry.get "search").isSome
      && (x.2.shedderConfig.flagsToShed.get "search").any
        (!strictNe · FeatureFlagStatus.disabled.value)
      && !strictNe (getStatus x.2.config "search" x.2.flags).1 FeatureFlagStatus.enabled.value)
    (by decide +kernel)
  simp only [Bool.and_eq_true, decide_eq_true_eq, Option.isSome_iff_exists, Option.any_eq_true,
    Bool.not_eq_true'] at ht
  obtain ⟨⟨⟨hlevel, flag, hflag⟩, v, hv, hdisabled⟩, henabled⟩ := ht
  have hshed := (hall _ _ h s hr).shed (by rw [getCurrentLevel, hlevel]; decide) "search" flag v
    hflag hv
  rw [eq_of_strictNe henabled, eq_of_strictNe hdisabled] at hshed
  simp [FeatureFlagStatus.value] at hshed

end Tests

end Ingress

end VeriNode

/-!
# When shedding is lifted

Shedding is lifted by an evaluation that finds no load, once the cooldown is over. The cooldown counts
from `lastElevatedAt`, which is the time of the last move to an elevated level; a snapshot that finds
the level in force once more does not set it. So the cooldown has passed for every elevated snapshot
if it has passed for those that found their level in force (`not_lifted_early_iff`).
-/

namespace VeriNode

namespace Ingress

variable {s s' : Clocked} {e : Evaluation} {t : Taken Clocked Evaluation}
  {h : List (Taken Clocked Evaluation)} {level : SheddingLevel}

section Property

def levelOf (t : Taken Clocked Evaluation) : Option SheddingLevel :=
  t.act.snapshot.map (determineLevel t.pre.shedder.shedderConfig.thresholds)

/-- The evaluation was at a time within the cooldown before `now`. -/
def Within (s : State) (now : ℤ) (t : Taken Clocked Evaluation) : Prop :=
  (JsNumber.fin (now - t.act.now)).lt s.shedderConfig.cooldownPeriodMs = true

/-- Shedding is lifted if no snapshot was elevated within the cooldown, and a snapshot that is elevated
sets the level at once. -/
structure Held (t : Taken Clocked Evaluation) (h : List (Taken Clocked Evaluation)) : Prop where
  lifts : getCurrentLevel t.pre.shedder ≠ .none → getCurrentLevel t.post.shedder = .none →
    ∀ r ∈ h, ∀ level, levelOf r = some level → level ≠ .none →
      ¬ Within t.pre.shedder t.act.now r
  raises : ∀ level, levelOf t = some level → level ≠ .none →
    getCurrentLevel t.post.shedder = level

/-- Where no load is found and the cooldown is over since the last move, it is over since each
snapshot that found its elevated level in force. -/
def Settled (t : Taken Clocked Evaluation) (h : List (Taken Clocked Evaluation)) : Prop :=
  levelOf t = some .none → t.pre.shedder.currentLevel ≠ .none →
    ((JsNumber.fin t.act.now).sub t.pre.shedder.lastElevatedAt).lt
      t.pre.shedder.shedderConfig.cooldownPeriodMs = false →
    ∀ r ∈ h, levelOf r = some r.pre.shedder.currentLevel → r.pre.shedder.currentLevel ≠ .none →
      ¬ Within t.pre.shedder t.act.now r

end Property

section Steps

theorem lt_of_le {p q : ℚ} {a : JsNumber} (h : p ≤ q) (hlt : (JsNumber.fin q).lt a = true) :
    (JsNumber.fin p).lt a = true := by
  cases a with
  | nan => exact hlt
  | negInf => exact hlt
  | posInf => rfl
  | fin r =>
    simp only [JsNumber.lt, decide_eq_true_eq] at hlt ⊢
    exact h.trans_lt hlt

theorem moves_eq_some_iff {snapshot : Option MetricSnapshot} {now : JsNumber} {s : State} :
    moves snapshot now s = some level ↔ s.collector = true
      ∧ snapshot.map (determineLevel s.shedderConfig.thresholds) = some level
      ∧ level ≠ s.currentLevel
      ∧ (level = .none → (now.sub s.lastElevatedAt).lt s.shedderConfig.cooldownPeriodMs = false) := by
  rw [moves, Option.ite_none_right_eq_some]
  refine and_congr_right fun _ => ?_
  cases snapshot with
  | none => simp
  | some snapshot =>
    rw [Option.bind_some, Option.map_some, Option.some_inj]
    dsimp only
    split_ifs with hsame hcool
    · refine iff_of_false id ?_
      rintro ⟨rfl, hne, -⟩
      exact hne hsame
    · refine iff_of_false id ?_
      rintro ⟨rfl, -, hover⟩
      exact Bool.false_ne_true ((hover hcool.1).symm.trans hcool.2)
    · rw [Option.some_inj]
      refine ⟨?_, And.left⟩
      rintro rfl
      exact ⟨rfl, hsame, fun hnone => eq_false_of_ne_true fun hlt => hcool ⟨hnone, hlt⟩⟩

theorem evaluateAt_eq (hs : evaluateAt s e = some s') : s.now ≤ e.now ∧ s'.now = e.now
    ∧ s'.shedder = evaluate e.snapshot (.fin e.now) s.shedder := by
  rw [evaluateAt, Option.ite_none_right_eq_some] at hs
  obtain ⟨hnow, hs⟩ := hs
  obtain rfl := Option.some.inj hs
  exact ⟨hnow, rfl, rfl⟩

theorem evaluateAt_cases (hs : evaluateAt s e = some s') :
    (moves e.snapshot (.fin e.now) s.shedder = none
        ∧ s'.shedder.currentLevel = s.shedder.currentLevel
        ∧ s'.shedder.lastElevatedAt = s.shedder.lastElevatedAt)
      ∨ ∃ level, moves e.snapshot (.fin e.now) s.shedder = some level
        ∧ s'.shedder.currentLevel = level
        ∧ s'.shedder.lastElevatedAt
          = if level ≠ .none then .fin e.now else s.shedder.lastElevatedAt := by
  obtain ⟨-, -, hshedder⟩ := evaluateAt_eq hs
  cases hm : moves e.snapshot (.fin e.now) s.shedder with
  | none =>
    obtain ⟨previous, he⟩ := evaluate_of_stays hm
    rw [hshedder, he]
    exact .inl ⟨rfl, rfl, rfl⟩
  | some level =>
    obtain ⟨previous, he⟩ := evaluate_of_moves hm
    rw [hshedder, he]
    exact .inr ⟨level, rfl, rfl, rfl⟩

theorem collector_evaluateAt (hs : evaluateAt s e = some s') :
    s'.shedder.collector = s.shedder.collector := by
  obtain ⟨-, -, hshedder⟩ := evaluateAt_eq hs
  cases hm : moves e.snapshot (.fin e.now) s.shedder with
  | none =>
    obtain ⟨previous, he⟩ := evaluate_of_stays hm
    rw [hshedder, he]
  | some level =>
    obtain ⟨previous, he⟩ := evaluate_of_moves hm
    rw [hshedder, he]

end Steps

section Runs

/-- Every elevated snapshot came before the last move, or found its level in force. -/
structure Since (h : List (Taken Clocked Evaluation)) (s : Clocked) : Prop where
  collects : s.shedder.collector = true
  past : ∀ r ∈ h, r.act.now ≤ s.now
  since : s.shedder.currentLevel ≠ .none → ∃ moved : ℤ, s.shedder.lastElevatedAt = .fin moved
    ∧ ∀ r ∈ h, ∀ level, levelOf r = some level → level ≠ .none →
      r.act.now ≤ moved ∨ level = r.pre.shedder.currentLevel

theorem Since.stays (hi : Since h s) (hm : moves e.snapshot (.fin e.now) s.shedder = none)
    (hlevel : levelOf ⟨s, e, s'⟩ = some level) (hne : level ≠ .none) :
    level = s.shedder.currentLevel := by
  by_contra hother
  have hmoves : moves e.snapshot (.fin e.now) s.shedder = some level :=
    moves_eq_some_iff.2 ⟨hi.collects, hlevel, hother, fun hnone => absurd hnone hne⟩
  rw [hm] at hmoves
  cases hmoves

theorem Since.step (hi : Since h s) (hs : evaluateAt s e = some s') :
    Since (⟨s, e, s'⟩ :: h) s' := by
  obtain ⟨hle, hnow, -⟩ := evaluateAt_eq hs
  refine ⟨(collector_evaluateAt hs).trans hi.collects, fun r hr => ?_, fun helevated => ?_⟩
  · rw [hnow]
    rcases List.mem_cons.1 hr with rfl | hr
    · exact Int.le_refl _
    · exact (hi.past r hr).trans hle
  · rcases evaluateAt_cases hs with ⟨hm, hcurrent, hlast⟩ | ⟨level, hm, hcurrent, hlast⟩
    · rw [hcurrent] at helevated
      obtain ⟨moved, hmoved, hsince⟩ := hi.since helevated
      refine ⟨moved, hlast.trans hmoved, fun r hr level hlevel hne => ?_⟩
      rcases List.mem_cons.1 hr with rfl | hr
      · exact .inr (hi.stays hm hlevel hne)
      · exact hsince r hr level hlevel hne
    · rw [hcurrent] at helevated
      rw [if_pos helevated] at hlast
      refine ⟨e.now, hlast, fun r hr _ _ _ => .inl ?_⟩
      rcases List.mem_cons.1 hr with rfl | hr
      · exact Int.le_refl _
      · exact (hi.past r hr).trans hle

theorem since_run (hr : Run evaluations h s) : Since h s := by
  induction hr with
  | start hi =>
    obtain ⟨stopped, hstopped, hnone, hinit⟩ := hi
    have hshedder := hinit.trans (if_neg (Bool.eq_false_iff.1 hstopped))
    refine ⟨by rw [hshedder], (fun _ hr => nomatch hr), fun helevated => absurd ?_ helevated⟩
    rw [hshedder]
    exact hnone
  | next _ hs ih => exact ih.step hs

theorem held_iff (hi : Since h s) (hs : evaluateAt s e = some s') :
    Held ⟨s, e, s'⟩ h ↔ Settled ⟨s, e, s'⟩ h := by
  have hcases := evaluateAt_cases hs
  constructor
  · intro hheld hnone helevated hover r hr hlevel hne
    have hm : moves e.snapshot (.fin e.now) s.shedder = some .none :=
      moves_eq_some_iff.2 ⟨hi.collects, hnone, helevated.symm, fun _ => hover⟩
    rcases hcases with ⟨hm', -, -⟩ | ⟨level, hm', hcurrent, -⟩
    · rw [hm] at hm'
      cases hm'
    · obtain rfl := Option.some.inj (hm.symm.trans hm')
      exact hheld.lifts helevated hcurrent r hr _ hlevel hne
  · intro hsettled
    refine ⟨fun helevated hlifted r hr level hlevel hne hwithin => ?_, fun level hlevel hne => ?_⟩
    · change s'.shedder.currentLevel = .none at hlifted
      rcases hcases with ⟨-, hcurrent, -⟩ | ⟨level', hm, hcurrent, -⟩
      · exact helevated (hcurrent.symm.trans hlifted)
      · obtain rfl : level' = .none := hcurrent.symm.trans hlifted
        obtain ⟨-, hnone, -, hover⟩ := moves_eq_some_iff.1 hm
        obtain ⟨moved, hmoved, hsince⟩ := hi.since helevated
        rcases hsince r hr level hlevel hne with hle | rfl
        · have hearly := lt_of_le (p := e.now - moved)
            (sub_le_sub_left (Int.cast_le.2 hle) (e.now : ℚ)) hwithin
          have hlate := hover rfl
          rw [hmoved] at hlate
          exact Bool.false_ne_true (hlate.symm.trans hearly)
        · exact hsettled hnone helevated (hover rfl) r hr hlevel hne hwithin
    · change s'.shedder.currentLevel = level
      rcases hcases with ⟨hm, hcurrent, -⟩ | ⟨level', hm, hcurrent, -⟩
      · exact hcurrent.trans (hi.stays hm hlevel hne).symm
      · obtain ⟨-, hlevel', -⟩ := moves_eq_some_iff.1 hm
        exact hcurrent.trans (Option.some.inj (hlevel'.symm.trans hlevel))

/-- Shedding is not lifted early in the runs whose elevated snapshots were, when it is lifted, either
before the last move or before the cooldown. -/
theorem not_lifted_early_iff (hr : Run evaluations h s) :
    Throughout Held h ↔ Throughout Settled h :=
  hr.throughout_iff fun _ _ _ _ hr hs => held_iff (since_run hr) hs

theorem settled_of_moves : ∀ {h : List (Taken Clocked Evaluation)},
    (∀ r ∈ h, levelOf r ≠ some r.pre.shedder.currentLevel) → Throughout Settled h
  | [], _ => trivial
  | _ :: _, hmoves => ⟨fun _ _ _ r hr hlevel => absurd hlevel (hmoves r (List.mem_cons_of_mem _ hr)),
    settled_of_moves fun r hr => hmoves r (List.mem_cons_of_mem _ hr)⟩

/-- No load. -/
def idle : MetricSnapshot := ⟨0, 0, 0, 0⟩

/-- A critical load. -/
def busy : MetricSnapshot := ⟨99, 0, 0, 0⟩

theorem start_evaluations : evaluations.init ⟨0, initCapacityShedder (.start [])⟩ :=
  ⟨.start [], rfl, rfl, rfl⟩

/-- Thirty seconds after the only critical load. -/
theorem lifted_late : ∃ h s, Run evaluations h s
    ∧ (h.any fun t => t.pre.shedder.currentLevel = .critical) = true
    ∧ s.shedder.currentLevel = .none ∧ Throughout Held h := by
  obtain ⟨h, s, hr, ht⟩ := Sys.exists_run start_evaluations [⟨some busy, 0⟩, ⟨some idle, 30000⟩]
    (p := fun x => x.1.any (fun t => t.pre.shedder.currentLevel = .critical)
      && x.2.shedder.currentLevel = .none
      && x.1.all fun t => levelOf t ≠ some t.pre.shedder.currentLevel) (by decide +kernel)
  simp only [Bool.and_eq_true, decide_eq_true_eq, List.all_eq_true] at ht
  obtain ⟨⟨hpeak, hnone⟩, hmoves⟩ := ht
  exact ⟨h, s, hr, hpeak, hnone, (not_lifted_early_iff hr).2 (settled_of_moves hmoves)⟩

/-- The last two of the evaluations: shedding is lifted within the cooldown after a critical load. -/
def liftsEarly : List (Taken Clocked Evaluation) → Bool
  | t :: r :: _ => getCurrentLevel t.pre.shedder ≠ .none && getCurrentLevel t.post.shedder = .none
    && levelOf r = some .critical
    && (JsNumber.fin (t.act.now - r.act.now)).lt t.pre.shedder.shedderConfig.cooldownPeriodMs
  | _ => false

theorem not_held_of_liftsEarly (hearly : liftsEarly h = true) : ¬ Throughout Held h := by
  intro hheld
  match h, hearly, hheld with
  | t :: r :: h, hearly, hheld =>
    simp only [liftsEarly, Bool.and_eq_true, decide_eq_true_eq] at hearly
    obtain ⟨⟨⟨helevated, hlifted⟩, hcritical⟩, hwithin⟩ := hearly
    exact hheld.1.lifts helevated hlifted r List.mem_cons_self _ hcritical (by decide) hwithin

/-- Thirty seconds after the first critical load, and a millisecond after the last. -/
theorem lifted_early : ∃ h s, Run evaluations h s ∧ ¬ Throughout Held h := by
  obtain ⟨h, s, hr, hearly⟩ := Sys.exists_run start_evaluations
    [⟨some busy, 0⟩, ⟨some busy, 30000⟩, ⟨some idle, 30001⟩] (p := fun x => liftsEarly x.1)
    (by decide +kernel)
  exact ⟨h, s, hr, not_held_of_liftsEarly hearly⟩

end Runs

end Ingress

end VeriNode
