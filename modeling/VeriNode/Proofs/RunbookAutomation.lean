import VeriNode.Incident.RunbookAutomation

/-!
# What incidents are told apart by

A call whose patterns have been left at the beginning of their texts finds the first runbook that
matches (`findRunbook_of_fresh`). Ids are texts joined by a separator that the parts may have in
them, so they tell incidents apart where the parts have none (`incidentIdFor_eq_iff`). Both hold in
all runs whose calls are of these kinds (`incidents_exact`).
-/

namespace VeriNode

namespace Incident

variable {o : Options} {indices : Indices} {h : List (Taken State Call)} {s : State}
variable {signal signal' : IncidentSignal} {runbookId runbookId' : String}

section Matching

/-- A pattern that keeps an index keeps that of the beginning. -/
def FreshAt (o : Options) (pattern : ℕ) (indices : Indices) : Prop :=
  (o.patterns pattern).stateful = true → indices pattern = 0

/-- Every pattern that a call consults is fresh when it does. -/
def Fresh (o : Options) (signal : IncidentSignal) : List RunbookDefinition → Indices → Prop
  | [], _ => True
  | candidate :: candidates, indices =>
    let service := testPattern o candidate.servicePattern signal.service indices
    let metric := testPattern o candidate.metricPattern signal.metric service.2
    FreshAt o candidate.servicePattern indices ∧
      if service.1 then
        FreshAt o candidate.metricPattern service.2 ∧
          (metric.1 = false → Fresh o signal candidates metric.2)
      else Fresh o signal candidates service.2

def Matches (o : Options) (signal : IncidentSignal) (runbook : RunbookDefinition) : Bool :=
  (o.patterns runbook.servicePattern).accepts (JsString.utf16 signal.service) &&
    (o.patterns runbook.metricPattern).accepts (JsString.utf16 signal.metric)

theorem testPattern_of_fresh {pattern : ℕ} (hf : FreshAt o pattern indices) (text : String) :
    (testPattern o pattern text indices).1 = (o.patterns pattern).accepts (JsString.utf16 text) :=
  JsRegExp.test_of_fresh hf

theorem findRunbook_cons (candidate : RunbookDefinition) (candidates : List RunbookDefinition) :
    findRunbook o signal (candidate :: candidates) indices =
      if (testPattern o candidate.servicePattern signal.service indices).1 then
        if (testPattern o candidate.metricPattern signal.metric
            (testPattern o candidate.servicePattern signal.service indices).2).1 then
          (some candidate, (testPattern o candidate.metricPattern signal.metric
            (testPattern o candidate.servicePattern signal.service indices).2).2)
        else findRunbook o signal candidates (testPattern o candidate.metricPattern signal.metric
          (testPattern o candidate.servicePattern signal.service indices).2).2
      else findRunbook o signal candidates
        (testPattern o candidate.servicePattern signal.service indices).2 := rfl

theorem findRunbook_of_fresh : ∀ {candidates : List RunbookDefinition} {indices : Indices},
    Fresh o signal candidates indices →
      (findRunbook o signal candidates indices).1 = candidates.find? (Matches o signal)
  | [], _, _ => rfl
  | candidate :: candidates, indices, hf => by
    obtain ⟨hservice, hrest⟩ := hf
    have hs := testPattern_of_fresh hservice signal.service
    rw [findRunbook_cons, List.find?_cons]
    by_cases h1 : (testPattern o candidate.servicePattern signal.service indices).1 = true
    · rw [if_pos h1] at hrest
      obtain ⟨hmetric, hrest⟩ := hrest
      have hm := testPattern_of_fresh hmetric signal.metric
      have hmatch : Matches o signal candidate = (testPattern o candidate.metricPattern
          signal.metric (testPattern o candidate.servicePattern signal.service indices).2).1 := by
        rw [Matches, ← hs, ← hm, h1, Bool.true_and]
      rw [if_pos h1, hmatch]
      cases h2 : (testPattern o candidate.metricPattern signal.metric
        (testPattern o candidate.servicePattern signal.service indices).2).1 with
      | true => rfl
      | false => exact findRunbook_of_fresh (hrest h2)
    · rw [if_neg h1] at hrest
      have hmatch : Matches o signal candidate = false := by
        rw [Matches, ← hs, Bool.eq_false_of_not_eq_true h1, Bool.false_and]
      rw [if_neg h1, hmatch]
      exact findRunbook_of_fresh hrest

theorem fresh_of_stateless (hstate : ∀ pattern, (o.patterns pattern).stateful = false) :
    ∀ (candidates : List RunbookDefinition) (indices : Indices), Fresh o signal candidates indices
  | [], _ => trivial
  | candidate :: candidates, indices => by
    have hfresh : ∀ pattern indices, FreshAt o pattern indices := by
      intro pattern indices hs
      rw [hstate pattern] at hs
      exact absurd hs Bool.false_ne_true
    refine ⟨hfresh _ _, ?_⟩
    split_ifs
    · exact ⟨hfresh _ _, fun _ => fresh_of_stateless hstate candidates _⟩
    · exact fresh_of_stateless hstate candidates _

end Matching

section Ids

theorem severity_text_injective : Function.Injective IncidentSeverity.text := by
  intro a b hab
  cases a <;> cases b <;> first | rfl | exact absurd hab (by decide)

theorem bar_not_mem_severity (severity : IncidentSeverity) : '|' ∉ severity.text.toList := by
  cases severity <;> decide

/-- The parts of an id that come before its last have no separator in them. -/
def Plain (signal : IncidentSignal) (runbookId : String) : Prop :=
  '|' ∉ signal.service.toList ∧ '|' ∉ signal.metric.toList ∧ '|' ∉ runbookId.toList

instance (signal : IncidentSignal) (runbookId : String) : Decidable (Plain signal runbookId) :=
  inferInstanceAs (Decidable (_ ∧ _))

/-- Two signals agree on what an id is made of. -/
structure Agree (signal signal' : IncidentSignal) (runbookId runbookId' : String) : Prop where
  service : signal.service = signal'.service
  metric : signal.metric = signal'.metric
  severity : signal.severity = signal'.severity
  runbook : runbookId = runbookId'
  region : signal.region = signal'.region

theorem Plain.dropLast (hp : Plain signal runbookId) :
    ∀ p ∈ [signal.service, signal.metric, signal.severity.text, runbookId, signal.region].dropLast,
      '|' ∉ p.toList := by
  have hsev := bar_not_mem_severity signal.severity
  simp only [List.dropLast_cons_cons, List.dropLast_singleton, List.forall_mem_cons,
    List.not_mem_nil, false_implies, implies_true, and_true]
  exact ⟨hp.1, hp.2.1, hsev, hp.2.2⟩

theorem incidentIdFor_eq_iff {digest : String → String} (hdigest : Function.Injective digest)
    (hp : Plain signal runbookId) (hp' : Plain signal' runbookId') :
    incidentIdFor digest signal runbookId = incidentIdFor digest signal' runbookId' ↔
      Agree signal signal' runbookId runbookId' := by
  constructor
  · intro heq
    have hjoin := hdigest (String.append_right_inj _ |>.1 heq)
    have hparts : [signal.service, signal.metric, signal.severity.text, runbookId, signal.region] =
        [signal'.service, signal'.metric, signal'.severity.text, runbookId', signal'.region] :=
      Separated.join_inj rfl hp.dropLast hp'.dropLast hjoin
    simp only [List.cons.injEq, and_true] at hparts
    obtain ⟨hservice, hmetric, hseverity, hrunbook, hregion⟩ := hparts
    exact ⟨hservice, hmetric, severity_text_injective hseverity, hrunbook, hregion⟩
  · intro ha
    unfold incidentIdFor
    rw [ha.service, ha.metric, ha.severity, ha.runbook, ha.region]

end Ids

section Runs

/-- The runbook of a call, if it has found one. -/
def Planned.chosen (p : Planned) : Option RunbookDefinition :=
  match p.result with
  | .ok made => some made.runbook
  | .error _ => none

theorem findRunbook_mem : ∀ {candidates : List RunbookDefinition} {indices : Indices}
    {runbook : RunbookDefinition},
    (findRunbook o signal candidates indices).1 = some runbook → runbook ∈ candidates
  | [], _, _, hf => absurd hf (by simp [findRunbook])
  | candidate :: candidates, indices, runbook, hf => by
    rw [findRunbook_cons] at hf
    split_ifs at hf
    · exact Option.some.inj hf ▸ List.mem_cons_self
    · exact List.mem_cons_of_mem _ (findRunbook_mem hf)
    · exact List.mem_cons_of_mem _ (findRunbook_mem hf)

theorem planned_step {call : Call} {s' : State} (hs : step o s call = some s') :
    ∃ p : Planned, s'.planned = s.planned ++ [p] ∧ p.signal = call.signal ∧
      p.chosen = (findRunbook o call.signal o.runbooks s.indices).1 ∧
      ∀ made, p.result = .ok made →
        made.incidentId = incidentIdFor o.digest call.signal made.runbook.id := by
  obtain rfl := Option.some.inj hs
  refine ⟨_, rfl, rfl, ?_, fun made hm => ?_⟩
  · simp only [Planned.chosen, matchRunbook]
    rcases findRunbook o call.signal o.runbooks s.indices with ⟨_ | runbook, indices⟩ <;> rfl
  · simp only [matchRunbook] at hm
    rcases hf : findRunbook o call.signal o.runbooks s.indices with ⟨_ | runbook, indices⟩
    · rw [hf] at hm
      exact absurd hm (by simp)
    · rw [hf] at hm
      obtain rfl := Except.ok.inj hm
      rfl

def First (o : Options) (p : Planned) : Prop :=
  p.chosen = o.runbooks.find? (Matches o p.signal)

theorem first_of_run (hr : Run (system o) h s)
    (hfresh : Along (fun s call => Fresh o call.signal o.runbooks s.indices) h) :
    ∀ p ∈ s.planned, First o p := by
  refine hr.invariant_of (P := fun s => ∀ p ∈ s.planned, First o p) ?_ ?_ hfresh
  · rintro s rfl p hp
    exact absurd hp List.not_mem_nil
  · intro s call s' hi hf hs p hp
    obtain ⟨q, hq, hsignal, hchosen, -⟩ := planned_step hs
    rw [hq, List.mem_append, List.mem_singleton] at hp
    rcases hp with hp | rfl
    · exact hi p hp
    · unfold First
      rw [hchosen, hsignal]
      exact findRunbook_of_fresh hf

/-- The id of a call is made of the parts, and the parts have no separator in them. -/
def Labelled (o : Options) (p : Planned) : Prop :=
  ∀ made, p.result = .ok made →
    made.incidentId = incidentIdFor o.digest p.signal made.runbook.id ∧
      Plain p.signal made.runbook.id

theorem labelled_of_run (hr : Run (system o) h s)
    (hplain : Along (fun _ call => ∀ runbook ∈ o.runbooks, Plain call.signal runbook.id) h) :
    ∀ p ∈ s.planned, Labelled o p := by
  refine hr.invariant_of (P := fun s => ∀ p ∈ s.planned, Labelled o p) ?_ ?_ hplain
  · rintro s rfl p hp
    exact absurd hp List.not_mem_nil
  · intro s call s' hi hf hs p hp
    obtain ⟨q, hq, hsignal, hchosen, hid⟩ := planned_step hs
    rw [hq, List.mem_append, List.mem_singleton] at hp
    rcases hp with hp | rfl
    · exact hi p hp
    · intro made hm
      have hmem : made.runbook ∈ o.runbooks := by
        refine findRunbook_mem (hchosen.symm.trans ?_)
        unfold Planned.chosen
        rw [hm]
      rw [hsignal]
      exact ⟨hid made hm, hf _ hmem⟩

/-- In a run whose calls consult fresh patterns each has the first runbook that matches, and in one
whose calls have no separator in the parts of their ids two of them have one id exactly if they
agree on the parts. -/
theorem incidents_exact (hdigest : Function.Injective o.digest) (hr : Run (system o) h s) :
    (Along (fun s call => Fresh o call.signal o.runbooks s.indices) h →
      ∀ p ∈ s.planned, p.chosen = o.runbooks.find? (Matches o p.signal)) ∧
    (Along (fun _ call => ∀ runbook ∈ o.runbooks, Plain call.signal runbook.id) h →
      ∀ p ∈ s.planned, ∀ q ∈ s.planned, ∀ made made',
        p.result = .ok made → q.result = .ok made' →
          (made.incidentId = made'.incidentId ↔
            Agree p.signal q.signal made.runbook.id made'.runbook.id)) := by
  refine ⟨first_of_run hr, fun hplain p hp q hq made made' hm hm' => ?_⟩
  obtain ⟨hid, hfree⟩ := labelled_of_run hr hplain p hp made hm
  obtain ⟨hid', hfree'⟩ := labelled_of_run hr hplain q hq made' hm'
  rw [hid, hid']
  exact incidentIdFor_eq_iff hdigest hfree hfree'

/-- An expression that is a text, with its flag `g` or without it. -/
def literal (text : String) (global : Bool) : JsRegExp where
  global := global
  matcher units i :=
    if JsString.utf16 text <+: units.drop i then some (i + (JsString.utf16 text).length) else none

/-- The digits of the two ids below; other texts do not matter. -/
def sampleDigest (text : String) : String :=
  if text = "api|latency|critical|slow|global" then "43ebfe098225eaaf90b506e814650906"
  else if text = "api|errors|warning|slow|global" then "bc3917bf30d5955d27c007a4001f0102"
  else "~" ++ text

theorem sampleDigest_injective : Function.Injective sampleDigest := by
  have hhead : ∀ text : String, ("~" ++ text).toList.head? = some '~' := fun _ => by simp
  have hdigits : ∀ {digits text : String}, digits.toList.head? ≠ some '~' →
      digits ≠ "~" ++ text := by
    rintro digits text hd rfl
    exact hd (hhead text)
  intro a b hab
  unfold sampleDigest at hab
  by_cases ha : a = "api|latency|critical|slow|global"
  · rw [if_pos ha] at hab
    by_cases hb : b = "api|latency|critical|slow|global"
    · exact ha.trans hb.symm
    · rw [if_neg hb] at hab
      split_ifs at hab with hb'
      · exact absurd hab (by decide)
      · exact absurd hab (hdigits (by decide))
  · rw [if_neg ha] at hab
    by_cases hb : b = "api|latency|critical|slow|global"
    · rw [if_pos hb] at hab
      split_ifs at hab with ha'
      · exact absurd hab (by decide)
      · exact absurd hab.symm (hdigits (by decide))
    · rw [if_neg hb] at hab
      split_ifs at hab with ha' hb' hb'
      · exact ha'.trans hb'.symm
      · exact absurd hab (hdigits (by decide))
      · exact absurd hab.symm (hdigits (by decide))
      · exact String.append_right_inj _ |>.1 hab

/-- Options with one runbook, for a service that has `api` and a metric that has `e` in it. -/
def slowRunbook (global : Bool) : Options where
  pagerDutyRoutingKey := "key"
  runbooks := [⟨"slow", "Slow requests", 0, 1, "https://dashboards", "primary", ["shift"]⟩]
  patterns n := if n = 0 then literal "api" false else literal "e" global
  digest := sampleDigest

def signalOf (service metric : String) (severity : IncidentSeverity) : IncidentSignal where
  service := service
  summary := "slow"
  severity := severity
  metric := metric
  value := 148
  threshold := 100

theorem incidents_exact_two : ∃ h s, Run (system (slowRunbook false)) h s ∧
    s.planned.length = 2 ∧
    (∀ p ∈ s.planned,
      p.chosen = (slowRunbook false).runbooks.find? (Matches (slowRunbook false) p.signal)) ∧
    ∀ p ∈ s.planned, ∀ q ∈ s.planned, ∀ made made',
      p.result = .ok made → q.result = .ok made' → (made.incidentId = made'.incidentId ↔
        Agree p.signal q.signal made.runbook.id made'.runbook.id) := by
  obtain ⟨h, s, hr, hp⟩ := Sys.exists_run (S := system (slowRunbook false)) (s := ⟨fun _ => 0, []⟩)
    rfl [⟨signalOf "api" "latency" .critical, .epoch, none⟩,
      ⟨signalOf "api" "errors" .warning, .epoch, some (.ok ())⟩]
    (p := fun x => x.1.all (fun t => decide (∀ runbook ∈ (slowRunbook false).runbooks,
      Plain t.act.signal runbook.id)) && x.2.planned.length = 2) (by decide +kernel)
  rw [Bool.and_eq_true, List.all_eq_true, decide_eq_true_iff] at hp
  have hstate : ∀ pattern, ((slowRunbook false).patterns pattern).stateful = false := by
    intro pattern
    show ((if pattern = 0 then literal "api" false else literal "e" false).stateful) = false
    split_ifs <;> rfl
  have hexact := incidents_exact sampleDigest_injective hr
  exact ⟨h, s, hr, hp.2, hexact.1 fun t _ => fresh_of_stateless hstate _ _,
    hexact.2 fun t ht => of_decide_eq_true (hp.1 t ht)⟩

def Planned.incidentId (p : Planned) : Option String :=
  match p.result with
  | .ok made => some made.incidentId
  | .error _ => none

/-- A metric pattern with the flag `g` does not find in the second call what it has found in the
first, and two incidents of different services have one id. -/
theorem incidents_confused :
    (∃ h s, Run (system (slowRunbook true)) h s ∧ ∃ p ∈ s.planned,
      p.chosen ≠ (slowRunbook true).runbooks.find? (Matches (slowRunbook true) p.signal)) ∧
    ∃ h s, Run (system (slowRunbook false)) h s ∧ ∃ p ∈ s.planned, ∃ q ∈ s.planned,
      p.incidentId ≠ none ∧ p.incidentId = q.incidentId ∧ p.signal.service ≠ q.signal.service := by
  refine ⟨?_, ?_⟩
  · obtain ⟨h, s, hr, hp⟩ := Sys.exists_run (S := system (slowRunbook true))
      (s := ⟨fun _ => 0, []⟩) rfl [⟨signalOf "api" "latency" .critical, .epoch, none⟩,
        ⟨signalOf "api" "latency" .critical, .epoch, none⟩]
      (p := fun x => x.2.planned.any fun p => decide (p.chosen ≠
        (slowRunbook true).runbooks.find? (Matches (slowRunbook true) p.signal))) (by decide +kernel)
    obtain ⟨p, hmem, hne⟩ := List.any_eq_true.1 hp
    exact ⟨h, s, hr, p, hmem, of_decide_eq_true hne⟩
  · obtain ⟨h, s, hr, hp⟩ := Sys.exists_run (S := system (slowRunbook false))
      (s := ⟨fun _ => 0, []⟩) rfl [⟨signalOf "api" "eu|latency" .critical, .epoch, none⟩,
        ⟨signalOf "api|eu" "latency" .critical, .epoch, none⟩]
      (p := fun x => x.2.planned.any fun p => x.2.planned.any fun q =>
        decide (p.incidentId ≠ none ∧ p.incidentId = q.incidentId ∧
          p.signal.service ≠ q.signal.service)) (by decide +kernel)
    obtain ⟨p, hmem, hp⟩ := List.any_eq_true.1 hp
    obtain ⟨q, hmem', hq⟩ := List.any_eq_true.1 hp
    exact ⟨h, s, hr, p, hmem, q, hmem', of_decide_eq_true hq⟩

end Runs

end Incident

end VeriNode
