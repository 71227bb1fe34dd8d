import Mathlib.Tactic.Linarith
import Mathlib.Tactic.NormNum
import Mathlib.Tactic.Ring
import VeriNode.Capacity.Planner
import VeriNode.Lib.LeastSquares

/-!
# What a forecast is made of

The trend of a history is the slope of its least squares (`trend_fitted`). What is kept under a key
has been recorded of the names the key is made of; that `forecastAll` has the forecasts of all that
has been recorded is so exactly if no service has the separator in its name (`covers_iff`).
-/

namespace VeriNode

namespace Capacity

variable {o : Options} {samples samples' : Samples} {h : List (Taken Samples Call)}
variable {service service' : String} {resource resource' : CapacityResource}

section Keys

theorem text_injective : Function.Injective CapacityResource.text := by
  intro r s h
  cases r <;> cases s <;> first | rfl | exact absurd h (by decide)

theorem bar_not_mem_text (r : CapacityResource) : '|' ∉ r.text.toList := by
  cases r <;> decide

theorem key_eq_join (service resource : String) :
    key service resource = Separated.join '|' [service, resource] := by
  rw [← String.toList_inj]
  simp [key, Separated.join]

theorem key_inj (hk : key service resource.text = key service' resource'.text) :
    service = service' ∧ resource = resource' := by
  have hlist := congrArg (fun s => s.toList.reverse) hk
  simp only [key, String.toList_append, List.reverse_append] at hlist
  have hbar : ∀ r : CapacityResource, '|' ∉ r.text.toList.reverse := by
    intro r
    rw [List.mem_reverse]
    exact bar_not_mem_text r
  obtain ⟨hr, hs⟩ := Separated.append_cons_inj (hbar resource) (hbar resource') hlist
  exact ⟨String.toList_inj.1 (List.reverse_injective hs),
    text_injective (String.toList_inj.1 (List.reverse_injective hr))⟩

theorem split_key (hs : '|' ∉ service.toList) :
    Separated.split '|' (key service resource.text) = [service, resource.text] := by
  rw [key_eq_join]
  refine Separated.split_join (List.cons_ne_nil _ _) fun p hp => ?_
  rcases List.mem_pair.1 hp with rfl | rfl
  · exact hs
  · exact bar_not_mem_text resource

end Keys

section Recorded

def Recorded (h : List (Taken Samples Call)) (service : String) (resource : CapacityResource) :
    Prop :=
  ∃ t ∈ h, ∃ entry, validateSample t.act.sample = .ok entry ∧ entry.service = service ∧
    entry.resource = resource

/-- What is known of what is kept. -/
structure Inv (h : List (Taken Samples Call)) (samples : Samples) : Prop where
  keys : ∀ k ∈ samples.keys, ∃ service resource, Recorded h service resource ∧
    k = key service resource.text
  kept : ∀ service resource, Recorded h service resource → ∃ history,
    samples.get (key service resource.text) = some history
  own : ∀ service resource history, samples.get (key service resource.text) = some history →
    history ≠ [] ∧ (∀ u ∈ history, u.service = service ∧ u.resource = resource) ∧
      history.Pairwise (·.timestamp ≤ ·.timestamp)

theorem retain_ne_nil (o : Options) (now : ℚ) (entry : Usage) (history : List Usage) :
    retain o now entry history ≠ [] := by
  intro he
  have hmem : entry ∈ retain o now entry history :=
    (List.mem_insertionSort _).2 (List.mem_append_right _ (List.mem_singleton_self entry))
  rw [he] at hmem
  exact absurd hmem List.not_mem_nil

theorem mem_retain {now : ℚ} {entry u : Usage} {history : List Usage}
    (hu : u ∈ retain o now entry history) : u ∈ history ∨ u = entry := by
  rcases List.mem_append.1 ((List.mem_insertionSort _).1 hu) with hu | hu
  · exact .inl (List.mem_filter.1 hu).1
  · exact .inr (List.mem_singleton.1 hu)

theorem pairwise_retain (o : Options) (now : ℚ) (entry : Usage) (history : List Usage) :
    (retain o now entry history).Pairwise (·.timestamp ≤ ·.timestamp) :=
  @List.pairwise_insertionSort _ (fun a b : Usage => a.timestamp ≤ b.timestamp) _
    ⟨fun a b => le_total a.timestamp b.timestamp⟩ ⟨fun _ _ _ => le_trans⟩ _

theorem recorded_cons {t : Taken Samples Call} : Recorded (t :: h) service resource ↔
    (∃ entry, validateSample t.act.sample = .ok entry ∧ entry.service = service ∧
      entry.resource = resource) ∨ Recorded h service resource := by
  unfold Recorded
  rw [List.exists_mem_cons_iff]

theorem Inv.record {c : Call} {entry : Usage} (hi : Inv h samples)
    (hv : validateSample c.sample = .ok entry) :
    Inv (⟨samples, c, samples'⟩ :: h)
      (samples.set (key entry.service entry.resource.text)
        (retain o c.now entry
          ((samples.get (key entry.service entry.resource.text)).getD []))) where
  keys k hk := by
    by_cases he : k = key entry.service entry.resource.text
    · exact ⟨_, _, recorded_cons.2 (.inl ⟨entry, hv, rfl, rfl⟩), he⟩
    · have hk' : k ∈ samples.keys := by
        by_contra hn
        have := OrdMap.get_eq_none_iff.2 hn
        rw [← OrdMap.get_set_of_ne _ (retain o c.now entry
          ((samples.get (key entry.service entry.resource.text)).getD [])) he] at this
        exact OrdMap.get_eq_none_iff.1 this hk
      obtain ⟨s, r, hr, rfl⟩ := hi.keys k hk'
      exact ⟨s, r, recorded_cons.2 (.inr hr), rfl⟩
  kept s r hr := by
    by_cases he : key s r.text = key entry.service entry.resource.text
    · rw [he]
      exact ⟨_, OrdMap.get_set_self ..⟩
    · rw [OrdMap.get_set_of_ne _ _ he]
      rcases recorded_cons.1 hr with ⟨u, hu, rfl, rfl⟩ | hr
      · obtain rfl := Except.ok.inj (hv.symm.trans hu)
        exact absurd rfl he
      · exact hi.kept s r hr
  own s r history hg := by
    by_cases he : key s r.text = key entry.service entry.resource.text
    · rw [he, OrdMap.get_set_self, Option.some.injEq] at hg
      subst hg
      obtain ⟨rfl, rfl⟩ := key_inj he
      refine ⟨retain_ne_nil _ _ _ _, fun u hu => ?_, pairwise_retain ..⟩
      rcases mem_retain hu with hu | rfl
      · rcases hold : samples.get (key entry.service entry.resource.text) with _ | old
        · rw [hold] at hu
          exact absurd hu List.not_mem_nil
        · rw [hold] at hu
          exact (hi.own _ _ _ hold).2.1 u hu
      · exact ⟨rfl, rfl⟩
    · rw [OrdMap.get_set_of_ne _ _ he] at hg
      exact hi.own s r history hg

theorem inv_of_run (hr : Run (planner o) h samples) : Inv h samples := by
  induction hr with
  | start hi =>
    obtain rfl := hi
    refine ⟨fun k hk => absurd hk List.not_mem_nil, ?_, ?_⟩
    · rintro s r ⟨t, ht, -⟩
      exact absurd ht List.not_mem_nil
    · intro s r history hg
      exact absurd hg (Option.some_ne_none _).symm
  | @next h samples _ c hr hs ih =>
    rw [← Option.some.inj hs, record]
    rcases hv : validateSample c.sample with message | entry
    · have hold : ∀ s r, Recorded (⟨samples, c, samples⟩ :: h) s r ↔ Recorded h s r := by
        intro s r
        rw [recorded_cons, hv]
        simp
      refine ⟨fun k hk => ?_, fun s r hrec => ih.kept s r ((hold s r).1 hrec), ih.own⟩
      obtain ⟨s, r, hrec, he⟩ := ih.keys k hk
      exact ⟨s, r, (hold s r).2 hrec, he⟩
    · exact ih.record hv

end Recorded

section Forecasts

variable {days : ℚ} {f : CapacityForecast}

theorem filter_filterMap_eq_singleton {α β : Type*} {φ : α → Option β} {p : β → Bool} {a : α}
    {b : β} : ∀ {l : List α}, l.Nodup → a ∈ l → φ a = some b → p b = true →
      (∀ a' ∈ l, ∀ b', φ a' = some b' → p b' = true → a' = a) → (l.filterMap φ).filter p = [b]
  | [], _, ha, _, _, _ => absurd ha List.not_mem_nil
  | c :: l, hl, ha, hb, hp, hu => by
    rw [List.nodup_cons] at hl
    by_cases hc : c = a
    · subst hc
      rw [List.filterMap_cons_some hb, List.filter_cons_of_pos hp]
      have hnone : (l.filterMap φ).filter p = [] := by
        rw [List.filter_eq_nil_iff]
        intro b' hb' hp'
        obtain ⟨a', ha', hφ⟩ := List.mem_filterMap.1 hb'
        exact hl.1 (hu a' (List.mem_cons_of_mem _ ha') b' hφ hp' ▸ ha')
      rw [hnone]
    · have ha' : a ∈ l := (List.mem_cons.1 ha).resolve_left (Ne.symm hc)
      have ih := filter_filterMap_eq_singleton hl.2 ha' hb hp fun a' ha' =>
        hu a' (List.mem_cons_of_mem _ ha')
      rcases hφ : φ c with _ | b'
      · rw [List.filterMap_cons_none hφ, ih]
      · have hp' : ¬ p b' = true := fun hp' => hc (hu c List.mem_cons_self b' hφ hp')
        rw [List.filterMap_cons_some hφ, List.filter_cons_of_neg hp', ih]

theorem forecast_names {name resource : String}
    (hf : forecast o name resource days samples = some f) :
    f.service = name ∧ f.resource = resource := by
  obtain ⟨latest, -, rfl⟩ := Option.map_eq_some_iff.1 hf
  exact ⟨rfl, rfl⟩

theorem forecast_of_recorded (hi : Inv h samples) (hr : Recorded h service resource) :
    ∃ f, forecast o service resource.text days samples = some f := by
  obtain ⟨history, hg⟩ := hi.kept _ _ hr
  obtain ⟨latest, hl⟩ := List.getLast?_isSome.2 (hi.own _ _ _ hg).1 |> Option.isSome_iff_exists.1
  refine ⟨forecastOf o service resource.text days history latest, ?_⟩
  unfold forecast
  rw [hg]
  exact congrArg (Option.map (forecastOf o service resource.text days history)) hl

theorem forecastKey_key (hs : '|' ∉ service.toList) :
    forecastKey o days samples (key service resource.text) =
      forecast o service resource.text days samples := by
  unfold forecastKey
  rw [split_key hs]

theorem bar_not_mem_service {k : String} (hf : forecastKey o days samples k = some f) :
    '|' ∉ f.service.toList := by
  unfold forecastKey at hf
  split at hf
  · rename_i name rest _ hsplit
    rw [(forecast_names hf).1]
    exact Separated.not_mem_of_mem_split (hsplit ▸ List.mem_cons_self)
  · exact absurd hf (Option.some_ne_none _).symm

theorem mem_forecastAll : f ∈ forecastAll o days samples ↔
    ∃ k ∈ samples.keys, forecastKey o days samples k = some f := by
  unfold forecastAll
  rw [List.mem_insertionSort, List.mem_filterMap]

end Forecasts

section Urgency

variable {days : ℚ} {f g : CapacityForecast}

/-- The thresholds are the default ones. -/
def Options.DefaultThresholds (o : Options) : Prop :=
  o.watchUtilizationPercent = 70 ∧ o.scaleUtilizationPercent = 85 ∧
    o.criticalUtilizationPercent = 95

theorem utilization_nonneg {value capacity : ℚ} (hv : 0 ≤ value) (hc : 0 < capacity) :
    0 ≤ utilization value capacity :=
  mul_nonneg (div_nonneg hv hc.le) (by norm_num)

theorem lt_of_not_critical (ho : o.DefaultThresholds) {percent : ℚ} {d : Option ℚ}
    (h : levelFor o percent d ≠ .critical) : percent < 95 := by
  by_contra hle
  refine h (if_pos (.inl ?_))
  rw [ho.2.2]
  exact not_lt.1 hle

theorem forecast_percent {name resource : String}
    (hf : forecast o name resource days samples = some f) (ho : o.DefaultThresholds) :
    0 ≤ f.projectedUtilizationPercent ∧
      (f.level ≠ .critical → f.projectedUtilizationPercent < 95) := by
  obtain ⟨latest, -, rfl⟩ := Option.map_eq_some_iff.1 hf
  exact ⟨utilization_nonneg (le_max_left _ _) latest.capacity_pos,
    fun hl => (le_max_right _ _).trans_lt (lt_of_not_critical ho hl)⟩

theorem number_le_of_rank_le (hg : 0 ≤ g.projectedUtilizationPercent)
    (hf : f.level ≠ .critical → f.projectedUtilizationPercent < 95)
    (hr : rank g ≤ rank f) : g.level.number ≤ f.level.number := by
  unfold rank at hr
  by_cases hc : f.level = .critical
  · rw [hc]
    cases g.level <;> norm_num [Level.number]
  · have hlt := hf hc
    cases hfl : f.level <;> cases hgl : g.level <;> simp only [hfl, hgl, Level.number] at hr ⊢ <;>
      linarith

end Urgency

section Covers

/-- What is claimed of the forecasts of what has been recorded. -/
structure Covers (o : Options) (days : ℚ) (h : List (Taken Samples Call)) (samples : Samples) :
    Prop where
  one : ∀ service resource, Recorded h service resource → ∃ f,
    forecast o service resource.text days samples = some f ∧
      (forecastAll o days samples).filter
        (fun g => g.service = service ∧ g.resource = resource.text) = [f]
  only : ∀ f ∈ forecastAll o days samples, ∃ service resource, Recorded h service resource ∧
    forecast o service resource.text days samples = some f
  own : ∀ service resource, Recorded h service resource → ∃ history,
    samples.get (key service resource.text) = some history ∧
      ∀ u ∈ history, u.service = service ∧ u.resource = resource
  ordered : o.DefaultThresholds →
    (forecastAll o days samples).Pairwise fun f g => g.level.number ≤ f.level.number

variable {days : ℚ}

theorem own_of_inv (hi : Inv h samples) (hr : Recorded h service resource) : ∃ history,
    samples.get (key service resource.text) = some history ∧
      ∀ u ∈ history, u.service = service ∧ u.resource = resource := by
  obtain ⟨history, hg⟩ := hi.kept _ _ hr
  exact ⟨history, hg, (hi.own _ _ _ hg).2.1⟩

theorem pairwise_level (ho : o.DefaultThresholds) :
    (forecastAll o days samples).Pairwise fun f g => g.level.number ≤ f.level.number := by
  have hpercent : ∀ f ∈ forecastAll o days samples, 0 ≤ f.projectedUtilizationPercent ∧
      (f.level ≠ .critical → f.projectedUtilizationPercent < 95) := by
    intro f hf
    obtain ⟨k, -, hk⟩ := mem_forecastAll.1 hf
    unfold forecastKey at hk
    split at hk
    · exact forecast_percent hk ho
    · exact absurd hk (Option.some_ne_none _).symm
  have hsorted : (forecastAll o days samples).Pairwise fun f g => rank g ≤ rank f :=
    @List.pairwise_insertionSort _ (fun a b : CapacityForecast => rank b ≤ rank a) _
      ⟨fun a b => le_total (rank b) (rank a)⟩ ⟨fun _ _ _ hab hbc => hbc.trans hab⟩ _
  refine hsorted.imp_of_mem fun {f g} hf hg hr => ?_
  exact number_le_of_rank_le (hpercent g hg).1 (hpercent f hf).2 hr

theorem not_covers (hrec : Recorded h service resource) (hs : '|' ∈ service.toList) :
    ¬ Covers o days h samples := by
  intro hc
  obtain ⟨f, hf, hone⟩ := hc.one service resource hrec
  have hmem : f ∈ forecastAll o days samples :=
    (List.mem_filter.1 (hone ▸ List.mem_singleton_self f)).1
  obtain ⟨k, -, hk⟩ := mem_forecastAll.1 hmem
  rw [← (forecast_names hf).1] at hs
  exact bar_not_mem_service hk hs

/-- The forecasts cover what has been recorded just when no service has the separator in its
name. -/
theorem covers_iff (hr : Run (planner o) h samples) : Covers o days h samples ↔
    ∀ service resource, Recorded h service resource → '|' ∉ service.toList := by
  have hi := inv_of_run hr
  constructor
  · exact fun hc service resource hrec hs => not_covers hrec hs hc
  · intro hbar
    have hkey : ∀ k ∈ samples.keys, ∃ service resource, Recorded h service resource ∧
        k = key service resource.text ∧
          forecastKey o days samples k = forecast o service resource.text days samples := by
      intro k hk
      obtain ⟨s, r, hrec, rfl⟩ := hi.keys k hk
      exact ⟨s, r, hrec, rfl, forecastKey_key (hbar s r hrec)⟩
    refine ⟨fun service resource hrec => ?_, fun f hf => ?_, fun s r => own_of_inv hi,
      pairwise_level⟩
    · obtain ⟨f, hf⟩ : ∃ f, forecast o service resource.text days samples = some f :=
        forecast_of_recorded hi hrec
      refine ⟨f, hf, ?_⟩
      have hfilter : (samples.keys.filterMap (forecastKey o days samples)).filter
          (fun g => g.service = service ∧ g.resource = resource.text) = [f] := by
        refine filter_filterMap_eq_singleton (a := key service resource.text) samples.nodup ?_
          ((forecastKey_key (hbar _ _ hrec)).trans hf) ?_ fun k hk g hg hp => ?_
        · by_contra hn
          obtain ⟨history, hget⟩ := hi.kept _ _ hrec
          rw [OrdMap.get_eq_none_iff.2 hn] at hget
          exact absurd hget (Option.some_ne_none _).symm
        · obtain ⟨hs, hr⟩ := forecast_names hf
          exact decide_eq_true ⟨hs, hr⟩
        · obtain ⟨s, r, -, rfl, hforecast⟩ := hkey k hk
          obtain ⟨hs, hr⟩ := forecast_names (hforecast.symm.trans hg)
          obtain ⟨hs', hr'⟩ := of_decide_eq_true hp
          rw [← hs, ← hr, hs', hr']
      have hperm : ((forecastAll o days samples).filter
          fun g => g.service = service ∧ g.resource = resource.text).Perm [f] :=
        hfilter ▸ (List.perm_insertionSort _ _).filter _
      exact List.perm_singleton.1 hperm
    · obtain ⟨k, hk, hf⟩ := mem_forecastAll.1 hf
      obtain ⟨s, r, hrec, -, hforecast⟩ := hkey k hk
      exact ⟨s, r, hrec, hforecast.symm.trans hf⟩

/-- A tenth of a processor is in use. -/
def sampleOf (service : String) : UsageSample := ⟨service, .cpu, 1, 10, 0⟩

theorem recorded_sampleOf {s s' : Samples} (hb : JsString.isBlank service = false) :
    Recorded [⟨s, ⟨0, sampleOf service⟩, s'⟩] service .cpu := by
  refine ⟨_, List.mem_cons_self, ⟨service, .cpu, 1, 10, 0, by norm_num, by norm_num⟩, ?_, rfl, rfl⟩
  unfold validateSample
  simp only [sampleOf, hb]
  rfl

theorem covers_iff_plain : ∃ h samples, Run (planner {}) h samples ∧ Recorded h "api" .cpu ∧
    Covers {} 30 h samples := by
  refine ⟨_, _, .next (a := ⟨0, sampleOf "api"⟩) (.start rfl) rfl,
    recorded_sampleOf (by decide),
    (covers_iff (.next (.start rfl) rfl)).2 fun service resource hrec => ?_⟩
  obtain ⟨t, ht, entry, hv, rfl, rfl⟩ := hrec
  obtain rfl := List.mem_singleton.1 ht
  obtain rfl := Except.ok.inj hv
  decide

/-- A service with the separator in its name has no forecast. -/
theorem forecasts_miss : ∃ h samples, Run (planner {}) h samples ∧ Recorded h "eu|api" .cpu ∧
    forecastAll {} 30 samples = [] ∧ ¬ Covers {} 30 h samples := by
  have hb : JsString.isBlank "eu|api" = false := by decide
  exact ⟨_, _, .next (a := ⟨0, sampleOf "eu|api"⟩) (.start rfl) rfl, recorded_sampleOf hb,
    by decide +kernel, not_covers (recorded_sampleOf hb) (by decide)⟩

end Covers

section Trend

/-- The samples, by day and value. -/
def points (history : List Usage) : List (ℚ × ℚ) :=
  history.map fun u => (u.timestamp / dayMs, u.value)

/-- The sample at another time. -/
def Usage.shift (c : ℚ) (u : Usage) : Usage := { u with timestamp := u.timestamp + c }

/-- The days that a history is counted from. -/
def origin (history : List Usage) : ℚ := (history.head?.map (·.timestamp)).getD 0 / dayMs

variable {history : List Usage} {latest : Usage}

theorem days_eq (history : List Usage) :
    days history = (LeastSquares.shift (-origin history) (points history)).map (·.1) := by
  unfold days LeastSquares.shift points
  rw [List.map_map, List.map_map]
  refine List.map_congr_left fun u _ => ?_
  change _ = u.timestamp / dayMs + -origin history
  rw [origin, sub_div, sub_eq_add_neg]

theorem values_eq (c : ℚ) (history : List Usage) :
    history.map (·.value) = (LeastSquares.shift c (points history)).map (·.2) := by
  unfold LeastSquares.shift points
  rw [List.map_map, List.map_map]
  rfl

theorem zip_map_fst_snd (pts : List (ℚ × ℚ)) : (pts.map (·.1)).zip (pts.map (·.2)) = pts := by
  rw [List.zip_map', List.map_id'']
  exact fun _ => rfl

theorem variance_eq (pts : List (ℚ × ℚ)) :
    variance (pts.map (·.1)) = LeastSquares.variance pts := by
  unfold variance mean LeastSquares.variance LeastSquares.meanX
  rw [List.map_map, List.length_map]
  rfl

theorem covariance_eq (pts : List (ℚ × ℚ)) :
    covariance (pts.map (·.1)) (pts.map (·.2)) = LeastSquares.covariance pts := by
  unfold covariance mean LeastSquares.covariance LeastSquares.meanX LeastSquares.meanY
  rw [zip_map_fst_snd, List.length_map, List.length_map]

theorem total_eq (pts : List (ℚ × ℚ)) : total (pts.map (·.2)) = LeastSquares.total pts := by
  unfold total mean LeastSquares.total LeastSquares.meanY
  rw [List.map_map, List.length_map]
  rfl

theorem residual_eq (pts : List (ℚ × ℚ)) :
    residual (LeastSquares.slope pts) (pts.map (·.1)) (pts.map (·.2)) =
      LeastSquares.residual (LeastSquares.intercept pts) (LeastSquares.slope pts) pts := by
  unfold residual mean LeastSquares.residual
  rw [zip_map_fst_snd, List.length_map, List.length_map]
  refine congrArg List.sum (List.map_congr_left fun p _ => ?_)
  rw [LeastSquares.intercept]
  unfold LeastSquares.meanX LeastSquares.meanY
  ring

/-- The slope that is computed. -/
def slopeOf (history : List Usage) : ℚ :=
  covariance (days history) (history.map (·.value)) / variance (days history)

theorem slopeOf_eq (hne : history ≠ []) :
    slopeOf history = LeastSquares.slope (points history) := by
  have hpts : points history ≠ [] := by simpa [points] using hne
  unfold slopeOf
  rw [values_eq (-origin history), days_eq, covariance_eq, variance_eq]
  exact LeastSquares.slope_shift hpts _

theorem variance_pos {u v : Usage} (hu : u ∈ history) (hv : v ∈ history)
    (hne : u.timestamp ≠ v.timestamp) : 0 < LeastSquares.variance (points history) := by
  refine LeastSquares.variance_pos (List.mem_map_of_mem hu) (List.mem_map_of_mem hv) fun he => ?_
  exact hne ((div_left_inj' (by norm_num [dayMs])).1 he)

/-- What is claimed of the trend of a history. -/
structure Fitted (history : List Usage) (forecastDays : ℚ) (f : CapacityForecast) : Prop where
  /-- One line minimises the squares, and its slope is the growth. -/
  least : ∃! line : ℚ × ℚ, LeastSquares.Minimises line.1 line.2 (points history)
  growth : ∀ a b, LeastSquares.Minimises a b (points history) → f.growthPerDay = b
  shifted : ∀ c, (calculateTrend (history.map (Usage.shift c))).slopePerDay = f.growthPerDay
  residual_nonneg : 0 ≤ residual (slopeOf history) (days history) (history.map (·.value))
  residual_le : residual (slopeOf history) (days history) (history.map (·.value)) ≤
    total (history.map (·.value))
  unclamped : 0 < total (history.map (·.value)) → f.confidence =
    1 - residual (slopeOf history) (days history) (history.map (·.value)) /
      total (history.map (·.value))
  certain : f.confidence = 1 ↔ ∃ a b, LeastSquares.OnLine a b (points history)
  projected : ∀ a b, LeastSquares.OnLine a b (points history) → ∀ latest ∈ history,
    (∀ u ∈ history, u.timestamp ≤ latest.timestamp) →
      f.projectedValue = max 0 (latest.value + b * forecastDays)

theorem points_shift (c : ℚ) (history : List Usage) :
    points (history.map (Usage.shift c)) = LeastSquares.shift (c / dayMs) (points history) := by
  unfold points LeastSquares.shift
  rw [List.map_map, List.map_map]
  refine List.map_congr_left fun u _ => ?_
  change ((u.timestamp + c) / dayMs, u.value) = (u.timestamp / dayMs + c / dayMs, u.value)
  rw [add_div]

theorem variance_days (hne : history ≠ []) :
    variance (days history) = LeastSquares.variance (points history) := by
  have hpts : points history ≠ [] := by simpa [points] using hne
  rw [days_eq, variance_eq, LeastSquares.variance_shift hpts]

theorem total_values (history : List Usage) :
    total (history.map (·.value)) = LeastSquares.total (points history) := by
  rw [← total_eq]
  unfold points
  rw [List.map_map]
  rfl

theorem residual_days (hne : history ≠ []) :
    residual (slopeOf history) (days history) (history.map (·.value)) =
      LeastSquares.residual (LeastSquares.intercept (points history))
        (LeastSquares.slope (points history)) (points history) := by
  have hpts : points history ≠ [] := by simpa [points] using hne
  have hslope : slopeOf history =
      LeastSquares.slope (LeastSquares.shift (-origin history) (points history)) := by
    rw [slopeOf_eq hne, LeastSquares.slope_shift hpts]
  rw [hslope, days_eq, values_eq (-origin history), residual_eq, LeastSquares.residual_shift,
    LeastSquares.slope_shift hpts]
  congr 1
  unfold LeastSquares.intercept
  rw [LeastSquares.slope_shift hpts, LeastSquares.meanX_shift hpts, LeastSquares.meanY_shift]
  ring

theorem calculateTrend_eq (hlen : 2 ≤ history.length)
    (hv : 0 < LeastSquares.variance (points history)) :
    calculateTrend history = ⟨slopeOf history,
      if total (history.map (·.value)) = 0 then 1
      else max 0 (min 1 (1 - residual (slopeOf history) (days history) (history.map (·.value)) /
        total (history.map (·.value))))⟩ := by
  have hne : history ≠ [] := List.ne_nil_of_length_pos (by omega)
  have hv' : variance (days history) ≠ 0 := variance_days hne ▸ hv.ne'
  unfold calculateTrend trendOf
  rw [if_neg (by omega), if_neg hv']
  rfl

theorem length_of_two {u v : Usage} (hu : u ∈ history) (hv : v ∈ history)
    (hne : u.timestamp ≠ v.timestamp) : 2 ≤ history.length := by
  rcases history with _ | ⟨a, _ | ⟨b, rest⟩⟩
  · exact absurd hu List.not_mem_nil
  · obtain rfl := List.mem_singleton.1 hu
    obtain rfl := List.mem_singleton.1 hv
    exact absurd rfl hne
  · exact Nat.le_add_left 2 rest.length

theorem confidence_eq (hne : history ≠ []) (hv : 0 < LeastSquares.variance (points history))
    (ht : 0 < total (history.map (·.value))) :
    max 0 (min 1 (1 - residual (slopeOf history) (days history) (history.map (·.value)) /
      total (history.map (·.value)))) =
    1 - residual (slopeOf history) (days history) (history.map (·.value)) /
      total (history.map (·.value)) := by
  have hpts : points history ≠ [] := by simpa [points] using hne
  have hnonneg : 0 ≤ residual (slopeOf history) (days history) (history.map (·.value)) := by
    rw [residual_days hne]
    exact LeastSquares.residual_nonneg _ _ _
  have hle : residual (slopeOf history) (days history) (history.map (·.value)) ≤
      total (history.map (·.value)) := by
    rw [residual_days hne, total_values]
    exact LeastSquares.residual_le_total hpts hv
  have hquot : residual (slopeOf history) (days history) (history.map (·.value)) /
      total (history.map (·.value)) ≤ 1 := (div_le_one ht).2 hle
  have hquot' := div_nonneg hnonneg ht.le
  rw [min_eq_right (by linarith), max_eq_right (by linarith)]

theorem last_value {a b : ℚ} {last : Usage} (hlast : history.getLast? = some last)
    (hs : history.Pairwise (·.timestamp ≤ ·.timestamp))
    (hl : LeastSquares.OnLine a b (points history)) (hm : latest ∈ history)
    (hmax : ∀ u ∈ history, u.timestamp ≤ latest.timestamp) : last.value = latest.value := by
  have hmem : last ∈ history := List.mem_of_getLast? hlast
  have hle : latest.timestamp ≤ last.timestamp := by
    obtain ⟨init, rfl⟩ := List.getLast?_eq_some_iff.1 hlast
    rcases List.mem_append.1 hm with hm | hm
    · exact (List.pairwise_append.1 hs).2.2 _ hm _ (List.mem_singleton_self last)
    · rw [List.mem_singleton.1 hm]
  have hline : ∀ u ∈ history, u.value = a + b * (u.timestamp / dayMs) := fun u hu =>
    hl _ (List.mem_map_of_mem hu)
  rw [hline _ hmem, hline _ hm, le_antisymm (hmax _ hmem) hle]

/-- The trend of what is kept is that of the least squares, when there are enough samples, of two
times. -/
theorem trend_fitted (hr : Run (planner o) h samples)
    (hget : samples.get (key service resource.text) = some history)
    (hlen : o.minSamplesForTrend ≤ history.length)
    (htwo : ∃ u ∈ history, ∃ v ∈ history, u.timestamp ≠ v.timestamp) (forecastDays : ℚ) :
    ∃ f, forecast o service resource.text forecastDays samples = some f ∧
      Fitted history forecastDays f := by
  obtain ⟨u, hu, v, hv, hne⟩ := htwo
  obtain ⟨hnil, -, hsorted⟩ := (inv_of_run hr).own _ _ _ hget
  have hpts : points history ≠ [] := by simpa [points] using hnil
  have hvar := variance_pos hu hv hne
  have htrend := calculateTrend_eq (length_of_two hu hv hne) hvar
  obtain ⟨last, hlast⟩ := Option.isSome_iff_exists.1 (List.getLast?_isSome.2 hnil)
  have hf : forecast o service resource.text forecastDays samples =
      some (forecastOf o service resource.text forecastDays history last) := by
    unfold forecast
    rw [hget]
    exact congrArg (Option.map (forecastOf o service resource.text forecastDays history)) hlast
  have hgrowth : (forecastOf o service resource.text forecastDays history last).growthPerDay =
      LeastSquares.slope (points history) := by
    rw [← slopeOf_eq hnil]
    change (if _ then (calculateTrend history).slopePerDay else 0) = _
    rw [if_pos hlen, htrend]
  have hconfidence : (forecastOf o service resource.text forecastDays history last).confidence =
      (calculateTrend history).confidence := if_pos hlen
  have hunclamped : 0 < total (history.map (·.value)) → (calculateTrend history).confidence =
      1 - residual (slopeOf history) (days history) (history.map (·.value)) /
        total (history.map (·.value)) := by
    intro ht
    rw [htrend]
    exact (if_neg ht.ne').trans (confidence_eq hnil hvar ht)
  refine ⟨_, hf, ?_⟩
  constructor
  case least =>
    refine ⟨(_, _), LeastSquares.minimises hpts hvar, fun line hline => ?_⟩
    obtain ⟨ha, hb⟩ := LeastSquares.eq_of_minimises hpts hvar hline
    exact Prod.ext ha hb
  case growth =>
    intro a b hm
    rw [hgrowth, (LeastSquares.eq_of_minimises hpts hvar hm).2]
  case shifted =>
    intro c
    have hu' := List.mem_map_of_mem (f := Usage.shift c) hu
    have hv' := List.mem_map_of_mem (f := Usage.shift c) hv
    have hne' : (u.shift c).timestamp ≠ (v.shift c).timestamp := fun he =>
      hne (add_right_cancel he)
    rw [calculateTrend_eq (length_of_two hu' hv' hne') (variance_pos hu' hv' hne'), hgrowth]
    change slopeOf _ = _
    rw [slopeOf_eq (by simpa using hnil), points_shift, LeastSquares.slope_shift hpts]
  case residual_nonneg =>
    rw [residual_days hnil]
    exact LeastSquares.residual_nonneg _ _ _
  case residual_le =>
    rw [residual_days hnil, total_values]
    exact LeastSquares.residual_le_total hpts hvar
  case unclamped => exact fun ht => hconfidence.trans (hunclamped ht)
  case certain =>
    rw [hconfidence, ← LeastSquares.residual_eq_zero_iff_collinear hpts hvar]
    by_cases ht : total (history.map (·.value)) = 0
    · have hle := LeastSquares.residual_le_total hpts hvar
      rw [← total_values, ht] at hle
      rw [htrend]
      exact iff_of_true (if_pos ht) (le_antisymm hle (LeastSquares.residual_nonneg _ _ _))
    · have hpos : 0 < total (history.map (·.value)) := by
        rw [total_values] at ht ⊢
        exact lt_of_le_of_ne (LeastSquares.total_nonneg _) (Ne.symm ht)
      rw [hunclamped hpos, residual_days hnil, sub_eq_self, div_eq_zero_iff]
      exact or_iff_left ht
  case projected =>
    intro a b hl latest hm hmax
    have hvalue : (forecastOf o service resource.text forecastDays history last).projectedValue =
        max 0 (last.value + (forecastOf o service resource.text forecastDays history
          last).growthPerDay * forecastDays) := rfl
    rw [hvalue, hgrowth, LeastSquares.slope_of_onLine hpts hvar.ne' hl,
      last_value hlast hsorted hl hm hmax]

theorem trend_fitted_growing : ∃ h samples history, Run (planner {}) h samples ∧
    samples.get (key "api" "cpu") = some history ∧
      ∃ f, forecast {} "api" "cpu" 30 samples = some f ∧ Fitted history 30 f := by
  obtain ⟨h, samples, hr, ht⟩ := Sys.exists_run (S := planner {}) (s := ∅) rfl
    [⟨0, ⟨"api", .cpu, 150, 1000, 86400000⟩⟩, ⟨0, ⟨"api", .cpu, 100, 1000, 0⟩⟩,
      ⟨0, ⟨"api", .cpu, 200, 1000, 172800000⟩⟩]
    (p := fun x => (x.2.get (key "api" "cpu")).any fun history : List Usage =>
      decide ((3 : ℚ) ≤ history.length ∧
        ∃ u ∈ history, ∃ v ∈ history, u.timestamp ≠ v.timestamp)) (by decide +kernel)
  obtain ⟨history, hget, hp⟩ := (Option.any_eq_true _ _).1 ht
  obtain ⟨hlen, htwo⟩ := of_decide_eq_true hp
  have hcpu : samples.get (key "api" CapacityResource.cpu.text) = some history := hget
  exact ⟨h, samples, history, hr, hget, trend_fitted hr hcpu hlen htwo 30⟩

end Trend

end Capacity

end VeriNode
