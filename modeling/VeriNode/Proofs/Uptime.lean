import VeriNode.Database.Uptime

/-!
# When the dashboard agrees with the heartbeats

The dashboard averages the hourly averages and adds the hourly counts. The counts are right for
every window of whole hours; an average is right exactly if hours with more heartbeats have no
higher and no lower averages on balance. The window of the raw query ends with the end time and
that of the hourly query an hour after it, so the two select the same heartbeats exactly if there
is none in between (`metrics_agree_iff`).
-/

namespace VeriNode

namespace Uptime

open Groups

section Law

/-- The heartbeats of a node in the hours of the window. -/
def inHours (p : Params) (nodeId : String) (table : List Heartbeat) : List Heartbeat :=
  table.filter fun h =>
    p.startTime ≤ timeBucket h.time && timeBucket h.time ≤ p.endTime && h.nodeId = nodeId

/-- The row has the counts and the averages of the heartbeats. -/
structure Measures (raw : List Heartbeat) (r : UptimeMetrics) : Prop where
  heartbeats : r.heartbeatCount = raw.length
  up : r.upCount = countStatus "up" raw
  degraded : r.degradedCount = countStatus "degraded" raw
  down : r.downCount = countStatus "down" raw
  latency : r.avgLatencyMs = avg (raw.map (·.latencyMs))
  uptime : r.avgUptimePct = avg (raw.map (·.uptimePct))

/-- Each node with heartbeats in the hours of the window has one row, which measures them; and the
raw query has the heartbeats whose hours the hourly query has. -/
structure Agrees (p : Params) (table : List Heartbeat) : Prop where
  metrics : ∀ x, selected p x = true → inHours p x table ≠ [] →
    ∃ r, (queryDashboardMetrics p table).filter (·.nodeId = x) = [r]
      ∧ Measures (inHours p x table) r
  others : ∀ r ∈ queryDashboardMetrics p table,
    selected p r.nodeId = true ∧ inHours p r.nodeId table ≠ []
  summarised : ∀ h ∈ table, h ∈ queryRawHeartbeats p table
    ↔ ∃ r ∈ queryHourlyAggregates p table, r.bucket = timeBucket h.time ∧ r.nodeId = h.nodeId

/-- The hours of the node with more heartbeats have no higher and no lower averages on balance. -/
def Balanced (f : Heartbeat → ℚ) (raw : List Heartbeat) : Prop :=
  covariance (keys (timeBucket ·.time) raw)
    (fun b => ((group (timeBucket ·.time) raw b).length : ℚ))
    (fun b => avg ((group (timeBucket ·.time) raw b).map f)) = 0

/-- The averages of each node are balanced, and no heartbeat of the nodes asked for is in the hour
after the window. -/
structure Even (p : Params) (table : List Heartbeat) : Prop where
  latency : ∀ x, selected p x = true → Balanced (·.latencyMs) (inHours p x table)
  uptime : ∀ x, selected p x = true → Balanced (·.uptimePct) (inHours p x table)
  last : ∀ h ∈ table, selected p h.nodeId = true → p.startTime ≤ h.time →
    ¬ (p.endTime < h.time ∧ h.time < p.endTime + hour)

end Law

section Rows

variable {p : Params} {table : List Heartbeat} {x : String}

def viewRows (p : Params) (x : String) (table : List Heartbeat) : List HourlyAggregateRow :=
  ((uptimeHourlyAgg table).filter (inWindow p)).filter (·.nodeId = x)

/-- The key of a row for the node in the window. -/
def windowKey (p : Params) (x : String) (k : ℤ × String) : Bool :=
  p.startTime ≤ k.1 && k.1 ≤ p.endTime && k.2 = x

theorem windowKey_iff {k : ℤ × String} :
    windowKey p x k = true ↔ (p.startTime ≤ k.1 ∧ k.1 ≤ p.endTime) ∧ k.2 = x := by
  simp [windowKey]

theorem viewRows_eq (hx : selected p x = true) :
    viewRows p x table = ((keys bucketNode table).filter (windowKey p x)).map fun k =>
      hourlyRow k (group bucketNode table k) := by
  rw [viewRows, List.filter_filter, uptimeHourlyAgg, groupBy, List.filter_map]
  refine congrArg _ (List.filter_congr fun k _ => ?_)
  by_cases hk : k.2 = x
  · simp [inWindow, windowKey, hourlyRow, hk, hx]
  · simp [windowKey, hourlyRow, hk]

theorem mem_inHours {h : Heartbeat} : h ∈ inHours p x table
    ↔ h ∈ table ∧ windowKey p x (bucketNode h) = true := by
  rw [windowKey_iff]
  simp [inHours, bucketNode]

theorem keys_perm : ((keys bucketNode table).filter (windowKey p x)).Perm
    ((keys (timeBucket ·.time) (inHours p x table)).map fun b => (b, x)) := by
  have hinj : Function.Injective fun b : ℤ => (b, x) := fun b c h => (Prod.mk.inj h).1
  refine (List.perm_ext_iff_of_nodup (nodup_keys.filter _) (nodup_keys.map hinj)).2 fun k => ?_
  simp only [List.mem_filter, mem_keys, List.mem_map, mem_inHours]
  constructor
  · rintro ⟨⟨h, hm, rfl⟩, hw⟩
    have hn : h.nodeId = x := (windowKey_iff.1 hw).2
    exact ⟨_, ⟨h, ⟨hm, hw⟩, rfl⟩, by rw [← hn]; rfl⟩
  · rintro ⟨_, ⟨h, ⟨hm, hw⟩, rfl⟩, rfl⟩
    have hn : h.nodeId = x := (windowKey_iff.1 hw).2
    have he : bucketNode h = (timeBucket h.time, x) := by rw [← hn]; rfl
    exact ⟨⟨h, hm, he⟩, he ▸ hw⟩

theorem group_eq {b : ℤ} (hb : b ∈ keys (timeBucket ·.time) (inHours p x table)) :
    group bucketNode table (b, x) = group (timeBucket ·.time) (inHours p x table) b := by
  obtain ⟨h₀, hm, rfl⟩ := mem_keys.1 hb
  obtain ⟨⟨hs, he⟩, -⟩ := windowKey_iff.1 (mem_inHours.1 hm).2
  rw [group, group, inHours, List.filter_filter]
  refine List.filter_congr fun h _ => ?_
  rw [Bool.eq_iff_iff]
  simp only [bucketNode, Prod.mk.injEq, Bool.and_eq_true, decide_eq_true_eq]
  constructor
  · rintro ⟨hb, hn⟩
    exact ⟨hb, ⟨hb ▸ hs, hb ▸ he⟩, hn⟩
  · rintro ⟨hb, -, hn⟩
    exact ⟨hb, hn⟩

theorem viewRows_perm (hx : selected p x = true) :
    (viewRows p x table).Perm ((keys (timeBucket ·.time) (inHours p x table)).map fun b =>
      hourlyRow (b, x) (group (timeBucket ·.time) (inHours p x table) b)) := by
  rw [viewRows_eq hx]
  refine (keys_perm.map _).trans (List.Perm.of_eq ?_)
  rw [List.map_map]
  refine List.map_congr_left fun b hb => ?_
  rw [Function.comp_apply, group_eq hb]

end Rows

section Metrics

variable {p : Params} {table : List Heartbeat} {x : String}

theorem viewRows_eq_nil (hx : selected p x = true) :
    viewRows p x table = [] ↔ inHours p x table = [] := by
  rw [← List.length_eq_zero_iff, (viewRows_perm hx).length_eq, List.length_map,
    List.length_eq_zero_iff, keys_eq_nil]

theorem filter_eq_of_nodup {l : List String} (hn : l.Nodup) (hx : x ∈ l) :
    l.filter (· = x) = [x] := by
  refine List.perm_singleton.1 ((List.perm_ext_iff_of_nodup (hn.filter _)
    (List.nodup_singleton x)).2 fun y => ?_)
  simp only [List.mem_filter, decide_eq_true_eq, List.mem_singleton]
  constructor
  · exact fun h => h.2
  · rintro rfl
    exact ⟨hx, rfl⟩

theorem dashboard_row (hx : selected p x = true) (hne : inHours p x table ≠ []) :
    (queryDashboardMetrics p table).filter (·.nodeId = x)
      = [metricsRow x (viewRows p x table)] := by
  set w := (uptimeHourlyAgg table).filter (inWindow p) with hw
  have hk : x ∈ keys (·.nodeId) w := by
    obtain ⟨r, hr⟩ := List.exists_mem_of_ne_nil _ fun h => hne ((viewRows_eq_nil hx).1 h)
    obtain ⟨hr, hn⟩ := List.mem_filter.1 hr
    exact mem_keys.2 ⟨r, hr, by simpa using hn⟩
  have hg : (groupBy (·.nodeId) metricsRow w).filter (·.nodeId = x)
      = [metricsRow x (viewRows p x table)] := by
    have hf := filter_eq_of_nodup nodup_keys hk
    rw [groupBy, List.filter_map]
    have hc : ((fun r : UptimeMetrics => decide (r.nodeId = x))
        ∘ fun k => metricsRow k (group (·.nodeId) w k)) = fun k => decide (k = x) := rfl
    rw [hc, hf]
    rfl
  refine List.perm_singleton.1 (List.Perm.trans ?_ (List.Perm.of_eq hg))
  exact (List.perm_insertionSort _ _).filter _

theorem mem_dashboard {r : UptimeMetrics} (hr : r ∈ queryDashboardMetrics p table) :
    selected p r.nodeId = true ∧ inHours p r.nodeId table ≠ [] := by
  rw [queryDashboardMetrics, List.mem_insertionSort, groupBy, List.mem_map] at hr
  obtain ⟨k, hk, rfl⟩ := hr
  obtain ⟨v, hv, rfl⟩ := mem_keys.1 hk
  obtain ⟨hv, hin⟩ := List.mem_filter.1 hv
  have hs : selected p v.nodeId = true := by
    simp only [inWindow, Bool.and_eq_true] at hin
    exact hin.2
  refine ⟨hs, fun h => ?_⟩
  have hmem : v ∈ viewRows p v.nodeId table :=
    List.mem_filter.2 ⟨List.mem_filter.2 ⟨hv, hin⟩, by simp⟩
  exact List.ne_nil_of_mem hmem ((viewRows_eq_nil hs).2 h)

theorem avg_perm {l l' : List ℚ} (h : l.Perm l') : avg l = avg l' := by
  rw [avg, avg, h.sum_eq, h.length_eq]

theorem sum_viewRows (hx : selected p x = true) {f : HourlyAggregateRow → ℕ}
    {g : List Heartbeat → ℕ} (hf : ∀ k rows, f (hourlyRow k rows) = g rows)
    (hg : ∀ l : List Heartbeat, ((keys (timeBucket ·.time) l).map fun b =>
      g (group (timeBucket ·.time) l b)).sum = g l) :
    ((viewRows p x table).map f).sum = g (inHours p x table) := by
  rw [((viewRows_perm hx).map f).sum_eq, List.map_map, ← hg]
  exact congrArg List.sum (List.map_congr_left fun b _ => hf _ _)

theorem avg_viewRows (hx : selected p x = true) (hne : inHours p x table ≠ [])
    {f : HourlyAggregateRow → ℚ} {g : Heartbeat → ℚ}
    (hf : ∀ k rows, f (hourlyRow k rows) = avg (rows.map g)) :
    avg ((viewRows p x table).map f) = avg ((inHours p x table).map g)
      ↔ Balanced g (inHours p x table) := by
  rw [avg_perm ((viewRows_perm hx).map f), List.map_map, Balanced, ← avg_avg_iff hne]
  simp only [Function.comp_def, hf]

theorem measures_iff (hx : selected p x = true) (hne : inHours p x table ≠ []) :
    Measures (inHours p x table) (metricsRow x (viewRows p x table))
      ↔ Balanced (·.latencyMs) (inHours p x table) ∧ Balanced (·.uptimePct) (inHours p x table) := by
  rw [← avg_viewRows (f := (·.avgLatencyMs)) hx hne fun _ _ => rfl,
    ← avg_viewRows (f := (·.avgUptimePct)) hx hne fun _ _ => rfl]
  constructor
  · exact fun h => ⟨h.latency, h.uptime⟩
  · rintro ⟨hl, hu⟩
    exact ⟨sum_viewRows hx (fun _ _ => rfl) (sum_lengths _),
      sum_viewRows hx (fun _ _ => rfl) (sum_counts _ _),
      sum_viewRows hx (fun _ _ => rfl) (sum_counts _ _),
      sum_viewRows hx (fun _ _ => rfl) (sum_counts _ _), hl, hu⟩

end Metrics

section Windows

variable {p : Params} {table : List Heartbeat}

theorem hour_pos : 0 < hour := by decide

theorem start_le_bucket {start t : ℤ} (hs : hour ∣ start) :
    start ≤ timeBucket t ↔ start ≤ t := by
  obtain ⟨k, rfl⟩ := hs
  unfold timeBucket
  rw [mul_comm hour k]
  rw [Int.mul_le_mul_right hour_pos, Int.le_ediv_iff_mul_le hour_pos]

theorem bucket_le_end {stop t : ℤ} (hs : hour ∣ stop) :
    timeBucket t ≤ stop ↔ t < stop + hour := by
  obtain ⟨k, rfl⟩ := hs
  unfold timeBucket
  have he : k * hour + hour = (k + 1) * hour := by ring
  rw [mul_comm hour k, Int.mul_le_mul_right hour_pos, he, ← Int.ediv_lt_iff_lt_mul hour_pos]
  omega

theorem page_eq {α : Type*} {l : List α} (h0 : p.offset = 0) (hl : l.length ≤ p.limit) :
    page p l = l := by
  rw [page, h0, List.drop_zero, List.take_of_length_le hl]

theorem mem_queryRawHeartbeats {h : Heartbeat} (h0 : p.offset = 0)
    (hl : table.length ≤ p.limit) (hm : h ∈ table) : h ∈ queryRawHeartbeats p table
      ↔ (p.startTime ≤ h.time ∧ h.time ≤ p.endTime) ∧ selected p h.nodeId = true := by
  rw [queryRawHeartbeats, page_eq h0, List.mem_insertionSort, List.mem_filter]
  · simp [hm]
  · rw [List.length_insertionSort]
    exact (List.length_filter_le _ _).trans hl

theorem mem_queryHourlyAggregates {h : Heartbeat} (h0 : p.offset = 0)
    (hl : table.length ≤ p.limit) (hm : h ∈ table) :
    (∃ r ∈ queryHourlyAggregates p table, r.bucket = timeBucket h.time ∧ r.nodeId = h.nodeId)
      ↔ (p.startTime ≤ timeBucket h.time ∧ timeBucket h.time ≤ p.endTime)
        ∧ selected p h.nodeId = true := by
  have hlen : (uptimeHourlyAgg table).length ≤ table.length := by
    rw [uptimeHourlyAgg, groupBy, List.length_map, keys]
    exact (List.dedup_sublist _).length_le.trans (by rw [List.length_map])
  rw [queryHourlyAggregates, page_eq h0]
  · simp only [List.mem_insertionSort, List.mem_filter, inWindow, Bool.and_eq_true,
      decide_eq_true_eq]
    constructor
    · rintro ⟨r, ⟨-, hw, hs⟩, hb, hn⟩
      rw [hb] at hw
      rw [hn] at hs
      exact ⟨hw, hs⟩
    · rintro ⟨hw, hs⟩
      refine ⟨hourlyRow (bucketNode h) (group bucketNode table (bucketNode h)), ⟨?_, hw, hs⟩,
        rfl, rfl⟩
      exact List.mem_map.2 ⟨_, key_mem_keys hm, rfl⟩
  · rw [List.length_insertionSort]
    exact (List.length_filter_le _ _).trans (hlen.trans hl)

end Windows

section Claim

/-- The dashboard agrees with the raw heartbeats exactly if the hours of each node are balanced and
no heartbeat is in the hour after the window. -/
theorem metrics_agree_iff (p : Params) (table : List Heartbeat) (hs : hour ∣ p.startTime)
    (he : hour ∣ p.endTime) (h0 : p.offset = 0) (hl : table.length ≤ p.limit) :
    Agrees p table ↔ Even p table := by
  have hlast : (∀ h ∈ table, h ∈ queryRawHeartbeats p table
      ↔ ∃ r ∈ queryHourlyAggregates p table, r.bucket = timeBucket h.time ∧ r.nodeId = h.nodeId)
      ↔ ∀ h ∈ table, selected p h.nodeId = true → p.startTime ≤ h.time →
        ¬ (p.endTime < h.time ∧ h.time < p.endTime + hour) := by
    refine forall₂_congr fun h hm => ?_
    rw [mem_queryRawHeartbeats h0 hl hm, mem_queryHourlyAggregates h0 hl hm, start_le_bucket hs,
      bucket_le_end he]
    have hpos := hour_pos
    by_cases hsel : selected p h.nodeId = true
    · simp only [hsel, and_true, true_implies]
      omega
    · simp [hsel]
  have hbal : (∀ x, selected p x = true → inHours p x table ≠ [] →
      ∃ r, (queryDashboardMetrics p table).filter (·.nodeId = x) = [r]
        ∧ Measures (inHours p x table) r)
      ↔ ∀ x, selected p x = true → Balanced (·.latencyMs) (inHours p x table)
        ∧ Balanced (·.uptimePct) (inHours p x table) := by
    refine forall₂_congr fun x hx => ?_
    by_cases hne : inHours p x table = []
    · simp [hne, Balanced, keys, covariance]
    · rw [← measures_iff hx hne, dashboard_row hx hne]
      constructor
      · intro h
        obtain ⟨r, hr, hm⟩ := h hne
        rw [List.singleton_inj] at hr
        exact hr ▸ hm
      · exact fun h _ => ⟨_, rfl, h⟩
  constructor
  · intro h
    exact ⟨fun x hx => (hbal.1 h.metrics x hx).1, fun x hx => (hbal.1 h.metrics x hx).2,
      hlast.1 h.summarised⟩
  · intro h
    exact ⟨hbal.2 fun x hx => ⟨h.latency x hx, h.uptime x hx⟩, fun _ hr => mem_dashboard hr,
      hlast.2 h.last⟩

/-- From midnight to one o'clock and the hour after. -/
def twoHours : Params := { startTime := 0, endTime := hour }

/-- Both hours of the first node have two heartbeats; the second node has one. -/
def evenTable : List Heartbeat :=
  [⟨0, "n1", none, 10, "up", 100, none, none⟩, ⟨1, "n1", none, 30, "down", 90, none, none⟩,
    ⟨hour, "n1", none, 70, "degraded", 95, none, none⟩, ⟨hour, "n1", none, 90, "up", 95, none, none⟩,
    ⟨5, "n2", none, 40, "up", 100, none, none⟩]

theorem metrics_agree_even : Agrees twoHours evenTable := by
  refine (metrics_agree_iff twoHours evenTable ⟨0, by decide⟩ ⟨1, by decide⟩ rfl (by decide)).2 ?_
  have hnode : ∀ x, x = "n1" ∨ x = "n2" ∨ inHours twoHours x evenTable = [] := by
    intro x
    by_cases h1 : x = "n1"
    · exact .inl h1
    by_cases h2 : x = "n2"
    · exact .inr (.inl h2)
    refine .inr (.inr (List.filter_eq_nil_iff.2 fun h hm => ?_))
    simp only [evenTable, List.mem_cons, List.not_mem_nil, or_false] at hm
    rcases hm with rfl | rfl | rfl | rfl | rfl <;> simp [Ne.symm h1, Ne.symm h2]
  refine ⟨fun x _ => ?_, fun x _ => ?_, by decide⟩
  · rcases hnode x with rfl | rfl | h
    · unfold Balanced
      decide +kernel
    · unfold Balanced
      decide +kernel
    · simp [h, Balanced, keys, covariance]
  · rcases hnode x with rfl | rfl | h
    · unfold Balanced
      decide +kernel
    · unfold Balanced
      decide +kernel
    · simp [h, Balanced, keys, covariance]

/-- One slow heartbeat in the first hour and two fast ones in the second. -/
def unevenTable : List Heartbeat :=
  [⟨0, "n1", none, 100, "up", 100, none, none⟩, ⟨hour, "n1", none, 10, "up", 100, none, none⟩,
    ⟨hour + 1, "n1", none, 10, "up", 100, none, none⟩]

/-- The dashboard has an average latency of 55 where it is 40; and the last heartbeat is summarised
by the hourly query, and is not one of the raw query. -/
theorem metrics_disagree :
    (queryDashboardMetrics twoHours unevenTable).map (·.avgLatencyMs) = [55]
      ∧ avg ((inHours twoHours "n1" unevenTable).map (·.latencyMs)) = 40
      ∧ ¬ Agrees twoHours unevenTable := by
  have hd : (queryDashboardMetrics twoHours unevenTable).map (·.avgLatencyMs) = [55] := by
    decide +kernel
  have ha : avg ((inHours twoHours "n1" unevenTable).map (·.latencyMs)) = 40 := by
    decide +kernel
  refine ⟨hd, ha, fun h => ?_⟩
  obtain ⟨r, hr, hm⟩ := h.metrics "n1" rfl (by decide)
  have hmem : r ∈ queryDashboardMetrics twoHours unevenTable :=
    (List.mem_filter.1 (hr ▸ List.mem_singleton_self r)).1
  have h55 : r.avgLatencyMs = 55 := by
    have h := List.mem_map_of_mem (f := (·.avgLatencyMs)) hmem
    rw [hd] at h
    exact List.mem_singleton.1 h
  rw [hm.latency, ha] at h55
  exact absurd h55 (by norm_num)

end Claim

end Uptime

end VeriNode
