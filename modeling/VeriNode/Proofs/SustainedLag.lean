import VeriNode.Proofs.AutoScaler
import VeriNode.Queue.KafkaConsumerMonitor

/-!
# Lag that stays

A monitor that checks its groups again and again, and the running auto-scaler that listens to it
(`checks`). A change is told once: a check that sees the lag and the status of the one before tells
the listeners nothing, so that a lag that stays above the threshold scales up as often as its status
changes, and then no more. The count climbs at every check just when each check is told, or there is
nothing to climb (`climbed`).
-/

namespace VeriNode

namespace KafkaAutoScaler

open KafkaConsumerMonitor (Summaries Answer Change ConsumerGroupMetrics summarize changed
  checkAllGroups)

section Checks

/-- The monitor's summaries, the auto-scaler, and how many checks there have been. -/
structure Monitored where
  summaries : Summaries
  scaler : World
  checks : ℕ := 0

/-- A call of `checkAllGroups`, so long after the one before, and what is answered of each group. -/
structure Check where
  elapsed : ℕ
  groups : OrdMap String (Option Answer)

/-- The evaluations of what the listeners are told, by a scaler that has so many consumers first
and always succeeds. -/
def hear (o : Config) (initial : String → ℤ) (w : World) (change : Change) : World :=
  evaluateAlone o change.1.groupId (.fin change.1.totalLag)
    ⟨some (initial change.1.groupId), true⟩ w

variable (m : KafkaConsumerMonitor.Config) (o : Config) (initial : String → ℤ)

/-- The auto-scaler when the check begins. -/
def Monitored.ahead (s : Monitored) (a : Check) : World :=
  { s.scaler with clock := s.scaler.clock + a.elapsed }

/-- Checks that are the cooldown apart, each evaluation over before the next of them. -/
def checks : Sys Monitored Check where
  init s := ∃ clock summaries,
    s = { summaries := summaries, scaler := { clock := clock, isRunning := true, listeners := 1 } }
  step s a :=
    if s.checks = 0 || !(JsNumber.ofNat a.elapsed).lt o.cooldownPeriodMs then
      let w := s.ahead a
      let (_, summaries, changes) := checkAllGroups m w.clock a.groups.entries s.summaries
      some ⟨summaries, changes.foldl (hear o initial) w, s.checks + 1⟩
    else none

/-- How many consumers a group has. -/
def Monitored.consumers (s : Monitored) (groupId : String) : ℤ :=
  (s.scaler.currentConsumerCounts.get groupId).getD (initial groupId)

/-- What an auto-scaler knows of a group is the same. -/
structure Same (groupId : String) (w w' : World) : Prop where
  clock : w'.clock = w.clock
  isRunning : w'.isRunning = w.isRunning
  count : w'.currentConsumerCounts.get groupId = w.currentConsumerCounts.get groupId
  last : w'.lastScaleTimes.get groupId = w.lastScaleTimes.get groupId
  downs : w'.consecutiveScaleDowns.get groupId = w.consecutiveScaleDowns.get groupId

variable {m o initial} {w w' w'' : World} {groupId : String} {t : Evaluation} {c : ℤ}

theorem Same.refl (groupId : String) (w : World) : Same groupId w w := ⟨rfl, rfl, rfl, rfl, rfl⟩

theorem Same.trans (h : Same groupId w w') (h' : Same groupId w' w'') : Same groupId w w'' :=
  ⟨h'.clock.trans h.clock, h'.isRunning.trans h.isRunning, h'.count.trans h.count,
    h'.last.trans h.last, h'.downs.trans h.downs⟩

theorem Same.wanted (h : Same t.groupId w w') : wanted o t c w' = wanted o t c w := by
  unfold KafkaAutoScaler.wanted held consecutiveDown
  rw [h.clock, h.last, h.downs]

theorem same_recount (h : t.groupId ≠ groupId) : Same groupId w (recount o t c w) := by
  unfold recount
  split
  · exact .refl _ _
  · split
    · exact .refl _ _
    · exact ⟨rfl, rfl, rfl, rfl, OrdMap.get_set_of_ne _ _ h.symm⟩

theorem same_scaled {event : ScaleEvent} (h : event.groupId ≠ groupId) :
    Same groupId w (w.scaled event) :=
  ⟨rfl, rfl, OrdMap.get_set_of_ne _ _ h.symm, OrdMap.get_set_of_ne _ _ h.symm, rfl⟩

theorem same_decided {scales : Bool} (h : t.groupId ≠ groupId) :
    Same groupId w (decided o t c scales w) := by
  unfold decided
  split
  · exact same_recount h
  · rename_i event he
    obtain ⟨-, direction, -, -, rfl⟩ := of_wanted he
    have hr := same_recount (o := o) (c := c) (w := w) h
    have hreq : ∀ requests, Same groupId w { recount o t c w with requests := requests } :=
      fun _ => ⟨hr.clock, hr.isRunning, hr.count, hr.last, hr.downs⟩
    cases scales with
    | false => exact hreq _
    | true => exact (hreq _).trans (same_scaled h)

theorem same_counted {r : Outcome} {g : String} (h : g ≠ groupId) :
    Same groupId w (counted g r w) := by
  unfold counted
  split
  · exact ⟨rfl, rfl, OrdMap.get_set_of_ne _ _ h.symm, rfl, rfl⟩
  · exact .refl _ _

theorem same_hear {change : Change} (h : change.1.groupId ≠ groupId) (hrun : w.isRunning = true) :
    Same groupId w (hear o initial w change) := by
  unfold hear
  rw [evaluateAlone_eq _ _ hrun]
  exact (same_counted h).trans (same_decided h)

theorem same_foldl_hear (o : Config) (initial : String → ℤ) : ∀ {changes : List Change} {w : World},
    (∀ change ∈ changes, change.1.groupId ≠ groupId) → w.isRunning = true →
    Same groupId w (changes.foldl (hear o initial) w)
  | [], w, _, _ => .refl _ _
  | change :: changes, w, h, hrun => by
    have hs : Same groupId w (hear o initial w change) :=
      same_hear (h change List.mem_cons_self) hrun
    refine hs.trans (same_foldl_hear o initial (fun d hd => ?_) (hs.isRunning.trans hrun))
    exact h d (List.mem_cons_of_mem _ hd)

theorem isRunning_hear (o : Config) (initial : String → ℤ) (change : Change)
    (hrun : w.isRunning = true) :
    (hear o initial w change).isRunning = w.isRunning := by
  obtain ⟨counts, hw⟩ :=
    counted_eq change.1.groupId ⟨some (initial change.1.groupId), true⟩ w
  unfold hear
  rw [evaluateAlone_eq _ _ hrun, isRunning_decided, hw]

theorem get_counted (groupId : String) (n : ℤ) (scales : Bool) (w : World) :
    (counted groupId ⟨some n, scales⟩ w).currentConsumerCounts.get groupId =
      some ((w.currentConsumerCounts.get groupId).getD n) := by
  unfold counted
  cases hget : w.currentConsumerCounts.get groupId with
  | none => simp
  | some k => simp [hget]

theorem count_decided (h : w.currentConsumerCounts.get t.groupId = some c) :
    (decided o t c true w).currentConsumerCounts.get t.groupId =
      some (((wanted o t c w).map (·.«to»)).getD c) := by
  obtain ⟨downs, hw⟩ := recount_eq (o := o) t c w
  unfold decided
  cases hwant : wanted o t c w with
  | none =>
    rw [hw]
    exact h
  | some event =>
    obtain ⟨-, direction, -, -, rfl⟩ := of_wanted hwant
    exact OrdMap.get_set_self _ _ _

theorem count_hear (o : Config) (change : Change) (hrun : w.isRunning = true)
    (hc : (w.currentConsumerCounts.get change.1.groupId).getD (initial change.1.groupId) = c) :
    (hear o initial w change).currentConsumerCounts.get change.1.groupId =
      some (((wanted o ⟨change.1.groupId, .fin change.1.totalLag, .counted c⟩ c w).map
        (·.«to»)).getD c) := by
  obtain ⟨counts, hw⟩ :=
    counted_eq change.1.groupId ⟨some (initial change.1.groupId), true⟩ w
  have hget := get_counted change.1.groupId (initial change.1.groupId) true w
  unfold hear
  rw [evaluateAlone_eq _ _ hrun]
  unfold countOf
  rw [Option.getD_some, hc]
  rw [hc, hw] at hget
  rw [hw]
  exact count_decided (t := ⟨change.1.groupId, .fin change.1.totalLag, .counted c⟩) hget

theorem checkAllGroups_of_not_mem (now : ℕ) : ∀ {groups : List (String × Option Answer)}
    (summaries : Summaries), groupId ∉ groups.map Prod.fst →
    (checkAllGroups m now groups summaries).2.1.get groupId = summaries.get groupId ∧
      ∀ change ∈ (checkAllGroups m now groups summaries).2.2, change.1.groupId ≠ groupId
  | [], _, _ => ⟨rfl, fun _ h => by cases h⟩
  | (g, none) :: groups, summaries, h => by
    simp only [List.map_cons, List.mem_cons, not_or] at h
    have ih := checkAllGroups_of_not_mem now summaries h.2
    exact ih
  | (g, some answer) :: groups, summaries, h => by
    simp only [List.map_cons, List.mem_cons, not_or] at h
    obtain ⟨hget, htold⟩ := checkAllGroups_of_not_mem now
      (summaries.set g (summarize m g answer now)) h.2
    refine ⟨hget.trans (OrdMap.get_set_of_ne _ _ h.1), fun change hc => ?_⟩
    simp only [checkAllGroups, KafkaConsumerMonitor.checkGroup] at hc
    rcases List.mem_append.1 hc with hc | hc
    · split at hc
      · rw [Option.toList_some, List.mem_singleton] at hc
        subst hc
        exact Ne.symm h.1
      · cases hc
    · exact htold change hc

/-- A group that is checked has the summary, which is told if it is a change. -/
theorem checkAllGroups_of_mem (now : ℕ) {answer : Answer} :
    ∀ {groups : List (String × Option Answer)} (summaries : Summaries),
      (groups.map Prod.fst).Nodup → (groupId, some answer) ∈ groups →
      (checkAllGroups m now groups summaries).2.1.get groupId =
          some (summarize m groupId answer now) ∧
        ∃ l l', (checkAllGroups m now groups summaries).2.2 =
            l ++ (if changed m (summaries.get groupId) (summarize m groupId answer now) then
              [(summarize m groupId answer now, summaries.get groupId)] else []) ++ l' ∧
          (∀ change ∈ l, change.1.groupId ≠ groupId) ∧ ∀ change ∈ l', change.1.groupId ≠ groupId
  | [], _, _, hmem => by cases hmem
  | (g, none) :: groups, summaries, hn, hmem => by
    have hmem' : (groupId, some answer) ∈ groups := by simpa using hmem
    have ih := checkAllGroups_of_mem now summaries (List.nodup_cons.1 hn).2 hmem'
    exact ih
  | (g, some answer') :: groups, summaries, hn, hmem => by
    obtain ⟨hng, hn⟩ := List.nodup_cons.1 hn
    simp only [checkAllGroups, KafkaConsumerMonitor.checkGroup]
    rcases List.mem_cons.1 hmem with he | hmem
    · -- it is this one, and no other
      rw [Prod.mk.injEq, Option.some.injEq] at he
      obtain ⟨rfl, rfl⟩ := he
      obtain ⟨hget, htold⟩ := checkAllGroups_of_not_mem (m := m) now
        (summaries.set groupId (summarize m groupId answer now)) hng
      refine ⟨hget.trans (OrdMap.get_set_self _ _ _), [], _, ?_, by simp, htold⟩
      rw [List.nil_append]
      split <;> rfl
    · have hg : groupId ≠ g := fun h => hng (List.mem_map.2 ⟨_, hmem, h⟩)
      obtain ⟨hget, l, l', htold, hl, hl'⟩ :=
        checkAllGroups_of_mem now (summaries.set g (summarize m g answer' now)) hn hmem
      rw [OrdMap.get_set_of_ne _ _ hg] at htold
      let own := summarize m g answer' now
      refine ⟨hget, (if changed m (summaries.get g) own then some (own, summaries.get g)
        else none).toList ++ l, l', ?_, fun change hc => ?_, hl'⟩
      · rw [htold, List.append_assoc, List.append_assoc, List.append_assoc]
      · rcases List.mem_append.1 hc with hc | hc
        · split at hc
          · rw [Option.toList_some, List.mem_singleton] at hc
            subst hc
            exact Ne.symm hg
          · cases hc
        · exact hl change hc

theorem checks_step {s s' : Monitored} {a : Check}
    (hs : (checks m o initial).step s a = some s') : s'.checks = s.checks + 1 := by
  simp only [checks] at hs
  split at hs
  · cases hs
    rfl
  · cases hs

/-- What a check leaves of the count of a group. -/
theorem consumers_step {s s' : Monitored} {a : Check} {answer : Answer}
    (hrun : s.scaler.isRunning = true) (ha : a.groups.get groupId = some (some answer))
    (hs : (checks m o initial).step s a = some s') :
    s'.scaler.isRunning = true ∧ s'.consumers initial groupId =
      if changed m (s.summaries.get groupId) (summarize m groupId answer (s.ahead a).clock) then
        ((wanted o ⟨groupId, .fin (summarize m groupId answer (s.ahead a).clock).totalLag,
          .counted (s.consumers initial groupId)⟩ (s.consumers initial groupId) (s.ahead a)).map
            (·.«to»)).getD (s.consumers initial groupId)
      else s.consumers initial groupId := by
  simp only [checks] at hs
  split at hs
  · cases hs
    obtain ⟨-, l, l', htold, hl, hl'⟩ := checkAllGroups_of_mem (m := m) (s.ahead a).clock
      s.summaries a.groups.nodup (OrdMap.mem_entries_iff.2 ha)
    have hrun' : (s.ahead a).isRunning = true := hrun
    have h1 := same_foldl_hear o initial hl hrun'
    have hrun1 := h1.isRunning.trans hrun'
    simp only [Monitored.consumers, htold, List.foldl_append]
    split
    · -- the change is told, and its evaluation is the one that counts
      have hc := congrArg (fun count => Option.getD count (initial groupId)) h1.count
      have h2 := count_hear o (summarize m groupId answer (s.ahead a).clock,
        s.summaries.get groupId) hrun1 hc
      have hrun2 := (isRunning_hear o initial (summarize m groupId answer (s.ahead a).clock,
        s.summaries.get groupId) hrun1).trans hrun1
      have h3 := same_foldl_hear o initial hl' hrun2
      refine ⟨h3.isRunning.trans hrun2, ?_⟩
      refine (congrArg (fun count => Option.getD count (initial groupId))
        (h3.count.trans h2)).trans ?_
      exact congrArg (fun e => (Option.map (·.«to») e).getD (s.consumers initial groupId))
        (Same.wanted (o := o) (t := ⟨groupId, .fin (summarize m groupId answer
          (s.ahead a).clock).totalLag, .counted (s.consumers initial groupId)⟩) h1)
    · have h3 := same_foldl_hear o initial hl' hrun1
      refine ⟨h3.isRunning.trans hrun1, ?_⟩
      exact congrArg (fun count => Option.getD count (initial groupId)) (h3.count.trans h1.count)
  · cases hs

end Checks

section Climbing

variable (m : KafkaConsumerMonitor.Config) (o : Config) (initial : String → ℤ) (groupId : String)

/-- The check sees a total lag of the group. -/
def Observes (totalLag : ℚ) (s : Monitored) (a : Check) : Prop :=
  match a.groups.get groupId with
  | some (some answer) => (summarize m groupId answer (s.ahead a).clock).totalLag = totalLag
  | _ => False

/-- The check is told and its evaluation not held, with a count that is below the maximum; or there
is nothing to climb, and it does not scale down. -/
def Climbs (s : Monitored) (a : Check) : Prop :=
  match a.groups.get groupId with
  | some (some answer) =>
    let c := s.consumers initial groupId
    let summary := summarize m groupId answer (s.ahead a).clock
    changed m (s.summaries.get groupId) summary = true ∧ held o groupId c (s.ahead a) = false ∧
        c < o.maxConsumers ∨
      (changed m (s.summaries.get groupId) summary = true →
        wanted o ⟨groupId, .fin summary.totalLag, .counted c⟩ c (s.ahead a) = none) ∧
        (c = o.maxConsumers ∧ 0 ≤ o.scaleUpBy ∨ c ≤ o.maxConsumers ∧ o.scaleUpBy = 0)
  | _ => True

/-- The group has climbed at every check. -/
def Climbed (s : Monitored) : Prop :=
  s.consumers initial groupId =
    min o.maxConsumers (initial groupId + s.checks * o.scaleUpBy)

instance (totalLag : ℚ) : DecidableRel (Observes m groupId totalLag) := fun s a => by
  unfold Observes
  split <;> infer_instance

instance : DecidableRel (Climbs m o initial groupId) := fun s a => by
  unfold Climbs
  split <;> infer_instance

variable {m o initial groupId} {s s' : Monitored} {a : Check} {h : List (Taken Monitored Check)}
  {totalLag : ℚ} {c : ℤ} {w : World}

/-- A lag that is no lower than the upper threshold leads up, if the evaluation is not held and the
maximum not reached. -/
theorem wanted_up (hup : o.scaleUpThreshold.le (.fin totalLag) = true)
    (hheld : held o groupId c w = false) (hc : c < o.maxConsumers) :
    ((wanted o ⟨groupId, .fin totalLag, .counted c⟩ c w).map (·.«to»)).getD c =
      min (c + o.scaleUpBy) o.maxConsumers := by
  unfold wanted choose
  simp only [hheld, hup, hc, Bool.false_eq_true, ↓reduceIte, decide_true, Bool.and_self]
  split
  · rename_i he
    exact he.symm
  · rfl

theorem climbed_step (hup : o.scaleUpThreshold.le (.fin totalLag) = true)
    (hrun : s.scaler.isRunning = true) (hobs : Observes m groupId totalLag s a)
    (hs : (checks m o initial).step s a = some s')
    (hclimbs : Climbs m o initial groupId s a) :
    s.consumers initial groupId ≤ o.maxConsumers ∧
      (s.consumers initial groupId < o.maxConsumers ∨ 0 ≤ o.scaleUpBy) ∧
      s'.consumers initial groupId =
        min (s.consumers initial groupId + o.scaleUpBy) o.maxConsumers := by
  unfold Observes at hobs
  unfold Climbs at hclimbs
  split at hobs
  · rename_i answer ha
    have hcount := (consumers_step hrun ha hs).2
    simp only [ha] at hclimbs
    rw [hcount]
    rw [hobs] at hclimbs ⊢
    rcases hclimbs with ⟨htold, hheld, hlt⟩ | ⟨hnone, hmax⟩
    · rw [if_pos htold, wanted_up hup hheld hlt]
      exact ⟨hlt.le, .inl hlt, rfl⟩
    · have hsame : (if changed m (s.summaries.get groupId)
          (summarize m groupId answer (s.ahead a).clock) then
          ((wanted o ⟨groupId, .fin totalLag, .counted (s.consumers initial groupId)⟩
            (s.consumers initial groupId) (s.ahead a)).map (·.«to»)).getD
              (s.consumers initial groupId)
        else s.consumers initial groupId) = s.consumers initial groupId := by
        split
        · rename_i htold
          rw [hnone htold]
          rfl
        · rfl
      rw [hsame]
      rcases hmax with ⟨he, hby⟩ | ⟨hle, hby⟩
      · exact ⟨by omega, .inr hby, by omega⟩
      · exact ⟨hle, .inr (by omega), by omega⟩
  · exact hobs.elim

theorem told_of_lt (hobs : Observes m groupId totalLag s a)
    (hrun : s.scaler.isRunning = true) (hs : (checks m o initial).step s a = some s')
    (hlt : s.consumers initial groupId < s'.consumers initial groupId)
    (hmax : s.consumers initial groupId < o.maxConsumers) : Climbs m o initial groupId s a := by
  unfold Observes at hobs
  unfold Climbs
  split at hobs
  · rename_i answer ha
    have hcount := (consumers_step hrun ha hs).2
    rw [hcount] at hlt
    split at hlt
    · rename_i htold
      cases hwant : wanted o ⟨groupId,
          .fin (summarize m groupId answer (s.ahead a).clock).totalLag,
          .counted (s.consumers initial groupId)⟩ (s.consumers initial groupId) (s.ahead a) with
      | none =>
        rw [hwant] at hlt
        exact absurd hlt (lt_irrefl _)
      | some event => exact .inl ⟨htold, (of_wanted hwant).1, hmax⟩
    · exact absurd hlt (lt_irrefl _)
  · exact hobs.elim

theorem wanted_eq_none (hlow : (JsNumber.fin totalLag).le o.scaleDownThreshold = false)
    (hc : c = o.maxConsumers ∨ c ≤ o.maxConsumers ∧ o.scaleUpBy = 0) :
    wanted o ⟨groupId, .fin totalLag, .counted c⟩ c w = none := by
  cases hwant : wanted o ⟨groupId, .fin totalLag, .counted c⟩ c w with
  | none => rfl
  | some event =>
    obtain ⟨-, direction, hd, hne, -⟩ := of_wanted hwant
    rcases choose_cases o (.fin totalLag) c (consecutiveDown w groupId) with
      ⟨⟨-, hlt⟩, he⟩ | ⟨-, ⟨⟨hlow', -⟩, -⟩ | ⟨-, he⟩⟩
    · rw [he, Option.some.injEq] at hd
      subst hd
      refine absurd ?_ hne
      simp only [target]
      omega
    · rw [hlow] at hlow'
      cases hlow'
    · rw [he] at hd
      cases hd

theorem isRunning_step (hrun : s.scaler.isRunning = true) (hobs : Observes m groupId totalLag s a)
    (hs : (checks m o initial).step s a = some s') : s'.scaler.isRunning = true := by
  unfold Observes at hobs
  split at hobs
  · rename_i answer ha
    exact (consumers_step hrun ha hs).1
  · exact hobs.elim

theorem isRunning_of_run (hr : Run (checks m o initial) h s)
    (hobs : Along (Observes m groupId totalLag) h) : s.scaler.isRunning = true := by
  refine Run.invariant_of (P := fun s => s.scaler.isRunning = true) (fun s hs => ?_)
    (fun s a s' hrun hobs hs => isRunning_step hrun hobs hs) hr hobs
  obtain ⟨clock, summaries, rfl⟩ := hs
  rfl

theorem checks_of_run (hr : Run (checks m o initial) h s) : s.checks = h.length := by
  induction hr with
  | start hs =>
    obtain ⟨clock, summaries, rfl⟩ := hs
    rfl
  | next _ hs ih => rw [checks_step hs, ih, List.length_cons]

theorem climbed_of_run (hup : o.scaleUpThreshold.le (.fin totalLag) = true)
    (hr : Run (checks m o initial) h s) (hobs : Along (Observes m groupId totalLag) h)
    (hclimbs : Along (Climbs m o initial groupId) h) :
    s.checks = 0 ∧ s.consumers initial groupId = initial groupId ∨
      s.checks ≠ 0 ∧ Climbed o initial groupId s := by
  induction hr with
  | start hs =>
    obtain ⟨clock, summaries, rfl⟩ := hs
    exact .inl ⟨rfl, rfl⟩
  | @next h s s' a hr hs ih =>
    obtain ⟨hle, hby, hc'⟩ := climbed_step hup (isRunning_of_run hr hobs.tail) hobs.head hs
      hclimbs.head
    have hchecks := checks_step hs
    refine .inr ⟨by omega, ?_⟩
    unfold Climbed
    rw [hc', hchecks]
    push_cast
    rw [add_mul, one_mul]
    rcases ih hobs.tail hclimbs.tail with ⟨h0, hc⟩ | ⟨-, hc⟩
    · rw [h0, hc]
      push_cast
      omega
    · unfold Climbed at hc
      omega

theorem climbs_of_top (hobs : Observes m groupId totalLag s a)
    (hlow : (JsNumber.fin totalLag).le o.scaleDownThreshold = false) (hby : 0 ≤ o.scaleUpBy)
    (hle : s.consumers initial groupId ≤ o.maxConsumers)
    (hmax : s.consumers initial groupId = o.maxConsumers ∨ o.scaleUpBy = 0) :
    Climbs m o initial groupId s a := by
  unfold Observes at hobs
  unfold Climbs
  split at hobs
  · rename_i answer ha
    subst hobs
    refine .inr ⟨fun _ => wanted_eq_none hlow ?_, ?_⟩
    · exact hmax.imp_right fun h => ⟨hle, h⟩
    · exact hmax.imp (fun h => ⟨h, hby⟩) fun h => ⟨hle, h⟩
  · exact hobs.elim

theorem climbed_iff_step (hup : o.scaleUpThreshold.le (.fin totalLag) = true)
    (hlow : (JsNumber.fin totalLag).le o.scaleDownThreshold = false) (hby : 0 ≤ o.scaleUpBy)
    (hrun : s.scaler.isRunning = true) (hobs : Observes m groupId totalLag s a)
    (hs : (checks m o initial).step s a = some s') (hc : Climbed o initial groupId s) :
    Climbed o initial groupId s' ↔ Climbs m o initial groupId s a := by
  unfold Climbed at hc ⊢
  rw [checks_step hs]
  have hnext : min (s.consumers initial groupId + o.scaleUpBy) o.maxConsumers =
      min o.maxConsumers (initial groupId + ((s.checks + 1 : ℕ) : ℤ) * o.scaleUpBy) := by
    rw [hc]
    push_cast
    rw [add_mul, one_mul]
    omega
  constructor
  · intro h
    rw [← hnext] at h
    have hle : s.consumers initial groupId ≤ o.maxConsumers := by omega
    by_cases hmax : s.consumers initial groupId = o.maxConsumers ∨ o.scaleUpBy = 0
    · exact climbs_of_top hobs hlow hby hle hmax
    · rw [not_or] at hmax
      exact told_of_lt hobs hrun hs (by omega) (by omega)
  · intro h
    rw [(climbed_step hup hrun hobs hs h).2.2, hnext]

/-- In a run of checks that all see one lag, no lower than the upper threshold, the group has
climbed at each of them if every check climbs; and if its count is no higher than the maximum at
first, no step leads down and the lag is above the lower threshold, it has after every check just
when every check climbs. -/
theorem climbed_iff (hup : o.scaleUpThreshold.le (.fin totalLag) = true)
    (hr : Run (checks m o initial) h s) (hobs : Along (Observes m groupId totalLag) h) :
    s.checks = h.length ∧
      (Along (Climbs m o initial groupId) h → h ≠ [] → Climbed o initial groupId s) ∧
      (0 ≤ o.scaleUpBy → initial groupId ≤ o.maxConsumers →
        (JsNumber.fin totalLag).le o.scaleDownThreshold = false →
        ((∀ step ∈ h, Climbed o initial groupId step.post) ↔
          Along (Climbs m o initial groupId) h)) := by
  refine ⟨checks_of_run hr, fun hclimbs hne => ?_, fun hby hle hlow => ?_⟩
  · rcases climbed_of_run hup hr hobs hclimbs with ⟨h0, -⟩ | ⟨-, hc⟩
    · rw [checks_of_run hr, List.length_eq_zero_iff] at h0
      exact absurd h0 hne
    · exact hc
  · refine Run.posts_iff_along (P := Climbed o initial groupId) (fun s hs => ?_)
      (fun h s a s' hr hD hd hs hP =>
        climbed_iff_step hup hlow hby (isRunning_of_run hr hD) hd hs hP) hr hobs
    obtain ⟨clock, summaries, rfl⟩ := hs
    show initial groupId = min o.maxConsumers (initial groupId + ((0 : ℕ) : ℤ) * o.scaleUpBy)
    push_cast
    rw [zero_mul]
    omega

/-- A check of one group, a minute after the one before, of so many partitions of a topic. -/
def checkOf (lags : List ℚ) : Check :=
  ⟨60000, OrdMap.set {} "g" (some ⟨lags.map (ConsumerGroupMetrics.mk "t"), 1⟩)⟩

/-- The lag stays, and moves between one partition and two: each check sees another status. -/
theorem climbed_iff_moving : ∃ h s, Run (checks {} {} fun _ => 4) h s ∧
    Along (Observes {} "g" 6000) h ∧ Climbed {} (fun _ => 4) "g" s ∧
    s.consumers (fun _ => 4) "g" = 10 ∧ s.checks = 3 := by
  obtain ⟨h, s, hr, hp⟩ := Sys.exists_run (S := checks {} {} fun _ => 4)
    (s := { summaries := {}, scaler := { clock := 1000000, isRunning := true, listeners := 1 } })
    ⟨_, _, rfl⟩ [checkOf [6000], checkOf [3000, 3000], checkOf [6000]]
    (p := fun r => r.1.all (fun step => decide (Observes {} "g" 6000 step.pre step.act)) &&
      r.1.all (fun step => decide (Climbs {} {} (fun _ => 4) "g" step.pre step.act)) &&
      r.2.consumers (fun _ => 4) "g" == 10 && r.2.checks == 3)
    (by decide +kernel)
  simp only [Bool.and_eq_true, beq_iff_eq, List.all_eq_true, decide_eq_true_eq] at hp
  obtain ⟨⟨⟨hobs, hclimbs⟩, hten⟩, hthree⟩ := hp
  obtain ⟨hlen, hclimbed, -⟩ := climbed_iff (o := {}) (by decide +kernel) hr hobs
  have hne : h ≠ [] := fun h0 => by
    rw [hthree, h0] at hlen
    cases hlen
  exact ⟨h, s, hr, hobs, hclimbed hclimbs hne, hten, hthree⟩

/-- The lag stays as it is: the second check tells nothing. -/
theorem not_climbed_steady : ∃ h s, Run (checks {} {} fun _ => 4) h s ∧
    Along (Observes {} "g" 5000) h ∧ ¬ Climbed {} (fun _ => 4) "g" s ∧
    s.consumers (fun _ => 4) "g" = 6 ∧ s.checks = 2 := by
  obtain ⟨h, s, hr, hp⟩ := Sys.exists_run (S := checks {} {} fun _ => 4)
    (s := { summaries := {}, scaler := { clock := 1000000, isRunning := true, listeners := 1 } })
    ⟨_, _, rfl⟩ [checkOf [5000], checkOf [5000]]
    (p := fun r => r.1.all (fun step => decide (Observes {} "g" 5000 step.pre step.act)) &&
      r.2.consumers (fun _ => 4) "g" == 6 && r.2.checks == 2)
    (by decide +kernel)
  simp only [Bool.and_eq_true, beq_iff_eq, List.all_eq_true, decide_eq_true_eq] at hp
  obtain ⟨⟨hobs, hsix⟩, htwo⟩ := hp
  refine ⟨h, s, hr, hobs, fun hc => ?_, hsix, htwo⟩
  unfold Climbed at hc
  rw [hsix, htwo] at hc
  revert hc
  decide

end Climbing

end KafkaAutoScaler

end VeriNode
