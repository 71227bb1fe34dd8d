import VeriNode.Tls.CertificateReloader

/-!
# What a reload that fails does

The context is always the one loaded last (`context_lastLoaded`), and nothing is loaded before a
`start` or after a `stop` (`started_of_timer`). A load that fails leaves the context as it is, but
the error it emits has no listener and leaves the callback of the timer: all is as it should be
exactly along the runs in which no such load fails (`harmless_iff`).
-/

namespace VeriNode

namespace Tls

namespace Reloader

variable {store : CertificateStore} {initial : SecureContext} {load : Load}
variable {h : List (Taken State Action)} {s s' : State} {id : ℕ} {e : String}

section Steps

theorem clearDebounce_fields (s : State) : (clearDebounce s).currentContext = s.currentContext ∧
    (clearDebounce s).watchers = s.watchers ∧
    (clearDebounce s).errorListeners = s.errorListeners ∧
    (clearDebounce s).uncaught = s.uncaught ∧ (clearDebounce s).nextTimer = s.nextTimer := by
  unfold clearDebounce
  split <;> exact ⟨rfl, rfl, rfl, rfl, rfl⟩

theorem start_fields (store : CertificateStore) (throwsAt : Option ℕ) (s : State) :
    (start store throwsAt s).currentContext = s.currentContext ∧
    (start store throwsAt s).errorListeners = s.errorListeners ∧
    (start store throwsAt s).uncaught = s.uncaught ∧
    (start store throwsAt s).timers = s.timers ∧
    (start store throwsAt s).debounceTimer = s.debounceTimer := by
  unfold start
  split_ifs
  · exact ⟨rfl, rfl, rfl, rfl, rfl⟩
  · cases throwsAt <;> exact ⟨rfl, rfl, rfl, rfl, rfl⟩

theorem step_fileEvent {dir : String} (hs : step store s (.fileEvent dir) = some s') :
    dir ∈ s.watchers ∧ s' = scheduleReload s := by
  by_cases hd : dir ∈ s.watchers
  · exact ⟨hd, (Option.some.inj ((if_pos hd).symm.trans hs)).symm⟩
  · exact absurd ((if_neg hd).symm.trans hs) (by simp)

theorem step_timer (hs : step store s (.timer id load) = some s') :
    id ∈ s.timers ∧ s' = reload load { s with timers := s.timers.filter (· ≠ id) } := by
  by_cases hd : id ∈ s.timers
  · exact ⟨hd, (Option.some.inj ((if_pos hd).symm.trans hs)).symm⟩
  · exact absurd ((if_neg hd).symm.trans hs) (by simp)

theorem step_timer_error (hl : s.errorListeners = 0)
    (hs : step store s (.timer id (.error e)) = some s') :
    s' = { s with
      timers := s.timers.filter (· ≠ id)
      log := s.log ++ [.reloadFailed e]
      uncaught := s.uncaught ++ [e] } := by
  rw [(step_timer hs).2]
  exact if_pos hl

end Steps

section Timers

/-- The last of `start` and `stop` was a `start`. -/
def Started : List (Taken State Action) → Prop
  | [] => False
  | t :: h =>
    match t.act with
    | .start _ => True
    | .stop => False
    | _ => Started h

/-- A timer that has not fired is the one kept, and there are watchers and timers only while the
reloader is started. -/
structure Inv (h : List (Taken State Action)) (s : State) : Prop where
  kept : ∀ id ∈ s.timers, s.debounceTimer = some id
  watching : s.watchers ≠ [] → Started h
  waiting : s.timers ≠ [] → Started h
  listeners : s.errorListeners = 0

theorem clearDebounce_timers (hk : ∀ id ∈ s.timers, s.debounceTimer = some id) :
    (clearDebounce s).timers = [] := by
  unfold clearDebounce
  cases ht : s.debounceTimer with
  | none =>
    refine List.eq_nil_iff_forall_not_mem.2 fun id hid => ?_
    exact absurd (hk id hid) (by simp [ht])
  | some timer =>
    refine List.filter_eq_nil_iff.2 fun id hid => ?_
    have := hk id hid
    rw [ht] at this
    simpa using (Option.some.inj this).symm

theorem stop_fields (hk : ∀ id ∈ s.timers, s.debounceTimer = some id) :
    (stop s).timers = [] ∧ (stop s).watchers = [] ∧
      (stop s).errorListeners = s.errorListeners ∧
      (stop s).currentContext = s.currentContext ∧ (stop s).uncaught = s.uncaught := by
  obtain ⟨hc, hw, he, hu, -⟩ := clearDebounce_fields { s with watchers := [] }
  exact ⟨clearDebounce_timers (s := { s with watchers := [] }) hk, hw, he, hc, hu⟩

theorem scheduleReload_timers (hk : ∀ id ∈ s.timers, s.debounceTimer = some id) :
    (scheduleReload s).timers = [s.nextTimer] := by
  unfold scheduleReload
  simp only [clearDebounce_timers hk]

theorem reload_fields (load : Load) (s : State) : (reload load s).timers = s.timers ∧
    (reload load s).debounceTimer = s.debounceTimer ∧ (reload load s).watchers = s.watchers ∧
    (reload load s).errorListeners = s.errorListeners := by
  cases load with
  | ok context => exact ⟨rfl, rfl, rfl, rfl⟩
  | error e =>
    simp only [reload, emitError]
    split_ifs <;> exact ⟨rfl, rfl, rfl, rfl⟩

theorem inv_step {a : Action} (hi : Inv h s) (hs : step store s a = some s') :
    Inv (⟨s, a, s'⟩ :: h) s' := by
  cases a with
  | fileEvent dir =>
    obtain ⟨hd, rfl⟩ := step_fileEvent hs
    have hstarted : Started h := hi.watching (List.ne_nil_of_mem hd)
    refine ⟨fun id hid => ?_, fun _ => hstarted, fun _ => hstarted, ?_⟩
    · rw [scheduleReload_timers hi.kept, List.mem_singleton] at hid
      rw [hid]
      rfl
    · exact (clearDebounce_fields s).2.2.1.trans hi.listeners
  | timer id load =>
    obtain ⟨hid, rfl⟩ := step_timer hs
    obtain ⟨ht, hdeb, hw, he⟩ := reload_fields load { s with timers := s.timers.filter (· ≠ id) }
    have hstarted : Started h := hi.waiting (List.ne_nil_of_mem hid)
    refine ⟨fun id' hid' => ?_, fun _ => hstarted, fun _ => hstarted, he.trans hi.listeners⟩
    rw [ht] at hid'
    exact hdeb.trans (hi.kept id' (List.mem_filter.1 hid').1)
  | start throwsAt =>
    obtain rfl := Option.some.inj hs
    obtain ⟨-, he, -, ht, hdeb⟩ := start_fields store throwsAt s
    refine ⟨fun id hid => ?_, fun _ => trivial, fun _ => trivial, he.trans hi.listeners⟩
    rw [ht] at hid
    exact hdeb.trans (hi.kept id hid)
  | stop =>
    obtain rfl := Option.some.inj hs
    obtain ⟨ht, hw, he, -⟩ := stop_fields hi.kept
    refine ⟨fun id hid => ?_, fun hne => absurd hw hne, fun hne => absurd ht hne,
      he.trans hi.listeners⟩
    rw [ht] at hid
    exact absurd hid List.not_mem_nil

theorem inv_of_run (hr : Run (system store initial) h s) : Inv h s := by
  induction hr with
  | start hi =>
    obtain rfl := hi
    exact ⟨fun _ hid => absurd hid List.not_mem_nil, fun hne => absurd rfl hne,
      fun hne => absurd rfl hne, rfl⟩
  | next _ hs ih => exact inv_step ih hs

end Timers

section Contexts

def lastLoaded (initial : SecureContext) : List (Taken State Action) → SecureContext
  | [] => initial
  | t :: h =>
    match t.act with
    | .timer _ (.ok context) => context
    | _ => lastLoaded initial h

theorem context_step {a : Action} (hi : Inv h s) (hs : step store s a = some s')
    (hc : s.currentContext = some (lastLoaded initial h)) :
    s'.currentContext = some (lastLoaded initial (⟨s, a, s'⟩ :: h)) := by
  cases a with
  | fileEvent dir =>
    obtain ⟨-, rfl⟩ := step_fileEvent hs
    exact (clearDebounce_fields s).1.trans hc
  | timer id load =>
    cases load with
    | ok context =>
      obtain ⟨-, rfl⟩ := step_timer hs
      rfl
    | error e =>
      obtain rfl := step_timer_error hi.listeners hs
      exact hc
  | start throwsAt =>
    obtain rfl := Option.some.inj hs
    exact (start_fields _ throwsAt s).1.trans hc
  | stop =>
    obtain rfl := Option.some.inj hs
    exact (stop_fields hi.kept).2.2.2.1.trans hc

theorem context_lastLoaded (hr : Run (system store initial) h s) :
    s.currentContext = some (lastLoaded initial h) := by
  induction hr with
  | start hi =>
    obtain rfl := hi
    rfl
  | next hr hs ih => exact context_step (inv_of_run hr) hs ih

theorem getContext_of_some {context : SecureContext} (hc : s.currentContext = some context)
    (load : Load) : getContext load s = (.ok context, s) := by
  unfold getContext
  rw [hc]

end Contexts

section Failures

/-- What a timer loads, if it is one that fires, is there. -/
def LoadSucceeds : Action → Prop
  | .timer _ (.error _) => False
  | _ => True

instance : DecidablePred LoadSucceeds
  | .timer _ (.error _) => .isFalse fun h => h
  | .timer _ (.ok _) => .isTrue trivial
  | .fileEvent _ => .isTrue trivial
  | .start _ => .isTrue trivial
  | .stop => .isTrue trivial

theorem uncaught_step {a : Action} (hi : Inv h s) (hs : step store s a = some s') :
    s'.uncaught = [] ↔ LoadSucceeds a ∧ s.uncaught = [] := by
  cases a with
  | fileEvent dir =>
    obtain ⟨-, rfl⟩ := step_fileEvent hs
    show (clearDebounce s).uncaught = [] ↔ _
    rw [(clearDebounce_fields s).2.2.2.1]
    exact (and_iff_right trivial).symm
  | timer id load =>
    cases load with
    | ok context =>
      obtain ⟨-, rfl⟩ := step_timer hs
      exact (and_iff_right trivial).symm
    | error e =>
      obtain rfl := step_timer_error hi.listeners hs
      exact iff_of_false (by simp) fun h => h.1
  | start throwsAt =>
    obtain rfl := Option.some.inj hs
    rw [(start_fields _ throwsAt s).2.2.1]
    exact (and_iff_right trivial).symm
  | stop =>
    obtain rfl := Option.some.inj hs
    rw [(stop_fields hi.kept).2.2.2.2]
    exact (and_iff_right trivial).symm

/-- A failed reload is harmless in a run: `getContext` has the context loaded last, whatever a load
would find; a failing load leaves the reloader as it is and no exception leaves a timer's callback;
and nothing is loaded between a `stop` and the next `start`. -/
structure Harmless (initial : SecureContext) (h : List (Taken State Action)) (s : State) :
    Prop where
  context : ∀ load, getContext load s = (.ok (lastLoaded initial h), s)
  unchanged : ∀ t ∈ h, ∀ id e, t.act = .timer id (.error e) →
    t.post.currentContext = t.pre.currentContext ∧ t.post.watchers = t.pre.watchers ∧
      t.post.debounceTimer = t.pre.debounceTimer
  caught : s.uncaught = []
  stopped : Throughout (fun t before => (∃ id load, t.act = .timer id load) → Started before) h

theorem unchanged_of_run (hr : Run (system store initial) h s) :
    ∀ t ∈ h, ∀ id e, t.act = .timer id (.error e) →
      t.post.currentContext = t.pre.currentContext ∧ t.post.watchers = t.pre.watchers ∧
        t.post.debounceTimer = t.pre.debounceTimer := by
  induction hr with
  | start hi => exact fun t ht => absurd ht List.not_mem_nil
  | next hr hs ih =>
    intro t ht id e ha
    rcases List.mem_cons.1 ht with rfl | ht
    · obtain rfl := ha
      have hs : step store _ (.timer id (.error e)) = some _ := hs
      obtain rfl := step_timer_error (inv_of_run hr).listeners hs
      exact ⟨rfl, rfl, rfl⟩
    · exact ih t ht id e ha

theorem started_of_timer (hr : Run (system store initial) h s) :
    Throughout (fun t before => (∃ id load, t.act = .timer id load) → Started before) h := by
  induction hr with
  | start hi => trivial
  | next hr hs ih =>
    refine ⟨?_, ih⟩
    rintro ⟨id, load, rfl⟩
    have hs : step store _ (.timer id load) = some _ := hs
    exact (inv_of_run hr).waiting (List.ne_nil_of_mem (step_timer hs).1)

/-- A failed reload is harmless exactly along the runs in which none fails. -/
theorem harmless_iff (hr : Run (system store initial) h s) :
    Harmless initial h s ↔ Along (fun _ a => LoadSucceeds a) h := by
  have huncaught : s.uncaught = [] ↔ Along (fun _ a => LoadSucceeds a) h := by
    refine Run.iff_along (P := fun s => s.uncaught = []) (C := fun _ a => LoadSucceeds a) ?_
      (fun h s a s' hr hs => uncaught_step (inv_of_run hr) hs) hr
    rintro s rfl
    rfl
  rw [← huncaught]
  refine ⟨fun hh => hh.caught, fun hcaught => ⟨fun load => ?_, unchanged_of_run hr, hcaught,
    started_of_timer hr⟩⟩
  exact getContext_of_some (context_lastLoaded hr) load

/-- A change of the certificate is loaded. -/
theorem harmless_iff_renewed : ∃ h s, Run (system ⟨"/etc/tls", "/etc/tls", none⟩ "old") h s ∧
    Harmless "old" h s ∧ s.currentContext = some "new" := by
  obtain ⟨h, s, hr, hp⟩ := Sys.exists_run (S := system ⟨"/etc/tls", "/etc/tls", none⟩ "old")
    (s := (loadInitial (.ok "old") {}).2) rfl
    [.start none, .fileEvent "/etc/tls", .timer 0 (.ok "new"), .stop]
    (p := fun x => x.1.all (fun t => decide (LoadSucceeds t.act)) &&
      x.2.currentContext = some "new") (by decide +kernel)
  rw [Bool.and_eq_true, List.all_eq_true, decide_eq_true_iff] at hp
  exact ⟨h, s, hr, (harmless_iff hr).2 fun t ht => of_decide_eq_true (hp.1 t ht), hp.2⟩

/-- The key has not been replaced yet when the certificate is loaded. -/
theorem failed_reload_thrown : ∃ h s, Run (system ⟨"/etc/tls", "/etc/tls", none⟩ "old") h s ∧
    ¬ Harmless "old" h s := by
  obtain ⟨h, s, hr, hp⟩ := Sys.exists_run (S := system ⟨"/etc/tls", "/etc/tls", none⟩ "old")
    (s := (loadInitial (.ok "old") {}).2) rfl
    [.start none, .fileEvent "/etc/tls", .timer 0 (.error "key values mismatch")]
    (p := fun x => x.2.uncaught ≠ []) (by decide +kernel)
  exact ⟨h, s, hr, fun hh => absurd hh.caught (of_decide_eq_true hp)⟩

end Failures

end Reloader

end Tls

end VeriNode
