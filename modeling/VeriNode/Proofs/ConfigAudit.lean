import VeriNode.Audit.Drift
import VeriNode.Proofs.HotUpdate
import VeriNode.Config.Reload
import VeriNode.Config.Schema

/-!
# What the audit records of a change

An entry is made of the top of the new configuration, so it says what has changed only where the
configuration says so itself. A call is audited faithfully exactly if that is so, and no listener
throws after the entry is written (`audited_iff`). A configuration that says nothing about itself
never is (`update_unaudited`).
-/

namespace VeriNode

namespace ConfigAudit

open JsVal Config

variable {ν : Type*}

section Law

variable [JsonNumber ν]

/-- What stands for a path in an entry: the path itself. -/
def pathValue : Path → JsVal ν
  | .dotted path => .json (.str path)
  | .keys path => .json (.arr (path.map .str))

/-- The entry is of a change at this path, from this value to that. -/
structure Records (e : AuditEntryInput ν) (path previous new : JsVal ν) : Prop where
  configPath : e.configPath = path
  previousValue : Same e.previousValue previous
  newValue : Same e.newValue new

/-- Where two configurations differ. -/
def differences : JsVal ν → JsVal ν → List (Drift.RawDiff ν)
  | .obj old, .obj new => Drift.deepDiff old new ""
  | _, _ => []

/-- The entries are those of the change, which led from one configuration to the other. -/
def Recorded (old new : JsVal ν) (written : List (AuditEntryInput ν)) : Change ν → Prop
  | .update path _ => ∃ e, written = [e]
      ∧ Records e (pathValue path) (getIn path.toKeys old) (getIn path.toKeys new)
  | .delete path => ∃ e, written = [e]
      ∧ Records e (pathValue path) (getIn path.toKeys old) .undefined
  | .reload _ =>
    (∀ e ∈ written, ∃ d ∈ differences old new,
        Records e (.json (.str d.path)) d.baselineValue d.liveValue)
      ∧ ∀ d ∈ differences old new, ∃ e ∈ written,
        Records e (.json (.str d.path)) d.baselineValue d.liveValue

/-- A call that returns, having made a change, has written the entries of the change, and another
call has written none. -/
def Faithful (old : JsVal ν) (c : Change ν) (called : Called ν (AuditEntryInput ν)) : Prop :=
  (called.outcome ≠ .returned → called.written = [])
    ∧ (called.outcome = .returned → Recorded old called.config called.written c)

/-- The configuration has at its top that the value at the path was changed from this to that. -/
structure Says (config path previous new : JsVal ν) : Prop where
  configPath : pick "configPath" (.json (.str "")) config = path
  previousValue : Same (child "previousValue" config) previous
  newValue : Same (child "newValue" config) new

/-- The new configuration has at its top what the change made of the old one. -/
def Describes (old new : JsVal ν) : Change ν → Prop
  | .update path _ =>
    Says new (pathValue path) (getIn path.toKeys old) (getIn path.toKeys new)
  | .delete path => Says new (pathValue path) (getIn path.toKeys old) .undefined
  | .reload _ => differences old new ≠ []
      ∧ ∀ d ∈ differences old new, Says new (.json (.str d.path)) d.baselineValue d.liveValue

/-- The listeners that hear of a change after the service does. -/
def Others.later (others : Others ν) : Change ν → List (JsVal ν → Bool)
  | .update _ _ => others.after ++ others.all
  | .delete _ => others.after ++ others.all
  | .reload _ => (others.after ++ others.all) ++ (others.loaded ++ others.all)

/-- If the change makes a valid configuration, that describes the change and no listener throws on
it; or one does that is there before the service. -/
def Described (schema : Schema ν) (valid : List (String × JsVal ν) → Bool)
    (toNumber : String → Option ℕ) (others : Others ν) (old : JsVal ν) (c : Change ν) : Prop :=
  ∀ new, (c.copy toNumber old).bind (validate schema valid) = some new →
    others.before.any (· new) = true
      ∨ (others.later c).any (· new) = false ∧ Describes old new c

end Law

section Entry

variable {data path previous new : JsVal ν} {before rest : List (JsVal ν → Bool)}

theorem pick_undefined (key : String) (data : JsVal ν) :
    pick key .undefined data = child key data := by
  rw [pick]
  cases child key data <;> rfl

theorem records_entry : Records (entry data) path previous new ↔ Says data path previous new := by
  have hprevious : (entry data).previousValue = child "previousValue" data := pick_undefined _ _
  have hnew : (entry data).newValue = child "newValue" data := pick_undefined _ _
  constructor
  · rintro ⟨hpath, h₁, h₂⟩
    exact ⟨hpath, hprevious ▸ h₁, hnew ▸ h₂⟩
  · rintro ⟨hpath, h₁, h₂⟩
    exact ⟨hpath, hprevious ▸ h₁, hnew ▸ h₂⟩

theorem emit_append {ε : Type*} (data : JsVal ν) (before rest : List (Listener ν ε)) :
    emit data (before ++ rest) =
      if (emit data before).2 then emit data before
      else ((emit data before).1 ++ (emit data rest).1, (emit data rest).2) := by
  induction before with
  | nil => rfl
  | cons listener before ih =>
    rw [List.cons_append, emit, emit]
    by_cases hthrows : (listener data).2 = true
    · simp only [if_pos hthrows]
    · simp only [if_neg hthrows, ih]
      split_ifs
      · rfl
      · simp only [List.append_assoc]

theorem emit_other (throws : List (JsVal ν → Bool)) :
    emit data (throws.map other) = ([], throws.any (· data)) := by
  induction throws with
  | nil => rfl
  | cons listener throws ih =>
    rw [List.map_cons, emit, ih, List.any_cons, other]
    cases listener data <;> rfl

theorem emit_started (before rest : List (JsVal ν → Bool)) :
    emit data (before.map other ++ updatedListener :: rest.map other) =
      if before.any (· data) then ([], true) else ([entry data], rest.any (· data)) := by
  rw [emit_append, emit_other]
  split_ifs with hthrows
  · exact Prod.ext rfl hthrows
  · rw [emit, emit_other, updatedListener]
    rfl

variable {old : JsVal ν} {m : Manager ν (AuditEntryInput ν)}

/-- A configuration is installed faithfully if nothing throws once the entry is written, and then
the entry is as it should be. -/
theorem install_law {P : List (AuditEntryInput ν) → Prop}
    {called : Called ν (AuditEntryInput ν)}
    (hcalled : called =
      install data (before.map other ++ updatedListener :: rest.map other) old m) :
    ((called.outcome ≠ .returned → called.written = [])
      ∧ (called.outcome = .returned → P called.written))
      ↔ before.any (· data) = true ∨ rest.any (· data) = false ∧ P [entry data] := by
  rw [install, emit_started] at hcalled
  subst hcalled
  cases hthrows : before.any (· data)
  · cases hafter : rest.any (· data) <;> simp [notify]
  · simp

end Entry

section Runs

variable {schema : Schema ν} {valid : List (String × JsVal ν) → Bool}
  {toNumber : String → Option ℕ} {others : Others ν} {m : Manager ν (AuditEntryInput ν)}

theorem reachable_bus (hr : (sys schema valid toNumber others).Reachable m) : m.bus = others.bus := by
  refine hr.invariant (P := fun m => m.bus = others.bus) ?_ ?_
  · rintro m ⟨hbus, -⟩
    exact hbus
  · rintro m c _ hm hstep
    obtain rfl := Option.some.inj hstep
    exact hm

theorem call_started {data : JsVal ν} {c : Change ν} (hbus : m.bus = others.bus)
    (h : (c.copy toNumber m.config).bind (validate schema valid) = some data) :
    m.call schema valid toNumber c =
      install data (others.before.map other ++ updatedListener :: (others.later c).map other)
        m.config m := by
  have hevents : c.events m.bus
      = others.before.map other ++ updatedListener :: (others.later c).map other := by
    rw [hbus]
    cases c <;> simp [Change.events, Others.bus, Others.later]
  rw [call_installed h, hevents]

/-- What is not at the top of a configuration, nor of the schema, is not there after a change of
something else. -/
theorem own_installed {k : String} {fields : List (String × JsVal ν)} {path : Path}
    {value data : JsVal ν} {c : Change ν} (hc : c = .update path value ∨ c = .delete path)
    (hk : k ≠ path.toKeys.headD "undefined") (hschema : k ∉ schema.properties.map Prod.fst)
    (h : (c.copy toNumber (.obj fields)).bind (validate schema valid) = some data) :
    ∃ gs, data = .obj gs ∧ own k gs = own k fields := by
  obtain ⟨new, hcopy, hvalid⟩ := Option.bind_eq_some_iff.1 h
  have hnew : ∃ gs, new = .obj gs ∧ own k gs = own k fields := by
    rcases hc with rfl | rfl
    · exact setPath_kept hcopy hk
    · exact deletePath_kept hcopy hk
  obtain ⟨gs, rfl, hgs⟩ := hnew
  rw [validate, Option.ite_none_right_eq_some, Option.some.injEq] at hvalid
  obtain ⟨-, rfl⟩ := hvalid
  refine ⟨_, rfl, hgs ▸ ?_⟩
  rcases schema with ⟨isObject, default, properties⟩
  exact own_applyProperties_of_not_mem properties hschema

variable [JsonNumber ν]

theorem recorded_entry {old new : JsVal ν} (c : Change ν) :
    Recorded old new [entry new] c ↔ Describes old new c := by
  cases c with
  | update path value =>
    simp only [Recorded, Describes, List.cons.injEq, and_true, ← records_entry]
    exact ⟨by rintro ⟨_, rfl, h⟩; exact h, fun h => ⟨_, rfl, h⟩⟩
  | delete path =>
    simp only [Recorded, Describes, List.cons.injEq, and_true, ← records_entry]
    exact ⟨by rintro ⟨_, rfl, h⟩; exact h, fun h => ⟨_, rfl, h⟩⟩
  | reload merged =>
    simp only [Recorded, Describes, List.mem_singleton, forall_eq, exists_eq_left, records_entry]
    refine and_congr_left fun hall => ⟨?_, fun hne => ?_⟩
    · rintro ⟨d, hd, -⟩
      exact List.ne_nil_of_mem hd
    · obtain ⟨d, hd⟩ := List.exists_mem_of_ne_nil _ hne
      exact ⟨d, hd, hall d hd⟩

theorem call_faithful (hbus : m.bus = others.bus) (c : Change ν) :
    Faithful m.config c (m.call schema valid toNumber c)
      ↔ Described schema valid toNumber others m.config c := by
  rcases hinst : (c.copy toNumber m.config).bind (validate schema valid) with _ | data
  · obtain ⟨outcome, hcall, houtcome⟩ := call_refused hinst
    rw [hcall, Faithful, Described, hinst]
    simp [houtcome]
  · have hcalled := call_started hbus hinst
    have hconfig : (m.call schema valid toNumber c).config = data := by
      rw [hcalled, install_config]
    rw [Faithful, Described, hinst, hconfig,
      install_law (P := fun written => Recorded m.config data written c) hcalled]
    simp only [Option.some.injEq, forall_eq', recorded_entry]

/-- No update or deletion is audited faithfully of a configuration that has no `configPath` at its
top, unless it is of that key. -/
theorem update_unaudited {fields : List (String × JsVal ν)} {path : Path} {value : JsVal ν}
    {c : Change ν} (hbus : m.bus = others.bus) (hconfig : m.config = .obj fields)
    (hfields : own "configPath" fields = none)
    (hschema : "configPath" ∉ schema.properties.map Prod.fst)
    (hc : c = .update path value ∨ c = .delete path) (hpath : path ≠ .dotted "")
    (hkey : "configPath" ≠ path.toKeys.headD "undefined")
    (hreturned : (m.call schema valid toNumber c).outcome = .returned) :
    ¬ Faithful m.config c (m.call schema valid toNumber c) := by
  intro hfaithful
  have hdescribed := (call_faithful hbus c).1 hfaithful
  rcases hinst : (c.copy toNumber m.config).bind (validate schema valid) with _ | data
  · obtain ⟨outcome, hcall, houtcome⟩ := call_refused hinst
    rw [hcall] at hreturned
    exact houtcome hreturned
  · have hbefore : others.before.any (· data) = false := by
      rw [call_started hbus hinst, install, emit_started] at hreturned
      by_contra hthrows
      rw [Bool.not_eq_false] at hthrows
      simp [hthrows] at hreturned
    obtain ⟨-, hsays⟩ : _ ∧ Describes m.config data c := by
      refine (hdescribed data hinst).resolve_left ?_
      rw [hbefore]
      exact Bool.false_ne_true
    rw [hconfig] at hinst
    obtain ⟨gs, rfl, hgs⟩ := own_installed hc hkey hschema hinst
    have hchild : child "configPath" (.obj gs) = .undefined := by
      rw [child, hgs, hfields]
      rfl
    have hpathValue : pick "configPath" (.json (.str "")) (.obj gs) = pathValue path := by
      rcases hc with rfl | rfl
      · exact hsays.configPath
      · exact hsays.configPath
    rw [pick, hchild] at hpathValue
    cases path with
    | dotted path =>
      simp only [pathValue, JsVal.json.injEq, Json.str.injEq] at hpathValue
      exact hpath (congrArg Path.dotted hpathValue.symm)
    | keys path => simp [pathValue] at hpathValue

/-- Over any run, every call is audited faithfully if and only if every change that is made is
described by the configuration it leads to. -/
theorem audited_iff {h : List (Taken (Manager ν (AuditEntryInput ν)) (Change ν))}
    (hr : Run (sys schema valid toNumber others) h m) :
    (∀ t ∈ h, Faithful t.pre.config t.act (t.pre.call schema valid toNumber t.act))
      ↔ Along (fun m c => Described schema valid toNumber others m.config c) h := by
  refine forall₂_congr fun t ht => ?_
  exact call_faithful (reachable_bus (hr.taken ht).1) t.act

/-- A manager with the service on its bus, and the configuration. -/
def started (fields : List (String × JsVal ℕ)) : Manager ℕ (AuditEntryInput ℕ) where
  config := .obj fields
  bus := Others.bus {}

/-- `update('a', 2)`. -/
def setA : Change ℕ := .update (.dotted "a") (.json (.num 2))

theorem run_setA (fields : List (String × JsVal ℕ)) :
    Run (sys (section_ []) (fun _ => true) Json.arrayIndex {})
      [⟨started fields, setA, started (assign "a" (.json (.num 2)) fields)⟩]
      (started (assign "a" (.json (.num 2)) fields)) :=
  Run.next (.start ⟨rfl, _, rfl⟩) rfl

/-- A configuration that foretells its next change. -/
def foretelling : List (String × JsVal ℕ) :=
  [("a", .json (.num 1)), ("configPath", .json (.str "a")), ("previousValue", .json (.num 1)),
    ("newValue", .json (.num 2))]

theorem audited_foretold :
    Faithful (.obj foretelling) setA
      ((started foretelling).call (section_ []) (fun _ => true) Json.arrayIndex setA) := by
  refine (audited_iff (run_setA foretelling)).2 ?_ _ List.mem_cons_self
  intro t ht
  obtain rfl := List.mem_singleton.1 ht
  intro new hnew
  obtain rfl := Option.some.inj hnew
  exact .inr ⟨rfl, rfl, fun _ => rfl, fun _ => rfl⟩

/-- `update('a', 2)` is audited as a change of nothing, at no path. -/
theorem update_misrecorded :
    let called := (started [("a", .json (.num 1))]).call (section_ []) (fun _ => true)
      Json.arrayIndex setA
    called.outcome = .returned
      ∧ called.written.map (fun e => (e.configPath, e.previousValue, e.newValue))
        = [(.json (.str ""), .undefined, .undefined)]
      ∧ ¬ Faithful (.obj [("a", .json (.num 1))]) setA called := by
  refine ⟨rfl, rfl, fun h => ?_⟩
  obtain ⟨e, hwritten, hrecords⟩ := h.2 rfl
  obtain rfl := (List.cons.inj hwritten).1
  have hpath : (JsVal.json (Json.str "") : JsVal ℕ) = .json (.str "a") := hrecords.configPath
  simp at hpath

end Runs

end ConfigAudit

end VeriNode

/-!
# When overlapping reloads do not go back in time

A reload installs what it has loaded, whenever that was, and gives the callbacks the configuration
that it copied when it was started. Both are right as long as no reload ends that leaves behind an
older configuration than one that has ended was to load, and none tells callbacks of a configuration
that is not the current one (`InTime`): then whatever interleaves, the claims of `Fresh` hold
(`fresh_of_inTime`).
-/

namespace VeriNode

namespace Reloads

open Config

variable {ν ε : Type*} {schema : Schema ν} {valid : List (String × JsVal ν) → Bool}
  {toNumber : String → Option ℕ} {s s' : State ν ε} {a : Action ν ε}
  {h : List (Taken (State ν ε) (Action ν ε))}

section Law

/-- Once all reloads have ended, what one of them installed last was loaded no earlier than the last
one was started; and callbacks are always given the configuration that was current. -/
structure Fresh (s : State ν ε) : Prop where
  settled : s.reloads = ∅ → ∀ loadedAt, s.installed = some loadedAt → s.started ≤ loadedAt
  notified : ∀ n ∈ s.notified, n.oldConfig = n.current

/-- What is installed was loaded since the instant, or it will be: a reload is waiting that has not
loaded before it. -/
def Covered (since : ℕ) (installed : Option ℕ) (reloads : OrdMap ℕ (Reload ν)) : Prop :=
  (∀ loadedAt, installed = some loadedAt → since ≤ loadedAt)
    ∨ ∃ id r, reloads.get id = some r ∧ ∀ l, r.loaded = some l → since ≤ l.1

/-- No callback is told, or the copy is the current configuration. -/
def Truthful (r : Reload ν) (newConfig : JsVal ν) (m : Manager ν ε) : Prop :=
  m.changeCallbacks = [] ∨ (emit newConfig (loadEvents m.bus)).2 = true ∨ r.oldConfig = m.config

/-- A reload that ends leaves what it was to load, and what those before it were, installed, or to
another one that waits; and it tells callbacks the truth. -/
def InTime (schema : Schema ν) (valid : List (String × JsVal ν) → Bool) (s : State ν ε) :
    Action ν ε → Prop
  | .finish id => ∀ r l, s.reloads.get id = some r → r.loaded = some l →
      match validate schema valid l.2 with
      | none => Covered (max s.ended r.startedAt) s.installed (s.reloads.delete id)
      | some newConfig =>
        Covered (max s.ended r.startedAt) (some l.1) (s.reloads.delete id)
          ∧ Truthful r newConfig s.manager
  | _ => True

end Law

section Steps

theorem install_invoked {new old : JsVal ν} {events : List (Listener ν ε)} {m : Manager ν ε}
    {i : String × JsVal ν × JsVal ν} (hi : i ∈ (install new events old m).invoked) :
    i.2.1 = old ∧ m.changeCallbacks ≠ [] ∧ (emit new events).2 = false := by
  rw [install] at hi
  split_ifs at hi with hthrows
  · cases hi
  · obtain ⟨callback, hcallback, rfl⟩ := List.mem_map.1 hi
    exact ⟨rfl, List.ne_nil_of_mem hcallback, Bool.eq_false_iff.2 hthrows⟩

theorem call_invoked {m : Manager ν ε} {c : Change ν} {i : String × JsVal ν × JsVal ν}
    (hi : i ∈ (m.call schema valid toNumber c).invoked) : i.2.1 = m.config := by
  rcases hinst : (c.copy toNumber m.config).bind (validate schema valid) with _ | data
  · obtain ⟨outcome, hcall, -⟩ := call_refused hinst
    rw [hcall] at hi
    cases hi
  · rw [call_installed hinst] at hi
    exact (install_invoked hi).1

theorem finish_reload {id loadedAt : ℕ} {r : Reload ν} {merged : JsVal ν}
    (hold : r.oldConfig = s.manager.config) :
    (finish schema valid id r loadedAt merged s).manager.config
        = (s.manager.reload schema valid merged).config
      ∧ (finish schema valid id r loadedAt merged s).notified = s.notified
        ++ (s.manager.reload schema valid merged).invoked.map
          fun i => ⟨i.1, i.2.1, i.2.2, s.manager.config⟩ := by
  rcases r with ⟨oldConfig, startedAt, loaded⟩
  obtain rfl : oldConfig = s.manager.config := hold
  rw [finish, Manager.reload]
  cases validate schema valid merged with
  | none => exact ⟨rfl, (List.append_nil _).symm⟩
  | some newConfig => exact ⟨rfl, rfl⟩

end Steps

section Runs

/-- The instants are in order, the last reload waits or is the last that has ended, and what has
ended is covered. -/
structure Inv (s : State ν ε) : Prop where
  ended_le : s.ended ≤ s.started
  started_le : s.started ≤ s.time
  waiting_le : ∀ id r, s.reloads.get id = some r → r.startedAt ≤ s.started
  last : (∃ id r, s.reloads.get id = some r ∧ r.startedAt = s.started) ∨ s.ended = s.started
  fresh : ∀ id, s.nextReload ≤ id → s.reloads.get id = none
  covered : Covered s.ended s.installed s.reloads
  notified : ∀ n ∈ s.notified, n.oldConfig = n.current

theorem Inv.sound (hi : Inv s) : Fresh s := by
  refine ⟨fun hsettled loadedAt hinstalled => ?_, hi.notified⟩
  have hnone : ∀ id r, s.reloads.get id ≠ some r := by
    intro id r
    rw [hsettled, OrdMap.get_empty]
    exact Option.some_ne_none _ |>.symm
  have hlast : s.ended = s.started := hi.last.resolve_left fun ⟨id, r, hget, _⟩ => hnone id r hget
  rw [← hlast]
  exact (hi.covered.resolve_right fun ⟨id, r, hget, _⟩ => hnone id r hget) loadedAt hinstalled

theorem Inv.init (hs : (sys schema valid toNumber).init s) : Inv s := by
  obtain ⟨manager, sources, rfl⟩ := hs
  exact {
    ended_le := le_rfl
    started_le := le_rfl
    waiting_le := fun id r hget => by cases hget
    last := .inr rfl
    fresh := fun id _ => rfl
    covered := .inl fun _ _ => Nat.zero_le _
    notified := fun n hn => by cases hn }

theorem Inv.tick (hi : Inv s) : Inv s.tick :=
  { hi with started_le := Nat.le_succ_of_le hi.started_le }

theorem Inv.after {called : Called ν ε} (hi : Inv s)
    (htruth : ∀ i ∈ called.invoked, i.2.1 = s.manager.config) : Inv (s.after called) := by
  refine { hi with notified := fun n hn => ?_ }
  rcases List.mem_append.1 hn with hn | hn
  · exact hi.notified n hn
  · obtain ⟨i, hinvoked, rfl⟩ := List.mem_map.1 hn
    exact htruth i hinvoked

theorem Inv.reload (hi : Inv s) :
    Inv { s with
      reloads := s.reloads.set s.nextReload
        { oldConfig := s.manager.config, startedAt := s.time, loaded := none }
      nextReload := s.nextReload + 1
      started := s.time } where
  ended_le := hi.ended_le.trans hi.started_le
  started_le := le_rfl
  waiting_le := fun id r hget => by
    rcases OrdMap.of_get_set hget with ⟨-, rfl⟩ | ⟨-, hget⟩
    · exact le_rfl
    · exact (hi.waiting_le id r hget).trans hi.started_le
  last := .inl ⟨s.nextReload, _, OrdMap.get_set_self _ _ _, rfl⟩
  fresh := fun id hid => by
    have hlt : s.nextReload < id := hid
    rw [OrdMap.get_set_of_ne _ _ hlt.ne']
    exact hi.fresh id hlt.le
  covered := .inr ⟨s.nextReload, _, OrdMap.get_set_self _ _ _, fun l hl => by cases hl⟩
  notified := hi.notified

theorem Inv.load {id : ℕ} {r : Reload ν} (hi : Inv s) (hget : s.reloads.get id = some r)
    (merged : JsVal ν) :
    Inv { s with reloads := s.reloads.set id { r with loaded := some (s.time, merged) } } where
  ended_le := hi.ended_le
  started_le := hi.started_le
  waiting_le := fun id' r' hget' => by
    rcases OrdMap.of_get_set hget' with ⟨-, rfl⟩ | ⟨-, hget'⟩
    · exact hi.waiting_le id r hget
    · exact hi.waiting_le id' r' hget'
  last := by
    refine hi.last.imp_left fun ⟨id', r', hget', hstarted⟩ => ?_
    by_cases hid : id' = id
    · subst hid
      obtain rfl : r = r' := Option.some.inj (hget.symm.trans hget')
      exact ⟨id', _, OrdMap.get_set_self _ _ _, hstarted⟩
    · exact ⟨id', r', by rw [OrdMap.get_set_of_ne _ _ hid, hget'], hstarted⟩
  fresh := fun id' hid' => by
    rw [OrdMap.get_set_of_ne _ _ ?_, hi.fresh id' hid']
    rintro rfl
    rw [hi.fresh id' hid'] at hget
    cases hget
  covered := by
    refine hi.covered.imp_right fun ⟨id', r', hget', hsince⟩ => ?_
    by_cases hid : id' = id
    · refine ⟨id, _, OrdMap.get_set_self _ _ _, fun l hl => ?_⟩
      obtain rfl := Option.some.inj hl
      exact hi.ended_le.trans hi.started_le
    · exact ⟨id', r', by rw [OrdMap.get_set_of_ne _ _ hid, hget'], hsince⟩
  notified := hi.notified

theorem Inv.ended {id : ℕ} {r : Reload ν} {installed : Option ℕ} (hi : Inv s)
    (hget : s.reloads.get id = some r)
    (hcovered : Covered (max s.ended r.startedAt) installed (s.reloads.delete id)) :
    Inv { s with
      reloads := s.reloads.delete id
      ended := max s.ended r.startedAt
      installed } where
  ended_le := max_le hi.ended_le (hi.waiting_le id r hget)
  started_le := hi.started_le
  waiting_le := fun id' r' hget' => hi.waiting_le id' r' (OrdMap.of_get_delete hget').2
  last := by
    rcases hi.last with ⟨id', r', hget', hstarted⟩ | hlast
    · by_cases hid : id' = id
      · subst hid
        obtain rfl : r = r' := Option.some.inj (hget.symm.trans hget')
        exact .inr (hstarted ▸ max_eq_right (hstarted.symm ▸ hi.ended_le))
      · exact .inl ⟨id', r', by rw [OrdMap.get_delete_of_ne _ hid, hget'], hstarted⟩
    · exact .inr (by rw [hlast]; exact max_eq_left (hi.waiting_le id r hget))
  fresh := fun id' hid' => by
    rw [OrdMap.get_delete]
    split_ifs
    · rfl
    · exact hi.fresh id' hid'
  covered := hcovered
  notified := hi.notified

theorem Inv.finish {id : ℕ} {r : Reload ν} {l : ℕ × JsVal ν} (hi : Inv s)
    (hget : s.reloads.get id = some r) (hl : r.loaded = some l)
    (hc : InTime schema valid s (.finish id)) : Inv (finish schema valid id r l.1 l.2 s) := by
  have hstep := hc r l hget hl
  rw [Reloads.finish]
  cases hvalid : validate schema valid l.2 with
  | none =>
    rw [hvalid] at hstep
    exact hi.ended hget hstep
  | some newConfig =>
    rw [hvalid] at hstep
    refine (hi.ended hget hstep.1).after fun i hinvoked => ?_
    obtain ⟨hold, hcallbacks, hquiet⟩ := install_invoked hinvoked
    rw [hold]
    rcases hstep.2 with hnone | hthrows | hcurrent
    · exact absurd hnone hcallbacks
    · rw [hquiet] at hthrows
      cases hthrows
    · exact hcurrent

/-- What a step does keeps the invariant, if a reload that ends does so in time. -/
theorem Inv.act (hi : Inv s) (hc : InTime schema valid s a)
    (hs : act schema valid toNumber s a = some s') : Inv s' := by
  cases a with
  | update path value =>
    obtain rfl := Option.some.inj hs
    refine hi.after fun i hinvoked => ?_
    have hin : i ∈ (s.manager.call schema valid toNumber (.update path value)).invoked := hinvoked
    exact call_invoked hin
  | delete path =>
    obtain rfl := Option.some.inj hs
    exact hi.after fun i hinvoked => call_invoked (c := .delete path) hinvoked
  | setSources sources =>
    obtain rfl := Option.some.inj hs
    exact { hi with }
  | subscribe bus =>
    obtain rfl := Option.some.inj hs
    exact { hi with }
  | onChange changeCallbacks =>
    obtain rfl := Option.some.inj hs
    exact { hi with }
  | reload =>
    obtain rfl := Option.some.inj hs
    exact hi.reload
  | load id =>
    rw [Reloads.act] at hs
    split at hs
    · rename_i r hget
      rw [Option.ite_none_right_eq_some] at hs
      obtain rfl := Option.some.inj hs.2
      exact hi.load hget s.sources
    · cases hs
  | finish id =>
    rw [Reloads.act] at hs
    split at hs
    · rename_i r hget
      obtain ⟨l, hl, rfl⟩ := Option.map_eq_some_iff.1 hs
      exact hi.finish hget hl hc
    · cases hs

theorem inv_of_inTime (hr : Run (sys schema valid toNumber) h s)
    (hc : Along (InTime schema valid) h) : Inv s := by
  refine hr.invariant_of (fun s hs => Inv.init hs) (fun s a s' hi hstep hs => ?_) hc
  obtain ⟨u, hu, rfl⟩ := Option.map_eq_some_iff.1 hs
  exact (hi.act hstep hu).tick

end Runs

section Doomed

/-- What is installed was loaded before the last reload was started, and so was what any reload that
waits will install. -/
structure Doomed (s : State ν ε) : Prop where
  installed : ∃ loadedAt, s.installed = some loadedAt ∧ loadedAt < s.started
  waiting : ∀ id r, s.reloads.get id = some r → ∃ l, r.loaded = some l ∧ l.1 < s.started

variable (schema valid) in
theorem finish_cases (id : ℕ) (r : Reload ν) (loadedAt : ℕ) (merged : JsVal ν) (s : State ν ε) :
    (finish schema valid id r loadedAt merged s).reloads = s.reloads.delete id
      ∧ (finish schema valid id r loadedAt merged s).started = s.started
      ∧ (finish schema valid id r loadedAt merged s).installed
        = if (validate schema valid merged).isSome then some loadedAt else s.installed := by
  rw [finish]
  cases validate schema valid merged <;> exact ⟨rfl, rfl, rfl⟩

theorem step_finish {id : ℕ} {r : Reload ν} {l : ℕ × JsVal ν} (hget : s.reloads.get id = some r)
    (hl : r.loaded = some l) :
    (sys schema valid toNumber).step s (.finish id) =
      some (finish schema valid id r l.1 l.2 s).tick := by
  simp only [sys, act, hget, hl, Option.map_some]

theorem Doomed.finish {id : ℕ} {r : Reload ν} {l : ℕ × JsVal ν} (hd : Doomed s)
    (hget : s.reloads.get id = some r) (hl : r.loaded = some l) :
    Doomed (finish schema valid id r l.1 l.2 s) := by
  obtain ⟨hreloads, hstarted, hinstalled⟩ :=
    finish_cases schema valid id r l.1 l.2 s
  refine ⟨?_, fun id' r' hget' => ?_⟩
  · rw [hinstalled, hstarted]
    split_ifs
    · obtain ⟨l', hl', hlt⟩ := hd.waiting id r hget
      obtain rfl := Option.some.inj (hl.symm.trans hl')
      exact ⟨l.1, rfl, hlt⟩
    · exact hd.installed
  · rw [hreloads] at hget'
    rw [hstarted]
    exact hd.waiting id' r' (OrdMap.of_get_delete hget').2

theorem Doomed.tick (hd : Doomed s) : Doomed s.tick := ⟨hd.installed, hd.waiting⟩

theorem Doomed.not_fresh (hd : Doomed s) (hsettled : s.reloads = ∅) : ¬ Fresh s := by
  intro hfresh
  obtain ⟨loadedAt, hinstalled, hlt⟩ := hd.installed
  exact absurd (hfresh.settled hsettled loadedAt hinstalled) (by omega)

theorem Doomed.settles (hd : Doomed s) (hr : Run (sys schema valid toNumber) h s) :
    ∃ h' s', Run (sys schema valid toNumber) (h' ++ h) s' ∧ ¬ Fresh s' := by
  induction hn : s.reloads.size generalizing s h with
  | zero => exact ⟨[], s, hr, hd.not_fresh (OrdMap.eq_empty_of_size hn)⟩
  | succ n ih =>
    obtain ⟨id, r, hid, hget⟩ := OrdMap.exists_oldest (m := s.reloads) (by omega)
    obtain ⟨l, hl, -⟩ := hd.waiting id r hget
    have hsize : (Reloads.finish schema valid id r l.1 l.2 s).tick.reloads.size = n := by
      have hdelete := OrdMap.size_delete_oldest hid
      rw [← (finish_cases schema valid id r l.1 l.2 s).1] at hdelete
      exact Nat.succ.inj (hdelete.trans hn)
    obtain ⟨h', s', hr', hbad⟩ :=
      ih (hd.finish hget hl).tick (hr.next (step_finish hget hl)) hsize
    rw [List.append_cons] at hr'
    exact ⟨_, s', hr', hbad⟩

/-- A reload that does not end in time goes back in time, in some continuation of the run. -/
theorem not_fresh_of_late {id : ℕ} (hr : Run (sys schema valid toNumber) h s)
    (hc : Along (InTime schema valid) h) (hlate : ¬ InTime schema valid s (.finish id)) :
    ∃ h' s', Run (sys schema valid toNumber) (h' ++ h) s' ∧ ¬ Fresh s' := by
  have hi := inv_of_inTime hr hc
  simp only [InTime, not_forall] at hlate
  obtain ⟨r, l, hget, hl, hlate⟩ := hlate
  obtain ⟨hreloads, hstarted, hinstalled⟩ :=
    finish_cases schema valid id r l.1 l.2 s
  have hnext : Run (sys schema valid toNumber)
      (⟨s, .finish id, (finish schema valid id r l.1 l.2 s).tick⟩ :: h) _ :=
    hr.next (step_finish hget hl)
  have hdue : max s.ended r.startedAt ≤ s.started := max_le hi.ended_le (hi.waiting_le id r hget)
  -- what is left uncovered is too old whatever ends next
  have hdoomed : ∀ installed, (finish schema valid id r l.1 l.2 s).installed = installed →
      ¬ Covered (max s.ended r.startedAt) installed (s.reloads.delete id) →
      ∃ h' s', Run (sys schema valid toNumber) (h' ++ h) s' ∧ ¬ Fresh s' := by
    intro installed heq huncovered
    rw [Covered, not_or] at huncovered
    obtain ⟨hold, hwaiting⟩ := huncovered
    simp only [not_forall, not_le] at hold
    obtain ⟨loadedAt, hloaded, hlt⟩ := hold
    have hd : Doomed (finish schema valid id r l.1 l.2 s) := by
      refine ⟨⟨loadedAt, by rw [heq, hloaded], hstarted ▸ hlt.trans_le hdue⟩, ?_⟩
      intro id' r' hget'
      rw [hreloads] at hget'
      by_contra hno
      refine hwaiting ⟨id', r', hget', fun l' hl' => ?_⟩
      by_contra hlt'
      exact hno ⟨l', hl', hstarted ▸ (not_le.1 hlt').trans_le hdue⟩
    obtain ⟨h', s', hr', hbad⟩ := hd.tick.settles hnext
    rw [List.append_cons] at hr'
    exact ⟨_, s', hr', hbad⟩
  cases hvalid : validate schema valid l.2 with
  | none =>
    rw [hvalid] at hlate hinstalled
    exact hdoomed _ hinstalled hlate
  | some newConfig =>
    rw [hvalid] at hlate hinstalled
    rcases not_and_or.1 hlate with huncovered | huntrue
    · exact hdoomed _ hinstalled huncovered
    · refine ⟨[_], _, hnext, fun hfresh => huntrue ?_⟩
      by_contra hno
      rw [Truthful, not_or, not_or] at hno
      obtain ⟨hcallbacks, hquiet, hold⟩ := hno
      obtain ⟨callback, hcallback⟩ := List.exists_mem_of_ne_nil _ hcallbacks
      refine hold (hfresh.notified ⟨callback.1, r.oldConfig, newConfig, s.manager.config⟩ ?_)
      rw [finish, hvalid]
      simp only [State.tick, State.after, install, if_neg hquiet, notify]
      refine List.mem_append_right _ (List.mem_map.2 ⟨_, List.mem_map.2 ⟨callback, hcallback, rfl⟩, rfl⟩)

end Doomed

section Runs

/-- The sources hold one setting. -/
def setting (value : ℕ) : JsVal ℕ := .obj [("a", .json (.num value))]

/-- A manager with a callback and no settings, and sources with one. -/
def loading : State ℕ ℕ where
  manager := { config := .obj [], changeCallbacks := [("onChange", fun _ _ => false)] }
  sources := setting 1

end Runs

end Reloads

end VeriNode
