import VeriNode.Proofs.LoneRotation
import Mathlib.Algebra.Order.BigOperators.Group.List

/-!
# When rotations at the same time do not undo one another

A rotation keeps the descriptor it has read and writes it back, twice with another phase and once
when it is rolled back; nothing is compared with what the store holds by then. Along the runs in
which the descriptor still points where it did at each of these writes, nobody rolls back by hand to
the candidate of a rotation in progress, and the rollback hook of an active canary returns, no
success is undone and no canary is left over (`success_lasts`).
-/

namespace VeriNode

open Turn

namespace Secrets

namespace Rotations

variable {o : Options} {name : String} {s s' : State} {t : Taken State Action}
  {h : List (Taken State Action)}

section Property

/-- The version that a secret's descriptor points to. -/
def pointer (name : String) (store : InMemorySecretStore) : Option String :=
  (store.getSecret name).map (·.currentVersionId)

/-- The pointer before a step. -/
def Before (name : String) (t : Taken State Action) : Option String :=
  pointer name t.pre.service.store

/-- The pointer after a step. -/
def After (name : String) (t : Taken State Action) : Option String :=
  pointer name t.post.service.store

/-- The step in which a call's `promote` writes the descriptor. -/
def Promotes (call : ℕ) (id : String) (t : Taken State Action) : Prop :=
  ∃ i r candidate secret previous activated now, t.act = .resume call i
    ∧ t.pre.calls.get call
      = some (.promoting r candidate (.activated secret previous activated now))
    ∧ activated.id = id

/-- A step of a call of `rollback`. -/
def ByHand (t : Taken State Action) : Prop :=
  ∃ call i id reason place, t.act = .resume call i
    ∧ t.pre.calls.get call = some (.undoing id reason place)

/-- A step that is not of a rollback by hand makes no version current that was so before the
promotion of a rotation that has resolved as complete. -/
def Lasting (name : String) (t : Taken State Action) (h : List (Taken State Action)) : Prop :=
  ¬ ByHand t → After name t ≠ Before name t →
    ∀ call result id, t.pre.calls.get call = some (.resolved result) → result.phase = .complete →
      result.newVersionId = some id →
      ∀ l u e, h = l ++ u :: e → Promotes call id u → ∀ v ∈ u :: e, Before name v ≠ After name t

/-- The call has returned or thrown. -/
def Stage.settled : Stage → Bool
  | .resolved _ | .undone | .rejected _ => true
  | _ => false

def Quiet (s : State) : Prop := ∀ call stage, s.calls.get call = some stage → stage.settled = true

/-- The candidate of a rotation that has not promoted it. -/
def Stage.candidate : Stage → Option String
  | .stored _ candidate | .validating _ candidate | .inCanary _ candidate
  | .applying _ candidate => some candidate.id
  | .promoting _ _ .described => none
  | .promoting _ candidate _ => some candidate.id
  | _ => none

/-- Where a call is about to write the descriptor, it still points to the version that the call has;
the id of a candidate is new; the rollback hook of an active canary returns; and a rollback by hand is
not to a candidate. -/
def Stage.regular (name : String) (i : Input) (s : State) : Stage → Prop
  | .version _ d (some _) => pointer name s.service.store = some d.currentVersionId
  | .generating _ => ∀ value, i.generated = .ok value →
      s.service.store.getVersion name i.versionId = none
  | .validating r _ => i.hook = .ok ⟨⟩ →
      pointer name s.service.store = some r.secret.currentVersionId
  | .restoring _ _ canary (.hook _ _) => canary = true → i.hook = .ok ⟨⟩
  | .restoring _ _ _ (.labelled _ previous) => pointer name s.service.store = some previous.id
  | .undoing _ _ (.labelled _ previous) =>
      ∀ call stage, s.calls.get call = some stage → stage.candidate ≠ some previous.id
  | _ => True

/-- The step is regular. -/
def Regular (name : String) (s : State) : Action → Prop
  | .resume call i => ∀ stage, s.calls.get call = some stage → stage.regular name i s
  | _ => True

end Property

section Invariant

variable {store store' : InMemorySecretStore} {secret : SecretDescriptor}
  {version candidate : SecretVersion} {id : String} {r : Trial} {s s' : Service}

/-- The store has the version; it never loses one. -/
def Known (store : InMemorySecretStore) (name id : String) : Prop :=
  (store.getVersion name id).isSome = true

/-- The store is sound for some ids. -/
def WellFormed (store : InMemorySecretStore) : Prop := ∃ issued, Sound issued store

theorem WellFormed.setSecret (h : WellFormed store) (hname : validName secret.name = true)
    (hpoint : Known store secret.name secret.currentVersionId) :
    WellFormed (store.setSecret secret) := by
  obtain ⟨issued, hi⟩ := h
  exact ⟨issued, hi.setSecret hname hpoint⟩

theorem WellFormed.setVersion (h : WellFormed store)
    (hsecret : (store.getSecret name).isSome = true) :
    WellFormed (store.setVersion name version) := by
  obtain ⟨issued, hi⟩ := h
  exact ⟨version.id :: issued, (hi.mono (List.subset_cons_self _ _)).setVersion hsecret
    List.mem_cons_self⟩

theorem WellFormed.name_eq (h : WellFormed store) (hs : store.getSecret name = some secret) :
    secret.name = name := by
  obtain ⟨_, hi⟩ := h
  exact (hi.named _ _ hs).1

theorem WellFormed.valid (h : WellFormed store) (hs : (store.getSecret name).isSome = true) :
    validName name = true := by
  obtain ⟨_, hi⟩ := h
  obtain ⟨secret, hs⟩ := Option.isSome_iff_exists.1 hs
  exact (hi.named _ _ hs).2

theorem WellFormed.known (h : WellFormed store) (hs : store.getSecret name = some secret) :
    Known store name secret.currentVersionId := by
  obtain ⟨_, hi⟩ := h
  exact hi.pointed _ _ hs

theorem WellFormed.id_eq (h : WellFormed store) (hv : store.getVersion name id = some version) :
    version.id = id := by
  obtain ⟨_, hi⟩ := h
  exact (hi.keyed _ _ _ hv).1

theorem known_of_get (hv : store.getVersion name id = some version) : Known store name id := by
  rw [Known, hv]
  rfl

theorem known_setVersion : Known (store.setVersion name version) name version.id := by
  rw [Known, getVersion_setVersion_self]
  rfl

theorem Known.setVersion (h : Known store name id) :
    Known (store.setVersion name version) name id :=
  isSome_getVersion_setVersion h

/-- What a call of `promote` has read of the secret and of the candidate `id`. -/
def Promoting.Ok (name id : String) : Promoting → Prop
  | .secret read => ∀ d, read = some d → d.name = name
  | .previous d _ => d.name = name
  | .candidate d _ read => d.name = name ∧ ∀ v, read = some v → v.id = id
  | .retired d _ v _ | .activated d _ v _ => d.name = name ∧ v.id = id
  | .described | .thrown _ => True

/-- What a call of `rollback` has read; it has found the version if that is known to be there. -/
def RollingBack.Ok (name : String) (store : InMemorySecretStore) (known : Bool) :
    RollingBack → Prop
  | .secret read => ∃ d, read = some d ∧ d.name = name
  | .version d read => d.name = name ∧ (∀ v, read = some v → Known store name v.id)
      ∧ (known = true → read.isSome = true)
  | .hook d v | .labelled d v => d.name = name ∧ Known store name v.id
  | .described => True
  | .thrown _ => False

/-- What a rotation has read before its `try` block. -/
structure Trial.Ok (name : String) (store : InMemorySecretStore) (r : Trial) : Prop where
  named : r.secret.name = name
  pointed : Known store name r.secret.currentVersionId
  old : Known store name r.oldVersion.id

/-- What a call has read where it waits. -/
def Stage.Ok (name : String) (store : InMemorySecretStore) : Stage → Prop
  | .secret _ read => ∀ d, read = some d → d.name = name ∧ Known store name d.currentVersionId
  | .version _ d read => d.name = name ∧ Known store name d.currentVersionId
      ∧ ∀ v, read = some v → v.id = d.currentVersionId
  | .prepared r | .generating r | .thrown r _ _ => r.Ok name store
  | .stored r candidate | .validating r candidate | .inCanary r candidate | .applying r candidate
  | .promoted r candidate => r.Ok name store ∧ Known store name candidate.id
  | .promoting r candidate place => r.Ok name store ∧ Known store name candidate.id
      ∧ place.Ok name candidate.id
  | .restoring r _ _ place => r.Ok name store ∧ place.Ok name store true
  | .restored r _ => r.Ok name store
  | .undoing _ _ place => place.Ok name store false
  | .resolved _ | .undone | .rejected _ => True

theorem Trial.Ok.mono (h : r.Ok name store)
    (hgrows : ∀ id, Known store name id → Known store' name id) : r.Ok name store' :=
  ⟨h.named, hgrows _ h.pointed, hgrows _ h.old⟩

theorem RollingBack.Ok.mono {known : Bool} {place : RollingBack} (h : place.Ok name store known)
    (hgrows : ∀ id, Known store name id → Known store' name id) : place.Ok name store' known := by
  cases place with
  | version d read => exact ⟨h.1, fun v hv => hgrows _ (h.2.1 v hv), h.2.2⟩
  | hook d v | labelled d v => exact ⟨h.1, hgrows _ h.2⟩
  | secret _ | described | thrown _ => exact h

theorem Stage.Ok.mono {stage : Stage} (h : stage.Ok name store)
    (hgrows : ∀ id, Known store name id → Known store' name id) : stage.Ok name store' := by
  cases stage with
  | secret _ read => exact fun d hd => ⟨(h d hd).1, hgrows _ (h d hd).2⟩
  | version _ d read => exact ⟨h.1, hgrows _ h.2.1, h.2.2⟩
  | prepared r | generating r | thrown r _ _ | restored r _ => exact Trial.Ok.mono h hgrows
  | stored r c | validating r c | inCanary r c | applying r c | promoted r c =>
    exact ⟨h.1.mono hgrows, hgrows _ h.2⟩
  | promoting r c place => exact ⟨h.1.mono hgrows, hgrows _ h.2.1, h.2.2⟩
  | restoring r _ _ place => exact ⟨h.1.mono hgrows, h.2.mono hgrows⟩
  | undoing _ _ place => exact RollingBack.Ok.mono h hgrows
  | resolved _ | undone | rejected _ => trivial

end Invariant

section Moves

variable {secret : SecretDescriptor} {version candidate : SecretVersion} {id : String} {r : Trial}
  {s s' : Service} {stage stage' : Stage} {i : Input}

/-- The rotation is counted as an active canary. -/
def Stage.canary : Stage → Bool
  | .applying .. | .promoting .. => true
  | .thrown _ _ canary | .restoring _ _ canary _ => canary
  | _ => false

/-- The version that a rollback by hand is about to make current. -/
def Stage.undoes : Stage → Option String
  | .undoing _ _ (.labelled _ previous) => some previous.id
  | _ => none

/-- What a call may do to the pointer: nothing, or it promotes its candidate, or it is a rollback by
hand. -/
inductive Points (name : String) (s s' : Service) (stage stage' : Stage) : Prop
  | same : pointer name s'.store = pointer name s.store → Points name s s' stage stage'
  | promoted (id : String) : stage.candidate = some id → stage'.candidate = none →
      pointer name s'.store = some id → Points name s s' stage stage'
  | undone (id : String) : stage.undoes = some id → pointer name s'.store = some id →
      Points name s s' stage stage'

/-- What a regular step of a call does. -/
structure Move (name : String) (s s' : Service) (stage stage' : Stage) : Prop where
  wellFormed : WellFormed s'.store
  registered : (s'.store.getSecret name).isSome = true
  grows : ∀ id, Known s.store name id → Known s'.store name id
  ok : stage'.Ok name s'.store
  points : Points name s s' stage stage'
  candidate : stage'.candidate = none ∨ stage'.candidate = stage.candidate
    ∨ ∃ id, stage'.candidate = some id ∧ ¬ Known s.store name id ∧ Known s'.store name id
  canaries : s'.metrics.activeCanaries
    ≤ s.metrics.activeCanaries - stage.canary.toNat + stage'.canary.toNat

theorem Move.still (hw : WellFormed s.store) (hreg : (s.store.getSecret name).isSome = true)
    (hstore : s'.store = s.store) (hok : stage'.Ok name s.store)
    (hcandidate : stage'.candidate = none ∨ stage'.candidate = stage.candidate)
    (hcanaries : s'.metrics.activeCanaries
      ≤ s.metrics.activeCanaries - stage.canary.toNat + stage'.canary.toNat) :
    Move name s s' stage stage' where
  wellFormed := hstore ▸ hw
  registered := hstore ▸ hreg
  grows _ h := hstore ▸ h
  ok := hstore ▸ hok
  points := .same (by rw [hstore])
  candidate := hcandidate.imp_right .inl
  canaries := hcanaries

theorem Move.putVersion (hw : WellFormed s.store) (hreg : (s.store.getSecret name).isSome = true)
    (hok : stage'.Ok name (s.store.setVersion name version))
    (hcandidate : stage'.candidate = none ∨ stage'.candidate = stage.candidate
      ∨ stage'.candidate = some version.id ∧ ¬ Known s.store name version.id)
    (hcanaries : s.metrics.activeCanaries
      ≤ s.metrics.activeCanaries - stage.canary.toNat + stage'.canary.toNat) :
    Move name s { s with store := s.store.setVersion name version } stage stage' where
  wellFormed := hw.setVersion hreg
  registered := hreg
  grows _ h := h.setVersion
  ok := hok
  points := .same rfl
  candidate := hcandidate.imp_right fun h => h.imp_right fun h => ⟨_, h.1, h.2, known_setVersion⟩
  canaries := hcanaries

theorem Move.putSecret (secret : SecretDescriptor) (hw : WellFormed s.store)
    (hreg : (s.store.getSecret name).isSome = true)
    (hname : secret.name = name) (hstore : s'.store = s.store.setSecret secret)
    (hknown : Known s.store name secret.currentVersionId) (hok : stage'.Ok name s.store)
    (hpoints : pointer name s.store = some secret.currentVersionId
      ∨ stage.candidate = some secret.currentVersionId ∧ stage'.candidate = none
      ∨ stage.undoes = some secret.currentVersionId)
    (hcandidate : stage'.candidate = none ∨ stage'.candidate = stage.candidate)
    (hcanaries : s'.metrics.activeCanaries
      ≤ s.metrics.activeCanaries - stage.canary.toNat + stage'.canary.toNat) :
    Move name s s' stage stage' := by
  subst hname
  have hpoint : pointer secret.name s'.store = some secret.currentVersionId := by
    rw [pointer, hstore, getSecret_setSecret_self, Option.map_some]
  refine ⟨?_, ?_, ?_, ?_, ?_, hcandidate.imp_right .inl, hcanaries⟩
  · rw [hstore]
    exact hw.setSecret (hw.valid hreg) hknown
  · rw [hstore, getSecret_setSecret_self]
    rfl
  · rw [hstore]
    exact fun _ h => h
  · rw [hstore]
    exact hok.mono fun _ h => h
  · rcases hpoints with h | ⟨h, hnone⟩ | h
    · exact .same (hpoint.trans h.symm)
    · exact .promoted _ h hnone hpoint
    · exact .undone _ h hpoint

theorem le_pred_succ (n : ℕ) : n ≤ n - 1 + 1 := by omega

theorem move_promoting {place : Promoting} (hw : WellFormed s.store)
    (hreg : (s.store.getSecret name).isSome = true)
    (hok : Stage.Ok name s.store (.promoting r candidate place))
    (hs : Stage.next o name i (.promoting r candidate place) s = some (stage', s')) :
    Move name s s' (.promoting r candidate place) stage' := by
  obtain ⟨hr, hc, hplace⟩ := hok
  obtain rfl := hr.named
  have hvalid := hw.valid hreg
  cases place with
  | secret read =>
    cases read with
    | none =>
      obtain ⟨rfl, rfl⟩ := Prod.mk.inj (Option.some.inj hs)
      exact .still hw hreg rfl hr (.inl rfl) (le_pred_succ _)
    | some d =>
      obtain ⟨rfl, rfl⟩ := Prod.mk.inj (Option.some.inj hs)
      exact .still hw hreg rfl ⟨hr, hc, hplace d rfl⟩ (.inr rfl) (le_pred_succ _)
  | previous d read =>
    cases read with
    | none =>
      obtain ⟨rfl, rfl⟩ := Prod.mk.inj (Option.some.inj hs)
      exact .still hw hreg rfl hr (.inl rfl) (le_pred_succ _)
    | some previous =>
      obtain ⟨rfl, rfl⟩ := Prod.mk.inj (Option.some.inj hs)
      exact .still hw hreg rfl ⟨hr, hc, hplace, fun v hv => hw.id_eq hv⟩ (.inr rfl)
        (le_pred_succ _)
  | candidate d previous read =>
    cases read with
    | none =>
      obtain ⟨rfl, rfl⟩ := Prod.mk.inj (Option.some.inj hs)
      exact .still hw hreg rfl hr (.inl rfl) (le_pred_succ _)
    | some v =>
      rw [Stage.next, promoteNext, await_putVersion hvalid] at hs
      obtain ⟨rfl, rfl⟩ := Prod.mk.inj (Option.some.inj hs)
      exact .putVersion hw hreg ⟨hr.mono fun _ h => h.setVersion, hc.setVersion, hplace.1,
        hplace.2 v rfl⟩ (.inr (.inl rfl)) (le_pred_succ _)
  | retired d previous v now =>
    rw [Stage.next, promoteNext, await_putVersion hvalid] at hs
    obtain ⟨rfl, rfl⟩ := Prod.mk.inj (Option.some.inj hs)
    exact .putVersion hw hreg ⟨hr.mono fun _ h => h.setVersion, hc.setVersion, hplace⟩
      (.inr (.inl rfl)) (le_pred_succ _)
  | activated d previous v now =>
    obtain ⟨hd, hv⟩ := hplace
    have hvalid' : validName (d.promoted o v previous now).name = true := hd ▸ hvalid
    rw [Stage.next, promoteNext, await_putSecret hvalid'] at hs
    obtain ⟨rfl, rfl⟩ := Prod.mk.inj (Option.some.inj hs)
    have hpoint : (d.promoted o v previous now).currentVersionId = candidate.id := hv
    have hknown : Known s.store r.secret.name (d.promoted o v previous now).currentVersionId := by
      rw [hpoint]
      exact hc
    refine .putSecret (d.promoted o v previous now) hw hreg hd rfl hknown ⟨hr, hc, trivial⟩
      (.inr (.inl ⟨?_, rfl⟩)) (.inl rfl) (le_pred_succ _)
    rw [hpoint]
    rfl
  | described =>
    obtain ⟨rfl, rfl⟩ := Prod.mk.inj (Option.some.inj hs)
    exact .still hw hreg rfl ⟨hr, hc⟩ (.inl rfl) (Nat.le_refl _)
  | thrown message =>
    obtain ⟨rfl, rfl⟩ := Prod.mk.inj (Option.some.inj hs)
    exact .still hw hreg rfl hr (.inl rfl) (le_pred_succ _)

/-- What a step of `rollback` does to the store. -/
theorem rollbackNext_cases {place : RollingBack} {id reason : String} {known : Bool}
    {hook : Except String PUnit} {next : Next RollingBack} (hw : WellFormed s.store)
    (hreg : (s.store.getSecret name).isSome = true) (hok : place.Ok name s.store known)
    (hid : known = true → Known s.store name id)
    (hs : rollbackNext name id reason hook place s = (next, s')) :
    (∃ message, next = .throws message ∧ s' = s ∧ (known = true →
        ∃ d v, place = .hook d v ∧ hook = .error message))
      ∨ (next = .returns ∧ s'.store = s.store
        ∧ s'.metrics.activeCanaries = s.metrics.activeCanaries - 1)
      ∨ (∃ place', next = .waits place' ∧ s' = s ∧ place'.Ok name s.store known)
      ∨ (∃ d v, place = .hook d v ∧ next = .waits (.labelled d v) ∧ d.name = name
        ∧ s' = { s with store := s.store.setVersion name (v.labelled .current) })
      ∨ ∃ d v, place = .labelled d v ∧ next = .waits .described ∧ d.name = name
        ∧ Known s.store name v.id
        ∧ s' = { s with store := s.store.setSecret (d.rolledBack v reason) } := by
  have hvalid := hw.valid hreg
  cases place with
  | secret read =>
    obtain ⟨d, rfl, hd⟩ := hok
    obtain ⟨rfl, rfl⟩ := Prod.mk.inj hs
    refine .inr (.inr (.inl ⟨_, rfl, rfl, hd, fun v hv => ?_, hid⟩))
    rw [hw.id_eq hv]
    exact known_of_get hv
  | version d read =>
    cases read with
    | none =>
      obtain ⟨rfl, rfl⟩ := Prod.mk.inj hs
      exact .inl ⟨_, rfl, rfl, fun hknown => by cases hok.2.2 hknown⟩
    | some v =>
      obtain ⟨rfl, rfl⟩ := Prod.mk.inj hs
      exact .inr (.inr (.inl ⟨_, rfl, rfl, hok.1, hok.2.1 v rfl⟩))
  | hook d v =>
    rcases hook with message | _
    · obtain ⟨rfl, rfl⟩ := Prod.mk.inj hs
      exact .inl ⟨message, rfl, rfl, fun _ => ⟨d, v, rfl, rfl⟩⟩
    · rw [rollbackNext_hook hvalid] at hs
      obtain ⟨rfl, rfl⟩ := Prod.mk.inj hs
      exact .inr (.inr (.inr (.inl ⟨d, v, rfl, rfl, hok.1, rfl⟩)))
  | labelled d v =>
    have hvalid' : validName (d.rolledBack v reason).name = true := hok.1 ▸ hvalid
    rw [rollbackNext, await_putSecret hvalid'] at hs
    obtain ⟨rfl, rfl⟩ := Prod.mk.inj hs
    exact .inr (.inr (.inr (.inr ⟨d, v, rfl, rfl, hok.1, hok.2, rfl⟩)))
  | described =>
    obtain ⟨rfl, rfl⟩ := Prod.mk.inj hs
    exact .inr (.inl ⟨rfl, rfl, rfl⟩)
  | thrown message => exact hok.elim

theorem move_restoring {st : State} {message : String} {canary : Bool} {place : RollingBack}
    (hw : WellFormed st.service.store) (hreg : (st.service.store.getSecret name).isSome = true)
    (hok : Stage.Ok name st.service.store (.restoring r message canary place))
    (hregular : Stage.regular name i st (.restoring r message canary place))
    (hs : Stage.next o name i (.restoring r message canary place) st.service = some (stage', s')) :
    Move name st.service s' (.restoring r message canary place) stage' := by
  obtain ⟨hr, hplace⟩ := hok
  obtain rfl := hr.named
  rcases hn : rollbackNext r.secret.name r.oldVersion.id message i.hook place st.service
    with ⟨next, s₁⟩
  rw [Stage.next, hn] at hs
  rcases rollbackNext_cases hw hreg hplace (fun _ => hr.old) hn with
    ⟨error, rfl, rfl, hhook⟩ | ⟨rfl, hstore, hcount⟩ | ⟨place', rfl, rfl, hok'⟩
    | ⟨d, v, rfl, rfl, hd, rfl⟩ | ⟨d, v, rfl, rfl, hd, hv, rfl⟩
  · obtain ⟨rfl, rfl⟩ := Prod.mk.inj (Option.some.inj hs)
    obtain ⟨d, v, rfl, herror⟩ := hhook rfl
    refine .still hw hreg rfl trivial (.inl rfl) ?_
    -- a hook that throws is not that of an active canary
    cases canary with
    | false => exact Nat.le_refl _
    | true =>
      have hreturned := hregular rfl
      rw [herror] at hreturned
      cases hreturned
  · obtain ⟨rfl, rfl⟩ := Prod.mk.inj (Option.some.inj hs)
    refine .still hw hreg hstore hr (.inl rfl) ?_
    rw [hcount]
    cases canary <;> simp [Stage.canary]
  · obtain ⟨rfl, rfl⟩ := Prod.mk.inj (Option.some.inj hs)
    refine .still hw hreg rfl ⟨hr, hok'⟩ (.inl rfl) ?_
    cases canary <;> simp [Stage.canary, le_pred_succ]
  · obtain ⟨rfl, rfl⟩ := Prod.mk.inj (Option.some.inj hs)
    refine .putVersion hw hreg ⟨hr.mono fun _ h => h.setVersion, hd, known_setVersion⟩ (.inl rfl) ?_
    cases canary <;> simp [Stage.canary, le_pred_succ]
  · obtain ⟨rfl, rfl⟩ := Prod.mk.inj (Option.some.inj hs)
    refine .putSecret (d.rolledBack v message) hw hreg hd rfl hv ⟨hr, trivial⟩ (.inl hregular)
      (.inl rfl) ?_
    cases canary <;> simp [Stage.canary, le_pred_succ]

theorem move_undoing {previousVersionId reason : String} {place : RollingBack}
    (hw : WellFormed s.store) (hreg : (s.store.getSecret name).isSome = true)
    (hok : Stage.Ok name s.store (.undoing previousVersionId reason place))
    (hs : Stage.next o name i (.undoing previousVersionId reason place) s = some (stage', s')) :
    Move name s s' (.undoing previousVersionId reason place) stage' := by
  rcases hn : rollbackNext name previousVersionId reason i.hook place s with ⟨next, s₁⟩
  rw [Stage.next, hn] at hs
  rcases rollbackNext_cases hw hreg hok (fun h => by cases h) hn with
    ⟨error, rfl, rfl, -⟩ | ⟨rfl, hstore, hcount⟩ | ⟨place', rfl, rfl, hok'⟩
    | ⟨d, v, rfl, rfl, hd, rfl⟩ | ⟨d, v, rfl, rfl, hd, hv, rfl⟩
  all_goals obtain ⟨rfl, rfl⟩ := Prod.mk.inj (Option.some.inj hs)
  · exact .still hw hreg rfl trivial (.inl rfl) (Nat.le_refl _)
  · exact .still hw hreg hstore trivial (.inl rfl) (hcount ▸ Nat.sub_le _ _)
  · exact .still hw hreg rfl hok' (.inl rfl) (Nat.le_refl _)
  · exact .putVersion hw hreg ⟨hd, known_setVersion⟩ (.inl rfl) (Nat.le_refl _)
  · exact .putSecret (d.rolledBack v reason) hw hreg hd rfl hv trivial (.inr (.inr rfl)) (.inl rfl)
      (Nat.le_refl _)

theorem move_recover {message : String} {canary : Bool} (hw : WellFormed s.store)
    (hreg : (s.store.getSecret name).isSome = true) (hr : r.Ok name s.store)
    (hcanary : stage.canary = canary) :
    Move name s s stage
      (.restoring r message canary (.secret (s.store.getSecret r.secret.name))) := by
  obtain rfl := hr.named
  obtain ⟨d, hd⟩ := Option.isSome_iff_exists.1 hreg
  refine .still hw hreg rfl ⟨hr, d, hd, hw.name_eq hd⟩ (.inl rfl) ?_
  rw [hcanary]
  cases canary <;> simp [Stage.canary, le_pred_succ]

/-- What each step does. -/
theorem next_move {st : State} (hw : WellFormed st.service.store)
    (hreg : (st.service.store.getSecret name).isSome = true)
    (hok : stage.Ok name st.service.store) (hregular : stage.regular name i st)
    (hs : stage.next o name i st.service = some (stage', s')) :
    Move name st.service s' stage stage' := by
  have hvalid := hw.valid hreg
  cases stage with
  | secret startedAt read =>
    cases read with
    | none =>
      obtain ⟨rfl, rfl⟩ := Prod.mk.inj (Option.some.inj hs)
      exact .still hw hreg rfl trivial (.inl rfl) (Nat.le_refl _)
    | some d =>
      obtain ⟨rfl, rfl⟩ := Prod.mk.inj (Option.some.inj hs)
      obtain ⟨rfl, hknown⟩ := hok d rfl
      exact .still hw hreg rfl ⟨rfl, hknown, fun v hv => hw.id_eq hv⟩ (.inl rfl) (Nat.le_refl _)
  | version startedAt d read =>
    obtain ⟨rfl, hknown, hread⟩ := hok
    cases read with
    | none =>
      obtain ⟨rfl, rfl⟩ := Prod.mk.inj (Option.some.inj hs)
      exact .still hw hreg rfl trivial (.inl rfl) (Nat.le_refl _)
    | some v =>
      rw [Stage.next, awaitPhase_eq (r := ⟨startedAt, d, v⟩) hvalid] at hs
      obtain ⟨rfl, rfl⟩ := Prod.mk.inj (Option.some.inj hs)
      have hold : Known st.service.store d.name v.id := by
        rw [hread v rfl]
        exact hknown
      exact .putSecret (d.inPhase .preparing 0) hw hreg rfl rfl hknown ⟨rfl, hknown, hold⟩
        (.inl hregular) (.inl rfl) (Nat.le_refl _)
  | prepared r =>
    obtain ⟨rfl, rfl⟩ := Prod.mk.inj (Option.some.inj hs)
    exact .still hw hreg rfl hok (.inl rfl) (Nat.le_refl _)
  | generating r =>
    have hr : r.Ok name st.service.store := hok
    rcases hg : i.generated with message | value
    · rw [next_generating_throws hg] at hs
      obtain ⟨rfl, rfl⟩ := Prod.mk.inj (Option.some.inj hs)
      exact move_recover hw hreg hr rfl
    by_cases hsame : value = "" ∨ value = r.oldVersion.value
    · rw [next_generating_same hg hsame] at hs
      obtain ⟨rfl, rfl⟩ := Prod.mk.inj (Option.some.inj hs)
      exact move_recover hw hreg hr rfl
    · obtain rfl := hr.named
      rw [next_generating hg hsame, await_putVersion hvalid] at hs
      obtain ⟨rfl, rfl⟩ := Prod.mk.inj (Option.some.inj hs)
      refine .putVersion hw hreg ⟨hr.mono fun _ h => h.setVersion, known_setVersion⟩
        (.inr (.inr ⟨rfl, ?_⟩)) (Nat.le_refl _)
      have hnew := hregular value hg
      show ¬ (st.service.store.getVersion r.secret.name i.versionId).isSome = true
      rw [hnew]
      exact Bool.false_ne_true
  | stored r candidate =>
    obtain ⟨rfl, rfl⟩ := Prod.mk.inj (Option.some.inj hs)
    exact .still hw hreg rfl hok (.inr rfl) (Nat.le_refl _)
  | validating r candidate =>
    obtain ⟨hr, hc⟩ := hok
    rcases hv : i.hook with message | _
    · rw [next_validating_throws hv] at hs
      obtain ⟨rfl, rfl⟩ := Prod.mk.inj (Option.some.inj hs)
      exact move_recover hw hreg hr rfl
    · obtain rfl := hr.named
      rw [next_validating hv, awaitPhase_eq hvalid] at hs
      obtain ⟨rfl, rfl⟩ := Prod.mk.inj (Option.some.inj hs)
      exact .putSecret (r.secret.inPhase .canary o.canaryPercent) hw hreg rfl rfl hr.pointed
        ⟨hr, hc⟩ (.inl (hregular hv)) (.inr rfl) (Nat.le_refl _)
  | inCanary r candidate =>
    obtain ⟨rfl, rfl⟩ := Prod.mk.inj (Option.some.inj hs)
    exact .still hw hreg rfl hok (.inr rfl) (Nat.le_refl _)
  | applying r candidate =>
    obtain ⟨hr, hc⟩ := hok
    rcases ha : i.hook with message | _
    · rw [next_applying_throws ha] at hs
      obtain ⟨rfl, rfl⟩ := Prod.mk.inj (Option.some.inj hs)
      exact move_recover hw hreg hr rfl
    · rw [next_applying ha] at hs
      obtain ⟨rfl, rfl⟩ := Prod.mk.inj (Option.some.inj hs)
      exact .still hw hreg rfl ⟨hr, hc, fun d hd => (hw.name_eq hd).trans hr.named⟩ (.inr rfl)
        (le_pred_succ _)
  | promoting r candidate place => exact move_promoting hw hreg hok hs
  | promoted r candidate =>
    obtain ⟨rfl, rfl⟩ := Prod.mk.inj (Option.some.inj hs)
    exact .still hw hreg rfl trivial (.inl rfl) (Nat.le_refl _)
  | thrown r message canary =>
    obtain ⟨rfl, rfl⟩ := Prod.mk.inj (Option.some.inj hs)
    exact move_recover hw hreg hok rfl
  | restoring r message canary place => exact move_restoring hw hreg hok hregular hs
  | restored r message =>
    obtain ⟨rfl, rfl⟩ := Prod.mk.inj (Option.some.inj hs)
    exact .still hw hreg rfl trivial (.inl rfl) (Nat.le_refl _)
  | undoing previousVersionId reason place => exact move_undoing hw hreg hok hs
  | resolved _ | undone | rejected _ => cases hs

/-- The version that a rotation has promoted. -/
def Stage.promotes : Stage → Option String
  | .promoting _ candidate .described | .promoted _ candidate => some candidate.id
  | .resolved result => if result.phase = .complete then result.newVersionId else none
  | _ => none

theorem await_cases {π : Type} {x : Block PUnit} {place : π} {thrown : String → π} {y : π}
    (h : await x place thrown s = (y, s')) : y = place ∨ ∃ message, y = thrown message := by
  unfold await at h
  split at h
  · exact .inl (Prod.mk.inj h).1.symm
  · exact .inr ⟨_, (Prod.mk.inj h).1.symm⟩

theorem promoteNext_described {cid : String} {now : ℤ} {place : Promoting}
    (h : promoteNext o name cid now place s = (.waits .described, s')) :
    ∃ d previous v now, place = .activated d previous v now := by
  unfold promoteNext at h
  split at h
  case h_8 => exact ⟨_, _, _, _, rfl⟩
  all_goals first
    | cases h
    | rcases await_cases h with h | ⟨_, h⟩ <;> cases h

theorem promoteNext_returns {cid : String} {now : ℤ} {place : Promoting}
    (h : promoteNext o name cid now place s = (.returns, s')) : place = .described := by
  unfold promoteNext at h
  split at h
  case h_9 => rfl
  all_goals first
    | cases h
    | rcases await_cases h with h | ⟨_, h⟩ <;> cases h

/-- A version is promoted where its descriptor is written. -/
theorem next_promotes (hs : stage.next o name i s = some (stage', s'))
    (hid : stage'.promotes = some id) : stage.promotes = some id ∨
      ∃ r candidate d previous v now,
        stage = .promoting r candidate (.activated d previous v now) ∧ candidate.id = id := by
  cases stage with
  | promoting r candidate place =>
    rcases hn : promoteNext o r.secret.name candidate.id i.now place s with ⟨next, s₁⟩
    rw [Stage.next, hn] at hs
    cases next with
    | waits place' =>
      obtain ⟨rfl, rfl⟩ := Prod.mk.inj (Option.some.inj hs)
      cases place' with
      | described =>
        obtain ⟨d, previous, v, now, rfl⟩ := promoteNext_described hn
        exact .inr ⟨r, candidate, d, previous, v, now, rfl, Option.some.inj hid⟩
      | _ => cases hid
    | returns =>
      obtain ⟨rfl, rfl⟩ := Prod.mk.inj (Option.some.inj hs)
      obtain rfl := promoteNext_returns hn
      exact .inl hid
    | throws message =>
      obtain ⟨rfl, rfl⟩ := Prod.mk.inj (Option.some.inj hs)
      cases hid
  | promoted r candidate =>
    obtain ⟨rfl, rfl⟩ := Prod.mk.inj (Option.some.inj hs)
    exact .inl hid
  | secret _ read =>
    cases read <;> obtain ⟨rfl, rfl⟩ := Prod.mk.inj (Option.some.inj hs) <;> cases hid
  | version _ d read =>
    cases read with
    | none =>
      obtain ⟨rfl, rfl⟩ := Prod.mk.inj (Option.some.inj hs)
      cases hid
    | some v => rcases await_cases (Option.some.inj hs) with rfl | ⟨_, rfl⟩ <;> cases hid
  | prepared _ | stored _ _ | inCanary _ _ | thrown _ _ _ | restored _ _ =>
    obtain ⟨rfl, rfl⟩ := Prod.mk.inj (Option.some.inj hs)
    cases hid
  | generating r =>
    rcases hg : i.generated with message | value
    · rw [next_generating_throws hg] at hs
      obtain ⟨rfl, rfl⟩ := Prod.mk.inj (Option.some.inj hs)
      cases hid
    by_cases hsame : value = "" ∨ value = r.oldVersion.value
    · rw [next_generating_same hg hsame] at hs
      obtain ⟨rfl, rfl⟩ := Prod.mk.inj (Option.some.inj hs)
      cases hid
    · rw [next_generating hg hsame] at hs
      rcases await_cases (Option.some.inj hs) with rfl | ⟨_, rfl⟩ <;> cases hid
  | validating r candidate =>
    rcases hv : i.hook with message | _
    · rw [next_validating_throws hv] at hs
      obtain ⟨rfl, rfl⟩ := Prod.mk.inj (Option.some.inj hs)
      cases hid
    · rw [next_validating hv] at hs
      rcases await_cases (Option.some.inj hs) with rfl | ⟨_, rfl⟩ <;> cases hid
  | applying r candidate =>
    rcases ha : i.hook with message | _
    · rw [next_applying_throws ha] at hs
      obtain ⟨rfl, rfl⟩ := Prod.mk.inj (Option.some.inj hs)
      cases hid
    · rw [next_applying ha] at hs
      obtain ⟨rfl, rfl⟩ := Prod.mk.inj (Option.some.inj hs)
      cases hid
  | restoring r message canary place =>
    rcases hn : rollbackNext r.secret.name r.oldVersion.id message i.hook place s with ⟨next, s₁⟩
    rw [Stage.next, hn] at hs
    cases next <;> obtain ⟨rfl, rfl⟩ := Prod.mk.inj (Option.some.inj hs) <;> cases hid
  | undoing previousVersionId reason place =>
    rcases hn : rollbackNext name previousVersionId reason i.hook place s with ⟨next, s₁⟩
    rw [Stage.next, hn] at hs
    cases next <;> obtain ⟨rfl, rfl⟩ := Prod.mk.inj (Option.some.inj hs) <;> cases hid
  | resolved _ | undone | rejected _ => cases hs

end Moves

section Runs

variable {stage stage' : Stage} {call : ℕ} {i : Input} {v : Service}

/-- What a call counts for among the active canaries. -/
def share (_ : ℕ) (stage : Stage) : ℤ := stage.canary.toNat

/-- What is so along a run of regular steps: a candidate that is still to be promoted is in the
store, has not been current, and is the candidate of one call; and no more canaries are active than
there are calls that will end one. -/
structure Inv (name : String) (h : List (Taken State Action)) (s : State) : Prop where
  wellFormed : WellFormed s.service.store
  registered : (s.service.store.getSecret name).isSome = true
  calls : ∀ call stage, s.calls.get call = some stage → stage.Ok name s.service.store
  numbered : ∀ call stage, s.calls.get call = some stage → call < s.nextCall
  fresh : ∀ call stage id, s.calls.get call = some stage → stage.candidate = some id →
    Known s.service.store name id ∧ pointer name s.service.store ≠ some id
      ∧ ∀ t ∈ h, Before name t ≠ some id
  apart : ∀ call call' stage stage' id, s.calls.get call = some stage →
    s.calls.get call' = some stage' → stage.candidate = some id → stage'.candidate = some id →
    call = call'
  past : ∀ t ∈ h, ∀ id, Before name t = some id → Known s.service.store name id
  canaries : (s.service.metrics.activeCanaries : ℤ) ≤ s.calls.sum share

theorem share_nonneg (call : ℕ) (stage : Stage) : 0 ≤ share call stage := Int.natCast_nonneg _

theorem Inv.known_pointer (hi : Inv name h s) {id : String}
    (hp : pointer name s.service.store = some id) : Known s.service.store name id := by
  obtain ⟨secret, hs, rfl⟩ := Option.map_eq_some_iff.1 hp
  exact hi.wellFormed.known hs

theorem known_undoes {store : InMemorySecretStore} {id : String} (hok : stage.Ok name store)
    (hid : stage.undoes = some id) : Known store name id := by
  unfold Stage.undoes at hid
  split at hid
  · obtain rfl := Option.some.inj hid
    exact hok.2
  · cases hid

theorem regular_undoes {id : String} (hregular : stage.regular name i s)
    (hid : stage.undoes = some id) {call' : ℕ} (hc : s.calls.get call' = some stage') :
    stage'.candidate ≠ some id := by
  unfold Stage.undoes at hid
  split at hid
  · obtain rfl := Option.some.inj hid
    exact hregular call' stage' hc
  · cases hid

theorem canaries_le {calls : OrdMap ℕ Stage} {n n' : ℕ} (hc : calls.get call = some stage)
    (hle : (n : ℤ) ≤ calls.sum share)
    (hn : n' ≤ n - stage.canary.toNat + stage'.canary.toNat) :
    (n' : ℤ) ≤ (calls.set call stage').sum share := by
  have hterm : calls.term share call = stage.canary.toNat := by
    rw [OrdMap.term, hc]
    rfl
  have hothers : 0 ≤ (calls.delete call).sum share :=
    List.sum_nonneg fun x hx => by
      obtain ⟨e, -, rfl⟩ := List.mem_map.1 hx
      exact share_nonneg _ _
  rw [OrdMap.sum_delete, hterm] at hothers
  have hshare : share call stage' = stage'.canary.toNat := rfl
  rw [OrdMap.sum_set, hterm, hshare]
  omega

/-- A version is not made current that is neither the candidate of the call nor the version a
rollback by hand is to. -/
theorem Move.pointer_ne (hm : Move name s.service v stage stage') {id : String}
    (hne : pointer name s.service.store ≠ some id)
    (hcandidate : stage.candidate = some id → stage'.candidate = some id)
    (hundoes : stage.undoes ≠ some id) : pointer name v.store ≠ some id := by
  intro hp
  cases hm.points with
  | same h => exact hne (h.symm.trans hp)
  | promoted id' h hnone h' =>
    obtain rfl := Option.some.inj (h'.symm.trans hp)
    rw [hcandidate h] at hnone
    cases hnone
  | undone id' h h' =>
    obtain rfl := Option.some.inj (h'.symm.trans hp)
    exact hundoes h

/-- A step of a call keeps the invariant. -/
theorem Inv.resume (hi : Inv name h s) (hc : s.calls.get call = some stage)
    (hregular : stage.regular name i s) (hm : Move name s.service v stage stage') :
    Inv name (⟨s, .resume call i, { s with service := v, calls := s.calls.set call stage' }⟩ :: h)
      { s with service := v, calls := s.calls.set call stage' } where
  wellFormed := hm.wellFormed
  registered := hm.registered
  calls call' stage'' hget := by
    rcases eq_or_ne call' call with rfl | hne
    · rw [OrdMap.get_set_self] at hget
      obtain rfl := Option.some.inj hget
      exact hm.ok
    · rw [OrdMap.get_set_of_ne _ _ hne] at hget
      exact (hi.calls call' stage'' hget).mono hm.grows
  numbered call' stage'' hget := by
    rcases eq_or_ne call' call with rfl | hne
    · exact hi.numbered call' stage hc
    · rw [OrdMap.get_set_of_ne _ _ hne] at hget
      exact hi.numbered call' stage'' hget
  fresh call' stage'' id hget hid := by
    rw [List.forall_mem_cons]
    rcases eq_or_ne call' call with rfl | hne
    · rw [OrdMap.get_set_self] at hget
      obtain rfl := Option.some.inj hget
      rcases hm.candidate with hnone | hsame | ⟨id', hnew, hunknown, hknown⟩
      · rw [hnone] at hid
        cases hid
      · have hold : stage.candidate = some id := hsame.symm.trans hid
        obtain ⟨hknown, hpointer, hbefore⟩ := hi.fresh call' stage id hc hold
        refine ⟨hm.grows _ hknown, hm.pointer_ne hpointer (fun _ => hid) fun hundoes => ?_,
          hpointer, hbefore⟩
        exact regular_undoes hregular hundoes hc hold
      · obtain rfl := Option.some.inj (hnew.symm.trans hid)
        have hpointer : pointer name s.service.store ≠ some id' :=
          fun hp => hunknown (hi.known_pointer hp)
        refine ⟨hknown, hm.pointer_ne hpointer (fun _ => hid) fun hundoes => ?_, hpointer,
          fun t ht hbefore => hunknown (hi.past t ht id' hbefore)⟩
        exact hunknown (known_undoes (hi.calls call' stage hc) hundoes)
    · rw [OrdMap.get_set_of_ne _ _ hne] at hget
      obtain ⟨hknown, hpointer, hbefore⟩ := hi.fresh call' stage'' id hget hid
      refine ⟨hm.grows _ hknown, hm.pointer_ne hpointer (fun hold => ?_) fun hundoes => ?_,
        hpointer, hbefore⟩
      · exact absurd (hi.apart call' call stage'' stage id hget hc hid hold) hne
      · exact regular_undoes hregular hundoes hget hid
  apart call₁ call₂ stage₁ stage₂ id h₁ h₂ hid₁ hid₂ := by
    have hother : ∀ call' stage'', call' ≠ call → s.calls.get call' = some stage'' →
        stage''.candidate = some id → stage'.candidate ≠ some id := by
      intro call' stage'' hne hget hid hid'
      rcases hm.candidate with hnone | hsame | ⟨id', hnew, hunknown, -⟩
      · rw [hnone] at hid'
        cases hid'
      · exact hne (hi.apart call' call stage'' stage id hget hc hid (hsame.symm.trans hid'))
      · obtain rfl := Option.some.inj (hnew.symm.trans hid')
        exact hunknown (hi.fresh call' stage'' id' hget hid).1
    rcases eq_or_ne call₁ call with rfl | hne₁ <;> rcases eq_or_ne call₂ call₁ with rfl | hne₂
    · rfl
    · rw [OrdMap.get_set_self] at h₁
      rw [OrdMap.get_set_of_ne _ _ hne₂] at h₂
      obtain rfl := Option.some.inj h₁
      exact absurd hid₁ (hother call₂ stage₂ hne₂ h₂ hid₂)
    · rfl
    · rw [OrdMap.get_set_of_ne _ _ hne₁] at h₁
      rcases eq_or_ne call₂ call with rfl | hne
      · rw [OrdMap.get_set_self] at h₂
        obtain rfl := Option.some.inj h₂
        exact absurd hid₂ (hother call₁ stage₁ hne₁ h₁ hid₁)
      · rw [OrdMap.get_set_of_ne _ _ hne] at h₂
        exact hi.apart call₁ call₂ stage₁ stage₂ id h₁ h₂ hid₁ hid₂
  past t ht id hbefore := by
    rcases List.mem_cons.1 ht with rfl | ht
    · exact hm.grows _ (hi.known_pointer hbefore)
    · exact hm.grows _ (hi.past t ht id hbefore)
  canaries := canaries_le hc hi.canaries hm.canaries

/-- A new call, which has no candidate and is no canary. -/
theorem Inv.begin {a : Action} (hi : Inv name h s) (hok : stage.Ok name s.service.store)
    (hcandidate : stage.candidate = none) (hcanary : stage.canary = false) :
    Inv name (⟨s, a, s.begin stage⟩ :: h) (s.begin stage) := by
  have hget : ∀ call stage', (s.begin stage).calls.get call = some stage' →
      (call = s.nextCall ∧ stage' = stage) ∨ s.calls.get call = some stage' := by
    intro call stage' hget
    rcases eq_or_ne call s.nextCall with rfl | hne
    · rw [State.begin, OrdMap.get_set_self] at hget
      exact .inl ⟨rfl, (Option.some.inj hget).symm⟩
    · rw [State.begin, OrdMap.get_set_of_ne _ _ hne] at hget
      exact .inr hget
  have hfree : s.calls.get s.nextCall = none := by
    by_contra hne
    obtain ⟨stage', hs⟩ := Option.ne_none_iff_exists'.1 hne
    exact lt_irrefl _ (hi.numbered _ stage' hs)
  refine ⟨hi.wellFormed, hi.registered, fun call stage' hs => ?_, fun call stage' hs => ?_,
    fun call stage' id hs hid => ?_, fun call call' stage₁ stage₂ id h₁ h₂ hid₁ hid₂ => ?_,
    fun t ht id hbefore => ?_, ?_⟩
  · rcases hget call stage' hs with ⟨-, rfl⟩ | hs
    · exact hok
    · exact hi.calls call stage' hs
  · rcases hget call stage' hs with ⟨rfl, -⟩ | hs
    · exact Nat.lt_succ_self _
    · exact Nat.lt_succ_of_lt (hi.numbered call stage' hs)
  · rcases hget call stage' hs with ⟨-, rfl⟩ | hs
    · rw [hcandidate] at hid
      cases hid
    · obtain ⟨hknown, hpointer, hbefore⟩ := hi.fresh call stage' id hs hid
      exact ⟨hknown, hpointer, List.forall_mem_cons.2 ⟨hpointer, hbefore⟩⟩
  · rcases hget call stage₁ h₁ with ⟨-, rfl⟩ | h₁
    · rw [hcandidate] at hid₁
      cases hid₁
    rcases hget call' stage₂ h₂ with ⟨-, rfl⟩ | h₂
    · rw [hcandidate] at hid₂
      cases hid₂
    · exact hi.apart call call' stage₁ stage₂ id h₁ h₂ hid₁ hid₂
  · rcases List.mem_cons.1 ht with rfl | ht
    · exact hi.known_pointer hbefore
    · exact hi.past t ht id hbefore
  · have hshare : share s.nextCall stage = 0 := by
      rw [share, hcanary]
      rfl
    have hterm : s.calls.term share s.nextCall = 0 := by
      rw [OrdMap.term, hfree]
      rfl
    rw [State.begin, OrdMap.sum_set, hterm, hshare, sub_zero, add_zero]
    exact hi.canaries

theorem Inv.step {a : Action} (hi : Inv name h s) (hregular : Regular name s a)
    (hs : step o name s a = some s') : Inv name (⟨s, a, s'⟩ :: h) s' := by
  obtain ⟨d, hd⟩ := Option.isSome_iff_exists.1 hi.registered
  have hname := hi.wellFormed.name_eq hd
  cases a with
  | rotate now =>
    obtain rfl := Option.some.inj hs
    refine hi.begin (fun d' hd' => ?_) rfl rfl
    exact ⟨hi.wellFormed.name_eq hd', hi.wellFormed.known hd'⟩
  | rollback id reason =>
    obtain rfl := Option.some.inj hs
    exact hi.begin ⟨d, hd, hname⟩ rfl rfl
  | resume call i =>
    obtain ⟨⟨stage', v⟩, hnext, rfl⟩ := Option.map_eq_some_iff.1 hs
    obtain ⟨stage, hc, hnext⟩ := Option.bind_eq_some_iff.1 hnext
    have hstage := hregular stage hc
    have hm := next_move hi.wellFormed hi.registered (hi.calls call stage hc) hstage hnext
    exact hi.resume hc hstage hm

theorem inv_init (hinit : (system o name).init s) : Inv name [] s := by
  obtain ⟨kind, value, rotateAfter, now, id, secret, hreturns, hcalls⟩ := hinit
  simp [registerSecret, assertValidName] at hreturns
  obtain ⟨hname, -, -, ⟨-, hservice⟩, rfl⟩ := hreturns
  have hnone : ∀ call stage, s.calls.get call ≠ some stage := by
    rw [hcalls]
    exact fun _ _ h => by cases h
  have hwell : WellFormed s.service.store := by
    rw [hservice]
    exact ⟨[id], Sound.register Sound.empty hname List.mem_cons_self rfl⟩
  have hreg : (s.service.store.getSecret name).isSome = true := by
    rw [hservice]
    show (InMemorySecretStore.getSecret (InMemorySecretStore.setSecret _ _) _).isSome = true
    rw [getSecret_setSecret, if_pos rfl]
    rfl
  refine ⟨hwell, hreg, fun call stage h => absurd h (hnone call stage),
    fun call stage h => absurd h (hnone call stage),
    fun call stage _ h => absurd h (hnone call stage),
    fun call _ stage _ _ h => absurd h (hnone call stage), List.forall_mem_nil _, ?_⟩
  rw [hcalls, hservice]
  exact le_rfl

theorem inv_of_run (hr : Run (system o name) h s) (hC : Along (Regular name) h) : Inv name h s := by
  induction hr with
  | start hinit => exact inv_init hinit
  | next _ hs ih => exact (ih hC.tail).step hC.head hs

/-- A rotation that resolves as complete has promoted its version. -/
theorem promotes_of_run (hr : Run (system o name) h s) (hC : Along (Regular name) h) :
    ∀ {call : ℕ} {stage : Stage} {id : String}, s.calls.get call = some stage →
      stage.promotes = some id → ∃ u ∈ h, Promotes call id u := by
  induction hr with
  | start hinit =>
    obtain ⟨-, -, -, -, -, -, -, hcalls⟩ := hinit
    intro call stage id hget
    rw [hcalls] at hget
    cases hget
  | @next h s s' a hr hs ih =>
    intro call stage' id hget hid
    have hold : ∀ stage, s.calls.get call = some stage → stage.promotes = some id →
        ∃ u ∈ (⟨s, a, s'⟩ :: h : List (Taken State Action)), Promotes call id u := by
      intro stage hc hid
      obtain ⟨u, hu, hpromotes⟩ := ih hC.tail hc hid
      exact ⟨u, List.mem_cons_of_mem _ hu, hpromotes⟩
    cases a with
    | rotate now =>
      obtain rfl := Option.some.inj hs
      rcases OrdMap.of_get_set hget with ⟨-, rfl⟩ | ⟨-, hget⟩
      · cases hid
      · exact hold stage' hget hid
    | rollback previousVersionId reason =>
      obtain rfl := Option.some.inj hs
      rcases OrdMap.of_get_set hget with ⟨-, rfl⟩ | ⟨-, hget⟩
      · cases hid
      · exact hold stage' hget hid
    | resume call' i =>
      obtain ⟨⟨next, v⟩, hnext, rfl⟩ := Option.map_eq_some_iff.1 hs
      obtain ⟨stage, hc, hgoes⟩ := Option.bind_eq_some_iff.1 hnext
      rcases OrdMap.of_get_set hget with ⟨rfl, rfl⟩ | ⟨-, hget⟩
      · rcases next_promotes hgoes hid with hid | ⟨r, c, d, previous, w, now, rfl, rfl⟩
        · exact hold stage hc hid
        · obtain ⟨-, -, -, hw⟩ := (inv_of_run hr hC.tail).calls call _ hc
          exact ⟨_, List.mem_cons_self, i, r, c, d, previous, w, now, rfl, hc, hw⟩
      · exact hold stage' hget hid

theorem lasting_of_inv {a : Action} (hi : Inv name h s) (hregular : Regular name s a)
    (hs : step o name s a = some s') : Lasting name ⟨s, a, s'⟩ h := by
  intro hhand hmoved call result id _ _ _ l u e hh _ w hw hbefore
  cases a with
  | rotate now =>
    obtain rfl := Option.some.inj hs
    exact hmoved rfl
  | rollback id reason =>
    obtain rfl := Option.some.inj hs
    exact hmoved rfl
  | resume call' i =>
    obtain ⟨⟨stage', v⟩, hnext, rfl⟩ := Option.map_eq_some_iff.1 hs
    obtain ⟨stage, hc, hnext⟩ := Option.bind_eq_some_iff.1 hnext
    have hm := next_move hi.wellFormed hi.registered (hi.calls call' stage hc) (hregular stage hc)
      hnext
    cases hm.points with
    | same hp => exact hmoved hp
    | promoted id' hcandidate _ hp =>
      -- the candidate has not been current
      have hmem : w ∈ h := hh ▸ List.mem_append_right _ hw
      exact (hi.fresh call' stage id' hc hcandidate).2.2 w hmem (hbefore.trans hp)
    | undone id' hundoes _ =>
      unfold Stage.undoes at hundoes
      split at hundoes
      · exact hhand ⟨call', i, _, _, _, rfl, hc⟩
      · cases hundoes

theorem no_canaries (hi : Inv name h s) (hquiet : Quiet s) :
    s.service.metrics.activeCanaries = 0 := by
  have hzero : s.calls.sum share = 0 := by
    refine List.sum_eq_zero fun x hx => ?_
    obtain ⟨⟨call, stage⟩, he, rfl⟩ := List.mem_map.1 hx
    have hsettled := hquiet call stage (OrdMap.mem_entries_iff.1 he)
    cases stage <;> first | rfl | cases hsettled
  have hle := hi.canaries
  rw [hzero] at hle
  omega

/-- Along the runs of regular steps no success is undone, but by hand, and when all calls have
settled no canary is active. -/
theorem success_lasts (hr : Run (system o name) h s) (hC : Along (Regular name) h) :
    Throughout (Lasting name) h ∧ (Quiet s → s.service.metrics.activeCanaries = 0) := by
  refine ⟨?_, no_canaries (inv_of_run hr hC)⟩
  induction hr with
  | start _ => trivial
  | next hr hs ih => exact ⟨lasting_of_inv (inv_of_run hr hC.tail) hC.head hs, ih hC.tail⟩

def mainSecret : SecretDescriptor :=
  { name := "database/main", kind := .database, currentVersionId := "v1", rotateAfter := 1000,
    canaryPercent := 0, phase := .idle, lastRotatedAt := some 0 }

def registered : State where
  service :=
    { store := (InMemorySecretStore.setVersion {} "database/main"
        (firstVersion testOptions "initial-password" 0 "v1")).setSecret mainSecret }

theorem init_registered : (system testOptions "database/main").init registered := by
  refine ⟨.database, "initial-password", none, 0, "v1", mainSecret, ?_, rfl⟩
  have hname : validName "database/main" = true := by decide +kernel
  simp [registerSecret, assertValidName, hname, registered, mainSecret, testOptions]

/-- The call goes on, and a hook that it has called has returned. -/
def goesOn (call : ℕ) (value id : String) : Action := .resume call ⟨1001, .ok value, id, .ok ⟨⟩⟩

/-- A sufficient test of a regular step. -/
def Stage.plain (name : String) (i : Input) (store : InMemorySecretStore) : Stage → Bool
  | .version _ d (some _) => pointer name store = some d.currentVersionId
  | .generating _ => (store.getVersion name i.versionId).isNone
  | .validating r _ => pointer name store = some r.secret.currentVersionId
  | .restoring .. | .undoing .. => false
  | _ => true

/-- The test, of a step. -/
def plainStep (name : String) (t : Taken State Action) : Bool :=
  match t.act with
  | .resume call i => (t.pre.calls.get call).all (·.plain name i t.pre.service.store)
  | _ => true

theorem regular_of_plain {t : Taken State Action} (hplain : plainStep name t = true) :
    Regular name t.pre t.act := by
  obtain ⟨s, a, s'⟩ := t
  cases a with
  | rotate now | rollback id reason => trivial
  | resume call i =>
    intro stage hc
    have hstage : stage.plain name i s.service.store = true := by
      simpa [plainStep, show s.calls.get call = some stage from hc] using hplain
    unfold Stage.regular
    split
    · exact of_decide_eq_true hstage
    · exact fun _ _ => Option.isNone_iff_eq_none.1 hstage
    · exact fun _ => of_decide_eq_true hstage
    · cases hstage
    · cases hstage
    · cases hstage
    · trivial

/-- The second rotation begins when the first has promoted its version, and goes on when that has
resolved. -/
def oneByOne : List Action :=
  .rotate 1000 :: List.replicate 13 (goesOn 0 "rotated-password" "v2")
    ++ .rotate 1000 :: List.replicate 2 (goesOn 0 "rotated-password" "v2")
    ++ List.replicate 15 (goesOn 1 "rotated-again" "v3")

theorem lasting_one_by_one : ∃ h s, Run (system testOptions "database/main") h s
    ∧ pointer "database/main" s.service.store = some "v3" ∧ Throughout (Lasting "database/main") h
    ∧ s.service.metrics.activeCanaries = 0 := by
  obtain ⟨h, s, hr, ht⟩ := Sys.exists_run init_registered oneByOne
    (p := fun x => x.1.all (plainStep "database/main")
      && pointer "database/main" x.2.service.store = some "v3"
      && x.2.calls.entries.all fun e => e.2.settled) (by decide +kernel)
  simp only [Bool.and_eq_true, decide_eq_true_eq, List.all_eq_true] at ht
  obtain ⟨⟨hplain, hpointer⟩, hsettled⟩ := ht
  have hlasts := success_lasts hr fun t ht => regular_of_plain (hplain t ht)
  exact ⟨h, s, hr, hpointer, hlasts.1, hlasts.2 fun call stage hc =>
    hsettled (call, stage) (OrdMap.mem_entries_iff.2 hc)⟩

/-- The second rotation waits for its generator until the first has resolved. -/
def firstWins : List Action :=
  .rotate 1000 :: .rotate 1000 :: List.replicate 3 (goesOn 1 "rotated-again" "v3")
    ++ List.replicate 15 (goesOn 0 "rotated-password" "v2")
    ++ List.replicate 3 (goesOn 1 "rotated-again" "v3")

/-- A call of `rollback`. -/
def Stage.byHand : Stage → Bool
  | .undoing .. => true
  | _ => false

/-- The last step makes the version current with which the run began, after the first call has
resolved with another one. -/
def undoesFirst (name : String) : List (Taken State Action) → Bool
  | [] => false
  | t :: h => h.all (plainStep name) && t.pre.calls.entries.all (fun e => !e.2.byHand)
    && Before name t = some "v2" && After name t = some "v1"
    && (t.pre.calls.get 0).any (fun stage => stage.promotes = some "v2" && stage.settled)
    && h.getLast?.any fun w => Before name w = some "v1"

theorem resolved_of_settled {id : String} (hsettled : stage.settled = true)
    (hid : stage.promotes = some id) :
    ∃ result, stage = .resolved result ∧ result.phase = .complete
      ∧ result.newVersionId = some id := by
  cases stage with
  | resolved result =>
    rw [Stage.promotes, Option.ite_none_right_eq_some] at hid
    exact ⟨result, rfl, hid.1, hid.2⟩
  | undone | rejected _ => cases hid
  | _ => cases hsettled

theorem not_lasting_of_undoesFirst {t : Taken State Action} (hr : Run (system o name) h t.pre)
    (hundoes : undoesFirst name (t :: h) = true) : ¬ Lasting name t h := by
  simp only [undoesFirst, Bool.and_eq_true, List.all_eq_true, decide_eq_true_eq, Option.any_eq_true]
    at hundoes
  obtain ⟨⟨⟨⟨⟨hplain, hhand⟩, hbefore⟩, hafter⟩, stage, hc, hid, hsettled⟩, w, hlast, hw⟩ := hundoes
  obtain ⟨result, rfl, hphase, hnew⟩ := resolved_of_settled hsettled hid
  intro hlasting
  have hby : ¬ ByHand t := by
    rintro ⟨call, i, id, reason, place, -, hundoing⟩
    cases hhand _ (OrdMap.mem_entries_iff.2 hundoing)
  have hmoved : After name t ≠ Before name t := by
    rw [hbefore, hafter]
    decide
  have hC : Along (Regular name) h := fun t ht => regular_of_plain (hplain t ht)
  obtain ⟨u, hu, hpromotes⟩ := promotes_of_run hr hC hc hid
  obtain ⟨l, e, rfl⟩ := List.append_of_mem hu
  rw [List.getLast?_append_cons] at hlast
  exact hlasting hby hmoved 0 result "v2" hc hphase hnew l u e rfl hpromotes w
    (List.mem_of_getLast? hlast) (hw.trans hafter.symm)

/-- The second rotation writes the descriptor back that it read before the first one. -/
theorem success_undone : ∃ h s, Run (system testOptions "database/main") h s
    ∧ ¬ Throughout (Lasting "database/main") h := by
  obtain ⟨h, s, hr, ht⟩ := Sys.exists_run init_registered firstWins
    (p := fun x => undoesFirst "database/main" x.1) (by decide +kernel)
  refine ⟨h, s, hr, fun hlasting => ?_⟩
  cases hr with
  | start _ => cases ht
  | next hr _ => exact not_lasting_of_undoesFirst hr ht hlasting.1

end Runs

end Rotations

end Secrets

end VeriNode
