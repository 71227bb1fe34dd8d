import VeriNode.Security.SecretRotation

/-!
# One current version of a secret

A descriptor is written after the version it points to, and a version is written with its label;
`promote` takes the label from the version it leaves, `rollback` and `registerSecret` do not. So a
secret has one current version as long as nobody rolls back by hand to another version or registers
a secret again, and a rotation settles if its rollback hook lets a failed one be rolled back: these
are the histories in which that is so after each call (`one_current_iff`).
-/

namespace VeriNode

open Turn

namespace Secrets

section Property

/-- The descriptor points to a version, and that version is the one that is labelled as current. -/
def OneCurrent (store : InMemorySecretStore) : Prop :=
  ∀ name secret, store.getSecret name = some secret →
    ∃ version, store.getVersion name secret.currentVersionId = some version
      ∧ ∀ id version, store.getVersion name id = some version →
        (version.labels.state = .current ↔ id = secret.currentVersionId)

/-- The phase a rotation may leave. -/
def Settled (name : String) (store : InMemorySecretStore) : Prop :=
  ∀ secret, store.getSecret name = some secret →
    secret.phase = .complete ∨ secret.phase = .rolled_back

/-- After a call each secret has one current version, and a rotation has settled. -/
def Kept (t : Taken State Call) : Prop :=
  OneCurrent t.post.service.store ∧
    match t.act with
    | .rotate name _ => Settled name t.post.service.store
    | _ => True

/-- The generator or a hook fails, or the generated value is none or the old one. -/
def Inputs.Fails (i : Inputs) (old : String) : Prop :=
  match i.generated, i.validated, i.applied with
  | .ok value, .ok _, .ok _ => value = "" ∨ value = old
  | _, _, _ => True

/-- A secret is registered once, rolled back by hand only to its current version, and its rollback
hook returns when a rotation fails. -/
def Regular (s : State) : Call → Prop
  | .registerSecret name _ initialValue _ _ _ => validName name = true → initialValue ≠ "" →
      s.service.store.getSecret name = none
  | .rotate name i => ∀ secret old, s.service.store.getSecret name = some secret →
      s.service.store.getVersion name secret.currentVersionId = some old → i.Fails old.value →
      i.rolledBack = .ok ⟨⟩
  | .promote .. => True
  | .rollback name previousVersionId _ hook => ∀ secret,
      s.service.store.getSecret name = some secret →
      (s.service.store.getVersion name previousVersionId).isSome = true → hook = .ok ⟨⟩ →
      previousVersionId = secret.currentVersionId

end Property

section Store

variable {store : InMemorySecretStore} {secret : SecretDescriptor} {version : SecretVersion}
  {name id : String} {issued : List String}

open InMemorySecretStore

theorem getSecret_setSecret (store : InMemorySecretStore) (secret : SecretDescriptor)
    (name : String) : (store.setSecret secret).getSecret name
      = if name = secret.name then some secret else store.getSecret name := by
  unfold getSecret setSecret
  rw [OrdMap.get_set]

@[simp] theorem getSecret_setVersion (store : InMemorySecretStore) (name : String)
    (version : SecretVersion) (name' : String) :
    (store.setVersion name version).getSecret name' = store.getSecret name' := rfl

@[simp] theorem getVersion_setSecret (store : InMemorySecretStore) (secret : SecretDescriptor)
    (name id : String) :
    (store.setSecret secret).getVersion name id = store.getVersion name id := rfl

theorem getVersion_setVersion (store : InMemorySecretStore) (name : String)
    (version : SecretVersion) (name' id : String) :
    (store.setVersion name version).getVersion name' id
      = if name' = name ∧ id = version.id then some version else store.getVersion name' id := by
  unfold getVersion setVersion
  rw [OrdMap.get_set]
  by_cases hname : name' = name
  · rw [if_pos hname, Option.bind_some, OrdMap.get_set, hname]
    by_cases hid : id = version.id
    · rw [if_pos hid, if_pos ⟨rfl, hid⟩]
    · rw [if_neg hid, if_neg fun h => hid h.2]
      cases store.versions.get name <;> rfl
  · rw [if_neg hname, if_neg fun h => hname h.1]

@[simp] theorem getSecret_setSecret_self (store : InMemorySecretStore) (secret : SecretDescriptor) :
    (store.setSecret secret).getSecret secret.name = some secret := by
  rw [getSecret_setSecret, if_pos rfl]

@[simp] theorem getVersion_setVersion_self (store : InMemorySecretStore) (name : String)
    (version : SecretVersion) :
    (store.setVersion name version).getVersion name version.id = some version := by
  rw [getVersion_setVersion, if_pos ⟨rfl, rfl⟩]

theorem of_getSecret_setSecret {d : SecretDescriptor}
    (h : (store.setSecret secret).getSecret name = some d) :
    (name = secret.name ∧ d = secret) ∨ name ≠ secret.name ∧ store.getSecret name = some d := by
  rw [getSecret_setSecret] at h
  split_ifs at h with hname
  · exact .inl ⟨hname, (Option.some.inj h).symm⟩
  · exact .inr ⟨hname, h⟩

theorem of_getVersion_setVersion {name' : String} {v : SecretVersion}
    (h : (store.setVersion name version).getVersion name' id = some v) :
    ((name' = name ∧ id = version.id) ∧ v = version)
      ∨ ¬ (name' = name ∧ id = version.id) ∧ store.getVersion name' id = some v := by
  rw [getVersion_setVersion] at h
  split_ifs at h with hat
  · exact .inl ⟨hat, (Option.some.inj h).symm⟩
  · exact .inr ⟨hat, h⟩

theorem isSome_getVersion_setVersion {name' : String}
    (h : (store.getVersion name' id).isSome = true) :
    ((store.setVersion name version).getVersion name' id).isSome = true := by
  rw [getVersion_setVersion]
  split_ifs
  · rfl
  · exact h

/-- What the store never loses: its secrets have valid names and point to a version, and its
versions are of a secret and under the ids they were given. -/
structure Sound (issued : List String) (store : InMemorySecretStore) : Prop where
  named : ∀ name secret, store.getSecret name = some secret →
    secret.name = name ∧ validName name = true
  pointed : ∀ name secret, store.getSecret name = some secret →
    (store.getVersion name secret.currentVersionId).isSome = true
  keyed : ∀ name id version, store.getVersion name id = some version →
    version.id = id ∧ id ∈ issued
  registered : ∀ name id version, store.getVersion name id = some version →
    (store.getSecret name).isSome = true

theorem Sound.empty : Sound issued {} where
  named _ _ h := by cases h
  pointed _ _ h := by cases h
  keyed _ _ _ h := by cases h
  registered _ _ _ h := by cases h

theorem Sound.mono (h : Sound issued store) {issued' : List String} (hsub : issued ⊆ issued') :
    Sound issued' store where
  named := h.named
  pointed := h.pointed
  keyed name id version hv := ⟨(h.keyed name id version hv).1, hsub (h.keyed name id version hv).2⟩
  registered := h.registered

theorem Sound.setSecret (h : Sound issued store) (hname : validName secret.name = true)
    (hpoint : (store.getVersion secret.name secret.currentVersionId).isSome = true) :
    Sound issued (store.setSecret secret) := by
  refine ⟨fun name d hd => ?_, fun name d hd => ?_, h.keyed, fun name id v hv => ?_⟩
  · rcases of_getSecret_setSecret hd with ⟨rfl, rfl⟩ | ⟨-, hd⟩
    · exact ⟨rfl, hname⟩
    · exact h.named name d hd
  · rcases of_getSecret_setSecret hd with ⟨rfl, rfl⟩ | ⟨-, hd⟩
    · exact hpoint
    · exact h.pointed name d hd
  · rw [getSecret_setSecret]
    split_ifs
    · rfl
    · exact h.registered name id v hv

theorem Sound.setVersion (h : Sound issued store) (hsecret : (store.getSecret name).isSome = true)
    (hid : version.id ∈ issued) : Sound issued (store.setVersion name version) := by
  refine ⟨h.named, fun name' d hd => ?_, fun name' id v hv => ?_, fun name' id v hv => ?_⟩
  · exact isSome_getVersion_setVersion (h.pointed name' d hd)
  · rcases of_getVersion_setVersion hv with ⟨⟨rfl, rfl⟩, rfl⟩ | ⟨-, hv⟩
    · exact ⟨rfl, hid⟩
    · exact h.keyed name' id v hv
  · rcases of_getVersion_setVersion hv with ⟨⟨rfl, rfl⟩, rfl⟩ | ⟨-, hv⟩
    · exact hsecret
    · exact h.registered name' id v hv

theorem Sound.register (h : Sound issued store) (hname : validName secret.name = true)
    (hid : version.id ∈ issued) (hpoint : secret.currentVersionId = version.id) :
    Sound issued ((store.setVersion secret.name version).setSecret secret) := by
  refine ⟨fun name d hd => ?_, fun name d hd => ?_, fun name id v hv => ?_, fun name id v hv => ?_⟩
  · rcases of_getSecret_setSecret hd with ⟨rfl, rfl⟩ | ⟨-, hd⟩
    · exact ⟨rfl, hname⟩
    · exact h.named name d hd
  · rw [getVersion_setSecret]
    rcases of_getSecret_setSecret hd with ⟨rfl, rfl⟩ | ⟨-, hd⟩
    · rw [hpoint, getVersion_setVersion_self]
      rfl
    · exact isSome_getVersion_setVersion (h.pointed name d hd)
  · rcases of_getVersion_setVersion hv with ⟨⟨rfl, rfl⟩, rfl⟩ | ⟨-, hv⟩
    · exact ⟨rfl, hid⟩
    · exact h.keyed name id v hv
  · rw [getSecret_setSecret]
    split_ifs with hn
    · rfl
    · rcases of_getVersion_setVersion hv with ⟨⟨hname', -⟩, -⟩ | ⟨-, hv⟩
      · exact absurd hname' hn
      · exact h.registered name id v hv

end Store

section Writes

variable {store : InMemorySecretStore} {secret secret' : SecretDescriptor}
  {version previous candidate : SecretVersion} {name id : String} {issued : List String}

theorem OneCurrent.setSecret (h : OneCurrent store)
    (hs : store.getSecret secret'.name = some secret)
    (hpoint : secret'.currentVersionId = secret.currentVersionId) :
    OneCurrent (store.setSecret secret') := by
  intro name d hd
  rcases of_getSecret_setSecret hd with ⟨rfl, rfl⟩ | ⟨-, hd⟩
  · rw [hpoint]
    exact h _ secret hs
  · exact h name d hd

theorem OneCurrent.setVersion (h : OneCurrent store)
    (hnew : store.getVersion name version.id = none)
    (hlabel : version.labels.state ≠ .current) : OneCurrent (store.setVersion name version) := by
  intro name' d hd
  obtain ⟨v, hv, hone⟩ := h name' d hd
  refine ⟨v, ?_, fun id w hw => ?_⟩
  · rw [getVersion_setVersion, if_neg, hv]
    rintro ⟨rfl, hid⟩
    rw [← hid, hv] at hnew
    cases hnew
  · rcases of_getVersion_setVersion hw with ⟨⟨rfl, rfl⟩, rfl⟩ | ⟨-, hw⟩
    · refine iff_of_false hlabel fun hid => ?_
      rw [hid, hv] at hnew
      cases hnew
    · exact hone id w hw

/-- The store after `promote`. -/
def promotedStore (o : Options) (store : InMemorySecretStore) (secret : SecretDescriptor)
    (candidate previous : SecretVersion) (now : ℤ) : InMemorySecretStore :=
  ((store.setVersion secret.name (previous.retire now)).setVersion secret.name
    (candidate.activate now)).setSecret (secret.promoted o candidate previous now)

/-- The store after `rollback`. -/
def restoredStore (store : InMemorySecretStore) (secret : SecretDescriptor)
    (previous : SecretVersion) (reason : String) : InMemorySecretStore :=
  (store.setVersion secret.name (previous.labelled .current)).setSecret
    (secret.rolledBack previous reason)

theorem OneCurrent.promoted {o : Options} {now : ℤ} (h : OneCurrent store)
    (hs : store.getSecret secret.name = some secret) (hp : previous.id = secret.currentVersionId) :
    OneCurrent (promotedStore o store secret candidate previous now) := by
  intro name d hd
  rcases of_getSecret_setSecret hd with ⟨rfl, rfl⟩ | ⟨hname, hd⟩
  · refine ⟨candidate.activate now, getVersion_setVersion_self _ _ _, fun id w hw => ?_⟩
    rcases of_getVersion_setVersion hw with ⟨⟨-, rfl⟩, rfl⟩ | ⟨hne, hw⟩
    · exact iff_of_true rfl rfl
    have hid : ¬ id = candidate.id := fun hid => hne ⟨rfl, hid⟩
    refine iff_of_false (fun hcur => ?_) hid
    rcases of_getVersion_setVersion hw with ⟨⟨-, rfl⟩, rfl⟩ | ⟨hne', hw⟩
    · cases hcur
    · obtain ⟨-, -, hone⟩ := h _ secret hs
      exact hne' ⟨rfl, ((hone id w hw).1 hcur).trans hp.symm⟩
  · obtain ⟨v, hv, hone⟩ := h name d hd
    refine ⟨v, ?_, fun id w hw => ?_⟩
    · rw [promotedStore, getVersion_setSecret, getVersion_setVersion, if_neg fun hat => hname hat.1,
        getVersion_setVersion, if_neg fun hat => hname hat.1, hv]
    · rcases of_getVersion_setVersion hw with ⟨⟨hname', -⟩, -⟩ | ⟨-, hw⟩
      · exact absurd hname' hname
      rcases of_getVersion_setVersion hw with ⟨⟨hname', -⟩, -⟩ | ⟨-, hw⟩
      · exact absurd hname' hname
      · exact hone id w hw

theorem oneCurrent_restored_iff {reason : String} (h : OneCurrent store)
    (hs : store.getSecret secret.name = some secret) :
    OneCurrent (restoredStore store secret previous reason)
      ↔ previous.id = secret.currentVersionId := by
  obtain ⟨v, hv, hone⟩ := h _ secret hs
  constructor
  · intro hr
    by_contra hne
    obtain ⟨-, -, hone'⟩ := hr _ _ (getSecret_setSecret_self _ (secret.rolledBack previous reason))
    have hkept : (restoredStore store secret previous reason).getVersion secret.name
        secret.currentVersionId = some v := by
      rw [restoredStore, getVersion_setSecret, getVersion_setVersion,
        if_neg fun hat => hne hat.2.symm, hv]
    exact hne ((hone' _ v hkept).1 ((hone _ v hv).2 rfl)).symm
  · intro hp name d hd
    rcases of_getSecret_setSecret hd with ⟨rfl, rfl⟩ | ⟨hname, hd⟩
    · refine ⟨previous.labelled .current, getVersion_setVersion_self _ _ _, fun id w hw => ?_⟩
      rcases of_getVersion_setVersion hw with ⟨⟨-, rfl⟩, rfl⟩ | ⟨-, hw⟩
      · exact iff_of_true rfl rfl
      · exact (hone id w hw).trans (by rw [← hp]; rfl)
    · obtain ⟨v, hv, hone⟩ := h name d hd
      refine ⟨v, ?_, fun id w hw => ?_⟩
      · rw [restoredStore, getVersion_setSecret, getVersion_setVersion,
          if_neg fun hat => hname hat.1, hv]
      · rcases of_getVersion_setVersion hw with ⟨⟨hname', -⟩, -⟩ | ⟨-, hw⟩
        · exact absurd hname' hname
        · exact hone id w hw

theorem Sound.promoted {o : Options} {now : ℤ} (h : Sound issued store)
    (hs : store.getSecret secret.name = some secret)
    (hp : store.getVersion secret.name secret.currentVersionId = some previous)
    (hc : store.getVersion secret.name id = some candidate) :
    Sound issued (promotedStore o store secret candidate previous now) := by
  have hsome : (store.getSecret secret.name).isSome = true := by rw [hs]; rfl
  have hpid : previous.id ∈ issued := by
    rw [(h.keyed _ _ _ hp).1]
    exact (h.keyed _ _ _ hp).2
  have hcid : candidate.id ∈ issued := by
    rw [(h.keyed _ _ _ hc).1]
    exact (h.keyed _ _ _ hc).2
  have hretired : Sound issued (store.setVersion secret.name (previous.retire now)) :=
    h.setVersion hsome hpid
  have hactivated : Sound issued ((store.setVersion secret.name (previous.retire now)).setVersion
      secret.name (candidate.activate now)) := hretired.setVersion hsome hcid
  refine hactivated.setSecret (h.named _ _ hs).2 ?_
  show (InMemorySecretStore.getVersion _ secret.name (candidate.activate now).id).isSome = true
  rw [getVersion_setVersion_self]
  rfl

theorem Sound.restored {reason : String} (h : Sound issued store)
    (hs : store.getSecret secret.name = some secret)
    (hp : store.getVersion secret.name id = some previous) :
    Sound issued (restoredStore store secret previous reason) := by
  have hsome : (store.getSecret secret.name).isSome = true := by rw [hs]; rfl
  have hpid : previous.id ∈ issued := by
    rw [(h.keyed _ _ _ hp).1]
    exact (h.keyed _ _ _ hp).2
  have hlabelled : Sound issued (store.setVersion secret.name (previous.labelled .current)) :=
    h.setVersion hsome hpid
  refine hlabelled.setSecret (h.named _ _ hs).2 ?_
  show (InMemorySecretStore.getVersion _ secret.name (previous.labelled .current).id).isSome = true
  rw [getVersion_setVersion_self]
  rfl

theorem oneCurrent_registered_iff (hi : Sound issued store) (h : OneCurrent store)
    (hid : version.id ∉ issued) (hlabel : version.labels.state = .current)
    (hpoint : secret.currentVersionId = version.id) :
    OneCurrent ((store.setVersion secret.name version).setSecret secret)
      ↔ store.getSecret secret.name = none := by
  have hnew : ∀ id w, store.getVersion secret.name id = some w → id ≠ version.id := by
    rintro _ w hw rfl
    exact hid (hi.keyed _ _ w hw).2
  constructor
  · intro hr
    by_contra hs
    obtain ⟨d, hs⟩ := Option.ne_none_iff_exists'.1 hs
    obtain ⟨v, hv, hone⟩ := h _ d hs
    obtain ⟨-, -, hone'⟩ := hr _ _ (getSecret_setSecret_self _ secret)
    have hkept : ((store.setVersion secret.name version).setSecret secret).getVersion secret.name
        d.currentVersionId = some v := by
      rw [getVersion_setSecret, getVersion_setVersion, if_neg fun hat => hnew _ v hv hat.2, hv]
    exact hnew _ v hv (((hone' _ v hkept).1 ((hone _ v hv).2 rfl)).trans hpoint)
  · intro hs name d hd
    rcases of_getSecret_setSecret hd with ⟨rfl, rfl⟩ | ⟨hname, hd⟩
    · refine ⟨version, by rw [hpoint]; exact getVersion_setVersion_self _ _ _, fun id w hw => ?_⟩
      rcases of_getVersion_setVersion hw with ⟨⟨-, rfl⟩, rfl⟩ | ⟨-, hw⟩
      · exact iff_of_true hlabel hpoint.symm
      · have hsome := hi.registered _ id w hw
        rw [hs] at hsome
        cases hsome
    · obtain ⟨v, hv, hone⟩ := h name d hd
      refine ⟨v, ?_, fun id w hw => ?_⟩
      · rw [getVersion_setSecret, getVersion_setVersion, if_neg fun hat => hname hat.1, hv]
      · rcases of_getVersion_setVersion hw with ⟨⟨hname', -⟩, -⟩ | ⟨-, hw⟩
        · exact absurd hname' hname
        · exact hone id w hw

end Writes

section Blocks

variable {o : Options} {s s' : Service} {secret : SecretDescriptor}
  {version old previous candidate : SecretVersion} {name id reason message : String} {now : ℤ}
  {i : Inputs} {issued : List String}

@[simp] theorem returns_ended {α : Type} {result : Except String α} {a : α} :
    Returns (ended result) s a s' ↔ result = .ok a ∧ s' = s := by
  unfold ended
  cases result <;> simp [eq_comm]

@[simp] theorem throws_ended {α : Type} {result : Except String α} :
    Throws (ended result) s message s' ↔ result = .error message ∧ s' = s := by
  unfold ended
  cases result <;> simp [eq_comm]

@[simp] theorem returns_putSecret {u : PUnit} : Returns (putSecret secret) s u s'
    ↔ validName secret.name = true ∧ s' = { s with store := s.store.setSecret secret } := by
  simp [putSecret, assertValidName]

@[simp] theorem throws_putSecret : Throws (putSecret secret) s message s'
    ↔ validName secret.name = false ∧ message = invalidName ∧ s' = s := by
  simp [putSecret, assertValidName]

@[simp] theorem returns_putVersion {u : PUnit} : Returns (putVersion name version) s u s'
    ↔ validName name = true ∧ s' = { s with store := s.store.setVersion name version } := by
  simp [putVersion, assertValidName]

@[simp] theorem throws_putVersion : Throws (putVersion name version) s message s'
    ↔ validName name = false ∧ message = invalidName ∧ s' = s := by
  simp [putVersion, assertValidName]

@[simp] theorem returns_requiredSecret : Returns (requiredSecret name) s secret s'
    ↔ s.store.getSecret name = some secret ∧ s' = s := by
  simp [requiredSecret, and_comm]

@[simp] theorem throws_requiredSecret : Throws (requiredSecret name) s message s'
    ↔ s.store.getSecret name = none ∧ message = s!"Secret not found: {name}" ∧ s' = s := by
  simp [requiredSecret]

@[simp] theorem returns_requiredVersion : Returns (requiredVersion name id) s version s'
    ↔ s.store.getVersion name id = some version ∧ s' = s := by
  simp [requiredVersion, and_comm]

@[simp] theorem throws_requiredVersion : Throws (requiredVersion name id) s message s'
    ↔ s.store.getVersion name id = none
      ∧ message = s!"Secret version not found: {name}@{id}" ∧ s' = s := by
  simp [requiredVersion]

theorem promote_returns (hs : s.store.getSecret secret.name = some secret)
    (hname : validName secret.name = true)
    (hp : s.store.getVersion secret.name secret.currentVersionId = some previous)
    (hc : s.store.getVersion secret.name id = some candidate) :
    Returns (promote o secret.name id now) s ⟨⟩
      { store := promotedStore o s.store secret candidate previous now
        metrics := s.metrics.endCanary } := by
  simp [promote, setMetrics, hs, hp, hc, hname, promotedStore, SecretDescriptor.promoted]

theorem rollback_returns (hs : s.store.getSecret secret.name = some secret)
    (hname : validName secret.name = true)
    (hp : s.store.getVersion secret.name id = some previous) :
    Returns (rollback secret.name id reason (.ok ⟨⟩)) s ⟨⟩
      { store := restoredStore s.store secret previous reason
        metrics := { s.metrics with rollbacks := s.metrics.rollbacks + 1 }.endCanary } := by
  simp [rollback, setMetrics, hs, hp, hname, restoredStore, SecretDescriptor.rolledBack]

theorem rollback_throws (hs : s.store.getSecret name = some secret)
    (hp : s.store.getVersion name id = some previous) :
    Throws (rollback name id reason (.error message)) s message s := by
  simp [rollback, setMetrics, hs, hp]

end Blocks

section Rotate

variable {o : Options} {s s' : Service} {store store' : InMemorySecretStore}
  {secret : SecretDescriptor} {old : SecretVersion} {name : String} {i : Inputs}
  {issued : List String}

@[simp] theorem inPhase_name (secret : SecretDescriptor) (phase : RotationPhase)
    (percent : JsNumber) : (secret.inPhase phase percent).name = secret.name := rfl

/-- What is so at every throw of the `try` block, if it began with the store `first`: the secret
points where it did, it is in a phase of the rotation, and the version it points to is the one that
was read. -/
structure Trying (issued : List String) (first : InMemorySecretStore) (secret : SecretDescriptor)
    (old : SecretVersion) (store : InMemorySecretStore) : Prop where
  sound : Sound issued store
  one : OneCurrent first → OneCurrent store
  described : ∃ phase percent, (phase = .preparing ∨ phase = .canary)
    ∧ store.getSecret secret.name = some (secret.inPhase phase percent)
  old : store.getVersion secret.name secret.currentVersionId = some old

def preparedStore (store : InMemorySecretStore) (secret : SecretDescriptor) : InMemorySecretStore :=
  store.setSecret (secret.inPhase .preparing 0)

def candidateStore (o : Options) (i : Inputs) (value : String) (store : InMemorySecretStore)
    (secret : SecretDescriptor) : InMemorySecretStore :=
  (preparedStore store secret).setVersion secret.name (newCandidate o value i.versionId i.createdAt)

def canaryStore (o : Options) (i : Inputs) (value : String) (store : InMemorySecretStore)
    (secret : SecretDescriptor) : InMemorySecretStore :=
  (candidateStore o i value store secret).setSecret (secret.inPhase .canary o.canaryPercent)

theorem Sound.fresh (h : Sound issued store) (hid : i.versionId ∉ issued) :
    store.getVersion name i.versionId = none := by
  by_contra hne
  obtain ⟨v, hv⟩ := Option.ne_none_iff_exists'.1 hne
  exact hid (h.keyed _ _ v hv).2

theorem trying_prepared (h : Sound issued store) (hs : store.getSecret secret.name = some secret)
    (ho : store.getVersion secret.name secret.currentVersionId = some old) :
    Trying issued store secret old (preparedStore store secret) := by
  have hpoint := h.pointed _ _ hs
  exact ⟨h.setSecret (h.named _ _ hs).2 hpoint, fun hone => hone.setSecret hs rfl,
    ⟨_, _, .inl rfl, getSecret_setSecret_self _ _⟩, ho⟩

theorem Trying.mono (h : Trying issued store secret old store') {issued' : List String}
    (hsub : issued ⊆ issued') : Trying issued' store secret old store' :=
  ⟨h.sound.mono hsub, h.one, h.described, h.old⟩

theorem trying_candidate (o : Options) (value : String) (h : Sound issued store)
    (hs : store.getSecret secret.name = some secret)
    (ho : store.getVersion secret.name secret.currentVersionId = some old)
    (hid : i.versionId ∉ issued) :
    Trying (i.versionId :: issued) store secret old (candidateStore o i value store secret) := by
  have hprepared := trying_prepared h hs ho
  obtain ⟨_, _, -, hd⟩ := hprepared.described
  have hnew : (preparedStore store secret).getVersion secret.name
      (newCandidate o value i.versionId i.createdAt).id = none := hprepared.sound.fresh hid
  refine ⟨(hprepared.sound.mono (List.subset_cons_self _ _)).setVersion ?_ List.mem_cons_self,
    fun hone => (hprepared.one hone).setVersion hnew (fun hlabel => by cases hlabel),
    hprepared.described, ?_⟩
  · rw [hd]
    rfl
  · rw [candidateStore, getVersion_setVersion, if_neg, hprepared.old]
    rintro ⟨-, hcur⟩
    rw [hcur] at ho
    exact Option.some_ne_none _ (ho.symm.trans (h.fresh hid))

theorem trying_canary (o : Options) (value : String) (h : Sound issued store)
    (hs : store.getSecret secret.name = some secret)
    (ho : store.getVersion secret.name secret.currentVersionId = some old)
    (hid : i.versionId ∉ issued) :
    Trying (i.versionId :: issued) store secret old (canaryStore o i value store secret) := by
  have hcandidate := trying_candidate o value h hs ho hid
  obtain ⟨_, _, -, hd⟩ := hcandidate.described
  have hpoint : ((candidateStore o i value store secret).getVersion secret.name
      secret.currentVersionId).isSome = true := by
    rw [hcandidate.old]
    rfl
  exact ⟨hcandidate.sound.setSecret (h.named _ _ hs).2 hpoint,
    fun hone => (hcandidate.one hone).setSecret hd rfl,
    ⟨_, _, .inr rfl, getSecret_setSecret_self _ _⟩, hcandidate.old⟩

/-- The `try` block throws where the generator or a hook fails, and promotes the candidate where
none does. -/
theorem attempt_ends (name : String) (h : Sound issued s.store)
    (hs : s.store.getSecret secret.name = some secret)
    (ho : s.store.getVersion secret.name secret.currentVersionId = some old)
    (hid : i.versionId ∉ issued) :
    (i.Fails old.value ∧ ∃ message s', Throws (attempt o name secret old i) s message s'
        ∧ Trying (i.versionId :: issued) s.store secret old s'.store)
      ∨ ¬ i.Fails old.value ∧ ∃ result s' value, Returns (attempt o name secret old i) s result s'
        ∧ s'.store = promotedStore o (canaryStore o i value s.store secret)
          (secret.inPhase .canary o.canaryPercent) (newCandidate o value i.versionId i.createdAt)
          old i.promotedAt := by
  have hname := (h.named _ _ hs).2
  have hprepared := trying_prepared h hs ho
  rcases hg : i.generated with message | value
  · refine .inl ⟨by simp [Inputs.Fails, hg], message,
      { s with store := preparedStore s.store secret }, ?_,
      hprepared.mono (List.subset_cons_self _ _)⟩
    simp [attempt, updatePhase, hname, hg, preparedStore]
  by_cases hsame : value = "" ∨ value = old.value
  · refine .inl ⟨by cases hv : i.validated <;> cases ha : i.applied <;>
      simp [Inputs.Fails, hg, hv, ha, hsame], sameValue,
      { s with store := preparedStore s.store secret }, ?_,
      hprepared.mono (List.subset_cons_self _ _)⟩
    simp [attempt, updatePhase, hname, hg, hsame, preparedStore]
  obtain ⟨hne, hnew⟩ := not_or.1 hsame
  rcases hv : i.validated with message | _
  · refine .inl ⟨by simp [Inputs.Fails, hg, hv], message,
      { s with store := candidateStore o i value s.store secret }, ?_,
      trying_candidate o value h hs ho hid⟩
    simp [attempt, updatePhase, hname, hg, hne, hnew, hv, preparedStore,
      candidateStore]
  have hcanary := trying_canary o value h hs ho hid
  rcases ha : i.applied with message | _
  · refine .inl ⟨by simp [Inputs.Fails, hg, hv, ha], message,
      { store := canaryStore o i value s.store secret
        metrics := { s.metrics with activeCanaries := s.metrics.activeCanaries + 1 } }, ?_,
      hcanary⟩
    simp [attempt, updatePhase, hname, hg, hne, hnew, hv, ha,
      preparedStore, candidateStore, canaryStore, setMetrics]
  · let canary : Metrics := { s.metrics with activeCanaries := s.metrics.activeCanaries + 1 }
    have hpromote : Returns
        (promote o (secret.inPhase .canary o.canaryPercent).name i.versionId i.promotedAt)
        ⟨canaryStore o i value s.store secret, canary⟩ ⟨⟩ ⟨_, canary.endCanary⟩ :=
      promote_returns (getSecret_setSecret_self _ _) hname hcanary.old
        (getVersion_setVersion_self _ _ (newCandidate o value i.versionId i.createdAt))
    refine .inr ⟨by simp [Inputs.Fails, hg, hv, ha, hne, hnew],
      ⟨name, .complete, old.id, some i.versionId, i.endedAt - i.startedAt, o.canaryPercent, none⟩,
      ⟨_, { canary.endCanary with
        rotationsSucceeded := canary.endCanary.rotationsSucceeded + 1
        lastDurationMs := i.endedAt - i.startedAt }⟩, value, ?_, rfl⟩
    simp [attempt, updatePhase, hname, hg, hne, hnew, hv, ha, setMetrics, -Service.mk.injEq]
    exact ⟨_, _, hpromote, rfl, rfl⟩

/-- What a rotation of a secret does to the store. -/
inductive Rotated (o : Options) (i : Inputs) (issued : List String) (first : InMemorySecretStore)
    (secret : SecretDescriptor) (old : SecretVersion) : InMemorySecretStore → Prop
  | promoted (value : String) : ¬ i.Fails old.value →
      Rotated o i issued first secret old (promotedStore o (canaryStore o i value first secret)
        (secret.inPhase .canary o.canaryPercent) (newCandidate o value i.versionId i.createdAt) old
        i.promotedAt)
  | restored (store : InMemorySecretStore) (phase : RotationPhase) (percent : JsNumber)
      (reason : String) : i.Fails old.value → i.rolledBack = .ok ⟨⟩ →
      Trying (i.versionId :: issued) first secret old store →
      store.getSecret secret.name = some (secret.inPhase phase percent) →
      Rotated o i issued first secret old
        (restoredStore store (secret.inPhase phase percent) old reason)
  | left (store : InMemorySecretStore) (message : String) : i.Fails old.value →
      i.rolledBack = .error message → Trying (i.versionId :: issued) first secret old store →
      Rotated o i issued first secret old store

theorem rotate_after (h : Sound issued s.store) (hs : s.store.getSecret name = some secret)
    (ho : s.store.getVersion name secret.currentVersionId = some old)
    (hid : i.versionId ∉ issued) :
    Rotated o i issued s.store secret old (after (rotate o name i) s).store := by
  obtain ⟨rfl, hname⟩ := h.named _ _ hs
  let started : Service :=
    { s with metrics := { s.metrics with rotationsStarted := s.metrics.rotationsStarted + 1 } }
  have hends := attempt_ends (o := o) (s := started) secret.name h hs ho hid
  rcases hends with ⟨hfails, message, t, hthrows, htry⟩ | ⟨hfine, result, t, value, hreturns, ht⟩
  · obtain ⟨phase, percent, -, hd⟩ := htry.described
    have hprevious : t.store.getVersion secret.name old.id = some old := by
      rw [(h.keyed _ _ _ ho).1]
      exact htry.old
    rcases hback : i.rolledBack with error | _
    · have hrotate : Throws (rotate o secret.name i) s error t := by
        simp [rotate, setMetrics, hs, ho, hback]
        exact ⟨message, t, hthrows, rollback_throws hd hprevious⟩
      rw [hrotate.after]
      exact .left _ _ hfails hback htry
    · have hrollback : Returns
          (rollback (secret.inPhase phase percent).name old.id message (.ok ⟨⟩)) t ⟨⟩
          ⟨restoredStore t.store (secret.inPhase phase percent) old message, _⟩ :=
        rollback_returns hd hname hprevious
      let counted := { t.metrics with rollbacks := t.metrics.rollbacks + 1 }.endCanary
      have hrotate : Returns (rotate o secret.name i) s
          ⟨secret.name, .rolled_back, old.id, none, i.endedAt - i.startedAt, 0, some message⟩
          ⟨restoredStore t.store (secret.inPhase phase percent) old message,
            { counted with
              rotationsFailed := counted.rotationsFailed + 1
              lastDurationMs := i.endedAt - i.startedAt }⟩ := by
        simp [rotate, setMetrics, hs, ho, hback, -Service.mk.injEq]
        exact .inr ⟨t, hthrows, ⟨⟩, _, hrollback, rfl⟩
      rw [hrotate.after]
      exact .restored _ _ _ _ hfails hback htry hd
  · have hrotate : Returns (rotate o secret.name i) s result t := by
      simp [rotate, setMetrics, hs, ho]
      exact .inl hreturns
    rw [hrotate.after, ht]
    exact .promoted value hfine

theorem Rotated.kept (h : Rotated o i issued store secret old store') (hone : OneCurrent store)
    (hi : Sound issued store) (hs : store.getSecret secret.name = some secret)
    (ho : store.getVersion secret.name secret.currentVersionId = some old)
    (hid : i.versionId ∉ issued) :
    Sound (i.versionId :: issued) store' ∧ OneCurrent store'
      ∧ (Settled secret.name store' ↔ (i.Fails old.value → i.rolledBack = .ok ⟨⟩)) := by
  have hold := (hi.keyed _ _ _ ho).1
  cases h with
  | promoted value hfine =>
    have htry := trying_canary o value hi hs ho hid
    have hd : (canaryStore o i value store secret).getSecret secret.name
        = some (secret.inPhase .canary o.canaryPercent) := getSecret_setSecret_self _ _
    refine ⟨Sound.promoted htry.sound hd htry.old (getVersion_setVersion_self _ _ _),
      (htry.one hone).promoted hd hold, fun _ hfails => absurd hfails hfine, fun _ d hd' => ?_⟩
    rcases of_getSecret_setSecret hd' with ⟨-, rfl⟩ | ⟨hne, -⟩
    · exact .inl rfl
    · exact absurd rfl hne
  | restored t phase percent reason hfails hback htry hd =>
    refine ⟨Sound.restored htry.sound hd htry.old,
      (oneCurrent_restored_iff (htry.one hone) hd).2 hold, fun _ _ => hback, fun _ d hd' => ?_⟩
    rcases of_getSecret_setSecret hd' with ⟨-, rfl⟩ | ⟨hne, -⟩
    · exact .inr rfl
    · exact absurd rfl hne
  | left _ message hfails hback htry =>
    obtain ⟨phase, percent, hphase, hd⟩ := htry.described
    refine ⟨htry.sound, htry.one hone, fun hsettled => ?_, fun hregular => ?_⟩
    · have hphase' : phase = .complete ∨ phase = .rolled_back := hsettled _ hd
      rcases hphase with rfl | rfl <;> simp at hphase'
    · rw [hregular hfails] at hback
      cases hback

theorem mem_dueForRotation_iff {now : ℤ} (hs : store.getSecret name = some secret)
    (hsettled : Settled name store) :
    secret ∈ dueForRotation now store ↔ secret.rotateAfter ≤ now := by
  have hlisted : secret ∈ store.listSecrets :=
    List.mem_map.2 ⟨(name, secret), OrdMap.mem_entries_iff.2 hs, rfl⟩
  have hphase : secret.phase ≠ .canary := by
    rcases hsettled secret hs with h | h <;> simp [h]
  simp [dueForRotation, hlisted, hphase]

end Rotate

section Steps

variable {o : Options} {s s' : State} {c : Call}


theorem registerSecret_after (s : Service) (name : String) (kind : SecretKind) (value : String)
    (rotateAfter : Option ℤ) (now : ℤ) (id : String) :
    (validName name = true → value ≠ "" → ∃ secret : SecretDescriptor, secret.name = name
        ∧ secret.currentVersionId = id
        ∧ (after (registerSecret o name kind value rotateAfter now id) s).store
          = (s.store.setVersion name (firstVersion o value now id)).setSecret secret)
      ∧ (¬ (validName name = true ∧ value ≠ "") →
        after (registerSecret o name kind value rotateAfter now id) s = s) := by
  constructor
  · intro hname hvalue
    let secret : SecretDescriptor :=
      { name, kind, currentVersionId := id,
        rotateAfter := rotateAfter.getD (now + o.rotationIntervalMs), canaryPercent := 0,
        phase := .idle, lastRotatedAt := some now }
    have hreturns : Returns (registerSecret o name kind value rotateAfter now id) s secret
        { s with
          store := (s.store.setVersion name (firstVersion o value now id)).setSecret secret } := by
      simp [registerSecret, assertValidName, hname, hvalue, secret]
    refine ⟨secret, rfl, rfl, ?_⟩
    rw [hreturns.after]
  · intro hbad
    rcases hname : validName name with _ | _
    · have hthrows :
          Throws (registerSecret o name kind value rotateAfter now id) s invalidName s := by
        simp [registerSecret, assertValidName, hname]
      exact hthrows.after
    · have hvalue : value = "" := by
        by_contra hne
        exact hbad ⟨hname, hne⟩
      have hthrows : Throws (registerSecret o name kind value rotateAfter now id) s
          "Initial secret value must not be empty" s := by
        simp [registerSecret, assertValidName, hname, hvalue]
      exact hthrows.after

theorem promote_after {s : Service} {issued : List String} (h : Sound issued s.store)
    (name id : String) (now : ℤ) :
    after (promote o name id now) s = s ∨ ∃ secret previous candidate,
      secret.name = name ∧ s.store.getSecret name = some secret
        ∧ s.store.getVersion name secret.currentVersionId = some previous
        ∧ s.store.getVersion name id = some candidate
        ∧ (after (promote o name id now) s).store
          = promotedStore o s.store secret candidate previous now := by
  rcases hs : s.store.getSecret name with _ | secret
  · left
    have hthrows : Throws (promote o name id now) s s!"Secret not found: {name}" s := by
      simp [promote, hs]
    exact hthrows.after
  obtain ⟨rfl, hname⟩ := h.named _ _ hs
  obtain ⟨previous, hp⟩ := Option.isSome_iff_exists.1 (h.pointed _ _ hs)
  rcases hc : s.store.getVersion secret.name id with _ | candidate
  · left
    have hthrows : Throws (promote o secret.name id now) s
        s!"Secret version not found: {secret.name}@{id}" s := by
      simp [promote, hs, hp, hc]
    exact hthrows.after
  · right
    refine ⟨secret, previous, candidate, rfl, rfl, hp, rfl, ?_⟩
    rw [(promote_returns hs hname hp hc).after]

theorem rollback_after {s : Service} {issued : List String} (h : Sound issued s.store)
    (name id reason : String) (hook : Except String PUnit) :
    (after (rollback name id reason hook) s = s
        ∧ ∀ secret, s.store.getSecret name = some secret →
          (s.store.getVersion name id).isSome = true → hook ≠ .ok ⟨⟩)
      ∨ ∃ secret previous, secret.name = name ∧ s.store.getSecret name = some secret
        ∧ s.store.getVersion name id = some previous ∧ hook = .ok ⟨⟩
        ∧ (after (rollback name id reason hook) s).store
          = restoredStore s.store secret previous reason := by
  rcases hs : s.store.getSecret name with _ | secret
  · have hthrows : Throws (rollback name id reason hook) s s!"Secret not found: {name}" s := by
      simp [rollback, hs]
    exact .inl ⟨hthrows.after, fun _ hnone => by cases hnone⟩
  obtain ⟨rfl, hname⟩ := h.named _ _ hs
  rcases hp : s.store.getVersion secret.name id with _ | previous
  · have hthrows : Throws (rollback secret.name id reason hook) s
        s!"Secret version not found: {secret.name}@{id}" s := by
      simp [rollback, hs, hp]
    exact .inl ⟨hthrows.after, fun _ _ hsome => by cases hsome⟩
  rcases hook with message | _
  · exact .inl ⟨(rollback_throws hs hp).after, fun _ _ _ h => by cases h⟩
  · right
    refine ⟨secret, previous, rfl, rfl, rfl, rfl, ?_⟩
    have hreturns : Returns (rollback secret.name id reason (.ok ⟨⟩)) s ⟨⟩ _ :=
      rollback_returns hs hname hp
    rw [hreturns.after]

/-- What a call leaves, if each secret had one current version before. -/
theorem step_kept_iff (hi : Sound s.issued s.service.store) (hone : OneCurrent s.service.store)
    (hs : step o s c = some s') :
    (Kept ⟨s, c, s'⟩ ↔ Regular s c) ∧ (Regular s c → Sound s'.issued s'.service.store) := by
  rw [step, Option.ite_none_right_eq_some] at hs
  obtain ⟨hid, hs⟩ := hs
  obtain rfl := Option.some.inj hs
  cases c with
  | registerSecret name kind value rotateAfter now id =>
    have hnew : (firstVersion o value now id).id ∉ s.issued := hid id rfl
    have hafter := registerSecret_after (o := o) s.service name kind value rotateAfter now id
    simp only [Kept, Regular, Call.block, after_bind_pure, Call.newId, and_true]
    by_cases hgood : validName name = true ∧ value ≠ ""
    · obtain ⟨secret, rfl, hpoint, hstore⟩ := hafter.1 hgood.1 hgood.2
      rw [hstore]
      refine ⟨?_, fun _ => ?_⟩
      · rw [oneCurrent_registered_iff hi hone hnew rfl hpoint]
        exact ⟨fun h _ _ => h, fun h => h hgood.1 hgood.2⟩
      · exact (hi.mono (List.subset_cons_self _ _)).register hgood.1 List.mem_cons_self hpoint
    · rw [hafter.2 hgood]
      exact ⟨iff_of_true hone fun hname hvalue => absurd ⟨hname, hvalue⟩ hgood,
        fun _ => hi.mono (List.subset_cons_self _ _)⟩
  | rotate name i =>
    have hnew : i.versionId ∉ s.issued := hid i.versionId rfl
    simp only [Kept, Regular, Call.block, after_bind_pure, Call.newId]
    rcases hsec : s.service.store.getSecret name with _ | secret
    · have hthrows : Throws (rotate o name i) s.service s!"Secret not found: {name}" s.service := by
        simp [rotate, hsec]
      rw [hthrows.after]
      refine ⟨iff_of_true ⟨hone, fun d hd => ?_⟩ fun d _ hd => ?_,
        fun _ => hi.mono (List.subset_cons_self _ _)⟩
      · rw [hsec] at hd
        cases hd
      · cases hd
    · obtain ⟨old, ho⟩ := Option.isSome_iff_exists.1 (hi.pointed _ _ hsec)
      have hrotated := rotate_after (o := o) hi hsec ho hnew
      obtain ⟨rfl, -⟩ := hi.named _ _ hsec
      obtain ⟨hsound, hkept, hsettled⟩ := hrotated.kept hone hi hsec ho hnew
      refine ⟨?_, fun _ => hsound⟩
      rw [and_iff_right hkept, hsettled]
      refine ⟨fun h d v hd hv => ?_, fun h => h secret old rfl ho⟩
      obtain rfl := Option.some.inj hd
      rw [ho] at hv
      obtain rfl := Option.some.inj hv
      exact h
  | promote name id now =>
    simp only [Kept, Regular, Call.block, Call.newId, and_true]
    rcases promote_after (o := o) hi name id now with
      h | ⟨secret, previous, candidate, rfl, hsec, hp, hc, h⟩
    · rw [h]
      exact ⟨iff_of_true hone trivial, fun _ => hi⟩
    · rw [h]
      exact ⟨iff_of_true (hone.promoted hsec (hi.keyed _ _ _ hp).1) trivial,
        fun _ => hi.promoted hsec hp hc⟩
  | rollback name id reason hook =>
    simp only [Kept, Regular, Call.block, Call.newId, and_true]
    rcases rollback_after hi name id reason hook with
      ⟨h, hnone⟩ | ⟨secret, previous, rfl, hsec, hp, rfl, h⟩
    · rw [h]
      exact ⟨iff_of_true hone fun d hd hv hok => absurd hok (hnone d hd hv), fun _ => hi⟩
    · rw [h, oneCurrent_restored_iff hone hsec, (hi.keyed _ _ _ hp).1]
      refine ⟨⟨fun hcur d hd _ _ => ?_, fun h => ?_⟩, fun _ => hi.restored hsec hp⟩
      · rw [hsec] at hd
        obtain rfl := Option.some.inj hd
        exact hcur
      · exact h secret hsec (by rw [hp]; rfl) rfl

end Steps

section Histories

variable {o : Options} {s : State} {h : List (Taken State Call)}

theorem sound_of_run (hr : Run (system o) h s) (hC : Along Regular h) :
    Sound s.issued s.service.store ∧ OneCurrent s.service.store := by
  refine hr.invariant_of (P := fun s => Sound s.issued s.service.store ∧ OneCurrent s.service.store)
    (fun s hinit => ?_) (fun s c s' hok hc hs => ?_) hC
  · obtain rfl : _ = ({} : State) := hinit
    exact ⟨.empty, fun _ _ hd => by cases hd⟩
  · obtain ⟨hi, hone⟩ := hok
    obtain ⟨hiff, hsound⟩ := step_kept_iff hi hone hs
    exact ⟨hsound hc, (hiff.2 hc).1⟩

/-- In the histories whose calls are regular, and in no others, each call leaves one current version
of each secret, and each rotation settles. -/
theorem one_current_iff (hr : Run (system o) h s) : (∀ t ∈ h, Kept t) ↔ Along Regular h := by
  refine hr.taken_iff_along fun h s c s' hr hC hs => ?_
  obtain ⟨hi, hone⟩ := sound_of_run hr hC
  exact (step_kept_iff hi hone hs).1

/-- The options, with the hash of the values that are used below. -/
def testOptions : Options where
  canaryPercent := 10
  rotationIntervalMs := 1000
  fingerprint value := if value = "initial-password" then "24aaddc9663b407e" else "86df66c6fdbe368f"

def registerMain : Call :=
  .registerSecret "database/main" .database "initial-password" none 0 "v1"

/-- A rotation in which the generator and `apply` return. -/
def rotateMain (validated rolledBack : Except String PUnit) : Call :=
  .rotate "database/main"
    { startedAt := 1000, generated := .ok "rotated-password", versionId := "v2", createdAt := 1001,
      validated, applied := .ok ⟨⟩, promotedAt := 1002, rolledBack, endedAt := 1003 }

/-- A sufficient test of a regular call. -/
def plain (t : Taken State Call) : Bool :=
  match t.act with
  | .registerSecret name _ _ _ _ _ => (t.pre.service.store.getSecret name).isNone
  | .rotate _ i => i.rolledBack.toBool
  | .promote .. => true
  | .rollback .. => false

theorem regular_of_plain {t : Taken State Call} (h : plain t = true) : Regular t.pre t.act := by
  unfold plain at h
  unfold Regular
  split at h
  · exact fun _ _ => Option.isNone_iff_eq_none.1 h
  · rename_i i _
    intro _ _ _ _ _
    rcases hi : i.rolledBack with message | _
    · rw [hi] at h
      cases h
    · rfl
  · trivial
  · cases h

/-- A rotation that fails is rolled back. -/
theorem kept_failed_rotation : ∃ h s, Run (system testOptions) h s
    ∧ (s.service.store.getSecret "database/main").map (·.phase) = some .rolled_back
    ∧ ∀ t ∈ h, Kept t := by
  obtain ⟨h, s, hr, ht⟩ := Sys.exists_run (S := system testOptions) rfl
    [registerMain, rotateMain (.error "synthetic validation failure") (.ok ⟨⟩)]
    (p := fun x => x.1.all plain
      && (x.2.service.store.getSecret "database/main").map (·.phase) = some .rolled_back)
    (by decide +kernel)
  simp only [Bool.and_eq_true, decide_eq_true_eq, List.all_eq_true] at ht
  exact ⟨h, s, hr, ht.2, (one_current_iff hr).2 fun t hmem => regular_of_plain (ht.1 t hmem)⟩

/-- A secret that is rotated and rolled back by hand has two versions labelled as current. -/
theorem not_kept_of_rollback : ∃ h s, Run (system testOptions) h s ∧ ¬ ∀ t ∈ h, Kept t := by
  obtain ⟨h, s, hr, ht⟩ := Sys.exists_run (S := system testOptions) rfl
    [registerMain, rotateMain (.ok ⟨⟩) (.ok ⟨⟩),
      .rollback "database/main" "v1" "manual rollback" (.ok ⟨⟩)]
    (p := fun x => x.1.any fun t =>
      (t.post.service.store.getSecret "database/main").map (·.currentVersionId) = some "v1"
        && (t.post.service.store.getVersion "database/main" "v2").map (·.labels.state)
          = some .current) (by decide +kernel)
  simp only [Bool.and_eq_true, decide_eq_true_eq, List.any_eq_true] at ht
  obtain ⟨t, hmem, hcur, hlabel⟩ := ht
  refine ⟨h, s, hr, fun hkept => ?_⟩
  obtain ⟨secret, hs, hid⟩ := Option.map_eq_some_iff.1 hcur
  obtain ⟨version, hv, hstate⟩ := Option.map_eq_some_iff.1 hlabel
  obtain ⟨-, -, hone⟩ := (hkept t hmem).1 _ secret hs
  have htwo : "v2" = secret.currentVersionId := (hone _ version hv).1 hstate
  rw [hid] at htwo
  exact absurd htwo (by decide)

end Histories

end Secrets

end VeriNode
