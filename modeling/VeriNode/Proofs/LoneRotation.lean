import VeriNode.Security.ConcurrentRotations
import VeriNode.Proofs.SecretRotation

/-!
# A rotation that no other call comes between

The steps of a call of `rotate` are the pieces of its text between one `await` and the next. Taken one
after the other, from any state and with nothing between them, they end as `rotate` does as one block:
resolved with what it returns, or rejected with what it throws, and in the state it leaves
(`lone_rotation`).
-/

namespace VeriNode

open Turn

namespace Secrets

namespace Rotations

variable {o : Options} {name : String}

section Alone

variable {i : Inputs} {s s' : Service} {r : Trial} {candidate : SecretVersion} {message : String}

/-- What a rotation is given where it waits. -/
def given (i : Inputs) (stage : Stage) : Input where
  now := match stage with
    | .generating _ => i.createdAt
    | .promoting .. => i.promotedAt
    | _ => i.endedAt
  generated := i.generated
  versionId := i.versionId
  hook := match stage with
    | .validating .. => i.validated
    | .applying .. => i.applied
    | _ => i.rolledBack

/-- The steps of a rotation that no other call comes between. -/
def Reaches (o : Options) (name : String) (i : Inputs) : Stage × Service → Stage × Service → Prop :=
  Relation.ReflTransGen fun x y => x.1.next o name (given i x.1) x.2 = some y

theorem Reaches.head {stage : Stage} {y z : Stage × Service}
    (h : stage.next o name (given i stage) s = some y) (hr : Reaches o name i y z) :
    Reaches o name i (stage, s) z :=
  Relation.ReflTransGen.head h hr

theorem await_returns {π : Type} {x : Block PUnit} {place : π} {thrown : String → π}
    (hx : Returns x s ⟨⟩ s') : await x place thrown s = (place, s') := by
  unfold Returns at hx
  rw [await, hx]

theorem await_throws {π : Type} {x : Block PUnit} {place : π} {thrown : String → π}
    (hx : Throws x s message s') : await x place thrown s = (thrown message, s') := by
  unfold Throws at hx
  rw [await, hx]

theorem await_putVersion {π : Type} {place : π} {thrown : String → π} {version : SecretVersion}
    (hname : validName name = true) : await (putVersion name version) place thrown s
      = (place, { s with store := s.store.setVersion name version }) :=
  await_returns (returns_putVersion.2 ⟨hname, rfl⟩)

theorem await_putSecret {π : Type} {place : π} {thrown : String → π} {secret : SecretDescriptor}
    (hname : validName secret.name = true) : await (putSecret secret) place thrown s
      = (place, { s with store := s.store.setSecret secret }) :=
  await_returns (returns_putSecret.2 ⟨hname, rfl⟩)

theorem await_putVersion_throws {π : Type} {place : π} {thrown : String → π}
    {version : SecretVersion} (hname : validName name = false) :
    await (putVersion name version) place thrown s = (thrown invalidName, s) :=
  await_throws (throws_putVersion.2 ⟨hname, rfl, rfl⟩)

theorem await_putSecret_throws {π : Type} {place : π} {thrown : String → π}
    {secret : SecretDescriptor} (hname : validName secret.name = false) :
    await (putSecret secret) place thrown s = (thrown invalidName, s) :=
  await_throws (throws_putSecret.2 ⟨hname, rfl, rfl⟩)

theorem next_promoting {p p' : Promoting}
    (hp : promoteNext o r.secret.name candidate.id i.promotedAt p s = (.waits p', s')) :
    Stage.next o name (given i (.promoting r candidate p)) (.promoting r candidate p) s
      = some (.promoting r candidate p', s') := by
  have hgiven : promoteNext o r.secret.name candidate.id
      (given i (.promoting r candidate p)).now p s = (.waits p', s') := hp
  rw [Stage.next, hgiven]

theorem reaches_promote (hp : Returns (promote o r.secret.name candidate.id i.promotedAt) s ⟨⟩ s') :
    Reaches o name i
      (.promoting r candidate (.secret (s.store.getSecret r.secret.name)), s)
      (.promoted r candidate, s') := by
  simp [promote, setMetrics] at hp
  obtain ⟨secret, hs, previous, hp, activated, hc, hname, hname', rfl⟩ := hp
  rw [hs]
  refine .head rfl ?_
  rw [hp]
  refine .head rfl ?_
  rw [hc]
  refine .head (next_promoting (await_putVersion hname)) ?_
  refine .head (next_promoting (await_putVersion hname)) ?_
  refine .head (next_promoting (await_putSecret hname')) ?_
  exact .head rfl .refl

theorem reaches_promote_throws
    (hp : Throws (promote o r.secret.name candidate.id i.promotedAt) s message s') :
    Reaches o name i
      (.promoting r candidate (.secret (s.store.getSecret r.secret.name)), s)
      (.thrown r message true, s') := by
  simp [promote, setMetrics] at hp
  rcases hp with ⟨hs, rfl, rfl⟩ | ⟨secret, hs, ⟨hp, rfl, rfl⟩ | ⟨previous, hp, hp'⟩⟩
  · rw [hs]
    exact .head rfl .refl
  · rw [hs]
    refine .head rfl ?_
    rw [hp]
    exact .head rfl .refl
  rw [hs]
  refine .head rfl ?_
  rw [hp]
  refine .head rfl ?_
  rcases hp' with ⟨hc, rfl, rfl⟩ | ⟨activated, hc, ⟨hname, rfl, rfl⟩ | ⟨hname, hp'⟩⟩
  · rw [hc]
    exact .head rfl .refl
  · rw [hc]
    refine .head (next_promoting (await_putVersion_throws hname)) ?_
    exact .head rfl .refl
  rw [hc]
  refine .head (next_promoting (await_putVersion hname)) ?_
  rcases hp' with ⟨hname', -⟩ | ⟨-, hname', rfl, rfl⟩
  · rw [hname] at hname'
    cases hname'
  refine .head (next_promoting (await_putVersion hname)) ?_
  refine .head (next_promoting (await_putSecret_throws hname')) ?_
  exact .head rfl .refl

theorem rollbackNext_hook {id reason : String} {secret : SecretDescriptor}
    {previous : SecretVersion} (hname : validName name = true) :
    rollbackNext name id reason (.ok ⟨⟩) (.hook secret previous) s
      = (.waits (.labelled secret previous),
        { s with store := s.store.setVersion name (previous.labelled .current) }) :=
  await_putVersion hname

theorem rollbackNext_hook_throws {id reason : String} {secret : SecretDescriptor}
    {previous : SecretVersion} (hname : validName name = false) :
    rollbackNext name id reason (.ok ⟨⟩) (.hook secret previous) s
      = (.waits (.thrown invalidName), s) :=
  await_putVersion_throws hname

theorem next_restoring {canary : Bool} {p p' : RollingBack}
    (hp : rollbackNext r.secret.name r.oldVersion.id message i.rolledBack p s = (.waits p', s')) :
    Stage.next o name (given i (.restoring r message canary p)) (.restoring r message canary p) s
      = some (.restoring r message canary p', s') := by
  have hgiven : rollbackNext r.secret.name r.oldVersion.id message
      (given i (.restoring r message canary p)).hook p s = (.waits p', s') := hp
  rw [Stage.next, hgiven]

theorem next_restoring_throws {canary : Bool} {p : RollingBack} {error : String}
    (hp : rollbackNext r.secret.name r.oldVersion.id message i.rolledBack p s
      = (.throws error, s')) :
    Stage.next o name (given i (.restoring r message canary p)) (.restoring r message canary p) s
      = some (.rejected error, s') := by
  have hgiven : rollbackNext r.secret.name r.oldVersion.id message
      (given i (.restoring r message canary p)).hook p s = (.throws error, s') := hp
  rw [Stage.next, hgiven]

theorem reaches_rollback {canary : Bool}
    (hp : Returns (rollback r.secret.name r.oldVersion.id message i.rolledBack) s ⟨⟩ s') :
    Reaches o name i
      (.restoring r message canary (.secret (s.store.getSecret r.secret.name)), s)
      (.restored r message, s') := by
  simp [rollback, setMetrics] at hp
  obtain ⟨secret, hs, previous, hp, ⟨_, hook⟩, hname, hname', rfl⟩ := hp
  rw [hs]
  refine .head rfl ?_
  rw [hp]
  refine .head rfl ?_
  refine .head (next_restoring (hook ▸ rollbackNext_hook hname)) ?_
  refine .head (next_restoring (await_putSecret hname')) ?_
  exact .head rfl .refl

theorem reaches_rollback_throws {canary : Bool} {error : String}
    (hp : Throws (rollback r.secret.name r.oldVersion.id message i.rolledBack) s error s') :
    Reaches o name i
      (.restoring r message canary (.secret (s.store.getSecret r.secret.name)), s)
      (.rejected error, s') := by
  simp [rollback, setMetrics] at hp
  rcases hp with ⟨hs, rfl, rfl⟩ | ⟨secret, hs, ⟨hp, rfl, rfl⟩ | ⟨previous, hp, hp'⟩⟩
  · rw [hs]
    exact .head rfl .refl
  · rw [hs]
    refine .head rfl ?_
    rw [hp]
    exact .head rfl .refl
  rw [hs]
  refine .head rfl ?_
  rw [hp]
  refine .head rfl ?_
  rcases hp' with ⟨hook, rfl⟩ | ⟨⟨_, hook⟩, ⟨hname, rfl, rfl⟩ | ⟨hname, hname', rfl, rfl⟩⟩
  · exact .head (next_restoring_throws (by rw [hook]; rfl)) .refl
  · refine .head (next_restoring (hook ▸ rollbackNext_hook_throws hname)) ?_
    exact .head rfl .refl
  · refine .head (next_restoring (hook ▸ rollbackNext_hook hname)) ?_
    refine .head (next_restoring (await_putSecret_throws hname')) ?_
    exact .head rfl .refl

theorem next_generating {x : Input} {value : String} (hg : x.generated = .ok value)
    (hnew : ¬ (value = "" ∨ value = r.oldVersion.value)) :
    Stage.next o name x (.generating r) s
      = some (await (putVersion r.secret.name (newCandidate o value x.versionId x.now))
          (.stored r (newCandidate o value x.versionId x.now)) (.thrown r · false) s) := by
  rw [Stage.next, hg]
  exact if_neg hnew

theorem next_generating_throws {x : Input} (hg : x.generated = .error message) :
    Stage.next o name x (.generating r) s = some (recover r message false s) := by
  rw [Stage.next, hg]

theorem next_generating_same {x : Input} {value : String} (hg : x.generated = .ok value)
    (hsame : value = "" ∨ value = r.oldVersion.value) :
    Stage.next o name x (.generating r) s = some (recover r sameValue false s) := by
  rw [Stage.next, hg]
  exact if_pos hsame

theorem next_validating {x : Input} {u : PUnit} (hh : x.hook = .ok u) :
    Stage.next o name x (.validating r candidate) s
      = some (awaitPhase r .canary o.canaryPercent (.inCanary r candidate) s) := by
  rw [Stage.next, hh]

theorem next_validating_throws {x : Input} (hh : x.hook = .error message) :
    Stage.next o name x (.validating r candidate) s = some (recover r message false s) := by
  rw [Stage.next, hh]

theorem next_applying {x : Input} {u : PUnit} (hh : x.hook = .ok u) :
    Stage.next o name x (.applying r candidate) s
      = some (.promoting r candidate (.secret (s.store.getSecret r.secret.name)), s) := by
  rw [Stage.next, hh]

theorem next_applying_throws {x : Input} (hh : x.hook = .error message) :
    Stage.next o name x (.applying r candidate) s = some (recover r message true s) := by
  rw [Stage.next, hh]

theorem awaitPhase_eq {phase : RotationPhase} {percent : JsNumber} {place : Stage}
    (hname : validName r.secret.name = true) : awaitPhase r phase percent place s
      = (place, { s with store := s.store.setSecret (r.secret.inPhase phase percent) }) :=
  await_putSecret hname

theorem awaitPhase_throws {phase : RotationPhase} {percent : JsNumber} {place : Stage}
    (hname : validName r.secret.name = false) :
    awaitPhase r phase percent place s = (.thrown r invalidName false, s) :=
  await_putSecret_throws hname

theorem reaches_attempt {result : RotationResult}
    (hp : Returns (attempt o name r.secret r.oldVersion i) s result s')
    (hstart : r.startedAt = i.startedAt) :
    Reaches o name i (awaitPhase r .preparing 0 (.prepared r) s) (.resolved result, s') := by
  simp [attempt, updatePhase, setMetrics] at hp
  obtain ⟨hname, value, hg, hnew, -, ⟨_, hv⟩, -, ⟨_, ha⟩, _, t, hpromote, rfl, rfl⟩ := hp
  rw [awaitPhase_eq hname]
  refine .head rfl ?_
  refine .head (next_generating hg (not_or.2 hnew)) ?_
  rw [await_putVersion hname]
  refine .head rfl ?_
  refine .head (next_validating hv) ?_
  rw [awaitPhase_eq hname]
  refine .head rfl ?_
  refine .head (next_applying ha) ?_
  refine (reaches_promote hpromote).trans ?_
  rw [← hstart]
  exact .head rfl .refl

theorem reaches_attempt_throws (hp : Throws (attempt o name r.secret r.oldVersion i) s message s') :
    ∃ canary, Reaches o name i (awaitPhase r .preparing 0 (.prepared r) s)
      (recover r message canary s') := by
  simp [attempt, updatePhase, setMetrics] at hp
  rcases hp with ⟨hname, rfl, rfl⟩ | ⟨hname, hp⟩
  · rw [awaitPhase_throws hname]
    exact ⟨false, .head rfl .refl⟩
  rw [awaitPhase_eq hname]
  rcases hp with ⟨hg, rfl⟩ | ⟨value, hg, ⟨hsame, rfl, rfl⟩ | ⟨hnew, hp⟩⟩
  · exact ⟨false, .head rfl (.head (next_generating_throws hg) .refl)⟩
  · exact ⟨false, .head rfl (.head (next_generating_same hg hsame) .refl)⟩
  simp only [hname, Bool.true_eq_false, false_and, false_or, true_and] at hp
  have hvalidating : Reaches o name i
      (.prepared r, { s with store := s.store.setSecret (r.secret.inPhase .preparing 0) })
      (.validating r (newCandidate o value i.versionId i.createdAt),
        { s with
          store := (s.store.setSecret (r.secret.inPhase .preparing 0)).setVersion r.secret.name
            (newCandidate o value i.versionId i.createdAt) }) := by
    refine .head rfl ?_
    refine .head (next_generating hg (not_or.2 hnew)) ?_
    rw [await_putVersion hname]
    exact .head rfl .refl
  rcases hp with ⟨hv, rfl⟩ | ⟨⟨_, hv⟩, hp⟩
  · exact ⟨false, hvalidating.trans (.head (next_validating_throws hv) .refl)⟩
  rcases hp with ⟨ha, rfl⟩ | ⟨⟨_, ha⟩, hpromote⟩
  · refine ⟨true, hvalidating.trans ?_⟩
    refine .head (next_validating hv) ?_
    rw [awaitPhase_eq hname]
    refine .head rfl ?_
    exact .head (next_applying_throws ha) .refl
  · refine ⟨true, hvalidating.trans ?_⟩
    refine .head (next_validating hv) ?_
    rw [awaitPhase_eq hname]
    refine .head rfl ?_
    refine .head (next_applying ha) ?_
    refine (reaches_promote_throws hpromote).trans ?_
    exact .head rfl .refl

theorem reaches_rotate {result : RotationResult} (hp : Returns (rotate o name i) s result s') :
    Reaches o name i (.secret i.startedAt (s.store.getSecret name), s) (.resolved result, s') := by
  simp [rotate, setMetrics] at hp
  obtain ⟨secret, hs, old, ho, hp⟩ := hp
  rw [hs]
  refine .head rfl ?_
  rw [ho]
  refine .head rfl ?_
  rcases hp with hp | ⟨message, t, hp, _, t', hback, rfl, rfl⟩
  · exact reaches_attempt (r := ⟨i.startedAt, secret, old⟩) hp rfl
  · obtain ⟨canary, hthrown⟩ := reaches_attempt_throws (r := ⟨i.startedAt, secret, old⟩) hp
    refine hthrown.trans ?_
    refine (reaches_rollback (r := ⟨i.startedAt, secret, old⟩) hback).trans ?_
    exact .head rfl .refl

theorem reaches_rotate_throws (hp : Throws (rotate o name i) s message s') :
    Reaches o name i (.secret i.startedAt (s.store.getSecret name), s) (.rejected message, s') := by
  simp [rotate, setMetrics] at hp
  rcases hp with ⟨hs, rfl, rfl⟩ | ⟨secret, hs, ⟨ho, rfl, rfl⟩ | ⟨old, ho, error, t, hp, hback⟩⟩
  · rw [hs]
    exact .head rfl .refl
  · rw [hs]
    refine .head rfl ?_
    rw [ho]
    exact .head rfl .refl
  · rw [hs]
    refine .head rfl ?_
    rw [ho]
    refine .head rfl ?_
    obtain ⟨canary, hthrown⟩ := reaches_attempt_throws (r := ⟨i.startedAt, secret, old⟩) hp
    exact hthrown.trans (reaches_rollback_throws (r := ⟨i.startedAt, secret, old⟩) hback)

/-- A rotation that no other call comes between ends as `rotate` does, whatever fails. -/
theorem lone_rotation (o : Options) (name : String) (i : Inputs) (s : Service) :
    match (rotate o name i).run s with
    | .ok result s' => Reaches o name i (.secret i.startedAt (s.store.getSecret name), s)
        (.resolved result, s')
    | .error message s' => Reaches o name i (.secret i.startedAt (s.store.getSecret name), s)
        (.rejected message, s') := by
  rcases hp : (rotate o name i).run s with ⟨result, s'⟩ | ⟨message, s'⟩
  · exact reaches_rotate hp
  · exact reaches_rotate_throws hp

end Alone

end Rotations

end Secrets

end VeriNode
