import VeriNode.Keys.Ceremony
import VeriNode.Proofs.Registry

/-!
# Key rotation is safe

Every turn of the ceremony is one of six moves (`step_move`): it leaves the registry, the rotations
and the active index as they were, registers a key, or takes one rotation one phase on. The
invariant ties the phase of each rotation to the registry (`KeysOk`): until activation the old key
signs and the new one is pending, from then on the new key signs, and after retirement the old one
is retired. A move of one validator leaves what the registry has of another as it was (`Apart`),
and a validator has at most one rotation that is not retired, so no move disturbs another's keys.
-/

namespace VeriNode

open Turn

namespace Ceremony

section Apart

/-- The registry has the same of the validator: its signing key, its pending key, and its
records. -/
structure Apart (v : String) (g g' : KeyRegistry) : Prop where
  signing : g'.currentSigningKeyByValidator.get v = g.currentSigningKeyByValidator.get v
  pending : g'.pendingKeyByValidator.get v = g.pendingKeyByValidator.get v
  owned : ∀ key k, g.keysByPublicKey.get key = some k → k.validatorId = v →
    g'.keysByPublicKey.get key = some k

variable {g g' : KeyRegistry} {v : String}

theorem apart_register {input : RegisterActiveKeyInput} {k : KeyRecord}
    (h : Returns (KeyRegistry.registerActiveKey input) g k g') {key : String}
    (hv : g.currentSigningKeyByValidator.get v = some key) :
    Apart v g g' ∧ KeyRegistry.Move g g' := by
  obtain ⟨hb, hk, hcur, hkp, hkv, hks, hsig, rfl⟩ := KeyRegistry.registerActiveKey_returns h
  have hne : v ≠ k.validatorId := by
    rintro rfl
    rw [hkv, hcur] at hv
    cases hv
  refine ⟨⟨OrdMap.get_set_of_ne _ _ hne, rfl, fun key' k' hk' _ => ?_⟩,
    .register k (hkp ▸ hb) hks hsig (hkp ▸ hk) (hkv ▸ hcur)⟩
  refine (OrdMap.get_set_of_ne _ _ ?_).trans hk'
  rintro rfl
  rw [hkp, hk] at hk'
  cases hk'

theorem apart_reserve {input : ReservePendingKeyInput} {k : KeyRecord}
    (h : Returns (KeyRegistry.reservePendingKey input) g k g') (hv : v ≠ input.validatorId) :
    Apart v g g' := by
  obtain ⟨-, hk, -, hkp, hkv, -, -, rfl⟩ := KeyRegistry.reservePendingKey_returns h
  refine ⟨rfl, OrdMap.get_set_of_ne _ _ (hkv ▸ hv), fun key' k' hk' _ => ?_⟩
  refine (OrdMap.get_set_of_ne _ _ ?_).trans hk'
  rintro rfl
  rw [hkp, hk] at hk'
  cases hk'

theorem apart_activate {input : ActivateKeyRotationInput} {p : KeyRecord × KeyRecord}
    (h : Returns (KeyRegistry.activateRotation input) g p g') (hv : v ≠ input.validatorId) :
    Apart v g g' := by
  rcases KeyRegistry.activateRotation_returns h with
    ⟨rfl, -⟩ | ⟨o, n, ho, hov, -, -, hn, hnv, -, -, rfl⟩
  · exact ⟨rfl, rfl, fun _ _ hk _ => hk⟩
  · refine ⟨OrdMap.get_set_of_ne _ _ hv, OrdMap.get_delete_of_ne _ hv, fun key k hk hkv => ?_⟩
    have h1 : key ≠ input.newPublicKey := by
      rintro rfl
      rw [hn] at hk
      cases hk
      exact hv (hkv.symm.trans hnv)
    have h2 : key ≠ input.oldPublicKey := by
      rintro rfl
      rw [ho] at hk
      cases hk
      exact hv (hkv.symm.trans hov)
    exact (OrdMap.get_set_of_ne _ _ h1).trans ((OrdMap.get_set_of_ne _ _ h2).trans hk)

theorem apart_retire {w key : String} {epoch : JsNumber} {k : KeyRecord}
    (h : Returns (KeyRegistry.retireKey w key epoch) g k g') (hv : v ≠ w) : Apart v g g' := by
  rcases KeyRegistry.retireKey_returns h with ⟨rfl, -⟩ | ⟨k₀, hk, hkw, -, -, rfl⟩
  · exact ⟨rfl, rfl, fun _ _ hk _ => hk⟩
  · refine ⟨rfl, rfl, fun key' k' hk' hkv => ?_⟩
    refine (OrdMap.get_set_of_ne _ _ ?_).trans hk'
    rintro rfl
    rw [hk] at hk'
    cases hk'
    exact hv (hkv.symm.trans hkw)

end Apart

section Moves

/-- The record names the validators that approved the rotation: distinct ones, two thirds of the
distinct validators asked. -/
structure QuorumOk (r : RotationRecord) : Prop where
  approvals_nodup : r.approvals.Nodup
  set_nodup : r.approvalValidatorSet.Nodup
  nonempty : 0 < r.approvalValidatorSet.length
  subset : ∀ v ∈ r.approvals, v ∈ r.approvalValidatorSet
  enough : approvalThreshold r.approvalValidatorSet.length ≤ r.approvals.length
  threshold : r.approvalThreshold
    = some (.ofNat (approvalThreshold r.approvalValidatorSet.length))
  approved : ∃ e, r.approvedEpoch = some e

def SameRotation (r r' : RotationRecord) : Prop :=
  r'.rotationId = r.rotationId ∧ r'.validatorId = r.validatorId
    ∧ r'.oldPublicKey = r.oldPublicKey ∧ r'.newPublicKey = r.newPublicKey

/-- What a turn may do, with the checks that let it. -/
inductive Move (c : Ceremony) : Action → Ceremony → Prop
  | stay (a : Action) (c' : Ceremony) : c'.registry = c.registry → c'.rotations = c.rotations →
      c'.activeRotationByValidator = c.activeRotationByValidator → Move c a c'
  | registered (input : RegisterActiveKeyInput) (k : KeyRecord) (c' : Ceremony) :
      Returns (KeyRegistry.registerActiveKey input) c.registry k c'.registry →
      c'.rotations = c.rotations →
      c'.activeRotationByValidator = c.activeRotationByValidator →
      Move c (.registerActiveKey input) c'
  | initiated (a : Action) (r : RotationRecord) (o k : KeyRecord) (c' : Ceremony) :
      r.phase = .initiate → r.rotationId ≠ "" → c.rotations.get r.rotationId = none →
      (c.activeRotationByValidator.get r.validatorId).getD "" = "" →
      c.registry.getCurrentSigningKey r.validatorId = some o → r.oldPublicKey = o.publicKey →
      Returns (KeyRegistry.reservePendingKey ⟨r.validatorId, r.newPublicKey, r.initiatedEpoch⟩)
        c.registry k c'.registry →
      c'.rotations = c.rotations.set r.rotationId r →
      c'.activeRotationByValidator
        = c.activeRotationByValidator.set r.validatorId r.rotationId → Move c a c'
  | approved (a : Action) (rid : String) (r r' : RotationRecord) (c' : Ceremony) :
      c.rotations.get rid = some r → r.phase = .initiate → SameRotation r r' →
      r'.phase = .approve → QuorumOk r' → c'.registry = c.registry →
      c'.rotations = c.rotations.set rid r' →
      c'.activeRotationByValidator = c.activeRotationByValidator → Move c a c'
  | activated (rid : String) (epoch slot : JsNumber) (r : RotationRecord)
      (p : KeyRecord × KeyRecord) (c' : Ceremony) : c.rotations.get rid = some r →
      r.phase = .approve → epoch.isProtocol = true → slot.isProtocol = true →
      Returns (KeyRegistry.activateRotation
        ⟨r.validatorId, r.oldPublicKey, r.newPublicKey, epoch, slot⟩) c.registry p c'.registry →
      c'.rotations = c.rotations.set rid { r with
        phase := .activate
        activatedEpoch := some epoch
        activationSlot := some slot } →
      c'.activeRotationByValidator = c.activeRotationByValidator →
      Move c (.activate rid epoch slot) c'
  | retired (rid : String) (slot epoch activation : JsNumber) (r : RotationRecord) (k : KeyRecord)
      (c' : Ceremony) : c.rotations.get rid = some r → r.phase = .activate →
      r.activationSlot = some activation → slot.isProtocol = true →
      (slot.sub activation).lt (.ofNat oldKeyRetirementSlots) = false →
      Returns (KeyRegistry.retireKey r.validatorId r.oldPublicKey epoch) c.registry k c'.registry →
      c'.rotations = c.rotations.set rid { r with
        phase := .retire
        retiredEpoch := some epoch } →
      c'.activeRotationByValidator
        = (if c.activeRotationByValidator.get r.validatorId = some rid then
            c.activeRotationByValidator.delete r.validatorId
          else c.activeRotationByValidator) → Move c (.retire rid slot epoch) c'

variable {c c' : Ceremony} {e : CodedError}

theorem requireRotation_returns {rid : String} {r : RotationRecord} :
    Returns (requireRotation rid) c r c' ↔ c.rotations.get rid = some r ∧ c' = c := by
  simp [requireRotation, and_comm]

theorem requireRotation_throws {rid : String} (h : Throws (requireRotation rid) c e c') :
    c' = c := by
  simp [requireRotation] at h
  exact h.2.2

theorem initiate_after (input : InitiateRotationInput) (a : Action) :
    Move c a (after (initiate input) c) := by
  rcases after_cases (initiate input) c with ⟨n, h⟩ | ⟨e, h⟩
  · generalize after (initiate input) c = c' at h ⊢
    simp [initiate] at h
    obtain ⟨-, -, rfl, -⟩ := h
    exact .stay a _ rfl rfl rfl
  · generalize after (initiate input) c = c' at h ⊢
    simp [initiate] at h
    rcases h with h | h
    · rw [h.2.2]
      exact .stay a _ rfl rfl rfl
    · rw [h.2.2.2]
      exact .stay a _ rfl rfl rfl

theorem approve_after (rid : String) (a : Action) : Move c a (after (approve rid) c) := by
  rcases after_cases (approve rid) c with ⟨n, h⟩ | ⟨e, h⟩
  · generalize after (approve rid) c = c' at h ⊢
    simp only [approve, returns_bind, requireRotation_returns, returns_ite] at h
    obtain ⟨r, c₁, ⟨hr, rfl⟩, h⟩ := h
    split_ifs at h
    · simp at h
      rw [h.2]
      exact .stay a _ rfl rfl rfl
    · rcases ha : c₁.approvalAttempts.get rid with _ | n <;> simp [ha] at h
      · rw [h.1]
        exact .stay a _ rfl rfl rfl
      · rw [h.2]
        exact .stay a _ rfl rfl rfl
  · generalize after (approve rid) c = c' at h ⊢
    simp only [approve, throws_bind, requireRotation_returns, throws_ite] at h
    rcases h with h | ⟨r, c₁, ⟨hr, rfl⟩, h⟩
    · rw [requireRotation_throws h]
      exact .stay a _ rfl rfl rfl
    · split_ifs at h
      · simp at h
      · rcases ha : c₁.approvalAttempts.get rid with _ | n <;> simp [ha] at h

theorem registerActiveKey_after (input : RegisterActiveKeyInput) :
    Move c (.registerActiveKey input)
      (after (onRegistry (KeyRegistry.registerActiveKey input)) c) := by
  rcases after_cases (onRegistry (KeyRegistry.registerActiveKey input)) c with ⟨k, h⟩ | ⟨e, h⟩
  · generalize after (onRegistry (KeyRegistry.registerActiveKey input)) c = c' at h ⊢
    obtain ⟨g, hg, rfl⟩ := returns_zoom.1 h
    exact .registered input k _ hg rfl rfl
  · generalize after (onRegistry (KeyRegistry.registerActiveKey input)) c = c' at h ⊢
    obtain ⟨g, hg, rfl⟩ := throws_zoom.1 h
    rw [KeyRegistry.registerActiveKey_throws hg]
    exact .stay _ _ rfl rfl rfl

theorem reserveAndRecord_returns {record r : RotationRecord}
    (h : Returns (reserveAndRecord record) c r c') :
    r = record ∧ ∃ k g, Returns (KeyRegistry.reservePendingKey
        ⟨record.validatorId, record.newPublicKey, record.initiatedEpoch⟩) c.registry k g
      ∧ c' = { c with
          registry := g
          rotations := c.rotations.set record.rotationId record
          activeRotationByValidator :=
            c.activeRotationByValidator.set record.validatorId record.rotationId } := by
  simp [reserveAndRecord, onRegistry, setRotation, clearActive] at h
  obtain ⟨k, g, hg, rfl, rfl⟩ := h
  exact ⟨rfl, k, g, hg, rfl⟩

theorem reserveAndRecord_throws {record : RotationRecord}
    (h : Throws (reserveAndRecord record) c e c')
    (hn : c.rotations.get record.rotationId = none)
    (ha : c.activeRotationByValidator.get record.validatorId ≠ some record.rotationId) :
    c' = c := by
  simp [reserveAndRecord, onRegistry, setRotation, clearActive] at h
  obtain ⟨g, hg, h⟩ := h
  rw [KeyRegistry.reservePendingKey_throws hg, if_neg ha, OrdMap.delete_of_get_eq_none hn] at h
  exact h

theorem finishInitiate_throws {input : InitiateRotationInput} {stake : ℤ} {epoch slot : JsNumber}
    {freshId : String} (h : Throws (finishInitiate input stake epoch slot freshId) c e c') :
    c' = c := by
  simp [finishInitiate, assertProtocolNumber] at h
  rcases h with h | ⟨-, h | ⟨-, h | ⟨-, h | ⟨hact, h | ⟨o, -, h | ⟨⟨hid, hn⟩, h⟩⟩⟩⟩⟩⟩
  · exact h.2.2
  · exact h.2.2
  · exact h.2.2
  · exact h.2.2
  · exact h.2.2
  · exact h.2.2
  · refine reserveAndRecord_throws h (OrdMap.has_eq_false_iff.1 hn) fun ha => hid ?_
    simp only at ha
    rw [ha] at hact
    exact hact

theorem finishInitiate_after (input : InitiateRotationInput) (stake : ℤ) (epoch slot : JsNumber)
    (freshId : String) (a : Action) :
    Move c a (after (finishInitiate input stake epoch slot freshId) c) := by
  rcases after_cases (finishInitiate input stake epoch slot freshId) c with ⟨r, h⟩ | ⟨e, h⟩
  · generalize after (finishInitiate input stake epoch slot freshId) c = c' at h ⊢
    simp [finishInitiate, assertProtocolNumber] at h
    obtain ⟨-, -, -, hact, o, ⟨ho, -⟩, ⟨hid, hn⟩, h⟩ := h
    obtain ⟨-, k, g, hg, rfl⟩ := reserveAndRecord_returns h
    exact .initiated a _ o k _ rfl hid (OrdMap.has_eq_false_iff.1 hn) hact ho rfl hg rfl rfl
  · rw [finishInitiate_throws h]
    exact .stay a _ rfl rfl rfl

theorem quorumOk_of_commitmentValid {rid : String} {commitment : RotationCommitResult} {t : ℕ}
    (r : RotationRecord) (epoch : JsNumber)
    (ht : calculateRotationApprovalThreshold (OrdSet.ofList commitment.activeValidatorIds).size
      = .ok t)
    (hv : commitmentValid rid commitment (OrdSet.ofList commitment.activeValidatorIds)
      (OrdSet.ofList commitment.approvals) t = true) :
    QuorumOk { r with
      phase := .approve
      approvedEpoch := some epoch
      approvals := (OrdSet.ofList commitment.approvals).elems
      approvalThreshold := some (.ofNat t)
      approvalValidatorSet := (OrdSet.ofList commitment.activeValidatorIds).elems } := by
  unfold calculateRotationApprovalThreshold at ht
  split_ifs at ht with h0
  cases ht
  simp only [commitmentValid, Bool.and_eq_true, decide_eq_true_eq, List.all_eq_true] at hv
  obtain ⟨⟨-, henough⟩, hall⟩ := hv
  refine ⟨OrdSet.nodup _, OrdSet.nodup _, Nat.pos_of_ne_zero h0, fun v hv => ?_, henough, rfl,
    epoch, rfl⟩
  exact OrdSet.has_iff.1 (hall v hv)

theorem persistApproval_after (rid : String) (commitment : RotationCommitResult) (epoch : JsNumber)
    (a : Action) : Move c a (after (persistApproval rid commitment epoch) c) := by
  rcases after_cases (persistApproval rid commitment epoch) c with ⟨r', h⟩ | ⟨e, h⟩
  · generalize after (persistApproval rid commitment epoch) c = c' at h ⊢
    simp only [persistApproval, returns_bind, requireRotation_returns, returns_ite] at h
    obtain ⟨r, c₁, ⟨hr, rfl⟩, h⟩ := h
    split_ifs at h with hp
    · simp at h
      rw [h.2]
      exact .stay a _ rfl rfl rfl
    · rcases ht : calculateRotationApprovalThreshold
        (OrdSet.ofList commitment.activeValidatorIds).size with err | t
      · simp [ht] at h
      · simp [ht, assertProtocolNumber, setRotation] at h
        obtain ⟨hv, -, rfl, -⟩ := h
        refine .approved a rid r _ _ hr (not_not.1 hp) ?_ ?_
          (quorumOk_of_commitmentValid r epoch ht hv) rfl rfl rfl
        · exact ⟨rfl, rfl, rfl, rfl⟩
        · rfl
  · generalize after (persistApproval rid commitment epoch) c = c' at h ⊢
    simp only [persistApproval, throws_bind, requireRotation_returns, throws_ite] at h
    rcases h with h | ⟨r, c₁, ⟨hr, rfl⟩, h⟩
    · rw [requireRotation_throws h]
      exact .stay a _ rfl rfl rfl
    · suffices c' = c₁ by
        rw [this]
        exact .stay a _ rfl rfl rfl
      split_ifs at h
      · simp at h
      · rcases ht : calculateRotationApprovalThreshold
          (OrdSet.ofList commitment.activeValidatorIds).size with err | t
        · simp [ht] at h
          exact h.2
        · simp [ht, assertProtocolNumber, setRotation] at h
          rcases h with h | h
          · exact h.2.2
          · exact h.2.2.2

theorem activate_after (rid : String) (epoch slot : JsNumber) :
    Move c (.activate rid epoch slot) (after (activate rid epoch slot) c) := by
  rcases after_cases (activate rid epoch slot) c with ⟨r', h⟩ | ⟨e, h⟩
  · generalize after (activate rid epoch slot) c = c' at h ⊢
    simp only [activate, returns_bind, requireRotation_returns, returns_ite] at h
    obtain ⟨r, c₁, ⟨hr, rfl⟩, h⟩ := h
    split_ifs at h with hp
    · simp at h
      rw [h.2]
      exact .stay _ _ rfl rfl rfl
    · simp [assertProtocolNumber, setRotation, onRegistry] at h
      obtain ⟨hph, he, hs, o, n, g, hg, -, rfl⟩ := h
      exact .activated rid epoch slot r _ _ hr hph he hs hg rfl rfl
  · generalize after (activate rid epoch slot) c = c' at h ⊢
    simp only [activate, throws_bind, requireRotation_returns, throws_ite] at h
    suffices c' = c by
      rw [this]
      exact .stay _ _ rfl rfl rfl
    rcases h with h | ⟨r, c₁, ⟨hr, rfl⟩, h⟩
    · exact requireRotation_throws h
    · split_ifs at h
      · simp at h
      · simp [assertProtocolNumber, setRotation, onRegistry] at h
        rcases h with h | ⟨-, h | ⟨-, h | ⟨-, g, hg, h⟩⟩⟩
        · exact h.2.2
        · exact h.2.2
        · exact h.2.2
        · rw [h, KeyRegistry.activateRotation_throws hg]

theorem retire_after (rid : String) (slot epoch : JsNumber) :
    Move c (.retire rid slot epoch) (after (retire rid slot epoch) c) := by
  rcases after_cases (retire rid slot epoch) c with ⟨r', h⟩ | ⟨e, h⟩
  · generalize after (retire rid slot epoch) c = c' at h ⊢
    simp only [retire, returns_bind, requireRotation_returns, returns_ite] at h
    obtain ⟨r, c₁, ⟨hr, rfl⟩, h⟩ := h
    by_cases hp : r.phase = .retire
    · rw [if_pos hp] at h
      simp at h
      rw [h.2]
      exact .stay _ _ rfl rfl rfl
    · rw [if_neg hp] at h
      simp [assertProtocolNumber, setRotation, onRegistry, clearActive] at h
      obtain ⟨act, ⟨hph, hact⟩, hs, -, hlt, k, g, hg, -, rfl⟩ := h
      refine .retired rid slot epoch act r k _ hr hph hact hs hlt ?_ ?_ ?_
      · split_ifs <;> exact hg
      · split_ifs <;> rfl
      · split_ifs <;> rfl
  · generalize after (retire rid slot epoch) c = c' at h ⊢
    simp only [retire, throws_bind, requireRotation_returns, throws_ite] at h
    suffices c' = c by
      rw [this]
      exact .stay _ _ rfl rfl rfl
    rcases h with h | ⟨r, c₁, ⟨hr, rfl⟩, h⟩
    · exact requireRotation_throws h
    · by_cases hp : r.phase = .retire
      · rw [if_pos hp] at h
        simp at h
      · rw [if_neg hp] at h
        simp [assertProtocolNumber, setRotation, onRegistry, clearActive] at h
        rcases h with h | ⟨act, -, h | ⟨-, h | ⟨-, h | ⟨-, g, hg, h⟩⟩⟩⟩
        · exact h.2.2
        · exact h.2.2
        · exact h.2.2
        · exact h.2.2
        · rw [h, KeyRegistry.retireKey_throws hg]

theorem Move.of_pre {a : Action} {c₀ : Ceremony} (h : Move c a c') (hg : c.registry = c₀.registry)
    (hr : c.rotations = c₀.rotations)
    (ha : c.activeRotationByValidator = c₀.activeRotationByValidator) : Move c₀ a c' := by
  cases h with
  | stay _ _ h1 h2 h3 => exact .stay _ _ (h1.trans hg) (h2.trans hr) (h3.trans ha)
  | registered input k _ h1 h2 h3 =>
    exact .registered input k _ (hg ▸ h1) (h2.trans hr) (h3.trans ha)
  | initiated _ r o k _ h1 h2 h3 h4 h5 h6 h7 h8 h9 =>
    exact .initiated _ r o k _ h1 h2 (hr ▸ h3) (ha ▸ h4) (hg ▸ h5) h6 (hg ▸ h7) (hr ▸ h8) (ha ▸ h9)
  | approved _ rid r r' _ h1 h2 h3 h4 h5 h6 h7 h8 =>
    exact .approved _ rid r r' _ (hr ▸ h1) h2 h3 h4 h5 (h6.trans hg) (hr ▸ h7) (h8.trans ha)
  | activated rid epoch slot r p _ h1 h2 h3 h4 h5 h6 h7 =>
    exact .activated rid epoch slot r p _ (hr ▸ h1) h2 h3 h4 (hg ▸ h5) (hr ▸ h6) (h7.trans ha)
  | retired rid slot epoch act r k _ h1 h2 h3 h4 h5 h6 h7 h8 =>
    exact .retired rid slot epoch act r k _ (hr ▸ h1) h2 h3 h4 h5 (hg ▸ h6) (hr ▸ h7) (ha ▸ h8)

theorem step_move {a : Action} (h : step c a = some c') : Move c a c' := by
  rcases a with input | input | ⟨call, stake, epoch, slot, freshId⟩ | call | rid |
    ⟨attempt, commitment, epoch⟩ | attempt | ⟨attempt, rid⟩ | ⟨rid, epoch, slot⟩ |
    ⟨rid, slot, epoch⟩ <;> simp only [step] at h
  · cases h
    exact registerActiveKey_after input
  · cases h
    exact initiate_after input _
  · obtain ⟨input, -, rfl⟩ := Option.map_eq_some_iff.1 h
    exact (finishInitiate_after input stake epoch slot freshId _).of_pre rfl rfl rfl
  · obtain ⟨input, -, rfl⟩ := Option.map_eq_some_iff.1 h
    exact .stay _ _ rfl rfl rfl
  · cases h
    exact approve_after rid _
  · obtain ⟨p, -, rfl⟩ := Option.map_eq_some_iff.1 h
    exact (persistApproval_after p.rotationId commitment epoch _).of_pre rfl rfl rfl
  · obtain ⟨p, -, rfl⟩ := Option.map_eq_some_iff.1 h
    exact .stay _ _ rfl rfl rfl
  · split_ifs at h
    · cases h
      exact .stay _ _ rfl rfl rfl
    · cases h
      exact .stay _ _ rfl rfl rfl
  · cases h
    exact activate_after rid epoch slot
  · cases h
    exact retire_after rid slot epoch

end Moves

section Phases

/-- The phase that follows. -/
def nextPhase : RotationPhase → Option RotationPhase
  | .initiate => some .approve
  | .approve => some .activate
  | .activate => some .retire
  | .retire => none

variable {c c' : Ceremony} {a : Action} {rid : String} {r r' : RotationRecord}

/-- A rotation stays, keeps its validator and keys, and stays in its phase or goes on to the
next. -/
theorem Move.phase (h : Move c a c') (hr : c.rotations.get rid = some r) :
    ∃ r', c'.rotations.get rid = some r' ∧ SameRotation r r'
      ∧ (r'.phase = r.phase ∨ nextPhase r.phase = some r'.phase) := by
  have hstay : ∀ m : OrdMap String RotationRecord, m.get rid = c.rotations.get rid →
      ∃ r', m.get rid = some r' ∧ SameRotation r r'
        ∧ (r'.phase = r.phase ∨ nextPhase r.phase = some r'.phase) :=
    fun m hm => ⟨r, hm.trans hr, ⟨rfl, rfl, rfl, rfl⟩, .inl rfl⟩
  have hset : ∀ (rid' : String) (q q' : RotationRecord), c.rotations.get rid' = some q →
      SameRotation q q' → nextPhase q.phase = some q'.phase →
      ∃ r', (c.rotations.set rid' q').get rid = some r' ∧ SameRotation r r'
        ∧ (r'.phase = r.phase ∨ nextPhase r.phase = some r'.phase) := by
    intro rid' q q' hq hsame hnext
    by_cases he : rid = rid'
    · subst he
      rw [hr] at hq
      cases hq
      exact ⟨q', OrdMap.get_set_self _ _ _, hsame, .inr hnext⟩
    · exact hstay _ (OrdMap.get_set_of_ne _ _ he)
  cases h with
  | stay _ _ _ h2 _ => exact h2 ▸ hstay _ rfl
  | registered _ _ _ _ h2 _ => exact h2 ▸ hstay _ rfl
  | initiated _ q _ _ _ _ _ h3 _ _ _ _ h8 _ =>
    rw [h8]
    refine hstay _ (OrdMap.get_set_of_ne _ _ ?_)
    rintro rfl
    rw [hr] at h3
    cases h3
  | approved _ rid' q q' _ h1 h2 h3 h4 _ _ h7 _ =>
    rw [h7]
    exact hset rid' q q' h1 h3 (by rw [h2, h4]; rfl)
  | activated rid' _ _ q _ _ h1 h2 _ _ _ h6 _ =>
    rw [h6]
    exact hset rid' q _ h1 ⟨rfl, rfl, rfl, rfl⟩ (by rw [h2]; rfl)
  | retired rid' _ _ _ q _ _ h1 h2 _ _ _ _ h7 _ =>
    rw [h7]
    exact hset rid' q _ h1 ⟨rfl, rfl, rfl, rfl⟩ (by rw [h2]; rfl)

theorem Move.appears (h : Move c a c') (hn : c.rotations.get rid = none)
    (hr : c'.rotations.get rid = some r) : r.phase = .initiate := by
  have hset : ∀ (rid' : String) (q q' : RotationRecord), c.rotations.get rid' = some q →
      (c.rotations.set rid' q').get rid ≠ some r := by
    intro rid' q q' hq he
    rw [OrdMap.get_set] at he
    split_ifs at he with hrid
    · rw [← hrid, hn] at hq
      cases hq
    · rw [hn] at he
      cases he
  cases h with
  | stay _ _ _ h2 _ =>
    rw [h2, hn] at hr
    cases hr
  | registered _ _ _ _ h2 _ =>
    rw [h2, hn] at hr
    cases hr
  | initiated _ q _ _ _ h1 _ _ _ _ _ _ h8 _ =>
    rw [h8, OrdMap.get_set] at hr
    split_ifs at hr
    · cases hr
      exact h1
    · rw [hn] at hr
      cases hr
  | approved _ rid' q q' _ h1 _ _ _ _ _ h7 _ => exact absurd (h7 ▸ hr) (hset rid' q q' h1)
  | activated rid' _ _ q _ _ h1 _ _ _ _ h6 _ => exact absurd (h6 ▸ hr) (hset rid' q _ h1)
  | retired rid' _ _ _ q _ _ h1 _ _ _ _ _ h7 _ => exact absurd (h7 ▸ hr) (hset rid' q _ h1)

theorem Move.retires (h : Move c a c') (hr : c'.rotations.get rid = some r')
    (hp : r'.phase = .retire) :
    c.rotations.get rid = some r' ∨ ∃ slot epoch act r, a = .retire rid slot epoch
      ∧ c.rotations.get rid = some r ∧ r.phase = .activate ∧ r.activationSlot = some act
      ∧ r'.activationSlot = some act ∧ slot.isProtocol = true
      ∧ (slot.sub act).lt (.ofNat oldKeyRetirementSlots) = false := by
  have hset : ∀ (rid' : String) (q : RotationRecord), q.phase ≠ .retire →
      (c.rotations.set rid' q).get rid = some r' → c.rotations.get rid = some r' := by
    intro rid' q hq he
    rw [OrdMap.get_set] at he
    split_ifs at he
    · cases he
      exact absurd hp hq
    · exact he
  cases h with
  | stay _ _ _ h2 _ => exact .inl (h2 ▸ hr)
  | registered _ _ _ _ h2 _ => exact .inl (h2 ▸ hr)
  | initiated _ q _ _ _ h1 _ _ _ _ _ _ h8 _ => exact .inl (hset _ q (by simp [h1]) (h8 ▸ hr))
  | approved _ rid' q q' _ _ _ _ h4 _ _ h7 _ => exact .inl (hset _ q' (by simp [h4]) (h7 ▸ hr))
  | activated rid' _ _ q _ _ _ _ _ _ _ h6 _ => exact .inl (hset rid' _ (by simp) (h6 ▸ hr))
  | retired rid' slot epoch act q _ _ h1 h2 h3 h4 h5 _ h7 _ =>
    rw [h7, OrdMap.get_set] at hr
    split_ifs at hr with he
    · cases hr
      subst he
      exact .inr ⟨slot, epoch, act, q, rfl, h1, h2, h3, h3, h4, h5⟩
    · exact .inl hr

end Phases

section Keys

def Standing (g : KeyRegistry) (r : RotationRecord) : Prop :=
  g.currentSigningKeyByValidator.get r.validatorId = some r.oldPublicKey
    ∧ g.pendingKeyByValidator.get r.validatorId = some r.newPublicKey

/-- The new key signs; both keys carry the coordinates of the activation. -/
structure HandedOver (g : KeyRegistry) (r : RotationRecord) : Prop where
  coordinates : ∃ e s, r.activatedEpoch = some e ∧ r.activationSlot = some s
    ∧ e.isProtocol = true ∧ s.isProtocol = true
  old : ∃ k, g.keysByPublicKey.get r.oldPublicKey = some k ∧ k.validatorId = r.validatorId
    ∧ k.state = .active ∧ k.signingEnabled = false
    ∧ k.deactivationEpoch = r.activatedEpoch ∧ k.deactivationSlot = r.activationSlot
  new : ∃ k, g.keysByPublicKey.get r.newPublicKey = some k ∧ k.validatorId = r.validatorId
    ∧ k.state = .active ∧ k.signingEnabled = true
    ∧ k.activationEpoch = r.activatedEpoch ∧ k.activationSlot = r.activationSlot

/-- The registry is where the phase of the rotation says. -/
structure KeysOk (g : KeyRegistry) (r : RotationRecord) : Prop where
  standing : r.phase = .initiate ∨ r.phase = .approve → Standing g r
  handedOver : r.phase = .activate → HandedOver g r
  retired : r.phase = .retire → ∃ k, g.keysByPublicKey.get r.oldPublicKey = some k
    ∧ k.validatorId = r.validatorId ∧ k.state = .retired

variable {g g' : KeyRegistry} {r : RotationRecord}

theorem HandedOver.signing (h : HandedOver g r) (hg : g.Consistent) :
    g.currentSigningKeyByValidator.get r.validatorId = some r.newPublicKey := by
  obtain ⟨k, hk, hkv, -, hs, -⟩ := h.new
  rw [← hkv]
  exact (hg.signing _ _ hk).1 hs

theorem KeysOk.signing (h : KeysOk g r) (hg : g.Consistent) (hp : r.phase ≠ .retire) :
    ∃ key, g.currentSigningKeyByValidator.get r.validatorId = some key := by
  rcases hph : r.phase with _ | _ | _ | _
  · exact ⟨_, (h.standing (.inl hph)).1⟩
  · exact ⟨_, (h.standing (.inr hph)).1⟩
  · exact ⟨_, (h.handedOver hph).signing hg⟩
  · exact absurd hph hp

theorem KeysOk.frame (h : KeysOk g r) (hm : KeyRegistry.Move g g')
    (ha : r.phase ≠ .retire → Apart r.validatorId g g') : KeysOk g' r := by
  refine ⟨fun hp => ?_, fun hp => ?_, fun hp => ?_⟩
  · have hap := ha (by rcases hp with hp | hp <;> simp [hp])
    obtain ⟨h1, h2⟩ := h.standing hp
    exact ⟨hap.signing.trans h1, hap.pending.trans h2⟩
  · have hap := ha (by simp [hp])
    obtain ⟨hco, ⟨o, ho, hov, ho'⟩, ⟨n, hn, hnv, hn'⟩⟩ := h.handedOver hp
    exact ⟨hco, ⟨o, hap.owned _ _ ho hov, hov, ho'⟩, ⟨n, hap.owned _ _ hn hnv, hnv, hn'⟩⟩
  · obtain ⟨k, hk, hkv, hs⟩ := h.retired hp
    exact ⟨k, hm.retired hk hs, hkv, hs⟩

theorem Standing.old (h : Standing g r) (hg : g.Consistent) :
    ∃ k, g.keysByPublicKey.get r.oldPublicKey = some k ∧ k.validatorId = r.validatorId
      ∧ k.state = .active ∧ k.signingEnabled = true := by
  obtain ⟨k, hk, hkv⟩ := hg.signingIndex _ _ h.1
  have hs := (hg.signing _ _ hk).2 (by rw [hkv]; exact h.1)
  exact ⟨k, hk, hkv, hg.signingActive _ _ hk hs, hs⟩

theorem Standing.new (h : Standing g r) (hg : g.Consistent) :
    ∃ k, g.keysByPublicKey.get r.newPublicKey = some k ∧ k.validatorId = r.validatorId
      ∧ k.state = .pending := by
  obtain ⟨k, hk, hkv⟩ := hg.pendingIndex _ _ h.2
  exact ⟨k, hk, hkv, (hg.pending _ _ hk).2 (by rw [hkv]; exact h.2)⟩

theorem Standing.ne (h : Standing g r) (hg : g.Consistent) : r.oldPublicKey ≠ r.newPublicKey := by
  intro he
  obtain ⟨k, hk, -, hs, -⟩ := h.old hg
  obtain ⟨k', hk', -, hs'⟩ := h.new hg
  rw [he, hk'] at hk
  cases hk
  rw [hs] at hs'
  cases hs'

theorem Standing.activatedPair (h : Standing g r) (hg : g.Consistent) (epoch slot : JsNumber) :
    g.activatedPair ⟨r.validatorId, r.oldPublicKey, r.newPublicKey, epoch, slot⟩ = none := by
  rcases hp : g.activatedPair ⟨r.validatorId, r.oldPublicKey, r.newPublicKey, epoch, slot⟩ with
    _ | ⟨o, n⟩
  · rfl
  · obtain ⟨-, hn, -, hns⟩ := KeyRegistry.activatedPair_eq_some hp
    obtain ⟨k, hk, -, hs⟩ := h.new hg
    simp only at hn
    rw [hk] at hn
    cases hn
    have := hg.signingActive _ _ hk hns
    rw [hs] at this
    cases this

theorem Standing.activated (h : Standing g r) (hg : g.Consistent) {epoch slot : JsNumber}
    {p : KeyRecord × KeyRecord} (he : epoch.isProtocol = true) (hs : slot.isProtocol = true)
    (hret : Returns (KeyRegistry.activateRotation
      ⟨r.validatorId, r.oldPublicKey, r.newPublicKey, epoch, slot⟩) g p g') :
    KeyRegistry.Move g g' ∧ HandedOver g' { r with
      phase := .activate
      activatedEpoch := some epoch
      activationSlot := some slot } := by
  rcases KeyRegistry.activateRotation_returns hret with
    ⟨-, hp⟩ | ⟨o, n, ho, hov, hos, hcur, hn, hnv, hns, hpen, rfl⟩
  · rw [h.activatedPair hg] at hp
    cases hp
  · refine ⟨.activate _ o n ho hov hos hcur hn hnv hns hpen, ⟨epoch, slot, rfl, rfl, he, hs⟩, ?_, ?_⟩
    · refine ⟨_, (OrdMap.get_set_of_ne _ _ (h.ne hg)).trans (OrdMap.get_set_self _ _ _), hov, hos,
        rfl, rfl, rfl⟩
    · exact ⟨_, OrdMap.get_set_self _ _ _, hnv, rfl, rfl, rfl, rfl⟩

theorem Standing.activates (h : Standing g r) (hg : g.Consistent) {epoch slot : JsNumber}
    (he : epoch.isProtocol = true) (hs : slot.isProtocol = true) :
    ∃ p g', Returns (KeyRegistry.activateRotation
      ⟨r.validatorId, r.oldPublicKey, r.newPublicKey, epoch, slot⟩) g p g' := by
  obtain ⟨o, ho, hov, hos, hsig⟩ := h.old hg
  obtain ⟨n, hn, hnv, hns⟩ := h.new hg
  simp [KeyRegistry.activateRotation, KeyRegistry.performActivation,
    KeyRegistry.assertProtocolNumber, KeyRegistry.setKey, KeyRegistry.ownedIn_eq_some,
    h.activatedPair hg, he, hs, ho, hov, hos, hsig, hn, hnv, hns, h.1, h.2]

end Keys

section Invariant

/-- The registry is consistent and where the phases say; the phases past `INITIATE` have their
quorum; the active index names exactly the rotations that are not retired. -/
structure Inv (c : Ceremony) : Prop where
  registry : c.registry.Consistent
  named : ∀ rid r, c.rotations.get rid = some r → r.rotationId = rid ∧ rid ≠ ""
  keys : ∀ rid r, c.rotations.get rid = some r → KeysOk c.registry r
  quorum : ∀ rid r, c.rotations.get rid = some r → r.phase ≠ .initiate → QuorumOk r
  active : ∀ v rid, c.activeRotationByValidator.get v = some rid ↔
    ∃ r, c.rotations.get rid = some r ∧ r.validatorId = v ∧ r.phase ≠ .retire

variable {c c' : Ceremony} {a : Action}

theorem Inv.unique (hi : Inv c) {rid rid' : String} {r r' : RotationRecord}
    (hr : c.rotations.get rid = some r) (hr' : c.rotations.get rid' = some r')
    (hp : r.phase ≠ .retire) (hp' : r'.phase ≠ .retire) (hv : r'.validatorId = r.validatorId) :
    rid' = rid := by
  have h1 := (hi.active r.validatorId rid).2 ⟨r, hr, rfl, hp⟩
  have h2 := (hi.active r.validatorId rid').2 ⟨r', hr', hv, hp'⟩
  rw [h1] at h2
  exact (Option.some.inj h2).symm

theorem inv_init : Inv {} := by
  refine ⟨KeyRegistry.consistent_empty, ?_, ?_, ?_, ?_⟩
  · simp
  · simp
  · simp
  · simp

theorem Inv.named_set (hi : Inv c) {rid : String} {r : RotationRecord} (hid : r.rotationId = rid)
    (hne : rid ≠ "") : ∀ rid' r', (c.rotations.set rid r).get rid' = some r' →
      r'.rotationId = rid' ∧ rid' ≠ "" := by
  intro rid' r' h
  obtain ⟨rfl, rfl⟩ | ⟨-, h⟩ := OrdMap.of_get_set h
  · exact ⟨hid, hne⟩
  · exact hi.named rid' r' h

theorem Inv.quorum_set (hi : Inv c) {rid : String} {r : RotationRecord}
    (hq : r.phase ≠ .initiate → QuorumOk r) : ∀ rid' r',
      (c.rotations.set rid r).get rid' = some r' → r'.phase ≠ .initiate → QuorumOk r' := by
  intro rid' r' h
  obtain ⟨rfl, rfl⟩ | ⟨-, h⟩ := OrdMap.of_get_set h
  · exact hq
  · exact hi.quorum rid' r' h

theorem Inv.keys_set (hi : Inv c) {rid : String} {r : RotationRecord} {g : KeyRegistry}
    (hm : KeyRegistry.Move c.registry g) (hr : KeysOk g r)
    (ha : ∀ rid' r', rid' ≠ rid → c.rotations.get rid' = some r' → r'.phase ≠ .retire →
      Apart r'.validatorId c.registry g) :
    ∀ rid' r', (c.rotations.set rid r).get rid' = some r' → KeysOk g r' := by
  intro rid' r' h
  rw [OrdMap.get_set] at h
  split_ifs at h with he
  · cases h
    exact hr
  · exact (hi.keys rid' r' h).frame hm (ha rid' r' he h)

theorem Inv.active_set (hi : Inv c) {rid : String} {r r' : RotationRecord}
    (hr : c.rotations.get rid = some r) (hp : r.phase ≠ .retire) (hp' : r'.phase ≠ .retire)
    (hv : r'.validatorId = r.validatorId) (v rid' : String) :
    c.activeRotationByValidator.get v = some rid' ↔
      ∃ q, (c.rotations.set rid r').get rid' = some q ∧ q.validatorId = v ∧ q.phase ≠ .retire := by
  rw [hi.active, OrdMap.get_set]
  split_ifs with he
  · subst he
    simp [hr, hp, hp', hv]
  · rfl

theorem inv_registered (hi : Inv c) {input : RegisterActiveKeyInput} {k : KeyRecord}
    (h : Returns (KeyRegistry.registerActiveKey input) c.registry k c'.registry)
    (hr : c'.rotations = c.rotations)
    (ha : c'.activeRotationByValidator = c.activeRotationByValidator) : Inv c' := by
  obtain ⟨hb, hk, hcur, hkp, hkv, hks, hsig, hg⟩ := KeyRegistry.registerActiveKey_returns h
  have hm : KeyRegistry.Move c.registry c'.registry := by
    rw [hg]
    exact .register k (hkp ▸ hb) hks hsig (hkp ▸ hk) (hkv ▸ hcur)
  refine ⟨hi.registry.move hm, hr ▸ hi.named, fun rid r hget => ?_, hr ▸ hi.quorum, ?_⟩
  · rw [hr] at hget
    refine (hi.keys rid r hget).frame hm fun hp => ?_
    obtain ⟨key, hkey⟩ := (hi.keys rid r hget).signing hi.registry hp
    exact (apart_register h hkey).1
  · rw [hr, ha]
    exact hi.active

theorem inv_initiated (hi : Inv c) {r : RotationRecord} {o k : KeyRecord}
    (hp : r.phase = .initiate) (hid : r.rotationId ≠ "")
    (hn : c.rotations.get r.rotationId = none)
    (hact : (c.activeRotationByValidator.get r.validatorId).getD "" = "")
    (ho : c.registry.getCurrentSigningKey r.validatorId = some o)
    (hold : r.oldPublicKey = o.publicKey)
    (h : Returns (KeyRegistry.reservePendingKey ⟨r.validatorId, r.newPublicKey, r.initiatedEpoch⟩)
      c.registry k c'.registry)
    (hr : c'.rotations = c.rotations.set r.rotationId r)
    (ha : c'.activeRotationByValidator
      = c.activeRotationByValidator.set r.validatorId r.rotationId) : Inv c' := by
  have hnone : ∀ rid r', c.rotations.get rid = some r' → r'.phase ≠ .retire →
      r'.validatorId ≠ r.validatorId := by
    intro rid r' hget hp' hv
    have hactive := (hi.active r.validatorId rid).2 ⟨r', hget, hv, hp'⟩
    rw [hactive] at hact
    exact (hi.named rid r' hget).2 hact
  have hap : ∀ v, v ≠ r.validatorId → Apart v c.registry c'.registry :=
    fun v hv => apart_reserve h hv
  obtain ⟨hb, hk, hpen, hkp, hkv, hks, hsig, hg⟩ := KeyRegistry.reservePendingKey_returns h
  simp only at hb hk hpen hkp hkv
  have hm : KeyRegistry.Move c.registry c'.registry := by
    rw [hg]
    exact .reserve k (hkp ▸ hb) hks hsig (hkp ▸ hk) (hkv ▸ hpen)
  have hcur : c.registry.currentSigningKeyByValidator.get r.validatorId = some r.oldPublicKey := by
    unfold KeyRegistry.getCurrentSigningKey at ho
    split at ho
    · cases ho
    · rename_i key hkey
      split_ifs at ho
      rw [hkey, hold, (hi.registry.named key o ho).1]
  have hstand : Standing c'.registry r := by
    rw [hg]
    refine ⟨hcur, ?_⟩
    simp only [hkv, hkp]
    exact OrdMap.get_set_self _ _ _
  refine ⟨hi.registry.move hm, hr ▸ hi.named_set rfl hid, ?_,
    hr ▸ hi.quorum_set fun hp' => absurd hp hp', fun v rid => ?_⟩
  · rw [hr]
    refine hi.keys_set hm ⟨fun _ => hstand, by simp [hp], by simp [hp]⟩ ?_
    intro rid' r' _ hget hp'
    exact hap _ (hnone rid' r' hget hp')
  · rw [ha, hr, OrdMap.get_set, OrdMap.get_set]
    by_cases hrid : rid = r.rotationId
    · subst hrid
      have hnot : c.activeRotationByValidator.get v ≠ some r.rotationId := by
        intro hv
        obtain ⟨q, hq, -⟩ := (hi.active v r.rotationId).1 hv
        rw [hn] at hq
        cases hq
      rw [if_pos rfl]
      by_cases hv : v = r.validatorId
      · simp [hv, hp]
      · simp [hv, hnot, Ne.symm hv]
    · rw [if_neg hrid, ← hi.active]
      by_cases hv : v = r.validatorId
      · subst hv
        rw [if_pos rfl]
        constructor
        · intro he
          exact absurd (Option.some.inj he).symm hrid
        · intro he
          obtain ⟨q, hq, hqv, hqp⟩ := (hi.active _ rid).1 he
          exact absurd hqv (hnone rid q hq hqp)
      · rw [if_neg hv]

theorem inv_approved (hi : Inv c) {rid : String} {r r' : RotationRecord}
    (hget : c.rotations.get rid = some r) (hp : r.phase = .initiate) (hsame : SameRotation r r')
    (hp' : r'.phase = .approve) (hq : QuorumOk r') (hg : c'.registry = c.registry)
    (hr : c'.rotations = c.rotations.set rid r')
    (ha : c'.activeRotationByValidator = c.activeRotationByValidator) : Inv c' := by
  obtain ⟨s1, s2, s3, s4⟩ := hsame
  have hstand : Standing c.registry r' := by
    have := (hi.keys rid r hget).standing (.inl hp)
    unfold Standing
    rwa [s2, s3, s4]
  obtain ⟨hid, hne⟩ := hi.named rid r hget
  refine ⟨hg ▸ hi.registry, hr ▸ hi.named_set (s1.trans hid) hne, ?_,
    hr ▸ hi.quorum_set fun _ => hq, fun v rid' => ?_⟩
  · rw [hr, hg]
    exact hi.keys_set .stay ⟨fun _ => hstand, by simp [hp'], by simp [hp']⟩
      fun rid' q _ _ _ => ⟨rfl, rfl, fun _ _ h _ => h⟩
  · rw [ha, hr]
    exact hi.active_set hget (by simp [hp]) (by simp [hp']) s2 v rid'

theorem inv_activated (hi : Inv c) {rid : String} {epoch slot : JsNumber} {r : RotationRecord}
    {p : KeyRecord × KeyRecord} (hget : c.rotations.get rid = some r) (hp : r.phase = .approve)
    (he : epoch.isProtocol = true) (hs : slot.isProtocol = true)
    (h : Returns (KeyRegistry.activateRotation
      ⟨r.validatorId, r.oldPublicKey, r.newPublicKey, epoch, slot⟩) c.registry p c'.registry)
    (hr : c'.rotations = c.rotations.set rid { r with
      phase := .activate
      activatedEpoch := some epoch
      activationSlot := some slot })
    (ha : c'.activeRotationByValidator = c.activeRotationByValidator) : Inv c' := by
  have hstand := (hi.keys rid r hget).standing (.inr hp)
  obtain ⟨hm, hover⟩ := hstand.activated hi.registry he hs h
  obtain ⟨hid, hne⟩ := hi.named rid r hget
  obtain ⟨q1, q2, q3, q4, q5, q6, q7⟩ := hi.quorum rid r hget (by simp [hp])
  refine ⟨hi.registry.move hm, hr ▸ hi.named_set hid hne, ?_,
    hr ▸ hi.quorum_set fun _ => ⟨q1, q2, q3, q4, q5, q6, q7⟩, fun v rid' => ?_⟩
  · rw [hr]
    refine hi.keys_set hm ⟨by simp, fun _ => hover, by simp⟩ fun rid' q hne hq hqp => ?_
    refine apart_activate h fun hv => hne ?_
    exact hi.unique hget hq (by simp [hp]) hqp hv
  · rw [ha, hr]
    refine hi.active_set hget ?_ ?_ ?_ v rid'
    · simp [hp]
    · simp
    · rfl

theorem inv_retired (hi : Inv c) {rid : String} {epoch : JsNumber} {r : RotationRecord}
    {k : KeyRecord} (hget : c.rotations.get rid = some r) (hp : r.phase = .activate)
    (h : Returns (KeyRegistry.retireKey r.validatorId r.oldPublicKey epoch) c.registry k
      c'.registry)
    (hr : c'.rotations = c.rotations.set rid { r with
      phase := .retire
      retiredEpoch := some epoch })
    (ha : c'.activeRotationByValidator
      = (if c.activeRotationByValidator.get r.validatorId = some rid then
          c.activeRotationByValidator.delete r.validatorId
        else c.activeRotationByValidator)) : Inv c' := by
  have hactive := (hi.active r.validatorId rid).2 ⟨r, hget, rfl, by simp [hp]⟩
  rw [if_pos hactive] at ha
  have hapart : ∀ v, v ≠ r.validatorId → Apart v c.registry c'.registry :=
    fun v hv => apart_retire h hv
  have hret : KeyRegistry.Move c.registry c'.registry
      ∧ ∃ k, c'.registry.keysByPublicKey.get r.oldPublicKey = some k
        ∧ k.validatorId = r.validatorId ∧ k.state = .retired := by
    rcases KeyRegistry.retireKey_returns h with ⟨hg, hk⟩ | ⟨k₀, hk, hkv, hks, hsig, hg⟩ <;> rw [hg]
    · exact ⟨.stay, k, hk⟩
    · exact ⟨.retire _ k₀ epoch hk hks hsig, _, OrdMap.get_set_self _ _ _, hkv, rfl⟩
  obtain ⟨hm, hold⟩ := hret
  obtain ⟨hid, hne⟩ := hi.named rid r hget
  obtain ⟨q1, q2, q3, q4, q5, q6, q7⟩ := hi.quorum rid r hget (by simp [hp])
  refine ⟨hi.registry.move hm, hr ▸ hi.named_set hid hne, ?_,
    hr ▸ hi.quorum_set fun _ => ⟨q1, q2, q3, q4, q5, q6, q7⟩, fun v rid' => ?_⟩
  · rw [hr]
    refine hi.keys_set hm ⟨by simp, by simp, fun _ => hold⟩ fun rid' q hne hq hqp => ?_
    refine hapart _ fun hv => hne ?_
    exact hi.unique hget hq (by simp [hp]) hqp hv
  · rw [ha, hr, OrdMap.get_delete, OrdMap.get_set]
    by_cases hrid : rid' = rid
    · subst hrid
      rw [if_pos rfl]
      by_cases hv : v = r.validatorId
      · simp [hv]
      · rw [if_neg hv]
        constructor
        · intro hact
          obtain ⟨q, hq, hqv, -⟩ := (hi.active v rid').1 hact
          rw [hget] at hq
          cases hq
          exact absurd hqv.symm hv
        · rintro ⟨q, hq, -, hqp⟩
          cases hq
          exact absurd rfl hqp
    · rw [if_neg hrid, ← hi.active]
      by_cases hv : v = r.validatorId
      · subst hv
        rw [if_pos rfl, hactive]
        simp [Ne.symm hrid]
      · rw [if_neg hv]

theorem Inv.move (hi : Inv c) (h : Move c a c') : Inv c' := by
  cases h with
  | stay _ _ h1 h2 h3 =>
    refine ⟨h1 ▸ hi.registry, h2 ▸ hi.named, ?_, h2 ▸ hi.quorum, ?_⟩
    · rw [h1, h2]
      exact hi.keys
    · rw [h2, h3]
      exact hi.active
  | registered input k _ h1 h2 h3 => exact inv_registered hi h1 h2 h3
  | initiated _ r o k _ h1 h2 h3 h4 h5 h6 h7 h8 h9 =>
    exact inv_initiated hi h1 h2 h3 h4 h5 h6 h7 h8 h9
  | approved _ rid r r' _ h1 h2 h3 h4 h5 h6 h7 h8 => exact inv_approved hi h1 h2 h3 h4 h5 h6 h7 h8
  | activated rid epoch slot r p _ h1 h2 h3 h4 h5 h6 h7 =>
    exact inv_activated hi h1 h2 h3 h4 h5 h6 h7
  | retired rid slot epoch act r k _ h1 h2 _ _ _ h6 h7 h8 => exact inv_retired hi h1 h2 h6 h7 h8

theorem inv_reachable (h : sys.Reachable c) : Inv c :=
  h.invariant (fun c hi => by rw [show c = {} from hi]; exact inv_init)
    (fun _ _ _ hi hs => hi.move (step_move hs))

end Invariant

section Safety

variable {c : Ceremony} {h : List (Taken Ceremony Action)}

theorem run_retired (hr : Run sys h c) : ∀ {rid : String} {r : RotationRecord},
    c.rotations.get rid = some r → r.phase = .retire →
    ∃ t ∈ h, ∃ slot epoch r₀ m n, t.act = .retire rid slot epoch
      ∧ t.pre.rotations.get rid = some r₀ ∧ r₀.phase = .activate
      ∧ r₀.activationSlot = some (.ofNat m) ∧ r.activationSlot = some (.ofNat m)
      ∧ slot = .ofNat n ∧ oldKeyRetirementSlots ≤ n - m := by
  induction hr with
  | start hi =>
    intro rid r hget
    rw [show _ = ({} : Ceremony) from hi] at hget
    simp at hget
  | @next h s s' a hr hs ih =>
    intro rid r hget hp
    rcases (step_move hs).retires hget hp with
      hold | ⟨slot, epoch, act, r₀, ha, hr₀, hp₀, hact, hact', hslot, hlt⟩
    · obtain ⟨t, ht, rest⟩ := ih hold hp
      exact ⟨t, List.mem_cons_of_mem _ ht, rest⟩
    · obtain ⟨-, m', -, hm', -, hm⟩ :=
        (((inv_reachable hr.reachable).keys rid r₀ hr₀).handedOver hp₀).coordinates
      rw [hact] at hm'
      cases hm'
      obtain ⟨m, rfl, -⟩ := JsNumber.isProtocol_iff.1 hm
      obtain ⟨n, rfl, -⟩ := JsNumber.isProtocol_iff.1 hslot
      have hlate : ¬ n < m + oldKeyRetirementSlots := by
        rw [← JsNumber.sub_lt_ofNat, hlt]
        simp
      exact ⟨_, List.mem_cons_self, _, epoch, r₀, m, n, ha, hr₀, hp₀, hact, hact', rfl, by omega⟩

/-- After any turns: rotations appeared in `INITIATE` and went through the phases one at a time;
a validator has at most one that is not retired, the one the active index names; the registry is
where the phases say, so an approved rotation activates with any valid clock; and a retired one
was retired late enough. -/
theorem rotation_safe (hr : Run sys h c) :
    (∀ t ∈ h, ∀ rid, (∀ r, t.pre.rotations.get rid = some r →
        ∃ r', t.post.rotations.get rid = some r' ∧ SameRotation r r'
          ∧ (r'.phase = r.phase ∨ nextPhase r.phase = some r'.phase))
        ∧ (t.pre.rotations.get rid = none →
          ∀ r', t.post.rotations.get rid = some r' → r'.phase = .initiate))
      ∧ (∀ rid rid' r r', c.rotations.get rid = some r → c.rotations.get rid' = some r' →
        r.phase ≠ .retire → r'.phase ≠ .retire → r'.validatorId = r.validatorId → rid' = rid)
      ∧ (∀ v rid, c.activeRotationByValidator.get v = some rid ↔
        ∃ r, c.rotations.get rid = some r ∧ r.validatorId = v ∧ r.phase ≠ .retire)
      ∧ (∀ rid r, c.rotations.get rid = some r → r.phase = .initiate ∨ r.phase = .approve →
        c.registry.currentSigningKeyByValidator.get r.validatorId = some r.oldPublicKey
          ∧ c.registry.pendingKeyByValidator.get r.validatorId = some r.newPublicKey
          ∧ ∃ k, c.registry.getKey r.newPublicKey = some k ∧ k.validatorId = r.validatorId
            ∧ k.state = .pending)
      ∧ (∀ rid r, c.rotations.get rid = some r → r.phase = .approve → ∀ epoch slot : JsNumber,
        epoch.isProtocol = true → slot.isProtocol = true →
        ∃ r' c', Returns (activate rid epoch slot) c r' c')
      ∧ (∀ rid r, c.rotations.get rid = some r → r.phase = .activate →
        c.registry.currentSigningKeyByValidator.get r.validatorId = some r.newPublicKey
          ∧ ∃ k, c.registry.getKey r.oldPublicKey = some k ∧ k.validatorId = r.validatorId
            ∧ k.state = .active ∧ k.signingEnabled = false)
      ∧ ∀ rid r, c.rotations.get rid = some r → r.phase = .retire →
        (∃ k, c.registry.getKey r.oldPublicKey = some k ∧ k.validatorId = r.validatorId
          ∧ k.state = .retired)
          ∧ ∃ t ∈ h, ∃ slot epoch r₀ m n, t.act = .retire rid slot epoch
            ∧ t.pre.rotations.get rid = some r₀ ∧ r₀.phase = .activate
            ∧ r₀.activationSlot = some (.ofNat m) ∧ r.activationSlot = some (.ofNat m)
            ∧ slot = .ofNat n ∧ oldKeyRetirementSlots ≤ n - m := by
  have hi := inv_reachable hr.reachable
  refine ⟨fun t ht rid => ?_, fun rid rid' r r' h1 h2 h3 h4 h5 => hi.unique h1 h2 h3 h4 h5,
    hi.active, fun rid r hget hp => ?_, fun rid r hget hp epoch slot he hs => ?_,
    fun rid r hget hp => ?_, fun rid r hget hp => ⟨(hi.keys rid r hget).retired hp,
      run_retired hr hget hp⟩⟩
  · have hm := step_move (hr.taken ht).2
    exact ⟨fun r hget => hm.phase hget, fun hn r' hget => hm.appears hn hget⟩
  · have hstand := (hi.keys rid r hget).standing hp
    exact ⟨hstand.1, hstand.2, hstand.new hi.registry⟩
  · have hstand := (hi.keys rid r hget).standing (.inr hp)
    obtain ⟨p, g, hg⟩ := hstand.activates hi.registry he hs
    simp only [activate, returns_bind, requireRotation_returns]
    simp [hget, hp, assertProtocolNumber, he, hs, onRegistry, setRotation]
    exact ⟨p.1, p.2, g, hg⟩
  · have hover := (hi.keys rid r hget).handedOver hp
    obtain ⟨k, hk, hkv, hks, hsig, -⟩ := hover.old
    exact ⟨hover.signing hi.registry, k, hk, hkv, hks, hsig⟩

theorem rotation_safe_retired : ∃ h c r, Run sys h c ∧ c.rotations.get "r" = some r
    ∧ r.phase = .retire ∧ ∃ k, c.registry.getKey "k₀" = some k ∧ k.state = .retired := by
  obtain ⟨h, c, hr, hp⟩ := Sys.exists_run (S := sys) rfl
    [.registerActiveKey { validatorId := "v", publicKey := "k₀", registeredEpoch := 1 },
      .initiate { validatorId := "v", newPublicKey := "k₁" },
      .initiate { validatorId := "v", newPublicKey := "k₂" },
      .stakeAnswered 0 10000 2 20 "r", .stakeAnswered 1 10000 2 20 "q", .approve "r",
      .commitAnswered 2 ⟨"r", ["a", "b"], 2, ["a", "b", "c"]⟩ 3, .cleanup 2 "r",
      .activate "r" 4 100, .retire "r" 4195 5, .retire "r" 4196 5]
    (p := fun x => x.2.rotations.size = 1
      ∧ (x.2.rotations.get "r").any fun r => r.phase = .retire ∧ r.oldPublicKey = "k₀")
    (by decide +kernel)
  simp only [Bool.decide_and, Bool.and_eq_true, decide_eq_true_eq, Option.any_eq_true] at hp
  obtain ⟨-, r, hget, hphase, hold⟩ := hp
  obtain ⟨k, hk, -, hs⟩ := ((rotation_safe hr).2.2.2.2.2.2 "r" r hget hphase).1
  exact ⟨h, c, r, hr, hget, hphase, k, hold ▸ hk, hs⟩

end Safety

end Ceremony

end VeriNode
