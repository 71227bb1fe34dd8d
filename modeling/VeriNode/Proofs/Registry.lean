import VeriNode.Keys.Registry
import Mathlib.Tactic.Tauto

/-!
# The key registry stays consistent

Each call ends in one of six `Move`s of the registry: none at all, or one of the five writes with
the checks that let it through (`call_returns`). A throw makes no move (`call_throws`). The moves
keep the two indices in step with the records, in both directions (`Consistent.move`), never touch
a retired record (`Move.retired`), and drop or change the owner of no key but one that
`releasePendingKey` removes (`Kept`).
-/

namespace VeriNode

open Turn

namespace KeyRegistry

/-- What a call may do to the registry, with the checks that let it. -/
inductive Move (r : KeyRegistry) : KeyRegistry → Prop
  | stay : Move r r
  | register (k : KeyRecord) : JsString.isBlank k.publicKey = false → k.state = .active →
      k.signingEnabled = true → r.keysByPublicKey.get k.publicKey = none →
      r.currentSigningKeyByValidator.get k.validatorId = none →
      Move r { r with
        keysByPublicKey := r.keysByPublicKey.set k.publicKey k
        currentSigningKeyByValidator :=
          r.currentSigningKeyByValidator.set k.validatorId k.publicKey }
  | reserve (k : KeyRecord) : JsString.isBlank k.publicKey = false → k.state = .pending →
      k.signingEnabled = false → r.keysByPublicKey.get k.publicKey = none →
      r.pendingKeyByValidator.get k.validatorId = none →
      Move r { r with
        keysByPublicKey := r.keysByPublicKey.set k.publicKey k
        pendingKeyByValidator := r.pendingKeyByValidator.set k.validatorId k.publicKey }
  | release (key : String) (k : KeyRecord) : r.keysByPublicKey.get key = some k →
      k.state = .pending → r.pendingKeyByValidator.get k.validatorId = some key →
      Move r { r with
        keysByPublicKey := r.keysByPublicKey.delete key
        pendingKeyByValidator := r.pendingKeyByValidator.delete k.validatorId }
  | activate (i : ActivateKeyRotationInput) (o n : KeyRecord) :
      r.keysByPublicKey.get i.oldPublicKey = some o → o.validatorId = i.validatorId →
      o.state = .active → r.currentSigningKeyByValidator.get i.validatorId = some i.oldPublicKey →
      r.keysByPublicKey.get i.newPublicKey = some n → n.validatorId = i.validatorId →
      n.state = .pending → r.pendingKeyByValidator.get i.validatorId = some i.newPublicKey →
      Move r
        { keysByPublicKey := (r.keysByPublicKey.set i.oldPublicKey { o with
              signingEnabled := false
              deactivationEpoch := some i.activationEpoch
              deactivationSlot := some i.activationSlot }).set i.newPublicKey { n with
              state := .active
              signingEnabled := true
              activationEpoch := some i.activationEpoch
              activationSlot := some i.activationSlot }
          currentSigningKeyByValidator :=
            r.currentSigningKeyByValidator.set i.validatorId i.newPublicKey
          pendingKeyByValidator := r.pendingKeyByValidator.delete i.validatorId }
  | retire (key : String) (k : KeyRecord) (epoch : JsNumber) :
      r.keysByPublicKey.get key = some k → k.state = .active → k.signingEnabled = false →
      Move r { r with
        keysByPublicKey := r.keysByPublicKey.set key { k with
          state := .retired
          signingEnabled := false
          retirementEpoch := some epoch } }

section Spec

variable {r r' : KeyRegistry} {e : CodedError}

theorem registerActiveKey_returns {input : RegisterActiveKeyInput} {k : KeyRecord}
    (h : Returns (registerActiveKey input) r k r') :
    JsString.isBlank input.publicKey = false ∧ r.keysByPublicKey.get input.publicKey = none
      ∧ r.currentSigningKeyByValidator.get input.validatorId = none
      ∧ k.publicKey = input.publicKey ∧ k.validatorId = input.validatorId ∧ k.state = .active
      ∧ k.signingEnabled = true
      ∧ r' = { r with
          keysByPublicKey := r.keysByPublicKey.set k.publicKey k
          currentSigningKeyByValidator :=
            r.currentSigningKeyByValidator.set k.validatorId k.publicKey } := by
  simp [registerActiveKey, validateRegistration, assertIdentifier, assertProtocolNumber,
    assertPublicKeyAvailable, setKey, OrdMap.has_eq_false_iff] at h
  obtain ⟨-, hb, -, -, -, hk, hc, rfl, rfl⟩ := h
  exact ⟨hb, hk, hc, rfl, rfl, rfl, rfl, rfl⟩

theorem registerActiveKey_throws {input : RegisterActiveKeyInput}
    (h : Throws (registerActiveKey input) r e r') : r' = r := by
  simp [registerActiveKey, validateRegistration, assertIdentifier, assertProtocolNumber,
    assertPublicKeyAvailable, setKey] at h
  tauto

theorem reservePendingKey_returns {input : ReservePendingKeyInput} {k : KeyRecord}
    (h : Returns (reservePendingKey input) r k r') :
    JsString.isBlank input.publicKey = false ∧ r.keysByPublicKey.get input.publicKey = none
      ∧ r.pendingKeyByValidator.get input.validatorId = none
      ∧ k.publicKey = input.publicKey ∧ k.validatorId = input.validatorId ∧ k.state = .pending
      ∧ k.signingEnabled = false
      ∧ r' = { r with
          keysByPublicKey := r.keysByPublicKey.set k.publicKey k
          pendingKeyByValidator := r.pendingKeyByValidator.set k.validatorId k.publicKey } := by
  simp [reservePendingKey, validateRegistration, assertIdentifier, assertProtocolNumber,
    assertPublicKeyAvailable, setKey, OrdMap.has_eq_false_iff] at h
  obtain ⟨-, hb, -, hk, hc, rfl, rfl⟩ := h
  exact ⟨hb, hk, hc, rfl, rfl, rfl, rfl, rfl⟩

theorem reservePendingKey_throws {input : ReservePendingKeyInput}
    (h : Throws (reservePendingKey input) r e r') : r' = r := by
  simp [reservePendingKey, validateRegistration, assertIdentifier, assertProtocolNumber,
    assertPublicKeyAvailable, setKey] at h
  tauto

theorem releasePendingKey_returns {v key : String} {b : Bool}
    (h : Returns (releasePendingKey v key) r b r') :
    (b = false ∧ r' = r) ∨ (b = true ∧ ∃ k, r.keysByPublicKey.get key = some k
      ∧ k.validatorId = v ∧ k.state = .pending ∧ r.pendingKeyByValidator.get v = some key
      ∧ r' = { r with
          keysByPublicKey := r.keysByPublicKey.delete key
          pendingKeyByValidator := r.pendingKeyByValidator.delete v }) := by
  rcases hk : r.keysByPublicKey.get key with _ | k
  · simp [releasePendingKey, hk] at h
    exact .inl h
  · simp [releasePendingKey, hk] at h
    split_ifs at h with hc
    · exact .inr ⟨h.2, k, rfl, hc.1, hc.2.1, hc.2.2, h.1⟩
    · exact .inl h

theorem releasePendingKey_throws {v key : String} : ¬ Throws (releasePendingKey v key) r e r' := by
  intro h
  rcases hk : r.keysByPublicKey.get key with _ | k
  · simp [releasePendingKey, hk] at h
  · simp [releasePendingKey, hk] at h

theorem ownedIn_eq_some {o : Option KeyRecord} {v : String} {st : KeyState} {k : KeyRecord} :
    ownedIn o v st = some k ↔ o = some k ∧ k.validatorId = v ∧ k.state = st := by
  simp [ownedIn, Option.filter_eq_some_iff]

theorem activatedPair_eq_some {input : ActivateKeyRotationInput} {o n : KeyRecord}
    (h : r.activatedPair input = some (o, n)) :
    r.keysByPublicKey.get input.oldPublicKey = some o
      ∧ r.keysByPublicKey.get input.newPublicKey = some n ∧ o.signingEnabled = false
      ∧ n.signingEnabled = true := by
  unfold activatedPair at h
  split at h
  · split_ifs at h with hc
    simp only [Option.some.injEq, Prod.mk.injEq] at h
    obtain ⟨rfl, rfl⟩ := h
    exact ⟨by assumption, by assumption, hc.2.2.2.1, hc.2.2.2.2.2.1⟩
  · simp at h

theorem activateRotation_returns {input : ActivateKeyRotationInput} {p : KeyRecord × KeyRecord}
    (h : Returns (activateRotation input) r p r') :
    (r' = r ∧ r.activatedPair input = some p) ∨ ∃ o n,
      r.keysByPublicKey.get input.oldPublicKey = some o ∧ o.validatorId = input.validatorId
        ∧ o.state = .active
        ∧ r.currentSigningKeyByValidator.get input.validatorId = some input.oldPublicKey
        ∧ r.keysByPublicKey.get input.newPublicKey = some n ∧ n.validatorId = input.validatorId
        ∧ n.state = .pending
        ∧ r.pendingKeyByValidator.get input.validatorId = some input.newPublicKey
        ∧ r' =
          { keysByPublicKey := (r.keysByPublicKey.set input.oldPublicKey { o with
                signingEnabled := false
                deactivationEpoch := some input.activationEpoch
                deactivationSlot := some input.activationSlot }).set input.newPublicKey { n with
                state := .active
                signingEnabled := true
                activationEpoch := some input.activationEpoch
                activationSlot := some input.activationSlot }
            currentSigningKeyByValidator :=
              r.currentSigningKeyByValidator.set input.validatorId input.newPublicKey
            pendingKeyByValidator := r.pendingKeyByValidator.delete input.validatorId } := by
  rcases hp : r.activatedPair input with _ | ⟨o, n⟩
  · simp [activateRotation, performActivation, assertProtocolNumber, setKey, hp,
      ownedIn_eq_some] at h
    obtain ⟨-, -, o, ⟨ho, hov, hos⟩, ⟨-, hc⟩, n, ⟨hn, hnv, hns⟩, hpk, rfl, -⟩ := h
    exact .inr ⟨o, n, ho, hov, hos, hc, hn, hnv, hns, hpk, rfl⟩
  · simp [activateRotation, assertProtocolNumber, hp] at h
    exact .inl ⟨h.2.2.1.2, by rw [h.2.2.2]⟩

theorem activateRotation_throws {input : ActivateKeyRotationInput}
    (h : Throws (activateRotation input) r e r') : r' = r := by
  rcases hp : r.activatedPair input with _ | ⟨o, n⟩
  · simp [activateRotation, performActivation, assertProtocolNumber, setKey, hp] at h
    rcases h with h | ⟨-, h | ⟨-, h | ⟨o, -, h | ⟨-, h | ⟨n, -, h⟩⟩⟩⟩⟩
    · exact h.2.2
    · exact h.2.2
    · exact h.2.2
    · exact h.2.2
    · exact h.2.2
    · exact h.2
  · simp [activateRotation, assertProtocolNumber, hp] at h
    tauto

theorem retireKey_returns {v key : String} {epoch : JsNumber} {k : KeyRecord}
    (h : Returns (retireKey v key epoch) r k r') :
    (r' = r ∧ r.keysByPublicKey.get key = some k ∧ k.validatorId = v ∧ k.state = .retired)
      ∨ ∃ k₀, r.keysByPublicKey.get key = some k₀ ∧ k₀.validatorId = v ∧ k₀.state = .active
        ∧ k₀.signingEnabled = false
        ∧ r' = { r with
            keysByPublicKey := r.keysByPublicKey.set key { k₀ with
              state := .retired
              signingEnabled := false
              retirementEpoch := some epoch } } := by
  simp [retireKey, assertProtocolNumber, setKey, Option.filter_eq_some_iff] at h
  obtain ⟨-, k₀, ⟨hk, hv⟩, h⟩ := h
  split_ifs at h with hs
  · exact .inl ⟨h.2, h.1 ▸ hk, h.1 ▸ hv, h.1 ▸ hs⟩
  · obtain ⟨⟨ha, hsig, -⟩, rfl, -⟩ := h
    exact .inr ⟨k₀, hk, hv, ha, hsig, rfl⟩

theorem retireKey_throws {v key : String} {epoch : JsNumber}
    (h : Throws (retireKey v key epoch) r e r') : r' = r := by
  simp [retireKey, assertProtocolNumber, setKey] at h
  rcases h with h | ⟨-, h | ⟨k, -, h⟩⟩
  · exact h.2.2
  · exact h.2.2
  · exact h.2.2.2

end Spec

section Consistent

/-- The two indices and the records say the same: a record signs exactly if its owner's signing
index names it, and is pending exactly if its owner's pending index does. -/
structure Consistent (r : KeyRegistry) : Prop where
  named : ∀ key k, r.keysByPublicKey.get key = some k →
    k.publicKey = key ∧ JsString.isBlank key = false
  signing : ∀ key k, r.keysByPublicKey.get key = some k →
    (k.signingEnabled = true ↔ r.currentSigningKeyByValidator.get k.validatorId = some key)
  pending : ∀ key k, r.keysByPublicKey.get key = some k →
    (k.state = .pending ↔ r.pendingKeyByValidator.get k.validatorId = some key)
  signingActive : ∀ key k, r.keysByPublicKey.get key = some k → k.signingEnabled = true →
    k.state = .active
  signingIndex : ∀ v key, r.currentSigningKeyByValidator.get v = some key →
    ∃ k, r.keysByPublicKey.get key = some k ∧ k.validatorId = v
  pendingIndex : ∀ v key, r.pendingKeyByValidator.get v = some key →
    ∃ k, r.keysByPublicKey.get key = some k ∧ k.validatorId = v

theorem consistent_empty : Consistent {} := by
  constructor <;> simp

variable {r r' : KeyRegistry}

theorem Consistent.move (hc : Consistent r) (hm : Move r r') : Consistent r' := by
  obtain ⟨h1, h2, h3, h4, h5, h6⟩ := hc
  cases hm with
  | stay => exact ⟨h1, h2, h3, h4, h5, h6⟩
  | register k hb hs hsig hn hcn =>
    constructor <;> simp only [OrdMap.get_set] <;> grind
  | reserve k hb hs hsig hn hcn =>
    constructor <;> simp only [OrdMap.get_set] <;> grind
  | release key k hk hs hp =>
    constructor <;> simp only [OrdMap.get_delete] <;> grind
  | activate i o n ho hov hos hcur hn hnv hns hp =>
    constructor <;> simp only [OrdMap.get_set, OrdMap.get_delete] <;> grind
  | retire key k epoch hk hs hsig =>
    constructor <;> simp only [OrdMap.get_set] <;> grind

theorem Move.retired (hm : Move r r') {key : String} {k : KeyRecord}
    (hk : r.keysByPublicKey.get key = some k) (hs : k.state = .retired) :
    r'.keysByPublicKey.get key = some k := by
  cases hm with
  | stay => exact hk
  | register k' _ _ _ hn _ =>
    rw [OrdMap.get_set_of_ne _ _ (by rintro rfl; rw [hn] at hk; cases hk), hk]
  | reserve k' _ _ _ hn _ =>
    rw [OrdMap.get_set_of_ne _ _ (by rintro rfl; rw [hn] at hk; cases hk), hk]
  | release key' k' hk' hs' _ =>
    rw [OrdMap.get_delete_of_ne _ (by rintro rfl; rw [hk] at hk'; cases hk'; simp [hs] at hs'), hk]
  | activate i o n ho _ hos _ hn _ hns _ =>
    rw [OrdMap.get_set_of_ne _ _ (by rintro rfl; rw [hk] at hn; cases hn; simp [hs] at hns),
      OrdMap.get_set_of_ne _ _ (by rintro rfl; rw [hk] at ho; cases ho; simp [hs] at hos), hk]
  | retire key' k' epoch hk' hs' _ =>
    rw [OrdMap.get_set_of_ne _ _ (by rintro rfl; rw [hk] at hk'; cases hk'; simp [hs] at hs'), hk]

theorem call_throws {c : Call} {e : CodedError} (h : Throws c.block r e r') : r' = r := by
  cases c with
  | registerActiveKey input => exact registerActiveKey_throws (by simpa [Call.block] using h)
  | reservePendingKey input => exact reservePendingKey_throws (by simpa [Call.block] using h)
  | releasePendingKey v key =>
    have h' : Throws (releasePendingKey v key) r e r' := by simpa [Call.block] using h
    exact absurd h' releasePendingKey_throws
  | activateRotation input => exact activateRotation_throws (by simpa [Call.block] using h)
  | retireKey v key epoch => exact retireKey_throws (by simpa [Call.block] using h)

/-- The key is still its owner's, or a release by the owner removed it. -/
def Kept (c : Call) (r r' : KeyRegistry) : Prop :=
  ∀ key k, r.keysByPublicKey.get key = some k →
    (∃ k', r'.keysByPublicKey.get key = some k' ∧ k'.validatorId = k.validatorId)
      ∨ (c = .releasePendingKey k.validatorId key ∧ r'.keysByPublicKey.get key = none)

theorem kept_stay (c : Call) (r : KeyRegistry) : Kept c r r := fun _ k hk => .inl ⟨k, hk, rfl⟩

/-- A call that returns makes a move that keeps every key its owner's, unless it releases it. -/
theorem call_returns {c : Call} {u : PUnit} (h : Returns c.block r u r') :
    Move r r' ∧ Kept c r r' := by
  cases c with
  | registerActiveKey input =>
    simp only [Call.block, bind_pure_comp, returns_map] at h
    obtain ⟨k, h, -⟩ := h
    obtain ⟨hb, hk, hcur, hkp, hkv, hks, hsig, rfl⟩ := registerActiveKey_returns h
    refine ⟨.register k (hkp ▸ hb) hks hsig (hkp ▸ hk) (hkv ▸ hcur), fun key k₀ hk₀ => .inl ?_⟩
    have hne : key ≠ k.publicKey := by
      rintro rfl
      rw [hkp, hk] at hk₀
      cases hk₀
    exact ⟨k₀, by rw [OrdMap.get_set_of_ne _ _ hne, hk₀], rfl⟩
  | reservePendingKey input =>
    simp only [Call.block, bind_pure_comp, returns_map] at h
    obtain ⟨k, h, -⟩ := h
    obtain ⟨hb, hk, hpen, hkp, hkv, hks, hsig, rfl⟩ := reservePendingKey_returns h
    refine ⟨.reserve k (hkp ▸ hb) hks hsig (hkp ▸ hk) (hkv ▸ hpen), fun key k₀ hk₀ => .inl ?_⟩
    have hne : key ≠ k.publicKey := by
      rintro rfl
      rw [hkp, hk] at hk₀
      cases hk₀
    exact ⟨k₀, by rw [OrdMap.get_set_of_ne _ _ hne, hk₀], rfl⟩
  | releasePendingKey v key =>
    simp only [Call.block, bind_pure_comp, returns_map] at h
    obtain ⟨b, h, -⟩ := h
    rcases releasePendingKey_returns h with ⟨-, rfl⟩ | ⟨-, k, hk, rfl, hs, hp, rfl⟩
    · exact ⟨.stay, kept_stay _ _⟩
    · refine ⟨.release key k hk hs hp, fun key' k₀ hk₀ => ?_⟩
      by_cases hne : key' = key
      · subst hne
        rw [hk] at hk₀
        cases hk₀
        exact .inr ⟨rfl, OrdMap.get_delete_self _ _⟩
      · exact .inl ⟨k₀, by rw [OrdMap.get_delete_of_ne _ hne, hk₀], rfl⟩
  | activateRotation input =>
    simp only [Call.block, bind_pure_comp, returns_map] at h
    obtain ⟨p, h, -⟩ := h
    rcases activateRotation_returns h with ⟨rfl, -⟩ | ⟨o, n, ho, hov, hos, hcur, hn, hnv, hns, hp, rfl⟩
    · exact ⟨.stay, kept_stay _ _⟩
    · refine ⟨.activate input o n ho hov hos hcur hn hnv hns hp, fun key k₀ hk₀ => .inl ?_⟩
      by_cases h1 : key = input.newPublicKey
      · subst h1
        rw [hn] at hk₀
        cases hk₀
        exact ⟨_, OrdMap.get_set_self _ _ _, rfl⟩
      · rw [OrdMap.get_set_of_ne _ _ h1]
        by_cases h2 : key = input.oldPublicKey
        · subst h2
          rw [ho] at hk₀
          cases hk₀
          exact ⟨_, OrdMap.get_set_self _ _ _, rfl⟩
        · exact ⟨k₀, by rw [OrdMap.get_set_of_ne _ _ h2, hk₀], rfl⟩
  | retireKey v key epoch =>
    simp only [Call.block, bind_pure_comp, returns_map] at h
    obtain ⟨k, h, -⟩ := h
    rcases retireKey_returns h with ⟨rfl, -⟩ | ⟨k₀, hk, -, hs, hsig, rfl⟩
    · exact ⟨.stay, kept_stay _ _⟩
    · refine ⟨.retire key k₀ epoch hk hs hsig, fun key' k' hk' => .inl ?_⟩
      by_cases hne : key' = key
      · subst hne
        rw [hk] at hk'
        cases hk'
        exact ⟨_, OrdMap.get_set_self _ _ _, rfl⟩
      · exact ⟨k', by rw [OrdMap.get_set_of_ne _ _ hne, hk'], rfl⟩

theorem sys_step {c : Call} (h : sys.step r c = some r') : Move r r' ∧ Kept c r r' := by
  simp only [sys, Option.some.injEq] at h
  subst h
  rcases after_cases c.block r with ⟨u, h⟩ | ⟨e, h⟩
  · exact call_returns h
  · rw [call_throws h]
    exact ⟨.stay, kept_stay _ _⟩

theorem run_consistent {h : List (Taken KeyRegistry Call)} (hr : Run sys h r) : Consistent r :=
  hr.invariant (fun s (hi : s = {}) => hi ▸ consistent_empty)
    (fun _ _ _ hc hs => Consistent.move hc (sys_step hs).1)

theorem run_retired {h : List (Taken KeyRegistry Call)} (hr : Run sys h r) :
    ∀ t ∈ h, ∀ key k, t.pre.keysByPublicKey.get key = some k → k.state = .retired →
      r.keysByPublicKey.get key = some k := by
  induction hr with
  | start _ => simp
  | next hr hs ih =>
    intro t ht key k hk hst
    rcases List.mem_cons.1 ht with rfl | ht
    · exact (sys_step hs).1.retired hk hst
    · exact (sys_step hs).1.retired (ih t ht key k hk hst) hst

theorem Consistent.assertConsistent (hc : Consistent r) {e : CodedError} :
    ¬ Throws KeyRegistry.assertConsistent r e r' := by
  have h1 : r.currentSigningKeyByValidator.entries.all r.signingEntryOk = true := by
    rw [List.all_eq_true]
    rintro ⟨v, key⟩ he
    rw [OrdMap.mem_entries_iff] at he
    obtain ⟨k, hk, rfl⟩ := hc.signingIndex v key he
    have hs := (hc.signing key k hk).2 he
    simp [signingEntryOk, hk, hs, hc.signingActive key k hk hs]
  have h2 : r.pendingKeyByValidator.entries.all r.pendingEntryOk = true := by
    rw [List.all_eq_true]
    rintro ⟨v, key⟩ he
    rw [OrdMap.mem_entries_iff] at he
    obtain ⟨k, hk, rfl⟩ := hc.pendingIndex v key he
    simp [pendingEntryOk, hk, (hc.pending key k hk).2 he]
  simp only [KeyRegistry.assertConsistent, throws_bind, throws_get, returns_get, throws_throwIf]
  rintro (h | ⟨_, _, ⟨rfl, rfl⟩, h | ⟨_, _, hg, h⟩⟩)
  · exact h
  · exact absurd (h1.symm.trans h.1) (by simp)
  · simp only [returns_throwIf] at hg
    rw [hg.2] at h
    exact absurd (h2.symm.trans h.1) (by simp)

end Consistent

/-- After any calls from the empty registry, `assertConsistent` passes and the records and the
indices correspond in both directions; a retired record has stayed as it was since, no key left
its owner but by a release of it, and no call throws after writing. -/
theorem registry_invariant {h : List (Taken KeyRegistry Call)} {r : KeyRegistry}
    (hr : Run sys h r) :
    (∀ e r', ¬ Throws KeyRegistry.assertConsistent r e r')
      ∧ (∀ key k, r.keysByPublicKey.get key = some k → k.publicKey = key
        ∧ (k.signingEnabled = true ↔ r.currentSigningKeyByValidator.get k.validatorId = some key)
        ∧ (k.state = .pending ↔ r.pendingKeyByValidator.get k.validatorId = some key)
        ∧ (k.signingEnabled = true → k.state = .active))
      ∧ (∀ key key' k k', r.keysByPublicKey.get key = some k →
        r.keysByPublicKey.get key' = some k' → k.signingEnabled = true →
        k'.signingEnabled = true → k.validatorId = k'.validatorId → key = key')
      ∧ (∀ t ∈ h, ∀ key k, t.pre.keysByPublicKey.get key = some k → k.state = .retired →
        ∃ k', r.keysByPublicKey.get key = some k' ∧ k'.state = .retired
          ∧ k'.signingEnabled = false)
      ∧ (∀ t ∈ h, ∀ key k, t.pre.keysByPublicKey.get key = some k →
        (∃ k', t.post.keysByPublicKey.get key = some k' ∧ k'.validatorId = k.validatorId)
          ∨ (t.act = .releasePendingKey k.validatorId key
            ∧ t.post.keysByPublicKey.get key = none))
      ∧ ∀ (c : Call) e r', Throws c.block r e r' → r' = r := by
  have hc := run_consistent hr
  refine ⟨fun e r' => hc.assertConsistent, fun key k hk => ?_, fun key key' k k' hk hk' hs hs' hv => ?_,
    fun t ht key k hk hs => ?_, fun t ht key k hk => ?_, fun c e r' => call_throws⟩
  · exact ⟨(hc.named key k hk).1, hc.signing key k hk, hc.pending key k hk,
      hc.signingActive key k hk⟩
  · have h1 := (hc.signing key k hk).1 hs
    have h2 := (hc.signing key' k' hk').1 hs'
    rw [hv, h2] at h1
    exact (Option.some.inj h1).symm
  · have hk' := run_retired hr t ht key k hk hs
    refine ⟨k, hk', hs, ?_⟩
    by_contra hsig
    have := hc.signingActive key k hk' (by simpa using hsig)
    rw [hs] at this
    cases this
  · exact (sys_step (hr.taken ht).2).2 key k hk

theorem registry_invariant_reserved : ∃ h r, Run sys h r ∧ r.keysByPublicKey.size = 2
    ∧ ∀ e r', ¬ Throws KeyRegistry.assertConsistent r e r' := by
  obtain ⟨h, r, hr, hp⟩ := sys.exists_run (s := {}) rfl
    [.registerActiveKey { validatorId := "v", publicKey := "k", registeredEpoch := 1 },
      .reservePendingKey { validatorId := "v", publicKey := "l", registeredEpoch := 2 }]
    (p := fun x => x.2.keysByPublicKey.size = 2) (by decide +kernel)
  exact ⟨h, r, hr, by simpa using hp, (registry_invariant hr).1⟩

end KeyRegistry

end VeriNode
