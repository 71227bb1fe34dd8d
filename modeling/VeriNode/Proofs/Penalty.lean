import VeriNode.Slashing.Penalty
import VeriNode.Proofs.Ceremony

/-!
# The rotation exception is exact

In a state the ceremony can reach, a rotation that is activated has its quorum and its keys as the
activation left them, so two of the calculator's answers never come up, and the evidence it
excuses is exactly the evidence of a legitimate overlap.
-/

namespace VeriNode

namespace PenaltyCalculator

open Ceremony

section Checks

variable {r : RotationRecord} {g : KeyRegistry}

theorem commitmentValid_of_quorumOk (h : QuorumOk r) : commitmentValid r = true := by
  have h1 : (OrdSet.ofList r.approvals).size = r.approvals.length :=
    OrdSet.ofList_elems ⟨r.approvals, h.approvals_nodup⟩
  have h2 : (OrdSet.ofList r.approvalValidatorSet).size = r.approvalValidatorSet.length :=
    OrdSet.ofList_elems ⟨r.approvalValidatorSet, h.set_nodup⟩
  have hpos : r.approvalValidatorSet.length ≠ 0 := by
    have := h.nonempty
    omega
  simp only [commitmentValid, calculateRotationApprovalThreshold, h1, h2, if_neg hpos, h.threshold,
    JsNumber.optStrictEq, Bool.and_eq_true, JsNumber.strictEq_ofNat, decide_eq_true_eq,
    List.all_eq_true, true_and]
  refine ⟨h.enough, fun v hv => ?_⟩
  rw [OrdSet.has_iff, OrdSet.mem_ofList]
  exact h.subset v (OrdSet.mem_ofList.1 hv)

theorem keyStateValid_of_handedOver (h : HandedOver g r) : keyStateValid g r = true := by
  obtain ⟨⟨e, s, he, hs, hep, hsp⟩, ⟨o, ho, hov, hos, hosig, hoe, hosl⟩,
    ⟨n, hn, hnv, hns, hnsig, hne, hnsl⟩⟩ := h
  have h1 := JsNumber.strictEq_self_of_isProtocol hep
  have h2 := JsNumber.strictEq_self_of_isProtocol hsp
  simp [keyStateValid, KeyRegistry.getKey, ho, hov, hos, hosig, hoe, hosl, hn, hnv, hns, hnsig,
    hne, hnsl, he, hs, JsNumber.optStrictEq, h1, h2]

theorem HandedOver.ne (h : HandedOver g r) : r.oldPublicKey ≠ r.newPublicKey := by
  intro he
  obtain ⟨-, ⟨o, ho, -, -, hs, -⟩, ⟨n, hn, -, -, hs', -⟩⟩ := h
  rw [he, hn] at ho
  cases ho
  rw [hs] at hs'
  cases hs'

/-- The evidence is of the transition: the old key signed before the activation, the new one
since, and not after the clock. -/
theorem transitionEvidenceValid_iff {old new current : JsNumber} {a : ℕ} :
    transitionEvidenceValid old new current (.ofNat a) = true ↔
      ∃ so sn t : ℕ, old = .ofNat so ∧ new = .ofNat sn ∧ current = .ofNat t ∧ so < a ∧ a ≤ sn
        ∧ sn ≤ t ∧ t ≤ JsNumber.maxSafe := by
  simp only [transitionEvidenceValid, Bool.and_eq_true]
  constructor
  · rintro ⟨⟨⟨⟨⟨⟨h1, h2⟩, h3⟩, h4⟩, h5⟩, h6⟩, h7⟩
    obtain ⟨so, rfl, -, -⟩ := JsNumber.ofNat_of_le h1 h4
    obtain ⟨sn, rfl, ha, -⟩ := JsNumber.ofNat_of_le h2 h6
    obtain ⟨t, rfl, hn, ht⟩ := JsNumber.ofNat_of_le h3 h7
    exact ⟨so, sn, t, rfl, rfl, rfl, JsNumber.lt_ofNat.1 h5, ha, hn, ht⟩
  · rintro ⟨so, sn, t, rfl, rfl, rfl, h1, h2, h3, h4⟩
    simp only [JsNumber.ofNat_eq, JsNumber.isSafeInteger_ofNat, JsNumber.le_ofNat,
      JsNumber.lt_ofNat]
    omega

theorem withinGrace_iff {current : JsNumber} {e : ℕ} :
    withinGrace current (.ofNat e) = true ↔
      ∃ m : ℕ, current = .ofNat m ∧ m ≤ JsNumber.maxSafe ∧ e ≤ m ∧ m < e + rotationGraceEpochs := by
  have hsub : ∀ m : ℕ, e ≤ m → (JsNumber.ofNat m).sub (.ofNat e) = .ofNat (m - e) := by
    intro m hm
    simp [JsNumber.sub, JsNumber.ofNat, Nat.cast_sub hm]
  simp only [withinGrace, Bool.not_eq_true', Bool.or_eq_false_iff, Bool.not_eq_false']
  constructor
  · rintro ⟨⟨h1, h2⟩, h3⟩
    have hle : (JsNumber.ofNat e).le current = true := by
      obtain ⟨z, rfl, -⟩ := JsNumber.isSafeInteger_iff.1 h1
      simpa [JsNumber.ofNat_eq, JsNumber.sub, JsNumber.ofNat, JsNumber.lt] using h2
    obtain ⟨m, rfl, hm, hmax⟩ := JsNumber.ofNat_of_le h1 hle
    rw [hsub m hm] at h3
    have : ¬ rotationGraceEpochs ≤ m - e := by
      rw [← JsNumber.le_ofNat, h3]
      simp
    exact ⟨m, rfl, hmax, hm, by omega⟩
  · rintro ⟨m, rfl, hmax, hm, hlt⟩
    rw [hsub m hm]
    have h1 : ¬ rotationGraceEpochs ≤ m - e := by omega
    refine ⟨⟨JsNumber.isSafeInteger_ofNat.2 hmax, ?_⟩, ?_⟩
    · rw [JsNumber.ofNat_eq, Bool.eq_false_iff]
      simp
    · rw [Bool.eq_false_iff]
      simpa using h1

end Checks

section Exact

variable {c : Ceremony} {slot epoch : JsNumber} {ev : KeyOverlapEvidence}

/-- The two key-slot pairs of the evidence, the other way round. -/
def swap (ev : KeyOverlapEvidence) : KeyOverlapEvidence := { ev with
  firstPublicKey := ev.secondPublicKey
  secondPublicKey := ev.firstPublicKey
  firstSigningSlot := ev.secondSigningSlot
  secondSigningSlot := ev.firstSigningSlot }

/-- The evidence names the rotation's two keys, the old one with slot `so` and the new one with
slot `sn`. -/
def NamesPair (r : RotationRecord) (ev : KeyOverlapEvidence) (so sn : JsNumber) : Prop :=
  (ev.firstPublicKey = r.oldPublicKey ∧ ev.secondPublicKey = r.newPublicKey
      ∧ ev.firstSigningSlot = so ∧ ev.secondSigningSlot = sn)
    ∨ (ev.firstPublicKey = r.newPublicKey ∧ ev.secondPublicKey = r.oldPublicKey
      ∧ ev.firstSigningSlot = sn ∧ ev.secondSigningSlot = so)

/-- The evidence is of a legitimate overlap: double signing with the two keys of an activated
rotation of the validator, around the activation, less than `ROTATION_GRACE_EPOCHS` ago. -/
def Legitimate (c : Ceremony) (slot epoch : JsNumber) (ev : KeyOverlapEvidence) : Prop :=
  ev.misbehaviorType = doubleSigningMisbehavior ∧ ∃ rid r, ev.rotationId = some rid
    ∧ c.rotations.get rid = some r ∧ r.phase = .activate ∧ r.validatorId = ev.validatorId
    ∧ ∃ so sn a t e m : ℕ, NamesPair r ev (.ofNat so) (.ofNat sn)
      ∧ r.activationSlot = some (.ofNat a) ∧ slot = .ofNat t
      ∧ r.activatedEpoch = some (.ofNat e) ∧ epoch = .ofNat m
      ∧ so < a ∧ a ≤ sn ∧ sn ≤ t ∧ t ≤ JsNumber.maxSafe
      ∧ e ≤ m ∧ m < e + rotationGraceEpochs ∧ m ≤ JsNumber.maxSafe

theorem namesPair_iff {r : RotationRecord} (hne : r.oldPublicKey ≠ r.newPublicKey)
    {so sn : JsNumber} :
    NamesPair r ev so sn ↔ exactPair r ev = true ∧ ev.firstPublicKey ≠ ev.secondPublicKey
      ∧ oldKeySigningSlot r ev = so ∧ newKeySigningSlot r ev = sn := by
  simp only [NamesPair, exactPair, oldKeySigningSlot, newKeySigningSlot, Bool.or_eq_true,
    Bool.and_eq_true, decide_eq_true_eq]
  constructor
  · rintro (⟨h1, h2, h3, h4⟩ | ⟨h1, h2, h3, h4⟩)
    · simp [h1, h2, h3, h4, hne]
    · simp [h1, h2, h3, h4, hne.symm]
  · rintro ⟨⟨h1, h2⟩ | ⟨h1, h2⟩, -, h3, h4⟩
    · simp only [h1, if_pos, if_neg hne] at h3 h4
      exact .inl ⟨h1, h2, h3, h4⟩
    · simp only [h1, if_pos, if_neg hne.symm] at h3 h4
      exact .inr ⟨h1, h2, h4, h3⟩

/-- What the calculator answers on an activated rotation of a reachable state: the commitment and
the key states always pass. -/
theorem calculate_activated (hi : Inv c) (slot epoch : JsNumber) {rid : String}
    {r : RotationRecord} (hm : ev.misbehaviorType = doubleSigningMisbehavior) (hid : ev.rotationId.getD "" = rid)
    (hget : c.rotations.get rid = some r) (hp : r.phase = .activate) :
    ∃ a e : ℕ, r.activationSlot = some (.ofNat a) ∧ r.activatedEpoch = some (.ofNat e)
      ∧ calculate c.getRotation c.registry slot epoch ev
        = if r.validatorId ≠ ev.validatorId then penalize .validatorMismatch
          else if exactPair r ev = false ∨ ev.firstPublicKey = ev.secondPublicKey then
            penalize .keyPairMismatch
          else if transitionEvidenceValid (oldKeySigningSlot r ev) (newKeySigningSlot r ev) slot
              (.ofNat a) = false then
            penalize .evidenceOutsideActivationTransition
          else if withinGrace epoch (.ofNat e) = false then penalize .outsideRotationGracePeriod
          else ⟨false, true, .legitimateRotationOverlap⟩ := by
  have hover := (hi.keys rid r hget).handedOver hp
  have hq := hi.quorum rid r hget (by simp [hp])
  obtain ⟨e', s', he, hs, hep, hsp⟩ := hover.coordinates
  obtain ⟨e, rfl, -⟩ := JsNumber.isProtocol_iff.1 hep
  obtain ⟨a, rfl, -⟩ := JsNumber.isProtocol_iff.1 hsp
  obtain ⟨ae, hae⟩ := hq.approved
  have hne : rid ≠ "" := (hi.named rid r hget).2
  refine ⟨a, e, hs, he, ?_⟩
  simp only [calculate, hm, ne_eq, not_true_eq_false, if_false, hid, hne, getRotation, hget, hp,
    hae, he, hs, calculateActivated, commitmentValid_of_quorumOk hq,
    keyStateValid_of_handedOver hover, Bool.true_eq_false]

theorem calculate_cases (rotations : String → Option RotationRecord) (g : KeyRegistry)
    (slot epoch : JsNumber) (ev : KeyOverlapEvidence) :
    (ev.misbehaviorType = doubleSigningMisbehavior ∧ ∃ r, ev.rotationId.getD "" ≠ ""
        ∧ rotations (ev.rotationId.getD "") = some r ∧ r.phase = .activate)
      ∨ ∃ reason, calculate rotations g slot epoch ev = penalize reason
        ∧ (reason = .notDoubleSigning ∨ reason = .noKnownRotation
          ∨ reason = .rotationNotActivated) := by
  by_cases hm : ev.misbehaviorType = doubleSigningMisbehavior
  · by_cases hid : ev.rotationId.getD "" = ""
    · exact .inr ⟨.noKnownRotation, by simp [calculate, hm, hid], .inr (.inl rfl)⟩
    · rcases hr : rotations (ev.rotationId.getD "") with _ | r
      · exact .inr ⟨.noKnownRotation, by simp [calculate, hm, hid, hr], .inr (.inl rfl)⟩
      · by_cases hp : r.phase = .activate
        · exact .inl ⟨hm, r, hid, rfl, hp⟩
        · refine .inr ⟨.rotationNotActivated, ?_, .inr (.inr rfl)⟩
          simp only [calculate, hm, ne_eq, not_true_eq_false, if_false, hid, hr]
          split
          · rename_i h _ _ _
            exact absurd h hp
          · rfl
  · exact .inr ⟨.notDoubleSigning, by simp [calculate, hm], .inl rfl⟩

theorem legitimate_iff {rid : String} {r : RotationRecord} {a e : ℕ}
    (hm : ev.misbehaviorType = doubleSigningMisbehavior) (hid : ev.rotationId = some rid)
    (hget : c.rotations.get rid = some r) (hp : r.phase = .activate)
    (hne : r.oldPublicKey ≠ r.newPublicKey) (ha : r.activationSlot = some (.ofNat a))
    (he : r.activatedEpoch = some (.ofNat e)) :
    Legitimate c slot epoch ev ↔ r.validatorId = ev.validatorId ∧ exactPair r ev = true
      ∧ ev.firstPublicKey ≠ ev.secondPublicKey
      ∧ transitionEvidenceValid (oldKeySigningSlot r ev) (newKeySigningSlot r ev) slot (.ofNat a)
        = true
      ∧ withinGrace epoch (.ofNat e) = true := by
  rw [transitionEvidenceValid_iff, withinGrace_iff]
  constructor
  · rintro ⟨-, rid', r', hid', hget', -, hv, so, sn, a', t, e', m, hpair, ha', hslot, he', hepoch,
      h1, h2, h3, h4, h5, h6, h7⟩
    rw [hid] at hid'
    cases hid'
    rw [hget] at hget'
    cases hget'
    rw [ha] at ha'
    rw [he] at he'
    simp only [Option.some.injEq, JsNumber.ofNat_inj] at ha' he'
    subst ha' he'
    obtain ⟨hex, hdiff, hso, hsn⟩ := (namesPair_iff hne).1 hpair
    exact ⟨hv, hex, hdiff, ⟨so, sn, t, hso, hsn, hslot, h1, h2, h3, h4⟩, m, hepoch, h7, h5, h6⟩
  · rintro ⟨hv, hex, hdiff, ⟨so, sn, t, hso, hsn, hslot, h1, h2, h3, h4⟩, m, hepoch, h7, h5, h6⟩
    exact ⟨hm, rid, r, hid, hget, hp, hv, so, sn, a, t, e, m,
      (namesPair_iff hne).2 ⟨hex, hdiff, hso, hsn⟩, ha, hslot, he, hepoch, h1, h2, h3, h4, h5, h6,
      h7⟩

/-- The calculator excuses exactly the legitimate overlaps, and never finds the commitment or the
key states of an activated rotation wrong. -/
theorem calculate_exact (hi : Inv c) (slot epoch : JsNumber) (ev : KeyOverlapEvidence) :
    (calculate c.getRotation c.registry slot epoch ev).reason ≠ .invalidRotationCommitment
      ∧ (calculate c.getRotation c.registry slot epoch ev).reason ≠ .invalidKeyState
      ∧ ((calculate c.getRotation c.registry slot epoch ev).suppressed = true ↔
        Legitimate c slot epoch ev) := by
  by_cases hact : ev.misbehaviorType = doubleSigningMisbehavior ∧ ∃ rid r,
      ev.rotationId = some rid ∧ c.rotations.get rid = some r ∧ r.phase = .activate
  · obtain ⟨hm, rid, r, hid, hget, hp⟩ := hact
    obtain ⟨a, e, ha, he, hcalc⟩ :=
      calculate_activated hi slot epoch hm (by rw [hid]; rfl) hget hp
    have hne := HandedOver.ne ((hi.keys rid r hget).handedOver hp)
    rw [hcalc, legitimate_iff hm hid hget hp hne ha he]
    split_ifs with h1 h2 h3 h4
    · simp [penalize, h1]
    · rcases h2 with h2 | h2 <;> simp [penalize, h2]
    · simp [penalize, h3]
    · simp [penalize, h4]
    · rw [not_or] at h2
      simp only [Bool.not_eq_false] at h2 h3 h4
      refine ⟨by simp, by simp, fun _ => ⟨not_not.1 h1, h2.1, h2.2, h3, h4⟩, fun _ => rfl⟩
  · rcases calculate_cases c.getRotation c.registry slot epoch ev with
      ⟨hm, r, hid, hget, hp⟩ | ⟨reason, hcalc, hreason⟩
    · rcases hrid : ev.rotationId with _ | rid
      · simp [hrid] at hid
      · rw [hrid] at hget
        exact absurd ⟨hm, rid, r, hrid, hget, hp⟩ hact
    · have hnot : ¬ Legitimate c slot epoch ev := by
        rintro ⟨hm, rid, r, hid, hget, hp, -⟩
        exact hact ⟨hm, rid, r, hid, hget, hp⟩
      rw [hcalc]
      rcases hreason with rfl | rfl | rfl <;> simp [penalize, hnot]

/-- Which of the two signatures the evidence names first does not matter. -/
theorem calculate_swap (rotations : String → Option RotationRecord) (g : KeyRegistry)
    (slot epoch : JsNumber) (ev : KeyOverlapEvidence) :
    calculate rotations g slot epoch (swap ev) = calculate rotations g slot epoch ev := by
  have hact : ∀ r e a, calculateActivated g slot epoch r e a (swap ev)
      = calculateActivated g slot epoch r e a ev := by
    intro r e a
    have hpair : exactPair r (swap ev) = exactPair r ev := by
      simp only [exactPair, swap]
      rw [Bool.or_comm]
      congr 1 <;> exact Bool.and_comm _ _
    by_cases hex : exactPair r ev = false ∨ ev.firstPublicKey = ev.secondPublicKey
    · have hex' : exactPair r (swap ev) = false
          ∨ (swap ev).firstPublicKey = (swap ev).secondPublicKey := by
        rw [hpair]
        exact hex.imp_right Eq.symm
      simp only [calculateActivated, if_pos hex, if_pos hex']
      rfl
    · have hslots : oldKeySigningSlot r (swap ev) = oldKeySigningSlot r ev
          ∧ newKeySigningSlot r (swap ev) = newKeySigningSlot r ev := by
        rw [not_or] at hex
        obtain ⟨h1, h2⟩ := hex
        simp only [exactPair, Bool.not_eq_false, Bool.or_eq_true, Bool.and_eq_true,
          decide_eq_true_eq] at h1
        rcases h1 with ⟨h3, h4⟩ | ⟨h3, h4⟩
        · rw [h3, h4] at h2
          simp [oldKeySigningSlot, newKeySigningSlot, swap, h3, h4, h2, Ne.symm h2]
        · rw [h3, h4] at h2
          simp [oldKeySigningSlot, newKeySigningSlot, swap, h3, h4, h2, Ne.symm h2]
      have hsame : (swap ev).firstPublicKey = (swap ev).secondPublicKey
          ↔ ev.firstPublicKey = ev.secondPublicKey := eq_comm
      simp only [calculateActivated, hpair, hslots.1, hslots.2, hsame]
      rfl
  simp only [calculate, hact]
  rfl

/-- In every state the ceremony can reach: a rotation past `INITIATE` has its quorum; on any
evidence and any clock, the calculator never finds a commitment or key states wrong, excuses
exactly the legitimate overlaps, and decides the same with the two signatures swapped. -/
theorem slashing_exception_exact (hr : Ceremony.sys.Reachable c) :
    (∀ rid r, c.rotations.get rid = some r →
        r.phase = .approve ∨ r.phase = .activate ∨ r.phase = .retire →
        r.approvals.Nodup ∧ r.approvalValidatorSet.Nodup
          ∧ (∀ v ∈ r.approvals, v ∈ r.approvalValidatorSet)
          ∧ approvalThreshold r.approvalValidatorSet.length ≤ r.approvals.length)
      ∧ ∀ slot epoch ev,
        (calculate c.getRotation c.registry slot epoch ev).reason ≠ .invalidRotationCommitment
          ∧ (calculate c.getRotation c.registry slot epoch ev).reason ≠ .invalidKeyState
          ∧ ((calculate c.getRotation c.registry slot epoch ev).suppressed = true ↔
            Legitimate c slot epoch ev)
          ∧ calculate c.getRotation c.registry slot epoch (swap ev)
            = calculate c.getRotation c.registry slot epoch ev := by
  have hi := Ceremony.inv_reachable hr
  refine ⟨fun rid r hget hp => ?_, fun slot epoch ev => ?_⟩
  · have hq := hi.quorum rid r hget (by rcases hp with hp | hp | hp <;> simp [hp])
    exact ⟨hq.approvals_nodup, hq.set_nodup, hq.subset, hq.enough⟩
  · obtain ⟨h1, h2, h3⟩ := calculate_exact hi slot epoch ev
    exact ⟨h1, h2, h3, calculate_swap _ _ slot epoch ev⟩

theorem slashing_exception_exact_overlap :
    let ev : KeyOverlapEvidence :=
      { validatorId := "v", misbehaviorType := "DOUBLE_SIGNING", firstPublicKey := "k₁"
        secondPublicKey := "k₀", firstSigningSlot := 100, secondSigningSlot := 99
        rotationId := some "r" }
    ∃ c, Ceremony.sys.Reachable c
      ∧ (calculate c.getRotation c.registry 100 259 ev).suppressed = true
      ∧ Legitimate c 100 259 ev := by
  intro ev
  obtain ⟨h, c, hr, hp⟩ := Sys.exists_run (S := Ceremony.sys) rfl
    [.registerActiveKey { validatorId := "v", publicKey := "k₀", registeredEpoch := 1 },
      .initiate { validatorId := "v", newPublicKey := "k₁" },
      .stakeAnswered 0 10000 2 20 "r", .approve "r",
      .commitAnswered 1 ⟨"r", ["a", "b", "a"], 2, ["a", "b", "c"]⟩ 3, .activate "r" 4 100]
    (p := fun x => (calculate x.2.getRotation x.2.registry 100 259 ev).suppressed)
    (by decide +kernel)
  exact ⟨c, hr.reachable, hp, ((slashing_exception_exact hr.reachable).2 100 259 ev).2.2.1.1 hp⟩

end Exact

end PenaltyCalculator

end VeriNode
