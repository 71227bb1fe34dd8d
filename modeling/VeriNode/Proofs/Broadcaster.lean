import VeriNode.Keys.Broadcaster
import Mathlib.Tactic.Tauto

/-!
# The broadcaster collects quorums soundly

An attempt is in one place at a time: it waits for its snapshot, or it is the entry of its
rotation in `pending`, or its promise is settled; and until its clean-up it is the entry of its
rotation in `starting`, which keeps a second attempt from starting (`Core`). A live timer belongs
to a pending attempt, so a timer never fails an attempt but its own. An attempt is completed by
the approval that reaches the threshold, so a result carries exactly as many approvals, each of
them counted since the snapshot (`Sound`).
-/

namespace VeriNode

open Turn

namespace Broadcaster

section Proposal

/-- What `validateProposal` lets through. -/
def ValidProposal (p : ValidatorKeyRotation) : Prop :=
  p.type = validatorKeyRotationEvent ∧ p.rotationId ≠ "" ∧ p.validatorId ≠ ""
    ∧ p.oldPublicKey ≠ "" ∧ p.newPublicKey ≠ "" ∧ p.oldPublicKey ≠ p.newPublicKey

variable {p q : ValidatorKeyRotation} {s s' : State} {e : CodedError}

theorem validateProposal_returns {u : PUnit} :
    Returns (validateProposal p) s u s' ↔ ValidProposal p ∧ s' = s := by
  simp [validateProposal, ValidProposal]
  tauto

theorem validateProposal_throws (h : Throws (validateProposal p) s e s') : s' = s := by
  simp [validateProposal] at h
  tauto

/-- The same metadata: equal in every field, as `===` has it. -/
def SameMetadata (p q : ValidatorKeyRotation) : Prop :=
  p.type = q.type ∧ p.rotationId = q.rotationId ∧ p.validatorId = q.validatorId
    ∧ p.oldPublicKey = q.oldPublicKey ∧ p.newPublicKey = q.newPublicKey
    ∧ p.initiatedEpoch.strictEq q.initiatedEpoch = true
    ∧ p.initiatedSlot.strictEq q.initiatedSlot = true

theorem proposalsMatch_iff : proposalsMatch p q = true ↔ SameMetadata p q := by
  simp [proposalsMatch, SameMetadata, and_assoc]

theorem SameMetadata.valid (h : SameMetadata p q) (hp : ValidProposal p) : ValidProposal q := by
  obtain ⟨h1, h2, h3, h4, h5, -, -⟩ := h
  unfold ValidProposal at hp ⊢
  rwa [← h1, ← h2, ← h3, ← h4, ← h5]

/-- A call of `commitRotation` changes nothing, or starts an attempt for a rotation that is
neither completed nor under way. -/
theorem after_commitRotation (p : ValidatorKeyRotation) (s : State) :
    after (commitRotation p) s = s ∨ (ValidProposal p ∧ s.completed.get p.rotationId = none
      ∧ s.pending.get p.rotationId = none ∧ s.starting.get p.rotationId = none
      ∧ after (commitRotation p) s = { s with
          nextId := s.nextId + 1
          snapshotting := s.snapshotting.set s.nextId p
          starting := s.starting.set p.rotationId ⟨s.nextId, p⟩ }) := by
  rcases after_cases (commitRotation p) s with ⟨a, h⟩ | ⟨e, h⟩
  · generalize after (commitRotation p) s = s' at h ⊢
    simp only [commitRotation, returns_bind, validateProposal_returns, returns_get] at h
    obtain ⟨-, s₁, ⟨hv, e₁⟩, s₂, s₃, ⟨e₂, e₃⟩, h⟩ := h
    rw [e₃, e₂, e₁] at h
    rcases hc : s.completed.get p.rotationId with _ | ⟨c, res⟩ <;> simp only [hc] at h
    · rcases hp : s.pending.get p.rotationId with _ | pc <;> simp only [hp] at h
      · rcases hs : s.starting.get p.rotationId with _ | st <;> simp only [hs] at h
        · simp only [bind_pure_comp, returns_map, returns_modify] at h
          obtain ⟨-, rfl, -⟩ := h
          exact .inr ⟨hv, rfl, rfl, rfl, rfl⟩
        · simp [assertSameProposal] at h
          exact .inl h.1.2
      · simp [assertSameProposal] at h
        exact .inl h.1.2
    · simp [assertSameProposal] at h
      exact .inl h.1.2
  · generalize after (commitRotation p) s = s' at h ⊢
    simp only [commitRotation, throws_bind, throws_get, validateProposal_returns,
      returns_get] at h
    rcases h with h | ⟨-, s₁, ⟨hv, e₁⟩, h | ⟨s₂, s₃, ⟨e₂, e₃⟩, h⟩⟩
    · exact .inl (validateProposal_throws h)
    · exact h.elim
    · rw [e₃, e₂, e₁] at h
      rcases hc : s.completed.get p.rotationId with _ | ⟨c, res⟩ <;> simp only [hc] at h
      · rcases hp : s.pending.get p.rotationId with _ | pc <;> simp only [hp] at h
        · rcases hs : s.starting.get p.rotationId with _ | st <;> simp only [hs] at h
          · simp at h
          · simp [assertSameProposal] at h
            exact .inl h.2.2
        · simp [assertSameProposal] at h
          exact .inl h.2.2
      · simp [assertSameProposal] at h
        exact .inl h.2.2

end Proposal

section Evict

variable {κ ν : Type} [DecidableEq κ]

theorem get_of_get_evict (max : ℕ) : ∀ (fuel : ℕ) (m : OrdMap κ ν) {k : κ} {v : ν},
    (evict max fuel m).get k = some v → m.get k = some v
  | 0, m, _, _, h => h
  | fuel + 1, m, k, v, h => by
    unfold evict at h
    split_ifs at h
    · split at h
      · exact h
      · rename_i oldest _
        have := get_of_get_evict max fuel _ h
        rw [OrdMap.get_delete] at this
        split_ifs at this
        exact this
    · exact h

theorem size_evict (max : ℕ) : ∀ (fuel : ℕ) (m : OrdMap κ ν), m.size ≤ max + fuel →
    (evict max fuel m).size ≤ max
  | 0, m, h => h
  | fuel + 1, m, h => by
    unfold evict
    split_ifs with hlt
    · split
      · rename_i hn
        simp only [OrdMap.keys, List.head?_eq_none_iff, List.map_eq_nil_iff] at hn
        simp [OrdMap.size, hn] at hlt
      · rename_i oldest ho
        have := OrdMap.size_delete_oldest ho
        exact size_evict max fuel _ (by omega)
    · omega

end Evict

section Invariant

/-- The result of the attempt is what it collected: of the distinct non-empty ids of its snapshot,
two thirds rounded up, each of which a call approved since the snapshot. `log` is what was seen
before the result. -/
def Sound (id : ℕ) (res : RotationCommitResult) (log : List Event) : Prop :=
  ∃ e₁ ids e₂, log = e₁ ++ .snapshot id res.rotationId ids :: e₂
    ∧ res.activeValidatorIds = (OrdSet.ofList (ids.filter (· ≠ ""))).elems
    ∧ res.approvals.Nodup
    ∧ (∀ v ∈ res.approvals, v ∈ res.activeValidatorIds ∧ .approve res.rotationId v ∈ e₁)
    ∧ res.approvals.length = approvalThreshold res.activeValidatorIds.length
    ∧ res.approvalThreshold = .ofNat res.approvals.length

/-- Every result in the log is sound. -/
def AllSound (log : List Event) : Prop :=
  ∀ l id res e, log = l ++ .resolved id res :: e → Sound id res e

/-- The attempt is its rotation's, is not settled, and has counted calls since its snapshot. -/
structure Collecting (s : State) (rid : String) (pc : PendingCommitment) : Prop where
  rotation : pc.proposal.rotationId = rid
  valid : ValidProposal pc.proposal
  starting : s.starting.get rid = some ⟨pc.id, pc.proposal⟩
  unsettled : s.settled.get pc.id = none
  threshold : pc.approvalThreshold = approvalThreshold pc.activeValidatorIds.size
  logged : ∃ e₁ ids e₂, s.log = e₁ ++ .snapshot pc.id rid ids :: e₂
    ∧ pc.activeValidatorIds = OrdSet.ofList (ids.filter (· ≠ ""))
    ∧ ∀ v ∈ pc.approvals.elems, v ∈ pc.activeValidatorIds.elems ∧ .approve rid v ∈ e₁

/-- The attempt waits for its snapshot, and is the only one of its rotation. -/
structure Waiting (s : State) (id : ℕ) (p : ValidatorKeyRotation) : Prop where
  valid : ValidProposal p
  starting : s.starting.get p.rotationId = some ⟨id, p⟩
  unsettled : s.settled.get id = none
  notPending : s.pending.get p.rotationId = none

/-- The maps agree on where each attempt is. -/
structure Core (o : Options) (s : State) : Prop where
  pending : ∀ rid pc, s.pending.get rid = some pc → Collecting s rid pc
  waiting : ∀ id p, s.snapshotting.get id = some p → Waiting s id p
  starting : ∀ rid st, s.starting.get rid = some st →
    st.proposal.rotationId = rid ∧ st.id < s.nextId
  distinct : ∀ rid rid' st st', s.starting.get rid = some st → s.starting.get rid' = some st' →
    st.id = st'.id → rid = rid'
  settled : ∀ id oc, s.settled.get id = some oc → id < s.nextId
    ∧ ∀ res, oc = .ok res → .resolved id res ∈ s.log
  decided : ∀ id, (∀ res, .resolved id res ∈ s.log → s.settled.get id = some (.ok res))
    ∧ ∀ err, .rejected id err ∈ s.log → s.settled.get id = some (.error err)
  timers : ∀ id rid, s.timers.get id = some rid → ∃ pc, s.pending.get rid = some pc ∧ pc.id = id
  completed : ∀ rid p res, s.completed.get rid = some (p, res) →
    p.rotationId = rid ∧ ValidProposal p ∧ ∃ id, .resolved id res ∈ s.log
  cached : ∀ rid entry, s.completed.get rid = some entry → s.pending.get rid = none
    ∧ ∀ id p, s.snapshotting.get id = some p → p.rotationId ≠ rid
  size : s.completed.size ≤ o.maxCompletedCommitments
  sound : AllSound s.log

/-- No pending attempt has its quorum yet. -/
def Open (s : State) : Prop :=
  ∀ rid pc, s.pending.get rid = some pc → pc.approvals.size < pc.approvalThreshold

theorem AllSound.cons {log : List Event} {ev : Event} (h : AllSound log)
    (hev : ∀ id res, ev = .resolved id res → Sound id res log) : AllSound (ev :: log) := by
  intro l id res e he
  rcases l with _ | ⟨ev', l⟩
  · simp only [List.nil_append, List.cons.injEq] at he
    obtain ⟨rfl, rfl⟩ := he
    exact hev id res rfl
  · simp only [List.cons_append, List.cons.injEq] at he
    exact h l id res e he.2

variable {o : Options} {s s' : State}

theorem Collecting.frame {rid : String} {pc : PendingCommitment} (h : Collecting s rid pc)
    (hst : s'.starting.get rid = s.starting.get rid) (hse : s'.settled.get pc.id = none)
    (hlog : ∃ l, s'.log = l ++ s.log) : Collecting s' rid pc := by
  refine ⟨h.rotation, h.valid, hst.trans h.starting, hse, h.threshold, ?_⟩
  obtain ⟨l, hl⟩ := hlog
  obtain ⟨e₁, ids, e₂, he, ha, hv⟩ := h.logged
  refine ⟨l ++ e₁, ids, e₂, by rw [hl, he, List.append_assoc], ha, fun v hm => ?_⟩
  exact ⟨(hv v hm).1, List.mem_append_right _ (hv v hm).2⟩

theorem Waiting.frame {id : ℕ} {p : ValidatorKeyRotation} (h : Waiting s id p)
    (hst : s'.starting.get p.rotationId = s.starting.get p.rotationId)
    (hse : s'.settled.get id = none) (hp : s'.pending.get p.rotationId = none) :
    Waiting s' id p :=
  ⟨h.valid, hst.trans h.starting, hse, hp⟩

theorem core_init : Core o {} := by
  refine ⟨?_, ?_, ?_, ?_, ?_, ?_, ?_, ?_, ?_, Nat.zero_le _, ?_⟩
  · simp
  · simp
  · simp
  · simp
  · simp
  · simp
  · simp
  · simp
  · simp
  · intro l id res e h
    simp at h

theorem core_push (hc : Core o s) (r v : String) :
    Core o { s with log := .approve r v :: s.log } where
  pending rid pc h := (hc.pending rid pc h).frame rfl (hc.pending rid pc h).unsettled ⟨[_], rfl⟩
  waiting id p h := (hc.waiting id p h).frame rfl (hc.waiting id p h).unsettled
    (hc.waiting id p h).notPending
  starting := hc.starting
  distinct := hc.distinct
  settled id oc h :=
    ⟨(hc.settled id oc h).1, fun res hr => List.mem_cons_of_mem _ ((hc.settled id oc h).2 res hr)⟩
  decided id := by simpa using hc.decided id
  timers := hc.timers
  completed rid p res h := by
    obtain ⟨h1, h2, id, h3⟩ := hc.completed rid p res h
    exact ⟨h1, h2, id, List.mem_cons_of_mem _ h3⟩
  cached := hc.cached
  size := hc.size
  sound := hc.sound.cons (by simp)

/-- Settling an attempt that is in none of the maps any more. -/
theorem core_settle (hc : Core o s) {id : ℕ} {oc : Except CodedError RotationCommitResult}
    (hu : s.settled.get id = none) (hlt : id < s.nextId)
    (hp : ∀ rid pc, s.pending.get rid = some pc → pc.id ≠ id)
    (hw : s.snapshotting.get id = none) (hs : ∀ res, oc = .ok res → Sound id res s.log) :
    Core o (settle id oc s) := by
  have hh : s.settled.has id = false := OrdMap.has_eq_false_iff.2 hu
  have hget : ∀ id', id' ≠ id → (s.settled.set id oc).get id' = s.settled.get id' :=
    fun id' hne => OrdMap.get_set_of_ne _ _ hne
  unfold settle
  rw [if_neg (by simp [hh])]
  refine ⟨fun rid pc h => ?_, fun id' p h => ?_, hc.starting, hc.distinct, fun id' oc' h => ?_,
    fun id' => ?_, hc.timers, fun rid p res h => ?_, hc.cached, hc.size,
    hc.sound.cons fun id' res he => ?_⟩
  · refine (hc.pending rid pc h).frame rfl ?_ ⟨[_], rfl⟩
    exact (hget _ (hp rid pc h)).trans (hc.pending rid pc h).unsettled
  · have hne : id' ≠ id := by
      rintro rfl
      rw [hw] at h
      cases h
    exact (hc.waiting id' p h).frame rfl ((hget _ hne).trans (hc.waiting id' p h).unsettled)
      (hc.waiting id' p h).notPending
  · simp only [OrdMap.get_set] at h
    split_ifs at h with he
    · cases h
      subst he
      exact ⟨hlt, fun res hr => by rw [hr]; exact List.mem_cons_self⟩
    · obtain ⟨h1, h2⟩ := hc.settled id' oc' h
      exact ⟨h1, fun res hr => List.mem_cons_of_mem _ (h2 res hr)⟩
  · obtain ⟨h1, h2⟩ := hc.decided id'
    by_cases he : id' = id
    · subst he
      have hn1 : ∀ res, .resolved id' res ∉ s.log := fun res hr => by simp [h1 res hr] at hu
      have hn2 : ∀ err, .rejected id' err ∉ s.log := fun err hr => by simp [h2 err hr] at hu
      rcases oc with err | res <;> simp [hn1, hn2]
    · rw [hget _ he]
      rcases oc with err | res <;> simpa [he] using ⟨h1, h2⟩
  · obtain ⟨h1, h2, id', h3⟩ := hc.completed rid p res h
    exact ⟨h1, h2, id', List.mem_cons_of_mem _ h3⟩
  · rcases oc with err | res'
    · simp at he
    · simp only [Event.resolved.injEq] at he
      obtain ⟨rfl, rfl⟩ := he
      exact hs _ rfl

theorem isCurrent_iff {pc : PendingCommitment} : isCurrent s pc = true ↔
    ∃ pc', s.pending.get pc.proposal.rotationId = some pc' ∧ pc'.id = pc.id := by
  unfold isCurrent
  rcases s.pending.get pc.proposal.rotationId with _ | pc' <;> simp

/-- Taking the current attempt off its rotation: it is in none of the maps after that. -/
theorem core_remove (hc : Core o s) {pc pc' : PendingCommitment}
    (hcur : s.pending.get pc.proposal.rotationId = some pc') (hid : pc'.id = pc.id) :
    Core o (remove pc s) ∧ (∀ rid q, (remove pc s).pending.get rid = some q → q.id ≠ pc.id)
      ∧ s.snapshotting.get pc.id = none ∧ pc.id < s.nextId ∧ s.settled.get pc.id = none := by
  have hcol := hc.pending _ _ hcur
  have hst := hcol.starting
  rw [hid] at hst
  have hkeep : ∀ rid q, (remove pc s).pending.get rid = some q →
      rid ≠ pc.proposal.rotationId ∧ s.pending.get rid = some q := by
    intro rid q h
    simp only [remove, OrdMap.get_delete] at h
    split_ifs at h with he
    exact ⟨he, h⟩
  have hother : ∀ rid q, (remove pc s).pending.get rid = some q → q.id ≠ pc.id := by
    intro rid q h he
    obtain ⟨hne, hq⟩ := hkeep rid q h
    exact hne (hc.distinct _ _ _ _ (hc.pending rid q hq).starting hst he)
  refine ⟨⟨fun rid q h => ?_, fun id p h => ?_, hc.starting, hc.distinct, hc.settled, hc.decided,
    fun id rid h => ?_, hc.completed, fun rid e h => ?_, hc.size, hc.sound⟩, hother, ?_,
    (hc.starting _ _ hst).2, hid ▸ hcol.unsettled⟩
  · obtain ⟨-, hq⟩ := hkeep rid q h
    exact (hc.pending rid q hq).frame rfl (hc.pending rid q hq).unsettled ⟨[], rfl⟩
  · refine (hc.waiting id p h).frame rfl (hc.waiting id p h).unsettled ?_
    simp only [remove, OrdMap.get_delete]
    split_ifs
    · rfl
    · exact (hc.waiting id p h).notPending
  · simp only [remove, OrdMap.get_delete] at h ⊢
    split_ifs at h with hne
    obtain ⟨q, hq, rfl⟩ := hc.timers id rid h
    refine ⟨q, ?_, rfl⟩
    rw [if_neg, hq]
    rintro rfl
    rw [hcur] at hq
    cases hq
    exact hne hid
  · obtain ⟨h1, h2⟩ := hc.cached rid e h
    refine ⟨?_, h2⟩
    simp only [remove, OrdMap.get_delete, h1, ite_self]
  · rcases hw : s.snapshotting.get pc.id with _ | p
    · rfl
    · have h := hc.waiting _ _ hw
      have := h.notPending
      rw [hc.distinct _ _ _ _ h.starting hst rfl, hcur] at this
      cases this

theorem core_fail (hc : Core o s) (pc : PendingCommitment) (e : CodedError) :
    Core o (failCommitment pc e s) := by
  unfold failCommitment
  split_ifs with h
  · obtain ⟨pc', hcur, hid⟩ := isCurrent_iff.1 h
    obtain ⟨h1, h2, h3, h4, h5⟩ := core_remove hc hcur hid
    exact core_settle h1 h5 h4 h2 h3 (by simp)
  · exact hc

theorem settle_remember {id : ℕ} {oc : Except CodedError RotationCommitResult}
    {p : ValidatorKeyRotation} {res : RotationCommitResult} :
    settle id oc (rememberCompleted o p res s) = rememberCompleted o p res (settle id oc s) := by
  unfold settle rememberCompleted
  split_ifs <;> rfl

theorem core_remember (hc : Core o s) {p : ValidatorKeyRotation} {res : RotationCommitResult}
    (hv : ValidProposal p) (hres : ∃ id, .resolved id res ∈ s.log)
    (hp : s.pending.get p.rotationId = none)
    (hw : ∀ id q, s.snapshotting.get id = some q → q.rotationId ≠ p.rotationId) :
    Core o (rememberCompleted o p res s) := by
  unfold rememberCompleted
  split_ifs with h0
  · exact hc
  · have hsz := OrdMap.size_set_le s.completed p.rotationId (p, res)
    refine ⟨fun rid pc h => ?_, fun id q h => ?_, hc.starting, hc.distinct, hc.settled, hc.decided,
      hc.timers, fun rid q r h => ?_, fun rid e h => ?_, size_evict _ _ _ (by omega), hc.sound⟩
    · exact (hc.pending rid pc h).frame rfl (hc.pending rid pc h).unsettled ⟨[], rfl⟩
    · exact (hc.waiting id q h).frame rfl (hc.waiting id q h).unsettled
        (hc.waiting id q h).notPending
    · have h' := get_of_get_evict _ _ _ h
      rw [OrdMap.get_set] at h'
      split_ifs at h' with he
      · cases h'
        exact ⟨he.symm, hv, hres⟩
      · exact hc.completed rid q r h'
    · have h' := get_of_get_evict _ _ _ h
      rw [OrdMap.get_set] at h'
      split_ifs at h' with he
      · subst he
        exact ⟨hp, hw⟩
      · exact hc.cached rid e h'

theorem sound_result {rid : String} {pc : PendingCommitment} (h : Collecting s rid pc)
    (hq : pc.approvals.size = pc.approvalThreshold) : Sound pc.id pc.result s.log := by
  obtain ⟨e₁, ids, e₂, hlog, hact, hv⟩ := h.logged
  have hlen : (JsString.sort pc.approvals.elems).length = pc.approvals.size :=
    (JsString.sort_perm _).length_eq
  refine ⟨e₁, ids, e₂, ?_, by rw [← hact]; rfl, ?_, fun v hm => ?_, ?_, ?_⟩
  · simp only [PendingCommitment.result, h.rotation]
    exact hlog
  · exact (JsString.sort_perm _).nodup_iff.2 pc.approvals.nodup
  · simp only [PendingCommitment.result, h.rotation] at hm ⊢
    exact hv v (JsString.mem_sort.1 hm)
  · simp only [PendingCommitment.result, hlen, hq, h.threshold]
    rfl
  · simp only [PendingCommitment.result, hlen, hq]

theorem pending_settle (id : ℕ) (oc : Except CodedError RotationCommitResult) :
    (settle id oc s).pending = s.pending := by
  unfold settle
  split_ifs <;> rfl

theorem snapshotting_settle (id : ℕ) (oc : Except CodedError RotationCommitResult) :
    (settle id oc s).snapshotting = s.snapshotting := by
  unfold settle
  split_ifs <;> rfl

theorem core_complete (hc : Core o s) {pc : PendingCommitment}
    (hcur : s.pending.get pc.proposal.rotationId = some pc)
    (hq : pc.approvals.size = pc.approvalThreshold) : Core o (completeCommitment o pc s) := by
  unfold completeCommitment
  rw [if_pos (isCurrent_iff.2 ⟨pc, hcur, rfl⟩), settle_remember]
  obtain ⟨h1, h2, h3, h4, h5⟩ := core_remove hc hcur rfl
  have hcol := hc.pending _ _ hcur
  have hset : (remove pc s).settled.has pc.id = false := OrdMap.has_eq_false_iff.2 h5
  refine core_remember (core_settle h1 h5 h4 h2 h3 ?_) hcol.valid ⟨pc.id, ?_⟩ ?_ ?_
  · rintro res h
    cases h
    show Sound pc.id pc.result s.log
    exact sound_result hcol hq
  · unfold settle
    rw [if_neg (by simp [hset])]
    exact List.mem_cons_self
  · rw [pending_settle]
    exact OrdMap.get_delete_self _ _
  · rw [snapshotting_settle]
    intro id q hq he
    have := (hc.waiting id q hq).notPending
    rw [he, hcur] at this
    cases this

/-- The state once the attempt counted the approval. -/
def counted (s : State) (rid v : String) (pc : PendingCommitment) : State :=
  { s with
    log := .approve rid v :: s.log
    pending := s.pending.set rid (pc.count v) }

theorem get_counted (s : State) (rid v rid' : String) (pc : PendingCommitment) :
    (counted s rid v pc).pending.get rid'
      = if rid' = rid then some (pc.count v) else s.pending.get rid' :=
  OrdMap.get_set _ _ _ _

/-- Counting an eligible approval that was not counted before. -/
theorem core_count (hc : Core o s) {rid v : String} {pc : PendingCommitment}
    (hcur : s.pending.get rid = some pc) (hel : v ∈ pc.activeValidatorIds.elems) :
    Core o (counted s rid v pc) := by
  have hp := core_push hc rid v
  have hcol := hc.pending _ _ hcur
  refine ⟨fun rid' q h => ?_, fun id p h => ?_, hp.starting, hp.distinct, hp.settled, hp.decided,
    fun id rid' h => ?_, hp.completed, fun rid' e h => ?_, hp.size, hp.sound⟩
  · rw [get_counted] at h
    split_ifs at h with he
    · cases h
      subst he
      refine ⟨hcol.rotation, hcol.valid, hcol.starting, hcol.unsettled, hcol.threshold, ?_⟩
      obtain ⟨e₁, ids, e₂, hlog, hact, hv⟩ := hcol.logged
      refine ⟨.approve rid' v :: e₁, ids, e₂, congrArg (Event.approve rid' v :: ·) hlog, hact,
        fun w hw => ?_⟩
      rcases OrdSet.mem_add.1 hw with hw | rfl
      · exact ⟨(hv w hw).1, List.mem_cons_of_mem _ (hv w hw).2⟩
      · exact ⟨hel, List.mem_cons_self⟩
    · exact (hp.pending rid' q h).frame rfl (hp.pending rid' q h).unsettled ⟨[], rfl⟩
  · refine (hp.waiting id p h).frame rfl (hp.waiting id p h).unsettled ?_
    have hn := (hc.waiting id p h).notPending
    rw [get_counted, if_neg, hn]
    rintro he
    rw [he, hcur] at hn
    cases hn
  · obtain ⟨q, hq, rfl⟩ := hc.timers id rid' h
    by_cases he : rid' = rid
    · subst he
      rw [hcur] at hq
      cases hq
      exact ⟨pc.count v, by rw [get_counted, if_pos rfl], rfl⟩
    · exact ⟨q, by rw [get_counted, if_neg he, hq], rfl⟩
  · obtain ⟨h1, h2⟩ := hc.cached rid' e h
    refine ⟨?_, h2⟩
    rw [get_counted, if_neg, h1]
    rintro rfl
    rw [hcur] at h1
    cases h1

theorem pending_remember (p : ValidatorKeyRotation) (res : RotationCommitResult) :
    (rememberCompleted o p res s).pending = s.pending := by
  unfold rememberCompleted
  split_ifs <;> rfl

theorem open_fail (ho : Open s) (pc : PendingCommitment) (e : CodedError) :
    Open (failCommitment pc e s) := by
  intro rid q h
  unfold failCommitment at h
  split_ifs at h
  · rw [pending_settle] at h
    simp only [remove, OrdMap.get_delete] at h
    split_ifs at h
    exact ho rid q h
  · exact ho rid q h

/-- An approval is for a rotation that is not pending, is not eligible or not new, or is counted,
and completes the attempt if it is the last one needed. -/
theorem approveRotation_cases (o : Options) (s : State) (rid v : String) :
    (s.pending.get rid = none ∧ approveRotation o rid v s
        = (⟨.unknownRotation, 0, none⟩, { s with log := .approve rid v :: s.log }))
      ∨ (approveRotation o rid v s).2 = { s with log := .approve rid v :: s.log }
      ∨ ∃ pc, s.pending.get rid = some pc ∧ v ∈ pc.activeValidatorIds.elems
        ∧ v ∉ pc.approvals.elems ∧ (approveRotation o rid v s).2
          = if pc.approvalThreshold ≤ (pc.approvals.add v).size then
              completeCommitment o (pc.count v) (counted s rid v pc)
            else counted s rid v pc := by
  unfold approveRotation
  simp only []
  split
  · rename_i hn
    exact .inl ⟨hn, rfl⟩
  · rename_i pc hcur
    split_ifs with h1 h2 h3
    · exact .inr (.inl rfl)
    · exact .inr (.inl rfl)
    · refine .inr (.inr ⟨pc, hcur, OrdSet.has_iff.1 (by simpa using h1), fun h => ?_, ?_⟩)
      · exact h2 (OrdSet.has_iff.2 h)
      · exact (if_pos h3).symm
    · refine .inr (.inr ⟨pc, hcur, OrdSet.has_iff.1 (by simpa using h1), fun h => ?_, ?_⟩)
      · exact h2 (OrdSet.has_iff.2 h)
      · exact (if_neg h3).symm

/-- An approval keeps the invariant. -/
theorem inv_approve (hc : Core o s) (ho : Open s) (rid v : String) :
    Core o (approveRotation o rid v s).2 ∧ Open (approveRotation o rid v s).2 := by
  rcases approveRotation_cases o s rid v with ⟨-, h⟩ | h | ⟨pc, hcur, hel, hnew, h⟩ <;> rw [h]
  · exact ⟨core_push hc rid v, ho⟩
  · exact ⟨core_push hc rid v, ho⟩
  have hcount := core_count hc hcur hel
  have hsize : (pc.approvals.add v).size = pc.approvals.size + 1 := by
    simp [OrdSet.size, OrdSet.elems_add_of_not_mem hnew]
  have hrot := (hc.pending _ _ hcur).rotation
  have hlt := ho rid pc hcur
  have hopen : ∀ rid' q, rid' ≠ rid → (counted s rid v pc).pending.get rid' = some q →
      q.approvals.size < q.approvalThreshold := by
    intro rid' q hne h
    rw [get_counted, if_neg hne] at h
    exact ho rid' q h
  by_cases h3 : pc.approvalThreshold ≤ (pc.approvals.add v).size
  · rw [if_pos h3]
    have hcur' : (counted s rid v pc).pending.get (pc.count v).proposal.rotationId
        = some (pc.count v) := by
      rw [get_counted]
      exact if_pos hrot
    refine ⟨core_complete hcount hcur' ?_, fun rid' q h => ?_⟩
    · simp only [PendingCommitment.count]
      omega
    · unfold completeCommitment at h
      rw [if_pos (isCurrent_iff.2 ⟨_, hcur', rfl⟩), pending_settle, pending_remember] at h
      simp only [remove, OrdMap.get_delete] at h
      split_ifs at h with he
      exact hopen rid' q (fun h' => he (h'.trans hrot.symm)) h
  · rw [if_neg h3]
    refine ⟨hcount, fun rid' q h => ?_⟩
    by_cases he : rid' = rid
    · rw [get_counted, if_pos he] at h
      cases h
      simp only [PendingCommitment.count]
      omega
    · exact hopen rid' q he h

theorem inv_commit (hc : Core o s) (ho : Open s) (p : ValidatorKeyRotation) :
    Core o (after (commitRotation p) s) ∧ Open (after (commitRotation p) s) := by
  rcases after_commitRotation p s with h | ⟨hv, hcn, hpn, hsn, h⟩ <;> rw [h]
  · exact ⟨hc, ho⟩
  refine ⟨⟨fun rid pc h => ?_, fun id q h => ?_, fun rid st h => ?_, fun rid rid' st st' h h' he => ?_,
    fun id oc h => ?_, hc.decided, hc.timers, hc.completed, fun rid e h => ?_, hc.size, hc.sound⟩,
    ho⟩
  · have hne : rid ≠ p.rotationId := by
      rintro rfl
      rw [hpn] at h
      cases h
    exact (hc.pending rid pc h).frame (OrdMap.get_set_of_ne _ _ hne) (hc.pending rid pc h).unsettled
      ⟨[], rfl⟩
  · simp only [OrdMap.get_set] at h
    split_ifs at h with he
    · cases h
      subst he
      refine ⟨hv, OrdMap.get_set_self _ _ _, ?_, hpn⟩
      rcases hs : s.settled.get s.nextId with _ | oc
      · rfl
      · exact absurd (hc.settled _ _ hs).1 (lt_irrefl _)
    · have hw := hc.waiting id q h
      have hne : q.rotationId ≠ p.rotationId := by
        intro he'
        have := hw.starting
        rw [he', hsn] at this
        cases this
      exact hw.frame (OrdMap.get_set_of_ne _ _ hne) hw.unsettled hw.notPending
  · simp only [OrdMap.get_set] at h
    split_ifs at h with he
    · cases h
      exact ⟨he.symm, Nat.lt_succ_self _⟩
    · obtain ⟨h1, h2⟩ := hc.starting rid st h
      exact ⟨h1, Nat.lt_succ_of_lt h2⟩
  · simp only [OrdMap.get_set] at h h'
    split_ifs at h h' with e1 e2 e2
    · rw [e1, e2]
    · cases h
      have := (hc.starting _ _ h').2
      simp only [← he] at this
      omega
    · cases h'
      have := (hc.starting _ _ h).2
      simp only [he] at this
      omega
    · exact hc.distinct _ _ _ _ h h' he
  · obtain ⟨h1, h2⟩ := hc.settled id oc h
    exact ⟨Nat.lt_succ_of_lt h1, h2⟩
  · obtain ⟨h1, h2⟩ := hc.cached rid e h
    refine ⟨h1, fun id q hq => ?_⟩
    simp only [OrdMap.get_set] at hq
    split_ifs at hq
    · cases hq
      rintro rfl
      rw [hcn] at h
      cases h
    · exact h2 id q hq

theorem inv_listeners : ∀ (calls : List ListenerCall) {s : State}, Core o s → Open s →
    Core o (calls.foldl (ListenerCall.run o) s) ∧ Open (calls.foldl (ListenerCall.run o) s)
  | [], _, hc, ho => ⟨hc, ho⟩
  | .approve rid v :: calls, s, hc, ho => by
    obtain ⟨hc', ho'⟩ := inv_approve hc ho rid v
    exact inv_listeners calls hc' ho'
  | .commit p :: calls, s, hc, ho => by
    obtain ⟨hc', ho'⟩ := inv_commit hc ho p
    exact inv_listeners calls hc' ho'

theorem openCommitment_ok {id : ℕ} {p : ValidatorKeyRotation} {ids : List String}
    {pc : PendingCommitment} (h : openCommitment id p ids = .ok pc) :
    pc = ⟨id, p, OrdSet.ofList (ids.filter (· ≠ "")),
        approvalThreshold (OrdSet.ofList (ids.filter (· ≠ ""))).size, ∅⟩
      ∧ 0 < pc.approvalThreshold := by
  by_cases h0 : (OrdSet.ofList (ids.filter (· ≠ ""))).size = 0
  · simp only [openCommitment, calculateRotationApprovalThreshold, if_pos h0] at h
    cases h
  · simp only [openCommitment, calculateRotationApprovalThreshold, if_neg h0] at h
    cases h
    refine ⟨rfl, ?_⟩
    simp only [approvalThreshold]
    omega

theorem core_answered (hc : Core o s) (id : ℕ) :
    Core o { s with snapshotting := s.snapshotting.delete id } := by
  refine ⟨fun rid pc h => ?_, fun id' p h => ?_, hc.starting, hc.distinct, hc.settled, hc.decided,
    hc.timers, hc.completed, fun rid e h => ?_, hc.size, hc.sound⟩
  · exact (hc.pending rid pc h).frame rfl (hc.pending rid pc h).unsettled ⟨[], rfl⟩
  · simp only [OrdMap.get_delete] at h
    split_ifs at h
    exact (hc.waiting id' p h).frame rfl (hc.waiting id' p h).unsettled
      (hc.waiting id' p h).notPending
  · obtain ⟨h1, h2⟩ := hc.cached rid e h
    refine ⟨h1, fun id' q hq => ?_⟩
    simp only [OrdMap.get_delete] at hq
    split_ifs at hq
    exact h2 id' q hq

/-- The state in which the attempt announces its rotation. -/
def opened (s : State) (pc : PendingCommitment) (ids : List String) : State :=
  { s with
    timers := s.timers.set pc.id pc.proposal.rotationId
    pending := s.pending.set pc.proposal.rotationId pc
    log := .snapshot pc.id pc.proposal.rotationId ids :: s.log }

theorem core_opened (hc : Core o s) {id : ℕ} {p : ValidatorKeyRotation} (hw : Waiting s id p)
    (hn : s.snapshotting.get id = none) (hcn : s.completed.get p.rotationId = none)
    {ids : List String} {pc : PendingCommitment} (hpc : openCommitment id p ids = .ok pc) : Core o (opened s pc ids) := by
  obtain ⟨rfl, -⟩ := openCommitment_ok hpc
  refine ⟨fun rid q h => ?_, fun id' q h => ?_, hc.starting, hc.distinct, fun id' oc h => ?_,
    fun id' => by simpa [opened] using hc.decided id', fun id' rid h => ?_,
    fun rid q res h => ?_, fun rid e h => ?_, hc.size, hc.sound.cons (by simp)⟩
  · simp only [opened, OrdMap.get_set] at h
    split_ifs at h with he
    · cases h
      subst he
      refine ⟨rfl, hw.valid, hw.starting, hw.unsettled, rfl, [], ids, s.log, rfl, rfl, ?_⟩
      intro v hv
      exact absurd hv List.not_mem_nil
    · exact (hc.pending rid q h).frame rfl (hc.pending rid q h).unsettled ⟨[_], rfl⟩
  · have hq := hc.waiting id' q h
    refine hq.frame rfl hq.unsettled ?_
    simp only [opened, OrdMap.get_set]
    rw [if_neg, hq.notPending]
    intro he
    have hst := hq.starting
    rw [he, hw.starting] at hst
    cases hst
    rw [show s.snapshotting.get id = some p from h] at hn
    cases hn
  · obtain ⟨h1, h2⟩ := hc.settled id' oc h
    exact ⟨h1, fun res hr => List.mem_cons_of_mem _ (h2 res hr)⟩
  · simp only [opened, OrdMap.get_set] at h ⊢
    split_ifs at h with he
    · cases h
      exact ⟨_, if_pos rfl, he.symm⟩
    · obtain ⟨q, hq, rfl⟩ := hc.timers id' rid h
      refine ⟨q, ?_, rfl⟩
      rw [if_neg, hq]
      rintro rfl
      rw [hw.notPending] at hq
      cases hq
  · obtain ⟨h1, h2, id', h3⟩ := hc.completed rid q res h
    exact ⟨h1, h2, id', List.mem_cons_of_mem _ h3⟩
  · obtain ⟨h1, h2⟩ := hc.cached rid e h
    refine ⟨?_, h2⟩
    simp only [opened, OrdMap.get_set]
    rw [if_neg, h1]
    rintro rfl
    rw [show s.completed.get p.rotationId = some e from h] at hcn
    cases hcn

theorem open_opened (ho : Open s) {id : ℕ} {p : ValidatorKeyRotation} {ids : List String}
    {pc : PendingCommitment} (hpc : openCommitment id p ids = .ok pc) :
    Open (opened s pc ids) := by
  obtain ⟨rfl, hpos⟩ := openCommitment_ok hpc
  intro rid q h
  simp only [opened, OrdMap.get_set] at h
  split_ifs at h
  · cases h
    exact hpos
  · exact ho rid q h

theorem waiting_not_pending (hc : Core o s) {id : ℕ} {p : ValidatorKeyRotation}
    (hw : Waiting s id p) (rid : String) (q : PendingCommitment)
    (hq : s.pending.get rid = some q) : q.id ≠ id := by
  intro he
  have hrid := hc.distinct _ _ _ _ (hc.pending rid q hq).starting hw.starting he
  rw [hrid, hw.notPending] at hq
  cases hq

theorem Open.of_pending (ho : Open s) (hp : s'.pending = s.pending) : Open s' := by
  intro rid q h
  rw [hp] at h
  exact ho rid q h

theorem inv_snapshotAnswered (hc : Core o s) (ho : Open s) {id : ℕ} {p : ValidatorKeyRotation}
    (hw : s.snapshotting.get id = some p) (ids : List String) (calls : List ListenerCall)
    (thrown : Option CodedError) :
    Core o (startCommit o id p ids calls thrown
        { s with snapshotting := s.snapshotting.delete id })
      ∧ Open (startCommit o id p ids calls thrown
        { s with snapshotting := s.snapshotting.delete id }) := by
  have hwait := hc.waiting id p hw
  have hc' := core_answered hc id
  have hgone : (s.snapshotting.delete id).get id = none := OrdMap.get_delete_self _ _
  unfold startCommit
  split
  · exact ⟨core_settle hc' hwait.unsettled (hc.starting _ _ hwait.starting).2
      (waiting_not_pending hc hwait) hgone (by simp), ho.of_pending (pending_settle _ _)⟩
  · rename_i pc hpc
    have hcn : s.completed.get p.rotationId = none := by
      rcases he : s.completed.get p.rotationId with _ | e
      · rfl
      · exact absurd rfl ((hc.cached _ _ he).2 id p hw)
    have hopened := core_opened hc' (hwait.frame rfl hwait.unsettled hwait.notPending) hgone hcn hpc
    have ho' : Open (opened { s with snapshotting := s.snapshotting.delete id } pc ids) :=
      open_opened ho hpc
    obtain ⟨hl, hlo⟩ := inv_listeners calls hopened ho'
    obtain ⟨rfl, -⟩ := openCommitment_ok hpc
    rcases thrown with _ | e
    · exact ⟨hl, hlo⟩
    · exact ⟨core_fail hl _ e, open_fail hlo _ e⟩

theorem inv_snapshotFailed (hc : Core o s) (ho : Open s) {id : ℕ} {p : ValidatorKeyRotation}
    (hw : s.snapshotting.get id = some p) (e : CodedError) :
    Core o (settle id (.error e) { s with snapshotting := s.snapshotting.delete id })
      ∧ Open (settle id (.error e) { s with snapshotting := s.snapshotting.delete id }) := by
  have hwait := hc.waiting id p hw
  exact ⟨core_settle (core_answered hc id) hwait.unsettled (hc.starting _ _ hwait.starting).2
    (waiting_not_pending hc hwait) (OrdMap.get_delete_self _ _) (by simp), ho.of_pending (pending_settle _ _)⟩

theorem inv_commitTimeout (hc : Core o s) (ho : Open s) {id : ℕ} {rid : String}
    (ht : s.timers.get id = some rid) :
    Core o (fireTimer o id rid s) ∧ Open (fireTimer o id rid s) := by
  obtain ⟨pc, hpc, hid⟩ := hc.timers id rid ht
  have hc' : Core o { s with timers := s.timers.delete id } := by
    refine ⟨fun rid' q h => ?_, fun id' p h => ?_, hc.starting, hc.distinct, hc.settled, hc.decided,
      fun id' rid' h => ?_, hc.completed, hc.cached, hc.size, hc.sound⟩
    · exact (hc.pending rid' q h).frame rfl (hc.pending rid' q h).unsettled ⟨[], rfl⟩
    · exact (hc.waiting id' p h).frame rfl (hc.waiting id' p h).unsettled
        (hc.waiting id' p h).notPending
    · simp only [OrdMap.get_delete] at h
      split_ifs at h
      exact hc.timers id' rid' h
  have ho' : Open { s with timers := s.timers.delete id } := ho
  unfold fireTimer
  simp only [hpc]
  exact ⟨core_fail hc' pc _, open_fail ho' pc _⟩

theorem inv_cleanup (hc : Core o s) (ho : Open s) {id : ℕ} {rid : String}
    (hs : s.settled.has id = true) {st : StartingCommitment} (hst : s.starting.get rid = some st)
    (hid : st.id = id) :
    Core o { s with starting := s.starting.delete rid }
      ∧ Open { s with starting := s.starting.delete rid } := by
  obtain ⟨oc, hoc⟩ := OrdMap.has_iff.1 hs
  have hkeep : ∀ rid' id', (∃ p, s.starting.get rid' = some ⟨id', p⟩) →
      s.settled.get id' = none → rid' ≠ rid := by
    rintro rid' id' ⟨p, hp⟩ hu rfl
    rw [hst] at hp
    cases hp
    rw [show id' = id from hid, hoc] at hu
    cases hu
  refine ⟨⟨fun rid' q h => ?_, fun id' p h => ?_, fun rid' st' h => ?_,
    fun r r' st₁ st₂ h h' he => ?_, hc.settled, hc.decided, hc.timers, hc.completed, hc.cached,
    hc.size, hc.sound⟩, ho⟩
  · have hcol := hc.pending rid' q h
    exact hcol.frame (OrdMap.get_delete_of_ne _ (hkeep _ _ ⟨_, hcol.starting⟩ hcol.unsettled))
      hcol.unsettled ⟨[], rfl⟩
  · have hw := hc.waiting id' p h
    exact hw.frame (OrdMap.get_delete_of_ne _ (hkeep _ _ ⟨_, hw.starting⟩ hw.unsettled))
      hw.unsettled hw.notPending
  · simp only [OrdMap.get_delete] at h
    split_ifs at h
    exact hc.starting rid' st' h
  · simp only [OrdMap.get_delete] at h h'
    split_ifs at h h'
    exact hc.distinct _ _ _ _ h h' he

theorem inv_step {a : Action} (hc : Core o s) (ho : Open s) (h : step o s a = some s') :
    Core o s' ∧ Open s' := by
  rcases a with p | ⟨rid, v⟩ | ⟨id, ids, calls, thrown⟩ | ⟨id, e⟩ | id | ⟨id, rid⟩ <;>
    simp only [step] at h
  · cases h
    exact inv_commit hc ho p
  · cases h
    exact inv_approve hc ho rid v
  · obtain ⟨p, hp, rfl⟩ := Option.map_eq_some_iff.1 h
    exact inv_snapshotAnswered hc ho hp ids calls thrown
  · obtain ⟨p, hp, rfl⟩ := Option.map_eq_some_iff.1 h
    exact inv_snapshotFailed hc ho hp e
  · obtain ⟨rid, ht, rfl⟩ := Option.map_eq_some_iff.1 h
    exact inv_commitTimeout hc ho ht
  · split_ifs at h with hs hany
    · cases h
      obtain ⟨st, hst, hid⟩ := (Option.any_eq_true _ _).1 hany
      exact inv_cleanup hc ho hs hst (by simpa using hid)
    · cases h
      exact ⟨hc, ho⟩

theorem inv_reachable (h : (sys o).Reachable s) : Core o s ∧ Open s :=
  h.invariant (P := fun s => Core o s ∧ Open s)
    (fun s hi => by rw [show s = {} from hi]; exact ⟨core_init, by intro rid pc h; simp at h⟩)
    (fun _ _ _ hi hs => inv_step hi.1 hi.2 hs)

end Invariant

section Cache

variable {o : Options} {s s' : State} {p q : ValidatorKeyRotation} {res : RotationCommitResult}

theorem commitRotation_cached (hc : s.completed.get q.rotationId = some (p, res))
    (hp : ValidProposal p) (h : SameMetadata p q) :
    Returns (commitRotation q) s (.cached res) s := by
  simp only [commitRotation, returns_bind, validateProposal_returns, returns_get]
  refine ⟨⟨⟩, s, ⟨h.valid hp, rfl⟩, s, s, ⟨rfl, rfl⟩, ?_⟩
  simp [hc, assertSameProposal, proposalsMatch_iff.2 h]

theorem commitRotation_conflict (hc : s.completed.get q.rotationId = some (p, res))
    (h : ¬ SameMetadata p q) : ∃ e, Throws (commitRotation q) s e s := by
  have hm : proposalsMatch p q = false := by
    simpa using mt proposalsMatch_iff.1 h
  rcases after_cases (commitRotation q) s with ⟨a, ha⟩ | ⟨e, he⟩
  · simp only [commitRotation, returns_bind, validateProposal_returns, returns_get] at ha
    obtain ⟨-, s₁, ⟨-, e₁⟩, s₂, s₃, ⟨e₂, e₃⟩, ha⟩ := ha
    rw [e₃, e₂, e₁] at ha
    simp [hc, assertSameProposal, hm] at ha
  · rcases after_commitRotation q s with h' | ⟨-, hn, -⟩
    · rw [h'] at he
      exact ⟨e, he⟩
    · rw [hc] at hn
      cases hn

/-- No attempt of the rotation collects approvals, and the cache has the entry or none. -/
def Quiet (rid : String) (entry : ValidatorKeyRotation × RotationCommitResult) (s : State) : Prop :=
  s.pending.get rid = none ∧ (s.completed.get rid = some entry ∨ s.completed.get rid = none)

variable {rid : String} {entry : ValidatorKeyRotation × RotationCommitResult}

theorem Quiet.of_eq (h : Quiet rid entry s) (hp : s'.pending.get rid = s.pending.get rid)
    (hc : s'.completed = s.completed) : Quiet rid entry s' := by
  unfold Quiet
  rw [hp, hc]
  exact h

theorem Quiet.settle (h : Quiet rid entry s) (id : ℕ)
    (oc : Except CodedError RotationCommitResult) : Quiet rid entry (settle id oc s) := by
  unfold Broadcaster.settle
  split_ifs
  · exact h
  · exact h.of_eq rfl rfl

theorem Quiet.remove (h : Quiet rid entry s) (pc : PendingCommitment) :
    Quiet rid entry (remove pc s) := by
  refine h.of_eq ?_ rfl
  simp only [Broadcaster.remove, OrdMap.get_delete, h.1, ite_self]

theorem Quiet.remember (h : Quiet rid entry s) (hne : p.rotationId ≠ rid) :
    Quiet rid entry (rememberCompleted o p res s) := by
  unfold rememberCompleted
  split_ifs
  · exact h
  · refine ⟨h.1, ?_⟩
    simp only
    rcases he : OrdMap.get _ rid with _ | e
    · exact .inr rfl
    · have hg := get_of_get_evict _ _ _ he
      rw [OrdMap.get_set_of_ne _ _ hne.symm] at hg
      rcases h.2 with h2 | h2
      · exact .inl (hg.symm.trans h2)
      · rw [h2] at hg
        cases hg

theorem Quiet.fail (h : Quiet rid entry s) (pc : PendingCommitment) (e : CodedError) :
    Quiet rid entry (failCommitment pc e s) := by
  unfold failCommitment
  split_ifs
  · exact (h.remove pc).settle _ _
  · exact h

theorem Quiet.complete (h : Quiet rid entry s) (pc : PendingCommitment) :
    Quiet rid entry (completeCommitment o pc s) := by
  unfold completeCommitment
  split_ifs with hcur
  · obtain ⟨pc', hget, -⟩ := isCurrent_iff.1 hcur
    refine ((h.remove pc).remember ?_).settle _ _
    intro he
    rw [he, h.1] at hget
    cases hget
  · exact h

theorem Quiet.approve (h : Quiet rid entry s) (rid' v : String) :
    Quiet rid entry (approveRotation o rid' v s).2 := by
  rcases approveRotation_cases o s rid' v with ⟨-, he⟩ | he | ⟨pc, hcur, -, -, he⟩ <;> rw [he]
  · exact h.of_eq rfl rfl
  · exact h.of_eq rfl rfl
  · have hcount : Quiet rid entry (counted s rid' v pc) := by
      refine h.of_eq ?_ rfl
      rw [get_counted, if_neg]
      rintro rfl
      rw [h.1] at hcur
      cases hcur
    split_ifs
    · exact hcount.complete _
    · exact hcount

theorem Quiet.commit (h : Quiet rid entry s) (p : ValidatorKeyRotation) :
    Quiet rid entry (after (commitRotation p) s) := by
  rcases after_commitRotation p s with he | ⟨-, -, -, -, he⟩ <;> rw [he]
  · exact h
  · exact h.of_eq rfl rfl

theorem Quiet.listeners : ∀ (calls : List ListenerCall) {s : State}, Quiet rid entry s →
    Quiet rid entry (calls.foldl (ListenerCall.run o) s)
  | [], _, h => h
  | .approve rid' v :: calls, _, h => Quiet.listeners calls (h.approve rid' v)
  | .commit p :: calls, _, h => Quiet.listeners calls (h.commit p)

theorem Quiet.startCommit (h : Quiet rid entry s) (id : ℕ) (hne : p.rotationId ≠ rid)
    (ids : List String) (calls : List ListenerCall) (thrown : Option CodedError) :
    Quiet rid entry (startCommit o id p ids calls thrown s) := by
  unfold Broadcaster.startCommit
  split
  · exact h.settle _ _
  · have hopen : ∀ pc, Quiet rid entry { s with
        timers := s.timers.set id p.rotationId
        pending := s.pending.set p.rotationId pc
        log := .snapshot id p.rotationId ids :: s.log } :=
      fun pc => h.of_eq (OrdMap.get_set_of_ne _ _ hne.symm) rfl
    rcases thrown with _ | e
    · exact (hopen _).listeners calls
    · exact ((hopen _).listeners calls).fail _ e

theorem Quiet.fireTimer (h : Quiet rid entry s) (id : ℕ) (rid' : String) :
    Quiet rid entry (fireTimer o id rid' s) := by
  have h' : Quiet rid entry { s with timers := s.timers.delete id } := h
  simp only [Broadcaster.fireTimer]
  rcases s.pending.get rid' with _ | pc
  · exact h'
  · exact h'.fail pc _

theorem completed_step {a : Action} (hi : Core o s) (hc : s.completed.get rid = some entry)
    (h : step o s a = some s') :
    s'.completed.get rid = some entry ∨ s'.completed.get rid = none := by
  obtain ⟨hp, hw⟩ := hi.cached rid entry hc
  have hq : Quiet rid entry s := ⟨hp, .inl hc⟩
  rcases a with p | ⟨rid', v⟩ | ⟨id, ids, calls, thrown⟩ | ⟨id, e⟩ | id | ⟨id, rid'⟩ <;>
    simp only [step] at h
  · cases h
    exact (hq.commit p).2
  · cases h
    exact (hq.approve rid' v).2
  · obtain ⟨p, hget, rfl⟩ := Option.map_eq_some_iff.1 h
    have hq' : Quiet rid entry { s with snapshotting := s.snapshotting.delete id } := hq
    exact (hq'.startCommit id (hw id p hget) ids calls thrown).2
  · obtain ⟨p, -, rfl⟩ := Option.map_eq_some_iff.1 h
    have hq' : Quiet rid entry { s with snapshotting := s.snapshotting.delete id } := hq
    exact (hq'.settle id _).2
  · obtain ⟨rid', -, rfl⟩ := Option.map_eq_some_iff.1 h
    exact (hq.fireTimer id rid').2
  · split_ifs at h
    · cases h
      exact hq.2
    · cases h
      exact hq.2

end Cache

section Quorum

variable {o : Options} {s : State}

/-- The attempt of the rotation waits for its snapshot or collects approvals. -/
def Underway (s : State) (rid : String) (id : ℕ) : Prop :=
  (∃ p, s.snapshotting.get id = some p ∧ p.rotationId = rid)
    ∨ ∃ pc, s.pending.get rid = some pc ∧ pc.id = id

theorem Core.underway (hc : Core o s) {rid : String} {id : ℕ} (h : Underway s rid id) :
    s.settled.get id = none ∧ ∃ p, s.starting.get rid = some ⟨id, p⟩ := by
  rcases h with ⟨p, hp, rfl⟩ | ⟨pc, hpc, rfl⟩
  · exact ⟨(hc.waiting id p hp).unsettled, p, (hc.waiting id p hp).starting⟩
  · exact ⟨(hc.pending rid pc hpc).unsettled, _, (hc.pending rid pc hpc).starting⟩

theorem Core.underway_unique (hc : Core o s) {rid : String} {id id' : ℕ}
    (h : Underway s rid id) (h' : Underway s rid id') : id = id' := by
  obtain ⟨-, p, hp⟩ := hc.underway h
  obtain ⟨-, p', hp'⟩ := hc.underway h'
  rw [hp] at hp'
  cases hp'
  rfl

theorem Core.pending_none (hc : Core o s) {rid : String}
    (h : ∀ id ids, .snapshot id rid ids ∈ s.log → ∃ oc, s.settled.get id = some oc) :
    s.pending.get rid = none := by
  rcases hp : s.pending.get rid with _ | pc
  · rfl
  · have hcol := hc.pending rid pc hp
    obtain ⟨e₁, ids, e₂, hlog, -⟩ := hcol.logged
    obtain ⟨oc, hoc⟩ := h pc.id ids (by rw [hlog]; simp)
    rw [hcol.unsettled] at hoc
    cases hoc

theorem approveRotation_unknown {rid : String} (h : s.pending.get rid = none) (v : String) :
    approveRotation o rid v s
      = (⟨.unknownRotation, 0, none⟩, { s with log := .approve rid v :: s.log }) := by
  simp [approveRotation, h]

theorem mem_resolved {log : List Event} {id : ℕ} {res : RotationCommitResult}
    (h : AllSound log) (hm : .resolved id res ∈ log) :
    res.activeValidatorIds.Nodup ∧ res.approvals.Nodup ∧ res.approvals ⊆ res.activeValidatorIds
      ∧ res.approvals.length = approvalThreshold res.activeValidatorIds.length := by
  obtain ⟨l, e, rfl⟩ := List.append_of_mem hm
  obtain ⟨e₁, ids, e₂, -, hact, hnd, hv, hlen, -⟩ := h l id res e rfl
  refine ⟨?_, hnd, fun v hm => (hv v hm).1, hlen⟩
  rw [hact]
  exact OrdSet.nodup _

theorem shared_quorum {log : List Event} {id id' : ℕ} {r r' : RotationCommitResult}
    (h : AllSound log) (hm : .resolved id r ∈ log) (hm' : .resolved id' r' ∈ log)
    (hsame : ∀ v, v ∈ r.activeValidatorIds ↔ v ∈ r'.activeValidatorIds) :
    2 * approvalThreshold r.activeValidatorIds.length
        ≤ r.activeValidatorIds.length + (OrdSet.shared r.approvals r'.approvals).length
      ∧ r.activeValidatorIds.length ≤ 3 * (OrdSet.shared r.approvals r'.approvals).length := by
  obtain ⟨ha, hn, hsub, hlen⟩ := mem_resolved h hm
  obtain ⟨ha', hn', hsub', hlen'⟩ := mem_resolved h hm'
  have hperm := (List.perm_ext_iff_of_nodup ha ha').2 hsame
  have hge := OrdSet.shared_ge hn hn' hsub (fun v hv => (hsame v).2 (hsub' hv))
  rw [hlen, hlen', ← hperm.length_eq] at hge
  refine ⟨by omega, ?_⟩
  unfold approvalThreshold at hge
  omega

/-- In every reachable state: each result is sound, and is how its attempt's promise is settled;
a rotation has at most one attempt that is not settled; a cached result is what its attempt
resolved with, is returned to every call with the same metadata, refused to every other, and not
replaced while it is cached; the cache is bounded; approvals of a rotation none of whose attempts
took a snapshot and is not settled are unknown and change nothing; and two results over one
snapshot share a third of it. -/
theorem quorum_sound (hr : (sys o).Reachable s) :
    (∀ l id res e, s.log = l ++ .resolved id res :: e → Sound id res e)
      ∧ (∀ id res, s.settled.get id = some (.ok res) ↔ .resolved id res ∈ s.log)
      ∧ (∀ rid id, Underway s rid id → s.settled.get id = none
        ∧ ∀ id', Underway s rid id' → id = id')
      ∧ (∀ rid p res, s.completed.get rid = some (p, res) →
        (∃ id, .resolved id res ∈ s.log)
          ∧ (∀ q, q.rotationId = rid →
            (SameMetadata p q → Returns (commitRotation q) s (.cached res) s)
              ∧ (¬ SameMetadata p q → ∃ e, Throws (commitRotation q) s e s))
          ∧ ∀ a s', step o s a = some s' →
            s'.completed.get rid = some (p, res) ∨ s'.completed.get rid = none)
      ∧ s.completed.size ≤ o.maxCompletedCommitments
      ∧ (∀ rid v,
        (∀ id ids, .snapshot id rid ids ∈ s.log → ∃ oc, s.settled.get id = some oc) →
        approveRotation o rid v s
          = (⟨.unknownRotation, 0, none⟩, { s with log := .approve rid v :: s.log }))
      ∧ ∀ id id' r r', .resolved id r ∈ s.log → .resolved id' r' ∈ s.log →
        (∀ v, v ∈ r.activeValidatorIds ↔ v ∈ r'.activeValidatorIds) →
        2 * approvalThreshold r.activeValidatorIds.length
            ≤ r.activeValidatorIds.length + (OrdSet.shared r.approvals r'.approvals).length
          ∧ r.activeValidatorIds.length ≤ 3 * (OrdSet.shared r.approvals r'.approvals).length := by
  obtain ⟨hc, -⟩ := inv_reachable hr
  refine ⟨hc.sound, fun id res => ⟨fun h => (hc.settled id _ h).2 res rfl, (hc.decided id).1 res⟩,
    fun rid id h => ⟨(hc.underway h).1, fun id' h' => hc.underway_unique h h'⟩, ?_, hc.size,
    fun rid v h => approveRotation_unknown (hc.pending_none h) v, fun id id' r r' hm hm' hsame =>
      shared_quorum hc.sound hm hm' hsame⟩
  intro rid p res h
  obtain ⟨-, hv, hid⟩ := hc.completed rid p res h
  refine ⟨hid, ?_, fun a s' hs => completed_step hc h hs⟩
  rintro q rfl
  exact ⟨commitRotation_cached h hv, commitRotation_conflict h⟩

theorem quorum_sound_two_of_three :
    let proposal : ValidatorKeyRotation :=
      { rotationId := "r", validatorId := "v", oldPublicKey := "k₀", newPublicKey := "k₁"
        initiatedEpoch := .ofNat 7, initiatedSlot := .ofNat 9 }
    let result : RotationCommitResult := ⟨"r", ["a", "b"], .ofNat 2, ["a", "b", "c"]⟩
    ∃ s, (sys {}).Reachable s ∧ s.completed.get "r" = some (proposal, result)
      ∧ Returns (commitRotation proposal) s (.cached result) s := by
  intro proposal result
  obtain ⟨h, s, hr, hp⟩ := Sys.exists_run (S := sys {}) rfl
    [.commitRotation proposal, .snapshotAnswered 0 ["a", "", "b", "c", "a"]
      [.approve "r" "b", .approve "r" "b", .approve "r" "d", .approve "r" "a"] none]
    (p := fun hs => hs.2.completed.get "r" = some (proposal, result)) (by decide +kernel)
  have hc : s.completed.get "r" = some (proposal, result) := by simpa using hp
  have hs := quorum_sound hr.reachable
  exact ⟨s, hr.reachable, hc, ((hs.2.2.2.1 "r" proposal result hc).2.1 proposal rfl).1
    (proposalsMatch_iff.1 (by decide +kernel))⟩

end Quorum

end Broadcaster

end VeriNode
