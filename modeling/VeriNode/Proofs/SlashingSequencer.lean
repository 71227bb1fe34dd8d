import VeriNode.Staking.SlashingSequencer
import VeriNode.Proofs.Retries

/-!
# When a failed slashing request is kept

A request that fails as often as it may be sent is inserted among the dead letters once. If that
one statement is refused, the catch-all of `submitWithRetry` makes a result of the refusal, and
nothing is left of the request. So a request is kept exactly if a transaction sent in time succeeds
or the insert takes effect (`request_kept_iff`).
-/

namespace VeriNode

namespace DeadLetters

section Loop

variable {σ μ ρ τ : Type*} {handler : μ → σ → Except (Thrown ρ) τ × σ} {message : μ}
  {messageType : String} {maxRetries : ℚ} {backoffMs : List ℕ} {db : Insert}

@[simp] theorem insert_handler {w : World σ μ} {error : Exception} {n : ℕ} :
    (DeadLetters.insert db messageType message error n w).handler = w.handler := by
  unfold DeadLetters.insert
  split <;> rfl

theorem insert_inserted {w : World σ μ} {error : Exception} {n : ℕ} :
    (DeadLetters.insert db messageType message error n w).inserted
      = w.inserted ++ if db.answer.applied then
          [entryOf db.id db.now messageType message error n] else [] := by
  unfold DeadLetters.insert
  split <;> simp

/-- The handler fails so many times in a row, from a state of its own to another. -/
def Fails (handler : μ → σ → Except (Thrown ρ) τ × σ) (message : μ) : ℕ → σ → σ → Prop
  | 0, h, h' => h = h'
  | k + 1, h, h' => ∃ e h₁, handler message h = (.error e, h₁) ∧ Fails handler message k h₁ h'

theorem processFrom_add (db : Insert) (messageType : String) (backoffMs : List ℕ) {k : ℕ} :
    ∀ (rounds : ℕ) {n : ℕ} {w : World σ μ} {h : σ}, Fails handler message k w.handler h →
    (∀ i < k, ((n + i : ℕ) : ℚ) ≠ maxRetries) →
    ∃ w', processFrom db messageType message handler maxRetries backoffMs (k + rounds) n w
        = processFrom db messageType message handler maxRetries backoffMs rounds (n + k) w'
      ∧ w'.handler = h ∧ w'.inserted = w.inserted := by
  induction k with
  | zero =>
    intro rounds n w h hf _
    exact ⟨w, by rw [Nat.zero_add, Nat.add_zero], hf, rfl⟩
  | succ k ih =>
    intro rounds n w h hf hm
    obtain ⟨e, h₁, he, hf⟩ := hf
    have hn : (n : ℚ) ≠ maxRetries := by simpa using hm 0 (Nat.succ_pos k)
    have hm' : ∀ i < k, ((n + 1 + i : ℕ) : ℚ) ≠ maxRetries := by
      intro i hi
      have h := hm (i + 1) (by omega)
      rwa [show n + 1 + i = n + (i + 1) by omega]
    let w₁ : World σ μ := { w with handler := h₁, slept := w.slept ++ [backoff backoffMs n] }
    obtain ⟨w', hw, hh, hi⟩ := ih rounds (show Fails handler message k w₁.handler h from hf) hm'
    refine ⟨w', ?_, hh, hi⟩
    rw [show k + 1 + rounds = (k + rounds) + 1 by omega, show n + (k + 1) = n + 1 + k by omega,
      ← hw]
    simp only [processFrom, he, if_neg hn, w₁]

end Loop

end DeadLetters

namespace SlashingSequencer

open DeadLetters Jobs.Worker

section Law

/-- What the transaction sent in the round was thrown for. -/
def errorAt (out : Outside) (i : ℕ) : Exception :=
  match out.send i with
  | .threw e => e
  | .result result => .error (submissionError result (out.stack i))

/-- The entry is that of the request, with the error of the given round. -/
structure Holds (maxRetries : ℚ) (out : Outside) (tx : SlashingTx) (nonce last : ℕ)
    (e : Entry SlashingProcessingMessage) : Prop where
  messageType : e.messageType = "slashing_request"
  originalMessage : e.originalMessage = ⟨tx, toString nonce, Sequencer.buildTx tx nonce⟩
  error : SerializedError.mk e.errorType e.errorMessage e.stackTrace
    = serializeError (errorAt out last)
  retryCount : (e.retryCount : ℚ) = maxRetries

/-- The request is sent as often as its failures and the retries allow; it succeeds exactly if one
of these transactions does, and then leaves no dead letter; and if it does not succeed, it leaves
exactly one, which holds it. -/
structure Kept (maxRetries : ℚ) (out : Outside) (tx : SlashingTx) (nonce : ℕ) (c : Call) :
    Prop where
  sent : ∀ payload ∈ c.sent, payload = Sequencer.buildTx tx nonce
  times : ((c.sent.length : ℚ) : WithTop ℚ)
    = min (WithTop.map (↑) (leadingFailures fun i => (out.send i).fails)) (maxRetries : WithTop ℚ)
      + 1
  success : c.result.success = true ↔ ∃ i < c.sent.length, (out.send i).fails = false
  nothing : c.result.success = true → c.inserted = []
  kept : c.result.success = false →
    ∃ e, c.inserted = [e] ∧ Holds maxRetries out tx nonce (c.sent.length - 1) e

/-- A transaction succeeds within the retries, or there is a last retry and the insert after it
takes effect. -/
def Covered (maxRetries : ℚ) (out : Outside) : Prop :=
  (∃ i : ℕ, (i : ℚ) ≤ maxRetries ∧ (out.send i).fails = false)
    ∨ ((∃ m : ℕ, (m : ℚ) = maxRetries) ∧ out.db.answer.applied = true)

end Law

section Handler

variable {out : Outside} (message : SlashingProcessingMessage) {sent : List String}

theorem handler_of_not_fails {n : ℕ} (hn : sent.length = n) (h : (out.send n).fails = false) :
    ∃ r, r.success = true ∧ out.send n = .result r
      ∧ handler out message sent = (.ok r, sent ++ [message.txPayload]) := by
  subst hn
  rcases hs : out.send sent.length with r | e
  · have hr : r.success = true := by simpa [hs, Outcome.fails] using h
    exact ⟨r, hr, rfl, by simp [handler, hs, hr]⟩
  · simp [hs, Outcome.fails] at h

theorem handler_of_fails {n : ℕ} (hn : sent.length = n) (h : (out.send n).fails = true) :
    ∃ e, e.value = errorAt out n ∧ (∀ r o, e = .own r o → r.success = false)
      ∧ handler out message sent = (.error e, sent ++ [message.txPayload]) := by
  subst hn
  rcases hs : out.send sent.length with r | e
  · have hr : r.success = false := by simpa [hs, Outcome.fails] using h
    refine ⟨.own r (submissionError r (out.stack sent.length)), ?_, ?_, ?_⟩
    · simp [errorAt, hs, Thrown.value]
    · rintro _ _ ⟨rfl, rfl⟩
      exact hr
    · simp [handler, hs, hr]
  · refine ⟨.exception e, ?_, ?_, ?_⟩
    · simp [errorAt, hs, Thrown.value]
    · simp
    · simp [handler, hs]

theorem fails_handler {k : ℕ} : ∀ {sent : List String},
    (∀ i < k, (out.send (sent.length + i)).fails = true) →
    Fails (handler out) message k sent (sent ++ List.replicate k message.txPayload) := by
  induction k with
  | zero => simp [Fails]
  | succ k ih =>
    intro sent h
    obtain ⟨e, -, -, he⟩ := handler_of_fails message rfl (h 0 (Nat.succ_pos k))
    refine ⟨e, _, he, ?_⟩
    have h' : ∀ i < k, (out.send ((sent ++ [message.txPayload]).length + i)).fails = true := by
      intro i hi
      simpa [Nat.add_assoc, Nat.add_comm 1] using h (i + 1) (by omega)
    simpa [List.replicate_succ] using ih h'

end Handler

section Process

variable {out : Outside} (message : SlashingProcessingMessage) (messageType : String)
  {maxRetries : ℚ} (backoffMs : List ℕ) {j m : ℕ}

theorem fails_first {k : ℕ} (hf : ∀ i < k, (out.send i).fails = true) :
    Fails (handler out) message k started.handler (List.replicate k message.txPayload) := by
  have hf' : ∀ i < k, (out.send (([] : List String).length + i)).fails = true := by
    simpa using hf
  simpa [started] using fails_handler message hf'

theorem rounds_eq {k : ℕ} (h : (k : ℚ) ≤ maxRetries) :
    rounds maxRetries = k + ((⌊maxRetries⌋₊ - k) + 1) := by
  have h0 : 0 ≤ maxRetries := le_trans (Nat.cast_nonneg k) h
  have hk : k ≤ ⌊maxRetries⌋₊ := Nat.le_floor h
  rw [rounds, if_pos h0]
  omega

theorem process_of_success (hj : (j : ℚ) ≤ maxRetries) (hf : ∀ i < j, (out.send i).fails = true)
    (hs : (out.send j).fails = false) :
    ∃ r w, process out.db messageType message (handler out) maxRetries backoffMs
        started = (.ok r, w)
      ∧ r.success = true ∧ w.handler = List.replicate (j + 1) message.txPayload
      ∧ w.inserted = [] := by
  have hne : ∀ i < j, ((0 + i : ℕ) : ℚ) ≠ maxRetries := by
    intro i hi he
    have hlt : ((0 + i : ℕ) : ℚ) < (j : ℚ) := by
      rw [Nat.zero_add]
      exact_mod_cast hi
    exact absurd (he ▸ hj) (not_le.2 hlt)
  obtain ⟨w, hw, hh, hi⟩ := processFrom_add out.db messageType backoffMs
    ((⌊maxRetries⌋₊ - j) + 1) (fails_first message hf) hne
  have hl : w.handler.length = j := by rw [hh, List.length_replicate]
  obtain ⟨r, hr, -, he⟩ := handler_of_not_fails message hl hs
  refine ⟨r, { w with handler := w.handler ++ [message.txPayload] }, ?_, hr, ?_, hi⟩
  · rw [process, rounds_eq hj, hw, processFrom, he]
  · simp only [hh, List.replicate_succ']

theorem process_of_last (hm : (m : ℚ) = maxRetries) (hf : ∀ i ≤ m, (out.send i).fails = true) :
    ∃ e w, process out.db messageType message (handler out) maxRetries backoffMs
        started = (.error e, w)
      ∧ (∀ r o, e = .own r o → r.success = false)
      ∧ w.handler = List.replicate (m + 1) message.txPayload
      ∧ w.inserted = if out.db.answer.applied then
          [entryOf out.db.id out.db.now messageType message (errorAt out m) m] else [] := by
  have hne : ∀ i < m, ((0 + i : ℕ) : ℚ) ≠ maxRetries := by
    intro i hi he
    rw [← hm, Nat.zero_add, Nat.cast_inj] at he
    omega
  obtain ⟨w, hw, hh, hi⟩ := processFrom_add out.db messageType backoffMs
    ((⌊maxRetries⌋₊ - m) + 1)
    (fails_first message fun i hi => hf i (le_of_lt hi)) hne
  have hl : w.handler.length = m := by rw [hh, List.length_replicate]
  obtain ⟨e, hv, ho, he⟩ := handler_of_fails message hl (hf m le_rfl)
  rw [process, rounds_eq hm.le, hw, processFrom, he]
  simp only [Nat.zero_add, if_pos hm, hv]
  rcases out.db.answer.error with _ | x
  · refine ⟨e, _, rfl, ho, ?_, ?_⟩
    · simp [hh, List.replicate_succ']
    · simp [insert_inserted, hi, started]
  · refine ⟨.exception x, _, rfl, by simp, ?_, ?_⟩
    · simp [hh, List.replicate_succ']
    · simp [insert_inserted, hi, started]

theorem process_of_fraction (h0 : 0 ≤ maxRetries) (hm : ∀ m : ℕ, (m : ℚ) ≠ maxRetries)
    (hf : ∀ i ≤ ⌊maxRetries⌋₊, (out.send i).fails = true) :
    ∃ w, process out.db messageType message (handler out) maxRetries backoffMs
        started = (.error (.exception (.error notCaptured)), w)
      ∧ w.handler = List.replicate (⌊maxRetries⌋₊ + 1) message.txPayload ∧ w.inserted = [] := by
  obtain ⟨w, hw, hh, hi⟩ := processFrom_add out.db messageType backoffMs 0
    (fails_first message fun i hi => hf i (Nat.lt_succ_iff.1 hi)) fun i _ => hm _
  refine ⟨w, ?_, hh, hi⟩
  rw [process, rounds, if_pos h0]
  exact hw

end Process

section Claim

variable {out : Outside} {tx : SlashingTx} (now : ℕ) {s : Sequencer} {maxRetries : ℚ}
  {backoffMs : List ℕ}

theorem leadingFailures_of_success {f : ℕ → Bool} {j : ℕ} (hf : ∀ i < j, f i = true)
    (hj : f j = false) : leadingFailures f = j := by
  refine le_antisymm (iInf₂_le j hj) (le_iInf₂ fun i hi => ?_)
  have hle : j ≤ i := by
    by_contra h
    have := hf i (by omega)
    simp_all
  exact_mod_cast hle

theorem lt_leadingFailures {f : ℕ → Bool} {j : ℕ} (hf : ∀ i ≤ j, f i = true) :
    (j : ℕ∞) < leadingFailures f := by
  have hle : ((j + 1 : ℕ) : ℕ∞) ≤ leadingFailures f := by
    refine le_iInf₂ fun i hi => ?_
    have hji : j + 1 ≤ i := by
      by_contra h
      have := hf i (by omega)
      simp_all
    exact_mod_cast hji
  exact lt_of_lt_of_le (by exact_mod_cast Nat.lt_succ_self j) hle

/-- What is sent for the request. -/
def messageFor (tx : SlashingTx) (nonce : ℕ) : SlashingProcessingMessage :=
  ⟨tx, toString nonce, Sequencer.buildTx tx nonce⟩

theorem submitWithRetry_of_ok {message : SlashingProcessingMessage} {r : TransactionResult}
    {w : World (List String) SlashingProcessingMessage}
    (hd : s.dlqManager = some (maxRetries, backoffMs))
    (h : process out.db "slashing_request" message (handler out) maxRetries backoffMs
      started = (.ok r, w)) : submitWithRetry out message s = (r, w) := by
  simp only [submitWithRetry, hd, h]

theorem submitWithRetry_of_error {message : SlashingProcessingMessage}
    {e : Thrown TransactionResult} {w : World (List String) SlashingProcessingMessage}
    (hd : s.dlqManager = some (maxRetries, backoffMs))
    (h : process out.db "slashing_request" message (handler out) maxRetries backoffMs
      started = (.error e, w)) (ho : ∀ r o, e = .own r o → r.success = false) :
    ∃ r, r.success = false ∧ submitWithRetry out message s = (r, w) := by
  rcases e with e | ⟨r, o⟩
  · exact ⟨⟨"", false, some ⟨-32000, messageOf e⟩⟩, rfl, by simp only [submitWithRetry, hd, h]⟩
  · exact ⟨r, ho r o rfl, by simp only [submitWithRetry, hd, h]⟩

theorem onSlashingRequest_of {r : TransactionResult}
    {w : World (List String) SlashingProcessingMessage}
    (h : ∀ s' : Sequencer, s'.dlqManager = s.dlqManager →
      submitWithRetry out (messageFor tx s.headPointer) s' = (r, w)) :
    (onSlashingRequest out tx now s).sent = w.handler
      ∧ (onSlashingRequest out tx now s).inserted = w.inserted
      ∧ (onSlashingRequest out tx now s).result.success = r.success := by
  have hs := h { (reserveNonce s).2 with store :=
    (reserveNonce s).2.store ++ [.append ⟨s.headPointer, "", now, .pending⟩] } rfl
  have he : (reserveNonce s).1 = s.headPointer := rfl
  unfold messageFor at hs
  simp only [onSlashingRequest, he, hs]
  rcases hr : r.success with _ | _ <;> simp

theorem kept_of_success {j : ℕ} (hd : s.dlqManager = some (maxRetries, backoffMs))
    (hj : (j : ℚ) ≤ maxRetries) (hf : ∀ i < j, (out.send i).fails = true)
    (hs : (out.send j).fails = false) :
    Kept maxRetries out tx s.headPointer (onSlashingRequest out tx now s) := by
  obtain ⟨r, w, hp, hr, hh, hi⟩ := process_of_success (messageFor tx s.headPointer)
    "slashing_request" backoffMs hj hf hs
  obtain ⟨h₁, h₂, h₃⟩ := onSlashingRequest_of now fun s' hs' =>
    submitWithRetry_of_ok (hs'.trans hd) hp
  have hl : (onSlashingRequest out tx now s).sent.length = j + 1 := by
    rw [h₁, hh, List.length_replicate]
  refine ⟨?_, ?_, ?_, fun _ => h₂.trans hi, fun h => ?_⟩
  · intro payload hm
    rw [h₁, hh] at hm
    exact List.eq_of_mem_replicate hm
  · rw [hl, leadingFailures_of_success hf hs]
    have hmin : min ((j : ℚ) : WithTop ℚ) (maxRetries : WithTop ℚ) = ((j : ℚ) : WithTop ℚ) :=
      min_eq_left (WithTop.coe_le_coe.2 hj)
    refine Eq.trans ?_ (congrArg (· + 1) hmin.symm)
    push_cast
    rfl
  · rw [h₃, hr, hl]
    exact ⟨fun _ => ⟨j, Nat.lt_succ_self j, hs⟩, fun _ => rfl⟩
  · rw [h₃, hr] at h
    exact absurd h (by simp)

/-- No transaction succeeds within the retries: the result has failed, and what was sent and
inserted is what the loop sent and inserted. -/
theorem not_success_of_error {e : Thrown TransactionResult}
    {w : World (List String) SlashingProcessingMessage}
    (hd : s.dlqManager = some (maxRetries, backoffMs))
    (hp : process out.db "slashing_request" (messageFor tx s.headPointer) (handler out) maxRetries
      backoffMs started = (.error e, w)) (ho : ∀ r o, e = .own r o → r.success = false) :
    (onSlashingRequest out tx now s).sent = w.handler
      ∧ (onSlashingRequest out tx now s).inserted = w.inserted
      ∧ (onSlashingRequest out tx now s).result.success = false := by
  obtain ⟨r, hr, hw⟩ := submitWithRetry_of_error hd hp ho
  have hall : ∀ s' : Sequencer, s'.dlqManager = s.dlqManager →
      submitWithRetry out (messageFor tx s.headPointer) s' = (r, w) := by
    intro s' hs'
    rw [← hw]
    simp only [submitWithRetry, hs']
  obtain ⟨h₁, h₂, h₃⟩ := onSlashingRequest_of now hall
  exact ⟨h₁, h₂, h₃.trans hr⟩

/-- All transactions fail, the last of them with the last retry. -/
theorem kept_iff_of_last {m : ℕ} (hd : s.dlqManager = some (maxRetries, backoffMs))
    (hm : (m : ℚ) = maxRetries) (hf : ∀ i ≤ m, (out.send i).fails = true) :
    Kept maxRetries out tx s.headPointer (onSlashingRequest out tx now s)
      ↔ out.db.answer.applied = true := by
  obtain ⟨e, w, hp, ho, hh, hi⟩ := process_of_last (messageFor tx s.headPointer)
    "slashing_request" backoffMs hm hf
  obtain ⟨h₁, h₂, h₃⟩ := not_success_of_error now hd hp ho
  have hl : (onSlashingRequest out tx now s).sent.length = m + 1 := by
    rw [h₁, hh, List.length_replicate]
  constructor
  · intro hk
    obtain ⟨e, he, -⟩ := hk.kept h₃
    by_contra ha
    rw [h₂, hi, if_neg ha] at he
    exact absurd he (by simp)
  · intro ha
    rw [if_pos ha] at hi
    refine ⟨?_, ?_, ?_, fun h => ?_, fun _ => ⟨_, h₂.trans hi, ?_⟩⟩
    · intro payload hm
      rw [h₁, hh] at hm
      exact List.eq_of_mem_replicate hm
    · rw [hl, ← hm, min_eq_right]
      · push_cast
        rfl
      · have hlt := lt_leadingFailures hf
        rcases hk : leadingFailures fun i => (out.send i).fails with _ | k
        · exact le_top
        · rw [hk] at hlt
          have hmk : m < k := WithTop.coe_lt_coe.1 hlt
          exact WithTop.coe_le_coe.2 (by exact_mod_cast hmk.le)
    · rw [h₃, hl]
      refine ⟨by simp, fun ⟨i, hi, hs⟩ => ?_⟩
      rw [hf i (by omega)] at hs
      exact absurd hs (by simp)
    · rw [h₃] at h
      exact absurd h (by simp)
    · rw [hl]
      exact ⟨rfl, rfl, rfl, hm⟩

theorem not_kept_of_fraction (hd : s.dlqManager = some (maxRetries, backoffMs))
    (h0 : 0 ≤ maxRetries) (hm : ∀ m : ℕ, (m : ℚ) ≠ maxRetries)
    (hf : ∀ i ≤ ⌊maxRetries⌋₊, (out.send i).fails = true) :
    ¬ Kept maxRetries out tx s.headPointer (onSlashingRequest out tx now s) := by
  obtain ⟨w, hp, -, hi⟩ := process_of_fraction (messageFor tx s.headPointer)
    "slashing_request" backoffMs h0 hm hf
  obtain ⟨-, h₂, h₃⟩ := not_success_of_error now hd hp (by simp)
  intro hk
  obtain ⟨e, he, -⟩ := hk.kept h₃
  rw [h₂, hi] at he
  exact absurd he (by simp)

/-- A request is kept exactly if a transaction succeeds within the retries, or there is a last
retry and the insert after it takes effect. -/
theorem request_kept_iff (out : Outside) (tx : SlashingTx) (now : ℕ) (s : Sequencer)
    {maxRetries : ℚ} {backoffMs : List ℕ} (hd : s.dlqManager = some (maxRetries, backoffMs))
    (h0 : 0 ≤ maxRetries) :
    Kept maxRetries out tx s.headPointer (onSlashingRequest out tx now s)
      ↔ Covered maxRetries out := by
  by_cases hs : ∃ i : ℕ, (i : ℚ) ≤ maxRetries ∧ (out.send i).fails = false
  · obtain ⟨i, ⟨hi, hsi⟩, hmin⟩ := WellFounded.has_min (measure id).wf
      {i : ℕ | (i : ℚ) ≤ maxRetries ∧ (out.send i).fails = false} hs
    have hf : ∀ j < i, (out.send j).fails = true := by
      intro j hj
      have hle : (j : ℚ) ≤ maxRetries := le_trans (by exact_mod_cast hj.le) hi
      by_contra h
      exact hmin j ⟨hle, by simpa using h⟩ hj
    exact ⟨fun _ => .inl hs, fun _ => kept_of_success now hd hi hf hsi⟩
  · have hf : ∀ i : ℕ, (i : ℚ) ≤ maxRetries → (out.send i).fails = true := by
      intro i hi
      by_contra h
      exact hs ⟨i, hi, by simpa using h⟩
    by_cases hm : ∃ m : ℕ, (m : ℚ) = maxRetries
    · obtain ⟨m, hm⟩ := hm
      rw [kept_iff_of_last now hd hm fun i hi => hf i (hm ▸ by exact_mod_cast hi)]
      exact ⟨fun h => .inr ⟨⟨m, hm⟩, h⟩, fun h => (h.resolve_left hs).2⟩
    · have hf' : ∀ i ≤ ⌊maxRetries⌋₊, (out.send i).fails = true :=
        fun i hi => hf i ((Nat.le_floor_iff h0).1 hi)
      exact ⟨fun h => absurd h (not_kept_of_fraction now hd h0 (not_exists.1 hm) hf'),
        fun h => absurd (h.resolve_left hs).1 hm⟩

/-- A sequencer whose queue has the default options. -/
def fresh : Sequencer := ⟨some (3, dlqBackoffMs), 0, 0, 0, 0, 0, 0, 0, []⟩

def evidenceTx : SlashingTx := ⟨"v1", "double_vote", "0xab", "0xcd"⟩

/-- The first transaction fails and the second does not. -/
def secondSucceeds : Outside where
  send i := if i = 0 then .threw (.other "string" "timeout") else .result ⟨"0x01", true, none⟩
  stack _ := none
  db := ⟨"", 0, .refused (.other "string" "unused")⟩

theorem request_kept_second :
    Kept 3 secondSucceeds evidenceTx 0 (onSlashingRequest secondSucceeds evidenceTx 0 fresh) :=
  (request_kept_iff secondSucceeds evidenceTx 0 fresh rfl (by norm_num)).2
    (.inl ⟨1, by norm_num, rfl⟩)

/-- All transactions fail, and the database is out of reach. -/
def allFail : Outside where
  send _ := .result ⟨"", false, some ⟨-32000, "rejected"⟩⟩
  stack _ := none
  db := ⟨"", 0, .refused (.error ⟨"Error", "connection refused", none⟩)⟩

/-- The call resolves without success, and there is no dead letter. -/
theorem request_lost :
    (onSlashingRequest allFail evidenceTx 0 fresh).result.success = false
      ∧ (onSlashingRequest allFail evidenceTx 0 fresh).inserted = []
      ∧ ¬ Kept 3 allFail evidenceTx 0 (onSlashingRequest allFail evidenceTx 0 fresh) := by
  have hm : ((3 : ℕ) : ℚ) = 3 := by norm_num
  have hf : ∀ i ≤ 3, (allFail.send i).fails = true := fun _ _ => rfl
  have hd : fresh.dlqManager = some (3, dlqBackoffMs) := rfl
  obtain ⟨e, w, hp, ho, -, hi⟩ := process_of_last (messageFor evidenceTx 0) "slashing_request"
    dlqBackoffMs hm hf
  obtain ⟨-, h₂, h₃⟩ := not_success_of_error 0 hd hp ho
  refine ⟨h₃, h₂.trans hi, fun hk => ?_⟩
  exact Bool.false_ne_true ((kept_iff_of_last 0 hd hm hf).1 hk)

end Claim

end SlashingSequencer

end VeriNode
