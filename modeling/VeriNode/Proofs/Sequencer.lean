import VeriNode.Staking.Sequencer
import VeriNode.Proofs.NonceStore

/-!
# When slashing nonces are fresh, and the water mark is low

The head pointer of a new sequencer is the water mark that was stored, so nonces are fresh along
the runs in which every crash finds the head pointer stored (`nonces_fresh`). The water mark counts
confirmations, and `purgeConfirmed` keeps what is above it and not confirmed: the nonces below it
are confirmed, and what is purged is, along the runs in which transactions are confirmed in the
order of their nonces and no entry is in the log that has the next one when it is purged
(`water_mark_low`).
-/

namespace VeriNode

namespace Sequencer

section Moves

/-- What a step may do, with what lets it. -/
inductive Move (s : State) : Action → State → Prop
  | refused (k : ℕ) (dlq : Bool) : s.process = none → Move s (.construct k dlq) s
  | constructed (k : ℕ) (dlq : Bool) (es : List WalEntry) : s.process = none →
      NonceStore.replayUnconfirmed s.files = some es → Move s (.construct k dlq) (construct k dlq s)
  | asked (tx : SlashingTx) (now : ℕ) (p : Process) : s.process = some p → p.todo = [] →
      Move s (.request tx now) (onSlashingRequest tx now p s)
  | ran (task : Task) (rest : List Task) (p : Process) : s.process = some p →
      p.todo = task :: rest → Move s .task (runTask task rest p s)
  | sentAgain (id retries : ℕ) (r : Request) (p : Process) : s.process = some p → p.todo = [] →
      s.requests.get id = some r → r.phase = .submitted retries →
      Move s (.answer id none) (send id r (retries + 1) s)
  | confirmed (id retries : ℕ) (hash : String) (r : Request) (p : Process) :
      s.process = some p → p.todo = [] → s.requests.get id = some r →
      r.phase = .submitted retries → Move s (.answer id (some hash)) (confirm id r hash p s)
  | failed (id retries : ℕ) (r : Request) (p : Process) : s.process = some p → p.todo = [] →
      s.requests.get id = some r → r.phase = .submitted retries →
      Move s (.answer id none) (fail id r s)
  | crashed (p : Process) : s.process = some p → Move s .crash { s with process := none }

variable {s s' : State} {a : Action}

theorem step_move (h : step s a = some s') : Move s a s' := by
  rcases a with ⟨k, dlq⟩ | ⟨tx, now⟩ | _ | ⟨id, hash⟩ | _ <;> simp only [step] at h
  · rcases hp : s.process with _ | p <;> simp only [hp, Option.some.injEq, reduceCtorEq] at h
    subst h
    rcases hr : NonceStore.replayUnconfirmed s.files with _ | es
    · have hs : construct k dlq s = s := by simp [construct, hr]
      rw [hs]
      exact .refused k dlq hp
    · exact .constructed k dlq es hp hr
  · rcases hp : s.process with _ | p <;> simp only [hp, reduceCtorEq] at h
    split_ifs at h with ht
    rw [← Option.some.inj h]
    exact .asked tx now p hp ht
  · rcases hp : s.process with _ | p <;> simp only [hp, reduceCtorEq] at h
    rcases ht : p.todo with _ | ⟨task, rest⟩ <;> simp only [ht, reduceCtorEq] at h
    rw [← Option.some.inj h]
    exact .ran task rest p hp ht
  · rcases hp : s.process with _ | p <;> simp only [hp, reduceCtorEq] at h
    rcases hr : s.requests.get id with _ | r <;> simp only [hr, reduceCtorEq] at h
    rcases hph : r.phase with _ | k | _ | _ <;> simp only [hph, reduceCtorEq] at h
    split_ifs at h with ht
    rw [← Option.some.inj h]
    rcases hash with _ | hash
    · unfold answer
      simp only []
      split_ifs
      · exact .sentAgain id k r p hp ht.1 hr hph
      · exact .failed id k r p hp ht.1 hr hph
    · exact .confirmed id k hash r p hp ht.1 hr hph
  · rcases hp : s.process with _ | p <;> simp only [hp, Option.some.injEq, reduceCtorEq] at h
    subst h
    exact .crashed p hp

end Moves

section Tasks

open NonceStore (Logged)

/-- The tasks of `append` and `flush`. -/
def Task.buffers : Task → Bool
  | .append _ => true
  | .flush => true
  | .write _ => true
  | .clear => true
  | _ => false

/-- What a piece may have left to do. -/
inductive Left (requests : OrdMap ℕ Request) : List Task → Prop
  | done : Left requests []
  | asking (l : List Task) (id : ℕ) (r : Request) : (∀ t ∈ l, t.buffers = true) →
      requests.get id = some r → r.phase = .reserved → Left requests (l ++ [.submit id])
  | marking : Left requests [.advanceWaterMark, .purgeConfirmed]
  | purging : Left requests [.purgeConfirmed]

/-- What holds in every state: the tasks are those of one piece, and an entry says what became of
its request. -/
structure Sound (s : State) : Prop where
  left : ∀ p, s.process = some p → Left s.requests p.todo
  id : ∀ id r, s.requests.get id = some r → id < s.nextId
  nonce : ∀ id r, s.requests.get id = some r → r.walEntry.nonce = r.nonce
  confirmed : ∀ id r, s.requests.get id = some r → r.walEntry.status = .confirmed →
    r.phase = .confirmed
  pending : ∀ id r, s.requests.get id = some r → r.walEntry.status = .pending →
    r.walEntry.txHash = ""
  logged : ∀ e, Logged s.files e → e.status = .pending → e.txHash = ""

variable {s s' : State} {a : Action} {requests : OrdMap ℕ Request} {task : Task}
  {rest : List Task} {id : ℕ} {r : Request} {p : Process}

/-- What comes after a task. -/
def Task.After (requests : OrdMap ℕ Request) (rest : List Task) : Task → Prop
  | .submit id => rest = [] ∧ ∃ r, requests.get id = some r ∧ r.phase = .reserved
  | .advanceWaterMark => rest = [.purgeConfirmed]
  | .purgeConfirmed => rest = []
  | _ => ∃ l id r, rest = l ++ [.submit id] ∧ (∀ t ∈ l, t.buffers = true)
    ∧ requests.get id = some r ∧ r.phase = .reserved

theorem Left.after (hl : Left requests (task :: rest)) : task.After requests rest := by
  generalize hq : task :: rest = todo at hl
  obtain _ | ⟨l, id, r, hb, hr, hph⟩ | _ | _ := hl
  · simp at hq
  · rcases l with _ | ⟨t, l⟩
    · obtain ⟨rfl, rfl⟩ := List.cons.inj hq
      exact ⟨rfl, r, hr, hph⟩
    · obtain ⟨rfl, rfl⟩ := List.cons.inj hq
      have ht := hb _ List.mem_cons_self
      have hl : ∃ l' id' r', l ++ [.submit id] = l' ++ [.submit id']
          ∧ (∀ t ∈ l', t.buffers = true) ∧ requests.get id' = some r' ∧ r'.phase = .reserved :=
        ⟨l, id, r, rfl, fun u hu => hb u (List.mem_cons_of_mem _ hu), hr, hph⟩
      rcases task with i | _ | i | _ | i | _ | _
      · exact hl
      · exact hl
      · exact hl
      · exact hl
      · simp [Task.buffers] at ht
      · simp [Task.buffers] at ht
      · simp [Task.buffers] at ht
  · obtain ⟨rfl, rfl⟩ := List.cons.inj hq
    rfl
  · obtain ⟨rfl, rfl⟩ := List.cons.inj hq
    rfl

theorem Left.buffering (hl : Left requests (task :: rest)) (ht : task.buffers = true) :
    ∃ l id r, rest = l ++ [.submit id] ∧ (∀ t ∈ l, t.buffers = true)
      ∧ requests.get id = some r ∧ r.phase = .reserved := by
  rcases task with i | _ | i | _ | i | _ | _
  · exact hl.after
  · exact hl.after
  · exact hl.after
  · exact hl.after
  · simp [Task.buffers] at ht
  · simp [Task.buffers] at ht
  · simp [Task.buffers] at ht

theorem Left.more (hl : Left requests (task :: rest)) (ht : task.buffers = true) {l : List Task}
    (hb : ∀ t ∈ l, t.buffers = true) : Left requests (l ++ rest) := by
  obtain ⟨l', id, r, rfl, hb', hr, hph⟩ := hl.buffering ht
  rw [← List.append_assoc]
  refine .asking _ id r (fun t h => ?_) hr hph
  rcases List.mem_append.1 h with h | h
  · exact hb t h
  · exact hb' t h

theorem Sound.keep (hs : Sound s) (hl : ∀ p, s'.process = some p → Left s'.requests p.todo)
    (hr : s'.requests = s.requests) (hid : s'.nextId = s.nextId)
    (hf : ∀ e, Logged s'.files e → e.status = .pending → e.txHash = "") : Sound s' where
  left := hl
  id := by
    rw [hr, hid]
    exact hs.id
  nonce := by
    rw [hr]
    exact hs.nonce
  confirmed := by
    rw [hr]
    exact hs.confirmed
  pending := by
    rw [hr]
    exact hs.pending
  logged := hf

theorem Sound.set (hs : Sound s)
    (hl : ∀ p, s'.process = some p → Left s'.requests p.todo)
    (hr : s'.requests = s.requests.set id r) (hid : s.nextId ≤ s'.nextId) (hlt : id < s'.nextId)
    (hf : s'.files = s.files) (hn : r.walEntry.nonce = r.nonce)
    (hc : r.walEntry.status = .confirmed → r.phase = .confirmed)
    (hp : r.walEntry.status = .pending → r.walEntry.txHash = "") : Sound s' where
  left := hl
  id i r' h := by
    rw [hr] at h
    rcases OrdMap.of_get_set h with ⟨rfl, rfl⟩ | ⟨-, h⟩
    · exact hlt
    · have := hs.id i r' h
      omega
  nonce i r' h := by
    rw [hr] at h
    rcases OrdMap.of_get_set h with ⟨rfl, rfl⟩ | ⟨-, h⟩
    · exact hn
    · exact hs.nonce i r' h
  confirmed i r' h := by
    rw [hr] at h
    rcases OrdMap.of_get_set h with ⟨rfl, rfl⟩ | ⟨-, h⟩
    · exact hc
    · exact hs.confirmed i r' h
  pending i r' h := by
    rw [hr] at h
    rcases OrdMap.of_get_set h with ⟨rfl, rfl⟩ | ⟨-, h⟩
    · exact hp
    · exact hs.pending i r' h
  logged := hf ▸ hs.logged

theorem Sound.asked (hs : Sound s) (tx : SlashingTx) (now : ℕ) (p : Process) :
    Sound (onSlashingRequest tx now p s) := by
  refine hs.set (fun q hq => ?_) rfl (Nat.le_succ _) (Nat.lt_succ_self _) rfl rfl (by simp)
    (fun _ => rfl)
  obtain rfl := Option.some.inj hq
  have hget : (onSlashingRequest tx now p s).requests.get s.nextId
      = some ⟨tx, p.headPointer, ⟨p.headPointer, "", now, .pending⟩, .reserved⟩ :=
    OrdMap.get_set_self _ _ _
  simp only []
  split_ifs
  · exact .asking [.flush, .append s.nextId] s.nextId _ (by simp [Task.buffers]) hget rfl
  · exact .asking [.append s.nextId] s.nextId _ (by simp [Task.buffers]) hget rfl

theorem Sound.ran (hs : Sound s) (hp : s.process = some p) (ht : p.todo = task :: rest) :
    Sound (runTask task rest p s) := by
  have hl : Left s.requests (task :: rest) := ht ▸ hs.left p hp
  have hrest : task.buffers = true → Left s.requests rest := fun hb =>
    hl.more hb (by simp : ∀ t ∈ ([] : List Task), t.buffers = true)
  rcases task with id | _ | id | _ | id | _ | _
  · refine hs.keep (fun q hq => ?_) rfl rfl hs.logged
    obtain rfl := Option.some.inj hq
    simp only []
    split_ifs
    · exact hl.more rfl (by simp [Task.buffers] : ∀ t ∈ [Task.flush], t.buffers = true)
    · exact hrest rfl
  · refine hs.keep (fun q hq => ?_) rfl rfl hs.logged
    obtain rfl := Option.some.inj hq
    have hb : ∀ t ∈ p.buffer.map Task.write ++ [.clear], t.buffers = true := by
      intro t h
      simp only [List.mem_append, List.mem_map, List.mem_singleton] at h
      rcases h with ⟨i, -, rfl⟩ | rfl <;> rfl
    have hm := hl.more rfl hb
    rw [List.append_assoc] at hm
    exact hm
  · simp only [runTask]
    split
    · refine hs.keep (fun q hq => ?_) rfl rfl hs.logged
      obtain rfl := Option.some.inj hq
      exact hrest rfl
    · rename_i r hr
      refine hs.keep (fun q hq => ?_) rfl rfl fun e he hst => ?_
      · obtain rfl := Option.some.inj hq
        exact hrest rfl
      · rcases NonceStore.logged_appendLine.1 he with he | rfl
        · exact hs.logged e he hst
        · exact hs.pending id r hr hst
  · refine hs.keep (fun q hq => ?_) rfl rfl hs.logged
    obtain rfl := Option.some.inj hq
    exact hrest rfl
  · obtain ⟨rfl, r, hr, hph⟩ := hl.after
    simp only [runTask, hr]
    refine hs.set (fun q hq => ?_) rfl le_rfl (hs.id _ r hr) rfl (hs.nonce _ r hr) (fun hst => ?_)
      (hs.pending _ r hr)
    · obtain rfl := Option.some.inj hq
      exact .done
    · rw [hs.confirmed _ r hr hst] at hph
      simp at hph
  · refine hs.keep (fun q hq => ?_) rfl rfl hs.logged
    obtain rfl := Option.some.inj hq
    obtain rfl : rest = [.purgeConfirmed] := hl.after
    exact .purging
  · obtain rfl : rest = [] := hl.after
    simp only [runTask]
    split
    · refine hs.keep (fun q hq => ?_) rfl rfl hs.logged
      obtain rfl := Option.some.inj hq
      exact .done
    · rename_i files hf
      refine hs.keep (fun q hq => ?_) rfl rfl fun e he =>
        hs.logged e (NonceStore.logged_purgeConfirmed hf he)
      obtain rfl := Option.some.inj hq
      exact .done

theorem Sound.move (hs : Sound s) (hm : Move s a s') : Sound s' := by
  obtain _ | ⟨k, dlq, es, hp, hr⟩ | ⟨tx, now, p, hp, -⟩ | ⟨task, rest, p, hp, ht⟩
    | ⟨id, k, r, p, hp, ht, hr, hph⟩ | ⟨id, k, hash, r, p, hp, ht, hr, hph⟩
    | ⟨id, k, r, p, hp, ht, hr, hph⟩ | ⟨p, hp⟩ := hm
  · exact hs
  · simp only [construct, hr]
    refine hs.keep (fun q hq => ?_) rfl rfl hs.logged
    obtain rfl := Option.some.inj hq
    exact .done
  · exact hs.asked tx now p
  · exact hs.ran hp ht
  · refine hs.set (fun q hq => ?_) rfl le_rfl (hs.id _ r hr) rfl (hs.nonce _ r hr) (fun hst => ?_)
      (hs.pending _ r hr)
    · obtain rfl : p = q := Option.some.inj (hp.symm.trans hq)
      rw [ht]
      exact .done
    · rw [hs.confirmed _ r hr hst] at hph
      simp at hph
  · refine hs.set (fun q hq => ?_) rfl le_rfl (hs.id _ r hr) rfl (hs.nonce _ r hr) (fun _ => rfl)
      (by simp)
    obtain rfl := Option.some.inj hq
    simp only []
    split_ifs
    · exact .marking
    · exact .done
  · refine hs.set (fun q hq => ?_) rfl le_rfl (hs.id _ r hr) rfl (hs.nonce _ r hr) (by simp)
      (by simp)
    obtain rfl : p = q := Option.some.inj (hp.symm.trans hq)
    rw [ht]
    exact .done
  · exact hs.keep (by simp) rfl rfl hs.logged

theorem sound_reachable (h : sys.Reachable s) : Sound s := by
  refine h.invariant (fun s hi => ?_) (fun s a s' hs h => hs.move (step_move h))
  obtain rfl : s = {} := hi
  exact ⟨by simp, by simp, by simp, by simp, by simp, by simp [Logged]⟩

end Tasks

section Nonces

def nonceOf (requests : OrdMap ℕ Request) (id : ℕ) : Option ℕ := (requests.get id).map (·.nonce)

/-- The next nonce: of the process, or of the one that will read the water mark. -/
def head (s : State) : ℕ :=
  match s.process with
  | some p => p.headPointer
  | none => NonceStore.getWaterMark s.files

/-- Every request has a nonce of its own, below the next. -/
structure Fresh (s : State) : Prop where
  id : ∀ id n, nonceOf s.requests id = some n → id < s.nextId
  nonce : ∀ id n, nonceOf s.requests id = some n → n < head s
  distinct : ∀ id id' n, nonceOf s.requests id = some n → nonceOf s.requests id' = some n → id = id'
  sent : ∀ id n payload, Sent.built id n payload ∈ s.sent → nonceOf s.requests id = some n

variable {s s' : State} {a : Action} {id : ℕ} {r r' : Request} {p : Process}

theorem nonceOf_set_same {requests : OrdMap ℕ Request} (hr : requests.get id = some r)
    (hn : r'.nonce = r.nonce) (i : ℕ) :
    nonceOf (requests.set id r') i = nonceOf requests i := by
  unfold nonceOf
  rw [OrdMap.get_set]
  split_ifs with hi
  · rw [hi, hr, Option.map_some, Option.map_some, hn]
  · rfl

theorem Fresh.keep (hf : Fresh s) (hn : ∀ i, nonceOf s'.requests i = nonceOf s.requests i)
    (hid : s'.nextId = s.nextId) (hh : head s ≤ head s')
    (hs : ∀ i n payload, Sent.built i n payload ∈ s'.sent →
      Sent.built i n payload ∈ s.sent ∨ nonceOf s.requests i = some n) : Fresh s' where
  id i n h := by
    rw [hn] at h
    rw [hid]
    exact hf.id i n h
  nonce i n h := by
    rw [hn] at h
    have := hf.nonce i n h
    omega
  distinct i j n h h' := by
    rw [hn] at h h'
    exact hf.distinct i j n h h'
  sent i n payload h := by
    rw [hn]
    rcases hs i n payload h with h | h
    · exact hf.sent i n payload h
    · exact h

theorem Fresh.asked (hf : Fresh s) (hp : s.process = some p) (tx : SlashingTx) (now : ℕ) :
    Fresh (onSlashingRequest tx now p s) := by
  have hhead : head s = p.headPointer := by simp [head, hp]
  have hhead' : head (onSlashingRequest tx now p s) = p.headPointer + 1 := rfl
  have hof : ∀ i, nonceOf (onSlashingRequest tx now p s).requests i
      = if i = s.nextId then some p.headPointer else nonceOf s.requests i := by
    intro i
    simp only [onSlashingRequest, nonceOf, OrdMap.get_set]
    split_ifs <;> rfl
  have hnone : ∀ n, nonceOf s.requests s.nextId ≠ some n := by
    intro n h
    exact absurd (hf.id _ n h) (lt_irrefl _)
  refine ⟨fun i n h => ?_, fun i n h => ?_, fun i j n h h' => ?_, fun i n payload h => ?_⟩
  · rw [hof] at h
    simp only [onSlashingRequest]
    split_ifs at h with hi
    · omega
    · have := hf.id i n h
      omega
  · rw [hof] at h
    rw [hhead']
    split_ifs at h with hi
    · obtain rfl := Option.some.inj h
      omega
    · have := hf.nonce i n h
      omega
  · rw [hof] at h h'
    split_ifs at h h' with hi hj hj
    · rw [hi, hj]
    · obtain rfl := Option.some.inj h
      have := hf.nonce j _ h'
      omega
    · obtain rfl := Option.some.inj h'
      have := hf.nonce i _ h
      omega
    · exact hf.distinct i j n h h'
  · have hi := hf.sent i n payload h
    rw [hof, if_neg]
    · exact hi
    · rintro rfl
      exact hnone n hi

theorem runTask_nonceOf (task : Task) (rest : List Task) (p : Process) (s : State) (i : ℕ) :
    nonceOf (runTask task rest p s).requests i = nonceOf s.requests i := by
  rcases task with id | _ | id | _ | id | _ | _ <;> simp only [runTask]
  · split <;> rfl
  · split
    · rfl
    · rename_i r hr
      exact nonceOf_set_same hr (by rfl) i
  · split <;> rfl

theorem runTask_nextId (task : Task) (rest : List Task) (p : Process) (s : State) :
    (runTask task rest p s).nextId = s.nextId := by
  rcases task with id | _ | id | _ | id | _ | _ <;> simp only [runTask]
  · split <;> rfl
  · split <;> rfl
  · split <;> rfl

theorem runTask_head (task : Task) (rest : List Task) (p : Process) (s : State) :
    head (runTask task rest p s) = p.headPointer := by
  rcases task with id | _ | id | _ | id | _ | _ <;> simp only [runTask]
  · rfl
  · rfl
  · split <;> rfl
  · rfl
  · split <;> rfl
  · rfl
  · split <;> rfl

theorem runTask_sent (task : Task) (rest : List Task) (p : Process) (s : State) (i n : ℕ)
    (payload : String) (h : Sent.built i n payload ∈ (runTask task rest p s).sent) :
    Sent.built i n payload ∈ s.sent ∨ nonceOf s.requests i = some n := by
  rcases task with id | _ | id | _ | id | _ | _ <;> simp only [runTask] at h
  · exact .inl h
  · exact .inl h
  · split at h <;> exact .inl h
  · exact .inl h
  · split at h
    · exact .inl h
    · rename_i r hr
      simp only [send, List.mem_append, List.mem_singleton, Sent.built.injEq] at h
      rcases h with h | ⟨rfl, rfl, -⟩
      · exact .inl h
      · exact .inr (by simp [nonceOf, hr])
  · exact .inl h
  · split at h <;> exact .inl h

/-- A crash finds the head pointer stored. -/
def HeadStored (s : State) : Action → Prop
  | .crash => ∀ p, s.process = some p → p.headPointer ≤ NonceStore.getWaterMark s.files
  | _ => True

theorem Fresh.move (hf : Fresh s) (hm : Move s a s') (hc : HeadStored s a) : Fresh s' := by
  obtain _ | ⟨k, dlq, es, hp, hr⟩ | ⟨tx, now, p, hp, -⟩ | ⟨task, rest, p, hp, -⟩
    | ⟨id, k, r, p, hp, -, hr, -⟩ | ⟨id, k, hash, r, p, hp, -, hr, -⟩ | ⟨id, k, r, p, hp, -, hr, -⟩
    | ⟨p, hp⟩ := hm
  · exact hf
  · have hs : construct k dlq s = { s with
        process := (construct k dlq s).process
        sent := s.sent ++ es.map fun entry => .resubmitted entry (resubmitEntry entry) } := by
      simp [construct, hr]
    rw [hs]
    refine hf.keep (fun _ => rfl) rfl ?_ fun i n payload h => .inl (by simpa using h)
    simp [head, hp, construct, hr]
  · exact hf.asked hp tx now
  · refine hf.keep (runTask_nonceOf task rest p s) (runTask_nextId task rest p s) ?_
      (runTask_sent task rest p s)
    rw [runTask_head]
    simp [head, hp]
  · refine hf.keep (nonceOf_set_same hr rfl) rfl le_rfl fun i n payload h => ?_
    simp only [send, List.mem_append, List.mem_singleton, Sent.built.injEq] at h
    rcases h with h | ⟨rfl, rfl, -⟩
    · exact .inl h
    · exact .inr (by simp [nonceOf, hr])
  · refine hf.keep (nonceOf_set_same hr rfl) rfl ?_ fun _ _ _ h => .inl h
    simp [head, hp, confirm]
  · exact hf.keep (nonceOf_set_same hr rfl) rfl le_rfl fun _ _ _ h => .inl h
  · refine hf.keep (fun _ => rfl) rfl ?_ fun _ _ _ h => .inl h
    have := hc p hp
    simpa [head, hp] using this

theorem fresh_run {h : List (Taken State Action)} (hr : Run sys h s) (hc : Along HeadStored h) :
    Fresh s := by
  refine hr.invariant_of (fun s hi => ?_) (fun s a s' hf hc hs => hf.move (step_move hs) hc) hc
  obtain rfl : s = {} := hi
  exact ⟨by simp [nonceOf], by simp [nonceOf], by simp [nonceOf], by simp⟩

/-- If every crash finds the head pointer stored, no two requests are sent with one nonce. -/
theorem nonces_fresh {h : List (Taken State Action)} (hr : Run sys h s) (hc : Along HeadStored h)
    {id id' n n' : ℕ} {payload payload' : String} (hb : Sent.built id n payload ∈ s.sent)
    (hb' : Sent.built id' n' payload' ∈ s.sent) (hne : id ≠ id') : n ≠ n' := by
  have hf := fresh_run hr hc
  rintro rfl
  exact hne (hf.distinct id id' n (hf.sent _ _ _ hb) (hf.sent _ _ _ hb'))

/-- A slashing request. -/
def report (validatorId : String) : SlashingTx := ⟨validatorId, "double-sign", "evidence", "sig"⟩

instance (s : State) : ∀ a, Decidable (HeadStored s a)
  | .crash => inferInstanceAs (Decidable (∀ p ∈ s.process,
      p.headPointer ≤ NonceStore.getWaterMark s.files))
  | .construct _ _ => isTrue trivial
  | .request _ _ => isTrue trivial
  | .task => isTrue trivial
  | .answer _ _ => isTrue trivial

/-- A crash before the first request, and two requests under way at once after it. -/
theorem nonces_fresh_two : ∃ h s, Run sys h s
    ∧ Sent.built 0 0 (buildTx (report "a") 0) ∈ s.sent
    ∧ Sent.built 1 1 (buildTx (report "b") 1) ∈ s.sent ∧ (0 : ℕ) ≠ 1 := by
  obtain ⟨h, s, hr, ht⟩ := Sys.exists_run (S := sys) rfl
    [.construct 64 false, .crash, .construct 64 true, .request (report "a") 5, .task, .task,
      .request (report "b") 6, .task, .task, .answer 1 (some "hash"), .answer 0 none]
    (p := fun x => decide ((∀ t ∈ x.1, HeadStored t.pre t.act)
      ∧ Sent.built 0 0 (buildTx (report "a") 0) ∈ x.2.sent
      ∧ Sent.built 1 1 (buildTx (report "b") 1) ∈ x.2.sent)) (by decide +kernel)
  obtain ⟨hc, h0, h1⟩ := of_decide_eq_true ht
  exact ⟨h, s, hr, h0, h1, nonces_fresh hr hc h0 h1 (by decide)⟩

/-- A crash after a request was sent: the next request is sent with its nonce. -/
theorem crash_reuses_nonce : ∃ h s, Run sys h s
    ∧ Sent.built 0 0 (buildTx (report "a") 0) ∈ s.sent
    ∧ Sent.built 1 0 (buildTx (report "b") 0) ∈ s.sent := by
  obtain ⟨h, s, hr, ht⟩ := Sys.exists_run (S := sys) rfl
    [.construct 64 false, .request (report "a") 5, .task, .task, .crash, .construct 64 false,
      .request (report "b") 6, .task, .task]
    (p := fun x => decide (Sent.built 0 0 (buildTx (report "a") 0) ∈ x.2.sent
      ∧ Sent.built 1 0 (buildTx (report "b") 0) ∈ x.2.sent)) (by decide +kernel)
  exact ⟨h, s, hr, of_decide_eq_true ht⟩

end Nonces

section WaterMark

open NonceStore (Logged entries getWaterMark)

def Confirmed (requests : OrdMap ℕ Request) (n : ℕ) : Prop :=
  ∃ id r, requests.get id = some r ∧ r.nonce = n ∧ r.phase = .confirmed

/-- The water mark: of the process, or the one that the next will read. -/
def mark (s : State) : ℕ :=
  match s.process with
  | some p => p.waterMark
  | none => getWaterMark s.files

/-- The nonces below the water mark are confirmed, and so is what a purge takes away. -/
structure Low (s : State) : Prop where
  below : ∀ n < mark s, Confirmed s.requests n
  stored : getWaterMark s.files ≤ mark s
  logged : ∀ e, Logged s.files e → e.status = .confirmed → Confirmed s.requests e.nonce
  purge : ∀ p, s.process = some p → .purgeConfirmed ∈ p.todo →
    ∀ es, entries s.files = some es → ∀ e ∈ es, e.nonce ≠ p.waterMark

/-- Transactions are confirmed in the order of their nonces, and the next nonce is not in the log
when it is purged; a crash finds the head pointer stored. -/
def InOrder (s : State) : Action → Prop
  | .answer id (some _) => ∀ p, s.process = some p → ∀ r, s.requests.get id = some r →
    r.nonce = p.waterMark ∧ (p.walFlushCounter % walFlushInterval = 0 →
      ∀ es, entries s.files = some es → ∀ e ∈ es, e.nonce ≠ p.waterMark + 1)
  | .crash => HeadStored s .crash
  | _ => True

variable {s s' : State} {a : Action} {requests : OrdMap ℕ Request} {task : Task}
  {rest : List Task} {id n : ℕ} {r r' : Request} {p : Process}

theorem InOrder.headStored (h : InOrder s a) : HeadStored s a := by
  rcases a with ⟨k, dlq⟩ | ⟨tx, now⟩ | _ | ⟨id, hash⟩ | _
  · trivial
  · trivial
  · trivial
  · trivial
  · exact h

theorem Confirmed.set (hc : Confirmed requests n) (hr : requests.get id = some r)
    (hph : r.phase ≠ .confirmed) : Confirmed (requests.set id r') n := by
  obtain ⟨i, r₀, hi, hn, hc⟩ := hc
  refine ⟨i, r₀, ?_, hn, hc⟩
  rw [OrdMap.get_set_of_ne]
  · exact hi
  · rintro rfl
    obtain rfl : r = r₀ := Option.some.inj (hr.symm.trans hi)
    exact hph hc

theorem Confirmed.set_new (hc : Confirmed requests n) (hr : requests.get id = none) :
    Confirmed (requests.set id r') n := by
  obtain ⟨i, r₀, hi, hn, hc⟩ := hc
  refine ⟨i, r₀, ?_, hn, hc⟩
  rw [OrdMap.get_set_of_ne]
  · exact hi
  · rintro rfl
    simp [hr] at hi

theorem Low.keep (hl : Low s) (hc : ∀ n, Confirmed s.requests n → Confirmed s'.requests n)
    (hm : mark s' = mark s) (hst : getWaterMark s'.files ≤ mark s)
    (hlog : ∀ e, Logged s'.files e → e.status = .confirmed → Confirmed s'.requests e.nonce)
    (hp : ∀ p, s'.process = some p → .purgeConfirmed ∈ p.todo →
      ∀ es, entries s'.files = some es → ∀ e ∈ es, e.nonce ≠ p.waterMark) : Low s' where
  below n hn := hc n (hl.below n (hm ▸ hn))
  stored := hm ▸ hst
  logged := hlog
  purge := hp

theorem Low.unconfirmed (hl : Low s) (hp : s.process = some p) (ht : p.todo = [])
    (hr : s.requests.get id = some r) (hph : r.phase ≠ .confirmed)
    (hreq : s'.requests = s.requests.set id r') (hproc : s'.process = s.process)
    (hf : s'.files = s.files) : Low s' := by
  refine hl.keep (fun n h => hreq ▸ h.set hr hph) (by simp [mark, hproc, hf]) (hf ▸ hl.stored)
    (fun e he hst => hreq ▸ (hl.logged e (hf ▸ he) hst).set hr hph) fun q hq hmem => ?_
  obtain rfl : p = q := Option.some.inj ((hproc.trans hp).symm.trans hq)
  simp [ht] at hmem

theorem Low.ran (hl : Low s) (hs : Sound s) (hp : s.process = some p)
    (ht : p.todo = task :: rest) : Low (runTask task rest p s) := by
  have hleft : Left s.requests (task :: rest) := ht ▸ hs.left p hp
  have hmark : mark s = p.waterMark := by simp [mark, hp]
  have hno : task.buffers = true → .purgeConfirmed ∉ rest := by
    intro hb hmem
    obtain ⟨l, i, r, rfl, hb', -⟩ := hleft.buffering hb
    rcases List.mem_append.1 hmem with h | h
    · exact absurd (hb' _ h) (by simp [Task.buffers])
    · simp at h
  rcases task with id | _ | id | _ | id | _ | _
  · refine hl.keep (fun _ h => h) hmark.symm hl.stored hl.logged fun q hq hmem => ?_
    obtain rfl := Option.some.inj hq
    simp only [] at hmem
    split_ifs at hmem
    · exact absurd hmem (by simpa using hno rfl)
    · exact absurd hmem (hno rfl)
  · refine hl.keep (fun _ h => h) hmark.symm hl.stored hl.logged fun q hq hmem => ?_
    obtain rfl := Option.some.inj hq
    exact absurd hmem (by simpa using hno rfl)
  · simp only [runTask]
    split
    · refine hl.keep (fun _ h => h) hmark.symm hl.stored hl.logged fun q hq hmem => ?_
      obtain rfl := Option.some.inj hq
      exact absurd hmem (hno rfl)
    · rename_i r hr
      refine hl.keep (fun _ h => h) hmark.symm hl.stored (fun e he hst => ?_) fun q hq hmem => ?_
      · rcases NonceStore.logged_appendLine.1 he with he | rfl
        · exact hl.logged e he hst
        · exact ⟨id, r, hr, (hs.nonce id r hr).symm, hs.confirmed id r hr hst⟩
      · obtain rfl := Option.some.inj hq
        exact absurd hmem (hno rfl)
  · refine hl.keep (fun _ h => h) hmark.symm hl.stored hl.logged fun q hq hmem => ?_
    obtain rfl := Option.some.inj hq
    exact absurd hmem (hno rfl)
  · obtain ⟨rfl, r, hr, hph⟩ := hleft.after
    have hset : ∀ n r', Confirmed s.requests n → Confirmed (s.requests.set id r') n :=
      fun n r' hc => hc.set hr (by simp [hph])
    simp only [runTask, hr]
    refine hl.keep (fun n => hset n _) hmark.symm hl.stored (fun e he hst => ?_) fun q hq hmem => ?_
    · exact hset _ _ (hl.logged e he hst)
    · obtain rfl := Option.some.inj hq
      simp at hmem
  · refine hl.keep (fun _ h => h) hmark.symm ?_ hl.logged fun q hq _ => ?_
    · rw [hmark]
      exact le_rfl
    · obtain rfl := Option.some.inj hq
      obtain rfl : rest = [.purgeConfirmed] := hleft.after
      exact hl.purge p hp (by simp [ht])
  · obtain rfl : rest = [] := hleft.after
    simp only [runTask]
    split
    · refine hl.keep (fun _ h => h) hmark.symm hl.stored hl.logged fun q hq hmem => ?_
      obtain rfl := Option.some.inj hq
      simp at hmem
    · rename_i files hf
      obtain ⟨es, -, -, hw⟩ := NonceStore.entries_purgeConfirmed hf
      refine hl.keep (fun _ h => h) hmark.symm ?_ (fun e he hst => ?_) fun q hq hmem => ?_
      · have := hl.stored
        simpa [getWaterMark, hw] using this
      · exact hl.logged e (NonceStore.logged_purgeConfirmed hf he) hst
      · obtain rfl := Option.some.inj hq
        simp at hmem

theorem Low.move (hl : Low s) (hs : Sound s) (hm : Move s a s') (hc : InOrder s a) : Low s' := by
  obtain _ | ⟨k, dlq, es, hp, hr⟩ | ⟨tx, now, p, hp, -⟩ | ⟨task, rest, p, hp, ht⟩
    | ⟨id, k, r, p, hp, ht, hr, hph⟩ | ⟨id, k, hash, r, p, hp, ht, hr, hph⟩
    | ⟨id, k, r, p, hp, ht, hr, hph⟩ | ⟨p, hp⟩ := hm
  · exact hl
  · simp only [construct, hr]
    refine hl.keep (fun _ h => h) ?_ hl.stored hl.logged fun q hq hmem => ?_
    · simp [mark, hp]
    · obtain rfl := Option.some.inj hq
      simp at hmem
  · have hnew : s.requests.get s.nextId = none := by
      rcases hget : s.requests.get s.nextId with _ | r
      · rfl
      · exact absurd (hs.id _ r hget) (lt_irrefl _)
    refine hl.keep (fun n h => h.set_new hnew) ?_ hl.stored
      (fun e he hst => (hl.logged e he hst).set_new hnew) fun q hq hmem => ?_
    · simp [mark, hp, onSlashingRequest]
    · obtain rfl := Option.some.inj hq
      simp only [] at hmem
      split_ifs at hmem <;> simp at hmem
  · exact hl.ran hs hp ht
  · exact hl.unconfirmed hp ht hr (by simp [hph]) rfl rfl rfl
  · obtain ⟨hn, hnext⟩ := hc p hp r hr
    have hph' : r.phase ≠ .confirmed := by simp [hph]
    have hmark : mark s = p.waterMark := by simp [mark, hp]
    have hmark' : mark (confirm id r hash p s) = p.waterMark + 1 := rfl
    refine ⟨fun n hlt => ?_, ?_, fun e he hst => (hl.logged e he hst).set hr hph',
      fun q hq hmem => ?_⟩
    · by_cases hlast : n = p.waterMark
      · exact ⟨id, _, OrdMap.get_set_self _ _ _, by rw [hlast, ← hn], rfl⟩
      · exact (hl.below n (by omega)).set hr hph'
    · have hst := hl.stored
      have hfiles : (confirm id r hash p s).files = s.files := rfl
      rw [hfiles, hmark']
      omega
    · obtain rfl := Option.some.inj hq
      simp only [] at hmem
      split_ifs at hmem with hfl
      · exact hnext hfl
      · simp at hmem
  · exact hl.unconfirmed hp ht hr (by simp [hph]) rfl rfl rfl
  · exact ⟨fun n hn => hl.below n (lt_of_lt_of_le hn hl.stored), le_rfl, hl.logged, by simp⟩

theorem low_run {h : List (Taken State Action)} (hr : Run sys h s) (hc : Along InOrder h) :
    Low s := by
  have hboth : Sound s ∧ Low s := by
    refine hr.invariant_of (P := fun s => Sound s ∧ Low s)
      (fun s hi => ?_) (fun s a s' hsl ha hs => ?_) hc
    · refine ⟨sound_reachable ⟨[], .start hi⟩, ?_⟩
      obtain rfl : s = {} := hi
      exact ⟨by simp [mark, getWaterMark], by simp [mark, getWaterMark], by simp [Logged], by simp⟩
    · exact ⟨hsl.1.move (step_move hs), hsl.2.move hsl.1 (step_move hs) ha⟩
  exact hboth.2

/-- A request has the nonce, and every request that has it is confirmed. -/
def BelongsToConfirmed (s : State) (n : ℕ) : Prop :=
  Confirmed s.requests n
    ∧ ∀ id r, s.requests.get id = some r → r.nonce = n → r.phase = .confirmed

theorem Confirmed.belongs (hc : Confirmed s.requests n) (hf : Fresh s) :
    BelongsToConfirmed s n := by
  refine ⟨hc, fun id r hr hn => ?_⟩
  obtain ⟨id', r', hr', hn', hph⟩ := hc
  obtain rfl := hf.distinct id id' n (by simp [nonceOf, hr, hn]) (by simp [nonceOf, hr', hn'])
  obtain rfl : r = r' := Option.some.inj (hr.symm.trans hr')
  exact hph

/-- The step, if it purges the log, takes away entries of confirmed requests only. -/
def PurgesConfirmed (t : Taken State Action) : Prop :=
  ∀ p rest, t.act = .task → t.pre.process = some p → p.todo = .purgeConfirmed :: rest →
    ∀ es es', entries t.pre.files = some es → entries t.post.files = some es' →
    ∀ e ∈ es, e ∉ es' → BelongsToConfirmed t.pre e.nonce

theorem purges_confirmed {t : Taken State Action} (hl : Low t.pre) (hf : Fresh t.pre)
    (hs : step t.pre t.act = some t.post) : PurgesConfirmed t := by
  intro p rest ha hp ht es es' hes hes' e he hne
  have hpost : t.post = runTask .purgeConfirmed rest p t.pre := by
    rw [ha] at hs
    simp only [step, hp, ht, Option.some.injEq] at hs
    exact hs.symm
  rw [hpost] at hes'
  simp only [runTask] at hes'
  split at hes'
  · rw [hes] at hes'
    exact absurd (Option.some.inj hes' ▸ he) hne
  · rename_i files hfiles
    obtain ⟨es₀, h₀, h₁, -⟩ := NonceStore.entries_purgeConfirmed hfiles
    obtain rfl : es₀ = es := Option.some.inj (h₀.symm.trans hes)
    obtain rfl := Option.some.inj (h₁.symm.trans hes')
    refine Confirmed.belongs ?_ hf
    by_cases hst : e.status = .confirmed
    · exact hl.logged e ((NonceStore.logged_of_entries hes).1 he) hst
    · have hle : e.nonce ≤ p.waterMark := by
        by_contra hlt
        exact hne (List.mem_filter.2 ⟨he, by simpa [hst] using hlt⟩)
      have hneq := hl.purge p hp (by simp [ht]) _ hes e he
      exact hl.below _ (by rw [mark, hp]; simp only []; omega)

/-- If transactions are confirmed in the order of their nonces, and the next nonce is not in the
log when it is purged, the nonces below the water mark are confirmed, and so is all that is
purged. -/
theorem water_mark_low {h : List (Taken State Action)} (hr : Run sys h s) (hc : Along InOrder h) :
    (∀ p, s.process = some p → ∀ n < p.waterMark, BelongsToConfirmed s n)
      ∧ ∀ t ∈ h, PurgesConfirmed t := by
  have hfresh : ∀ {h s}, Run sys h s → Along InOrder h → Fresh s := fun hr hc =>
    fresh_run hr fun t ht => (hc t ht).headStored
  refine ⟨fun p hp n hn => ?_, fun t ht => ?_⟩
  · have hm : mark s = p.waterMark := by simp [mark, hp]
    exact ((low_run hr hc).below n (hm ▸ hn)).belongs (hfresh hr hc)
  · obtain ⟨e, hre, hce, -, hs⟩ := hr.taken_along hc ht
    exact purges_confirmed (low_run hre hce) (hfresh hre hce) hs

instance (s : State) : ∀ a, Decidable (InOrder s a)
  | .crash => inferInstanceAs (Decidable (HeadStored s .crash))
  | .construct _ _ => isTrue trivial
  | .request _ _ => isTrue trivial
  | .task => isTrue trivial
  | .answer _ none => isTrue trivial
  | .answer id (some _) => inferInstanceAs (Decidable (∀ p ∈ s.process, ∀ r ∈ s.requests.get id,
      r.nonce = p.waterMark ∧ (p.walFlushCounter % walFlushInterval = 0 →
        ∀ es ∈ entries s.files, ∀ e ∈ es, e.nonce ≠ p.waterMark + 1)))

/-- Two requests confirmed in their order, a third still under way. -/
theorem water_mark_low_two : ∃ h s, Run sys h s ∧ s.process.map (·.waterMark) = some 2
    ∧ (∀ p, s.process = some p → ∀ n < p.waterMark, BelongsToConfirmed s n)
    ∧ ∀ t ∈ h, PurgesConfirmed t := by
  obtain ⟨h, s, hr, ht⟩ := Sys.exists_run (S := sys) rfl
    [.construct 1 false, .request (report "a") 5, .task, .task, .task, .task, .task,
      .request (report "b") 6, .task, .task, .task, .task, .task, .answer 0 (some "hash a"),
      .request (report "c") 7, .task, .task, .task, .task, .task, .answer 1 (some "hash b")]
    (p := fun x => decide ((∀ t ∈ x.1, InOrder t.pre t.act)
      ∧ x.2.process.map (·.waterMark) = some 2)) (by decide +kernel)
  obtain ⟨hc, hm⟩ := of_decide_eq_true ht
  exact ⟨h, s, hr, hm, water_mark_low hr hc⟩

/-- The second request is confirmed first: the nonce below the water mark is not confirmed. -/
theorem water_mark_passes_unconfirmed : ∃ h s p r, Run sys h s ∧ (∀ t ∈ h, t.act ≠ .crash)
    ∧ s.process = some p ∧ 0 < p.waterMark ∧ s.requests.get 0 = some r ∧ r.nonce = 0
    ∧ r.phase = .submitted 0 := by
  obtain ⟨h, s, hr, ht⟩ := Sys.exists_run (S := sys) rfl
    [.construct 64 false, .request (report "a") 5, .task, .task, .request (report "b") 6, .task,
      .task, .answer 1 (some "hash b")]
    (p := fun x => decide ((∀ t ∈ x.1, t.act ≠ .crash)
      ∧ x.2.process.map (·.waterMark) = some 1
      ∧ (x.2.requests.get 0).map (fun r => (r.nonce, r.phase)) = some (0, .submitted 0)))
    (by decide +kernel)
  obtain ⟨hc, hm, hq⟩ := of_decide_eq_true ht
  obtain ⟨p, hp, hw⟩ := Option.map_eq_some_iff.1 hm
  obtain ⟨r, hr', he⟩ := Option.map_eq_some_iff.1 hq
  obtain ⟨hn, hph⟩ := Prod.mk.inj he
  exact ⟨h, s, p, r, hr, hc, hp, by omega, hr', hn, hph⟩

end WaterMark

end Sequencer

end VeriNode

/-!
# When the log recovers the requests

What is pending in the log has no transaction in it: its hash is empty until it is confirmed, and
the hash is what the next sequencer sends. So a crash is recovered from exactly when there is
nothing to recover (`recovery_exact_iff`), and never right after a flush, which always runs inside
a request that has its nonce and no answer (`not_recovers_flushed`).
-/

namespace VeriNode

namespace Sequencer

section Recovery

open NonceStore (entries replayUnconfirmed)

/-- The request has its nonce, and was neither confirmed nor failed. -/
def Request.outstanding (r : Request) : Bool :=
  match r.phase with
  | .reserved => true
  | .submitted _ => true
  | .confirmed => false
  | .failed => false

/-- The nonces of the requests that are outstanding. -/
def outstanding (requests : OrdMap ℕ Request) : List ℕ :=
  (requests.values.filter (·.outstanding)).map (·.nonce)

/-- After a crash the log is read, gives the outstanding requests and no others, each once, and
what is sent again is what was sent. -/
def Recovers (s : State) : Prop :=
  ∃ es, replayUnconfirmed s.files = some es
    ∧ (es.map (·.nonce)).Perm (outstanding s.requests)
    ∧ ∀ e ∈ es, ∀ id r, s.requests.get id = some r → r.outstanding = true → r.nonce = e.nonce →
      resubmitEntry e = buildTx r.tx r.nonce

/-- No request is outstanding, and every line of the log is an entry that is not pending. -/
def Settled (s : State) : Prop :=
  (∀ id r, s.requests.get id = some r → r.outstanding = false)
    ∧ ∃ es, entries s.files = some es ∧ ∀ e ∈ es, e.status ≠ .pending

variable {s : State} {e : WalEntry} {n id : ℕ} {r : Request} {requests : OrdMap ℕ Request}

theorem mem_outstanding : n ∈ outstanding requests ↔
    ∃ id r, requests.get id = some r ∧ r.outstanding = true ∧ r.nonce = n := by
  unfold outstanding OrdMap.values
  simp only [List.mem_map, List.mem_filter]
  constructor
  · rintro ⟨r, ⟨⟨⟨id, r'⟩, hm, rfl⟩, ho⟩, hn⟩
    exact ⟨id, r', OrdMap.mem_entries_iff.1 hm, ho, hn⟩
  · rintro ⟨id, r, hr, ho, hn⟩
    exact ⟨r, ⟨⟨(id, r), OrdMap.mem_entries_iff.2 hr, rfl⟩, ho⟩, hn⟩

theorem buildTx_ne_empty (tx : SlashingTx) (n : ℕ) : buildTx tx n ≠ "" :=
  JsString.stringify_ne_empty _

theorem Sound.resubmits_nothing (hs : Sound s) {es : List WalEntry}
    (hr : replayUnconfirmed s.files = some es) (he : e ∈ es) : resubmitEntry e = "" := by
  obtain ⟨es', hes, rfl⟩ := Option.map_eq_some_iff.1 hr
  obtain ⟨hmem, hst⟩ := List.mem_filter.1 he
  exact hs.logged e ((NonceStore.logged_of_entries hes).1 hmem) (by simpa using hst)

theorem Sound.replay_nil (hs : Sound s) (hrec : Recovers s) :
    replayUnconfirmed s.files = some [] ∧ outstanding s.requests = [] := by
  obtain ⟨es, hes, hperm, hsent⟩ := hrec
  rcases es with _ | ⟨e, es⟩
  · exact ⟨hes, (List.nil_perm.1 hperm)⟩
  · have hn : e.nonce ∈ outstanding s.requests := hperm.subset (by simp)
    obtain ⟨id, r, hr, ho, hrn⟩ := mem_outstanding.1 hn
    have hpay := hsent e List.mem_cons_self id r hr ho hrn
    rw [hs.resubmits_nothing hes List.mem_cons_self] at hpay
    exact absurd hpay.symm (buildTx_ne_empty r.tx r.nonce)

/-- A crash is recovered from exactly if no request is outstanding and the log can be read and has
nothing pending. -/
theorem recovery_exact_iff (h : sys.Reachable s) : Recovers s ↔ Settled s := by
  have hs := sound_reachable h
  constructor
  · intro hrec
    obtain ⟨hnil, hout⟩ := hs.replay_nil hrec
    refine ⟨fun id r hr => ?_, ?_⟩
    · by_contra ho
      have hmem : r.nonce ∈ outstanding s.requests :=
        mem_outstanding.2 ⟨id, r, hr, by simpa using ho, rfl⟩
      simp [hout] at hmem
    · obtain ⟨es, hes, hfil⟩ := Option.map_eq_some_iff.1 hnil
      exact ⟨es, hes, fun e he => by simpa using List.filter_eq_nil_iff.1 hfil e he⟩
  · rintro ⟨hout, es, hes, hst⟩
    have hnil : es.filter (·.status = .pending) = [] :=
      List.filter_eq_nil_iff.2 fun e he => by simpa using hst e he
    refine ⟨[], by rw [replayUnconfirmed, hes, Option.map_some, hnil], ?_, by simp⟩
    have hempty : outstanding s.requests = [] := by
      refine List.eq_nil_iff_forall_not_mem.2 fun n hn => ?_
      obtain ⟨id, r, hr, ho, -⟩ := mem_outstanding.1 hn
      simp [hout id r hr] at ho
    simp [hempty]

/-- Right after a flush no crash is recovered from. -/
theorem not_recovers_flushed (h : sys.Reachable s) {s' : State} {p : Process} {rest : List Task}
    (hp : s.process = some p) (ht : p.todo = .clear :: rest) (hs : sys.step s .task = some s') :
    ¬ Recovers s' := by
  intro hrec
  have hl : Left s.requests (.clear :: rest) := ht ▸ (sound_reachable h).left p hp
  obtain ⟨l, id, r, -, -, hr, hph⟩ := hl.after
  have hreq : s'.requests = s.requests := by
    simp only [sys, step, hp, ht, Option.some.injEq] at hs
    rw [← hs]
    rfl
  have hout := ((recovery_exact_iff (h.step hs)).1 hrec).1 id r (hreq ▸ hr)
  simp [Request.outstanding, hph] at hout

/-- A request that was confirmed before its entry was flushed: there is nothing to recover. -/
theorem recovery_exact_iff_confirmed : ∃ s, sys.Reachable s ∧ s.requests.size = 1
    ∧ (Recovers s ↔ Settled s) ∧ Recovers s := by
  obtain ⟨h, s, hr, ht⟩ := Sys.exists_run (S := sys) rfl
    [.construct 64 false, .request (report "a") 5, .task, .task, .answer 0 (some "hash")]
    (p := fun x => decide (x.2.requests.size = 1 ∧ entries x.2.files = some []
      ∧ ∀ e ∈ x.2.requests.entries, e.2.outstanding = false)) (by decide +kernel)
  obtain ⟨hsize, hes, hout⟩ := of_decide_eq_true ht
  have hiff := recovery_exact_iff hr.reachable
  refine ⟨s, hr.reachable, hsize, hiff, hiff.2 ⟨fun id r hreq => ?_, [], hes, by simp⟩⟩
  exact hout (id, r) (OrdMap.mem_entries_iff.2 hreq)

/-- A flush, and the transaction sent: the log gives the request back without its transaction. -/
theorem flushed_request_lost : ∃ h s p, Run sys h s ∧ s.process = some p ∧ p.buffer = []
    ∧ s.sent = [.built 0 0 (buildTx (report "a") 0)]
    ∧ replayUnconfirmed s.files = some [⟨0, "", 5, .pending⟩]
    ∧ resubmitEntry ⟨0, "", 5, .pending⟩ ≠ buildTx (report "a") 0 ∧ ¬ Recovers s := by
  obtain ⟨h, s, hr, ht⟩ := Sys.exists_run (S := sys) rfl
    [.construct 1 false, .request (report "a") 5, .task, .task, .task, .task, .task]
    (p := fun x => decide (x.2.process.map (·.buffer) = some []
      ∧ x.2.sent = [.built 0 0 (buildTx (report "a") 0)]
      ∧ replayUnconfirmed x.2.files = some [⟨0, "", 5, .pending⟩])) (by decide +kernel)
  obtain ⟨hb, hsent, hre⟩ := of_decide_eq_true ht
  obtain ⟨p, hp, hbuf⟩ := Option.map_eq_some_iff.1 hb
  have hnot : ¬ Recovers s := by
    intro hrec
    have hnil := ((sound_reachable hr.reachable).replay_nil hrec).1
    simp [hre] at hnil
  exact ⟨h, s, p, hr, hp, hbuf, hsent, hre, (buildTx_ne_empty _ _).symm, hnot⟩

end Recovery

end Sequencer

end VeriNode
