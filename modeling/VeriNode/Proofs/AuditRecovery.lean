import VeriNode.Proofs.AuditQueue
import Mathlib.Logic.Relation

/-!
# When a probe drains the audit queue

A probe that runs alone, while the database executes whatever it is sent, inserts the queue entry by
entry. It stops at an entry that is in the table already: its key is taken, and the logger takes
that for a failure of the database. So it empties the queue exactly if no queued entry was inserted
by a statement that was given up, or still may be (`drains_alone_iff`).
-/

namespace VeriNode

namespace AuditLogger

section Alone

/-- The database executes what it is sent, unless the key is taken, in time; nothing else is
started. -/
def prompt (s : State) : Action → Bool
  | .write => false
  | .tick => false
  | .selected _ ok => ok
  | .decide n ok => (s.statements.get n).any fun x => ok = decide (x.entryId ∉ s.log)
  | .resume _ => true
  | .timeout _ => false
  | .wake _ => true

def Prompt (s t : State) : Prop := ∃ a, prompt s a = true ∧ step s a = some t

/-- The state right after a tick. -/
def ticked (s : State) : State :=
  { s with nextCall := s.nextCall + 1, calls := s.calls.set s.nextCall .probing }

/-- A probe that ticks in the first state runs alone to its end in the second. -/
def ProbeEnds (s t : State) : Prop := Relation.ReflTransGen Prompt (ticked s) t ∧ Quiescent t

/-- Only this call is going on. -/
def Only (p : ℕ) (s : State) : Prop := ∀ id, id ≠ p → s.calls.get id = none

/-- The call, if it is going on, is a probe, or a drain of the head of the queue. -/
def Drains (p : ℕ) (s : State) : Prop :=
  ∀ i, s.calls.get p = some (.inserting i) → i.job = .drain ∧ s.queue.head? = some i.entryId

variable {s s' t : State} {a : Action} {p id e n : ℕ} {insert : Insert}

theorem Only.eq (ho : Only p s) {c : Call} (hc : s.calls.get id = some c) : id = p := by
  by_contra hne
  rw [ho id hne] at hc
  cases hc

theorem Only.set (ho : Only p s) (c : Call) : Only p { s with calls := s.calls.set p c } :=
  fun id hne => (OrdMap.get_set_of_ne _ _ hne).trans (ho id hne)

theorem Only.finish (ho : Only p s) : Quiescent (finish p s) := by
  intro id
  change (s.calls.delete p).get id = none
  rw [OrdMap.get_delete]
  split_ifs with h
  · rfl
  · exact ho id h

theorem Quiescent.only (hq : Quiescent s) : Only p s := fun id _ => hq id

theorem Only.insertEntry (ho : Only p s) : Only p (insertEntry p insert s) :=
  fun id hne => (OrdMap.get_set_of_ne _ _ hne).trans (ho id hne)

theorem drainQueue_cases (p : ℕ) (s : State) :
    (drainQueue p s = finish p s ∧ (s.queue = [] ∨ s.dbAvailable = false))
      ∨ ∃ e, s.queue.head? = some e ∧ s.dbAvailable = true
        ∧ drainQueue p s = insertEntry p { job := .drain, entryId := e } s := by
  unfold drainQueue
  rcases hq : s.queue with _ | ⟨e, rest⟩
  · exact .inl ⟨rfl, .inl rfl⟩
  · simp only []
    split_ifs with ha
    · exact .inr ⟨e, rfl, ha, rfl⟩
    · exact .inl ⟨rfl, .inr (eq_false_of_ne_true ha)⟩

theorem Only.drainQueue (ho : Only p s) : Only p (drainQueue p s) := by
  obtain ⟨hd, -⟩ | ⟨e, -, -, hd⟩ := drainQueue_cases p s
  · rw [hd]
    exact ho.finish.only
  · rw [hd]
    exact ho.insertEntry

theorem Drains.drainQueue : Drains p (drainQueue p s) := by
  intro i hg
  obtain ⟨hd, -⟩ | ⟨e, hh, -, hd⟩ := drainQueue_cases p s
  · rw [hd] at hg
    exact absurd rfl (get_finish hg).1
  · rw [hd] at hg ⊢
    rcases of_get_insertEntry hg with ⟨-, rfl⟩ | ⟨hne, -⟩
    · exact ⟨rfl, hh⟩
    · exact absurd rfl hne

/-- The probe's own steps, alone. -/
structure Lone (p : ℕ) (s : State) : Prop where
  inv : Inv s
  only : Only p s
  drains : Drains p s

/-- What a prompt step of a lone probe can do. -/
theorem Lone.cases (hl : Lone p s) (hp : Prompt s t) :
    (s.calls.get p = some .probing ∧ t = drainQueue p { s with dbAvailable := true })
      ∨ (∃ n e, s.statements.get n = some ⟨e, .undecided⟩ ∧ e ∉ s.log
        ∧ t = { s with log := s.log ++ [e], statements := s.statements.set n ⟨e, .inserted⟩ })
      ∨ (∃ n e, s.statements.get n = some ⟨e, .undecided⟩ ∧ e ∈ s.log
        ∧ t = { s with statements := s.statements.set n ⟨e, .failed⟩ })
      ∨ ∃ i, s.calls.get p = some (.inserting i) ∧ i.job = .drain
        ∧ s.queue.head? = some i.entryId
        ∧ ((∃ n, i.statement = some n ∧ s.statements.get n = some ⟨i.entryId, .inserted⟩
            ∧ t = drainQueue p { s with queue := s.queue.tail })
          ∨ ((i.statement.bind s.statements.get).map (·.status) = some .failed
            ∧ t = attemptFailed p i s)
          ∨ i.statement = none ∧ t = insertEntry p i s) := by
  obtain ⟨a, ha, hs⟩ := hp
  cases step_move hs with
  | queued => cases ha
  | wrote => cases ha
  | ticked => cases ha
  | probed id hc =>
    obtain rfl := hl.only.eq hc
    exact .inl ⟨hc, rfl⟩
  | probeFailed id hc => cases ha
  | inserted n e hst he => exact .inr (.inl ⟨n, e, hst, he, rfl⟩)
  | refused n e hst =>
    refine .inr (.inr (.inl ⟨n, e, hst, ?_, rfl⟩))
    simpa [prompt, hst] using ha
  | succeeded id n e insert hc hn hst =>
    obtain rfl := hl.only.eq hc
    obtain ⟨hj, hh⟩ := hl.drains insert hc
    obtain ⟨status, hst'⟩ := hl.inv.waits id insert n hc hn
    obtain rfl : insert.entryId = e := by
      rw [hst] at hst'
      exact (Statement.mk.inj (Option.some.inj hst')).1.symm
    refine .inr (.inr (.inr ⟨insert, hc, hj, hh, .inl ⟨n, hn, hst, ?_⟩⟩))
    simp only [insertSucceeded, hj]
  | retried a id insert hf hlt =>
    obtain rfl := hl.only.eq hf.1
    obtain ⟨hj, hh⟩ := hl.drains insert hf.1
    refine .inr (.inr (.inr ⟨insert, hf.1, hj, hh, .inr (.inl ⟨?_, ?_⟩)⟩))
    · rcases hf.2 with ⟨-, hst⟩ | ⟨rfl, -⟩
      · exact hst
      · cases ha
    · rw [attemptFailed, if_pos hlt]
  | gaveUp a id insert hf hle =>
    obtain rfl := hl.only.eq hf.1
    obtain ⟨hj, hh⟩ := hl.drains insert hf.1
    refine .inr (.inr (.inr ⟨insert, hf.1, hj, hh, .inr (.inl ⟨?_, ?_⟩)⟩))
    · rcases hf.2 with ⟨-, hst⟩ | ⟨rfl, -⟩
      · exact hst
      · cases ha
    · rw [attemptFailed, if_neg (not_lt.2 hle)]
  | woke id insert hc hn =>
    obtain rfl := hl.only.eq hc
    obtain ⟨hj, hh⟩ := hl.drains insert hc
    exact .inr (.inr (.inr ⟨insert, hc, hj, hh, .inr (.inr ⟨hn, rfl⟩)⟩))

theorem Lone.prompt (hl : Lone p s) (hp : Prompt s t) : Lone p t := by
  have hinv : Inv t := by
    obtain ⟨a, -, hs⟩ := hp
    exact hl.inv.move (step_move hs)
  rcases hl.cases hp with ⟨-, rfl⟩ | ⟨n, e, -, -, rfl⟩ | ⟨n, e, -, -, rfl⟩ |
    ⟨i, hc, hj, hh, ⟨n, -, -, rfl⟩ | ⟨-, rfl⟩ | ⟨-, rfl⟩⟩
  · exact ⟨hinv, Only.drainQueue hl.only, Drains.drainQueue⟩
  · exact ⟨hinv, hl.only, hl.drains⟩
  · exact ⟨hinv, hl.only, hl.drains⟩
  · exact ⟨hinv, Only.drainQueue hl.only, Drains.drainQueue⟩
  · refine ⟨hinv, ?_, fun k hg => ?_⟩
    · unfold attemptFailed insertThrew
      split_ifs
      · exact hl.only.set _
      · rw [hj]
        exact (Only.finish hl.only).only
    · unfold attemptFailed insertThrew at hg ⊢
      split_ifs at hg ⊢
      · rcases OrdMap.of_get_set hg with ⟨-, he⟩ | ⟨hne, -⟩
        · obtain rfl := Call.inserting.inj he
          exact ⟨hj, hh⟩
        · exact absurd rfl hne
      · rw [hj] at hg
        exact absurd rfl (get_finish hg).1
  · refine ⟨hinv, hl.only.insertEntry, fun k hg => ?_⟩
    rcases of_get_insertEntry hg with ⟨-, rfl⟩ | ⟨hne, -⟩
    · exact ⟨hj, hh⟩
    · exact absurd rfl hne

theorem Lone.ticked (hi : Inv s) (hq : Quiescent s) : Lone s.nextCall (ticked s) := by
  refine ⟨hi.bump.setCall (Nat.lt_succ_self _) nofun, ?_, fun i hg => ?_⟩
  · exact fun id hne => (OrdMap.get_set_of_ne _ _ hne).trans (hq id)
  · rcases OrdMap.of_get_set hg with ⟨-, hc⟩ | ⟨hne, -⟩
    · cases hc
    · exact absurd rfl hne

/-- The entry is queued and stored, and the drain does not wait for the statement that stored it. -/
structure Stuck (p e : ℕ) (s : State) : Prop where
  queue : e ∈ s.queue
  log : e ∈ s.log
  waits : ∀ i n, s.calls.get p = some (.inserting i) → i.statement = some n →
    s.statements.get n ≠ some ⟨e, .inserted⟩

theorem Stuck.insertEntry (hq : e ∈ s.queue) (hl : e ∈ s.log) :
    Stuck p e (insertEntry p insert s) := by
  refine ⟨hq, hl, fun i n hg hn hst => ?_⟩
  rcases of_get_insertEntry hg with ⟨-, rfl⟩ | ⟨hne, -⟩
  · obtain rfl := Option.some.inj hn
    rw [AuditLogger.insertEntry, OrdMap.get_set_self] at hst
    cases hst
  · exact absurd rfl hne

theorem Stuck.finish (hq : e ∈ s.queue) (hl : e ∈ s.log) : Stuck p e (finish p s) :=
  ⟨hq, hl, fun _ _ hg => absurd rfl (get_finish hg).1⟩

theorem Stuck.drainQueue (hq : e ∈ s.queue) (hl : e ∈ s.log) : Stuck p e (drainQueue p s) := by
  obtain ⟨hd, -⟩ | ⟨x, -, -, hd⟩ := drainQueue_cases p s
  · rw [hd]
    exact .finish hq hl
  · rw [hd]
    exact .insertEntry hq hl

theorem Stuck.prompt (hs : Stuck p e s) (hl : Lone p s) (hp : Prompt s t) : Stuck p e t := by
  rcases hl.cases hp with ⟨-, rfl⟩ | ⟨n, x, hst, hx, rfl⟩ | ⟨n, x, hst, -, rfl⟩ |
    ⟨i, hc, hj, hh, ⟨n, hn, hst, rfl⟩ | ⟨-, rfl⟩ | ⟨-, rfl⟩⟩
  · exact .drainQueue hs.queue hs.log
  · refine ⟨hs.queue, List.mem_append_left _ hs.log, fun i m hg hm hst' => ?_⟩
    rcases OrdMap.of_get_set hst' with ⟨-, he⟩ | ⟨-, hst'⟩
    · exact hx ((Statement.mk.inj he).1 ▸ hs.log)
    · exact hs.waits i m hg hm hst'
  · refine ⟨hs.queue, hs.log, fun i m hg hm hst' => ?_⟩
    rcases OrdMap.of_get_set hst' with ⟨-, he⟩ | ⟨-, hst'⟩
    · cases he
    · exact hs.waits i m hg hm hst'
  · refine .drainQueue ?_ hs.log
    have hne : i.entryId ≠ e := fun he => hs.waits i n hc hn (he ▸ hst)
    obtain ⟨rest, hrest⟩ := List.head?_eq_some_iff.1 hh
    change e ∈ s.queue.tail
    rcases List.mem_cons.1 (hrest ▸ hs.queue) with he | he
    · exact absurd he.symm hne
    · rw [hrest]
      exact he
  · unfold attemptFailed insertThrew
    split_ifs
    · refine ⟨hs.queue, hs.log, fun k m hg hm => ?_⟩
      rcases OrdMap.of_get_set hg with ⟨-, he⟩ | ⟨hne, -⟩
      · obtain rfl := Call.inserting.inj he
        cases hm
      · exact absurd rfl hne
    · rw [hj]
      exact .finish hs.queue hs.log
  · exact .insertEntry hs.queue hs.log

theorem Stuck.ends (hs : Stuck p e s) (hl : Lone p s)
    (hr : Relation.ReflTransGen Prompt s t) : Stuck p e t := by
  have hboth : Stuck p e t ∧ Lone p t := by
    induction hr with
    | refl => exact ⟨hs, hl⟩
    | tail _ hp ih => exact ⟨ih.1.prompt ih.2 hp, ih.2.prompt hp⟩
  exact hboth.1

end Alone

section Ends

variable {s s' t : State} {p id e n : ℕ} {insert : Insert}

/-- The state once the statement of an insert has been executed. -/
def executed (p : ℕ) (insert : Insert) (s : State) : State :=
  { insertEntry p insert s with
    log := s.log ++ [insert.entryId]
    statements := (insertEntry p insert s).statements.set s.nextStatement
      ⟨insert.entryId, .inserted⟩ }

/-- The state once the statement of an insert has failed. -/
def refused (p : ℕ) (insert : Insert) (s : State) : State :=
  { insertEntry p insert s with
    statements := (insertEntry p insert s).statements.set s.nextStatement
      ⟨insert.entryId, .failed⟩ }

theorem insertEntry_executed (hnew : insert.entryId ∉ s.log) :
    Relation.ReflTransGen Prompt (insertEntry p insert s)
      (insertSucceeded p { insert with statement := some s.nextStatement }
        (executed p insert s)) := by
  have hst : (insertEntry p insert s).statements.get s.nextStatement
      = some ⟨insert.entryId, .undecided⟩ := OrdMap.get_set_self _ _ _
  have hlog : (insertEntry p insert s).log = s.log := rfl
  have hdecide : Prompt (insertEntry p insert s) (executed p insert s) :=
    ⟨.decide s.nextStatement true, by simp [prompt, hst, hlog, hnew],
      by simp [step, hst, hlog, hnew, executed]⟩
  exact .tail (.single hdecide) ⟨.resume p, rfl, by simp [step, executed, insertEntry]⟩

theorem insertEntry_refused (htaken : insert.entryId ∈ s.log) :
    Relation.ReflTransGen Prompt (insertEntry p insert s)
      (attemptFailed p { insert with statement := some s.nextStatement }
        (refused p insert s)) := by
  have hst : (insertEntry p insert s).statements.get s.nextStatement
      = some ⟨insert.entryId, .undecided⟩ := OrdMap.get_set_self _ _ _
  have hlog : (insertEntry p insert s).log = s.log := rfl
  have hdecide : Prompt (insertEntry p insert s) (refused p insert s) :=
    ⟨.decide s.nextStatement false, by simp [prompt, hst, hlog, htaken],
      by simp [step, hst, refused]⟩
  exact .tail (.single hdecide) ⟨.resume p, rfl, by simp [step, refused, insertEntry]⟩

theorem ends_taken : ∀ (k : ℕ) (insert : Insert) {s : State}, Only p s → insert.job = .drain →
    insert.failures + k = retryDelaysMs.length → insert.entryId ∈ s.log →
    ∃ t, Relation.ReflTransGen Prompt (insertEntry p insert s) t ∧ Quiescent t
  | 0, insert, s, ho, hj, hk, hl => by
    have hle : ¬ insert.failures < retryDelaysMs.length := by omega
    refine ⟨_, insertEntry_refused hl, ?_⟩
    simp only [attemptFailed, if_neg hle, insertThrew, hj]
    exact Only.finish ho.insertEntry
  | k + 1, insert, s, ho, hj, hk, hl => by
    have hlt : insert.failures < retryDelaysMs.length := by omega
    have hrefused := insertEntry_refused (p := p) hl
    simp only [attemptFailed, if_pos hlt] at hrefused
    have hasleep := Only.set (s := refused p insert s) ho.insertEntry (.inserting
      { insert with failures := insert.failures + 1, statement := none })
    have hleft : insert.failures + 1 + k = retryDelaysMs.length := by omega
    obtain ⟨t, ht, hq⟩ := ends_taken k
      { insert with failures := insert.failures + 1, statement := none } hasleep hj hleft hl
    refine ⟨t, (hrefused.tail ⟨.wake p, rfl, ?_⟩).trans ht, hq⟩
    simp [step]

theorem ends_drain : ∀ (k : ℕ) {s : State}, s.queue.length = k → Only p s →
    ∃ t, Relation.ReflTransGen Prompt (drainQueue p s) t ∧ Quiescent t
  | k, s, hk, ho => by
    obtain ⟨hd, -⟩ | ⟨e, hh, -, hd⟩ := drainQueue_cases p s
    · rw [hd]
      exact ⟨_, .refl, ho.finish⟩
    · rw [hd]
      by_cases hl : e ∈ s.log
      · exact ends_taken 3 _ ho rfl rfl hl
      · obtain ⟨rest, hrest⟩ := List.head?_eq_some_iff.1 hh
        have hlen : rest.length < k := by
          rw [hrest, List.length_cons] at hk
          omega
        have hqueue : (executed p { job := .drain, entryId := e } s).queue = e :: rest := hrest
        have hexec : Relation.ReflTransGen Prompt
            (insertEntry p { job := .drain, entryId := e } s) _ := insertEntry_executed hl
        simp only [insertSucceeded, hqueue, List.tail_cons] at hexec
        obtain ⟨t, ht, hq⟩ := ends_drain rest.length
          (s := { executed p { job := .drain, entryId := e } s with queue := rest }) rfl
          ho.insertEntry
        exact ⟨t, hexec.trans ht, hq⟩

theorem ends_probing (ho : Only p s) (hc : s.calls.get p = some .probing) :
    ∃ t, Relation.ReflTransGen Prompt s t ∧ Quiescent t := by
  obtain ⟨t, ht, hq⟩ := ends_drain _ (s := { s with dbAvailable := true }) rfl ho
  exact ⟨t, .head ⟨.selected p true, rfl, by simp [step, hc]⟩ ht, hq⟩

end Ends

section Recovery

variable {s s' t : State} {p id e n : ℕ} {insert : Insert} {q : List ℕ}

/-- No statement has inserted the entry, or still may. -/
def Free (s : State) (e : ℕ) : Prop :=
  e ∉ s.log ∧ ∀ n, s.statements.get n ≠ some ⟨e, .undecided⟩

/-- The drain waits for the only statement for its entry that was or may be executed. -/
def Inserting (p : ℕ) (s : State) : Prop :=
  ∃ i n, s.calls.get p = some (.inserting i) ∧ i.statement = some n ∧ s.dbAvailable = true
    ∧ (s.statements.get n = some ⟨i.entryId, .inserted⟩
      ∨ s.statements.get n = some ⟨i.entryId, .undecided⟩ ∧ i.entryId ∉ s.log
        ∧ ∀ m, s.statements.get m = some ⟨i.entryId, .undecided⟩ → m = n)

/-- What holds while a lone probe drains the queue `q`. -/
structure Clearing (p : ℕ) (q : List ℕ) (s : State) : Prop where
  kept : ∀ e ∈ q, e ∈ s.queue ∨ e ∈ s.log
  free : ∀ e ∈ s.queue, (∀ i, s.calls.get p = some (.inserting i) → i.entryId ≠ e) → Free s e
  stage : s.calls.get p = some .probing ∨ (s.calls.get p = none ∧ s.queue = []) ∨ Inserting p s

theorem Clearing.drainQueue (hkept : ∀ e ∈ q, e ∈ s.queue ∨ e ∈ s.log)
    (hfree : ∀ e ∈ s.queue, Free s e) (ha : s.dbAvailable = true) :
    Clearing p q (drainQueue p s) := by
  obtain ⟨hd, hempty⟩ | ⟨e, hh, -, hd⟩ := drainQueue_cases p s
  · rw [hd]
    have hq : s.queue = [] := hempty.resolve_right (by simp [ha])
    refine ⟨hkept, fun e he => ?_, .inr (.inl ⟨OrdMap.get_delete_self _ _, hq⟩)⟩
    rw [show (AuditLogger.finish p s).queue = s.queue from rfl, hq] at he
    cases he
  · rw [hd]
    obtain ⟨hlog, hsent⟩ := hfree e (List.mem_of_head? hh)
    refine ⟨hkept, fun x hx hne => ⟨(hfree x hx).1, fun m hst => ?_⟩, .inr (.inr ⟨_,
      s.nextStatement, OrdMap.get_set_self _ _ _, rfl, ha, .inr ⟨OrdMap.get_set_self _ _ _, hlog,
        fun m hst => ?_⟩⟩)⟩
    · rcases OrdMap.of_get_set hst with ⟨-, hxe⟩ | ⟨-, hst⟩
      · exact hne _ (OrdMap.get_set_self _ _ _) (Statement.mk.inj hxe).1.symm
      · exact (hfree x hx).2 m hst
    · rcases OrdMap.of_get_set hst with ⟨hm, -⟩ | ⟨-, hst⟩
      · exact hm
      · exact absurd hst (hsent m)

theorem Free.decided {status : Status} {log : List ℕ} {x : ℕ} (hf : Free s e)
    (hst : s.statements.get n = some ⟨x, .undecided⟩) (hstatus : status ≠ .undecided)
    (hlog : ∀ y ∈ log, y ∈ s.log ∨ y = x) :
    Free { s with log := log, statements := s.statements.set n ⟨x, status⟩ } e := by
  have hne : e ≠ x := by
    rintro rfl
    exact hf.2 n hst
  refine ⟨fun hl => ?_, fun m hm => ?_⟩
  · rcases hlog e hl with hl | hl
    · exact hf.1 hl
    · exact hne hl
  · rcases OrdMap.of_get_set hm with ⟨-, hx⟩ | ⟨-, hm⟩
    · exact hstatus (Statement.mk.inj hx).2.symm
    · exact hf.2 m hm

theorem Inserting.decided {status : Status} {log : List ℕ} {x : ℕ} (hi : Inserting p s)
    (hst : s.statements.get n = some ⟨x, .undecided⟩)
    (hlog : status = .inserted ∧ x ∉ s.log ∧ log = s.log ++ [x]
      ∨ status = .failed ∧ x ∈ s.log ∧ log = s.log) :
    Inserting p { s with log := log, statements := s.statements.set n ⟨x, status⟩ } := by
  obtain ⟨i, k, hg, hk, ha, hstage⟩ := hi
  refine ⟨i, k, hg, hk, ha, ?_⟩
  rcases hstage with hins | ⟨hund, hnew, huniq⟩
  · refine .inl ((OrdMap.get_set_of_ne _ _ fun hkn => ?_).trans hins)
    rw [hkn, hst] at hins
    cases hins
  · by_cases hx : x = i.entryId
    · subst hx
      obtain rfl := huniq n hst
      rcases hlog with ⟨rfl, -, -⟩ | ⟨-, hl, -⟩
      · exact .inl (OrdMap.get_set_self _ _ _)
      · exact absurd hl hnew
    · refine .inr ⟨(OrdMap.get_set_of_ne _ _ fun hkn => ?_).trans hund, fun hl => ?_,
        fun m hm => ?_⟩
      · rw [hkn, hst] at hund
        exact hx (Statement.mk.inj (Option.some.inj hund)).1
      · rcases hlog with ⟨-, -, rfl⟩ | ⟨-, -, rfl⟩
        · rcases List.mem_append.1 hl with hl | hl
          · exact hnew hl
          · exact hx (List.mem_singleton.1 hl).symm
        · exact hnew hl
      · rcases OrdMap.of_get_set hm with ⟨-, he⟩ | ⟨-, hm⟩
        · exact absurd (Statement.mk.inj he).1.symm hx
        · exact huniq m hm

theorem Clearing.decided {status : Status} {log : List ℕ} {x : ℕ} (hc : Clearing p q s)
    (hst : s.statements.get n = some ⟨x, .undecided⟩)
    (hlog : status = .inserted ∧ x ∉ s.log ∧ log = s.log ++ [x]
      ∨ status = .failed ∧ x ∈ s.log ∧ log = s.log) :
    Clearing p q { s with log := log, statements := s.statements.set n ⟨x, status⟩ } := by
  have hkeep : ∀ y ∈ s.log, y ∈ log := by
    intro y hy
    rcases hlog with ⟨-, -, rfl⟩ | ⟨-, -, rfl⟩
    · exact List.mem_append_left _ hy
    · exact hy
  have hmem : ∀ y ∈ log, y ∈ s.log ∨ y = x := by
    intro y hy
    rcases hlog with ⟨-, -, rfl⟩ | ⟨-, -, rfl⟩
    · exact (List.mem_append.1 hy).imp_right List.mem_singleton.1
    · exact .inl hy
  have hstatus : status ≠ .undecided := by
    rcases hlog with ⟨rfl, -⟩ | ⟨rfl, -⟩ <;> decide
  exact ⟨fun e he => (hc.kept e he).imp_right (hkeep e),
    fun e he hne => (hc.free e he hne).decided hst hstatus hmem,
    hc.stage.imp_right (Or.imp_right fun hi => hi.decided hst hlog)⟩

theorem Clearing.inserting (hc : Clearing p q s)
    (hg : s.calls.get p = some (.inserting insert)) : ∃ n, insert.statement = some n
      ∧ (s.statements.get n = some ⟨insert.entryId, .inserted⟩
        ∨ s.statements.get n = some ⟨insert.entryId, .undecided⟩) ∧ s.dbAvailable = true := by
  rcases hc.stage with hpr | ⟨hnone, -⟩ | ⟨i, n, hg', hn, ha, hst⟩
  · rw [hg] at hpr
    cases hpr
  · rw [hg] at hnone
    cases hnone
  · rw [hg] at hg'
    cases hg'
    exact ⟨n, hn, hst.imp_right fun h => h.1, ha⟩

theorem Clearing.prompt (hc : Clearing p q s) (hl : Lone p s) (hp : Prompt s t) :
    Clearing p q t := by
  rcases hl.cases hp with ⟨hpr, rfl⟩ | ⟨n, x, hst, hx, rfl⟩ | ⟨n, x, hst, hx, rfl⟩ |
    ⟨i, hg, hj, hh, hcase⟩
  · refine .drainQueue hc.kept (fun e he => hc.free e he fun i hg => ?_) rfl
    rw [hpr] at hg
    cases hg
  · exact hc.decided hst (.inl ⟨rfl, hx, rfl⟩)
  · exact hc.decided hst (.inr ⟨rfl, hx, rfl⟩)
  · obtain ⟨m, hm, hstatus, ha⟩ := hc.inserting hg
    rcases hcase with ⟨n, hn, hst, rfl⟩ | ⟨hst, rfl⟩ | ⟨hst, rfl⟩
    · obtain ⟨rest, hrest⟩ := List.head?_eq_some_iff.1 hh
      refine .drainQueue (fun e he => ?_) (fun e he => ?_) ha
      · rcases hc.kept e he with hq | hlog
        · rcases List.mem_cons.1 (hrest ▸ hq) with rfl | hq
          · exact .inr (hl.inv.stored n _ hst)
          · refine .inl ?_
            change e ∈ s.queue.tail
            rw [hrest]
            exact hq
        · exact .inr hlog
      · refine hc.free e (List.mem_of_mem_tail he) fun i' hg' hie => ?_
        rw [hg] at hg'
        cases hg'
        exact head_not_mem_tail hl.inv.queue hh (hie ▸ he)
    · rw [hm, Option.bind_some] at hst
      rcases hstatus with hins | hund
      · rw [hins] at hst
        cases hst
      · rw [hund] at hst
        cases hst
    · rw [hm] at hst
      cases hst

theorem Clearing.ends (hc : Clearing p q s) (hl : Lone p s)
    (hr : Relation.ReflTransGen Prompt s t) : Clearing p q t ∧ Lone p t := by
  induction hr with
  | refl => exact ⟨hc, hl⟩
  | tail _ hp ih => exact ⟨ih.1.prompt ih.2 hp, ih.2.prompt hp⟩

theorem Clearing.drained (hc : Clearing p q s) (hi : Inv s) (hq : Quiescent s) :
    s.queue = [] ∧ ∀ e ∈ q, s.log.count e = 1 := by
  have hempty : s.queue = [] := by
    rcases hc.stage with hpr | ⟨-, hempty⟩ | ⟨i, n, hg, -⟩
    · rw [hq p] at hpr
      cases hpr
    · exact hempty
    · rw [hq p] at hg
      cases hg
  refine ⟨hempty, fun e he => List.count_eq_one_of_mem hi.log ?_⟩
  refine (hc.kept e he).resolve_left fun hm => ?_
  rw [hempty] at hm
  cases hm

/-- A probe that runs alone while the database executes what it is sent comes to an end; and
however it does, it has emptied the queue, with each queued entry in the table once, exactly if no
queued entry was in the table before, or might still be inserted by an earlier statement. -/
theorem drains_alone_iff (hr : sys.Reachable s) (hq : Quiescent s) :
    ((∃ t, ProbeEnds s t)
        ∧ ∀ t, ProbeEnds s t → t.queue = [] ∧ ∀ e ∈ s.queue, t.log.count e = 1)
      ↔ ∀ e ∈ s.queue, Free s e := by
  have hi := inv_reachable hr
  have hl := Lone.ticked hi hq
  have hprobing : (ticked s).calls.get s.nextCall = some .probing := OrdMap.get_set_self _ _ _
  constructor
  · rintro ⟨⟨t, ht, hqt⟩, hall⟩ e he
    have hlog : e ∉ s.log := by
      intro hlog
      have hstuck : Stuck s.nextCall e (ticked s) := by
        refine ⟨he, hlog, fun i n hg => ?_⟩
        rw [hprobing] at hg
        cases hg
      have hmem := (hstuck.ends hl ht).queue
      rw [(hall t ⟨ht, hqt⟩).1] at hmem
      cases hmem
    refine ⟨hlog, fun n hst => ?_⟩
    -- the database may execute the earlier statement first
    have hnew : (ticked s).log = s.log := rfl
    have hst' : (ticked s).statements.get n = some ⟨e, .undecided⟩ := hst
    have hfirst : Prompt (ticked s) { ticked s with
        log := s.log ++ [e]
        statements := (ticked s).statements.set n ⟨e, .inserted⟩ } :=
      ⟨.decide n true, by simp [prompt, hst', hnew, hlog], by simp [step, hst', hnew, hlog]⟩
    have hl' := hl.prompt hfirst
    obtain ⟨u, hu, hqu⟩ := ends_probing hl'.only hprobing
    have hstuck : Stuck s.nextCall e { ticked s with
        log := s.log ++ [e]
        statements := (ticked s).statements.set n ⟨e, .inserted⟩ } := by
      refine ⟨he, by simp, fun i m hg => ?_⟩
      rw [show _ = some Call.probing from hprobing] at hg
      cases hg
    have hmem := (hstuck.ends hl' hu).queue
    rw [(hall u ⟨.head hfirst hu, hqu⟩).1] at hmem
    cases hmem
  · intro hfree
    obtain ⟨t, ht, hqt⟩ := ends_probing hl.only hprobing
    refine ⟨⟨t, ht, hqt⟩, fun t hends => ?_⟩
    obtain ⟨ht, hqt⟩ := hends
    have hstart : Clearing s.nextCall s.queue (ticked s) :=
      ⟨fun e he => .inl he, fun e he _ => hfree e he, .inl hprobing⟩
    obtain ⟨hc, hlone⟩ := hstart.ends hl ht
    exact hc.drained hlone.inv hqt

/-- An entry whose statements have all failed is drained. -/
theorem drains_alone_iff_failed : ∃ s, sys.Reachable s ∧ s.queue = [0]
    ∧ (∃ t, ProbeEnds s t)
    ∧ ∀ t, ProbeEnds s t → t.queue = [] ∧ ∀ e ∈ s.queue, t.log.count e = 1 := by
  obtain ⟨h, hr, -⟩ := run_failedOnce
  refine ⟨failedOnce, hr.reachable, rfl,
    (drains_alone_iff hr.reachable fun _ => rfl).2 fun e he => ⟨nofun, fun n hst => ?_⟩⟩
  cases failed_givenUp hst

/-- The first `INSERT` of an entry is given up at the deadline, and the retries fail; then the first
one takes effect. The entry is never drained, although the database does all it is sent. -/
theorem late_insert_blocks_queue : ∃ s, sys.Reachable s ∧ Quiescent s
    ∧ (∀ n x, s.statements.get n = some x → x.status ≠ .undecided) ∧ 0 ∈ s.queue
    ∧ (∃ t, ProbeEnds s t) ∧ ∀ t, ProbeEnds s t → 0 ∈ t.queue := by
  obtain ⟨h, s, hr, hp⟩ := Sys.exists_run init_empty
    [.write, .timeout 0, .wake 0, .decide 1 false, .resume 0, .wake 0, .decide 2 false, .resume 0,
      .wake 0, .decide 3 false, .resume 0, .decide 0 true]
    (p := fun x => decide (x.2.calls.entries = [] ∧ 0 ∈ x.2.queue ∧ 0 ∈ x.2.log
      ∧ x.2.statements.entries.all fun y => y.2.status ≠ .undecided)) (by decide +kernel)
  obtain ⟨hcalls, hq, hlog, hst⟩ := of_decide_eq_true hp
  have hquiet := quiescent_of hcalls
  have hl := Lone.ticked (inv_reachable hr.reachable) hquiet
  have hprobing : (ticked s).calls.get s.nextCall = some .probing := OrdMap.get_set_self _ _ _
  have hstuck : Stuck s.nextCall 0 (ticked s) := by
    refine ⟨hq, hlog, fun i n hg => ?_⟩
    rw [hprobing] at hg
    cases hg
  refine ⟨s, hr.reachable, hquiet, fun n x hx => ?_, hq, ?_, fun t ht => ?_⟩
  · exact of_decide_eq_true (List.all_eq_true.1 hst _ (OrdMap.mem_entries_iff.2 hx))
  · exact ends_probing hl.only hprobing
  · exact (hstuck.ends hl ht.1).queue

end Recovery

end AuditLogger

end VeriNode
