import VeriNode.Audit.Logger
import Mathlib.Algebra.Order.Group.Nat

/-!
# What a step of the audit logger can do

Every step is one of the moves below (`step_move`). An entry is inserted at most once, is in the
queue at most once, and is enqueued only by the call that was given it (`Inv`). None of this takes
the drains into account, which are the subject of `VeriNode.Proofs.AuditQueue`.
-/

namespace VeriNode

namespace AuditLogger

section Moves

/-- An attempt of the insert fails: its statement has failed, or is given up. -/
def Fails (s : State) (a : Action) (id : ℕ) (insert : Insert) : Prop :=
  s.calls.get id = some (.inserting insert)
    ∧ (a = .resume id ∧ (insert.statement.bind s.statements.get).map (·.status) = some .failed
      ∨ a = .timeout id ∧ insert.statement.isSome = true)

/-- What a step may do, with what lets it. -/
inductive Move (s : State) : Action → State → Prop
  | queued : s.dbAvailable = false → Move s .write (enqueue s.nextEntry s.accept)
  | wrote : s.dbAvailable = true → Move s .write
      (insertEntry s.nextCall { job := .write, entryId := s.nextEntry }
        { s.accept with nextCall := s.nextCall + 1 })
  | ticked : Move s .tick
      { s with nextCall := s.nextCall + 1, calls := s.calls.set s.nextCall .probing }
  | probed (id : ℕ) : s.calls.get id = some .probing →
      Move s (.selected id true) (drainQueue id { s with dbAvailable := true })
  | probeFailed (id : ℕ) : s.calls.get id = some .probing →
      Move s (.selected id false) (finish id s)
  | inserted (n e : ℕ) : s.statements.get n = some ⟨e, .undecided⟩ → e ∉ s.log →
      Move s (.decide n true)
        { s with log := s.log ++ [e], statements := s.statements.set n ⟨e, .inserted⟩ }
  | refused (n e : ℕ) : s.statements.get n = some ⟨e, .undecided⟩ →
      Move s (.decide n false) { s with statements := s.statements.set n ⟨e, .failed⟩ }
  | succeeded (id n e : ℕ) (insert : Insert) : s.calls.get id = some (.inserting insert) →
      insert.statement = some n → s.statements.get n = some ⟨e, .inserted⟩ →
      Move s (.resume id) (insertSucceeded id insert s)
  | retried (a : Action) (id : ℕ) (insert : Insert) : Fails s a id insert →
      insert.failures < retryDelaysMs.length → Move s a
        { s with
          calls := s.calls.set id
            (.inserting { insert with failures := insert.failures + 1, statement := none }) }
  | gaveUp (a : Action) (id : ℕ) (insert : Insert) : Fails s a id insert →
      retryDelaysMs.length ≤ insert.failures → Move s a (insertThrew id insert s)
  | woke (id : ℕ) (insert : Insert) : s.calls.get id = some (.inserting insert) →
      insert.statement = none → Move s (.wake id) (insertEntry id insert s)

variable {s s' : State} {a : Action} {id : ℕ} {insert : Insert}

theorem attemptFailed_move (h : Fails s a id insert) :
    Move s a (attemptFailed id insert s) := by
  unfold attemptFailed
  split_ifs with hf
  · exact .retried a id insert h hf
  · exact .gaveUp a id insert h (not_lt.1 hf)

theorem step_move (hs : step s a = some s') : Move s a s' := by
  cases a with
  | write =>
    obtain rfl := Option.some.inj hs
    unfold AuditLogger.write
    split_ifs with ha
    · exact .wrote ha
    · exact .queued (eq_false_of_ne_true ha)
  | tick =>
    obtain rfl := Option.some.inj hs
    exact .ticked
  | selected id ok =>
    simp only [step] at hs
    split at hs
    · rename_i hc
      rcases ok with _ | _
      · obtain rfl := Option.some.inj hs
        exact .probeFailed id hc
      · obtain rfl := Option.some.inj hs
        exact .probed id hc
    · cases hs
  | decide n ok =>
    simp only [step] at hs
    split at hs
    · rename_i e hst
      rcases ok with _ | _
      · obtain rfl := Option.some.inj hs
        exact .refused n e hst
      · simp only [if_true] at hs
        split_ifs at hs with he
        obtain rfl := Option.some.inj hs
        exact .inserted n e hst he
    · cases hs
  | resume id =>
    simp only [step] at hs
    split at hs
    · rename_i insert hc
      split at hs
      · rename_i hst
        obtain rfl := Option.some.inj hs
        obtain ⟨⟨e, st⟩, hget, rfl⟩ := Option.map_eq_some_iff.1 hst
        obtain ⟨n, hn, hget⟩ := Option.bind_eq_some_iff.1 hget
        exact .succeeded id n e insert hc hn hget
      · rename_i hst
        obtain rfl := Option.some.inj hs
        exact attemptFailed_move ⟨hc, .inl ⟨rfl, hst⟩⟩
      · cases hs
    · cases hs
  | timeout id =>
    simp only [step] at hs
    split at hs
    · rename_i insert hc
      split_ifs at hs with hst
      obtain rfl := Option.some.inj hs
      exact attemptFailed_move ⟨hc, .inr ⟨rfl, hst⟩⟩
    · cases hs
  | wake id =>
    simp only [step] at hs
    split at hs
    · rename_i insert hc
      split_ifs at hs with hst
      obtain rfl := Option.some.inj hs
      exact .woke id insert hc (by simpa using hst)
    · cases hs

end Moves

section Invariant

/-- What holds of every state. -/
structure Inv (s : State) : Prop where
  short : s.queue.length ≤ queueCapacity
  queue : s.queue.Nodup
  log : s.log.Nodup
  apart : ∀ e ∈ s.dropped, e ∉ s.queue
  made : ∀ e, e ∈ s.queue ∨ e ∈ s.log ∨ e ∈ s.dropped → e < s.nextEntry
  sent : ∀ n x, s.statements.get n = some x → n < s.nextStatement ∧ x.entryId < s.nextEntry
  stored : ∀ n e, s.statements.get n = some ⟨e, .inserted⟩ → e ∈ s.log
  once : ∀ n m e, s.statements.get n = some ⟨e, .inserted⟩ →
    s.statements.get m = some ⟨e, .inserted⟩ → n = m
  calls : ∀ id c, s.calls.get id = some c → id < s.nextCall
  made_for : ∀ id i, s.calls.get id = some (.inserting i) → i.entryId < s.nextEntry
  waits : ∀ id i n, s.calls.get id = some (.inserting i) → i.statement = some n →
    ∃ status, s.statements.get n = some ⟨i.entryId, status⟩
  own : ∀ id i id' i' n, s.calls.get id = some (.inserting i) → i.statement = some n →
    s.calls.get id' = some (.inserting i') → i'.statement = some n → id = id'
  writes : ∀ id i, s.calls.get id = some (.inserting i) → i.job = .write →
    i.entryId ∉ s.queue ∧ i.entryId ∉ s.dropped
  writes_once : ∀ id i id' i', s.calls.get id = some (.inserting i) → i.job = .write →
    s.calls.get id' = some (.inserting i') → i'.job = .write → i.entryId = i'.entryId → id = id'

variable {s s' : State} {a : Action} {id e n : ℕ} {insert : Insert} {h : List (Taken State Action)}

theorem get_finish {j : ℕ} {c : Call} (hg : (finish id s).calls.get j = some c) :
    j ≠ id ∧ s.calls.get j = some c :=
  OrdMap.of_get_delete hg

theorem Inv.finish (hi : Inv s) (id : ℕ) : Inv (finish id s) := by
  have hget : ∀ {j c}, (AuditLogger.finish id s).calls.get j = some c → s.calls.get j = some c :=
    fun hg => (get_finish hg).2
  exact ⟨hi.short, hi.queue, hi.log, hi.apart, hi.made, hi.sent, hi.stored, hi.once,
    fun j c hg => hi.calls j c (hget hg), fun j i hg => hi.made_for j i (hget hg),
    fun j i n hg => hi.waits j i n (hget hg),
    fun j i j' i' n hg hn hg' => hi.own j i j' i' n (hget hg) hn (hget hg'),
    fun j i hg => hi.writes j i (hget hg),
    fun j i j' i' hg hw hg' => hi.writes_once j i j' i' (hget hg) hw (hget hg')⟩

theorem Inv.setDbAvailable (hi : Inv s) (b : Bool) : Inv { s with dbAvailable := b } :=
  ⟨hi.short, hi.queue, hi.log, hi.apart, hi.made, hi.sent, hi.stored, hi.once, hi.calls,
    hi.made_for, hi.waits, hi.own, hi.writes, hi.writes_once⟩

theorem Inv.tail (hi : Inv s) : Inv { s with queue := s.queue.tail } := by
  have hmem : ∀ {e}, e ∈ s.queue.tail → e ∈ s.queue := List.mem_of_mem_tail
  refine ⟨?_, hi.queue.tail, hi.log, fun e he hq => hi.apart e he (hmem hq),
    fun e he => hi.made e (he.imp_left hmem), hi.sent, hi.stored, hi.once, hi.calls, hi.made_for,
    hi.waits, hi.own, fun j i hg hw => ?_, hi.writes_once⟩
  · have hlen := hi.short
    simp only [List.length_tail]
    omega
  · obtain ⟨hq, hd⟩ := hi.writes j i hg hw
    exact ⟨fun hm => hq (hmem hm), hd⟩

theorem Inv.accept (hi : Inv s) : Inv s.accept := by
  have hlt : ∀ {e}, e < s.nextEntry → e < s.accept.nextEntry := Nat.lt_succ_of_lt
  exact ⟨hi.short, hi.queue, hi.log, hi.apart, fun e he => hlt (hi.made e he),
    fun n x hx => ⟨(hi.sent n x hx).1, hlt (hi.sent n x hx).2⟩, hi.stored, hi.once, hi.calls,
    fun j i hg => hlt (hi.made_for j i hg), hi.waits, hi.own, hi.writes, hi.writes_once⟩

/-- The entry is new to the queue, and no call is there to enqueue it. -/
structure New (s : State) (e : ℕ) : Prop where
  made : e < s.nextEntry
  queue : e ∉ s.queue
  dropped : e ∉ s.dropped
  writes : ∀ id i, s.calls.get id = some (.inserting i) → i.job = .write → i.entryId ≠ e

theorem New.accept (hi : Inv s) : New s.accept s.nextEntry := by
  refine ⟨Nat.lt_succ_self _, fun hm => ?_, fun hm => ?_, fun id i hg _ => ?_⟩
  · exact absurd (hi.made _ (.inl hm)) (lt_irrefl _)
  · exact absurd (hi.made _ (.inr (.inr hm))) (lt_irrefl _)
  · exact (hi.made_for id i hg).ne

theorem mem_enqueue {x : ℕ} : x ∈ (enqueue e s).queue → x ∈ s.queue ∨ x = e := by
  unfold enqueue
  split_ifs
  · intro hx
    rcases List.mem_append.1 hx with hx | hx
    · exact .inl (List.mem_of_mem_tail hx)
    · exact .inr (List.mem_singleton.1 hx)
  · intro hx
    rcases List.mem_append.1 hx with hx | hx
    · exact .inl hx
    · exact .inr (List.mem_singleton.1 hx)

theorem dropped_enqueue {x : ℕ} : x ∈ (enqueue e s).dropped →
    x ∈ s.dropped ∨ s.queue.head? = some x ∧ queueCapacity ≤ s.queue.length := by
  unfold enqueue
  split_ifs with hfull
  · intro hx
    rcases List.mem_append.1 hx with hx | hx
    · exact .inl hx
    · exact .inr ⟨Option.mem_toList.1 hx, hfull⟩
  · exact .inl

theorem head_not_mem_tail {x : ℕ} {l : List ℕ} (hn : l.Nodup) (hx : l.head? = some x) :
    x ∉ l.tail := by
  obtain ⟨l', rfl⟩ := List.head?_eq_some_iff.1 hx
  exact (List.nodup_cons.1 hn).1

theorem enqueue_eq (e : ℕ) (s : State) : enqueue e s = { s with
    queue := (enqueue e s).queue
    dropped := (enqueue e s).dropped } := by
  unfold enqueue
  split_ifs <;> rfl

theorem nodup_append_new {l : List ℕ} (hl : l.Nodup) (he : e ∉ l) : (l ++ [e]).Nodup :=
  List.nodup_append.2 ⟨hl, List.nodup_singleton _, fun _ hx _ hy hxy =>
    he (List.mem_singleton.1 hy ▸ hxy ▸ hx)⟩

theorem length_enqueue (hs : s.queue.length ≤ queueCapacity) :
    (enqueue e s).queue.length ≤ queueCapacity := by
  unfold enqueue queueCapacity at *
  split_ifs
  · simp only [List.length_append, List.length_tail, List.length_singleton]
    omega
  · simp only [List.length_append, List.length_singleton]
    omega

theorem nodup_enqueue (hs : s.queue.Nodup) (he : e ∉ s.queue) : (enqueue e s).queue.Nodup := by
  unfold enqueue
  split_ifs
  · exact nodup_append_new hs.tail fun hm => he (List.mem_of_mem_tail hm)
  · exact nodup_append_new hs he

theorem apart_enqueue (hi : Inv s) (he : New s e) :
    ∀ x ∈ (enqueue e s).dropped, x ∉ (enqueue e s).queue := by
  intro x hd hq
  have hx : x ∈ s.queue → x ∉ s.dropped := fun hq hd => hi.apart x hd hq
  unfold enqueue at hd hq
  split_ifs at hd hq
  · rcases List.mem_append.1 hq with hq | hq
    · rcases List.mem_append.1 hd with hd | hd
      · exact hx (List.mem_of_mem_tail hq) hd
      · exact head_not_mem_tail hi.queue (Option.mem_toList.1 hd) hq
    · obtain rfl := List.mem_singleton.1 hq
      rcases List.mem_append.1 hd with hd | hd
      · exact he.dropped hd
      · exact he.queue (List.mem_of_head? (Option.mem_toList.1 hd))
  · rcases List.mem_append.1 hq with hq | hq
    · exact hx hq hd
    · obtain rfl := List.mem_singleton.1 hq
      exact he.dropped hd

theorem Inv.enqueue (hi : Inv s) (he : New s e) : Inv (enqueue e s) := by
  have hshort := length_enqueue (e := e) hi.short
  have hnodup := nodup_enqueue hi.queue he.queue
  have hapart := apart_enqueue hi he
  have hqueue : ∀ {x}, x ∈ (AuditLogger.enqueue e s).queue → x ∈ s.queue ∨ x = e := mem_enqueue
  have hdropped : ∀ {x}, x ∈ (AuditLogger.enqueue e s).dropped → x ∈ s.dropped ∨ x ∈ s.queue :=
    fun hx => (dropped_enqueue hx).imp_right fun hh => List.mem_of_head? hh.1
  rw [enqueue_eq e s]
  refine ⟨hshort, hnodup, hi.log, hapart, fun x hx => ?_, hi.sent, hi.stored, hi.once, hi.calls,
    hi.made_for, hi.waits, hi.own, fun j i hg hw => ?_, hi.writes_once⟩
  · rcases hx with hx | hx | hx
    · rcases hqueue hx with hx | rfl
      · exact hi.made x (.inl hx)
      · exact he.made
    · exact hi.made x (.inr (.inl hx))
    · rcases hdropped hx with hx | hx
      · exact hi.made x (.inr (.inr hx))
      · exact hi.made x (.inl hx)
  · obtain ⟨hq, hd⟩ := hi.writes j i hg hw
    refine ⟨fun hm => ?_, fun hm => ?_⟩
    · rcases hqueue hm with hm | hm
      · exact hq hm
      · exact he.writes j i hg hw hm
    · rcases hdropped hm with hm | hm
      · exact hd hm
      · exact hq hm

theorem of_get_insertEntry {j : ℕ} {i : Insert}
    (hg : (insertEntry id insert s).calls.get j = some (.inserting i)) :
    (j = id ∧ i = { insert with statement := some s.nextStatement })
      ∨ j ≠ id ∧ s.calls.get j = some (.inserting i) := by
  rcases OrdMap.of_get_set hg with ⟨hj, hc⟩ | hg
  · exact .inl ⟨hj, Call.inserting.inj hc⟩
  · exact .inr hg

theorem Inv.insertEntry (hi : Inv s) (hid : id < s.nextCall)
    (he : insert.entryId < s.nextEntry)
    (hw : insert.job = .write → insert.entryId ∉ s.queue ∧ insert.entryId ∉ s.dropped
      ∧ ∀ j i, j ≠ id → s.calls.get j = some (.inserting i) → i.job = .write →
        i.entryId ≠ insert.entryId) : Inv (insertEntry id insert s) := by
  have hstatement : ∀ {n x},
      (AuditLogger.insertEntry id insert s).statements.get n = some x →
      (n = s.nextStatement ∧ x = ⟨insert.entryId, .undecided⟩)
        ∨ n ≠ s.nextStatement ∧ s.statements.get n = some x := OrdMap.of_get_set
  have hinserted : ∀ {n x},
      (AuditLogger.insertEntry id insert s).statements.get n = some ⟨x, .inserted⟩ →
      s.statements.get n = some ⟨x, .inserted⟩ := by
    intro n x hx
    rcases hstatement hx with ⟨-, hx⟩ | ⟨-, hx⟩
    · simp at hx
    · exact hx
  have hold : ∀ {j i n}, s.calls.get j = some (.inserting i) → i.statement = some n →
      n ≠ s.nextStatement := by
    intro j i n hg hn
    obtain ⟨status, hst⟩ := hi.waits j i n hg hn
    exact (hi.sent n _ hst).1.ne
  refine ⟨hi.short, hi.queue, hi.log, hi.apart, hi.made, fun n x hx => ?_,
    fun n e hx => hi.stored n e (hinserted hx),
    fun n m e hx hy => hi.once n m e (hinserted hx) (hinserted hy), fun j c hg => ?_,
    fun j i hg => ?_, fun j i n hg hn => ?_, fun j i j' i' n hg hn hg' hn' => ?_,
    fun j i hg hj => ?_, fun j i j' i' hg hj hg' hj' heq => ?_⟩
  · rcases hstatement hx with ⟨rfl, rfl⟩ | ⟨-, hx⟩
    · exact ⟨Nat.lt_succ_self _, he⟩
    · exact ⟨Nat.lt_succ_of_lt (hi.sent n x hx).1, (hi.sent n x hx).2⟩
  · rcases OrdMap.of_get_set hg with ⟨rfl, -⟩ | ⟨-, hg⟩
    · exact hid
    · exact hi.calls j c hg
  · rcases of_get_insertEntry hg with ⟨-, rfl⟩ | ⟨-, hg⟩
    · exact he
    · exact hi.made_for j i hg
  · rcases of_get_insertEntry hg with ⟨-, rfl⟩ | ⟨-, hg⟩
    · obtain rfl := Option.some.inj hn
      exact ⟨.undecided, OrdMap.get_set_self _ _ _⟩
    · obtain ⟨status, hst⟩ := hi.waits j i n hg hn
      exact ⟨status, (OrdMap.get_set_of_ne _ _ (hold hg hn)).trans hst⟩
  · rcases of_get_insertEntry hg with ⟨rfl, rfl⟩ | ⟨-, hj⟩ <;>
      rcases of_get_insertEntry hg' with ⟨rfl, rfl⟩ | ⟨-, hj'⟩
    · rfl
    · exact absurd (Option.some.inj hn).symm (hold hj' hn')
    · exact absurd (Option.some.inj hn').symm (hold hj hn)
    · exact hi.own j i j' i' n hj hn hj' hn'
  · rcases of_get_insertEntry hg with ⟨-, rfl⟩ | ⟨-, hg⟩
    · exact ⟨(hw hj).1, (hw hj).2.1⟩
    · exact hi.writes j i hg hj
  · rcases of_get_insertEntry hg with ⟨rfl, rfl⟩ | ⟨hne, hold⟩ <;>
      rcases of_get_insertEntry hg' with ⟨rfl, rfl⟩ | ⟨hne', hold'⟩
    · rfl
    · exact absurd heq.symm ((hw hj).2.2 j' i' hne' hold' hj')
    · exact absurd heq ((hw hj').2.2 j i hne hold hj)
    · exact hi.writes_once j i j' i' hold hj hold' hj' heq

theorem Inv.drainQueue (hi : Inv s) (hid : id < s.nextCall) : Inv (drainQueue id s) := by
  unfold AuditLogger.drainQueue
  split
  · exact hi.finish id
  · rename_i e rest hq
    split_ifs
    · refine hi.insertEntry hid (hi.made e (.inl ?_)) nofun
      rw [hq]
      exact List.mem_cons_self
    · exact hi.finish id

/-- The database decides a statement. -/
theorem Inv.decided {status : Status} {log : List ℕ} (hi : Inv s)
    (hst : s.statements.get n = some ⟨e, .undecided⟩)
    (hlog : status = .inserted ∧ e ∉ s.log ∧ log = s.log ++ [e]
      ∨ status = .failed ∧ log = s.log) :
    Inv { s with log := log, statements := s.statements.set n ⟨e, status⟩ } := by
  have he : e < s.nextEntry := (hi.sent n _ hst).2
  have hmem : ∀ {x}, x ∈ log → x ∈ s.log ∨ x = e := by
    intro x hx
    rcases hlog with ⟨-, -, rfl⟩ | ⟨-, rfl⟩
    · exact (List.mem_append.1 hx).imp_right List.mem_singleton.1
    · exact .inl hx
  have hkeep : ∀ {x}, x ∈ s.log → x ∈ log := by
    intro x hx
    rcases hlog with ⟨-, -, rfl⟩ | ⟨-, rfl⟩
    · exact List.mem_append_left _ hx
    · exact hx
  have hinserted : ∀ {m x}, (s.statements.set n ⟨e, status⟩).get m = some ⟨x, .inserted⟩ →
      (m = n ∧ x = e ∧ e ∉ s.log ∧ e ∈ log) ∨ s.statements.get m = some ⟨x, .inserted⟩ := by
    intro m x hx
    rcases OrdMap.of_get_set hx with ⟨hm, hx⟩ | ⟨-, hx⟩
    · obtain ⟨rfl, rfl⟩ := Statement.mk.inj hx
      rcases hlog with ⟨-, hnew, rfl⟩ | ⟨hf, -⟩
      · exact .inl ⟨hm, rfl, hnew, by simp⟩
      · cases hf
    · exact .inr hx
  refine ⟨hi.short, hi.queue, ?_, hi.apart, fun x hx => ?_, fun m x hx => ?_, fun m x hx => ?_,
    fun m m' x hx hy => ?_, hi.calls, hi.made_for, fun j i m hg hm => ?_, hi.own, hi.writes,
    hi.writes_once⟩
  · rcases hlog with ⟨-, hnew, rfl⟩ | ⟨-, rfl⟩
    · exact nodup_append_new hi.log hnew
    · exact hi.log
  · rcases hx with hx | hx | hx
    · exact hi.made x (.inl hx)
    · rcases hmem hx with hx | rfl
      · exact hi.made x (.inr (.inl hx))
      · exact he
    · exact hi.made x (.inr (.inr hx))
  · rcases OrdMap.of_get_set hx with ⟨rfl, rfl⟩ | ⟨-, hx⟩
    · exact ⟨(hi.sent m _ hst).1, he⟩
    · exact hi.sent m x hx
  · rcases hinserted hx with ⟨-, rfl, -, hl⟩ | hx
    · exact hl
    · exact hkeep (hi.stored m x hx)
  · rcases hinserted hx with ⟨hm, hxe, hnew, -⟩ | hx' <;>
      rcases hinserted hy with ⟨hm', hxe', hnew', -⟩ | hy'
    · exact hm.trans hm'.symm
    · exact absurd (hxe ▸ hi.stored m' x hy') hnew
    · exact absurd (hxe' ▸ hi.stored m x hx') hnew'
    · exact hi.once m m' x hx' hy'
  · obtain ⟨status', hst'⟩ := hi.waits j i m hg hm
    by_cases hmn : m = n
    · subst hmn
      rw [hst] at hst'
      obtain ⟨rfl, -⟩ := Statement.mk.inj (Option.some.inj hst')
      exact ⟨status, OrdMap.get_set_self _ _ _⟩
    · exact ⟨status', (OrdMap.get_set_of_ne _ _ hmn).trans hst'⟩

theorem Inv.bump (hi : Inv s) : Inv { s with nextCall := s.nextCall + 1 } :=
  ⟨hi.short, hi.queue, hi.log, hi.apart, hi.made, hi.sent, hi.stored, hi.once,
    fun j c hg => Nat.lt_succ_of_lt (hi.calls j c hg), hi.made_for, hi.waits, hi.own, hi.writes,
    hi.writes_once⟩

theorem Inv.setCall {call : Call} (hi : Inv s) (hid : id < s.nextCall)
    (hc : ∀ i, call = .inserting i → i.statement = none ∧ ∃ i', s.calls.get id = some (.inserting i')
      ∧ i.job = i'.job ∧ i.entryId = i'.entryId) :
    Inv { s with calls := s.calls.set id call } := by
  have hget : ∀ {j i}, (s.calls.set id call).get j = some (.inserting i) →
      ∃ i', s.calls.get j = some (.inserting i') ∧ i.job = i'.job ∧ i.entryId = i'.entryId
        ∧ (i.statement = none ∨ i = i') := by
    intro j i hg
    rcases OrdMap.of_get_set hg with ⟨rfl, hc'⟩ | ⟨-, hg⟩
    · obtain ⟨hn, i', hg', hj, he⟩ := hc i hc'.symm
      exact ⟨i', hg', hj, he, .inl hn⟩
    · exact ⟨i, hg, rfl, rfl, .inr rfl⟩
  have hwaits : ∀ {j i n}, (s.calls.set id call).get j = some (.inserting i) →
      i.statement = some n → s.calls.get j = some (.inserting i) := by
    intro j i n hg hn
    obtain ⟨i', hg', -, -, hnone | rfl⟩ := hget hg
    · rw [hnone] at hn
      cases hn
    · exact hg'
  refine ⟨hi.short, hi.queue, hi.log, hi.apart, hi.made, hi.sent, hi.stored, hi.once,
    fun j c hg => ?_, fun j i hg => ?_, fun j i n hg hn => hi.waits j i n (hwaits hg hn) hn,
    fun j i j' i' n hg hn hg' hn' => hi.own j i j' i' n (hwaits hg hn) hn (hwaits hg' hn') hn',
    fun j i hg hj => ?_, fun j i j' i' hg hj hg' hj' heq => ?_⟩
  · rcases OrdMap.of_get_set hg with ⟨rfl, -⟩ | ⟨-, hg⟩
    · exact hid
    · exact hi.calls j c hg
  · obtain ⟨i', hg', -, he, -⟩ := hget hg
    exact he ▸ hi.made_for j i' hg'
  · obtain ⟨i', hg', hj', he, -⟩ := hget hg
    exact he ▸ hi.writes j i' hg' (hj' ▸ hj)
  · obtain ⟨i₁, hg₁, hj₁, he₁, -⟩ := hget hg
    obtain ⟨i₂, hg₂, hj₂, he₂, -⟩ := hget hg'
    exact hi.writes_once j i₁ j' i₂ hg₁ (hj₁ ▸ hj) hg₂ (hj₂ ▸ hj') (he₁ ▸ he₂ ▸ heq)

theorem finish_enqueue : finish id (enqueue e s) = enqueue e (finish id s) := by
  unfold finish enqueue
  split_ifs <;> rfl

theorem New.of_write (hi : Inv s) (hg : s.calls.get id = some (.inserting insert))
    (hj : insert.job = .write) : New (finish id s) insert.entryId := by
  obtain ⟨hq, hd⟩ := hi.writes id insert hg hj
  refine ⟨hi.made_for id insert hg, hq, hd, fun j i hg' hj' he => ?_⟩
  obtain ⟨hne, hg'⟩ := get_finish hg'
  exact hne (hi.writes_once j i id insert hg' hj' hg hj he)

theorem Inv.move (hi : Inv s) (hm : Move s a s') : Inv s' := by
  cases hm with
  | queued ha => exact hi.accept.enqueue (New.accept hi)
  | wrote ha =>
    have hnew := New.accept hi
    refine hi.accept.bump.insertEntry (Nat.lt_succ_self _) hnew.made fun _ => ?_
    exact ⟨hnew.queue, hnew.dropped, fun j i _ hg hj => hnew.writes j i hg hj⟩
  | ticked => exact hi.bump.setCall (Nat.lt_succ_self _) nofun
  | probed id hc => exact (hi.setDbAvailable true).drainQueue (hi.calls id _ hc)
  | probeFailed id hc => exact hi.finish id
  | inserted n e hst he => exact hi.decided hst (.inl ⟨rfl, he, rfl⟩)
  | refused n e hst => exact hi.decided hst (.inr ⟨rfl, rfl⟩)
  | succeeded id n e insert hc hn hst =>
    unfold insertSucceeded
    cases insert.job with
    | write => exact hi.drainQueue (hi.calls id _ hc)
    | drain => exact hi.tail.drainQueue (hi.calls id _ hc)
  | retried a id insert hf hlt =>
    refine hi.setCall (hi.calls id _ hf.1) fun i he => ?_
    obtain rfl := Call.inserting.inj he
    exact ⟨rfl, insert, hf.1, rfl, rfl⟩
  | gaveUp a id insert hf hle =>
    unfold insertThrew
    rcases hj : insert.job with _ | _
    · simp only [finish_enqueue]
      exact ((hi.setDbAvailable false).finish id).enqueue
        (New.of_write (hi.setDbAvailable false) hf.1 hj)
    · exact (hi.setDbAvailable false).finish id
  | woke id insert hc hn =>
    refine hi.insertEntry (hi.calls id _ hc) (hi.made_for id _ hc) fun hj => ?_
    obtain ⟨hq, hd⟩ := hi.writes id insert hc hj
    refine ⟨hq, hd, fun j i hne hg hj' he => ?_⟩
    exact hne (hi.writes_once j i id insert hg hj' hc hj he)

theorem inv_reachable (hr : sys.Reachable s) : Inv s := by
  refine hr.invariant ?_ fun s a s' hi hs => hi.move (step_move hs)
  rintro _ ⟨rows, n, hnodup, hlt, rfl⟩
  refine ⟨Nat.zero_le _, List.nodup_nil, hnodup, nofun, fun e he => ?_, nofun, nofun, nofun,
    nofun, nofun, nofun, nofun, nofun, nofun⟩
  rcases he with he | he | he
  · cases he
  · exact hlt e he
  · cases he

end Invariant

end AuditLogger

end VeriNode
