import VeriNode.Proofs.AuditLogger

/-!
# What becomes of the entries given to the audit logger

A drain inserts the head of the queue and then shifts the queue. It shifts what it has inserted as
long as nobody evicts that entry meanwhile; so what matters is what an eviction finds at the head.
If no `INSERT` of the evicted entry has taken effect or still can, every entry stays accounted for
(`audit_accounts`); otherwise one may be both dropped and stored (`unspent_goes_wrong`).
-/

namespace VeriNode

namespace AuditLogger

section Accounts

/-- No `INSERT` of the entry has taken effect, or still can. -/
structure Spent (s : State) (e : ℕ) : Prop where
  log : e ∉ s.log
  sent : ∀ n status, s.statements.get n = some ⟨e, status⟩ → status = .failed
  calls : ∀ id i, s.calls.get id = some (.inserting i) → i.entryId = e →
    i.statement ≠ none ∧ retryDelaysMs.length ≤ i.failures

/-- The step enqueues an entry while the queue is full, with this one at its head. -/
def Evicts (s : State) (a : Action) (e : ℕ) : Prop :=
  s.queue.head? = some e ∧ queueCapacity ≤ s.queue.length
    ∧ (a = .write ∧ s.dbAvailable = false
      ∨ ∃ id i, Fails s a id i ∧ i.job = .write ∧ retryDelaysMs.length ≤ i.failures)

def EvictsSpent (s : State) (a : Action) : Prop := ∀ e, Evicts s a e → Spent s e

/-- No call is going on. -/
def Quiescent (s : State) : Prop := ∀ id, s.calls.get id = none

def Placed (s : State) (e : ℕ) : Prop :=
  (∃ id i, s.calls.get id = some (.inserting i) ∧ i.job = .write ∧ i.entryId = e)
    ∨ e ∈ s.log ∨ e ∈ s.queue ∨ e ∈ s.dropped

/-- Where the entry of a drain is: at the head; or stored, but not by the statement that the drain
waits for; or evicted. -/
def AtHead (s : State) (i : Insert) : Prop :=
  s.queue.head? = some i.entryId
    ∨ (i.entryId ∈ s.log ∧ ∀ n, i.statement = some n →
      s.statements.get n ≠ some ⟨i.entryId, .inserted⟩)
    ∨ i.entryId ∈ s.dropped

/-- Every entry is placed, except those in hand. -/
structure Safe (inHand : List ℕ) (s : State) : Prop where
  placed : ∀ e ∈ s.written, e ∉ inHand → Placed s e
  spent : ∀ e ∈ s.dropped, Spent s e
  drains : ∀ id i, s.calls.get id = some (.inserting i) → i.job = .drain → AtHead s i

variable {s s' : State} {a : Action} {id e n : ℕ} {w : List ℕ} {insert : Insert}
  {h : List (Taken State Action)}

theorem quiescent_of (hc : s.calls.entries = []) : Quiescent s := by
  intro id
  simp [OrdMap.get, hc]

theorem Spent.congr (hs : Spent s e) (hl : s'.log = s.log) (hst : s'.statements = s.statements)
    (hc : s'.calls = s.calls) : Spent s' e :=
  ⟨hl ▸ hs.log, hst ▸ hs.sent, hc ▸ hs.calls⟩

theorem Safe.setDbAvailable (hs : Safe w s) (b : Bool) : Safe w { s with dbAvailable := b } :=
  ⟨hs.placed, fun e he => (hs.spent e he).congr rfl rfl rfl, hs.drains⟩

theorem Safe.bump (hs : Safe w s) (k : ℕ) : Safe w { s with nextCall := k } :=
  ⟨hs.placed, fun e he => (hs.spent e he).congr rfl rfl rfl, hs.drains⟩

theorem Safe.finish (hs : Safe w s) (hid : ∀ i, s.calls.get id = some (.inserting i) →
    i.job = .write → i.entryId ∈ w) : Safe w (AuditLogger.finish id s) := by
  refine ⟨fun e he hw => ?_, fun e he => ?_, fun j i hg hj => ?_⟩
  · rcases hs.placed e he hw with ⟨j, i, hg, hj, rfl⟩ | hrest
    · refine .inl ⟨j, i, (OrdMap.get_delete_of_ne _ fun hji => hw ?_).trans hg, hj, rfl⟩
      subst hji
      exact hid i hg hj
    · exact .inr hrest
  · have hsp := hs.spent e he
    exact ⟨hsp.log, hsp.sent, fun j i hg => hsp.calls j i (get_finish hg).2⟩
  · exact hs.drains j i (get_finish hg).2 hj

theorem Safe.inHand (hs : Safe [] s) (hc : s.calls.get id = some (.inserting insert)) :
    Safe [insert.entryId] (AuditLogger.finish id s) := by
  refine Safe.finish ⟨fun e he _ => hs.placed e he (by simp), hs.spent, hs.drains⟩ fun i hg _ => ?_
  rw [hc] at hg
  cases hg
  exact List.mem_singleton_self _

theorem Safe.insertEntry (hs : Safe w (AuditLogger.finish id s))
    (hw : ∀ e ∈ w, insert.job = .write ∧ e = insert.entryId)
    (hnew : insert.entryId ∉ s.dropped)
    (hdrain : insert.job = .drain →
      s.queue.head? = some insert.entryId ∨ insert.entryId ∈ s.log) :
    Safe [] (insertEntry id insert s) := by
  have hother : ∀ {j i}, j ≠ id → s.calls.get j = some (.inserting i) →
      (AuditLogger.finish id s).calls.get j = some (.inserting i) :=
    fun hne hg => (OrdMap.get_delete_of_ne _ hne).trans hg
  have hself : (AuditLogger.insertEntry id insert s).calls.get id
      = some (.inserting { insert with statement := some s.nextStatement }) :=
    OrdMap.get_set_self _ _ _
  refine ⟨fun e he _ => ?_, fun e he => ?_, fun j i hg hj => ?_⟩
  · by_cases hm : e ∈ w
    · obtain ⟨hj, rfl⟩ := hw e hm
      exact .inl ⟨id, _, hself, hj, rfl⟩
    · rcases hs.placed e he hm with ⟨j, i, hg, hj, rfl⟩ | hrest
      · obtain ⟨hne, hg⟩ := get_finish hg
        exact .inl ⟨j, i, (OrdMap.get_set_of_ne _ _ hne).trans hg, hj, rfl⟩
      · exact .inr hrest
  · have hsp := hs.spent e he
    have hne : insert.entryId ≠ e := fun h => hnew (h ▸ he)
    refine ⟨hsp.log, fun n status hst => ?_, fun j i hg hi => ?_⟩
    · rcases OrdMap.of_get_set hst with ⟨-, hst⟩ | ⟨-, hst⟩
      · exact absurd (Statement.mk.inj hst).1.symm hne
      · exact hsp.sent n status hst
    · rcases of_get_insertEntry hg with ⟨-, rfl⟩ | ⟨hj, hg⟩
      · exact absurd hi hne
      · exact hsp.calls j i (hother hj hg) hi
  · have hundecided : ∀ {x y}, (AuditLogger.insertEntry id insert s).statements.get x
        = some ⟨y, .inserted⟩ → s.statements.get x = some ⟨y, .inserted⟩ := by
      intro x y hst
      rcases OrdMap.of_get_set hst with ⟨-, hst⟩ | ⟨-, hst⟩
      · cases hst
      · exact hst
    rcases of_get_insertEntry hg with ⟨-, rfl⟩ | ⟨hne, hg⟩
    · rcases hdrain hj with hh | hl
      · exact .inl hh
      · refine .inr (.inl ⟨hl, fun n hn hst => ?_⟩)
        obtain rfl := Option.some.inj hn
        rw [AuditLogger.insertEntry, OrdMap.get_set_self] at hst
        cases hst
    · rcases hs.drains j i (hother hne hg) hj with hh | ⟨hl, hn⟩ | hd
      · exact .inl hh
      · exact .inr (.inl ⟨hl, fun n hn' hst => hn n hn' (hundecided hst)⟩)
      · exact .inr (.inr hd)

theorem Safe.drainQueue (hs : Safe [] (AuditLogger.finish id s)) (hi : Inv s) :
    Safe [] (drainQueue id s) := by
  unfold AuditLogger.drainQueue
  split
  · exact hs
  · rename_i e rest hq
    split_ifs
    · have hmem : e ∈ s.queue := hq ▸ List.mem_cons_self
      refine hs.insertEntry (w := []) (by simp) (fun hd => hi.apart e hd hmem) fun _ => .inl ?_
      rw [hq]
      rfl
    · exact hs

theorem Spent.enqueue {x : ℕ} (hs : Spent s x) : Spent (enqueue e s) x :=
  hs.congr (by rw [enqueue_eq]) (by rw [enqueue_eq]) (by rw [enqueue_eq])

theorem mem_queue_enqueue {x : ℕ} (hx : x ∈ s.queue) :
    x ∈ (enqueue e s).queue ∨ x ∈ (enqueue e s).dropped := by
  unfold enqueue
  split_ifs
  · rcases hq : s.queue with _ | ⟨y, rest⟩
    · rw [hq] at hx
      cases hx
    · rw [hq] at hx
      rcases List.mem_cons.1 hx with rfl | hx
      · exact .inr (List.mem_append_right _ (by simp))
      · exact .inl (List.mem_append_left _ hx)
  · exact .inl (List.mem_append_left _ hx)

theorem head_enqueue {x : ℕ} (hx : s.queue.head? = some x) :
    (enqueue e s).queue.head? = some x ∨ x ∈ (enqueue e s).dropped := by
  unfold enqueue
  split_ifs
  · exact .inr (List.mem_append_right _ (by simp [hx]))
  · left
    simp only [List.head?_append, hx, Option.some_or]

theorem dropped_mono {x : ℕ} (hx : x ∈ s.dropped) : x ∈ (enqueue e s).dropped := by
  unfold enqueue
  split_ifs
  · exact List.mem_append_left _ hx
  · exact hx

theorem mem_queue_self : e ∈ (enqueue e s).queue := by
  unfold enqueue
  split_ifs
  · exact List.mem_append_right _ (List.mem_singleton_self e)
  · exact List.mem_append_right _ (List.mem_singleton_self e)

theorem Safe.enqueue (hs : Safe [e] s) (hev : queueCapacity ≤ s.queue.length →
    ∀ x, s.queue.head? = some x → Spent s x) : Safe [] (enqueue e s) := by
  have hlog : (AuditLogger.enqueue e s).log = s.log := by rw [enqueue_eq]
  have hcalls : (AuditLogger.enqueue e s).calls = s.calls := by rw [enqueue_eq]
  have hstatements : (AuditLogger.enqueue e s).statements = s.statements := by rw [enqueue_eq]
  have hwritten : (AuditLogger.enqueue e s).written = s.written := by rw [enqueue_eq]
  refine ⟨fun x hx _ => ?_, fun x hx => ?_, fun j i hg hj => ?_⟩
  · rw [hwritten] at hx
    by_cases hxe : x = e
    · subst hxe
      exact .inr (.inr (.inl mem_queue_self))
    · rcases hs.placed x hx (by simpa using hxe) with hc | hl | hq | hd
      · exact .inl (hcalls ▸ hc)
      · exact .inr (.inl (hlog ▸ hl))
      · exact .inr (.inr (mem_queue_enqueue hq))
      · exact .inr (.inr (.inr (dropped_mono hd)))
  · rcases dropped_enqueue hx with hx | ⟨hh, hfull⟩
    · exact (hs.spent x hx).enqueue
    · exact (hev hfull x hh).enqueue
  · rw [hcalls] at hg
    rcases hs.drains j i hg hj with hh | hl | hd
    · rcases head_enqueue hh with hh | hd
      · exact .inl hh
      · exact .inr (.inr hd)
    · exact .inr (.inl (hlog ▸ hstatements ▸ hl))
    · exact .inr (.inr (dropped_mono hd))

theorem Safe.head (hs : Safe w s) (hi : Inv s) (hc : s.calls.get id = some (.inserting insert))
    (hj : insert.job = .drain) (hn : insert.statement = some n)
    (hst : s.statements.get n = some ⟨e, .inserted⟩) :
    s.queue.head? = some e ∧ insert.entryId = e := by
  obtain ⟨status, hst'⟩ := hi.waits id insert n hc hn
  obtain rfl : insert.entryId = e := by
    rw [hst] at hst'
    exact (Statement.mk.inj (Option.some.inj hst')).1.symm
  refine ⟨?_, rfl⟩
  rcases hs.drains id insert hc hj with hh | ⟨-, hne⟩ | hd
  · exact hh
  · exact absurd hst (hne n hn)
  · exact absurd (hi.stored n _ hst) (hs.spent _ hd).log

theorem Safe.shift (hs : Safe [] s) (hi : Inv s)
    (hc : s.calls.get id = some (.inserting insert)) (hj : insert.job = .drain)
    (hn : insert.statement = some n) (hst : s.statements.get n = some ⟨e, .inserted⟩) :
    Safe [] (AuditLogger.finish id { s with queue := s.queue.tail }) := by
  obtain ⟨hhead, he⟩ := hs.head hi hc hj hn hst
  have hf : Safe [] (AuditLogger.finish id s) := by
    refine hs.finish fun i hg hw => ?_
    rw [hc] at hg
    cases hg
    rw [hj] at hw
    cases hw
  refine ⟨fun x hx _ => ?_, fun x hx => ?_, fun j i hg hd => ?_⟩
  · rcases hf.placed x hx (by simp) with hc' | hl | hq | hd
    · exact .inl hc'
    · exact .inr (.inl hl)
    · obtain ⟨rest, hrest⟩ := List.head?_eq_some_iff.1 hhead
      rcases List.mem_cons.1 (hrest ▸ hq) with rfl | hq
      · exact .inr (.inl (hi.stored n _ hst))
      · refine .inr (.inr (.inl ?_))
        change x ∈ s.queue.tail
        rw [hrest]
        exact hq
    · exact .inr (.inr (.inr hd))
  · have hsp := hf.spent x hx
    exact ⟨hsp.log, hsp.sent, hsp.calls⟩
  · obtain ⟨hne, hg⟩ := get_finish hg
    rcases hs.drains j i hg hd with hh | hl | hd
    · obtain rfl : e = i.entryId := Option.some.inj (hhead.symm.trans hh)
      refine .inr (.inl ⟨hi.stored n _ hst, fun m hm hst' => hne ?_⟩)
      obtain rfl := hi.once n m _ hst hst'
      exact hi.own j i id insert n hg hm hc hn
    · exact .inr (.inl hl)
    · exact .inr (.inr hd)

theorem Safe.decided {status : Status} {log : List ℕ} (hs : Safe [] s)
    (hst : s.statements.get n = some ⟨e, .undecided⟩)
    (hlog : status = .inserted ∧ e ∉ s.log ∧ log = s.log ++ [e]
      ∨ status = .failed ∧ log = s.log) :
    Safe [] { s with log := log, statements := s.statements.set n ⟨e, status⟩ } := by
  have hkeep : ∀ {x}, x ∈ s.log → x ∈ log := by
    intro x hx
    rcases hlog with ⟨-, -, rfl⟩ | ⟨-, rfl⟩
    · exact List.mem_append_left _ hx
    · exact hx
  have hmem : ∀ {x}, x ∈ log → x ∈ s.log ∨ x = e := by
    intro x hx
    rcases hlog with ⟨-, -, rfl⟩ | ⟨-, rfl⟩
    · exact (List.mem_append.1 hx).imp_right List.mem_singleton.1
    · exact .inl hx
  refine ⟨fun x hx hw => ?_, fun x hx => ?_, fun j i hg hj => ?_⟩
  · rcases hs.placed x hx hw with hc | hl | hrest
    · exact .inl hc
    · exact .inr (.inl (hkeep hl))
    · exact .inr (.inr hrest)
  · have hsp := hs.spent x hx
    have hne : x ≠ e := by
      rintro rfl
      cases hsp.sent n _ hst
    refine ⟨fun hl => ?_, fun m st hst' => ?_, hsp.calls⟩
    · rcases hmem hl with hl | hl
      · exact hsp.log hl
      · exact hne hl
    · rcases OrdMap.of_get_set hst' with ⟨-, hst'⟩ | ⟨-, hst'⟩
      · exact absurd (Statement.mk.inj hst').1 hne
      · exact hsp.sent m st hst'
  · rcases hs.drains j i hg hj with hh | ⟨hl, hn⟩ | hd
    · exact .inl hh
    · refine .inr (.inl ⟨hkeep hl, fun m hm hst' => ?_⟩)
      rcases OrdMap.of_get_set hst' with ⟨-, hx⟩ | ⟨-, hx⟩
      · obtain ⟨he, rfl⟩ := Statement.mk.inj hx
        rcases hlog with ⟨-, hnew, -⟩ | ⟨hf, -⟩
        · exact hnew (he ▸ hl)
        · cases hf
      · exact hn m hm hx
    · exact .inr (.inr hd)

theorem Safe.retried (hs : Safe [] s) (hc : s.calls.get id = some (.inserting insert))
    (hlt : insert.failures < retryDelaysMs.length) (k : ℕ) :
    Safe [] { s with
      calls := s.calls.set id (.inserting { insert with failures := k, statement := none }) } := by
  have hget : ∀ {j i}, (s.calls.set id
      (.inserting { insert with failures := k, statement := none })).get j = some (.inserting i) →
      (j = id ∧ i = { insert with failures := k, statement := none })
        ∨ s.calls.get j = some (.inserting i) := by
    intro j i hg
    rcases OrdMap.of_get_set hg with ⟨hj, hi⟩ | ⟨-, hg⟩
    · exact .inl ⟨hj, Call.inserting.inj hi⟩
    · exact .inr hg
  have hnew : insert.entryId ∉ s.dropped := by
    intro hd
    have hle := ((hs.spent _ hd).calls id insert hc rfl).2
    omega
  refine ⟨fun x hx hw => ?_, fun x hx => ?_, fun j i hg hj => ?_⟩
  · rcases hs.placed x hx hw with ⟨j, i, hg, hj, rfl⟩ | hrest
    · by_cases hji : j = id
      · subst hji
        rw [hc] at hg
        cases hg
        exact .inl ⟨j, _, OrdMap.get_set_self _ _ _, hj, rfl⟩
      · exact .inl ⟨j, i, (OrdMap.get_set_of_ne _ _ hji).trans hg, hj, rfl⟩
    · exact .inr hrest
  · have hsp := hs.spent x hx
    refine ⟨hsp.log, hsp.sent, fun j i hg he => ?_⟩
    rcases hget hg with ⟨-, rfl⟩ | hg
    · exact absurd (he ▸ hx) hnew
    · exact hsp.calls j i hg he
  · rcases hget hg with ⟨-, rfl⟩ | hg
    · rcases hs.drains id insert hc hj with hh | ⟨hl, -⟩ | hd
      · exact .inl hh
      · exact .inr (.inl ⟨hl, nofun⟩)
      · exact .inr (.inr hd)
    · exact hs.drains j i hg hj

theorem Safe.accept (hs : Safe [] s) : Safe [s.nextEntry] s.accept := by
  refine ⟨fun e he hw => ?_, fun e he => ?_, hs.drains⟩
  · rcases List.mem_append.1 he with he | he
    · exact hs.placed e he (by simp)
    · exact absurd he hw
  · exact (hs.spent e he).congr rfl rfl rfl

theorem Safe.ticked (hs : Safe [] s) (hid : s.calls.get id = none) :
    Safe [] { s with nextCall := s.nextCall + 1, calls := s.calls.set id .probing } := by
  have hget : ∀ {j i}, (s.calls.set id .probing).get j = some (.inserting i) →
      s.calls.get j = some (.inserting i) := by
    intro j i hg
    rcases OrdMap.of_get_set hg with ⟨-, hc⟩ | ⟨-, hg⟩
    · cases hc
    · exact hg
  refine ⟨fun e he hw => ?_, fun e he => ?_, fun j i hg => hs.drains j i (hget hg)⟩
  · rcases hs.placed e he hw with ⟨j, i, hg, hj, rfl⟩ | hrest
    · have hne : j ≠ id := by
        rintro rfl
        rw [hid] at hg
        cases hg
      exact .inl ⟨j, i, (OrdMap.get_set_of_ne _ _ hne).trans hg, hj, rfl⟩
    · exact .inr hrest
  · have hsp := hs.spent e he
    exact ⟨hsp.log, hsp.sent, fun j i hg => hsp.calls j i (hget hg)⟩

theorem Inv.nextCall_free (hi : Inv s) : s.calls.get s.nextCall = none := by
  rcases hg : s.calls.get s.nextCall with _ | c
  · rfl
  · exact absurd (hi.calls _ c hg) (lt_irrefl _)

theorem Safe.move (hs : Safe [] s) (hi : Inv s) (hm : Move s a s') (hev : EvictsSpent s a) :
    Safe [] s' := by
  cases hm with
  | queued ha =>
    refine hs.accept.enqueue fun hfull x hx => ?_
    exact (hev x ⟨hx, hfull, .inl ⟨rfl, ha⟩⟩).congr rfl rfl rfl
  | wrote ha =>
    refine Safe.insertEntry (w := [s.nextEntry])
      ((hs.accept.bump (s.nextCall + 1)).finish fun i hg => ?_)
      (fun e he => ⟨rfl, List.mem_singleton.1 he⟩) (fun hd => ?_) nofun
    · rw [show s.accept.calls.get s.nextCall = none from hi.nextCall_free] at hg
      cases hg
    · exact absurd (hi.made _ (.inr (.inr hd))) (lt_irrefl _)
  | ticked => exact hs.ticked hi.nextCall_free
  | probed id hc =>
    refine Safe.drainQueue ?_ (hi.setDbAvailable true)
    refine (hs.setDbAvailable true).finish fun i hg => ?_
    rw [hc] at hg
    cases hg
  | probeFailed id hc =>
    refine hs.finish fun i hg => ?_
    rw [hc] at hg
    cases hg
  | inserted n e hst he => exact hs.decided hst (.inl ⟨rfl, he, rfl⟩)
  | refused n e hst => exact hs.decided hst (.inr ⟨rfl, rfl⟩)
  | succeeded id n e insert hc hn hst =>
    unfold insertSucceeded
    rcases hj : insert.job with _ | _
    · refine Safe.drainQueue ?_ hi
      obtain ⟨status, hst'⟩ := hi.waits id insert n hc hn
      have he : insert.entryId = e := by
        rw [hst] at hst'
        exact (Statement.mk.inj (Option.some.inj hst')).1.symm
      -- the entry of the write that is over is stored
      have hf := hs.inHand hc
      refine ⟨fun x hx _ => ?_, hf.spent, hf.drains⟩
      by_cases hxe : x = insert.entryId
      · exact .inr (.inl (hxe ▸ he ▸ hi.stored n e hst))
      · exact hf.placed x hx (by simpa using hxe)
    · exact Safe.drainQueue (hs.shift hi hc hj hn hst) hi.tail
  | retried a id insert hf hlt => exact hs.retried hf.1 hlt _
  | gaveUp a id insert hf hle =>
    unfold insertThrew
    rcases hj : insert.job with _ | _
    · simp only [finish_enqueue]
      refine Safe.enqueue ((hs.setDbAvailable false).inHand hf.1) fun hfull x hx => ?_
      have hsp := hev x ⟨hx, hfull, .inr ⟨id, insert, hf, hj, hle⟩⟩
      exact ⟨hsp.log, hsp.sent, fun j i hg => hsp.calls j i (get_finish hg).2⟩
    · refine (hs.setDbAvailable false).finish fun i hg hw => ?_
      change s.calls.get id = _ at hg
      rw [hf.1] at hg
      cases hg
      rw [hj] at hw
      cases hw
  | woke id insert hc hn =>
    have hnew : insert.entryId ∉ s.dropped := fun hd =>
      ((hs.spent _ hd).calls id insert hc rfl).1 hn
    rcases hj : insert.job with _ | _
    · exact Safe.insertEntry (hs.inHand hc) (fun e he => ⟨hj, List.mem_singleton.1 he⟩) hnew
        (by simp [hj])
    · refine Safe.insertEntry (w := []) (hs.finish fun i hg hw => ?_) (by simp) hnew fun _ => ?_
      · rw [hc] at hg
        cases hg
        rw [hj] at hw
        cases hw
      · exact (hs.drains id insert hc hj).imp_right fun h => (h.resolve_right hnew).1

theorem safe_run (hr : Run sys h s) (hC : Along EvictsSpent h) : Inv s ∧ Safe [] s := by
  refine hr.invariant_of (P := fun s => Inv s ∧ Safe [] s) (C := EvictsSpent) ?_ ?_ hC
  · intro s hinit
    refine ⟨inv_reachable (Run.start hinit).reachable, ?_⟩
    obtain ⟨rows, n, -, -, rfl⟩ := hinit
    exact ⟨nofun, nofun, nofun⟩
  · rintro s a s' ⟨hi, hs⟩ hev hstep
    have hm := step_move hstep
    exact ⟨hi.move hm, hs.move hi hm hev⟩

/-- In every run the queue is short. If no eviction of the run hits an entry whose `INSERT` has
taken effect or still can, no entry is both dropped and stored, and when no call is going on each is
stored, queued or dropped. -/
theorem audit_accounts (hr : Run sys h s) : s.queue.length ≤ queueCapacity
    ∧ (Along EvictsSpent h → (∀ e ∈ s.dropped, e ∉ s.log)
      ∧ (Quiescent s → ∀ e ∈ s.written, e ∈ s.log ∨ e ∈ s.queue ∨ e ∈ s.dropped)) := by
  refine ⟨(inv_reachable hr.reachable).short, fun hC => ?_⟩
  obtain ⟨-, hs⟩ := safe_run hr hC
  refine ⟨fun e he => (hs.spent e he).log, fun hq e he => ?_⟩
  rcases hs.placed e he (by simp) with ⟨id, i, hg, -⟩ | hrest
  · rw [hq id] at hg
    cases hg
  · exact hrest

/-- The run goes on to a state in which the entry is both counted as dropped and stored. -/
def GoesWrong (h : List (Taken State Action)) (e : ℕ) : Prop :=
  ∃ g s, Run sys (g ++ h) s ∧ e ∈ s.dropped ∧ e ∈ s.log

theorem GoesWrong.of_next {t : Taken State Action} (hg : GoesWrong (t :: h) e) :
    GoesWrong h e := by
  obtain ⟨g, s, hr, hd⟩ := hg
  exact ⟨g ++ [t], s, by simpa using hr, hd⟩

theorem goesWrong_undecided (hr : Run sys h s) (hd : e ∈ s.dropped)
    (hst : s.statements.get n = some ⟨e, .undecided⟩) : GoesWrong h e := by
  by_cases hl : e ∈ s.log
  · exact ⟨[], s, hr, hd, hl⟩
  · have hs : sys.step s (.decide n true) = some { s with
        log := s.log ++ [e]
        statements := s.statements.set n ⟨e, .inserted⟩ } := by
      simp [sys, step, hst, hl]
    exact ⟨[_], _, hr.next hs, hd, List.mem_append_right _ (List.mem_singleton_self e)⟩

theorem goesWrong_asleep (hr : Run sys h s) (hc : s.calls.get id = some (.inserting insert))
    (hn : insert.statement = none) (hd : insert.entryId ∈ s.dropped) :
    GoesWrong h insert.entryId := by
  have hs : sys.step s (.wake id) = some (insertEntry id insert s) := by simp [sys, step, hc, hn]
  exact (goesWrong_undecided (hr.next hs) hd (OrdMap.get_set_self _ _ _)).of_next

theorem goesWrong_retrying (hr : Run sys h s) (hd : insert.entryId ∈ s.dropped)
    (hc : s.calls.get id = some (.inserting insert))
    (hlt : insert.failures < retryDelaysMs.length) : GoesWrong h insert.entryId := by
  rcases hn : insert.statement with _ | n
  · exact goesWrong_asleep hr hc hn hd
  · have hs : sys.step s (.timeout id) = some (attemptFailed id insert s) := by
      simp [sys, step, hc, hn]
    unfold attemptFailed at hs
    rw [if_pos hlt] at hs
    have hc' := OrdMap.get_set_self s.calls id (.inserting
      { insert with failures := insert.failures + 1, statement := none })
    exact (goesWrong_asleep (hr.next hs) hc' rfl hd).of_next

theorem Evicts.after (hev : Evicts s a e) (hi : Inv s) (hs : step s a = some s') :
    e ∈ s'.dropped ∧ s'.log = s.log ∧ s'.statements = s.statements
      ∧ ∀ id i, s.calls.get id = some (.inserting i) → i.entryId = e →
        s'.calls.get id = some (.inserting i) := by
  obtain ⟨hh, hfull, hcase⟩ := hev
  have hdrop : ∀ {t : State} {x}, t.queue = s.queue → e ∈ (AuditLogger.enqueue x t).dropped := by
    intro t x hq
    unfold AuditLogger.enqueue
    rw [hq, if_pos hfull]
    exact List.mem_append_right _ (by simp [hh])
  rcases hcase with ⟨rfl, ha⟩ | ⟨id, i, hf, hj, hle⟩
  · obtain rfl : write s = s' := Option.some.inj hs
    rw [write, if_neg (by simp [ha])]
    refine ⟨hdrop rfl, by rw [enqueue_eq]; rfl, by rw [enqueue_eq]; rfl, fun id i hg _ => ?_⟩
    rw [enqueue_eq]
    exact hg
  · have hs' : s' = attemptFailed id i s := by
      rcases hf with ⟨hc, ⟨rfl, hst⟩ | ⟨rfl, hst⟩⟩
      · simpa [step, hc, hst] using hs.symm
      · simpa [step, hc, hst] using hs.symm
    subst hs'
    simp only [attemptFailed, if_neg (not_lt.2 hle), insertThrew, hj, finish_enqueue]
    refine ⟨hdrop rfl, by rw [enqueue_eq]; rfl, by rw [enqueue_eq]; rfl, fun j k hg he => ?_⟩
    rw [enqueue_eq]
    refine (OrdMap.get_delete_of_ne _ fun hji => ?_).trans hg
    subst hji
    obtain rfl : i = k := Call.inserting.inj (Option.some.inj (hf.1.symm.trans hg))
    exact (hi.writes _ _ hf.1 hj).1 (he ▸ List.mem_of_head? hh)

/-- The condition of `audit_accounts` is exact: whenever an eviction breaks it, the run can go on
to where an entry is both dropped and stored. -/
theorem unspent_goes_wrong (hr : Run sys h s) (hs : step s a = some s') (hev : Evicts s a e)
    (hn : ¬ Spent s e) : GoesWrong (⟨s, a, s'⟩ :: h) e := by
  have hi := inv_reachable hr.reachable
  obtain ⟨hd, hlog, hstatements, hcalls⟩ := hev.after hi hs
  have hr' := hr.next (S := sys) hs
  by_contra hgood
  refine hn ⟨fun hl => ?_, fun n status hst => ?_, fun id i hg he => ?_⟩
  · exact hgood ⟨[], s', hr', hd, hlog ▸ hl⟩
  · rcases status
    · exact absurd (goesWrong_undecided hr' hd (hstatements ▸ hst)) hgood
    · exact absurd ⟨[], s', hr', hd, hlog ▸ hi.stored n e hst⟩ hgood
    · rfl
  · have hg' := hcalls id i hg he
    subst he
    refine ⟨fun hnone => hgood (goesWrong_asleep hr' hg' hnone hd), ?_⟩
    by_contra hlt
    exact hgood (goesWrong_retrying hr' hd hg' (not_le.1 hlt))

theorem fill : ∀ (k : ℕ) {h : List (Taken State Action)} {s : State}, Run sys h s →
    s.dbAvailable = false → s.queue.length + k ≤ queueCapacity → Along EvictsSpent h →
    ∃ h', Run sys h'
        { s with
          queue := s.queue ++ List.range' s.nextEntry k
          written := s.written ++ List.range' s.nextEntry k
          nextEntry := s.nextEntry + k }
      ∧ Along EvictsSpent h'
  | 0, h, s, hr, _, _, hC => ⟨h, by simpa using hr, hC⟩
  | k + 1, h, s, hr, ha, hk, hC => by
    have hroom : ¬ queueCapacity ≤ s.queue.length := by omega
    have hstep : sys.step s .write = some { s.accept with queue := s.queue ++ [s.nextEntry] } := by
      simp [sys, step, write, ha, enqueue, State.accept, hroom]
    have hC' : Along EvictsSpent
        (⟨s, .write, { s.accept with queue := s.queue ++ [s.nextEntry] }⟩ :: h) := by
      intro t ht
      rcases List.mem_cons.1 ht with rfl | ht
      · exact fun e he => absurd he.2.1 hroom
      · exact hC t ht
    obtain ⟨h', hr', hC''⟩ := fill k (hr.next hstep) ha
      (by simp only [List.length_append, List.length_singleton]; omega) hC'
    refine ⟨h', ?_, hC''⟩
    have harith : s.nextEntry + 1 + k = s.nextEntry + (k + 1) := by omega
    simpa [State.accept, List.range'_succ, harith] using hr'

/-- The statements of a write that gave up. -/
def givenUp : OrdMap ℕ Statement :=
  (((OrdMap.empty.set 0 ⟨0, .failed⟩).set 1 ⟨0, .failed⟩).set 2 ⟨0, .failed⟩).set 3 ⟨0, .failed⟩

/-- The first write gave up. -/
def failedOnce : State where
  queue := [0]
  dbAvailable := false
  statements := givenUp
  written := [0]
  nextEntry := 1
  nextStatement := 4
  nextCall := 1

/-- The first write gave up, and the next ones found the database unavailable. -/
def full : State :=
  { failedOnce with
    queue := List.range' 0 1000
    written := List.range' 0 1000
    nextEntry := 1000 }

theorem init_empty : sys.init {} := ⟨[], 0, List.nodup_nil, nofun, rfl⟩

theorem run_failedOnce : ∃ h, Run sys h failedOnce ∧ Along EvictsSpent h := by
  have he : ∃ h, sys.exec {} [] [.write, .decide 0 false, .resume 0, .wake 0, .decide 1 false,
      .resume 0, .wake 0, .decide 2 false, .resume 0, .wake 0, .decide 3 false, .resume 0]
      = some (h, failedOnce)
      ∧ h.all (fun t => decide (t.pre.queue.length < 1000)) = true := ⟨_, rfl, rfl⟩
  obtain ⟨h, he, hshort⟩ := he
  refine ⟨h, Sys.run_of_exec (.start init_empty) he, fun t ht e hev => ?_⟩
  have hlt := of_decide_eq_true (List.all_eq_true.1 hshort t ht)
  have hfull : 1000 ≤ t.pre.queue.length := hev.2.1
  omega

theorem run_full : ∃ h, Run sys h full ∧ Along EvictsSpent h := by
  obtain ⟨h, hr, hC⟩ := run_failedOnce
  exact fill 999 hr rfl (by decide) hC

theorem failed_givenUp {n : ℕ} {x : Statement} (hst : givenUp.get n = some x) :
    x.status = .failed := by
  have hall : givenUp.entries.all (fun x => decide (x.2.status = .failed)) = true := rfl
  exact of_decide_eq_true (List.all_eq_true.1 hall _ (OrdMap.mem_entries_iff.2 hst))

theorem spent_full : Spent full 0 := by
  refine ⟨?_, fun n status hst => failed_givenUp hst, fun id i hg => ?_⟩
  · simp [full, failedOnce]
  · simp [full, failedOnce] at hg

/-- The queue is full, its head is spent, and the next entry evicts it. -/
theorem audit_accounts_evicted : ∃ h s, Run sys h s ∧ s.dropped = [0]
    ∧ s.queue.length ≤ queueCapacity ∧ (∀ e ∈ s.dropped, e ∉ s.log)
    ∧ ∀ e ∈ s.written, e ∈ s.log ∨ e ∈ s.queue ∨ e ∈ s.dropped := by
  obtain ⟨h, hr, hC⟩ := run_full
  have hnext : Run sys (⟨full, .write, write full⟩ :: h) (write full) := hr.next rfl
  have hC' : Along EvictsSpent (⟨full, .write, write full⟩ :: h) := by
    intro t ht
    rcases List.mem_cons.1 ht with rfl | ht
    · rintro e ⟨hh, -⟩
      obtain rfl : 0 = e := Option.some.inj hh
      exact spent_full
    · exact hC t ht
  have hquiet : Quiescent (write full) := by
    intro id
    rw [write, if_neg (by decide), enqueue_eq]
    rfl
  obtain ⟨hshort, haccounts⟩ := audit_accounts hnext
  exact ⟨_, _, hnext, by decide +kernel, hshort, (haccounts hC').1,
    (haccounts hC').2 hquiet⟩

/-- A drain is at work on the head of a full queue when a write that gives up evicts it. The drain
then inserts the evicted entry, and shifts another one, which is lost: it is not stored, not queued
and not counted, while the first is both stored and counted. -/
theorem eviction_under_drain : ∃ h s, Run sys h s ∧ Quiescent s ∧ 0 ∈ s.dropped ∧ 0 ∈ s.log
    ∧ 1 ∈ s.written ∧ 1 ∉ s.log ∧ 1 ∉ s.queue ∧ 1 ∉ s.dropped := by
  obtain ⟨h, hr, -⟩ := run_full
  obtain ⟨h', s, hr', hp⟩ := Sys.exists_run_from
    [.tick, .selected 1 true, .write, .decide 5 false, .resume 2, .wake 2, .decide 6 false,
      .resume 2, .wake 2, .decide 7 false, .resume 2, .wake 2, .decide 8 false, .resume 2,
      .decide 4 true, .resume 1]
    (g := []) (p := fun s : State => decide (s.calls.entries = [] ∧ 0 ∈ s.dropped ∧ 0 ∈ s.log
      ∧ 1 ∈ s.written ∧ 1 ∉ s.log ∧ 1 ∉ s.queue ∧ 1 ∉ s.dropped)) hr (by decide +kernel)
  obtain ⟨hq, hrest⟩ := of_decide_eq_true hp
  exact ⟨h', s, hr', quiescent_of hq, hrest⟩

end Accounts

end AuditLogger

end VeriNode
