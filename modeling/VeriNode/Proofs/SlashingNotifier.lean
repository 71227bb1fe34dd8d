import VeriNode.Notifications.SlashingNotifier
import VeriNode.Proofs.DeliveryStore
import Mathlib.Logic.Function.Basic

/-!
# A slashing notification is delivered at most once

What the operations of either store do to the status of a key is said once (`Tracks`), and from it
what a step of a delivery may do (`Turn`). While the store does not fail, a key is `delivering`
where one delivery holds it, from its claim to its mark (`Inv`), so that sends never overlap and
none follows one that succeeded.
-/

namespace VeriNode

namespace Notifications

section Stores

abbrev Key := String × NotificationChannel

/-- A claim is granted. -/
def Free (status : Option NotificationDeliveryStatus) : Prop :=
  status ≠ some .delivering ∧ status ≠ some .delivered

instance (status : Option NotificationDeliveryStatus) : Decidable (Free status) :=
  inferInstanceAs (Decidable (_ ∧ _))

variable {σ : Type}

/-- What the operations of a store do to the status of each key. -/
structure Tracks (store : NotificationDeliveryStore σ)
    (status : σ → Key → Option NotificationDeliveryStatus) : Prop where
  empty (k : Key) : status store.empty k = none
  get (e : String) (ch : NotificationChannel) (now : ℤ) (rows : σ) :
    (store.call (.getDelivery e ch) now rows).2 = rows
      ∧ ((store.call (.getDelivery e ch) now rows).1 = .rejected
        ∨ ∃ r, (store.call (.getDelivery e ch) now rows).1 = .record r
          ∧ r.map (·.status) = status rows (e, ch))
  claim (e : String) (ch : NotificationChannel) (n : String) (now : ℤ) (rows : σ) :
    let replied := store.call (.claimDelivery e ch n) now rows
    (replied.1 = .rejected ∧ replied.2 = rows)
      ∨ (replied.1 = .record none ∧ replied.2 = rows ∧ ¬ Free (status rows (e, ch)))
      ∨ ∃ r, replied.1 = .record (some r) ∧ Free (status rows (e, ch))
        ∧ status replied.2 = Function.update (status rows) (e, ch) (some .delivering)
  delivered (e : String) (ch : NotificationChannel) (now : ℤ) (rows : σ) :
    let replied := store.call (.markDelivered e ch) now rows
    (replied.1 = .rejected ∧ replied.2 = rows)
      ∨ (replied.1 = .void ∧ status replied.2 = Function.update (status rows) (e, ch)
        ((status rows (e, ch)).map fun _ => .delivered))
  failed (e : String) (ch : NotificationChannel) (error : Thrown) (now : ℤ) (rows : σ) :
    let replied := store.call (.markFailed e ch error) now rows
    (replied.1 = .rejected ∧ replied.2 = rows)
      ∨ ((replied.1 = .rejected ∨ replied.1 = .void)
        ∧ status replied.2 = Function.update (status rows) (e, ch)
          ((status rows (e, ch)).map fun _ => .failed))

def Pg.status (table : Pg.Table) (k : Key) : Option NotificationDeliveryStatus :=
  (table.get k).map (·.status)

def Memory.status (records : Memory.Records) (k : Key) : Option NotificationDeliveryStatus :=
  (records.get (Memory.key k.1 k.2)).map (·.status)

theorem update_map_none {f : Key → Option NotificationDeliveryStatus} {k : Key}
    {g : NotificationDeliveryStatus → NotificationDeliveryStatus} (h : f k = none) :
    Function.update f k ((f k).map g) = f := by
  rw [h, Option.map_none, ← h, Function.update_eq_self]

theorem Pg.status_set (table : Pg.Table) (k : Key) (row : Pg.DeliveryRow) :
    Pg.status (table.set k row) = Function.update (Pg.status table) k (some row.status) := by
  funext k'
  by_cases h : k' = k
  · rw [h, Function.update_self, Pg.status, OrdMap.get_set_self, Option.map_some]
  · rw [Function.update_of_ne h, Pg.status, OrdMap.get_set_of_ne _ _ h, Pg.status]

theorem Pg.status_update (table : Pg.Table) (e : String) (ch : NotificationChannel)
    {f : Pg.DeliveryRow → Pg.DeliveryRow} {status : NotificationDeliveryStatus}
    (hf : ∀ row, (f row).status = status) :
    Pg.status (Pg.update e ch f table) = Function.update (Pg.status table) (e, ch)
      ((Pg.status table (e, ch)).map fun _ => status) := by
  rcases hrow : table.get (e, ch) with _ | row
  · have hnone : Pg.status table (e, ch) = none := by rw [Pg.status, hrow, Option.map_none]
    rw [update_map_none hnone, Pg.update, hrow]
  · have hsome : Pg.status table (e, ch) = some row.status := by
      rw [Pg.status, hrow, Option.map_some]
    rw [Pg.update, hrow, hsome, Option.map_some, Pg.status_set, hf]

theorem free_none : Free none := by decide

theorem free_of_retried {status : NotificationDeliveryStatus}
    (h : status = .pending ∨ status = .failed) : Free (some status) := by
  rcases h with rfl | rfl <;> decide

theorem pg_tracks : Tracks pgStore Pg.status where
  empty _ := rfl
  get e ch now rows := by
    simp only [pgStore, Pg.call]
    split_ifs
    · refine ⟨rfl, .inr ⟨_, rfl, ?_⟩⟩
      rw [Option.map_map]
      rfl
    · exact ⟨rfl, .inl rfl⟩
  claim e ch n now rows := by
    simp only [pgStore, Pg.call]
    split_ifs
    · rcases hrow : rows.get (e, ch) with _ | row
      · have hfree : Free (Pg.status rows (e, ch)) := by
          rw [Pg.status, hrow]
          exact free_none
        rw [Pg.upsert, hrow]
        dsimp only
        split_ifs
        · exact .inl ⟨rfl, rfl⟩
        · exact .inr (.inr ⟨_, rfl, hfree, Pg.status_set _ _ _⟩)
      · have hstatus : Pg.status rows (e, ch) = some row.status := by rw [Pg.status, hrow]; rfl
        rw [Pg.upsert, hrow, hstatus]
        by_cases hfree : row.status = .pending ∨ row.status = .failed
        · simp only [hfree, if_true]
          split_ifs
          · exact .inr (.inr ⟨_, rfl, free_of_retried hfree, Pg.status_set _ _ _⟩)
          · exact .inl ⟨rfl, rfl⟩
        · simp only [hfree, if_false]
          refine .inr (.inl ⟨trivial, trivial, fun h => ?_⟩)
          rcases hs : row.status with _ | _ | _ | _
          · exact hfree (.inl hs)
          · exact h.1 (congrArg some hs)
          · exact h.2 (congrArg some hs)
          · exact hfree (.inr hs)
    · exact .inl ⟨rfl, rfl⟩
  delivered e ch now rows := by
    simp only [pgStore, Pg.call]
    split_ifs
    · exact .inr ⟨rfl, Pg.status_update rows e ch fun _ => rfl⟩
    · exact .inl ⟨rfl, rfl⟩
  failed e ch error now rows := by
    simp only [pgStore, Pg.call]
    rcases errorMessage error with _ | message
    · exact .inl ⟨rfl, rfl⟩
    · dsimp only
      split_ifs
      · exact .inr ⟨.inr rfl, Pg.status_update rows e ch fun _ => rfl⟩
      · exact .inl ⟨rfl, rfl⟩

theorem Memory.status_set (records : Memory.Records) (e : String) (ch : NotificationChannel)
    (record : NotificationDeliveryRecord) :
    Memory.status (records.set (Memory.key e ch) record)
      = Function.update (Memory.status records) (e, ch) (some record.status) := by
  funext k
  by_cases h : k = (e, ch)
  · rw [h, Function.update_self, Memory.status, OrdMap.get_set_self, Option.map_some]
  · have hne : Memory.key k.1 k.2 ≠ Memory.key e ch := fun hk =>
      h (Prod.ext_iff.2 (Memory.key_inj.1 hk))
    rw [Function.update_of_ne h, Memory.status, OrdMap.get_set_of_ne _ _ hne, Memory.status]

theorem Memory.status_assign (records : Memory.Records) (e : String) (ch : NotificationChannel)
    {f : NotificationDeliveryRecord → NotificationDeliveryRecord}
    {status : NotificationDeliveryStatus} (hf : ∀ record, (f record).status = status) :
    Memory.status (Memory.assign e ch f records) = Function.update (Memory.status records) (e, ch)
      ((Memory.status records (e, ch)).map fun _ => status) := by
  rcases hrecord : records.get (Memory.key e ch) with _ | record
  · have hnone : Memory.status records (e, ch) = none := by
      rw [Memory.status, hrecord, Option.map_none]
    rw [update_map_none hnone, Memory.assign, hrecord]
  · have hsome : Memory.status records (e, ch) = some record.status := by
      rw [Memory.status, hrecord, Option.map_some]
    rw [Memory.assign, hrecord, hsome, Option.map_some, Memory.status_set, hf]

theorem memory_tracks : Tracks memoryStore Memory.status where
  empty _ := rfl
  get e ch now rows := ⟨rfl, .inr ⟨_, rfl, rfl⟩⟩
  claim e ch n now rows := by
    simp only [memoryStore, Memory.call]
    rcases hrecord : rows.get (Memory.key e ch) with _ | record
    · have hfree : Free (Memory.status rows (e, ch)) := by
        rw [Memory.status, hrecord]
        exact free_none
      exact .inr (.inr ⟨_, rfl, hfree, Memory.status_set _ _ _ _⟩)
    · have hstatus : Memory.status rows (e, ch) = some record.status := by
        rw [Memory.status, hrecord]
        rfl
      rw [hstatus, Memory.claim, Option.any_some]
      split_ifs with hheld
      · refine .inr (.inl ⟨rfl, rfl, fun h => ?_⟩)
        simp only [Bool.or_eq_true, decide_eq_true_eq] at hheld
        rcases hheld with hs | hs
        · exact h.2 (congrArg some hs)
        · exact h.1 (congrArg some hs)
      · refine .inr (.inr ⟨_, rfl, ?_, Memory.status_set _ _ _ _⟩)
        simp only [Bool.or_eq_true, decide_eq_true_eq, not_or] at hheld
        exact ⟨fun h => hheld.2 (Option.some.inj h), fun h => hheld.1 (Option.some.inj h)⟩
  delivered e ch now rows := .inr ⟨rfl, Memory.status_assign rows e ch fun _ => rfl⟩
  failed e ch error now rows := by
    simp only [memoryStore, Memory.call]
    split_ifs with hnone
    · have hstatus : Memory.status rows (e, ch) = none := by
        rw [Memory.status, Option.isNone_iff_eq_none.1 hnone, Option.map_none]
      exact .inr ⟨.inr rfl, (update_map_none hstatus).symm⟩
    · rcases errorMessage error with _ | message
      · exact .inr ⟨.inl rfl, Memory.status_assign rows e ch fun _ => rfl⟩
      · exact .inr ⟨.inr rfl, Memory.status_assign rows e ch fun _ => rfl⟩

def Backend.status : (b : Backend) → b.Rows → Key → Option NotificationDeliveryStatus
  | .pg => Pg.status
  | .memory => Memory.status

theorem Backend.tracks : ∀ b : Backend, Tracks b.store b.status
  | .pg => pg_tracks
  | .memory => memory_tracks

end Stores

namespace SlashingNotifier

section Turns

/-- What the operation of an event is asked with. -/
def Event.request : Event → Option (ℤ × Fault × Thrown)
  | .read now fault error => some (now, fault, error)
  | .claim now fault error => some (now, fault, error)
  | .markDelivered now fault error => some (now, fault, error)
  | .markFailed now fault error => some (now, fault, error)
  | _ => none

/-- The delivery holds the row of its key. -/
def Phase.holds : Phase → Bool
  | .claimed _ _ => true
  | .sending _ _ => true
  | .marking _ => true
  | .failing _ _ => true
  | _ => false

/-- What a step of a delivery may do to its phase and to the statuses, where `bad` says that its
process stops or an operation fails. -/
inductive Turn (k : Key) (maxRetries : JsNumber) (bad : Prop)
    (st : Key → Option NotificationDeliveryStatus) :
    Phase → Event → Phase → (Key → Option NotificationDeliveryStatus) → Prop
  | readOn (now fault error) : st k ≠ some .delivered →
      Turn k maxRetries bad st .reading (.read now fault error) (enter maxRetries 0 none) st
  | readSkip (now fault error) : st k = some .delivered →
      Turn k maxRetries bad st .reading (.read now fault error) (.settled .skipped) st
  | readBroken (now fault error) : bad →
      Turn k maxRetries bad st .reading (.read now fault error) (.settled (.broken error)) st
  | granted (attempt notificationId now fault error) : Free (st k) →
      Turn k maxRetries bad st (.claiming attempt) (.claim now fault error)
        (.claimed attempt notificationId) (Function.update st k (some .delivering))
  | denied (attempt now fault error) : ¬ Free (st k) →
      Turn k maxRetries bad st (.claiming attempt) (.claim now fault error) (.settled .skipped) st
  | claimBroken (attempt now fault error) : bad →
      Turn k maxRetries bad st (.claiming attempt) (.claim now fault error)
        (.settled (.broken error)) st
  | claimCut (attempt now error) : bad → Free (st k) →
      Turn k maxRetries bad st (.claiming attempt) (.claim now .cut error)
        (.settled (.broken error)) (Function.update st k (some .delivering))
  | send (attempt notificationId) :
      Turn k maxRetries bad st (.claimed attempt notificationId) .send
        (.sending attempt notificationId) st
  | sent (attempt notificationId) :
      Turn k maxRetries bad st (.sending attempt notificationId) (.sent none) (.marking attempt) st
  | unsent (attempt notificationId error) :
      Turn k maxRetries bad st (.sending attempt notificationId) (.sent (some error))
        (.failing attempt error) st
  | marked (attempt now fault error) :
      Turn k maxRetries bad st (.marking attempt) (.markDelivered now fault error)
        (.settled .delivered) (Function.update st k ((st k).map fun _ => .delivered))
  | unmarked (attempt now fault error st') : bad →
      st' = st ∨ st' = Function.update st k ((st k).map fun _ => .delivered) →
      Turn k maxRetries bad st (.marking attempt) (.markDelivered now fault error)
        (.failing attempt error) st'
  | failed (attempt cause now fault error) :
      Turn k maxRetries bad st (.failing attempt cause) (.markFailed now fault error)
        (afterFailed maxRetries attempt cause)
        (Function.update st k ((st k).map fun _ => .failed))
  | failedBroken (attempt cause now fault error st') : bad →
      st' = st ∨ st' = Function.update st k ((st k).map fun _ => .failed) →
      Turn k maxRetries bad st (.failing attempt cause) (.markFailed now fault error)
        (.settled (.broken error)) st'
  | wake (attempt lastError) :
      Turn k maxRetries bad st (.sleeping attempt lastError) .wake
        (enter maxRetries (attempt + 1) (some lastError)) st
  | stop (phase) : bad → (∀ outcome, phase ≠ .settled outcome) → phase ≠ .stopped →
      Turn k maxRetries bad st phase .stop .stopped st

variable {σ : Type} {store : NotificationDeliveryStore σ} {sha256 : String → String}
  {status : σ → Key → Option NotificationDeliveryStatus} {id : DeliveryId} {delivery : Delivery}
  {rows rows' : σ} {event : Event} {phase : Phase}

/-- The process stops, or the operation it makes fails. -/
def disturbed (store : NotificationDeliveryStore σ) (sha256 : String → String) (id : DeliveryId)
    (phase : Phase) (rows : σ) : Event → Bool
  | .stop => true
  | event =>
    match event.request, operation sha256 id phase with
    | some (now, fault, _), some call => fault ≠ .fine || (store.call call now rows).1 = .rejected
    | _, _ => false

theorem perform_cases (store : NotificationDeliveryStore σ) (call : Call) (now : ℤ) (fault : Fault)
    (rows : σ) :
    perform store call now fault rows = store.call call now rows
      ∨ (perform store call now fault rows).1 = .rejected ∧ fault ≠ .fine
        ∧ ((perform store call now fault rows).2 = rows
          ∨ (perform store call now fault rows).2 = (store.call call now rows).2 ∧ fault = .cut) := by
  cases fault with
  | fine => exact .inl rfl
  | refused => exact .inr ⟨rfl, nofun, .inl rfl⟩
  | cut => exact .inr ⟨rfl, nofun, .inr ⟨rfl, rfl⟩⟩

theorem ask_eq {now : ℤ} {fault : Fault} {error : Thrown}
    (h : ask store sha256 id delivery now fault error rows = some (phase, rows')) :
    ∃ call, operation sha256 id delivery.phase = some call
      ∧ phase = afterReply delivery.maxRetries error delivery.phase
        (perform store call now fault rows).1
      ∧ rows' = (perform store call now fault rows).2 := by
  obtain ⟨call, hcall, he⟩ := Option.map_eq_some_iff.1 h
  obtain ⟨rfl, rfl⟩ := Prod.mk.inj he
  exact ⟨call, hcall, rfl, rfl⟩

/-- The operation is disturbed, or the store rejects it. -/
def Broken (store : NotificationDeliveryStore σ) (call : Call) (now : ℤ) (fault : Fault)
    (rows : σ) : Prop :=
  fault ≠ .fine ∨ (store.call call now rows).1 = .rejected

theorem disturbed_of_broken {event : Event} {now : ℤ} {fault : Fault} {error : Thrown} {call : Call}
    (hr : event.request = some (now, fault, error)) (ho : operation sha256 id phase = some call)
    (hb : Broken store call now fault rows) : disturbed store sha256 id phase rows event = true := by
  cases event <;> cases hr <;> simpa [disturbed, Event.request, ho, Broken] using hb

theorem perform_get (ht : Tracks store status) (e : String) (ch : NotificationChannel)
    (now : ℤ) (fault : Fault) (rows : σ) :
    let performed := perform store (.getDelivery e ch) now fault rows
    performed.2 = rows
      ∧ (performed.1 = .rejected ∧ Broken store (.getDelivery e ch) now fault rows
        ∨ ∃ r, performed.1 = .record r ∧ r.map (·.status) = status rows (e, ch)) := by
  intro performed
  obtain ⟨hrows, hreply⟩ := ht.get e ch now rows
  rcases perform_cases store (.getDelivery e ch) now fault rows with he | ⟨hrej, hfault, hsame⟩
  · refine ⟨(congrArg Prod.snd he).trans hrows, ?_⟩
    rcases hreply with hrej | ⟨r, hr, hst⟩
    · exact .inl ⟨(congrArg Prod.fst he).trans hrej, .inr hrej⟩
    · exact .inr ⟨r, (congrArg Prod.fst he).trans hr, hst⟩
  · exact ⟨hsame.elim (fun h => h) fun h => h.1.trans hrows, .inl ⟨hrej, .inl hfault⟩⟩

theorem perform_claim (ht : Tracks store status) (e : String) (ch : NotificationChannel)
    (n : String) (now : ℤ) (fault : Fault) (rows : σ) :
    let performed := perform store (.claimDelivery e ch n) now fault rows
    (performed.1 = .rejected ∧ Broken store (.claimDelivery e ch n) now fault rows
        ∧ (performed.2 = rows ∨ fault = .cut ∧ Free (status rows (e, ch))
          ∧ status performed.2 = Function.update (status rows) (e, ch) (some .delivering)))
      ∨ (performed.1 = .record none ∧ performed.2 = rows ∧ ¬ Free (status rows (e, ch)))
      ∨ ∃ r, performed.1 = .record (some r) ∧ Free (status rows (e, ch))
        ∧ status performed.2 = Function.update (status rows) (e, ch) (some .delivering) := by
  intro performed
  have hclaim := ht.claim e ch n now rows
  rcases perform_cases store (.claimDelivery e ch n) now fault rows with he | ⟨hrej, hfault, hsame⟩
  · simp only [performed, he]
    rcases hclaim with ⟨hr, hrows⟩ | hheld | hgranted
    · exact .inl ⟨hr, .inr hr, .inl hrows⟩
    · exact .inr (.inl hheld)
    · exact .inr (.inr hgranted)
  · refine .inl ⟨hrej, .inl hfault, ?_⟩
    rcases hsame with hsame | ⟨hsame, hcut⟩
    · exact .inl hsame
    · rcases hclaim with ⟨-, hrows⟩ | ⟨-, hrows, -⟩ | ⟨r, -, hfree, hst⟩
      · exact .inl (hsame.trans hrows)
      · exact .inl (hsame.trans hrows)
      · exact .inr ⟨hcut, hfree, (congrArg status hsame).trans hst⟩

theorem perform_mark {call : Call} {now : ℤ} {st : Key → Option NotificationDeliveryStatus}
    (hmark : ((store.call call now rows).1 = .rejected ∧ (store.call call now rows).2 = rows)
      ∨ ((store.call call now rows).1 = .rejected ∨ (store.call call now rows).1 = .void)
        ∧ status (store.call call now rows).2 = st) (fault : Fault) :
    let performed := perform store call now fault rows
    (performed.1 = .rejected ∧ Broken store call now fault rows
        ∧ (status performed.2 = status rows ∨ status performed.2 = st))
      ∨ performed.1 = .void ∧ status performed.2 = st := by
  intro performed
  rcases perform_cases store call now fault rows with he | ⟨hrej, hfault, hsame⟩
  · simp only [performed, he]
    rcases hmark with ⟨hr, hrows⟩ | ⟨hr | hr, hst⟩
    · exact .inl ⟨hr, .inr hr, .inl (congrArg status hrows)⟩
    · exact .inl ⟨hr, .inr hr, .inr hst⟩
    · exact .inr ⟨hr, hst⟩
  · refine .inl ⟨hrej, .inl hfault, ?_⟩
    rcases hsame with hsame | ⟨hsame, -⟩
    · exact .inl (congrArg status hsame)
    · simp only [performed, hsame]
      exact hmark.imp (fun h => congrArg status h.2) fun h => h.2

/-- Every step of a delivery is a turn. -/
theorem advance_turn (ht : Tracks store status)
    (h : advance store sha256 id delivery rows event = some (phase, rows')) :
    Turn id.key delivery.maxRetries (disturbed store sha256 id delivery.phase rows event = true)
      (status rows) delivery.phase event phase (status rows') := by
  obtain ⟨m, p⟩ := delivery
  cases event with
  | read now fault error =>
    cases p <;> simp only [advance, reduceCtorEq] at h
    obtain ⟨call, hcall, rfl, rfl⟩ := ask_eq h
    obtain rfl := Option.some.inj hcall
    obtain ⟨hrows, ⟨hrej, hb⟩ | ⟨r, hr, hst⟩⟩ :=
      perform_get ht id.slashingEventId id.channel now fault rows
    · rw [hrej, hrows]
      exact .readBroken _ _ _ (disturbed_of_broken rfl rfl hb)
    · rw [hr, hrows]
      rcases r with _ | existing
      · exact .readOn _ _ _ (hst.symm ▸ nofun)
      · have hk : status rows id.key = some existing.status := hst.symm
        simp only [afterReply]
        split_ifs with hd
        · exact .readSkip _ _ _ (hk.trans (congrArg some hd))
        · exact .readOn _ _ _ fun h => hd (Option.some.inj (hk.symm.trans h))
  | claim now fault error =>
    cases p <;> simp only [advance, reduceCtorEq] at h
    obtain ⟨call, hcall, rfl, rfl⟩ := ask_eq h
    obtain rfl := Option.some.inj hcall
    rcases perform_claim ht id.slashingEventId id.channel
      (notificationIdFor sha256 id.slashingEventId id.channel) now fault rows
      with ⟨hrej, hb, hrows | ⟨rfl, hfree, hst⟩⟩ | ⟨hr, hrows, hheld⟩ | ⟨r, hr, hfree, hst⟩
    · rw [hrej, hrows]
      exact .claimBroken _ _ _ _ (disturbed_of_broken rfl rfl hb)
    · rw [hrej, hst]
      exact .claimCut _ _ _ (disturbed_of_broken rfl rfl hb) hfree
    · rw [hr, hrows]
      exact .denied _ _ _ _ hheld
    · rw [hr, hst]
      exact .granted _ _ _ _ _ hfree
  | send =>
    cases p <;> simp only [advance, reduceCtorEq, Option.some.injEq, Prod.mk.injEq] at h
    obtain ⟨rfl, rfl⟩ := h
    exact .send _ _
  | sent error =>
    cases p <;> cases error <;> simp only [advance, reduceCtorEq, Option.some.injEq,
      Prod.mk.injEq] at h
    · obtain ⟨rfl, rfl⟩ := h
      exact .sent _ _
    · obtain ⟨rfl, rfl⟩ := h
      exact .unsent _ _ _
  | markDelivered now fault error =>
    cases p <;> simp only [advance, reduceCtorEq] at h
    obtain ⟨call, hcall, rfl, rfl⟩ := ask_eq h
    obtain rfl := Option.some.inj hcall
    rcases perform_mark ((ht.delivered id.slashingEventId id.channel now rows).imp_right
      fun h => ⟨.inr h.1, h.2⟩) fault with ⟨hrej, hb, hst⟩ | ⟨hr, hst⟩
    · rw [hrej]
      exact .unmarked _ _ _ _ _ (disturbed_of_broken rfl rfl hb) hst
    · rw [hr, hst]
      exact .marked _ _ _ _
  | markFailed now fault error =>
    cases p <;> simp only [advance, reduceCtorEq] at h
    obtain ⟨call, hcall, rfl, rfl⟩ := ask_eq h
    obtain rfl := Option.some.inj hcall
    rcases perform_mark (ht.failed id.slashingEventId id.channel _ now rows) fault
      with ⟨hrej, hb, hst⟩ | ⟨hr, hst⟩
    · rw [hrej]
      exact .failedBroken _ _ _ _ _ _ (disturbed_of_broken rfl rfl hb) hst
    · rw [hr, hst]
      exact .failed _ _ _ _ _
  | wake =>
    cases p <;> simp only [advance, reduceCtorEq, Option.some.injEq, Prod.mk.injEq] at h
    obtain ⟨rfl, rfl⟩ := h
    exact .wake _ _
  | stop =>
    cases p <;> simp only [advance, reduceCtorEq, Option.some.injEq, Prod.mk.injEq] at h <;>
      obtain ⟨rfl, rfl⟩ := h <;> exact .stop _ rfl nofun nofun

section Statuses

variable {k k' : Key} {m : JsNumber} {bad : Prop}
  {st st' : Key → Option NotificationDeliveryStatus} {p p' : Phase} {n : ℕ} {error : Thrown}
  {lastError : Option Thrown}

theorem enter_cases (m : JsNumber) (attempt : ℕ) (lastError : Option Thrown) :
    (enter m attempt lastError = .claiming attempt ∧ (JsNumber.ofNat attempt).le m = true)
      ∨ enter m attempt lastError = .settled (.undelivered lastError) := by
  unfold enter
  split_ifs with h
  · exact .inl ⟨rfl, h⟩
  · exact .inr rfl

theorem afterFailed_cases (m : JsNumber) (attempt : ℕ) (error : Thrown) :
    afterFailed m attempt error = .settled (.undelivered (some error))
      ∨ afterFailed m attempt error = .sleeping attempt error := by
  unfold afterFailed
  split_ifs
  · exact .inl rfl
  · exact .inr rfl

theorem enter_holds : (enter m n lastError).holds = false := by
  rcases enter_cases m n lastError with ⟨h, -⟩ | h <;> rw [h] <;> rfl

theorem afterFailed_holds : (afterFailed m n error).holds = false := by
  rcases afterFailed_cases m n error with h | h <;> rw [h] <;> rfl

theorem Turn.frame (h : Turn k m bad st p event p' st') (hk : k' ≠ k) : st' k' = st k' := by
  cases h with
  | granted | claimCut | marked | failed => exact Function.update_of_ne hk _ _
  | unmarked _ _ _ _ _ _ hst => 
    rcases hst with rfl | rfl
    · rfl
    · exact Function.update_of_ne hk _ _
  | failedBroken _ _ _ _ _ _ _ hst => 
    rcases hst with rfl | rfl
    · rfl
    · exact Function.update_of_ne hk _ _
  | _ => rfl

theorem Turn.kept (h : Turn k m bad st p event p' st') (hp : p.holds = false)
    (hk : st k = some .delivering) : st' = st ∧ p'.holds = false := by
  cases h with
  | granted _ _ _ _ _ hfree => exact absurd hk hfree.1
  | claimCut _ _ _ _ hfree => exact absurd hk hfree.1
  | readOn | wake => exact ⟨rfl, enter_holds⟩
  | send | sent | unsent | marked | unmarked | failed | failedBroken => cases hp
  | _ => exact ⟨rfl, rfl⟩

theorem Turn.taken (h : Turn k m bad st p event p' st') (hp : p'.holds = true) :
    p.holds = true ∨ Free (st k) ∧ st' k = some .delivering := by
  cases h with
  | granted _ _ _ _ _ hfree => exact .inr ⟨hfree, Function.update_self ..⟩
  | readOn | wake => rw [enter_holds] at hp; cases hp
  | failed => rw [afterFailed_holds] at hp; cases hp
  | send | sent | unsent | unmarked => exact .inl rfl
  | _ => cases hp

theorem Turn.held (h : Turn k m bad st p event p' st') (hbad : ¬ bad) (hp : p.holds = true)
    (hp' : p'.holds = true) : st' = st := by
  cases h with
  | granted | claimCut => cases hp
  | marked => cases hp'
  | failed => rw [afterFailed_holds] at hp'; cases hp'
  | unmarked _ _ _ _ _ hb => exact absurd hb hbad
  | failedBroken _ _ _ _ _ _ hb => exact absurd hb hbad
  | _ => rfl

theorem Turn.delivered_by (h : Turn k m bad st p event p' st') (hk : st' k' = some .delivered) :
    st k' = some .delivered ∨ k' = k ∧ ∃ attempt, p = .marking attempt := by
  by_cases hkk : k' = k
  · subst hkk
    have hfailed : (st k').map (fun _ => NotificationDeliveryStatus.failed) ≠ some .delivered := by
      rcases st k' with _ | x
      · exact nofun
      · exact nofun
    cases h with
    | granted => rw [Function.update_self] at hk; cases hk
    | claimCut => rw [Function.update_self] at hk; cases hk
    | marked => exact .inr ⟨rfl, _, rfl⟩
    | unmarked => exact .inr ⟨rfl, _, rfl⟩
    | failed => rw [Function.update_self] at hk; exact absurd hk hfailed
    | failedBroken _ _ _ _ _ _ _ hst =>
      rcases hst with rfl | rfl
      · exact .inl hk
      · rw [Function.update_self] at hk
        exact absurd hk hfailed
    | _ => exact .inl hk
  · exact .inl (h.frame hkk ▸ hk)

theorem Turn.stays (h : Turn k m bad st p event p' st') (hbad : ¬ bad)
    (hheld : p.holds = true → st k = some .delivering) :
    (st k = some .delivered → st' k = some .delivered)
      ∧ ∀ attempt, p = .marking attempt → st' k = some .delivered := by
  constructor
  · intro hk
    cases h with
    | granted _ _ _ _ _ hfree => exact absurd hk hfree.2
    | claimCut _ _ _ _ hfree => exact absurd hk hfree.2
    | marked => rw [Function.update_self, hk]; rfl
    | unmarked _ _ _ _ _ hb => exact absurd hb hbad
    | failed => rw [hheld rfl] at hk; cases hk
    | failedBroken _ _ _ _ _ _ hb => exact absurd hb hbad
    | _ => exact hk
  · rintro attempt rfl
    have hk := hheld rfl
    cases h with
    | marked => rw [Function.update_self, hk]; rfl
    | unmarked _ _ _ _ _ hb => exact absurd hb hbad
    | stop _ hb => exact absurd hb hbad

theorem Turn.own (h : Turn k m bad st p event p' st')
    (hp : (∃ attempt, p' = .marking attempt) ∨ p' = .settled .delivered) :
    event = .sent none ∨ ∃ attempt, p = .marking attempt := by
  cases h with
  | sent => exact .inl rfl
  | marked => exact .inr ⟨_, rfl⟩
  | readOn => rcases enter_cases m 0 none with ⟨he, -⟩ | he <;> simp [he] at hp
  | wake => rename_i n e; rcases enter_cases m (n + 1) (some e) with ⟨he, -⟩ | he <;> simp [he] at hp
  | failed => rename_i n e _ _ _; rcases afterFailed_cases m n e with he | he <;> simp [he] at hp
  | _ => simp at hp

end Statuses

end Turns

section Attempts

variable {k : Key} {m : JsNumber} {bad : Prop}
  {st st' : Key → Option NotificationDeliveryStatus} {p p' : Phase} {event : Event} {n : ℕ}

/-- How many sends a delivery may have started. -/
def Phase.tried (m : JsNumber) (n : ℕ) : Phase → Prop
  | .reading => n = 0 ∧ (JsNumber.ofNat 0).le m = true
  | .claiming attempt => n ≤ attempt ∧ (JsNumber.ofNat attempt).le m = true
  | .claimed attempt _ => n ≤ attempt ∧ (JsNumber.ofNat attempt).le m = true
  | .sending attempt _ => n ≤ attempt + 1 ∧ (JsNumber.ofNat attempt).le m = true
  | .marking attempt => n ≤ attempt + 1 ∧ (JsNumber.ofNat attempt).le m = true
  | .failing attempt _ => n ≤ attempt + 1 ∧ (JsNumber.ofNat attempt).le m = true
  | .sleeping attempt _ => n ≤ attempt + 1 ∧ (JsNumber.ofNat attempt).le m = true
  | .settled _ => ((JsNumber.ofNat n).sub 1).le m = true
  | .stopped => ((JsNumber.ofNat n).sub 1).le m = true

theorem sub_one_le {attempt : ℕ} (hn : n ≤ attempt + 1)
    (h : (JsNumber.ofNat attempt).le m = true) : ((JsNumber.ofNat n).sub 1).le m = true := by
  have hq : ((n : ℚ) - (1 : ℕ)) ≤ attempt := by
    rw [sub_le_iff_le_add]
    exact_mod_cast hn
  rw [JsNumber.ofNat_eq]
  rcases m with _ | _ | _ | q
  · simp [JsNumber.le, JsNumber.ofNat, JsNumber.lt, JsNumber.strictEq] at h
  · simp [JsNumber.le, JsNumber.ofNat, JsNumber.lt, JsNumber.strictEq] at h
  · rfl
  · simp only [JsNumber.ofNat, JsNumber.le_fin, JsNumber.sub] at h ⊢
    exact hq.trans h

theorem Phase.tried.bound (h : p.tried m n) : ((JsNumber.ofNat n).sub 1).le m = true := by
  cases p with
  | settled | stopped => exact h
  | reading => exact sub_one_le (Nat.le_succ_of_le h.1.le) h.2
  | claiming | claimed => exact sub_one_le (Nat.le_succ_of_le h.1) h.2
  | sending | marking | failing | sleeping => exact sub_one_le h.1 h.2

theorem enter_tried {attempt : ℕ} {lastError : Option Thrown} (hn : n ≤ attempt)
    (h : ((JsNumber.ofNat n).sub 1).le m = true) : (enter m attempt lastError).tried m n := by
  rcases enter_cases m attempt lastError with ⟨he, hle⟩ | he <;> rw [he]
  · exact ⟨hn, hle⟩
  · exact h

theorem Turn.tried (h : Turn k m bad st p event p' st') (hp : p.tried m n) :
    p'.tried m (if event = .send then n + 1 else n) := by
  cases h with
  | send => exact ⟨Nat.succ_le_succ hp.1, hp.2⟩
  | readOn => exact enter_tried hp.1.le hp.bound
  | wake => exact enter_tried hp.1 hp.bound
  | failed attempt cause =>
    rcases afterFailed_cases m attempt cause with he | he <;> rw [he]
    · exact hp.bound
    · exact hp
  | granted | sent | unsent | unmarked => exact hp
  | _ => exact hp.bound

end Attempts

section Histories

variable {σ : Type} {h : List (Taken (State σ) Action)} {s s' : State σ} {a : Action}
  {store : NotificationDeliveryStore σ} {sha256 : String → String}

def Action.starts : Action → Option DeliveryId
  | .next id .send => some id
  | _ => none

/-- The delivery whose send succeeds. -/
def Action.succeeds : Action → Option DeliveryId
  | .next id (.sent none) => some id
  | _ => none

/-- The sends started, newest first. -/
def started (h : List (Taken (State σ) Action)) : List DeliveryId := h.filterMap (·.act.starts)

/-- The sends that succeeded, newest first. -/
def succeeded (h : List (Taken (State σ) Action)) : List DeliveryId :=
  h.filterMap (·.act.succeeds)

theorem step_cases (h : step store sha256 s a = some s') :
    (∃ e m, a = .notifySlashing e m ∧ s' = notifySlashing e m s)
      ∨ ∃ id delivery event phase rows', a = .next id event ∧ s.deliveries.get id = some delivery
        ∧ advance store sha256 id delivery s.rows event = some (phase, rows')
        ∧ s' = s.goOn id delivery phase rows' := by
  cases a with
  | notifySlashing e m => exact .inl ⟨e, m, rfl, (Option.some.inj h).symm⟩
  | next id event =>
    simp only [step] at h
    split at h
    · cases h
    · rename_i delivery hd
      obtain ⟨⟨phase, rows'⟩, hadv, rfl⟩ := Option.map_eq_some_iff.1 h
      exact .inr ⟨id, delivery, event, phase, rows', rfl, hd, hadv, rfl⟩

theorem of_get_notify {e : String} {m : JsNumber} {id : DeliveryId} {delivery : Delivery}
    (h : (notifySlashing e m s).deliveries.get id = some delivery) :
    (id.call = s.nextCall ∧ delivery = ⟨m, .reading⟩) ∨ s.deliveries.get id = some delivery := by
  rcases OrdMap.of_get_set h with ⟨rfl, rfl⟩ | ⟨-, h⟩
  · exact .inl ⟨rfl, rfl⟩
  · rcases OrdMap.of_get_set h with ⟨rfl, rfl⟩ | ⟨-, h⟩
    · exact .inl ⟨rfl, rfl⟩
    · exact .inr h

theorem get_notify {e : String} {m : JsNumber} {id : DeliveryId} (h : id.call ≠ s.nextCall) :
    (notifySlashing e m s).deliveries.get id = s.deliveries.get id := by
  have hne : ∀ ch, id ≠ ⟨e, ch, s.nextCall⟩ := fun ch he => h (he ▸ rfl)
  exact (OrdMap.get_set_of_ne _ _ (hne _)).trans (OrdMap.get_set_of_ne _ _ (hne _))

end Histories

section Once

variable {σ : Type} {h : List (Taken (State σ) Action)} {s s' : State σ} {a : Action}
  {store : NotificationDeliveryStore σ} {sha256 : String → String}
  {status : σ → Key → Option NotificationDeliveryStatus}

/-- No operation fails, no process stops, and the retries are not negative. -/
def assumed (store : NotificationDeliveryStore σ) (sha256 : String → String) (s : State σ) :
    Action → Bool
  | .notifySlashing _ maxRetries => (0 : JsNumber).le maxRetries
  | .next id event =>
    (s.deliveries.get id).all fun d => !disturbed store sha256 id d.phase s.rows event

/-- What holds of the deliveries and of the rows. -/
structure Inv (status : σ → Key → Option NotificationDeliveryStatus)
    (h : List (Taken (State σ) Action)) (s : State σ) : Prop where
  known : ∀ id d, s.deliveries.get id = some d → id.call < s.nextCall
  listed : ∀ id, id ∈ started h ∨ id ∈ succeeded h → ∃ d, s.deliveries.get id = some d
  held : ∀ id d, s.deliveries.get id = some d → d.phase.holds = true →
    status s.rows id.key = some .delivering
  alone : ∀ id id' d d', s.deliveries.get id = some d → s.deliveries.get id' = some d' →
    d.phase.holds = true → d'.phase.holds = true → id.key = id'.key → id = id'
  success : ∀ id ∈ succeeded h, status s.rows id.key = some .delivered
    ∨ ∃ d attempt, s.deliveries.get id = some d ∧ d.phase = .marking attempt
  delivered : ∀ k, status s.rows k = some .delivered → ∃ id ∈ succeeded h, id.key = k
  once : ∀ k, ((succeeded h).filter fun id => id.key = k).length ≤ 1
  own : ∀ id d, s.deliveries.get id = some d →
    (∃ attempt, d.phase = .marking attempt) ∨ d.phase = .settled .delivered → id ∈ succeeded h
  tried : ∀ id d, s.deliveries.get id = some d → d.phase.tried d.maxRetries ((started h).count id)

theorem Inv.init (ht : Tracks store status) : Inv status [] ({ rows := store.empty } : State σ) where
  known _ _ hd := nomatch hd
  listed _ hd := by rcases hd with hd | hd <;> cases hd
  held _ _ hd := nomatch hd
  alone _ _ _ _ hd := nomatch hd
  success _ hd := nomatch hd
  delivered k hk := by rw [ht.empty] at hk; cases hk
  once _ := Nat.zero_le _
  own _ _ hd := nomatch hd
  tried _ _ hd := nomatch hd

theorem Inv.notify (hi : Inv status h s) {e : String} {m : JsNumber}
    (hm : (0 : JsNumber).le m = true) :
    Inv status (⟨s, .notifySlashing e m, notifySlashing e m s⟩ :: h) (notifySlashing e m s) where
  known id d hd := by
    rcases of_get_notify hd with ⟨hid, -⟩ | hd
    · exact hid ▸ Nat.lt_succ_self _
    · exact Nat.lt_succ_of_lt (hi.known id d hd)
  listed id hid := by
    obtain ⟨d, hd⟩ := hi.listed id hid
    exact ⟨d, (get_notify (hi.known id d hd).ne).trans hd⟩
  held id d hd hp := by
    rcases of_get_notify hd with ⟨-, rfl⟩ | hd
    · cases hp
    · exact hi.held id d hd hp
  alone id id' d d' hd hd' hp hp' hk := by
    rcases of_get_notify hd with ⟨-, rfl⟩ | hd
    · cases hp
    · rcases of_get_notify hd' with ⟨-, rfl⟩ | hd'
      · cases hp'
      · exact hi.alone id id' d d' hd hd' hp hp' hk
  success id hid := by
    rcases hi.success id hid with hk | ⟨d, attempt, hd, hp⟩
    · exact .inl hk
    · exact .inr ⟨d, attempt, (get_notify (hi.known id d hd).ne).trans hd, hp⟩
  delivered := hi.delivered
  once := hi.once
  own id d hd hp := by
    rcases of_get_notify hd with ⟨-, rfl⟩ | hd
    · rcases hp with ⟨_, hp⟩ | hp <;> cases hp
    · exact hi.own id d hd hp
  tried id d hd := by
    rcases of_get_notify hd with ⟨hid, rfl⟩ | hd
    · refine ⟨List.count_eq_zero.2 fun hmem => ?_, hm⟩
      obtain ⟨d, hd⟩ := hi.listed id (.inl hmem)
      exact absurd (hi.known id d hd) (hid ▸ lt_irrefl _)
    · exact hi.tried id d hd

section Turn

variable {id id' : DeliveryId} {d d' : Delivery} {event : Event} {phase : Phase} {rows' : σ}
  {bad : Prop}

theorem started_next : started (⟨s, .next id event, s'⟩ :: h)
    = if event = .send then id :: started h else started h := by
  cases event <;> rfl

theorem succeeded_next : succeeded (⟨s, .next id event, s'⟩ :: h)
    = if event = .sent none then id :: succeeded h else succeeded h := by
  rcases event with _ | _ | _ | (_ | _) | _ | _ | _ | _ <;> rfl

theorem mem_succeeded_next (hid : id' ∈ succeeded h) :
    id' ∈ succeeded (⟨s, .next id event, s'⟩ :: h) := by
  rw [succeeded_next]
  split_ifs
  · exact List.mem_cons_of_mem _ hid
  · exact hid

theorem of_get_goOn (h : (s.goOn id d phase rows').deliveries.get id' = some d') :
    (id' = id ∧ d' = ⟨d.maxRetries, phase⟩) ∨ (id' ≠ id ∧ s.deliveries.get id' = some d') :=
  OrdMap.of_get_set h

theorem get_goOn_self :
    (s.goOn id d phase rows').deliveries.get id = some ⟨d.maxRetries, phase⟩ :=
  OrdMap.get_set_self ..

theorem get_goOn_of_ne (hne : id' ≠ id) :
    (s.goOn id d phase rows').deliveries.get id' = s.deliveries.get id' :=
  OrdMap.get_set_of_ne _ _ hne

theorem Inv.keeps (hi : Inv status h s) (hd : s.deliveries.get id = some d)
    (ht : Turn id.key d.maxRetries bad (status s.rows) d.phase event phase (status rows'))
    (hd' : s.deliveries.get id' = some d') (hp' : d'.phase.holds = true) (hne : id' ≠ id) :
    status rows' id'.key = some .delivering := by
  have hdel := hi.held id' d' hd' hp'
  by_cases hk : id'.key = id.key
  · have hp : d.phase.holds = false := by
      rw [Bool.eq_false_iff]
      exact fun hp => hne (hi.alone id' id d' d hd' hd hp' hp hk)
    rw [(ht.kept hp (hk ▸ hdel)).1]
    exact hdel
  · rw [ht.frame hk]
    exact hdel

theorem Inv.excludes (hi : Inv status h s) (hd : s.deliveries.get id = some d)
    (ht : Turn id.key d.maxRetries bad (status s.rows) d.phase event phase (status rows'))
    (hd' : s.deliveries.get id' = some d') (hp' : d'.phase.holds = true) (hne : id' ≠ id)
    (hp : phase.holds = true) : id'.key ≠ id.key := by
  intro hk
  have hdel := hk ▸ hi.held id' d' hd' hp'
  rcases ht.taken hp with hp | ⟨hfree, -⟩
  · exact hne (hi.alone id' id d' d hd' hd hp' hp hk)
  · exact hfree.1 hdel

theorem Inv.unsent (hi : Inv status h s) (hd : s.deliveries.get id = some d)
    (hp : d.phase.holds = true) (hm : ∀ attempt, d.phase ≠ .marking attempt)
    (hid' : id' ∈ succeeded h) : id'.key ≠ id.key := by
  intro hk
  rcases hi.success id' hid' with hst | ⟨d', attempt, hd', hp'⟩
  · rw [hk, hi.held id d hd hp] at hst
    cases hst
  · obtain rfl := hi.alone id' id d' d hd' hd (hp' ▸ rfl) hp hk
    obtain rfl := Option.some.inj (hd'.symm.trans hd)
    exact hm attempt hp'

theorem Inv.stays (hi : Inv status h s) (hd : s.deliveries.get id = some d) (hbad : ¬ bad)
    (ht : Turn id.key d.maxRetries bad (status s.rows) d.phase event phase (status rows'))
    (hid' : id' ∈ succeeded h) : status rows' id'.key = some .delivered
      ∨ ∃ d' attempt, (s.goOn id d phase rows').deliveries.get id' = some d'
        ∧ d'.phase = .marking attempt := by
  have hheld : d.phase.holds = true → status s.rows id.key = some .delivering := hi.held id d hd
  rcases hi.success id' hid' with hst | ⟨d', attempt, hd', hp'⟩
  · by_cases hk : id'.key = id.key
    · exact .inl (hk ▸ (ht.stays hbad hheld).1 (hk ▸ hst))
    · exact .inl ((ht.frame hk).trans hst)
  · by_cases he : id' = id
    · subst he
      obtain rfl := Option.some.inj (hd.symm.trans hd')
      exact .inl ((ht.stays hbad hheld).2 attempt hp')
    · exact .inr ⟨d', attempt, (get_goOn_of_ne he).trans hd', hp'⟩

theorem Turn.sent_ends {k : Key} {m : JsNumber} {st st' : Key → Option NotificationDeliveryStatus}
    {p p' : Phase} (ht : Turn k m bad st p (.sent none) p' st') :
    ∃ attempt notificationId, p = .sending attempt notificationId ∧ p' = .marking attempt := by
  cases ht with
  | sent attempt notificationId => exact ⟨attempt, notificationId, rfl, rfl⟩

/-- One turn of a delivery, while nothing fails. -/
theorem Inv.turn (hi : Inv status h s) (hd : s.deliveries.get id = some d) (hbad : ¬ bad)
    (ht : Turn id.key d.maxRetries bad (status s.rows) d.phase event phase (status rows')) :
    Inv status (⟨s, .next id event, s.goOn id d phase rows'⟩ :: h) (s.goOn id d phase rows') where
  known id' d' hd' := by
    rcases of_get_goOn hd' with ⟨rfl, -⟩ | ⟨-, hd'⟩
    · exact hi.known _ d hd
    · exact hi.known id' d' hd'
  listed id' hid' := by
    by_cases he : id' = id
    · rw [he]
      exact ⟨_, get_goOn_self⟩
    · have hmem : id' ∈ started h ∨ id' ∈ succeeded h := by
        rw [started_next, succeeded_next] at hid'
        refine hid'.imp (fun hm => ?_) fun hm => ?_ <;> split_ifs at hm
        · exact (List.mem_cons.1 hm).resolve_left he
        · exact hm
        · exact (List.mem_cons.1 hm).resolve_left he
        · exact hm
      obtain ⟨d', hd'⟩ := hi.listed id' hmem
      exact ⟨d', (get_goOn_of_ne he).trans hd'⟩
  held id' d' hd' hp' := by
    rcases of_get_goOn hd' with ⟨rfl, rfl⟩ | ⟨hne, hd'⟩
    · rcases ht.taken hp' with hp | ⟨-, hst⟩
      · exact (congrFun (ht.held hbad hp hp') _).trans (hi.held _ d hd hp)
      · exact hst
    · exact hi.keeps hd ht hd' hp' hne
  alone id₁ id₂ d₁ d₂ hd₁ hd₂ hp₁ hp₂ hk := by
    rcases of_get_goOn hd₁ with ⟨he₁, rfl⟩ | ⟨hne₁, hg₁⟩ <;>
      rcases of_get_goOn hd₂ with ⟨he₂, rfl⟩ | ⟨hne₂, hg₂⟩
    · exact he₁.trans he₂.symm
    · exact absurd (hk.symm.trans (congrArg _ he₁)) (hi.excludes hd ht hg₂ hp₂ hne₂ hp₁)
    · exact absurd (hk.trans (congrArg _ he₂)) (hi.excludes hd ht hg₁ hp₁ hne₁ hp₂)
    · exact hi.alone id₁ id₂ d₁ d₂ hg₁ hg₂ hp₁ hp₂ hk
  success id' hid' := by
    rw [succeeded_next] at hid'
    split_ifs at hid' with hev
    · rcases List.mem_cons.1 hid' with rfl | hid'
      · obtain ⟨attempt, -, -, hp⟩ := (hev ▸ ht).sent_ends
        exact .inr ⟨_, attempt, get_goOn_self, hp⟩
      · exact hi.stays hd hbad ht hid'
    · exact hi.stays hd hbad ht hid'
  delivered k hk := by
    rcases ht.delivered_by hk with hk | ⟨rfl, hp⟩
    · obtain ⟨id', hid', rfl⟩ := hi.delivered k hk
      exact ⟨id', mem_succeeded_next hid', rfl⟩
    · exact ⟨id, mem_succeeded_next (hi.own id d hd (.inl hp)), rfl⟩
  once k := by
    rw [succeeded_next]
    split_ifs with hev
    · by_cases hk : id.key = k
      · obtain ⟨attempt, notificationId, hp, -⟩ := (hev ▸ ht).sent_ends
        have hnone : (succeeded h).filter (fun id => id.key = k) = [] := by
          refine List.filter_eq_nil_iff.2 fun id' hid' hk' => ?_
          exact hi.unsent hd (hp ▸ rfl) (fun n hn => nomatch hp.symm.trans hn) hid'
            ((of_decide_eq_true hk').trans hk.symm)
        rw [List.filter_cons, hnone, if_pos (decide_eq_true hk)]
        exact le_refl _
      · rw [List.filter_cons, if_neg (by simpa using hk)]
        exact hi.once k
    · exact hi.once k
  own id' d' hd' hp' := by
    rcases of_get_goOn hd' with ⟨rfl, rfl⟩ | ⟨-, hd'⟩
    · rcases ht.own hp' with rfl | hp
      · exact List.mem_cons_self
      · exact mem_succeeded_next (hi.own _ d hd (.inl hp))
    · exact mem_succeeded_next (hi.own id' d' hd' hp')
  tried id' d' hd' := by
    rw [started_next]
    rcases of_get_goOn hd' with ⟨rfl, rfl⟩ | ⟨hne, hd'⟩
    · have htried := ht.tried (hi.tried _ d hd)
      split_ifs at htried ⊢
      · rwa [List.count_cons_self]
      · exact htried
    · have htried := hi.tried id' d' hd'
      split_ifs
      · rwa [List.count_cons_of_ne (Ne.symm hne)]
      · exact htried

end Turn

theorem inv_run (htr : Tracks store status) (hr : Run (sys store sha256) h s)
    (hC : Along (fun s a => assumed store sha256 s a = true) h) : Inv status h s := by
  induction hr with
  | start hs =>
    rw [show _ = _ from hs]
    exact Inv.init htr
  | next hr hs ih =>
    have hi := ih hC.tail
    rcases step_cases hs with ⟨e, m, rfl, rfl⟩ | ⟨id, d, event, phase, rows', rfl, hd, hadv, rfl⟩
    · exact hi.notify hC.head
    · refine hi.turn hd ?_ (advance_turn htr hadv)
      have hcalm := hC.head
      simpa only [assumed, hd, Option.all_some, Bool.not_eq_true', Bool.not_eq_true] using hcalm

/-- What a run says about the sends of a notification, at most one of which succeeds. -/
structure AtMostOnce (status : σ → Key → Option NotificationDeliveryStatus)
    (h : List (Taken (State σ) Action)) (s : State σ) : Prop where
  once : ∀ k, ((succeeded h).filter fun id => id.key = k).length ≤ 1
  apart : ∀ id id' d d' n n' i i', s.deliveries.get id = some d →
    s.deliveries.get id' = some d' → d.phase = .sending n i → d'.phase = .sending n' i' →
    id.key = id'.key → id = id'
  noneAfter : ∀ l t e id, h = l ++ t :: e → t.act.starts = some id →
    ∀ id' ∈ succeeded e, id'.key ≠ id.key
  bounded : ∀ id d, s.deliveries.get id = some d →
    ((JsNumber.ofNat ((started h).count id)).sub 1).le d.maxRetries = true
  delivered : ∀ k, status s.rows k = some .delivered → ∃ id ∈ succeeded h, id.key = k
  /-- What was sent is `delivered`, or its delivery is about to mark it. -/
  marked : ∀ id ∈ succeeded h, status s.rows id.key = some .delivered
    ∨ ∃ d attempt, s.deliveries.get id = some d ∧ d.phase = .marking attempt
  own : ∀ e n email webhook, s.result e n = some (.resolved email webhook) →
    (email = .delivered → ⟨e, .email, n⟩ ∈ succeeded h)
      ∧ (webhook = .delivered → ⟨e, .webhook, n⟩ ∈ succeeded h)

theorem outcome_eq {id : DeliveryId} {outcome : Outcome} (h : s.outcome id = some outcome) :
    ∃ d, s.deliveries.get id = some d ∧ d.phase = .settled outcome := by
  obtain ⟨d, hd, ho⟩ := Option.bind_eq_some_iff.1 h
  refine ⟨d, hd, ?_⟩
  cases hp : d.phase <;> rw [hp] at ho <;> cases ho
  rfl

theorem result_resolved {e : String} {n : ℕ} {email webhook : ChannelResult}
    (h : s.result e n = some (.resolved email webhook)) :
    ∃ o o', s.outcome ⟨e, .email, n⟩ = some o ∧ s.outcome ⟨e, .webhook, n⟩ = some o'
      ∧ failures .email o = [] ∧ failures .webhook o' = []
      ∧ channelResult o = email ∧ channelResult o' = webhook := by
  unfold State.result at h
  split at h
  · rename_i o o' ho ho'
    dsimp only at h
    split_ifs at h with hf
    · obtain ⟨hf, hf'⟩ := List.append_eq_nil_iff.1 hf
      simp only [Option.some.injEq, NotifyResult.resolved.injEq] at h
      exact ⟨o, o', ho, ho', hf, hf', h.1, h.2⟩
    · cases h
  · cases h

theorem channelResult_delivered {o : Outcome} (h : channelResult o = .delivered) :
    o = .delivered := by
  cases o <;> first | rfl | cases h

theorem Inv.atMostOnce (htr : Tracks store status) (hr : Run (sys store sha256) h s)
    (hC : Along (fun s a => assumed store sha256 s a = true) h) : AtMostOnce status h s := by
  have hi := inv_run htr hr hC
  refine ⟨hi.once, fun id id' d d' n n' i i' hd hd' hp hp' hk => ?_,
    fun l t e id hh hstart id' hid' => ?_, fun id d hd => (hi.tried id d hd).bound, hi.delivered,
    hi.success, fun e n email webhook hres => ?_⟩
  · exact hi.alone id id' d d' hd hd' (hp ▸ rfl) (hp' ▸ rfl) hk
  · subst hh
    obtain ⟨hre, hstep⟩ := hr.split rfl
    have hie := inv_run htr hre fun u hu =>
      hC u (List.mem_append_right _ (List.mem_cons_of_mem _ hu))
    rcases step_cases hstep with ⟨ev, m, ha, -⟩ | ⟨id₀, d, event, phase, rows', ha, hd, hadv, -⟩
    · rw [ha] at hstart
      cases hstart
    · rw [ha] at hstart
      cases event <;> cases hstart
      have hp := advance_turn htr hadv
      obtain ⟨n, i, hclaimed⟩ : ∃ n i, d.phase = .claimed n i := by
        generalize status rows' = st' at hp
        generalize d.phase = p at hp
        cases hp
        exact ⟨_, _, rfl⟩
      exact hie.unsent hd (hclaimed ▸ rfl) (fun m hm => nomatch hclaimed.symm.trans hm) hid'
  · obtain ⟨o, o', ho, ho', -, -, rfl, rfl⟩ := result_resolved hres
    obtain ⟨d, hd, hp⟩ := outcome_eq ho
    obtain ⟨d', hd', hp'⟩ := outcome_eq ho'
    refine ⟨fun hdel => hi.own _ d hd (.inr ?_), fun hdel => hi.own _ d' hd' (.inr ?_)⟩
    · rw [hp, channelResult_delivered hdel]
    · rw [hp', channelResult_delivered hdel]

/-- Over either store, a notification is sent at most once per channel while nothing fails. -/
theorem slashing_notified_once (b : Backend) (sha256 : String → String)
    {h : List (Taken (State b.Rows) Action)} {s : State b.Rows}
    (hr : Run (sys b.store sha256) h s) (hC : Along (fun s a => assumed b.store sha256 s a = true) h) :
    AtMostOnce b.status h s :=
  Inv.atMostOnce b.tracks hr hC

/-- SHA-256, in hexadecimal, of what the notification ids of one event are made from. -/
def evtHash (text : String) : String :=
  if text = "evt:email" then "a8b394ae2c31585bdf42044864aab9353b989385e224ebc755ffa359b32a2bfb"
  else "50c85d0af46c7ff5bb429678b4f9d53cb91e1a1182a954a3974cff17b494e207"

def noError : Thrown := .value (some "undefined")

/-- Two calls; the second finds the channel held, and the first tries it twice. -/
def twoCalls : List Action :=
  [.notifySlashing "evt" 1, .notifySlashing "evt" 1]
    ++ ([.read 1 .fine noError, .claim 2 .fine noError, .send]).map
      (.next ⟨"evt", .email, 0⟩)
    ++ ([.read 3 .fine noError, .claim 4 .fine noError]).map (.next ⟨"evt", .email, 1⟩)
    ++ ([.sent (some (.error "timeout")), .markFailed 5 .fine noError, .wake,
      .claim 6 .fine noError, .send, .sent none, .markDelivered 7 .fine noError]).map
      (.next ⟨"evt", .email, 0⟩)
    ++ ([.read 8 .fine noError, .claim 9 .fine noError, .send, .sent none,
      .markDelivered 10 .fine noError]).map (.next ⟨"evt", .webhook, 0⟩)

theorem slashing_notified_once_two : ∃ h s, Run (sys Backend.pg.store evtHash) h s
    ∧ s.result "evt" 0 = some (.resolved .delivered .delivered)
    ∧ AtMostOnce Backend.pg.status h s := by
  obtain ⟨h, s, hr, ht⟩ := Sys.exists_run (S := sys pgStore evtHash) rfl twoCalls
    (p := fun x => decide ((∀ t ∈ x.1, assumed pgStore evtHash t.pre t.act = true)
      ∧ x.2.result "evt" 0 = some (.resolved .delivered .delivered))) (by decide +kernel)
  obtain ⟨hC, hres⟩ := of_decide_eq_true ht
  exact ⟨h, s, hr, hres, slashing_notified_once .pg evtHash hr hC⟩

/-- A message that has been sent is not `delivered` before it is marked. -/
theorem sent_before_marked : ∃ h s, Run (sys Backend.pg.store evtHash) h s
    ∧ Along (fun s a => assumed Backend.pg.store evtHash s a = true) h
    ∧ (∃ id ∈ succeeded h, id.key = ("evt", .email))
    ∧ Backend.pg.status s.rows ("evt", .email) ≠ some .delivered := by
  obtain ⟨h, s, hr, ht⟩ := Sys.exists_run (S := sys pgStore evtHash) rfl
    (.notifySlashing "evt" 3 :: ([.read 1 .fine noError, .claim 2 .fine noError, .send,
      .sent none]).map (.next ⟨"evt", .email, 0⟩))
    (p := fun x => decide ((∀ t ∈ x.1, assumed pgStore evtHash t.pre t.act = true)
      ∧ (∃ id ∈ succeeded x.1, id.key = ("evt", .email))
      ∧ Pg.status x.2.rows ("evt", .email) ≠ some .delivered)) (by decide +kernel)
  obtain ⟨hC, hsent, hst⟩ := of_decide_eq_true ht
  exact ⟨h, s, hr, hC, hsent, hst⟩

end Once

end SlashingNotifier

end Notifications

end VeriNode
