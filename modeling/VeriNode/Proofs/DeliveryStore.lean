import VeriNode.Notifications.DeliveryStore

/-!
# When the delivery stores agree

A call leads tables that hold the same records (`Same`), but for the times, to the same reply and to
such tables again, if it `fits` what a table can hold. A notification id of the table was passed with
its key (`Issued`), so that ids that tell the keys apart never violate the table's constraint.
-/

namespace VeriNode

namespace Notifications

section Times

def NotificationDeliveryRecord.timeless (record : NotificationDeliveryRecord) :
    NotificationDeliveryRecord :=
  { record with updatedAt := 0 }

/-- A reply, but for the time in it. -/
def Reply.timeless : Reply → Reply
  | .record r => .record (r.map (·.timeless))
  | reply => reply

/-- What is at a key of the table. -/
def Pg.record (table : Pg.Table) (slashingEventId : String) (channel : NotificationChannel) :
    Option NotificationDeliveryRecord :=
  (table.get (slashingEventId, channel)).map (Pg.mapDeliveryRow slashingEventId channel)

end Times

section Keys

variable {e e' : String} {ch ch' : NotificationChannel}

theorem Memory.key_inj : Memory.key e ch = Memory.key e' ch' ↔ e = e' ∧ ch = ch' := by
  constructor
  · intro h
    have hl := congrArg String.toList h
    simp only [Memory.key, String.toList_append] at hl
    have hch : ch = ch' := by
      have hlast := congrArg List.getLast? hl
      cases ch <;> cases ch' <;> simp [NotificationChannel.text] at hlast ⊢
    subst hch
    exact ⟨String.toList_injective (List.append_cancel_right (List.append_cancel_right hl)), rfl⟩
  · rintro ⟨rfl, rfl⟩
    rfl

end Keys

section Agreement

/-- What the database has no error for. -/
def fits (table : Pg.Table) : Call → Bool
  | .claimDelivery slashingEventId channel notificationId =>
    Pg.text slashingEventId && Pg.text notificationId
      && (table.get (slashingEventId, channel)).all fun row =>
        row.status = .delivering || row.status = .delivered || Pg.integer (row.attempts + 1)
  | .markDelivered slashingEventId _ => Pg.text slashingEventId
  | .markFailed slashingEventId _ error =>
    Pg.text slashingEventId && (errorMessage error).any Pg.text
  | .getDelivery slashingEventId _ => Pg.text slashingEventId

/-- Every call fits the table it finds. -/
def allFit : Pg.Table → List (Call × ℤ) → Bool
  | _, [] => true
  | table, (call, now) :: calls => fits table call && allFit (pgStore.call call now table).2 calls

/-- No notification id is claimed for two keys. -/
def UniqueIds (calls : List Call) : Prop :=
  ∀ e ch e' ch' n, Call.claimDelivery e ch n ∈ calls → Call.claimDelivery e' ch' n ∈ calls →
    (e, ch) = (e', ch')

/-- The ids of the table were claimed for their keys. -/
def Issued (calls : List Call) (table : Pg.Table) : Prop :=
  ∀ e ch row, table.get (e, ch) = some row → Call.claimDelivery e ch row.notificationId ∈ calls

/-- The same records, but for the times. -/
def Same (table : Pg.Table) (records : Memory.Records) : Prop :=
  ∀ e ch, (Pg.record table e ch).map (·.timeless)
    = (records.get (Memory.key e ch)).map (·.timeless)

variable {table : Pg.Table} {records : Memory.Records} {calls : List Call} {call : Call}
  {e : String} {ch : NotificationChannel} {n : String} {row : Pg.DeliveryRow}
  {now now' : ℤ}

theorem Same.exists_record (h : Same table records) (hrow : table.get (e, ch) = some row) :
    ∃ record, records.get (Memory.key e ch) = some record
      ∧ record.timeless = (Pg.mapDeliveryRow e ch row).timeless := by
  have hs := h e ch
  rw [Pg.record, hrow] at hs
  obtain ⟨record, hrecord, heq⟩ := Option.map_eq_some_iff.1 hs.symm
  exact ⟨record, hrecord, heq⟩

theorem Same.no_row (h : Same table records) (hrow : table.get (e, ch) = none) :
    records.get (Memory.key e ch) = none := by
  have hs := h e ch
  rw [Pg.record, hrow] at hs
  exact Option.map_eq_none_iff.1 hs.symm

theorem Same.set (h : Same table records) {record : NotificationDeliveryRecord}
    (heq : (Pg.mapDeliveryRow e ch row).timeless = record.timeless) :
    Same (table.set (e, ch) row) (records.set (Memory.key e ch) record) := by
  intro e' ch'
  rw [Pg.record, OrdMap.get_set, OrdMap.get_set]
  by_cases hk : (e', ch') = (e, ch)
  · obtain ⟨rfl, rfl⟩ := Prod.mk.inj hk
    rw [if_pos rfl, if_pos rfl, Option.map_some, Option.map_some, Option.map_some, heq]
  · rw [if_neg hk, if_neg fun h => hk (Prod.ext_iff.2 (Memory.key_inj.1 h))]
    exact h e' ch'

theorem Issued.set (h : Issued calls table) (hn : Call.claimDelivery e ch row.notificationId ∈ calls) :
    Issued calls (table.set (e, ch) row) := by
  intro e' ch' row' hrow'
  rcases OrdMap.of_get_set hrow' with ⟨hk, rfl⟩ | ⟨-, hold⟩
  · obtain ⟨rfl, rfl⟩ := Prod.mk.inj hk
    exact hn
  · exact h e' ch' row' hold

theorem Issued.fresh (h : Issued calls table) (hu : UniqueIds calls)
    (hc : Call.claimDelivery e ch n ∈ calls) (hrow : table.get (e, ch) = none) :
    table.entries.any (·.2.notificationId = n) = false := by
  refine List.any_eq_false.2 fun x hx hn => ?_
  have hx' := OrdMap.mem_entries_iff.1 (show (x.1, x.2) ∈ table.entries from hx)
  simp only [decide_eq_true_eq] at hn
  have hk := hu x.1.1 x.1.2 e ch n (hn ▸ h x.1.1 x.1.2 x.2 hx') hc
  rw [show x.1 = (e, ch) from hk, hrow] at hx'
  cases hx'

theorem Same.update (h : Same table records) (e : String) (ch : NotificationChannel)
    (hi : Issued calls table) {f : Pg.DeliveryRow → Pg.DeliveryRow}
    {g : NotificationDeliveryRecord → NotificationDeliveryRecord}
    (hid : ∀ row, (f row).notificationId = row.notificationId)
    (hfg : ∀ row record, record.timeless = (Pg.mapDeliveryRow e ch row).timeless →
      (Pg.mapDeliveryRow e ch (f row)).timeless = (g record).timeless) :
    Same (Pg.update e ch f table) (Memory.assign e ch g records)
      ∧ Issued calls (Pg.update e ch f table) := by
  unfold Pg.update Memory.assign
  rcases hrow : table.get (e, ch) with _ | row
  · rw [h.no_row hrow]
    exact ⟨h, hi⟩
  · obtain ⟨record, hrecord, heq⟩ := h.exists_record hrow
    rw [hrecord]
    exact ⟨h.set (hfg row record heq), hi.set (by rw [hid]; exact hi e ch row hrow)⟩

theorem timeless_eq {r r' : NotificationDeliveryRecord} (h : r.timeless = r'.timeless) :
    r.slashingEventId = r'.slashingEventId ∧ r.channel = r'.channel
      ∧ r.notificationId = r'.notificationId ∧ r.status = r'.status ∧ r.attempts = r'.attempts
      ∧ r.lastError = r'.lastError := by
  simpa [NotificationDeliveryRecord.timeless] using h

/-- A call that fits leads both stores to the same reply, and to the same records. -/
theorem Same.step (h : Same table records) (now now' : ℤ) (hi : Issued calls table)
    (hu : UniqueIds calls) (hc : call ∈ calls) (hfit : fits table call = true) :
    (pgStore.call call now table).1.timeless = (memoryStore.call call now' records).1.timeless
      ∧ Same (pgStore.call call now table).2 (memoryStore.call call now' records).2
      ∧ Issued calls (pgStore.call call now table).2 := by
  cases call with
  | claimDelivery e ch n =>
    simp only [fits, Bool.and_eq_true] at hfit
    obtain ⟨⟨he, hn⟩, hint⟩ := hfit
    simp only [pgStore, memoryStore, Pg.call, Memory.call, he, hn, Bool.and_self, if_true]
    rcases hrow : table.get (e, ch) with _ | row
    · rw [Pg.upsert, hrow]
      simp only [hi.fresh hu hc hrow, Bool.false_eq_true, if_false, h.no_row hrow, Memory.claim,
        Option.any_none]
      exact ⟨rfl, h.set rfl, hi.set hc⟩
    · obtain ⟨record, hrecord, heq⟩ := h.exists_record hrow
      obtain ⟨hev, hch, hid, hst, hat, -⟩ := timeless_eq heq
      rw [Pg.upsert, hrow, hrecord]
      by_cases hfree : row.status = .pending ∨ row.status = .failed
      · have hclaim : Memory.claim e ch n now' (some record) = some
            { slashingEventId := e, channel := ch, notificationId := record.notificationId
              status := .delivering, attempts := record.attempts + 1, lastError := none
              updatedAt := now' } := by
          rw [Memory.claim, Option.any_some, if_neg]
          · rfl
          · rcases hfree with hs | hs <;> simp [hst, Pg.mapDeliveryRow, hs]
        have hroom : Pg.integer (row.attempts + 1) = true := by
          rw [hrow, Option.all_some] at hint
          rcases hfree with hs | hs <;> simpa [hs] using hint
        simp only [hfree, if_true, hroom, hclaim]
        have hsame : (Pg.mapDeliveryRow e ch (Pg.reclaim now row)).timeless
            = NotificationDeliveryRecord.timeless
              { slashingEventId := e, channel := ch, notificationId := record.notificationId
                status := .delivering, attempts := record.attempts + 1, lastError := none
                updatedAt := now' } := by
          simp only [NotificationDeliveryRecord.timeless, Pg.mapDeliveryRow, Pg.reclaim, hid, hat]
        refine ⟨?_, h.set hsame, hi.set (hi e ch row hrow)⟩
        simp only [Reply.timeless, Option.map_some, hsame]
      · have hclaim : Memory.claim e ch n now' (some record) = none := by
          rw [Memory.claim, Option.any_some, if_pos]
          rw [hst, show (Pg.mapDeliveryRow e ch row).status = row.status from rfl]
          rcases hs : row.status with _ | _ | _ | _ <;> simp_all
        simp only [hfree, if_false, hclaim]
        exact ⟨trivial, h, hi⟩
  | markDelivered e ch =>
    simp only [pgStore, memoryStore, Pg.call, Memory.call, show Pg.text e = true from hfit, if_true]
    refine ⟨trivial, h.update e ch hi (fun _ => rfl) fun row record heq => ?_⟩
    obtain ⟨hev, hch, hid, -, hat, -⟩ := timeless_eq heq
    simp_all [NotificationDeliveryRecord.timeless, Pg.mapDeliveryRow]
  | markFailed e ch error =>
    simp only [fits, Bool.and_eq_true, Option.any_eq_true] at hfit
    obtain ⟨he, message, hmessage, htext⟩ := hfit
    have hup := h.update e ch hi
      (f := fun row => { row with status := .failed, updatedAt := now, lastError := some message })
      (g := fun record => { record with
        status := .failed, lastError := some message, updatedAt := now' })
      (fun _ => rfl) fun row record heq => by
        obtain ⟨hev, hch, hid, -, hat, -⟩ := timeless_eq heq
        simp_all [NotificationDeliveryRecord.timeless, Pg.mapDeliveryRow]
    simp only [pgStore, memoryStore, Pg.call, Memory.call, hmessage, he, htext, Bool.and_self,
      if_true]
    rcases hrecord : records.get (Memory.key e ch) with _ | record
    · have hassign : ∀ g, Memory.assign e ch g records = records := by
        intro g
        rw [Memory.assign, hrecord]
      rw [hassign] at hup
      exact ⟨rfl, hup⟩
    · exact ⟨rfl, hup⟩
  | getDelivery e ch =>
    simp only [pgStore, memoryStore, Pg.call, Memory.call, show Pg.text e = true from hfit, if_true]
    exact ⟨congrArg Reply.record (h e ch), h, hi⟩

theorem Same.replies (hu : UniqueIds calls) : ∀ (timed : List (Call × ℤ × ℤ)) {table : Pg.Table}
    {records : Memory.Records}, Same table records → Issued calls table →
    (∀ c ∈ timed, c.1 ∈ calls) → allFit table (timed.map fun c => (c.1, c.2.1)) = true →
    (pgStore.replies table (timed.map fun c => (c.1, c.2.1))).map Reply.timeless
      = (memoryStore.replies records (timed.map fun c => (c.1, c.2.2))).map Reply.timeless
  | [], _, _, _, _, _, _ => rfl
  | (call, now, now') :: timed, table, records, h, hi, hmem, hfit => by
    obtain ⟨hfit, hrest⟩ := Bool.and_eq_true_iff.1 hfit
    obtain ⟨hreply, hsame, hissued⟩ := h.step now now' hi hu
      (hmem _ List.mem_cons_self) hfit
    simp only [List.map_cons, NotificationDeliveryStore.replies, hreply]
    rw [Same.replies hu timed hsame hissued (fun _ hc => hmem _ (List.mem_cons_of_mem _ hc)) hrest]

theorem delivery_stores_agree (timed : List (Call × ℤ × ℤ)) (hu : UniqueIds (timed.map Prod.fst))
    (hfit : allFit pgStore.empty (timed.map fun c => (c.1, c.2.1)) = true) :
    (pgStore.replies pgStore.empty (timed.map fun c => (c.1, c.2.1))).map Reply.timeless
      = (memoryStore.replies memoryStore.empty (timed.map fun c => (c.1, c.2.2))).map
        Reply.timeless :=
  Same.replies hu timed (fun _ _ => rfl) (fun _ _ _ h => nomatch h)
    (fun _ hc => List.mem_map_of_mem hc) hfit

/-- A delivery that fails and is claimed again, under another id, beside one that is not there. -/
def retried : List (Call × ℤ × ℤ) :=
  [(.getDelivery "evt" .email, 1, 1), (.claimDelivery "evt" .email "n1", 2, 1),
    (.claimDelivery "evt" .email "n2", 3, 2), (.markFailed "evt" .email (.error "timeout"), 4, 4),
    (.claimDelivery "evt" .email "n2", 5, 5), (.markDelivered "evt" .webhook, 6, 5),
    (.markDelivered "evt" .email, 7, 6), (.getDelivery "evt" .email, 8, 8)]

theorem delivery_stores_agree_retried :
    (pgStore.replies pgStore.empty (retried.map fun c => (c.1, c.2.1))).map Reply.timeless
      = (memoryStore.replies memoryStore.empty (retried.map fun c => (c.1, c.2.2))).map
        Reply.timeless := by
  refine delivery_stores_agree retried ?_ (by decide +kernel)
  intro e ch e' ch' n h h'
  simp only [retried, List.map_cons, List.map_nil, List.mem_cons, List.not_mem_nil,
    Call.claimDelivery.injEq, reduceCtorEq, false_or, or_false] at h h'
  rcases h with ⟨rfl, rfl, -⟩ | ⟨rfl, rfl, -⟩ | ⟨rfl, rfl, -⟩ <;>
    rcases h' with ⟨rfl, rfl, -⟩ | ⟨rfl, rfl, -⟩ | ⟨rfl, rfl, -⟩ <;> rfl

/-- What was thrown has no text. -/
def textless : List (Call × ℤ) :=
  [(.claimDelivery "evt" .email "n1", 1), (.markFailed "evt" .email (.value none), 2),
    (.getDelivery "evt" .email, 3)]

/-- The table keeps the delivery as it was, and the map has it as failed. -/
theorem stores_differ_textless : UniqueIds (textless.map Prod.fst)
    ∧ (pgStore.replies pgStore.empty textless).map Reply.timeless
      ≠ (memoryStore.replies memoryStore.empty textless).map Reply.timeless := by
  constructor
  · intro e ch e' ch' n h h'
    simp only [textless, List.map_cons, List.map_nil, List.mem_cons, List.not_mem_nil,
      Call.claimDelivery.injEq, reduceCtorEq, or_false] at h h'
    rw [h.1, h.2.1, h'.1, h'.2.1]
  · decide +kernel

end Agreement

end Notifications

end VeriNode
