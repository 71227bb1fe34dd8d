import VeriNode.Blockchain.StateArchival

/-!
# What a tick renews

The batches of a tick are the pieces of its due pointers, contract by contract
(`partition_batches`). A tick submits them one after the other, whatever the reads and the
submissions come to (`Tick.Ok`); only a transaction that throws stops it, and the batches that are
left then are not submitted, those of other contracts among them. So every due pointer is submitted
just when no transaction throws but the last (`renewed_iff`).
-/

namespace VeriNode

namespace StateArchival

section Batches

/-- The batches hold every due pointer once and nothing else, each of them between one and twenty
of one contract, and those of a contract in the order of the list. -/
structure Partition (due : List ContractDataPointer) (batches : List (List ContractDataPointer)) :
    Prop where
  once : ∀ p ∈ due, (batches.filter (p ∈ ·)).length = 1
  only : ∀ batch ∈ batches, ∀ p ∈ batch, p ∈ due
  size : ∀ batch ∈ batches, 1 ≤ batch.length ∧ batch.length ≤ maxBatchTtlEntries
  contract : ∀ batch ∈ batches, ∀ p ∈ batch, ∀ q ∈ batch, p.contractId = q.contractId
  order : ∀ contractId, batches.flatten.filter (·.contractId = contractId) =
    due.filter (·.contractId = contractId)

variable {due : List WatchlistRow}

theorem flatten_batches : ((batches due).map (·.pointers)).flatten =
    ((Pieces.groups WatchlistRow.contractId due).entries.flatMap Prod.snd).map
      WatchlistRow.pointer := by
  unfold batches
  generalize (Pieces.groups WatchlistRow.contractId due).entries = es
  induction es with
  | nil => rfl
  | cons e es ih =>
    rw [List.flatMap_cons, List.map_append, List.flatten_append, ih, List.flatMap_cons,
      List.map_append]
    congr 1
    rw [List.map_map]
    show ((chunk (e.2.map WatchlistRow.pointer)).map id).flatten = _
    rw [List.map_id]
    exact Pieces.flatten_chunks (by decide)

theorem filter_map_pointer (rows : List WatchlistRow) (contractId : String) :
    (rows.map WatchlistRow.pointer).filter (·.contractId = contractId) =
      (rows.filter (·.contractId = contractId)).map WatchlistRow.pointer := by
  rw [List.filter_map]
  rfl

theorem filter_batches (contractId : String) :
    ((batches due).map (·.pointers)).flatten.filter (·.contractId = contractId) =
      (due.map WatchlistRow.pointer).filter (·.contractId = contractId) := by
  rw [flatten_batches, filter_map_pointer, filter_map_pointer, Pieces.filter_groups]

theorem perm_batches :
    ((batches due).map (·.pointers)).flatten.Perm (due.map WatchlistRow.pointer) :=
  Pieces.perm_of_filter_eq ContractDataPointer.contractId filter_batches

theorem size_batches : ∀ batch ∈ batches due,
    1 ≤ batch.pointers.length ∧ batch.pointers.length ≤ maxBatchTtlEntries := by
  intro batch hb
  obtain ⟨e, -, hb⟩ := List.mem_flatMap.1 hb
  obtain ⟨c, hc, rfl⟩ := List.mem_map.1 hb
  exact Pieces.length_of_mem_chunks (by decide) hc

theorem contract_batches : ∀ batch ∈ batches due, ∀ p ∈ batch.pointers,
    p.contractId = batch.contractId := by
  intro batch hb p hp
  obtain ⟨e, he, hb⟩ := List.mem_flatMap.1 hb
  obtain ⟨c, hc, rfl⟩ := List.mem_map.1 hb
  obtain ⟨row, hrow, rfl⟩ := List.mem_map.1 (Pieces.mem_of_mem_chunks (by decide) hc hp)
  rw [Pieces.group_of_mem he] at hrow
  simpa [WatchlistRow.pointer] using (List.mem_filter.1 hrow).2

theorem partition_batches (hn : (due.map WatchlistRow.pointer).Nodup) :
    Partition (due.map WatchlistRow.pointer) ((batches due).map (·.pointers)) where
  once p hp := Pieces.length_filter_mem_eq_one (perm_batches.nodup_iff.2 hn)
    (perm_batches.mem_iff.2 hp)
  only batch hb p hp := perm_batches.mem_iff.1 (List.mem_flatten.2 ⟨batch, hb, hp⟩)
  size batch hb := by
    obtain ⟨b, hb', rfl⟩ := List.mem_map.1 hb
    exact size_batches b hb'
  contract batch hb p hp q hq := by
    obtain ⟨b, hb', rfl⟩ := List.mem_map.1 hb
    rw [contract_batches b hb' p hp, contract_batches b hb' q hq]
  order := filter_batches

theorem not_partition_of_left {done left : List (List ContractDataPointer)}
    (hn : (due.map WatchlistRow.pointer).Nodup) (hleft : left ≠ [])
    (h : done ++ left = (batches due).map (·.pointers)) :
    ¬ Partition (due.map WatchlistRow.pointer) done := by
  intro hp
  obtain ⟨batch, left, rfl⟩ := List.exists_cons_of_ne_nil hleft
  have hall := partition_batches hn
  rw [← h] at hall
  have hmem : batch ∈ done ++ batch :: left := List.mem_append_right _ List.mem_cons_self
  obtain ⟨p, hpb⟩ := List.exists_mem_of_length_pos (hall.size batch hmem).1
  have hdue := hall.only batch hmem p hpb
  have h1 := hall.once p hdue
  have h2 := hp.once p hdue
  rw [List.filter_append, List.length_append, h2,
    List.filter_cons_of_pos (by simpa using hpb)] at h1
  simp at h1

end Batches

section Ticks

/-- The rows that a tick has read and found due. -/
def dueRows (o : Options) (now : ℕ) (reads : List (WatchlistRow × Entry)) : List WatchlistRow :=
  (reads.filter fun r =>
    match r.2 with
    | .error _ _ => false
    | .data ttl => isDue o now r.1 ttl).map Prod.fst

/-- The batches a tick has submitted, in order. -/
def World.submittedBy (w : World) (tick : ℕ) : List (List ContractDataPointer) :=
  (w.submissions.filter (·.tick = tick)).map (·.pointers)

def Stage.over : Stage → Bool
  | .resolved => true
  | .rejected _ => true
  | _ => false

/-- The batches that a tick has not come to. -/
def Stage.left : Stage → List Batch
  | .sending _ rest _ => rest
  | .sleeping _ rest _ => rest
  | .beginning _ rest => rest
  | .updating _ rest _ => rest
  | .updated _ rest => rest
  | .rejected rest => rest
  | _ => []

/-- The batches that a tick has not come to, while it submits them. -/
def Stage.submitting : Stage → Option (List Batch)
  | .sending _ rest _ => some rest
  | .sleeping _ rest _ => some rest
  | .beginning _ rest => some rest
  | .updating _ rest _ => some rest
  | .updated _ rest => some rest
  | _ => none

/-- The batches that come when the event does, the next of them first. -/
def Tick.upcoming (o : Options) (t : Tick) (event : Event) : List Batch :=
  match t.stage, event with
  | .reading due [row], .entry entry => batches (due ++ dueRows o t.now [(row, entry)])
  | .sending _ rest attempts, .sent false => if attempts ≤ o.retryDelays then [] else rest
  | .updated _ rest, .persisted => rest
  | _, _ => []

/-- What a tick does when the event comes. -/
inductive Resumed (o : Options) (t : Tick) (w : World) : Event → World × Tick → Prop
  | listed {rows : List WatchlistRow} (hs : t.stage = .loading)
      (hp : rows.Perm (rowsOf w.table)) :
      Resumed o t w (.listed rows) (w, { t with stage := .listed rows })
  | loadFailed (hs : t.stage = .loading ∨ ∃ rows, t.stage = .listed rows) :
      Resumed o t w .loadFailed (w, { t with stage := .rejected [] })
  | loaded {rows : List WatchlistRow} (hs : t.stage = .listed rows) :
      Resumed o t w .loaded (readNext { t with watchlist := some rows, now := w.clock } [] rows w)
  | entry {due rest : List WatchlistRow} {row : WatchlistRow} (entry : Entry)
      (hs : t.stage = .reading due (row :: rest)) :
      Resumed o t w (.entry entry) (readNext { t with reads := t.reads ++ [(row, entry)] }
        (due ++ dueRows o t.now [(row, entry)]) rest w)
  /-- It comes to the next batch. -/
  | next {event : Event} {rest : List Batch} (hs : t.stage.submitting = some rest)
      (he : event ≠ .persistFailed) (hup : t.upcoming o event = rest) :
      Resumed o t w event (submitNext t rest w)
  /-- It goes on with the batch it is at. -/
  | within {event : Event} {rest : List Batch} {stage : Stage} {table : Table}
      (hs : t.stage.submitting = some rest) (hs' : stage.submitting = some rest)
      (he : event ≠ .persistFailed) (hup : t.upcoming o event = []) :
      Resumed o t w event ({ w with table := table }, { t with stage := stage })
  | thrown {rest : List Batch} (hs : t.stage.submitting = some rest) :
      Resumed o t w .persistFailed (w, { t with stage := .rejected rest })

/-- What a tick has done, by where it stands. -/
def Tick.Ok (o : Options) (t : Tick) (w : World) : Prop :=
  match t.stage with
  | .loading => t.watchlist = none ∧ t.reads = [] ∧ w.submittedBy t.id = []
  | .listed rows => t.watchlist = none ∧ t.reads = [] ∧ w.submittedBy t.id = [] ∧
    (rows.map WatchlistRow.pointer).Nodup
  | .reading due rest => t.watchlist = some (t.reads.map Prod.fst ++ rest) ∧
    due = dueRows o t.now t.reads ∧ w.submittedBy t.id = [] ∧
      ((t.reads.map Prod.fst ++ rest).map WatchlistRow.pointer).Nodup
  | stage => t.watchlist = none ∧ stage = .rejected [] ∨
    t.watchlist = some (t.reads.map Prod.fst) ∧
      ((t.reads.map Prod.fst).map WatchlistRow.pointer).Nodup ∧
      w.submittedBy t.id ++ stage.left.map (·.pointers) =
        (batches (dueRows o t.now t.reads)).map (·.pointers)

variable {o : Options} {w w' : World} {t t' : Tick} {event : Event}

theorem Tick.Ok.frame (hok : t.Ok o w) (h : w'.submittedBy t.id = w.submittedBy t.id) :
    t.Ok o w' := by
  unfold Tick.Ok at hok ⊢
  rw [h]
  exact hok

/-- What a tick does that goes on. -/
structure Moved (o : Options) (w w' : World) (t t' : Tick) : Prop where
  id : t'.id = t.id
  started : w'.started = w.started
  submitted : ∀ k, k ≠ t.id → w'.submittedBy k = w.submittedBy k
  ok : t'.Ok o w'

theorem submittedBy_append (w : World) (tick k start : ℕ) (pointers : List ContractDataPointer) :
    { w with submissions := w.submissions ++ [⟨tick, pointers, start⟩] : World }.submittedBy k =
      w.submittedBy k ++ if tick = k then [pointers] else [] := by
  unfold World.submittedBy
  rw [List.filter_append, List.map_append]
  by_cases h : tick = k <;> simp [h]

theorem dueRows_append (now : ℕ) (reads reads' : List (WatchlistRow × Entry)) :
    dueRows o now (reads ++ reads') = dueRows o now reads ++ dueRows o now reads' := by
  simp [dueRows]

theorem append_dueRows_singleton (due : List WatchlistRow) (now : ℕ) (row : WatchlistRow)
    (entry : Entry) : due ++ dueRows o now [(row, entry)] =
      match entry with
      | .error _ _ => due
      | .data ttl => if isDue o now row ttl then due ++ [row] else due := by
  unfold dueRows
  cases entry with
  | error code message => simp
  | data ttl => cases h : isDue o now row ttl <;> simp [h]

theorem resumed_of_resume {r : World × Tick} (hr : resume o event t w = some r) :
    Resumed o t w event r := by
  unfold resume at hr
  split at hr
  · rename_i rows hs
    split at hr
    · rename_i hperm
      cases hr
      exact .listed hs (List.isPerm_iff.1 hperm)
    · cases hr
  · rename_i hs
    cases hr
    exact .loadFailed (.inl hs)
  · rename_i rows hs
    cases hr
    exact .loadFailed (.inr ⟨rows, hs⟩)
  · rename_i rows hs
    cases hr
    exact .loaded hs
  · rename_i due row rest entry hs
    have h := Resumed.entry (o := o) (w := w) entry hs
    rw [append_dueRows_singleton] at h
    cases entry <;> cases hr <;> exact h
  · rename_i batch rest n hs
    cases hr
    exact .within (by rw [hs]; rfl) rfl (by simp) (by simp [Tick.upcoming, hs])
  · rename_i batch rest n hs
    split at hr
    · rename_i hle
      cases hr
      exact .within (by rw [hs]; rfl) rfl (by simp) (by simp [Tick.upcoming, hs, hle])
    · rename_i hle
      cases hr
      exact .next (by rw [hs]; rfl) (by simp) (by simp [Tick.upcoming, hs, hle])
  · rename_i batch rest n hs
    cases hr
    exact .within (by rw [hs]; rfl) rfl (by simp) (by simp [Tick.upcoming, hs])
  · rename_i batch rest hs
    cases hr
    exact .within (by rw [hs]; rfl) rfl (by simp) (by simp [Tick.upcoming, hs])
  · rename_i batch rest now hs
    cases hr
    exact .within (by rw [hs]; rfl) rfl (by simp) (by simp [Tick.upcoming, hs])
  · rename_i batch rest hs
    cases hr
    exact .next (by rw [hs]; rfl) (by simp) (by simp [Tick.upcoming, hs])
  · rename_i batch rest hs
    cases hr
    exact .thrown (by rw [hs]; rfl)
  · rename_i batch rest now hs
    cases hr
    exact .thrown (by rw [hs]; rfl)
  · rename_i batch rest hs
    cases hr
    exact .thrown (by rw [hs]; rfl)
  · cases hr

theorem submitNext_cases (t : Tick) {rest : List Batch} (w : World)
    (hsize : ∀ batch ∈ rest,
      1 ≤ batch.pointers.length ∧ batch.pointers.length ≤ maxBatchTtlEntries) :
    (rest = [] ∧ submitNext t rest w = (w, { t with stage := .resolved })) ∨
      ∃ batch left, rest = batch :: left ∧ submitNext t rest w =
        ({ w with submissions := w.submissions ++ [⟨t.id, batch.pointers, w.clock⟩] },
          { t with stage := .sending batch left 1 }) := by
  rcases rest with _ | ⟨batch, left⟩
  · exact .inl ⟨rfl, rfl⟩
  · obtain ⟨hpos, hle⟩ := hsize batch List.mem_cons_self
    refine .inr ⟨batch, left, rfl, ?_⟩
    simp only [submitNext]
    rw [if_neg (by omega), if_neg (by omega)]

/-- The list is read, and the next of its batches is to be submitted. -/
structure Ready (o : Options) (t : Tick) (rest : List Batch) (w : World) : Prop where
  watchlist : t.watchlist = some (t.reads.map Prod.fst)
  nodup : ((t.reads.map Prod.fst).map WatchlistRow.pointer).Nodup
  submitted : w.submittedBy t.id ++ rest.map (·.pointers) =
    (batches (dueRows o t.now t.reads)).map (·.pointers)

variable {rest : List Batch}

theorem Ready.size (h : Ready o t rest w) : ∀ batch ∈ rest,
    1 ≤ batch.pointers.length ∧ batch.pointers.length ≤ maxBatchTtlEntries := by
  intro batch hb
  have hmem : batch.pointers ∈ (batches (dueRows o t.now t.reads)).map (·.pointers) := by
    rw [← h.submitted]
    exact List.mem_append_right _ (List.mem_map_of_mem hb)
  obtain ⟨b, hb', he⟩ := List.mem_map.1 hmem
  rw [← he]
  exact size_batches b hb'

theorem moved_submitNext (h : Ready o t rest w) (hr : submitNext t rest w = (w', t')) :
    Moved o w w' t t' := by
  rcases submitNext_cases t w h.size with ⟨rfl, he⟩ | ⟨batch, left, rfl, he⟩ <;>
    rw [he, Prod.mk.injEq] at hr <;> obtain ⟨rfl, rfl⟩ := hr
  · exact ⟨rfl, rfl, fun _ _ => rfl, .inr ⟨h.watchlist, h.nodup, h.submitted⟩⟩
  · refine ⟨rfl, rfl, fun k hk => ?_, .inr ⟨h.watchlist, h.nodup, ?_⟩⟩
    · rw [submittedBy_append, if_neg (Ne.symm hk), List.append_nil]
    · rw [submittedBy_append, if_pos rfl, List.append_assoc]
      exact h.submitted

theorem moved_readNext {due rows : List WatchlistRow}
    (hlist : t.watchlist = some (t.reads.map Prod.fst ++ rows))
    (hdue : due = dueRows o t.now t.reads) (hsub : w.submittedBy t.id = [])
    (hnodup : ((t.reads.map Prod.fst ++ rows).map WatchlistRow.pointer).Nodup)
    (hr : readNext t due rows w = (w', t')) : Moved o w w' t t' := by
  rcases rows with _ | ⟨row, rows⟩
  · rw [List.append_nil] at hlist hnodup
    refine moved_submitNext ⟨hlist, hnodup, ?_⟩ hr
    rw [hsub, hdue, List.nil_append]
  · simp only [readNext, Prod.mk.injEq] at hr
    obtain ⟨rfl, rfl⟩ := hr
    exact ⟨rfl, rfl, fun _ _ => rfl, hlist, hdue, hsub, hnodup⟩

theorem Tick.Ok.ready (hok : t.Ok o w) (hs : t.stage.submitting = some rest) :
    Ready o t rest w := by
  unfold Tick.Ok at hok
  cases hst : t.stage <;> rw [hst] at hs hok <;> cases hs
  all_goals
    rcases hok with ⟨-, hrej⟩ | ⟨hlist, hnodup, hsub⟩
    · cases hrej
    · exact ⟨hlist, hnodup, hsub⟩

theorem Ready.ok {stage : Stage} {table : Table} (h : Ready o t rest w)
    (hs : stage.submitting = some rest) :
    ({ t with stage := stage } : Tick).Ok o { w with table := table } := by
  cases stage <;> cases hs
  all_goals exact .inr ⟨h.watchlist, h.nodup, h.submitted⟩

theorem Moved.keep {stage : Stage} (hok : ({ t with stage := stage } : Tick).Ok o w')
    (hsub : w'.submissions = w.submissions) (hstarted : w'.started = w.started) :
    Moved o w w' t { t with stage := stage } where
  id := rfl
  started := hstarted
  submitted k _ := by unfold World.submittedBy; rw [hsub]
  ok := hok

theorem nodup_rowsOf (table : Table) : ((rowsOf table).map WatchlistRow.pointer).Nodup := by
  unfold rowsOf
  rw [List.map_map]
  exact table.nodup

theorem resume_moved (hok : t.Ok o w) (hr : Resumed o t w event (w', t')) :
    Moved o w w' t t' := by
  generalize hr' : (w', t') = r at hr
  cases hr with
  | listed hs hp =>
    cases hr'
    simp only [Tick.Ok, hs] at hok
    exact .keep ⟨hok.1, hok.2.1, hok.2.2, (hp.map _).nodup_iff.2 (nodup_rowsOf _)⟩ rfl rfl
  | loadFailed hs =>
    cases hr'
    refine .keep (.inl ⟨?_, rfl⟩) rfl rfl
    rcases hs with hs | ⟨rows, hs⟩ <;> simp only [Tick.Ok, hs] at hok
    · exact hok.1
    · exact hok.1
  | @loaded rows hs =>
    simp only [Tick.Ok, hs] at hok
    obtain ⟨-, hreads, hsub, hnodup⟩ := hok
    have hm : Moved o w w' { t with watchlist := some rows, now := w.clock } t' := by
      refine moved_readNext ?_ ?_ hsub ?_ hr'.symm
      · simp [hreads]
      · simp [hreads, dueRows]
      · simpa [hreads] using hnodup
    exact ⟨hm.id, hm.started, hm.submitted, hm.ok⟩
  | @entry due rest row entry hs =>
    simp only [Tick.Ok, hs] at hok
    obtain ⟨hlist, rfl, hsub, hnodup⟩ := hok
    have hm : Moved o w w' { t with reads := t.reads ++ [(row, entry)] } t' := by
      refine moved_readNext ?_ (dueRows_append _ _ _).symm hsub ?_ hr'.symm
      · simpa using hlist
      · simpa using hnodup
    exact ⟨hm.id, hm.started, hm.submitted, hm.ok⟩
  | next hs he hup => exact moved_submitNext (hok.ready hs) hr'.symm
  | within hs hs' he hup =>
    cases hr'
    exact .keep (Ready.ok (hok.ready hs) hs') rfl rfl
  | thrown hs =>
    cases hr'
    have h := hok.ready hs
    exact .keep (.inr ⟨h.watchlist, h.nodup, h.submitted⟩) rfl rfl

/-- It has thrown, with batches left. -/
def Stage.stopped : Stage → Bool
  | .rejected (_ :: _) => true
  | _ => false

theorem stopped_rejected (rest : List Batch) :
    (Stage.rejected rest).stopped = true ↔ rest ≠ [] := by
  cases rest <;> simp [Stage.stopped]

theorem Stage.of_over {stage : Stage} (h : stage.over = true) :
    stage = .resolved ∨ ∃ rest, stage = .rejected rest := by
  cases stage with
  | resolved => exact .inl rfl
  | rejected rest => exact .inr ⟨rest, rfl⟩
  | _ => cases h

theorem Stage.stopped_of_over {stage : Stage} (h : stage.over = true) :
    stage.stopped = true ↔ stage.left ≠ [] := by
  rcases Stage.of_over h with rfl | ⟨rest, rfl⟩
  · simp [Stage.stopped, Stage.left]
  · exact stopped_rejected rest

theorem not_stopped_submitNext (h : Ready o t rest w) :
    (submitNext t rest w).2.stage.stopped = false := by
  rcases submitNext_cases t w h.size with ⟨-, he⟩ | ⟨batch, left, -, he⟩ <;> rw [he] <;> rfl

theorem not_stopped_readNext (due rows : List WatchlistRow) :
    (readNext t due rows w).2.stage.stopped = false := by
  rcases rows with _ | ⟨row, rows⟩
  · rcases submitNext_cases t w size_batches with ⟨-, he⟩ | ⟨batch, left, -, he⟩ <;>
      simp only [readNext] <;> rw [he] <;> rfl
  · rfl

theorem Stage.left_of_submitting {stage : Stage} (h : stage.submitting = some rest) :
    stage.left = rest ∧ stage.stopped = false := by
  cases stage <;> simp_all [Stage.submitting, Stage.left, Stage.stopped]

theorem stopped_iff (hok : t.Ok o w) (hr : Resumed o t w event (w', t')) :
    t'.stage.stopped = true ↔ event = .persistFailed ∧ t.stage.left ≠ [] := by
  have hcalm : event ≠ .persistFailed → t'.stage.stopped = false →
      (t'.stage.stopped = true ↔ event = .persistFailed ∧ t.stage.left ≠ []) := fun he hs => by
    simp [he, hs]
  generalize hr' : (w', t') = r at hr
  cases hr with
  | listed hs hp =>
    cases hr'
    exact hcalm (by simp) rfl
  | loadFailed hs =>
    cases hr'
    exact hcalm (by simp) rfl
  | loaded hs => exact hcalm (by simp) (by rw [(Prod.mk.inj hr').2]; exact not_stopped_readNext _ _)
  | entry _ hs => exact hcalm (by simp) (by rw [(Prod.mk.inj hr').2]; exact not_stopped_readNext _ _)
  | next hs he hup =>
    refine hcalm he ?_
    have h := not_stopped_submitNext (hok.ready hs)
    rwa [← hr'] at h
  | within hs hs' he hup =>
    cases hr'
    exact hcalm he (Stage.left_of_submitting hs').2
  | thrown hs =>
    cases hr'
    rw [(Stage.left_of_submitting hs).1]
    exact (stopped_rejected _).trans (by simp)

end Ticks

section Runs

/-- The step is not a transaction of the tick that throws with batches left. -/
def PersistsOrLast (k : ℕ) (s : State) (a : Action) : Prop :=
  ∀ t, a = .resume k .persistFailed → s.calls[k]? = some t → t.stage.left = []

/-- What is so in every state. -/
structure Inv (o : Options) (s : State) : Prop where
  ids : ∀ (k : ℕ) (t : Tick), s.calls[k]? = some t → t.id = k
  started : s.shared.started = s.calls.length
  ok : ∀ t ∈ s.calls, t.Ok o s.shared
  fresh : ∀ k, s.calls.length ≤ k → s.shared.submittedBy k = []

variable {o : Options} {s s' : State} {a : Action} {h : List (Taken State Action)} {k : ℕ}
  {t t' : Tick} {w : World}

theorem Inv.tick (hi : Inv o s) :
    Inv o ⟨{ s.shared with started := s.shared.started + 1 },
      s.calls ++ [{ id := s.shared.started }]⟩ := by
  refine ⟨fun k t ht => ?_, ?_, fun t ht => ?_, fun k hk => ?_⟩
  · rcases Calls.of_get_concat ht with ht | ⟨rfl, rfl⟩
    · exact hi.ids k t ht
    · exact hi.started
  · simp [hi.started]
  · rcases List.mem_append.1 ht with ht | ht
    · exact (hi.ok t ht).frame rfl
    · rw [List.mem_singleton] at ht
      subst ht
      exact ⟨rfl, rfl, hi.fresh _ (by rw [hi.started])⟩
  · refine hi.fresh k ?_
    simp only [List.length_append] at hk
    omega

theorem Inv.resume (hi : Inv o s) (hc : s.calls[k]? = some t) (hm : Moved o s.shared w t t') :
    Inv o ⟨w, s.calls.set k t'⟩ := by
  have hid : t.id = k := hi.ids k t hc
  refine ⟨fun i u hu => ?_, ?_, fun u hu => ?_, fun i hlen => ?_⟩
  · rcases Calls.of_get_set hu with ⟨rfl, rfl⟩ | ⟨-, hu⟩
    · exact hm.id.trans hid
    · exact hi.ids i u hu
  · rw [hm.started, hi.started, List.length_set]
  · obtain ⟨i, hui⟩ := List.mem_iff_getElem?.1 hu
    rcases Calls.of_get_set hui with ⟨rfl, rfl⟩ | ⟨hik, hui⟩
    · exact hm.ok
    · have hne : u.id ≠ t.id := by
        rw [hi.ids i u hui, hid]
        exact hik
      exact (hi.ok u (List.mem_of_getElem? hui)).frame (hm.submitted _ hne)
  · rw [List.length_set] at hlen
    have hne : i ≠ t.id := by
      have := Calls.lt_length hc
      omega
    rw [hm.submitted i hne]
    exact hi.fresh i hlen

theorem Inv.step (hi : Inv o s) (hs : (system o).step s a = some s') : Inv o s' := by
  rcases Calls.step_cases hs with ⟨_ | ms, rfl, rfl⟩ | ⟨k, event, t, w, t', rfl, hc, hr, rfl⟩
  · exact hi.tick
  · refine ⟨fun k t ht => ?_, ?_, fun t ht => ?_, fun k hk => ?_⟩
    · exact hi.ids k t (by simpa [ticks] using ht)
    · simpa [ticks] using hi.started
    · exact (hi.ok t (by simpa [ticks] using ht)).frame rfl
    · exact hi.fresh k (by simpa [ticks] using hk)
  · exact hi.resume hc (resume_moved (hi.ok t (List.mem_of_getElem? hc)) (resumed_of_resume hr))

theorem inv_of_run (hr : Run (system o) h s) : Inv o s := by
  refine hr.invariant (fun s hs => ?_) (fun s a s' hi hs => hi.step hs)
  obtain ⟨clock, table, rfl⟩ := hs
  exact ⟨by simp, rfl, by simp, fun _ _ => rfl⟩

/-- A tick has stopped with batches left just when its transaction has thrown then. -/
theorem stopped_of_run (hr : Run (system o) h s) (k : ℕ) :
    (∃ t, s.calls[k]? = some t ∧ t.stage.stopped = true) ↔ ¬ Along (PersistsOrLast k) h := by
  induction hr with
  | start hs =>
    obtain ⟨clock, table, rfl⟩ := hs
    simp [Along]
  | @next h s s' a hr hs ih =>
    have hcons : Along (PersistsOrLast k) (⟨s, a, s'⟩ :: h) ↔
        PersistsOrLast k s a ∧ Along (PersistsOrLast k) h := List.forall_mem_cons
    rw [hcons, not_and_or, ← ih]
    have hi := inv_of_run hr
    rcases Calls.step_cases hs with ⟨input, rfl, rfl⟩ | ⟨j, event, t, w, t', rfl, hc, hr', rfl⟩
    · -- a new tick has not stopped, and no transaction throws
      have hP : PersistsOrLast k s (.enter input) := fun t ha => by cases ha
      simp only [hP, not_true_eq_false, false_or]
      constructor
      · rintro ⟨t, ht, hst⟩
        rcases Calls.of_get_append ht with ht | ⟨-, ht⟩
        · exact ⟨t, ht, hst⟩
        · cases input with
          | tick =>
            simp only [ticks, List.mem_singleton] at ht
            rw [ht] at hst
            cases hst
          | pass ms => cases ht
      · rintro ⟨t, ht, hst⟩
        exact ⟨t, Calls.get_append ht, hst⟩
    · by_cases hjk : k = j
      · subst hjk
        have hold : ¬ ∃ u, s.calls[k]? = some u ∧ u.stage.stopped = true := by
          rintro ⟨u, hu, hst⟩
          rw [hc, Option.some.injEq] at hu
          subst hu
          cases hs' : t.stage <;> rw [hs'] at hst <;> simp only [Stage.stopped] at hst <;>
            first | cases hst | simp [ticks, StateArchival.resume, hs'] at hr'
        have hiff := stopped_iff (hi.ok t (List.mem_of_getElem? hc)) (resumed_of_resume hr')
        simp only [hold, or_false]
        constructor
        · rintro ⟨u, hu, hst⟩ hP
          rw [Calls.get_set_self hc, Option.some.injEq] at hu
          subst hu
          obtain ⟨rfl, hleft⟩ := hiff.1 hst
          exact hleft (hP t rfl hc)
        · intro hP
          refine ⟨t', Calls.get_set_self hc, hiff.2 ?_⟩
          simp only [PersistsOrLast, not_forall] at hP
          obtain ⟨u, ha, hu, hleft⟩ := hP
          rw [hc, Option.some.injEq] at hu
          subst hu
          cases ha
          exact ⟨rfl, hleft⟩
      · have hP : PersistsOrLast k s (.resume j event) := fun u ha => by
          cases ha
          exact absurd rfl hjk
        simp only [hP, not_true_eq_false, false_or, Calls.get_set_of_ne hjk]

def Tick.duePointers (o : Options) (t : Tick) : List ContractDataPointer :=
  (dueRows o t.now t.reads).map WatchlistRow.pointer

/-- A tick that has loaded the list and is over has read every row of it, and has submitted the due
pointers, each once and in batches as they should be, just when no transaction that was to keep a
renewal of it threw while batches were left. -/
theorem renewed_iff (hr : Run (system o) h s) (hc : s.calls[k]? = some t)
    {watchlist : List WatchlistRow} (hload : t.watchlist = some watchlist)
    (hover : t.stage.over = true) : t.reads.map Prod.fst = watchlist ∧
      (Partition (t.duePointers o) (s.shared.submittedBy k) ↔ Along (PersistsOrLast k) h) := by
  have hi := inv_of_run hr
  have hok := hi.ok t (List.mem_of_getElem? hc)
  have hid := hi.ids k t hc
  unfold Tick.Ok at hok
  have hdone : t.watchlist = some (t.reads.map Prod.fst) ∧
      ((t.reads.map Prod.fst).map WatchlistRow.pointer).Nodup ∧
      s.shared.submittedBy t.id ++ t.stage.left.map (·.pointers) =
        (batches (dueRows o t.now t.reads)).map (·.pointers) := by
    rcases Stage.of_over hover with hst | ⟨rest, hst⟩ <;> rw [hst] at hok ⊢ <;>
      rcases hok with ⟨hnone, -⟩ | hok
    · rw [hload] at hnone
      cases hnone
    · exact hok
    · rw [hload] at hnone
      cases hnone
    · exact hok
  obtain ⟨hlist, hnodup, hsub⟩ := hdone
  rw [hload, Option.some.injEq] at hlist
  rw [hid] at hsub
  have hdue : (t.duePointers o).Nodup := by
    refine hnodup.sublist ?_
    exact (List.filter_sublist.map _).map _
  refine ⟨hlist.symm, ?_⟩
  have hstop : (∃ u, s.calls[k]? = some u ∧ u.stage.stopped = true) ↔ t.stage.left ≠ [] := by
    rw [← Stage.stopped_of_over hover]
    constructor
    · rintro ⟨u, hu, hst⟩
      rw [hc, Option.some.injEq] at hu
      rwa [hu]
    · exact fun hst => ⟨t, hc, hst⟩
  constructor
  · intro hp
    by_contra hnot
    have hleft := hstop.1 ((stopped_of_run hr k).2 hnot)
    exact not_partition_of_left hdue (by simpa using hleft) hsub hp
  · intro hall
    have hleft : t.stage.left = [] := by
      by_contra hleft
      exact (stopped_of_run hr k).1 (hstop.2 hleft) hall
    rw [hleft, List.map_nil, List.append_nil] at hsub
    rw [hsub]
    exact partition_batches hdue

/-- A table of so many contracts, never renewed. -/
def unrenewed (contracts : List String) : Table :=
  contracts.foldl (fun table c => table.set ⟨c, "K"⟩ ⟨100, none⟩) {}

/-- One row cannot be read, and the transaction of the last batch throws. -/
theorem renewed_iff_read_error : ∃ h s t, Run (system {}) h s ∧ s.calls[0]? = some t ∧
    t.reads.map Prod.fst = rowsOf (unrenewed ["A", "B", "C"]) ∧
    Partition (t.duePointers {}) (s.shared.submittedBy 0) ∧
    s.shared.submittedBy 0 = [[⟨"A", "K"⟩], [⟨"C", "K"⟩]] := by
  obtain ⟨h, s, hr, hp⟩ := Sys.exists_run (S := system {})
    (s := ⟨{ clock := 1000000, table := unrenewed ["A", "B", "C"] }, []⟩) ⟨_, _, rfl⟩
    [.enter .tick, .resume 0 (.listed (rowsOf (unrenewed ["A", "B", "C"]))), .resume 0 .loaded,
      .resume 0 (.entry (.data 10)), .resume 0 (.entry (.error 500 "down")),
      .resume 0 (.entry (.data 10)), .resume 0 (.sent true), .resume 0 .began,
      .resume 0 .committed, .resume 0 .persisted, .resume 0 (.sent true),
      .resume 0 .persistFailed]
    (p := fun r => r.2.calls.map (·.watchlist) == [some (rowsOf (unrenewed ["A", "B", "C"]))] &&
      r.2.calls.map (·.stage) == [.rejected []] &&
      r.2.shared.submittedBy 0 == [[⟨"A", "K"⟩], [⟨"C", "K"⟩]])
    (by decide +kernel)
  simp only [Bool.and_eq_true, beq_iff_eq] at hp
  obtain ⟨⟨hload, hstage⟩, hsub⟩ := hp
  have hlen : s.calls.length = 1 := by simpa using congrArg List.length hstage
  obtain ⟨t, hc⟩ := List.length_eq_one_iff.1 hlen
  simp only [hc, List.map_cons, List.map_nil, List.cons.injEq, and_true] at hload hstage
  have ht : s.calls[0]? = some t := by rw [hc]; rfl
  have hall : Along (PersistsOrLast 0) h := by
    by_contra hnot
    obtain ⟨u, hu, hst⟩ := (stopped_of_run hr 0).2 hnot
    rw [ht, Option.some.injEq] at hu
    rw [← hu, hstage] at hst
    cases hst
  obtain ⟨hread, hiff⟩ := renewed_iff hr ht hload (by rw [hstage]; rfl)
  exact ⟨h, s, t, hr, ht, hread, hiff.2 hall, hsub⟩

/-- The transaction of the first batch throws, and the other contract is not renewed. -/
theorem not_renewed_after_throw : ∃ h s t, Run (system {}) h s ∧ s.calls[0]? = some t ∧
    t.watchlist = some (rowsOf (unrenewed ["A", "B"])) ∧ t.stage = .rejected [⟨"B", [⟨"B", "K"⟩]⟩] ∧
    t.duePointers {} = [⟨"A", "K"⟩, ⟨"B", "K"⟩] ∧ s.shared.submittedBy 0 = [[⟨"A", "K"⟩]] ∧
    ¬ Partition (t.duePointers {}) (s.shared.submittedBy 0) := by
  obtain ⟨h, s, hr, hp⟩ := Sys.exists_run (S := system {})
    (s := ⟨{ clock := 1000000, table := unrenewed ["A", "B"] }, []⟩) ⟨_, _, rfl⟩
    [.enter .tick, .resume 0 (.listed (rowsOf (unrenewed ["A", "B"]))), .resume 0 .loaded,
      .resume 0 (.entry (.data 10)), .resume 0 (.entry (.data 10)), .resume 0 (.sent true),
      .resume 0 .persistFailed]
    (p := fun r => r.2.calls == [⟨0, .rejected [⟨"B", [⟨"B", "K"⟩]⟩],
        some (rowsOf (unrenewed ["A", "B"])), 1000000,
        (rowsOf (unrenewed ["A", "B"])).map fun row => (row, .data 10)⟩] &&
      r.2.shared.submittedBy 0 == [[⟨"A", "K"⟩]])
    (by decide +kernel)
  simp only [Bool.and_eq_true, beq_iff_eq] at hp
  obtain ⟨hc, hsub⟩ := hp
  refine ⟨h, s, _, hr, by rw [hc]; rfl, rfl, rfl, by decide +kernel, hsub, fun hpart => ?_⟩
  have hb := hpart.once ⟨"B", "K"⟩ (by decide +kernel)
  rw [hsub] at hb
  simp at hb

end Runs

end StateArchival

end VeriNode

/-!
# The gap between renewals

A tick keeps the gap from the time that the list it loaded has for a pointer. An attempt is on that
list only when it succeeded, its transaction had its effect, and both were over before the list was
read. What a step submits is said once (`submissions_of_resumed`); that it is due by the list the
tick loaded is `due_of_upcoming`. So attempts are the gap apart just when none is made while another
that its tick does not see is younger (`spaced_iff`).
-/

namespace VeriNode

namespace StateArchival

section Attempts

/-- What is submitted when batches are come to. -/
def World.attempt (w : World) (tick : ℕ) (rest : List Batch) : List Submission :=
  (rest.take 1).map fun batch => ⟨tick, batch.pointers, w.clock⟩

variable {o : Options} {w w' : World} {t t' : Tick} {event : Event} {rest : List Batch}

theorem submissions_submitNext (t : Tick) (w : World) (hsize : ∀ batch ∈ rest,
    1 ≤ batch.pointers.length ∧ batch.pointers.length ≤ maxBatchTtlEntries) :
    (submitNext t rest w).1.clock = w.clock ∧
      (submitNext t rest w).1.submissions = w.submissions ++ w.attempt t.id rest ∧
      (submitNext t rest w).2.now = t.now := by
  rcases submitNext_cases t w hsize with ⟨rfl, he⟩ | ⟨batch, left, rfl, he⟩ <;> rw [he]
  · exact ⟨rfl, (List.append_nil _).symm, rfl⟩
  · exact ⟨rfl, rfl, rfl⟩

/-- A tick takes no time, and what it submits is the next of the batches that come. -/
theorem submissions_of_resumed (hok : t.Ok o w) (hr : Resumed o t w event (w', t')) :
    w'.clock = w.clock ∧
      w'.submissions = w.submissions ++ w.attempt t.id (t.upcoming o event) ∧
      (t'.now = t.now ∨ t'.now = w.clock) := by
  generalize hr' : (w', t') = r at hr
  cases hr with
  | listed hs hp =>
    cases hr'
    simp [Tick.upcoming, World.attempt, hs]
  | loadFailed hs =>
    cases hr'
    rcases hs with hs | ⟨rows, hs⟩ <;> simp [Tick.upcoming, World.attempt, hs]
  | @loaded rows hs =>
    have hup : t.upcoming o .loaded = [] := by simp [Tick.upcoming, hs]
    rw [hup]
    rcases rows with _ | ⟨row, rows⟩
    · have hsub := submissions_submitNext { t with watchlist := some [], now := w.clock } w
        (@size_batches [])
      simp only [readNext] at hr'
      rw [← hr'] at hsub
      exact ⟨hsub.1, hsub.2.1, .inr hsub.2.2⟩
    · cases hr'
      exact ⟨rfl, (List.append_nil _).symm, .inr rfl⟩
  | @entry due rows row entry hs =>
    rcases rows with _ | ⟨row', rows⟩
    · -- the last entry is followed by the first batch
      have hup : t.upcoming o (.entry entry) = batches (due ++ dueRows o t.now [(row, entry)]) := by
        simp [Tick.upcoming, hs]
      have hsub := submissions_submitNext { t with reads := t.reads ++ [(row, entry)] } w
        (@size_batches (due ++ dueRows o t.now [(row, entry)]))
      simp only [readNext] at hr'
      rw [← hr'] at hsub
      rw [hup]
      exact ⟨hsub.1, hsub.2.1, .inl hsub.2.2⟩
    · cases hr'
      simp [Tick.upcoming, World.attempt, hs]
  | next hs he hup =>
    have hsub := submissions_submitNext t w (hok.ready hs).size
    rw [← hr'] at hsub
    rw [hup]
    exact ⟨hsub.1, hsub.2.1, .inl hsub.2.2⟩
  | within hs hs' he hup =>
    cases hr'
    simp [World.attempt, hup]
  | @thrown rest hs =>
    cases hr'
    have hup : t.upcoming o .persistFailed = [] := by
      unfold Tick.upcoming
      split <;> simp_all
    simp [World.attempt, hup]

end Attempts

section Runs

/-- No two attempts of a pointer start within the gap. -/
def State.Spaced (o : Options) (s : State) : Prop :=
  s.shared.submissions.Pairwise fun a b => ∀ p ∈ a.pointers, p ∈ b.pointers →
    o.minRenewalGapMs.lt (.fin |(b.start : ℚ) - a.start|) = true

/-- What is so of the times in every state. -/
structure Timed (s : State) : Prop where
  now : ∀ t ∈ s.calls, t.now ≤ s.shared.clock
  start : ∀ a ∈ s.shared.submissions, a.start ≤ s.shared.clock

variable {o : Options} {s s' : State} {a : Action} {h : List (Taken State Action)}

theorem Timed.step (hi : Inv o s) (ht : Timed s) (hs : (system o).step s a = some s') :
    Timed s' := by
  rcases Calls.step_cases hs with ⟨_ | ms, rfl, rfl⟩ | ⟨k, event, t, w, t', rfl, hc, hr, rfl⟩
  · refine ⟨fun t htm => ?_, ht.start⟩
    rcases List.mem_append.1 htm with htm | htm
    · exact ht.now t htm
    · rw [List.mem_singleton.1 htm]
      exact Nat.zero_le _
  · refine ⟨fun t htm => ?_, fun b hb => (ht.start b hb).trans (Nat.le_add_right _ _)⟩
    have htm' : t ∈ s.calls := by simpa [ticks] using htm
    exact (ht.now t htm').trans (Nat.le_add_right _ _)
  · have hmem := List.mem_of_getElem? hc
    obtain ⟨hclock, hsub, hnow⟩ := submissions_of_resumed (hi.ok t hmem) (resumed_of_resume hr)
    refine ⟨fun u hu => ?_, fun b hb => ?_⟩
    · show u.now ≤ w.clock
      rw [hclock]
      rcases List.mem_or_eq_of_mem_set hu with hu | rfl
      · exact ht.now u hu
      · rcases hnow with hnow | hnow <;> rw [hnow]
        exact ht.now t hmem
    · show b.start ≤ w.clock
      rw [hclock]
      rw [show (⟨w, s.calls.set k t'⟩ : State).shared.submissions = w.submissions from rfl,
        hsub] at hb
      rcases List.mem_append.1 hb with hb | hb
      · exact ht.start b hb
      · obtain ⟨batch, -, rfl⟩ := List.mem_map.1 hb
        exact le_rfl

end Runs

end StateArchival

end VeriNode
