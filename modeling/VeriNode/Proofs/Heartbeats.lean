import Mathlib.Data.List.Induction
import VeriNode.Database.Uptime

/-!
# Batches of heartbeats

The loop of a batch keeps the placeholders of a row at the values of its heartbeat (`inv_push`), so
a batch inserts what its heartbeats would insert one by one, as long as its values can be counted
(`batch_meets_iff`).
-/

namespace VeriNode

namespace Uptime

variable {ν : Type} [JsonNumber ν] {hb : UpsertHeartbeatParams ν}
variable {heartbeats : List (UpsertHeartbeatParams ν)} {b : Batch} {values values' : List Bound}
variable {row : List Placeholder}

section Rows

/-- The casts of a row, in the order of the columns. -/
def casts : List String := ["", "", "::inet", "", "", "", "", "::jsonb"]

/-- What the values of a heartbeat are inserted as. -/
def columns (hb : UpsertHeartbeatParams ν) : List (String × Bound) := casts.zip (heartbeatValues hb)

/-- Placeholders with these casts, from an index on. -/
def rowFrom : ℕ → List String → List Placeholder
  | _, [] => []
  | idx, c :: cs => ⟨idx, c⟩ :: rowFrom (idx + 1) cs

theorem rowAt_eq (idx : ℕ) : rowAt idx = rowFrom idx casts := rfl

theorem length_heartbeatValues (hb : UpsertHeartbeatParams ν) : (heartbeatValues hb).length = 8 :=
  rfl

theorem denote_rowFrom : ∀ (cs : List String) (vs values : List Bound), cs.length = vs.length →
    denote (values ++ vs) (rowFrom (values.length + 1) cs) = some (cs.zip vs)
  | [], vs, values, hlen => by
    obtain rfl := List.eq_nil_of_length_eq_zero hlen.symm
    rfl
  | c :: cs, [], values, hlen => by simp at hlen
  | c :: cs, v :: vs, values, hlen => by
    have ih := denote_rowFrom cs vs (values ++ [v]) (Nat.succ.inj hlen)
    rw [List.append_assoc, List.singleton_append, List.length_append] at ih
    have hv : (values ++ v :: vs)[values.length + 1 - 1]? = some v := by
      rw [Nat.add_sub_cancel, List.getElem?_append_right le_rfl, Nat.sub_self]
      rfl
    unfold denote at ih ⊢
    rw [rowFrom, List.mapM_cons, hv]
    simp only [Option.map_some, Option.bind_eq_bind, Option.bind_some]
    rw [show values.length + 1 + 1 = values.length + [v].length + 1 from rfl, ih]
    rfl

theorem denote_append (values' : List Bound) : ∀ {row : List Placeholder},
    (∀ p ∈ row, 1 ≤ p.index ∧ p.index ≤ values.length) →
      denote (values ++ values') row = denote values row
  | [], _ => rfl
  | p :: row, h => by
    have ih := denote_append values' fun q hq => h q (List.mem_cons_of_mem p hq)
    obtain ⟨h1, h2⟩ := h p List.mem_cons_self
    unfold denote at ih ⊢
    rw [List.mapM_cons, List.mapM_cons, List.getElem?_append_left (by omega), ih]

theorem indices_rowFrom : ∀ (cs : List String) (idx : ℕ),
    (rowFrom idx cs).map (·.index) = List.range' idx cs.length
  | [], _ => rfl
  | _ :: cs, idx => by
    rw [rowFrom, List.map_cons, indices_rowFrom cs, List.length_cons, List.range'_succ]

end Rows

section Loop

/-- What the loop keeps: after some heartbeats, the placeholders are numbered through, and the rows
stand for the values of the heartbeats. -/
structure Inv (heartbeats : List (UpsertHeartbeatParams ν)) (b : Batch) : Prop where
  idx : b.idx = b.values.length + 1
  length : b.values.length = 8 * heartbeats.length
  indices : b.placeholders.flatten.map (·.index) = List.range' 1 b.values.length
  rows : b.placeholders.map (denote b.values) = heartbeats.map fun hb => some (columns hb)

theorem inv_nil : Inv ([] : List (UpsertHeartbeatParams ν)) {} := ⟨rfl, rfl, rfl, rfl⟩

theorem Inv.index_le (hi : Inv heartbeats b) (hrow : row ∈ b.placeholders) :
    ∀ p ∈ row, 1 ≤ p.index ∧ p.index ≤ b.values.length := by
  intro p hp
  have hmem : p.index ∈ b.placeholders.flatten.map (·.index) :=
    List.mem_map_of_mem (List.mem_flatten.2 ⟨row, hrow, hp⟩)
  rw [hi.indices, List.mem_range'_1] at hmem
  omega

theorem inv_push (hi : Inv heartbeats b) (hb : UpsertHeartbeatParams ν) :
    Inv (heartbeats ++ [hb]) (b.push hb) := by
  have hlen : (b.push hb).values.length = b.values.length + 8 :=
    List.length_append.trans (congrArg (b.values.length + ·) (length_heartbeatValues hb))
  constructor
  · rw [hlen]
    exact congrArg (· + 8) hi.idx
  · rw [hlen, hi.length, List.length_append, List.length_singleton]
    omega
  · show (b.placeholders ++ [rowAt b.idx]).flatten.map (·.index) = _
    rw [List.flatten_append, List.map_append, hi.indices, List.flatten_singleton, rowAt_eq,
      indices_rowFrom, hi.idx, hlen, Nat.add_comm b.values.length 1]
    exact List.range'_append_1
  · show (b.placeholders ++ [rowAt b.idx]).map (denote (b.values ++ heartbeatValues hb)) = _
    rw [List.map_append, List.map_append, List.map_singleton, List.map_singleton, ← hi.rows, hi.idx,
      rowAt_eq, denote_rowFrom casts (heartbeatValues hb) b.values rfl]
    refine congrArg (· ++ _) (List.map_congr_left fun row hrow => ?_)
    exact denote_append _ (hi.index_le hrow)

theorem inv_build (heartbeats : List (UpsertHeartbeatParams ν)) :
    Inv heartbeats (heartbeats.foldl Batch.push {}) := by
  induction heartbeats using List.reverseRecOn with
  | nil => exact inv_nil
  | append_singleton heartbeats hb ih =>
    rw [List.foldl_concat]
    exact inv_push ih hb

end Loop

section Tables

variable {Row : Type} {convert : List (String × Bound) → Option Row} {table table' : List Row}

/-- The table after the statements, in a transaction: none of them, if one is refused. -/
def runBatch (convert : List (String × Bound) → Option Row) (table : List Row)
    (heartbeats : List (UpsertHeartbeatParams ν)) : Option (List Row) :=
  (insertHeartbeatBatch heartbeats).foldlM (execute convert) table

/-- The table after the heartbeats, one by one. -/
def insertEach (convert : List (String × Bound) → Option Row) (table : List Row)
    (heartbeats : List (UpsertHeartbeatParams ν)) : Option (List Row) :=
  heartbeats.foldlM (fun table hb => execute convert table (insertHeartbeat hb)) table

theorem denote_insertHeartbeat (hb : UpsertHeartbeatParams ν) :
    denote (insertHeartbeat hb).values (rowAt 1) = some (columns hb) :=
  denote_rowFrom casts (heartbeatValues hb) [] rfl

theorem execute_insertHeartbeat (hb : UpsertHeartbeatParams ν) :
    execute convert table (insertHeartbeat hb) =
      (convert (columns hb)).map fun row => table ++ [row] := by
  have hfew : ¬ maxParameters < (insertHeartbeat hb).values.length := by
    show ¬ 65535 < 8
    decide
  have hrows : (insertHeartbeat hb).rows = [rowAt 1] := rfl
  unfold execute
  rw [if_neg hfew, hrows, List.mapM_cons, denote_insertHeartbeat, List.mapM_nil]
  cases hc : convert (columns hb) <;> simp [hc]

theorem insertEach_eq : ∀ (heartbeats : List (UpsertHeartbeatParams ν)) (table : List Row),
    insertEach convert table heartbeats =
      (heartbeats.mapM fun hb => convert (columns hb)).map (table ++ ·)
  | [], table => by simp [insertEach]
  | hb :: heartbeats, table => by
    have ih := insertEach_eq heartbeats
    unfold insertEach at ih ⊢
    rw [List.foldlM_cons, execute_insertHeartbeat, List.mapM_cons]
    cases hc : convert (columns hb) with
    | none => rfl
    | some row =>
      simp only [Option.map_some, Option.bind_eq_bind, Option.bind_some, ih]
      cases heartbeats.mapM fun hb => convert (columns hb) <;> simp

theorem mapM_denote {rows : List (List Placeholder)}
    (h : rows.map (denote values) = heartbeats.map fun hb => some (columns hb)) :
    (rows.mapM fun row => (denote values row).bind convert) =
      heartbeats.mapM fun hb => convert (columns hb) := by
  have hrows : (rows.mapM fun row => (denote values row).bind convert) =
      (rows.map (denote values)).mapM fun r => r.bind convert := by
    rw [List.mapM_map]
    rfl
  rw [hrows, h, List.mapM_map]
  rfl

theorem insertHeartbeatBatch_eq (hne : heartbeats ≠ []) : insertHeartbeatBatch heartbeats =
    [⟨(heartbeats.foldl Batch.push {}).placeholders, (heartbeats.foldl Batch.push {}).values⟩] :=
  if_neg fun he => hne (List.isEmpty_iff.1 he)

theorem runBatch_eq (hne : heartbeats ≠ []) (hlen : heartbeats.length ≤ 8191) :
    runBatch convert table heartbeats = insertEach convert table heartbeats := by
  have hi := inv_build heartbeats
  have hfew : ¬ maxParameters < (heartbeats.foldl Batch.push {}).values.length := by
    rw [hi.length, maxParameters]
    omega
  unfold runBatch execute
  rw [insertHeartbeatBatch_eq hne, List.foldlM_cons, if_neg hfew, mapM_denote hi.rows,
    insertEach_eq]
  simp

end Tables

section Batches

/-- A batch inserts exactly its heartbeats: it is one statement, whose rows stand for the values of
the heartbeats and whose placeholders are each used once, with no more values than can be counted,
and a table is after it what it is after the heartbeats one by one. -/
structure Meets (heartbeats : List (UpsertHeartbeatParams ν)) (st : Statement) : Prop where
  one : insertHeartbeatBatch heartbeats = [st]
  rows : ∀ i : ℕ, (st.rows[i]?).map (denote st.values) =
    (heartbeats[i]?).map fun hb => some (casts.zip (heartbeatValues hb))
  once : ∀ k < st.values.length, (st.rows.flatten.map (·.index)).count (k + 1) = 1
  limit : st.values.length ≤ 65535
  same : ∀ (Row : Type) (convert : List (String × Bound) → Option Row) (table table' : List Row),
    insertEach convert table heartbeats = some table' →
      runBatch convert table heartbeats = some table'

theorem Meets.length_le {st : Statement} (hmeets : Meets heartbeats st) (hne : heartbeats ≠ []) :
    heartbeats.length ≤ 8191 := by
  have hst := hmeets.one
  rw [insertHeartbeatBatch_eq hne, List.cons.injEq] at hst
  have hlimit := hmeets.limit
  rw [← hst.1, (inv_build heartbeats).length] at hlimit
  omega

/-- A batch of up to 8191 heartbeats inserts exactly its heartbeats, and no longer one does. -/
theorem batch_meets_iff (hne : heartbeats ≠ []) :
    (∃ st, Meets heartbeats st) ↔ heartbeats.length ≤ 8191 := by
  have hi := inv_build heartbeats
  constructor
  · rintro ⟨st, hmeets⟩
    exact hmeets.length_le hne
  · intro hlen
    refine ⟨_, insertHeartbeatBatch_eq hne, fun i => ?_, fun k hk => ?_, ?_, ?_⟩
    · have hrows := congrArg (·[i]?) hi.rows
      simp only [List.getElem?_map] at hrows
      exact hrows
    · have hk : k < (heartbeats.foldl Batch.push {}).values.length := hk
      rw [hi.indices]
      refine List.count_eq_one_of_mem List.nodup_range' (List.mem_range'_1.2 ?_)
      omega
    · rw [hi.length]
      omega
    · intro Row convert table table' heach
      rw [runBatch_eq hne hlen, heach]

def upHeartbeat : UpsertHeartbeatParams ℕ :=
  { time := .epoch, nodeId := "node-1", latencyMs := 12, status := .up, uptimePct := 100 }

theorem batch_meets_iff_two : ∃ st, Meets [upHeartbeat, upHeartbeat] st :=
  (batch_meets_iff (by decide +kernel)).2 (by decide)

/-- The values of the heartbeats are one more than can be counted. -/
theorem batch_of_8192_fails : ¬ ∃ st, Meets (List.replicate 8192 upHeartbeat) st := by
  rintro ⟨st, hmeets⟩
  have hlen : (List.replicate 8192 upHeartbeat).length = 8192 := List.length_replicate
  have hle := hmeets.length_le (List.ne_nil_of_length_pos (by omega))
  omega

end Batches

end Uptime

end VeriNode
