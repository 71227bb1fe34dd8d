import VeriNode.ConfigDrift.Storage
import Mathlib.Data.List.DropRight

/-!
# What the history holds

The records in memory are the last of all that were added (`inMemory_after`), whether or not the
process started again, as long as there is a file. `history` returns the last of these, but all of
them where none are asked for (`history_eq`).
-/

namespace VeriNode

namespace ConfigDrift

section Windows

variable {α : Type*}

theorem shiftTo_eq (max : ℕ) (xs : List α) : shiftTo max xs = xs.rtake max := by
  induction xs with
  | nil => rw [shiftTo, List.rtake_nil]
  | cons x xs ih =>
    rw [shiftTo]
    split_ifs with h
    · have hdrop : (x :: xs).length - max = (xs.length - max) + 1 := by
        rw [List.length_cons] at h ⊢
        omega
      rw [ih, List.rtake, List.rtake, hdrop, List.drop_succ_cons]
    · rw [List.rtake, Nat.sub_eq_zero_of_le (Nat.le_of_not_lt h), List.drop_zero]

theorem rtake_rtake_append (n : ℕ) (xs ys : List α) :
    (xs.rtake n ++ ys).rtake n = (xs ++ ys).rtake n := by
  unfold List.rtake
  rw [List.length_append, List.length_append, List.length_drop]
  rcases Nat.le_total xs.length n with h | h
  · rw [Nat.sub_eq_zero_of_le h, List.drop_zero, Nat.sub_zero]
  · rw [List.drop_append, List.drop_append, List.drop_drop, List.length_drop]
    congr 2 <;> omega

theorem slice_neg {n : ℕ} (h : n ≠ 0) (xs : List α) : slice (-n) xs = xs.rtake n := by
  rw [slice, if_pos (by omega), List.rtake]
  congr 1
  omega

theorem slice_neg_zero (xs : List α) : slice (-(0 : ℕ)) xs = xs := rfl

theorem rtake_eq_nil_iff {n : ℕ} (h : n ≠ 0) {xs : List α} : xs.rtake n = [] ↔ xs = [] := by
  rw [List.rtake, List.drop_eq_nil_iff]
  constructor
  · intro hle
    exact List.length_eq_zero_iff.1 (by omega)
  · rintro rfl
    exact Nat.zero_le _

end Windows

namespace DriftStorage

variable {ν : Type*} [ReadableNumber ν] {options : DriftStorageOptions}

theorem readLine_chars (r : DriftSnapshotRecord ν) : readLine (Json.chars r.json) = some r.json := by
  have hblank : JsString.isBlank (Json.stringify r.json) = false := by
    obtain ⟨⟨json, hw⟩, hid⟩ := r
    cases json with
    | obj fields =>
      rw [JsString.isBlank, Json.stringify, String.toList_ofList]
      cases fields <;> rfl
    | _ => cases hid
  have hparse := Json.parse_stringify r.wellFormed
  rw [Json.stringify] at hblank hparse
  rw [readLine, hblank, if_neg Bool.false_ne_true, hparse, Option.filter_some, r.hasId, if_pos rfl]

/-- The lines of a file that records were appended to. -/
def written (rs : List (DriftSnapshotRecord ν)) : String :=
  String.ofList ((rs.map fun r => Json.chars r.json).flatMap (· ++ ['\n']))

theorem written_append (rs : List (DriftSnapshotRecord ν)) (r : DriftSnapshotRecord ν) :
    written (rs ++ [r]) = written rs ++ (Json.stringify r.json ++ "\n") := by
  apply String.toList_injective
  simp [written, Json.stringify]

theorem read_written (rs : List (DriftSnapshotRecord ν)) :
    (Json.splitLines (written rs).toList).filterMap readLine = rs.map (·.json) := by
  rw [written, String.toList_ofList, Json.splitLines_lines, List.filterMap_append]
  · have hend : List.filterMap (readLine (ν := ν)) [[]] = [] := rfl
    rw [hend, List.append_nil, List.filterMap_map, ← List.filterMap_eq_map]
    refine List.filterMap_congr fun r _ => ?_
    exact readLine_chars r
  · intro line hline
    obtain ⟨r, -, rfl⟩ := List.mem_map.1 hline
    exact Json.not_control_chars r.json

/-- The records that the storage has been given: since it started, if there is no file. -/
def given (persists : Bool) (rs : List (DriftSnapshotRecord ν)) :
    Event ν → List (DriftSnapshotRecord ν)
  | .add r => rs ++ [r]
  | .restart => if persists then rs else []

def allGiven (persists : Bool) (events : List (Event ν)) : List (DriftSnapshotRecord ν) :=
  events.foldl (given persists) []

/-- A storage that was given these records. -/
structure Holds (options : DriftStorageOptions) (rs : List (DriftSnapshotRecord ν))
    (s : DriftStorage ν) : Prop where
  options_eq : s.options = options
  inMemory_eq : s.inMemory = (rs.map (·.json)).rtake options.limit
  file_eq : options.persists = true → s.file.getD "" = written rs

theorem holds_construct : Holds options [] (construct options none : DriftStorage ν) where
  options_eq := rfl
  inMemory_eq := (List.rtake_nil _).symm
  file_eq _ := rfl

variable {rs : List (DriftSnapshotRecord ν)} {s : DriftStorage ν}

theorem Holds.add (h : Holds options rs s) (r : DriftSnapshotRecord ν) :
    Holds options (rs ++ [r]) (s.add r.json) where
  options_eq := h.options_eq
  inMemory_eq := by
    rw [DriftStorage.add, shiftTo_eq, h.options_eq, h.inMemory_eq, rtake_rtake_append,
      List.map_append, List.map_singleton]
  file_eq hp := by
    rw [DriftStorage.add, h.options_eq, if_pos hp, Option.getD_some, h.file_eq hp, written_append]

theorem inMemory_construct (options : DriftStorageOptions) (content : String) :
    (construct options (some content) : DriftStorage ν).inMemory
      = if options.persists then
          shiftTo options.limit ((Json.splitLines content.toList).filterMap readLine)
        else [] := rfl

theorem Holds.restart (h : Holds options rs s) :
    Holds options (if options.persists then rs else []) (construct s.options s.file) := by
  have hoptions := h.options_eq
  by_cases hp : options.persists = true
  · rw [if_pos hp]
    refine ⟨hoptions, ?_, h.file_eq⟩
    have hfile := h.file_eq hp
    rw [hoptions]
    rcases hf : s.file with _ | content
    · rw [hf, Option.getD_none] at hfile
      have hread := read_written rs
      rw [← hfile] at hread
      rw [← hread]
      exact (List.rtake_nil _).symm
    · rw [hf, Option.getD_some] at hfile
      rw [inMemory_construct, if_pos hp, shiftTo_eq, hfile, read_written]
  · rw [if_neg hp]
    refine ⟨hoptions, ?_, fun h => absurd h hp⟩
    rw [hoptions]
    rcases s.file with _ | content
    · exact (List.rtake_nil _).symm
    · rw [inMemory_construct, if_neg hp]
      exact (List.rtake_nil _).symm

theorem Holds.apply (h : Holds options rs s) (e : Event ν) :
    Holds options (given options.persists rs e) (s.apply e) := by
  cases e with
  | add r => exact h.add r
  | restart => exact h.restart

theorem Holds.foldl (h : Holds options rs s) (events : List (Event ν)) :
    Holds options (events.foldl (given options.persists) rs) (events.foldl DriftStorage.apply s) := by
  induction events generalizing rs s with
  | nil => exact h
  | cons e events ih => exact ih (h.apply e)

theorem holds_after (options : DriftStorageOptions) (events : List (Event ν)) :
    Holds options (allGiven options.persists events) (after options events) :=
  holds_construct.foldl events

def Event.isAdd : Event ν → Bool
  | .add _ => true
  | .restart => false

omit [ReadableNumber ν] in
theorem foldl_given (events : List (Event ν)) (rs : List (DriftSnapshotRecord ν)) :
    (events.filter Event.isAdd).foldl (given true) rs = events.foldl (given true) rs := by
  induction events generalizing rs with
  | nil => rfl
  | cons e events ih =>
    cases e with
    | add r => exact ih (rs ++ [r])
    | restart => exact ih rs

/-- The history is the last `n` of the records kept, which are the last of those given; and a storage
that is constructed on the same path holds what one that never started again does. -/
def Faithful (options : DriftStorageOptions) (events : List (Event ν)) (n : ℕ) : Prop :=
  (after options events).history n
      = (((allGiven options.persists events).map (·.json)).rtake options.limit).rtake n
    ∧ (options.persists = true →
      (construct options (after options events).file).inMemory
        = (after options (events.filter Event.isAdd)).inMemory)

/-- The history is faithful, unless none of the records are asked for. -/
theorem faithful_iff {options : DriftStorageOptions} (hmax : 1 ≤ options.limit)
    (events : List (Event ν)) (n : ℕ) :
    Faithful options events n ↔ n ≠ 0 ∨ allGiven options.persists events = [] := by
  have h := holds_after options events
  have hhistory : (after options events).history n
      = slice (-n) (((allGiven options.persists events).map (·.json)).rtake options.limit) := by
    rw [history, h.inMemory_eq]
  have hrestart (hp : options.persists = true) :
      (construct options (after options events).file).inMemory
        = (after options (events.filter Event.isAdd)).inMemory := by
    have hagain := h.restart
    rw [if_pos hp, h.options_eq] at hagain
    rw [hagain.inMemory_eq, (holds_after options (events.filter Event.isAdd)).inMemory_eq, allGiven,
      allGiven, hp, foldl_given]
  rw [Faithful, and_iff_left hrestart, hhistory]
  by_cases hn : n = 0
  · subst hn
    rw [slice_neg_zero, List.rtake_zero, rtake_eq_nil_iff (by omega), List.map_eq_nil_iff]
    simp
  · exact iff_of_true (slice_neg hn _) (.inl hn)

def snapshot : DriftSnapshotRecord ℕ where
  json := .obj [("snapshotId", .str "s1"), ("capturedAt", .num 7)]
  wellFormed := by decide
  hasId := by decide

/-- Three records, of which two are kept. -/
theorem faithful_last : Faithful ⟨some 2, some "drift.jsonl"⟩
    [.add snapshot, .restart, .add snapshot, .add snapshot] 1 :=
  (faithful_iff (by decide) _ 1).2 (.inl (by decide))

/-- None are asked for, and one is returned. -/
theorem history_zero : ¬ ∀ (options : DriftStorageOptions) (events : List (Event ℕ)) (n : ℕ),
    1 ≤ options.limit → Faithful options events n := by
  intro h
  have hf := h {} [.add snapshot] 0 (by decide)
  exact absurd hf.1 (by decide)

end DriftStorage

end ConfigDrift

end VeriNode
