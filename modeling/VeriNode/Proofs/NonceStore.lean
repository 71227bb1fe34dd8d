import VeriNode.Staking.Sequencer

/-!
# What is read back from the log

A log that `purgeConfirmed` has written is read back as written (`parse_joined`), and what is read
of any log was written to it (`mem_of_parse`).
-/

namespace VeriNode

namespace NonceStore

variable {content : List Piece} {es : List WalEntry} {e : WalEntry} {f f' : Files}

theorem split_newline (content : List Piece) : split (.newline :: content) = [] :: split content :=
  rfl

theorem split_ne_nil : ∀ content : List Piece, split content ≠ []
  | [] => List.cons_ne_nil _ _
  | .newline :: _ => List.cons_ne_nil _ _
  | .entry _ :: content => by
    unfold split
    split <;> simp

theorem split_entry (e : WalEntry) (content : List Piece) : ∃ line lines,
    split content = line :: lines ∧ split (.entry e :: content) = (e :: line) :: lines := by
  rcases h : split content with _ | ⟨line, lines⟩
  · exact absurd h (split_ne_nil content)
  · exact ⟨line, lines, rfl, by rw [split, h]⟩

theorem mem_split : ∀ {content : List Piece} {e : WalEntry},
    (∃ line ∈ split content, e ∈ line) ↔ Piece.entry e ∈ content
  | [], e => by simp [show split [] = [[]] from rfl]
  | .newline :: content, e => by
    have ih := @mem_split content e
    simpa [split_newline] using ih
  | .entry e' :: content, e => by
    have ih := @mem_split content e
    obtain ⟨line, lines, hs, hs'⟩ := split_entry e' content
    rw [hs'] at *
    rw [hs] at ih
    simp only [List.mem_cons, exists_eq_or_imp, Piece.entry.injEq, or_assoc] at ih ⊢
    rw [← ih]

theorem split_joined : ∀ es : List WalEntry,
    (split (joined es)).filter (· ≠ []) = es.map fun e => [e]
  | [] => rfl
  | [e] => rfl
  | e :: e' :: es => by
    have ih := split_joined (e' :: es)
    have hj : joined (e :: e' :: es) = .entry e :: .newline :: joined (e' :: es) := by
      simp [joined]
    obtain ⟨line, lines, hs, hs'⟩ := split_entry e (.newline :: joined (e' :: es))
    rw [split_newline, List.cons.injEq] at hs
    obtain ⟨rfl, rfl⟩ := hs
    rw [hj, hs', List.filter_cons_of_pos (by simp), ih, List.map_cons (a := e)]

theorem parse_joined (es : List WalEntry) : parse (joined es) = some es := by
  unfold parse
  rw [split_joined, List.mapM_map]
  induction es with
  | nil => rfl
  | cons e es ih =>
    simp only [List.mapM_cons, ih, Function.comp_apply, parseLine]
    rfl

theorem mem_of_mapM : ∀ {lines : List (List WalEntry)} {es : List WalEntry},
    lines.mapM parseLine = some es → lines = es.map fun e => [e]
  | [], es, h => by
    simp only [List.mapM_nil, Option.pure_def, Option.some.injEq] at h
    subst h
    rfl
  | line :: lines, es, h => by
    rw [List.mapM_cons] at h
    rcases hl : parseLine line with _ | e
    · simp [hl] at h
    · rcases hr : lines.mapM parseLine with _ | es'
      · simp [hl, hr] at h
      · have he : line = [e] := by
          unfold parseLine at hl
          split at hl
          · simpa using hl
          · simp at hl
        simp only [hl, hr, Option.bind_eq_bind, Option.bind_some, Option.pure_def,
          Option.some.injEq] at h
        rw [← h, he, List.map_cons, mem_of_mapM hr]

theorem mem_of_parse (h : parse content = some es) : e ∈ es ↔ .entry e ∈ content := by
  have hl := mem_of_mapM h
  rw [← mem_split]
  constructor
  · intro he
    have hm : [e] ∈ (split content).filter (· ≠ []) := by
      rw [hl]
      exact List.mem_map.2 ⟨e, he, rfl⟩
    exact ⟨[e], (List.mem_filter.1 hm).1, List.mem_singleton_self e⟩
  · rintro ⟨line, hm, he⟩
    have hm' : line ∈ (split content).filter (· ≠ []) :=
      List.mem_filter.2 ⟨hm, by simpa using List.ne_nil_of_mem he⟩
    rw [hl] at hm'
    obtain ⟨e', he', rfl⟩ := List.mem_map.1 hm'
    rwa [List.mem_singleton.1 he]

/-- The entries that are in the log, readable or not. -/
def Logged (f : Files) (e : WalEntry) : Prop := Piece.entry e ∈ f.wal.getD []

theorem logged_of_entries (h : entries f = some es) : e ∈ es ↔ Logged f e := by
  unfold entries at h
  unfold Logged
  rcases hw : f.wal with _ | content <;> simp only [hw] at h
  · simp [← Option.some.inj h]
  · exact mem_of_parse h

theorem logged_appendLine {e' : WalEntry} :
    Logged (appendLine e' f) e ↔ Logged f e ∨ e = e' := by
  simp [Logged, appendLine]

theorem entries_purgeConfirmed {n : ℕ} (h : purgeConfirmed n f = some f') :
    ∃ es, entries f = some es
      ∧ entries f' = some (es.filter fun e => e.status ≠ .confirmed ∧ n < e.nonce)
      ∧ f'.waterMark = f.waterMark := by
  unfold purgeConfirmed at h
  rcases hw : f.wal with _ | content <;> simp only [hw] at h
  · obtain rfl := Option.some.inj h
    exact ⟨[], by simp [entries, hw], by simp [entries, hw], rfl⟩
  · obtain ⟨es, hes, rfl⟩ := Option.map_eq_some_iff.1 h
    exact ⟨es, by simpa [entries, hw] using hes, by simp [entries, parse_joined], rfl⟩

theorem logged_purgeConfirmed {n : ℕ} (h : purgeConfirmed n f = some f') (he : Logged f' e) :
    Logged f e := by
  obtain ⟨es, hes, hes', -⟩ := entries_purgeConfirmed h
  exact (logged_of_entries hes).1 (List.mem_filter.1 ((logged_of_entries hes').2 he)).1

end NonceStore

end VeriNode
