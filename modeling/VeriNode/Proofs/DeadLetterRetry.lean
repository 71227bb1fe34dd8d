import VeriNode.Lib.Sorted
import VeriNode.Queue.DeadLetterQueue

/-!
# When a dead letter is reprocessed once

`retry` marks the entry it has read, and nobody looks at the mark: two calls that have both read it
both invoke their handlers. The `DELETE` stands in the `try` of the handler, so a call whose
`DELETE` fails invokes its handler again. Along the runs in which neither happens (`Harmless`) an
entry is handled successfully at most once (`retry_sound`); a step that lets it happen leads to
that harm in some continuation (`retry_unsound`).

The queue is listed by pages of the newest rows first. Rows expire in the order they were made, so
they leave the list at its end, and a row is missed or seen twice neither because others expire nor
because they are purged (`pages_complete`).
-/

namespace VeriNode

namespace DeadLetters

namespace Retry

variable {μ : Type*} {entryId : String} {rows : Table μ} {s s' : State μ} {a : Action}
  {h : List (Taken (State μ) Action)}

section Law

/-- The step invokes the handler of the call. -/
def Invokes (id : ℕ) (t : Taken (State μ) Action) : Prop :=
  (∃ c n, t.post.calls.get id = some c ∧ c.phase = .handling n)
    ∧ ¬ ∃ c n, t.pre.calls.get id = some c ∧ c.phase = .handling n

/-- The handler succeeds at most once; no call invokes it again after its own success; an entry is
deleted only after a success; and an entry on which there was none is still there, with its
message. -/
structure Sound (entryId : String) (rows : Table μ) (h : List (Taken (State μ) Action))
    (s : State μ) : Prop where
  once : s.done.length ≤ 1
  noRepeat : ∀ t ∈ h, ∀ id, Invokes id t → id ∉ t.pre.done
  deleted : ∀ t ∈ h, ∀ e, t.pre.rows.get entryId = some e → t.post.rows.get entryId = none →
    t.pre.done ≠ []
  kept : s.done = [] → ∀ e, rows.get entryId = some e →
    ∃ e', s.rows.get entryId = some e' ∧ e'.originalMessage = e.originalMessage

/-- The call may still invoke its handler, or has invoked it and waits. -/
def Call.Open (c : Call μ) : Prop :=
  match c.phase with
  | .marking => 0 ≤ c.maxRetries
  | .handling _ => True
  | .sleeping n => ((n + 1 : ℕ) : ℚ) ≤ c.maxRetries
  | _ => False

/-- A call that may invoke its handler reads the entry only before any handler has succeeded; when
a handler succeeds no other call may still invoke its own; and a `DELETE` fails only when the call
has no retries left. -/
def Harmless (entryId : String) (s : State μ) : Action → Prop
  | .get id answer => ∀ c, s.calls.get id = some c → 0 ≤ c.maxRetries → answer.error = none →
      DeadLetters.get entryId s.now s.rows ≠ none → s.done = []
  | .handled id none => ∀ id' c, s.calls.get id' = some c → id' ≠ id → ¬ c.Open
  | .delete id answer => ∀ c n, s.calls.get id = some c → c.phase = .deleting n →
      answer.error ≠ none → ¬ ((n + 1 : ℕ) : ℚ) ≤ c.maxRetries
  | _ => True

end Law

section Moves

/-- What an action does. -/
inductive Move (entryId : String) (s : State μ) : Action → State μ → Prop
  | retry (maxRetries : ℚ) : Move entryId s (.retry maxRetries)
      { s with
        calls := s.calls.set s.nextCall { maxRetries := maxRetries }
        nextCall := s.nextCall + 1 }
  | found (id : ℕ) (c : Call μ) (answer : Answer) (e : Entry μ) : s.calls.get id = some c →
      c.phase = .getting → answer.error = none →
      DeadLetters.get entryId s.now s.rows = some e →
      Move entryId s (.get id answer)
        (s.goOn id { c with originalMessage := some e.originalMessage } .marking)
  | missed (id : ℕ) (c : Call μ) (answer : Answer) : s.calls.get id = some c →
      c.phase = .getting →
      (answer.error = none → DeadLetters.get entryId s.now s.rows = none) →
      Move entryId s (.get id answer) (s.goOn id c .ended)
  | marked (id : ℕ) (c : Call μ) (answer : Answer) : s.calls.get id = some c →
      c.phase = .marking →
      Move entryId s (.markRetrying id answer)
        ({ s with
            rows := answer.write (DeadLetters.markRetrying entryId s.now) s.rows }.goOn id c
          (if answer.error = none then round 0 c else .ended))
  | succeeded (id : ℕ) (c : Call μ) (n : ℕ) : s.calls.get id = some c → c.phase = .handling n →
      Move entryId s (.handled id none)
        ({ s with done := s.done ++ [id] }.goOn id c (.deleting n))
  | failed (id : ℕ) (c : Call μ) (n : ℕ) (e : Exception) : s.calls.get id = some c →
      c.phase = .handling n →
      Move entryId s (.handled id (some e)) (s.goOn id c (caught n e c))
  | deleted (id : ℕ) (c : Call μ) (n : ℕ) (answer : Answer) : s.calls.get id = some c →
      c.phase = .deleting n →
      Move entryId s (.delete id answer)
        ({ s with rows := answer.write (·.delete entryId) s.rows }.goOn id c
          (answer.error.elim .ended fun e => caught n e c))
  | woken (id : ℕ) (c : Call μ) (n : ℕ) : s.calls.get id = some c → c.phase = .sleeping n →
      Move entryId s (.wake id) (s.goOn id c (round (n + 1) c))
  | markedFailed (id : ℕ) (c : Call μ) (n : ℕ) (e : Exception) (answer : Answer) :
      s.calls.get id = some c → c.phase = .failing n e →
      Move entryId s (.markFailed id answer)
        ({ s with
            rows := answer.write (DeadLetters.markFailed entryId e n s.now) s.rows }.goOn id c
          .ended)
  | tick (now : ℚ) : Move entryId s (.tick now) { s with now := now }

theorem perform_move {id : ℕ} {c : Call μ} (hg : s.calls.get id = some c) (ha : a.call = some id)
    (h : perform entryId id c s a = some s') : Move entryId s a s' := by
  rcases a with m | ⟨i, ans⟩ | ⟨i, ans⟩ | ⟨i, e⟩ | ⟨i, ans⟩ | i | ⟨i, ans⟩ | t <;>
    simp only [Action.call, Option.some.injEq, reduceCtorEq] at ha <;>
    subst ha <;> rcases hph : c.phase with _ | _ | n | n | n | ⟨n, x⟩ | _ <;>
    simp only [perform, hph, reduceCtorEq] at h
  · split at h
    · rename_i e he hf
      rw [← Option.some.inj h]
      exact .found i c ans e hg hph he hf
    · rename_i hmiss
      rw [← Option.some.inj h]
      exact .missed i c ans hg hph fun he => Option.eq_none_iff_forall_ne_some.2 fun e hf =>
        hmiss e he hf
  · rw [← Option.some.inj h]
    exact .marked i c ans hg hph
  · split at h
    · rw [← Option.some.inj h]
      exact .succeeded i c n hg hph
    · rename_i e
      rw [← Option.some.inj h]
      exact .failed i c n e hg hph
  · rw [← Option.some.inj h]
    have hm : Move entryId s (.delete i ans)
        ({ s with rows := ans.write (·.delete entryId) s.rows }.goOn i c
          (ans.error.elim .ended fun e => caught n e c)) := .deleted i c n ans hg hph
    rcases hx : ans.error with _ | x
    · rwa [hx] at hm
    · rwa [hx] at hm
  · rw [← Option.some.inj h]
    exact .woken i c n hg hph
  · rw [← Option.some.inj h]
    exact .markedFailed i c n x ans hg hph

theorem step_move (h : step entryId s a = some s') : Move entryId s a s' := by
  have hc : ∀ id, a.call = some id → Move entryId s a s' := by
    intro id ha
    rcases hg : s.calls.get id with _ | c
    · rcases a with m | ⟨i, ans⟩ | ⟨i, ans⟩ | ⟨i, e⟩ | ⟨i, ans⟩ | i | ⟨i, ans⟩ | t <;>
        simp only [Action.call, Option.some.injEq, reduceCtorEq] at ha <;>
        subst ha <;> simp [step, Action.call, hg] at h
    · refine perform_move hg ha ?_
      rcases a with m | ⟨i, ans⟩ | ⟨i, ans⟩ | ⟨i, e⟩ | ⟨i, ans⟩ | i | ⟨i, ans⟩ | t <;>
        simp only [Action.call, Option.some.injEq, reduceCtorEq] at ha <;>
        subst ha <;> simpa [step, Action.call, hg] using h
  rcases a with m | ⟨i, ans⟩ | ⟨i, ans⟩ | ⟨i, e⟩ | ⟨i, ans⟩ | i | ⟨i, ans⟩ | t
  · rw [← Option.some.inj h]
    exact .retry m
  · exact hc i rfl
  · exact hc i rfl
  · exact hc i rfl
  · exact hc i rfl
  · exact hc i rfl
  · exact hc i rfl
  · simp only [step] at h
    split at h
    · rw [← Option.some.inj h]
      exact .tick t
    · cases h

end Moves

section Rows

theorem get_update {id : String} {f : Entry μ → Entry μ} :
    (update id f rows).get id = (rows.get id).map f := by
  unfold update
  rcases hg : rows.get id with _ | e
  · simp [hg]
  · simp

/-- The entry is there, with the message it has in the first table. -/
def Kept (entryId : String) (rows rows' : Table μ) : Prop :=
  ∀ e, rows.get entryId = some e →
    ∃ e', rows'.get entryId = some e' ∧ e'.originalMessage = e.originalMessage

variable {rows' : Table μ} {f : Entry μ → Entry μ} {answer : Answer}

theorem Kept.write (hk : Kept entryId rows rows')
    (hf : ∀ e, (f e).originalMessage = e.originalMessage) :
    Kept entryId rows (answer.write (update entryId f) rows') := by
  intro e he
  obtain ⟨e', he', hm⟩ := hk e he
  unfold Answer.write
  split
  · exact ⟨f e', by rw [get_update, he', Option.map_some], (hf e').trans hm⟩
  · exact ⟨e', he', hm⟩

theorem Kept.markRetrying {now : ℚ} (hk : Kept entryId rows rows') :
    Kept entryId rows (answer.write (DeadLetters.markRetrying entryId now) rows') :=
  hk.write fun _ => rfl

theorem Kept.markFailed {e : Exception} {n : ℕ} {now : ℚ} (hk : Kept entryId rows rows') :
    Kept entryId rows (answer.write (DeadLetters.markFailed entryId e n now) rows') :=
  hk.write fun _ => rfl

theorem write_update_eq_none (h : (answer.write (update entryId f) rows').get entryId = none) :
    rows'.get entryId = none := by
  unfold Answer.write at h
  split at h
  · rwa [get_update, Option.map_eq_none_iff] at h
  · exact h

end Rows

section Invariant

/-- What holds in every run: a handler whose call deletes has succeeded, and until one has the
entry is kept. -/
structure Inv (entryId : String) (rows : Table μ) (s : State μ) : Prop where
  deleting : ∀ id c n, s.calls.get id = some c → c.phase = .deleting n → s.done ≠ []
  kept : s.done = [] → Kept entryId rows s.rows

theorem Inv.goOn {id : ℕ} {c : Call μ} {ph : Phase} (hi : Inv entryId rows s)
    (hd : ∀ n, ph = .deleting n → s.done ≠ []) : Inv entryId rows (s.goOn id c ph) where
  deleting i c' n hg hp := by
    rcases OrdMap.of_get_set hg with ⟨-, rfl⟩ | ⟨-, hg⟩
    · exact hd n hp
    · exact hi.deleting i c' n hg hp
  kept := hi.kept

theorem round_ne_deleting {n k : ℕ} {c : Call μ} : round n c ≠ .deleting k := by
  unfold round
  split <;> simp

theorem caught_ne_deleting {n k : ℕ} {e : Exception} {c : Call μ} : caught n e c ≠ .deleting k := by
  unfold caught
  split <;> simp

theorem Inv.withRows {rows' : Table μ} (hi : Inv entryId rows s)
    (hk : s.done = [] → Kept entryId rows rows') : Inv entryId rows { s with rows := rows' } :=
  ⟨hi.deleting, hk⟩

theorem Inv.move (hi : Inv entryId rows s) (hm : Move entryId s a s') : Inv entryId rows s' := by
  cases hm with
  | retry m =>
    refine ⟨fun id c n hg hp => ?_, hi.kept⟩
    rcases OrdMap.of_get_set hg with ⟨-, rfl⟩ | ⟨-, hg⟩
    · cases hp
    · exact hi.deleting id c n hg hp
  | found id c answer e hg hph he hf => exact hi.goOn (by simp)
  | missed id c answer hg hph hf => exact hi.goOn (by simp)
  | marked id c answer hg hph =>
    refine (hi.withRows fun h0 => (hi.kept h0).markRetrying).goOn fun n hn => ?_
    split at hn
    · exact absurd hn round_ne_deleting
    · cases hn
  | succeeded id c n hg hph =>
    have hd : Inv entryId rows { s with done := s.done ++ [id] } :=
      ⟨by simp, by simp⟩
    exact hd.goOn (by simp)
  | failed id c n e hg hph => exact hi.goOn fun k hk => absurd hk caught_ne_deleting
  | deleted id c n answer hg hph =>
    refine (hi.withRows fun h0 => absurd h0 (hi.deleting id c n hg hph)).goOn fun k hk => ?_
    rcases hx : answer.error with _ | e
    · simp [hx] at hk
    · rw [hx] at hk
      exact absurd hk caught_ne_deleting
  | woken id c n hg hph => exact hi.goOn fun k hk => absurd hk round_ne_deleting
  | markedFailed id c n e answer hg hph =>
    exact (hi.withRows fun h0 => (hi.kept h0).markFailed).goOn (by simp)
  | tick now => exact ⟨hi.deleting, hi.kept⟩

theorem inv_run (hr : Run (sys entryId rows) h s) : Inv entryId rows s := by
  refine hr.invariant (fun s hi => ?_) fun s a s' hi hs => hi.move (step_move hs)
  obtain ⟨now, rfl⟩ := hi
  exact ⟨by simp, fun _ e he => ⟨e, he, rfl⟩⟩

/-- After a success no call will invoke its handler, and there is no second success. -/
structure Quiet (s : State μ) : Prop where
  once : s.done.length ≤ 1
  closed : s.done ≠ [] → ∀ id c, s.calls.get id = some c → ¬ c.Open

theorem Quiet.goOn {id : ℕ} {c : Call μ} {ph : Phase} (hq : Quiet s)
    (ho : s.done ≠ [] → ¬ ({ c with phase := ph } : Call μ).Open) : Quiet (s.goOn id c ph) where
  once := hq.once
  closed hd i c' hg := by
    rcases OrdMap.of_get_set hg with ⟨-, rfl⟩ | ⟨-, hg⟩
    · exact ho hd
    · exact hq.closed hd i c' hg

theorem Quiet.withRows {rows' : Table μ} (hq : Quiet s) : Quiet { s with rows := rows' } :=
  ⟨hq.once, hq.closed⟩

theorem round_open {n : ℕ} {c : Call μ} (h : ({ c with phase := round n c } : Call μ).Open) :
    (n : ℚ) ≤ c.maxRetries := by
  by_contra hn
  simp [Call.Open, round, hn] at h

theorem caught_open {n : ℕ} {e : Exception} {c : Call μ}
    (h : ({ c with phase := caught n e c } : Call μ).Open) : ((n + 1 : ℕ) : ℚ) ≤ c.maxRetries := by
  unfold caught at h
  split at h
  · exact absurd h (by simp [Call.Open])
  · exact h

theorem Quiet.move (hq : Quiet s) (hm : Move entryId s a s') (hh : Harmless entryId s a) :
    Quiet s' := by
  cases hm with
  | retry m =>
    refine ⟨hq.once, fun hd id c hg => ?_⟩
    rcases OrdMap.of_get_set hg with ⟨-, rfl⟩ | ⟨-, hg⟩
    · simp [Call.Open]
    · exact hq.closed hd id c hg
  | found id c answer e hg hph he hf =>
    refine hq.goOn fun hd ho => hd ?_
    exact hh c hg ho he (by simp [hf])
  | missed id c answer hg hph hf => exact hq.goOn fun _ => by simp [Call.Open]
  | marked id c answer hg hph =>
    refine hq.withRows.goOn fun hd ho => hq.closed hd id c hg ?_
    split at ho
    · have h0 := round_open ho
      simpa [Call.Open, hph] using h0
    · simp [Call.Open] at ho
  | succeeded id c n hg hph =>
    have h0 : s.done = [] := by
      by_contra hd
      exact hq.closed hd id c hg (by simp [Call.Open, hph])
    refine ⟨by simp [State.goOn, h0], fun _ i c' hg' => ?_⟩
    rcases OrdMap.of_get_set hg' with ⟨-, rfl⟩ | ⟨hne, hg'⟩
    · simp [Call.Open]
    · exact hh i c' hg' hne
  | failed id c n e hg hph =>
    exact hq.goOn fun hd _ => hq.closed hd id c hg (by simp [Call.Open, hph])
  | deleted id c n answer hg hph =>
    refine hq.withRows.goOn fun _ ho => ?_
    rcases hx : answer.error with _ | e
    · simp [hx, Call.Open] at ho
    · rw [hx] at ho
      exact hh c n hg hph (by simp [hx]) (caught_open ho)
  | woken id c n hg hph =>
    refine hq.goOn fun hd ho => hq.closed hd id c hg ?_
    simpa [Call.Open, hph] using round_open ho
  | markedFailed id c n e answer hg hph => exact hq.withRows.goOn fun _ => by simp [Call.Open]
  | tick now => exact ⟨hq.once, hq.closed⟩

theorem quiet_run (hr : Run (sys entryId rows) h s) (hh : Along (Harmless entryId) h) :
    Quiet s := by
  refine hr.invariant_of (fun s hi => ?_) (fun s a s' hq hh hs => hq.move (step_move hs) hh) hh
  obtain ⟨now, rfl⟩ := hi
  exact ⟨by simp, by simp⟩

end Invariant

section Claim

theorem handling_of_goOn {i id : ℕ} {c c' : Call μ} {ph : Phase} {n : ℕ}
    (hg : (s.goOn i c ph).calls.get id = some c') (hp : c'.phase = .handling n)
    (hn : ¬ ∃ c n, s.calls.get id = some c ∧ c.phase = .handling n) : id = i ∧ ph = .handling n := by
  rcases OrdMap.of_get_set hg with ⟨rfl, rfl⟩ | ⟨-, hg⟩
  · exact ⟨rfl, hp⟩
  · exact absurd ⟨c', n, hg, hp⟩ hn

theorem round_eq_handling {n k : ℕ} {c : Call μ} (h : round n c = .handling k) :
    (n : ℚ) ≤ c.maxRetries := by
  by_contra hn
  simp [round, hn] at h

theorem caught_ne_handling {n k : ℕ} {e : Exception} {c : Call μ} : caught n e c ≠ .handling k := by
  unfold caught
  split <;> simp

theorem open_of_invokes {id : ℕ} (hm : Move entryId s a s') (hv : Invokes id ⟨s, a, s'⟩) :
    ∃ c, s.calls.get id = some c ∧ c.Open := by
  obtain ⟨⟨c', n, hg', hp⟩, hn⟩ := hv
  cases hm with
  | retry m =>
    rcases OrdMap.of_get_set hg' with ⟨-, rfl⟩ | ⟨-, hg'⟩
    · cases hp
    · exact absurd ⟨c', n, hg', hp⟩ hn
  | found i c answer e hg hph he hf => cases (handling_of_goOn hg' hp hn).2
  | missed i c answer hg hph hf => cases (handling_of_goOn hg' hp hn).2
  | marked i c answer hg hph =>
    obtain ⟨rfl, he⟩ := handling_of_goOn hg' hp hn
    refine ⟨c, hg, ?_⟩
    split at he
    · simpa [Call.Open, hph] using round_eq_handling he
    · cases he
  | succeeded i c k hg hph => cases (handling_of_goOn hg' hp hn).2
  | failed i c k e hg hph => exact absurd (handling_of_goOn hg' hp hn).2 caught_ne_handling
  | deleted i c k answer hg hph =>
    have he := (handling_of_goOn hg' hp hn).2
    rcases hx : answer.error with _ | e
    · simp [hx] at he
    · rw [hx] at he
      exact absurd he caught_ne_handling
  | woken i c k hg hph =>
    obtain ⟨rfl, he⟩ := handling_of_goOn hg' hp hn
    exact ⟨c, hg, by simpa [Call.Open, hph] using round_eq_handling he⟩
  | markedFailed i c k e answer hg hph => cases (handling_of_goOn hg' hp hn).2
  | tick now => exact absurd ⟨c', n, hg', hp⟩ hn

theorem done_of_deletes {e : Entry μ} (hi : Inv entryId rows s) (hm : Move entryId s a s')
    (he : s.rows.get entryId = some e) (hn : s'.rows.get entryId = none) : s.done ≠ [] := by
  cases hm with
  | deleted i c k answer hg hph => exact hi.deleting i c k hg hph
  | marked i c answer hg hph => exact absurd (he ▸ write_update_eq_none hn) (by simp)
  | markedFailed i c k x answer hg hph => exact absurd (he ▸ write_update_eq_none hn) (by simp)
  | _ => exact absurd (he.symm.trans hn) (by simp)

/-- Along the runs without a harmful step a dead letter is reprocessed at most once. -/
theorem retry_sound (hr : Run (sys entryId rows) h s) (hh : Along (Harmless entryId) h) :
    Sound entryId rows h s := by
  refine ⟨(quiet_run hr hh).once, fun t ht id hv hd => ?_, fun t ht e he hn => ?_,
    (inv_run hr).kept⟩
  · obtain ⟨g, hre, hhe, -, hs⟩ := hr.taken_along hh ht
    obtain ⟨c, hg, ho⟩ := open_of_invokes (step_move hs) hv
    exact (quiet_run hre hhe).closed (List.ne_nil_of_mem hd) id c hg ho
  · obtain ⟨g, hre, -, -, hs⟩ := hr.taken_along hh ht
    exact done_of_deletes (inv_run hre) (step_move hs) he hn

theorem succeeds_of_open {id : ℕ} {c : Call μ} (hr : Run (sys entryId rows) h s)
    (hg : s.calls.get id = some c) (ho : c.Open) :
    ∃ h' s', Run (sys entryId rows) (h' ++ h) s' ∧ s'.done = s.done ++ [id] := by
  have handled : ∀ {g : List (Taken (State μ) Action)} {s₁ : State μ} {c₁ : Call μ} {n : ℕ},
      Run (sys entryId rows) g s₁ → s₁.calls.get id = some c₁ → c₁.phase = .handling n →
      ∃ t s', Run (sys entryId rows) (t :: g) s' ∧ s'.done = s₁.done ++ [id] := by
    intro g s₁ c₁ n hr hg hp
    have hs : (sys entryId rows).step s₁ (.handled id none)
        = some ({ s₁ with done := s₁.done ++ [id] }.goOn id c₁ (.deleting n)) := by
      simp [sys, step, Action.call, hg, perform, hp]
    exact ⟨_, _, hr.next hs, rfl⟩
  obtain ⟨m, msg, ph⟩ := c
  rcases ph with _ | _ | n | n | n | ⟨n, e⟩ | _ <;> simp only [Call.Open] at ho
  · have hs : (sys entryId rows).step s (.markRetrying id .ok) = some ({ s with
        rows := Answer.ok.write (DeadLetters.markRetrying entryId s.now) s.rows }.goOn id
        ⟨m, msg, .marking⟩ (.handling 0)) := by
      simp [sys, step, Action.call, hg, perform, Answer.error, round, ho]
    obtain ⟨t, s', hr', hd⟩ := handled (hr.next hs) (OrdMap.get_set_self _ _ _) rfl
    exact ⟨[t, _], s', hr', hd⟩
  · obtain ⟨t, s', hr', hd⟩ := handled hr hg rfl
    exact ⟨[t], s', hr', hd⟩
  · have hs : (sys entryId rows).step s (.wake id)
        = some (s.goOn id ⟨m, msg, .sleeping n⟩ (.handling (n + 1))) := by
      simp only [sys, step, Action.call, hg, perform, round, if_pos ho]
    obtain ⟨t, s', hr', hd⟩ := handled (hr.next hs) (OrdMap.get_set_self _ _ _) rfl
    exact ⟨[t, _], s', hr', hd⟩

/-- After a harmful step a handler has succeeded and a call is open. -/
theorem open_of_harmful (hi : Inv entryId rows s) (hm : Move entryId s a s')
    (ha : ¬ Harmless entryId s a) :
    s'.done ≠ [] ∧ ∃ id c, s'.calls.get id = some c ∧ c.Open := by
  cases hm with
  | found i c answer e hg hph he hf =>
    simp only [Harmless, not_forall] at ha
    obtain ⟨c', hg', h0, -, -, hd⟩ := ha
    rw [hg, Option.some.injEq] at hg'
    subst hg'
    exact ⟨hd, i, _, OrdMap.get_set_self _ _ _, h0⟩
  | missed i c answer hg hph hf =>
    simp only [Harmless, not_forall] at ha
    obtain ⟨-, -, -, he, hne, -⟩ := ha
    exact absurd (hf he) hne
  | succeeded i c n hg hph =>
    simp only [Harmless, not_forall, not_not] at ha
    obtain ⟨i', c', hg', hne, ho⟩ := ha
    refine ⟨by simp [State.goOn], i', c', ?_, ho⟩
    rw [State.goOn, OrdMap.get_set_of_ne _ _ hne]
    exact hg'
  | deleted i c n answer hg hph =>
    simp only [Harmless, not_forall, not_not] at ha
    obtain ⟨c', n', hg', hph', he, hle⟩ := ha
    rw [hg, Option.some.injEq] at hg'
    subst hg'
    rw [hph, Phase.deleting.injEq] at hph'
    subst hph'
    refine ⟨hi.deleting i c n hg hph, i, _, OrdMap.get_set_self _ _ _, ?_⟩
    obtain ⟨e, hx⟩ := Option.ne_none_iff_exists'.1 he
    have hne : (n : ℚ) ≠ c.maxRetries := by
      rintro hn
      rw [← hn, Nat.cast_le] at hle
      omega
    simpa [hx, caught, hne, Call.Open] using hle
  | _ => exact absurd trivial ha

/-- A harmful step leads to harm: some continuation has a second success. -/
theorem retry_unsound (hr : Run (sys entryId rows) h s) (hs : step entryId s a = some s')
    (ha : ¬ Harmless entryId s a) :
    ∃ h' s'', Run (sys entryId rows) (h' ++ ⟨s, a, s'⟩ :: h) s''
      ∧ ¬ Sound entryId rows (h' ++ ⟨s, a, s'⟩ :: h) s'' := by
  obtain ⟨hd, id, c, hg, ho⟩ := open_of_harmful (inv_run hr) (step_move hs) ha
  obtain ⟨h', s'', hr', hd'⟩ := succeeds_of_open (hr.next hs) hg ho
  refine ⟨h', s'', hr', fun hsound => ?_⟩
  have hone := hsound.once
  have hpos := List.length_pos_iff.2 hd
  rw [hd', List.length_append, List.length_singleton] at hone
  omega

end Claim

section Runs

instance : ∀ c : Call μ, Decidable c.Open
  | ⟨m, _, .marking⟩ => inferInstanceAs (Decidable (0 ≤ m))
  | ⟨_, _, .handling _⟩ => isTrue trivial
  | ⟨m, _, .sleeping n⟩ => inferInstanceAs (Decidable (((n + 1 : ℕ) : ℚ) ≤ m))
  | ⟨_, _, .getting⟩ => isFalse id
  | ⟨_, _, .deleting _⟩ => isFalse id
  | ⟨_, _, .failing _ _⟩ => isFalse id
  | ⟨_, _, .ended⟩ => isFalse id

/-- What `Harmless` asks of a `DELETE` that fails. -/
def lastTry (answer : Answer) (c : Call μ) : Bool :=
  match c.phase with
  | .deleting n => answer.error = none || !decide (((n + 1 : ℕ) : ℚ) ≤ c.maxRetries)
  | _ => true

theorem lastTry_iff {answer : Answer} {c : Call μ} : lastTry answer c = true
    ↔ ∀ n, c.phase = .deleting n → answer.error ≠ none → ¬ ((n + 1 : ℕ) : ℚ) ≤ c.maxRetries := by
  unfold lastTry
  rcases c.phase with _ | _ | n | n | n | ⟨n, e⟩ | _ <;> simp [or_iff_not_imp_left]

instance [DecidableEq μ] (s : State μ) : ∀ a, Decidable (Harmless entryId s a)
  | .get id answer => inferInstanceAs (Decidable (∀ c ∈ s.calls.get id, 0 ≤ c.maxRetries →
      answer.error = none → DeadLetters.get entryId s.now s.rows ≠ none → s.done = []))
  | .handled id none => decidable_of_iff (∀ x ∈ s.calls.entries, x.1 ≠ id → ¬ x.2.Open)
      ⟨fun h id' c hg hne => h (id', c) (OrdMap.mem_entries_iff.2 hg) hne,
        fun h x hx hne => h x.1 x.2 (OrdMap.mem_entries_iff.1 hx) hne⟩
  | .delete id answer => decidable_of_iff (∀ c ∈ s.calls.get id, lastTry answer c = true)
      ⟨fun h c n hg hph => lastTry_iff.1 (h c hg) n hph,
        fun h c hg => lastTry_iff.2 fun n hph => h c n hg hph⟩
  | .handled _ (some _) => isTrue trivial
  | .retry _ => isTrue trivial
  | .markRetrying _ _ => isTrue trivial
  | .wake _ => isTrue trivial
  | .markFailed _ _ => isTrue trivial
  | .tick _ => isTrue trivial

def refusedEntry : Entry String :=
  ⟨"e1", "slashing_request", "message", "Error", "rejected", none, 3, .failed, 0, 0, 1000⟩

def oneRow : Table String := ⟨[("e1", refusedEntry)], by simp⟩

/-- The first call fails once and then succeeds; the second starts meanwhile and fails; the third
finds nothing. -/
theorem retry_sound_overlap : ∃ h s, Run (sys "e1" oneRow) h s ∧ s.done = [0]
    ∧ Sound "e1" oneRow h s := by
  obtain ⟨h, s, hr, ht⟩ := Sys.exists_run (S := sys "e1" oneRow) ⟨0, rfl⟩
    [.retry 1, .retry 0, .get 0 .ok, .get 1 .ok, .markRetrying 0 .ok, .markRetrying 1 .ok,
      .handled 0 (some (.other "string" "busy")), .handled 1 (some (.other "string" "busy")),
      .wake 0, .markFailed 1 .ok, .handled 0 none, .delete 0 .ok, .retry 3, .get 2 .ok]
    (p := fun x => decide ((∀ t ∈ x.1, Harmless "e1" t.pre t.act) ∧ x.2.done = [0]))
    (by decide +kernel)
  obtain ⟨hh, hd⟩ := of_decide_eq_true ht
  exact ⟨h, s, hr, hd, retry_sound hr hh⟩

/-- Two calls read the entry before either marks it, and both handlers succeed. In another run the
`DELETE` is refused, and the handler is invoked again after its success. -/
theorem retried_twice :
    (∃ h s, Run (sys "e1" oneRow) h s ∧ s.done = [0, 1] ∧ ¬ Sound "e1" oneRow h s)
    ∧ ∃ h s, Run (sys "e1" oneRow) h s ∧ s.done = [0, 0] ∧ ¬ Sound "e1" oneRow h s := by
  constructor
  · obtain ⟨h, s, hr, ht⟩ := Sys.exists_run (S := sys "e1" oneRow) ⟨0, rfl⟩
      [.retry 3, .retry 3, .get 0 .ok, .get 1 .ok, .markRetrying 0 .ok, .markRetrying 1 .ok,
        .handled 0 none, .handled 1 none]
      (p := fun x => decide (x.2.done = [0, 1])) (by decide +kernel)
    have hd := of_decide_eq_true ht
    exact ⟨h, s, hr, hd, fun hs => absurd hs.once (by rw [hd]; decide)⟩
  · obtain ⟨h, s, hr, ht⟩ := Sys.exists_run (S := sys "e1" oneRow) ⟨0, rfl⟩
      [.retry 3, .get 0 .ok, .markRetrying 0 .ok, .handled 0 none,
        .delete 0 (.refused (.other "string" "timeout")), .wake 0, .handled 0 none]
      (p := fun x => decide (x.2.done = [0, 0])) (by decide +kernel)
    have hd := of_decide_eq_true ht
    exact ⟨h, s, hr, hd, fun hs => absurd hs.once (by rw [hd]; decide)⟩

end Runs

end Retry

section Listing

variable {μ : Type*} {rows : Table μ} {messageType : Option String} {now : ℚ}

/-- Every row expires when the queue has kept it for as long as it keeps rows. -/
def Dated (rows : Table μ) : Prop :=
  ∀ id e, rows.get id = some e → e.expiresAt = e.createdAt + dlqTtlMs

theorem Dated.of_mem (hd : Dated rows) {e : Entry μ} (he : e ∈ rows.values) :
    e.expiresAt = e.createdAt + dlqTtlMs := by
  obtain ⟨⟨id, e⟩, hmem, rfl⟩ := List.mem_map.1 he
  exact hd id e (OrdMap.mem_entries_iff.1 hmem)

theorem Dated.update (hd : Dated rows) {id : String} {f : Entry μ → Entry μ}
    (hf : ∀ e, (f e).createdAt = e.createdAt ∧ (f e).expiresAt = e.expiresAt) :
    Dated (update id f rows) := by
  intro k e he
  unfold DeadLetters.update at he
  rcases hg : rows.get id with _ | e₀ <;> rw [hg] at he <;> simp only at he
  · exact hd k e he
  · rw [OrdMap.get_set] at he
    split_ifs at he
    · rw [← Option.some.inj he, (hf e₀).1, (hf e₀).2]
      exact hd id e₀ hg
    · exact hd k e he

theorem Dated.delete (hd : Dated rows) (id : String) : Dated (rows.delete id) := by
  intro k e he
  rw [OrdMap.get_delete] at he
  split_ifs at he
  exact hd k e he

theorem Dated.write (hd : Dated rows) {answer : Answer} {f : Table μ → Table μ}
    (hf : Dated (f rows)) : Dated (answer.write f rows) := by
  unfold Answer.write
  split
  · exact hf
  · exact hd

theorem Dated.move {entryId : String} {s s' : Retry.State μ} {a : Retry.Action}
    (hd : Dated s.rows) (hm : Retry.Move entryId s a s') : Dated s'.rows := by
  cases hm with
  | retry => exact hd
  | found => exact hd
  | missed => exact hd
  | marked => exact hd.write (hd.update fun _ => ⟨rfl, rfl⟩)
  | succeeded => exact hd
  | failed => exact hd
  | deleted => exact hd.write (hd.delete entryId)
  | woken => exact hd
  | markedFailed => exact hd.write (hd.update fun _ => ⟨rfl, rfl⟩)
  | tick => exact hd

theorem dated_run {entryId : String} {h : List (Taken (Retry.State μ) Retry.Action)}
    {s : Retry.State μ} (hr : Run (Retry.sys entryId rows) h s) (hd : Dated rows) :
    Dated s.rows := by
  refine hr.invariant (P := fun s => Dated s.rows) ?_ fun s a s' hs hstep => ?_
  · rintro s ⟨now, rfl⟩
    exact hd
  · exact hs.move (Retry.step_move hstep)

/-- The order of `list`. -/
def Newer (a b : Entry μ) : Prop := b.createdAt < a.createdAt

theorem orders_newer (l : List (Entry μ)) : Sorted.Orders Newer l where
  asymm _ _ _ _ hab hba := lt_asymm hab hba
  trans _ _ _ _ _ _ hab hbc := by
    unfold Newer at *
    exact not_lt.2 ((not_lt.1 hbc).trans (not_lt.1 hab))

/-- The rows asked for, expired or not. -/
def ofType (messageType : Option String) (entry : Entry μ) : Bool :=
  (messageType.filter (· ≠ "")).all fun messageType => entry.messageType = messageType

def live (now : ℚ) (entry : Entry μ) : Bool := now < entry.expiresAt

theorem values_purgeExpired (p : ℚ) (rows : Table μ) :
    (purgeExpired p rows).values = rows.values.filter fun e => !decide (e.expiresAt ≤ p) := by
  unfold purgeExpired OrdMap.values
  rw [List.filter_map]
  rfl

theorem filter_listed (entries : List (Entry μ)) : entries.filter (listed messageType now) =
    (entries.filter (ofType messageType)).filter (live now) := List.filter_filter.symm

theorem filter_purgeExpired {p : ℚ} (hp : p ≤ now) :
    (purgeExpired p rows).values.filter (listed messageType now) =
      (rows.values.filter (ofType messageType)).filter (live now) := by
  rw [values_purgeExpired, ← filter_listed, List.filter_filter]
  refine List.filter_congr fun e _ => ?_
  by_cases he : now < e.expiresAt
  · simp [listed, he, hp.trans_lt he]
  · simp [listed, he]

theorem live_mono {t t' : ℚ} (h : t ≤ t') {e : Entry μ} (he : live t' e = true) : live t e = true :=
  decide_eq_true (h.trans_lt (of_decide_eq_true he))

/-- What is listed by pages, while time goes on and purges may take place. -/
structure Paged (rows : Table μ) (messageType : Option String) (last : ℚ)
    (entries : List (Entry μ)) : Prop where
  newestFirst : entries.Pairwise Newer
  stored : ∀ e ∈ entries, e ∈ rows.values ∧ ofType messageType e = true
  complete : ∀ e ∈ rows.values, ofType messageType e = true → last < e.expiresAt → e ∈ entries

theorem list_eq {limit offset : ℕ} (hl : 1 ≤ limit) (hl' : limit ≤ 500) (ho : offset < 2 ^ 63)
    (order : List (Entry μ) → List (Entry μ)) :
    list ⟨messageType, some (.ofNat limit), some (.ofNat offset)⟩ now order rows =
      some (((order (rows.values.filter (listed messageType now))).drop offset).take limit) := by
  have hclamp : Jobs.clampInt (.ofNat limit) 1 500 = some (limit : ℤ) := by
    simp only [Jobs.clampInt, JsNumber.ofNat, Nat.cast_nonneg, if_true, Int.floor_natCast,
      Option.some.injEq]
    omega
  have hoff : listOffset (.ofNat offset) = some offset := by
    have hlt : (offset : ℚ) < 2 ^ 63 := by exact_mod_cast ho
    simp [listOffset, JsNumber.ofNat, hlt]
  simp [list, hclamp, hoff]

theorem paged (hdated : Dated rows)
    (hdistinct : ((rows.values.filter (ofType messageType)).map (·.createdAt)).Nodup)
    {order : ℕ → List (Entry μ) → List (Entry μ)} (horder : ∀ k, Sorted.IsSort Newer (order k))
    {times purges : ℕ → ℚ} (htimes : Monotone times) (hpurges : ∀ k, purges k ≤ times k)
    {limit n : ℕ} (hlimit : 1 ≤ limit ∧ limit ≤ 500) (hsize : n * limit < 2 ^ 63)
    (hpages : (rows.values.filter (listed messageType (times 0))).length ≤ (n + 1) * limit) :
    ∃ pages : ℕ → List (Entry μ),
      (∀ k ≤ n, list ⟨messageType, some (.ofNat limit), some (.ofNat (k * limit))⟩ (times k)
        (order k) (purgeExpired (purges k) rows) = some (pages k)) ∧
      Paged rows messageType (times n) ((List.range (n + 1)).flatMap pages) := by
  set asked := rows.values.filter (ofType messageType) with hasked
  set sorted := order 0 asked with hsorted
  have hmem : ∀ e, e ∈ sorted ↔ e ∈ rows.values ∧ ofType messageType e = true := fun e => by
    rw [hsorted, ((horder 0).perm asked).mem_iff, hasked, List.mem_filter]
  have hold : sorted.Pairwise fun a b => ¬ Newer b a := (horder 0).sorted asked (orders_newer asked)
  have hinj : ∀ a ∈ asked, ∀ b ∈ asked, ¬ Newer a b → ¬ Newer b a → a = b :=
    fun a ha b hb hab hba =>
      List.inj_on_of_nodup_map hdistinct ha hb (le_antisymm (not_lt.1 hab) (not_lt.1 hba))
  -- a row that is newer than one that lives lives too
  have hlive : ∀ t, sorted.Pairwise fun a b => live t b = true → live t a = true := fun t =>
    hold.imp_of_mem fun ha hb hab hb' => by
      have hle : _ ≤ _ := not_lt.1 hab
      have hlt : t < _ := of_decide_eq_true hb'
      rw [hdated.of_mem ((hmem _).1 hb).1] at hlt
      refine decide_eq_true (hlt.trans_le ?_)
      rw [hdated.of_mem ((hmem _).1 ha).1]
      exact add_le_add_left hle _
  have horders : ∀ k, order k ((purgeExpired (purges k) rows).values.filter
      (listed messageType (times k))) = sorted.filter (live (times k)) := fun k => by
    rw [filter_purgeExpired (hpurges k)]
    exact (horder k).sort_filter (horder 0) (orders_newer asked) hinj _
  have hsub : ((List.range (n + 1)).flatMap fun k =>
      Sorted.page limit k (sorted.filter (live (times k)))).Sublist sorted :=
    Sorted.pages_sublist fun k _ => Sorted.filter_prefix (hlive _)
  refine ⟨fun k => Sorted.page limit k (sorted.filter (live (times k))), fun k hk => ?_,
    ?_, fun e he => (hmem e).1 (hsub.subset he), fun e he hof hlast => ?_⟩
  · have hoffset : k * limit < 2 ^ 63 := (Nat.mul_le_mul_right limit hk).trans_lt hsize
    rw [list_eq hlimit.1 hlimit.2 hoffset, horders]
    rfl
  · have hne : sorted.Pairwise fun a b => a.createdAt ≠ b.createdAt :=
      List.pairwise_map.1 ((((horder 0).perm asked).map _).nodup_iff.2 hdistinct)
    exact List.Pairwise.sublist hsub ((hold.and hne).imp fun hab =>
      lt_of_le_of_ne (not_lt.1 hab.1) hab.2.symm)
  -- what lives at the end begins the list of every page
  · have hlast' : ∀ k < n + 1,
        sorted.filter (live (times n)) <+: sorted.filter (live (times k)) := by
      intro k hk
      have heq : sorted.filter (live (times n)) =
          (sorted.filter (live (times k))).filter (live (times n)) := by
        rw [List.filter_filter]
        refine List.filter_congr fun e _ => ?_
        have hmono := live_mono (htimes (Nat.lt_succ_iff.1 hk)) (e := e)
        rcases hn : live (times n) e
        · simp
        · simp [hmono hn]
      rw [heq]
      exact Sorted.filter_prefix ((hlive _).sublist List.filter_sublist)
    have hlen : (sorted.filter (live (times 0))).length ≤ (n + 1) * limit := by
      rwa [(((horder 0).perm asked).filter _).length_eq, hasked, ← filter_listed]
    refine Sorted.mem_pages hlast' ((hlast' 0 n.succ_pos).length_le.trans hlen) ?_
    exact List.mem_filter.2 ⟨(hmem e).2 ⟨he, hof⟩, decide_eq_true hlast⟩

/-- After any retries, the queue is listed page by page at later and later times, by a database that
may sort rows of one time in any order, and with purges before any page: no row comes twice, the
rows come newest first, and all that have not expired at the end are there. -/
theorem pages_complete {entryId : String} {h : List (Taken (Retry.State μ) Retry.Action)}
    {s : Retry.State μ} (hr : Run (Retry.sys entryId rows) h s) (hdated : Dated rows)
    (hdistinct : ((s.rows.values.filter (ofType messageType)).map (·.createdAt)).Nodup)
    {order : ℕ → List (Entry μ) → List (Entry μ)} (horder : ∀ k, Sorted.IsSort Newer (order k))
    {times purges : ℕ → ℚ} (htimes : Monotone times) (hpurges : ∀ k, purges k ≤ times k)
    {limit n : ℕ} (hlimit : 1 ≤ limit ∧ limit ≤ 500) (hsize : n * limit < 2 ^ 63)
    (hpages : (s.rows.values.filter (listed messageType (times 0))).length ≤ (n + 1) * limit) :
    ∃ pages : ℕ → List (Entry μ),
      (∀ k ≤ n, list ⟨messageType, some (.ofNat limit), some (.ofNat (k * limit))⟩ (times k)
        (order k) (purgeExpired (purges k) s.rows) = some (pages k)) ∧
      Paged s.rows messageType (times n) ((List.range (n + 1)).flatMap pages) :=
  paged (dated_run hr hdated) hdistinct horder htimes hpurges hlimit hsize hpages

def letterAt (id : String) (createdAt : ℚ) : Entry String :=
  entryOf id createdAt "slashing_request" "message" (.other "string" "busy") 3

def threeRows : Table String :=
  ⟨[("a", letterAt "a" 1), ("b", letterAt "b" 3), ("c", letterAt "c" 2)], by simp⟩

theorem dated_threeRows : Dated threeRows := by
  intro id e he
  have hmem := OrdMap.mem_entries_iff.2 he
  simp only [threeRows, List.mem_cons, Prod.mk.injEq, List.not_mem_nil, or_false] at hmem
  rcases hmem with ⟨-, rfl⟩ | ⟨-, rfl⟩ | ⟨-, rfl⟩ <;> rfl

instance (a b : Entry μ) : Decidable (Newer a b) := inferInstanceAs (Decidable (_ < _))

theorem pages_complete_three : ∃ pages : ℕ → List (Entry String),
    (∀ k ≤ 1, list ⟨none, some (.ofNat 2), some (.ofNat (k * 2))⟩ k
      (fun l => l.insertionSort fun a b => ¬ Newer b a) (purgeExpired 0 threeRows)
      = some (pages k)) ∧ Paged threeRows none ((1 : ℕ) : ℚ) ((List.range 2).flatMap pages) := by
  have hr : Run (Retry.sys "a" threeRows) [] { now := 0, rows := threeRows } := .start ⟨0, rfl⟩
  exact pages_complete hr dated_threeRows (by decide +kernel)
    (fun _ => Sorted.isSort_insertionSort) Nat.mono_cast (fun k => Nat.cast_nonneg k)
    (by decide) (by decide) (by decide +kernel)

end Listing

end DeadLetters

end VeriNode
