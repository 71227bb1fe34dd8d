import VeriNode.Database.PoolIsolation

/-!
# A query runs once, and its clients go back

A call uses the first client it gets while it waits for one, and releases it with the answer; the
client it no longer waits for is released as it comes. So a client is held just by the call that
executes on it (`Inv`), every client is released once and not used after that, and a call is settled
by its one execution or by the pool it waited for last (`query_sound`).
-/

namespace VeriNode

namespace PriorityRouter

section Runs

variable {π ρ ε : Type}

/-- What the call's executions have come to. -/
def World.answersOf (w : World π ρ ε) (call : ℕ) : List (Outcome ρ ε) :=
  (w.answers.filter (·.1 = call)).map Prod.snd

/-- The call's text has been executed once, on the client. -/
def ExecutedOn (w : World π ρ ε) (k : ℕ) (call : Call π ρ ε) (client : Client) : Prop :=
  Loans.uses k w.loans = [(client, (call.text, call.params))]

structure Sound (s : State π ρ ε) : Prop where
  /-- A client is used and released only by the call that has it. -/
  proper : Loans.Proper s.shared.loans
  /-- Every client has been released as often as it was obtained, unless a call has it now. -/
  released : ∀ client, Loans.lentTimes client s.shared.loans =
    Loans.returnedTimes client s.shared.loans + (Loans.holder client s.shared.loans).toList.length
  /-- That call executes its query on it. -/
  held : ∀ client k, Loans.holder client s.shared.loans = some k →
    ∃ call, s.calls[k]? = some call ∧ call.phase = .executing client
  once : ∀ k call, s.calls[k]? = some call →
    Loans.uses k s.shared.loans = [] ∨ ∃ client, ExecutedOn s.shared k call client
  resolved : ∀ k call result, s.calls[k]? = some call → call.phase = .settled (.resolved result) →
    ∃ client, ExecutedOn s.shared k call client ∧ s.shared.answersOf k = [.resolved result]
  rejected : ∀ k call error, s.calls[k]? = some call → call.phase = .settled (.rejected error) →
    (∃ client, ExecutedOn s.shared k call client ∧ s.shared.answersOf k = [.rejected error]) ∨
      Loans.uses k s.shared.loans = [] ∧ (k, call.waitedFor, error) ∈ s.shared.refusals

/-- What a call has done, by where it stands. -/
def Call.Ok (call : Call π ρ ε) (w : World π ρ ε) : Prop :=
  match call.phase with
  | .connecting _ => Loans.uses call.id w.loans = [] ∧ w.answersOf call.id = []
  | .racing => Loans.uses call.id w.loans = [] ∧ w.answersOf call.id = []
  | .executing client => ExecutedOn w call.id call client ∧ w.answersOf call.id = []
  | .settled outcome =>
    (∃ client, ExecutedOn w call.id call client ∧ w.answersOf call.id = [outcome]) ∨
      Loans.uses call.id w.loans = [] ∧ w.answersOf call.id = [] ∧ ∃ error,
        outcome = .rejected error ∧ (call.id, call.waitedFor, error) ∈ w.refusals

variable {w w' : World π ρ ε} {call call' : Call π ρ ε} {client : Client} {errorText : ε → String}

theorem Call.Ok.frame (hok : call.Ok w)
    (huses : Loans.uses call.id w'.loans = Loans.uses call.id w.loans)
    (hanswers : w'.answersOf call.id = w.answersOf call.id) (hrefusals : w.refusals ⊆ w'.refusals) :
    call.Ok w' := by
  unfold Call.Ok ExecutedOn at hok ⊢
  rw [huses, hanswers]
  split
  · simpa only [*] using hok
  · simpa only [*] using hok
  · simpa only [*] using hok
  · rename_i outcome hp
    rw [hp] at hok
    rcases hok with hok | ⟨hu, ha, error, ho, hm⟩
    · exact .inl hok
    · exact .inr ⟨hu, ha, error, ho, hrefusals hm⟩

/-- What a call does that goes on. -/
structure Moved (w w' : World π ρ ε) (call call' : Call π ρ ε) : Prop where
  id : call'.id = call.id
  started : w'.started = w.started
  uses : ∀ k, k ≠ call.id → Loans.uses k w'.loans = Loans.uses k w.loans
  answers : ∀ k, k ≠ call.id → w'.answersOf k = w.answersOf k
  refusals : w.refusals ⊆ w'.refusals
  proper : Loans.Proper w'.loans
  holders : ∀ client k, Loans.holder client w'.loans = some k ↔
    k = call.id ∧ call'.phase = .executing client ∨
      k ≠ call.id ∧ Loans.holder client w.loans = some k
  ok : call'.Ok w'

theorem Moved.still (hproper : Loans.Proper w.loans)
    (hheld : ∀ client, Loans.holder client w.loans = some call.id ↔ call.phase = .executing client)
    (hloans : w'.loans = w.loans) (hanswers : w'.answers = w.answers)
    (hstarted : w'.started = w.started) (hrefusals : w.refusals ⊆ w'.refusals)
    (hid : call'.id = call.id)
    (hphase : ∀ client, call'.phase = .executing client ↔ call.phase = .executing client)
    (hok : call'.Ok w') : Moved w w' call call' where
  id := hid
  started := hstarted
  uses k _ := by rw [hloans]
  answers k _ := by unfold World.answersOf; rw [hanswers]
  refusals := hrefusals
  proper := hloans ▸ hproper
  holders client k := by
    rw [hloans, hphase]
    constructor
    · intro hh
      by_cases hk : k = call.id
      · exact .inl ⟨hk, (hheld client).1 (hk ▸ hh)⟩
      · exact .inr ⟨hk, hh⟩
    · rintro (⟨rfl, hp⟩ | ⟨-, hh⟩)
      · exact (hheld client).2 hp
      · exact hh
  ok := hok

theorem connect_eq_some (hw : w.connect call.id client = some w') :
    Loans.holder client w.loans = none ∧
      w' = { w with loans := .lent call.id client :: w.loans } := by
  unfold World.connect at hw
  split at hw
  · exact ⟨‹_›, (Option.some.inj hw).symm⟩
  · simp at hw

theorem Moved.execute {v : World π ρ ε} (hproper : Loans.Proper w.loans)
    (hheld : ∀ client, Loans.holder client w.loans ≠ some call.id)
    (huses : Loans.uses call.id w.loans = []) (hanswers : w.answersOf call.id = [])
    (hw : w.connect call.id client = some v) (he : execute call client v = (w', call')) :
    Moved w w' call call' := by
  obtain ⟨hfree, rfl⟩ := connect_eq_some hw
  simp only [PriorityRouter.execute, Prod.mk.injEq] at he
  obtain ⟨rfl, rfl⟩ := he
  refine ⟨rfl, rfl, fun k hk => ?_, fun _ _ => rfl, fun _ h => h, ⟨Loans.holder_lent_self, hfree,
    hproper⟩, fun d k => ?_, ?_⟩
  · rw [Loans.uses_used_of_ne (Ne.symm hk), Loans.uses_lent]
  · by_cases hd : client = d
    · subst hd
      simp [hfree, eq_comm]
    · rw [Loans.holder_used, Loans.holder_lent_of_ne hd]
      constructor
      · intro hh
        exact .inr ⟨fun hk => hheld d (hk ▸ hh), hh⟩
      · rintro (⟨-, hp⟩ | ⟨-, hh⟩)
        · exact absurd (Phase.executing.inj hp) hd
        · exact hh
  · refine ⟨?_, hanswers⟩
    simp [ExecutedOn, huses]

theorem countTimeout_eq (errorText : ε → String) (tier : PoolTier) (o : Outcome ρ ε)
    (w : World π ρ ε) :
    ∃ total, w.countTimeout errorText tier o = { w with queryTimeoutTotal := total } := by
  unfold World.countTimeout
  split
  · exact ⟨_, rfl⟩
  · split <;> exact ⟨_, rfl⟩

theorem answersOf_append (w : World π ρ ε) (o : Outcome ρ ε) (total : PoolTier → ℕ)
    (loans : List (Loans.Event ℕ Client (String × Option (List π)))) (k c : ℕ) :
    World.answersOf
      { w with answers := w.answers ++ [(c, o)], queryTimeoutTotal := total, loans := loans } k =
      w.answersOf k ++ if c = k then [o] else [] := by
  unfold World.answersOf
  rw [List.filter_append, List.map_append]
  by_cases h : c = k <;> simp [h]

theorem Moved.reject {error : ε} (hproper : Loans.Proper w.loans)
    (hheld : ∀ d, Loans.holder d w.loans = some call.id ↔ call.phase = .executing d)
    (hp : ∀ d, call.phase ≠ .executing d)
    (hok : Loans.uses call.id w.loans = [] ∧ w.answersOf call.id = [])
    (hr : some (PriorityRouter.reject error call w) = some (w', call')) :
    Moved w w' call call' := by
  simp only [PriorityRouter.reject, Option.some.injEq, Prod.mk.injEq] at hr
  obtain ⟨rfl, rfl⟩ := hr
  refine .still hproper hheld rfl rfl rfl (List.subset_append_left _ _) rfl (by simp [hp]) ?_
  exact .inr ⟨hok.1, hok.2, error, rfl, by simp⟩

theorem Moved.answer {outcome : Outcome ρ ε} (hproper : Loans.Proper w.loans)
    (hheld : ∀ d, Loans.holder d w.loans = some call.id ↔ call.phase = .executing d)
    (hok : call.Ok w) (hp : call.phase = .executing client) :
    Moved w
      (({ w with answers := w.answers ++ [(call.id, outcome)] }.countTimeout errorText
        client.pool outcome).release call.id client)
      call { call with phase := .settled outcome } := by
  obtain ⟨total, ht⟩ := countTimeout_eq errorText client.pool outcome
    { w with answers := w.answers ++ [(call.id, outcome)] }
  simp only [Call.Ok, hp] at hok
  obtain ⟨hex, hanswers⟩ := hok
  have hmine := (hheld client).2 hp
  rw [ht]
  simp only [World.release]
  refine ⟨rfl, rfl, fun k _ => Loans.uses_returned, fun k hk => ?_, fun _ h => h, ⟨hmine, hproper⟩,
    fun d k => ?_, .inl ⟨client, ?_, ?_⟩⟩
  · rw [answersOf_append, if_neg (Ne.symm hk), List.append_nil]
  · by_cases hd : client = d
    · subst hd
      simp [hmine, eq_comm]
    · rw [Loans.holder_returned_of_ne hd]
      constructor
      · intro hh
        refine .inr ⟨fun hk => hd ?_, hh⟩
        rw [hk, hheld d, hp] at hh
        exact Phase.executing.inj hh
      · rintro (⟨-, hc⟩ | ⟨-, hh⟩)
        · cases hc
        · exact hh
  · simpa [ExecutedOn] using hex
  · rw [answersOf_append, hanswers, if_pos rfl, List.nil_append]

theorem Moved.late {v : World π ρ ε} (hproper : Loans.Proper w.loans)
    (hheld : ∀ d, Loans.holder d w.loans = some call.id ↔ call.phase = .executing d)
    (hok : call.Ok w) (hw : w.connect call.id client = some v) :
    Moved w (v.release call.id client) call { call with pending := false } := by
  obtain ⟨hfree, rfl⟩ := connect_eq_some hw
  simp only [World.release]
  refine ⟨rfl, rfl, fun k _ => ?_, fun _ _ => rfl, fun _ h => h, ⟨Loans.holder_lent_self, hfree,
    hproper⟩, fun d k => ?_, ?_⟩
  · rw [Loans.uses_returned, Loans.uses_lent]
  · have hsame : Loans.holder d (.returned call.id client :: .lent call.id client :: w.loans) =
        Loans.holder d w.loans := by
      by_cases hd : client = d
      · subst hd
        rw [Loans.holder_returned_self, hfree]
      · rw [Loans.holder_returned_of_ne hd, Loans.holder_lent_of_ne hd]
    rw [hsame]
    constructor
    · intro hh
      by_cases hk : k = call.id
      · exact .inl ⟨hk, (hheld d).1 (hk ▸ hh)⟩
      · exact .inr ⟨hk, hh⟩
    · rintro (⟨rfl, hp⟩ | ⟨-, hh⟩)
      · exact (hheld d).2 hp
      · exact hh
  · have hok' : Call.Ok { call with pending := false } w := hok
    exact hok'.frame rfl rfl (fun _ h => h)

theorem resume_moved {event : Event ρ ε} (hproper : Loans.Proper w.loans)
    (hheld : ∀ d, Loans.holder d w.loans = some call.id ↔ call.phase = .executing d)
    (hok : call.Ok w) (hr : resume errorText event call w = some (w', call')) :
    Moved w w' call call' := by
  have hnot : (∀ d, call.phase ≠ .executing d) →
      ∀ d, Loans.holder d w.loans ≠ some call.id := fun hp d hh => hp d ((hheld d).1 hh)
  unfold resume at hr
  split at hr
  · rename_i client tier hp
    simp only [Call.Ok, hp] at hok
    split at hr
    · obtain ⟨v, hw, he⟩ := Option.map_eq_some_iff.1 hr
      exact .execute hproper (hnot (by simp [hp])) hok.1 hok.2 hw he
    · simp at hr
  · rename_i client hp
    simp only [Call.Ok, hp] at hok
    split at hr
    · obtain ⟨v, hw, he⟩ := Option.map_eq_some_iff.1 hr
      exact .execute hproper (hnot (by simp [hp])) hok.1 hok.2 hw he
    · simp at hr
  · rename_i error tier hp
    simp only [Call.Ok, hp] at hok
    exact .reject hproper hheld (by simp [hp]) hok hr
  · rename_i error hp
    simp only [Call.Ok, hp] at hok
    exact .reject hproper hheld (by simp [hp]) hok hr
  · rename_i hp
    simp only [Call.Ok, hp] at hok
    simp only [Option.some.injEq, Prod.mk.injEq] at hr
    obtain ⟨rfl, rfl⟩ := hr
    exact .still hproper hheld rfl rfl rfl (fun _ h => h) rfl (by simp [hp]) hok
  · rename_i outcome client hp
    simp only [Option.some.injEq, Prod.mk.injEq] at hr
    obtain ⟨rfl, rfl⟩ := hr
    exact .answer hproper hheld hok hp
  · split at hr
    · obtain ⟨v, hw, he⟩ := Option.map_eq_some_iff.1 hr
      simp only [Prod.mk.injEq] at he
      obtain ⟨rfl, rfl⟩ := he
      exact .late hproper hheld hok hw
    · simp at hr
  · rename_i error
    split at hr
    · simp only [Option.some.injEq, Prod.mk.injEq] at hr
      obtain ⟨rfl, rfl⟩ := hr
      have hsub : w.refusals ⊆ w.refusals ++ [(call.id, .oltp, error)] :=
        List.subset_append_left _ _
      have hok' : Call.Ok { call with pending := false } w := hok
      exact .still hproper hheld rfl rfl rfl hsub rfl (fun _ => Iff.rfl) (hok'.frame rfl rfl hsub)
    · simp at hr
  · simp at hr

/-- What is so in every state. -/
structure Inv (s : State π ρ ε) : Prop where
  ids : ∀ (k : ℕ) (call : Call π ρ ε), s.calls[k]? = some call → call.id = k
  started : s.shared.started = s.calls.length
  proper : Loans.Proper s.shared.loans
  /-- A client is held by the call that executes on it. -/
  held : ∀ client k, Loans.holder client s.shared.loans = some k ↔
    ∃ call : Call π ρ ε, s.calls[k]? = some call ∧ call.phase = .executing client
  ok : ∀ call ∈ s.calls, call.Ok s.shared
  fresh : ∀ k, s.calls.length ≤ k →
    Loans.uses k s.shared.loans = [] ∧ s.shared.answersOf k = []

variable {s s' : State π ρ ε} {a : Action π ρ ε} {h : List (Taken (State π ρ ε) (Action π ρ ε))}

theorem query_eq (input : Input π) (w : World π ρ ε) :
    ∃ call : Call π ρ ε, query input w = ({ w with started := w.started + 1 }, [call]) ∧
      call.id = w.started ∧ ((∃ tier, call.phase = .connecting tier) ∨ call.phase = .racing) := by
  refine ⟨_, rfl, rfl, ?_⟩
  simp only []
  split
  · exact .inl ⟨_, rfl⟩
  · split
    · exact .inl ⟨_, rfl⟩
    · exact .inr rfl

theorem Inv.enter (hi : Inv s) (input : Input π) :
    Inv ⟨(query input s.shared).1, s.calls ++ (query input s.shared).2⟩ := by
  obtain ⟨call, hq, hid, hp⟩ := query_eq input s.shared
  rw [hq]
  have hfresh := hi.fresh _ (Nat.le_refl _)
  refine ⟨fun k c hc => ?_, ?_, hi.proper, fun client k => ?_, fun c hc => ?_, fun k hk => ?_⟩
  · rcases Calls.of_get_concat hc with hc | ⟨rfl, rfl⟩
    · exact hi.ids k c hc
    · exact hid.trans hi.started
  · simp [hi.started]
  · rw [hi.held client k]
    constructor
    · rintro ⟨c, hc, hcp⟩
      exact ⟨c, Calls.get_append hc, hcp⟩
    · rintro ⟨c, hc, hcp⟩
      rcases Calls.of_get_concat hc with hc | ⟨rfl, rfl⟩
      · exact ⟨c, hc, hcp⟩
      · rcases hp with ⟨tier, hp⟩ | hp <;> simp [hp] at hcp
  · rcases List.mem_append.1 hc with hc | hc
    · exact (hi.ok c hc).frame rfl rfl (fun _ h => h)
    · rw [List.mem_singleton] at hc
      subst hc
      rw [← hi.started, ← hid] at hfresh
      have hok : c.Ok s.shared := by
        rcases hp with ⟨tier, hp⟩ | hp <;> simpa only [Call.Ok, hp] using hfresh
      exact hok.frame rfl rfl (fun _ h => h)
  · refine hi.fresh k ?_
    simp only [List.length_append] at hk
    omega

theorem Inv.resume {k : ℕ} (hi : Inv s) (hc : s.calls[k]? = some call)
    (hm : Moved s.shared w call call') : Inv ⟨w, s.calls.set k call'⟩ := by
  have hid : call.id = k := hi.ids k call hc
  refine ⟨fun i c hci => ?_, ?_, hm.proper, fun client i => ?_, fun c hcm => ?_, fun i hi' => ?_⟩
  · rcases Calls.of_get_set hci with ⟨rfl, rfl⟩ | ⟨-, hci⟩
    · exact hm.id.trans hid
    · exact hi.ids i c hci
  · rw [hm.started, hi.started, List.length_set]
  · rw [hm.holders, hid]
    constructor
    · rintro (⟨rfl, hp⟩ | ⟨hik, hh⟩)
      · exact ⟨call', Calls.get_set_self hc, hp⟩
      · obtain ⟨c, hci, hp⟩ := (hi.held client i).1 hh
        exact ⟨c, (Calls.get_set_of_ne hik).trans hci, hp⟩
    · rintro ⟨c, hci, hp⟩
      rcases Calls.of_get_set hci with ⟨rfl, rfl⟩ | ⟨hik, hci⟩
      · exact .inl ⟨rfl, hp⟩
      · exact .inr ⟨hik, (hi.held client i).2 ⟨c, hci, hp⟩⟩
  · obtain ⟨i, hci⟩ := List.mem_iff_getElem?.1 hcm
    rcases Calls.of_get_set hci with ⟨rfl, rfl⟩ | ⟨hik, hci⟩
    · exact hm.ok
    · have hne : c.id ≠ call.id := by
        rw [hi.ids i c hci, hid]
        exact hik
      exact (hi.ok c (List.mem_of_getElem? hci)).frame (hm.uses _ hne) (hm.answers _ hne)
        hm.refusals
  · rw [List.length_set] at hi'
    have hne : i ≠ call.id := by
      have := Calls.lt_length hc
      omega
    rw [hm.uses i hne, hm.answers i hne]
    exact hi.fresh i hi'

theorem Inv.step (hi : Inv s) (hs : (system π (ρ := ρ) errorText).step s a = some s') : Inv s' := by
  rcases Calls.step_cases hs with ⟨input, rfl, rfl⟩ | ⟨k, event, call, w, call', rfl, hc, hr, rfl⟩
  · exact hi.enter input
  · refine hi.resume hc (resume_moved hi.proper (fun d => ?_)
      (hi.ok call (List.mem_of_getElem? hc)) hr)
    rw [hi.ids k call hc, hi.held d k]
    constructor
    · rintro ⟨c, hck, hp⟩
      rw [hc, Option.some.injEq] at hck
      exact hck ▸ hp
    · exact fun hp => ⟨call, hc, hp⟩

theorem Inv.sound (hi : Inv s) : Sound s where
  proper := hi.proper
  released _ := hi.proper.balance
  held client k := (hi.held client k).1
  once k call hc := by
    have hok := hi.ok call (List.mem_of_getElem? hc)
    unfold Call.Ok at hok
    rw [hi.ids k call hc] at hok
    split at hok
    · exact .inl hok.1
    · exact .inl hok.1
    · exact .inr ⟨_, hok.1⟩
    · rcases hok with ⟨client, hex, -⟩ | ⟨hu, -⟩
      · exact .inr ⟨client, hex⟩
      · exact .inl hu
  resolved k call result hc hp := by
    have hok := hi.ok call (List.mem_of_getElem? hc)
    simp only [Call.Ok, hp, hi.ids k call hc] at hok
    rcases hok with hok | ⟨-, -, error, he, -⟩
    · exact hok
    · cases he
  rejected k call error hc hp := by
    have hok := hi.ok call (List.mem_of_getElem? hc)
    simp only [Call.Ok, hp, hi.ids k call hc] at hok
    rcases hok with hok | ⟨hu, -, e, he, hm⟩
    · exact .inl hok
    · cases he
      exact .inr ⟨hu, hm⟩

theorem inv_of_run (hr : Run (system π (ρ := ρ) errorText) h s) : Inv s := by
  refine hr.invariant (fun s hs => ?_) (fun s a s' hi hs => hi.step hs)
  subst hs
  refine ⟨by simp, rfl, trivial, fun client k => ?_, by simp, fun _ _ => ⟨rfl, rfl⟩⟩
  simp [Loans.holder]

/-- In every run of a router's queries each text is executed at most once, and once when its call
resolves; a client is used and released only by the call that has it, each is released once, and
none is held but by a call that executes on it; and a call is settled by its execution, or by the
pool it waited for. -/
theorem query_sound (hr : Run (system π (ρ := ρ) errorText) h s) : Sound s := (inv_of_run hr).sound

/-- A query that spills over: the client it waited for first comes while it executes on another
one, and is released. -/
theorem query_sound_spilled : ∃ h s, Run (system ℕ (ρ := ℕ) (ε := String) id) h s ∧ Sound s ∧
    s.shared.spilloverTotal = 1 ∧
    s.shared.loans = [.returned 0 ⟨.olap, 0⟩, .returned 0 ⟨.oltp, 0⟩, .lent 0 ⟨.oltp, 0⟩,
      .used 0 ⟨.olap, 0⟩ ("SELECT 1", none), .lent 0 ⟨.olap, 0⟩] ∧
    s.calls.map (·.phase) = [.settled (.resolved 1)] := by
  obtain ⟨h, s, hr, hp⟩ := Sys.exists_run (S := system ℕ (ρ := ℕ) (ε := String) id) rfl
    [.enter ⟨"SELECT 1", none, none, none, 0⟩, .resume 0 .spill, .resume 0 (.connected ⟨.olap, 0⟩),
      .resume 0 (.late ⟨.oltp, 0⟩), .resume 0 (.answer (.resolved 1))]
    (p := fun r => r.2.shared.spilloverTotal == 1 &&
      r.2.shared.loans == [.returned 0 ⟨.olap, 0⟩, .returned 0 ⟨.oltp, 0⟩, .lent 0 ⟨.oltp, 0⟩,
        .used 0 ⟨.olap, 0⟩ ("SELECT 1", none), .lent 0 ⟨.olap, 0⟩] &&
      r.2.calls.map (·.phase) == [.settled (.resolved 1)])
    (by decide +kernel)
  simp only [Bool.and_eq_true, beq_iff_eq] at hp
  exact ⟨h, s, hr, query_sound hr, hp.1.1, hp.1.2, hp.2⟩

end Runs

end PriorityRouter

end VeriNode
