import VeriNode.Database.Transactions

/-!
# Transactions that do not reach the next borrower

A call ends in one piece with what it waited for last: the commit, or the rollback. When every
rollback succeeds, a client is handed back with an idle session, so the next call begins with one
(`Moved`, `Inv`), and what a call rejects with is what failed first. A rollback that fails is thrown
itself, in place of the error that asked for it, and the client goes back as it is: the calls are
isolated just when no rollback fails (`isolated_iff`).
-/

namespace VeriNode

namespace Transactions

section Isolation

variable {σ ρ ε : Type}

def Phase.over : Phase ρ ε → Bool
  | .settled _ => true
  | _ => false

/-- The client a call may use. -/
def Phase.holds : Phase ρ ε → Option ℕ
  | .beginning client => some client
  | .running client => some client
  | .committing client _ => some client
  | .rollingBack client _ => some client
  | _ => none

/-- The clients a call has handed back. -/
def World.releasedBy (w : World σ) (call : ℕ) : List ℕ :=
  (w.released.filter (·.call = call)).map (·.client)

structure Isolated (s : State σ ρ ε) : Prop where
  /-- A client is handed back with no transaction open. -/
  idle : ∀ r ∈ s.shared.released, r.session = .idle
  /-- What is committed at once is what the body of one call did; it resolved, as did the call. -/
  together : ∀ batch ∈ s.shared.committed, ∃ (k : ℕ) (call : Call σ ρ ε) (result : ρ),
    s.calls[k]? = some call ∧ call.phase = .settled (.resolved result) ∧
      call.result = some result ∧ batch = call.statements.map (k, ·)
  /-- A call rejects with what failed first. -/
  error : ∀ call ∈ s.calls, ∀ err, call.phase = .settled (.rejected err) →
    call.failure = some err
  /-- The client a call was given has been handed back once when the call is over, and not
  before. -/
  once : ∀ k call, s.calls[k]? = some call →
    s.shared.releasedBy k = if call.phase.over then call.client.toList else []

/-- The step is not a rollback that fails. -/
def RollbackDone (s : State σ ρ ε) (a : Action σ ρ ε) : Prop :=
  ∀ k call client err error aborts, a = .resume k (.answer (.failed error aborts)) →
    s.calls[k]? = some call → call.phase ≠ .rollingBack client err

/-- What the session of a call's client is. -/
def Call.InSession (call : Call σ ρ ε) (session : Session σ) : Prop :=
  match call.phase with
  | .beginning _ => session = .idle ∧ call.statements = []
  | .running _ => ∃ aborted, session = .inTransaction (call.statements.map (call.id, ·)) aborted
  | .committing _ _ =>
    ∃ aborted, session = .inTransaction (call.statements.map (call.id, ·)) aborted
  | _ => True

/-- What is known of how a call ends. -/
def Call.Known (call : Call σ ρ ε) : Prop :=
  match call.phase with
  | .connecting => call.client = none ∧ call.statements = []
  | .committing _ result => call.result = some result
  | .rollingBack _ err => call.failure = some err
  | .settled (.resolved result) => call.result = some result
  | .settled (.rejected err) => call.failure = some err
  | _ => True

structure Call.Ok (call : Call σ ρ ε) (w : World σ) : Prop where
  held : ∀ client, call.phase.holds = some client → call.client = some client ∧
    ∃ session, w.connections[client]? = some ⟨session, false⟩ ∧ call.InSession session
  known : call.Known
  released : w.releasedBy call.id = if call.phase.over then call.client.toList else []

variable {w w' : World σ} {call call' : Call σ ρ ε} {client : ℕ} {event : Event σ ρ ε}

theorem resume_settled {outcome : Outcome ρ ε} (hp : call.phase = .settled outcome) :
    resume event call w = none := by
  simp only [resume, hp]

theorem Call.Ok.frame (hok : call.Ok w)
    (hkeep : ∀ client connection, call.phase.holds = some client →
      w.connections[client]? = some connection → connection.free = false →
        w'.connections[client]? = some connection)
    (hrel : w'.releasedBy call.id = w.releasedBy call.id) : call.Ok w' where
  held client hc := by
    obtain ⟨hcl, session, hs, hin⟩ := hok.held client hc
    exact ⟨hcl, session, hkeep client _ hc hs rfl, hin⟩
  known := hok.known
  released := hrel.trans hok.released

/-- What a call changes of the connections: its own client, and one that was free. -/
structure Frame (w w' : World σ) (call call' : Call σ ρ ε) : Prop where
  keep : ∀ client connection, w.connections[client]? = some connection →
    connection.free = false → call.phase.holds ≠ some client →
      w'.connections[client]? = some connection
  holds : ∀ client, call'.phase.holds = some client → call.phase.holds = some client ∨
    ∀ connection, w.connections[client]? = some connection → connection.free = true
  free : (∀ connection ∈ w.connections, connection.free = true → connection.session = .idle) →
    ∀ connection ∈ w'.connections, connection.free = true → connection.session = .idle

theorem Frame.same (hw : w'.connections = w.connections)
    (hh : ∀ client, call'.phase.holds = some client → call.phase.holds = some client) :
    Frame w w' call call' where
  keep _ _ hc _ _ := hw ▸ hc
  holds client hc := .inl (hh client hc)
  free hf := hw ▸ hf

theorem Frame.own {connection : Connection σ} (hc : call.phase.holds = some client)
    (hw : w'.connections = w.connections.set client connection)
    (hfree : connection.free = true → connection.session = .idle)
    (hh : ∀ d, call'.phase.holds = some d → d = client) : Frame w w' call call' where
  keep d _ hd _ hne := by
    have hdc : d ≠ client := fun he => hne (by rw [he, hc])
    rw [hw, Calls.get_set_of_ne hdc]
    exact hd
  holds d hd := .inl (hh d hd ▸ hc)
  free hf d hd hdf := by
    rw [hw] at hd
    rcases List.mem_or_eq_of_mem_set hd with hd | rfl
    · exact hf d hd hdf
    · exact hfree hdf

/-- What a call does that goes on. -/
structure Moved (w w' : World σ) (call call' : Call σ ρ ε) : Prop where
  id : call'.id = call.id
  waiting : call.phase.over = false
  started : w'.started = w.started
  frame : Frame w w' call call'
  released : w'.released = w.released ∨
    ∃ client, w'.released = w.released ++ [⟨call.id, client, .idle⟩]
  committed : w'.committed = w.committed ∨ ∃ result,
    w'.committed = w.committed ++ [call'.statements.map (call.id, ·)] ∧
      call'.phase = .settled (.resolved result) ∧ call'.result = some result
  ok : call'.Ok w'

theorem releasedBy_append (w : World σ) (r : Release σ) (call : ℕ) (connections committed started) :
    World.releasedBy ⟨connections, committed, w.released ++ [r], started⟩ call =
      w.releasedBy call ++ if r.call = call then [r.client] else [] := by
  unfold World.releasedBy
  rw [List.filter_append, List.map_append]
  by_cases h : r.call = call <;> simp [h]

theorem query_done {session : Session σ} {free : Bool} (command : Command σ)
    (hc : w.connections[client]? = some ⟨session, free⟩) :
    w.query command client (.done : Answer ε) = (session.run command).map fun r =>
      { w with
        connections := w.connections.set client ⟨r.1, free⟩
        committed := w.committed ++ r.2 } := by
  simp [World.query, hc]

theorem query_failed {session : Session σ} {free : Bool} (command : Command σ) (error : ε)
    (aborts : Bool) (hc : w.connections[client]? = some ⟨session, free⟩) :
    w.query command client (.failed error aborts) = some
      { w with connections := w.connections.set client ⟨session.fail aborts, free⟩ } := by
  simp [World.query, hc]

theorem Moved.keep {session : Session σ} (hok : call.Ok w) (hh : call.phase.holds = some client)
    (hconnections : w'.connections = w.connections.set client ⟨session, false⟩)
    (hreleased : w'.released = w.released) (hcommitted : w'.committed = w.committed)
    (hstarted : w'.started = w.started) (hid : call'.id = call.id)
    (hclient : call'.client = call.client)
    (hh' : call'.phase.holds = some client) (hin : call'.InSession session)
    (hknown : call'.Known) : Moved w w' call call' := by
  obtain ⟨hcl, _, hs, -⟩ := hok.held client hh
  have hover : ∀ {c : Call σ ρ ε}, c.phase.holds = some client → c.phase.over = false := by
    intro c hc
    cases hp : c.phase <;> simp_all [Phase.holds, Phase.over]
  refine ⟨hid, hover hh, hstarted, .own hh hconnections (by simp) (fun d hd => ?_), .inl hreleased,
    .inl hcommitted, fun d hd => ?_, hknown, ?_⟩
  · rw [hh', Option.some.injEq] at hd
    exact hd.symm
  · rw [hh', Option.some.injEq] at hd
    subst hd
    refine ⟨hclient.trans hcl, session, ?_, hin⟩
    rw [hconnections]
    exact Calls.get_set_self hs
  · have := hok.released
    rw [hover hh] at this
    rw [hid, hover hh']
    unfold World.releasedBy at this ⊢
    rw [hreleased]
    exact this

/-- The call is over, and its client, whose session is idle, is handed back. -/
theorem Moved.release {v : World σ} {session : Session σ} {outcome : Outcome ρ ε} (hok : call.Ok w)
    (hh : call.phase.holds = some client) (hsession : session = .idle)
    (hconnections : v.connections = w.connections.set client ⟨session, false⟩)
    (hreleased : v.released = w.released)
    (hcommitted : v.committed = w.committed ∨ ∃ result,
      v.committed = w.committed ++ [call'.statements.map (call.id, ·)] ∧
        call'.phase = .settled (.resolved result) ∧ call'.result = some result)
    (hstarted : v.started = w.started) (hid : call'.id = call.id)
    (hclient : call'.client = call.client) (hp' : call'.phase = .settled outcome)
    (hknown : call'.Known) :
    Moved w (v.release call.id client) call call' := by
  subst hsession
  obtain ⟨hcl, _, hs, -⟩ := hok.held client hh
  have hover : call.phase.over = false := by
    cases hp : call.phase <;> simp_all [Phase.holds, Phase.over]
  have hget : v.connections[client]? = some ⟨.idle, false⟩ := by
    rw [hconnections]
    exact Calls.get_set_self hs
  have hv : v.release call.id client =
      { v with
        connections := w.connections.set client ⟨.idle, true⟩
        released := w.released ++ [⟨call.id, client, .idle⟩] } := by
    unfold World.release
    rw [hget, hconnections, hreleased]
    simp
  rw [hv]
  refine ⟨hid, hover, hstarted, .own hh rfl (fun _ => rfl) (fun d hd => ?_), .inr ⟨client, rfl⟩,
    hcommitted, fun d hd => ?_, hknown, ?_⟩
  · rw [hp'] at hd
    simp [Phase.holds] at hd
  · rw [hp'] at hd
    simp [Phase.holds] at hd
  · have := hok.released
    rw [hover] at this
    rw [hid, hp', hclient, hcl, releasedBy_append, this]
    simp [Phase.over]

theorem connect_cases {request : Option ℕ} (hw : w.connect request = some (w', client)) :
    w'.released = w.released ∧ w'.committed = w.committed ∧ w'.started = w.started ∧
      (client = w.connections.length ∧ w'.connections = w.connections ++ [⟨.idle, false⟩] ∨
        ∃ session, w.connections[client]? = some ⟨session, true⟩ ∧
          w'.connections = w.connections.set client ⟨session, false⟩) := by
  rcases request with _ | request
  · simp only [World.connect, Option.some.injEq, Prod.mk.injEq] at hw
    obtain ⟨rfl, rfl⟩ := hw
    exact ⟨rfl, rfl, rfl, .inl ⟨rfl, rfl⟩⟩
  · simp only [World.connect] at hw
    split at hw
    · rename_i session hs
      simp only [Option.some.injEq, Prod.mk.injEq] at hw
      obtain ⟨rfl, rfl⟩ := hw
      exact ⟨rfl, rfl, rfl, .inr ⟨session, hs, rfl⟩⟩
    · simp at hw

/-- A client that is handed out was free, if it was there, and begins with an idle session. -/
theorem connect_frame {request : Option ℕ} (call call' : Call σ ρ ε)
    (hfree : ∀ connection ∈ w.connections, connection.free = true → connection.session = .idle)
    (hw : w.connect request = some (w', client)) (hh : call'.phase.holds = some client) :
    Frame w w' call call' ∧ w'.connections[client]? = some ⟨.idle, false⟩ := by
  obtain ⟨-, -, -, ⟨rfl, hconn⟩ | ⟨session, hs, hconn⟩⟩ := connect_cases hw
  · refine ⟨⟨fun d _ hd _ _ => ?_, fun d hd => .inr fun _ hget => ?_, fun hf d hd hdf => ?_⟩, ?_⟩
    · rw [hconn]
      exact Calls.get_append hd
    · rw [hh, Option.some.injEq] at hd
      subst hd
      exact absurd (Calls.lt_length hget) (Nat.lt_irrefl _)
    · rw [hconn, List.mem_append, List.mem_singleton] at hd
      rcases hd with hd | rfl
      · exact hf d hd hdf
      · simp at hdf
    · rw [hconn]
      simp
  · have hidle : session = .idle := hfree _ (List.mem_of_getElem? hs) rfl
    subst hidle
    refine ⟨⟨fun d e hd he _ => ?_, fun d hd => .inr fun e hget => ?_, fun hf d hd hdf => ?_⟩, ?_⟩
    · have hne : d ≠ client := by
        rintro rfl
        rw [hs, Option.some.injEq] at hd
        subst hd
        simp at he
      rw [hconn, Calls.get_set_of_ne hne]
      exact hd
    · rw [hh, Option.some.injEq] at hd
      subst hd
      rw [hs, Option.some.injEq] at hget
      subst hget
      rfl
    · rw [hconn] at hd
      rcases List.mem_or_eq_of_mem_set hd with hd | rfl
      · exact hf d hd hdf
      · simp at hdf
    · rw [hconn]
      exact Calls.get_set_self hs

theorem moved_connecting
    (hfree : ∀ connection ∈ w.connections, connection.free = true → connection.session = .idle)
    (hok : call.Ok w) (hp : call.phase = .connecting)
    (hr : resume event call w = some (w', call')) : Moved w w' call call' := by
  have hknown := hok.known
  have hrel := hok.released
  simp only [Call.Known, hp] at hknown
  simp only [hp, Phase.over, Bool.false_eq_true, ↓reduceIte] at hrel
  rcases event with client | error | _ | _ | _ | _ <;> simp only [resume, hp, reduceCtorEq] at hr
  · obtain ⟨⟨v, c⟩, hw, he⟩ := Option.map_eq_some_iff.1 hr
    simp only [Prod.mk.injEq] at he
    obtain ⟨rfl, rfl⟩ := he
    obtain ⟨hreleased, hcommitted, hstarted, -⟩ := connect_cases hw
    obtain ⟨hframe, hget⟩ :=
      connect_frame call { call with client := some c, phase := .beginning c } hfree hw rfl
    refine ⟨rfl, by rw [hp]; rfl, hstarted, hframe, .inl hreleased, .inl hcommitted,
      fun d hd => ?_, trivial, ?_⟩
    · simp only [Phase.holds, Option.some.injEq] at hd
      subst hd
      exact ⟨rfl, .idle, hget, rfl, hknown.2⟩
    · unfold World.releasedBy at hrel ⊢
      rw [hreleased]
      exact hrel
  · simp only [Option.some.injEq, Prod.mk.injEq] at hr
    obtain ⟨rfl, rfl⟩ := hr
    exact {
      id := rfl
      waiting := by rw [hp]; rfl
      started := rfl
      frame := .same rfl (fun _ hc => by simp [Phase.holds] at hc)
      released := .inl rfl
      committed := .inl rfl
      ok := ⟨fun _ hc => by simp [Phase.holds] at hc, rfl, by simp [hrel, Phase.over, hknown.1]⟩ }

theorem moved_beginning (hok : call.Ok w) (hp : call.phase = .beginning client)
    (hr : resume event call w = some (w', call')) : Moved w w' call call' := by
  have hh : call.phase.holds = some client := by rw [hp]; rfl
  obtain ⟨-, session, hs, hin⟩ := hok.held client hh
  simp only [Call.InSession, hp] at hin
  obtain ⟨rfl, hst⟩ := hin
  rcases event with _ | _ | (_ | ⟨error, aborts⟩) | _ | _ | _ <;>
    simp only [resume, hp, reduceCtorEq] at hr
  · simp only [query_done _ hs, Session.run, Option.map_some, Option.some.injEq,
      Prod.mk.injEq] at hr
    obtain ⟨rfl, rfl⟩ := hr
    exact .keep hok hh rfl rfl (List.append_nil _) rfl rfl rfl rfl ⟨false, by simp [hst]⟩ trivial
  · simp only [query_failed _ _ _ hs, Option.map_some, Option.some.injEq, Prod.mk.injEq] at hr
    obtain ⟨rfl, rfl⟩ := hr
    exact .keep hok hh rfl rfl rfl rfl rfl rfl rfl trivial rfl

theorem moved_running (hok : call.Ok w) (hp : call.phase = .running client)
    (hr : resume event call w = some (w', call')) : Moved w w' call call' := by
  have hh : call.phase.holds = some client := by rw [hp]; rfl
  obtain ⟨-, session, hs, hin⟩ := hok.held client hh
  simp only [Call.InSession, hp] at hin
  obtain ⟨aborted, rfl⟩ := hin
  have hstay : w.connections = w.connections.set client
      ⟨.inTransaction (call.statements.map (call.id, ·)) aborted, false⟩ := (Calls.set_self hs).symm
  rcases event with _ | _ | _ | ⟨x, _ | ⟨error, aborts⟩⟩ | result | error <;>
    simp only [resume, hp, reduceCtorEq] at hr
  · rcases aborted with _ | _ <;>
      simp only [query_done _ hs, Session.run, Option.map_some, Option.some.injEq,
        Prod.mk.injEq, Option.map_none, reduceCtorEq] at hr
    obtain ⟨rfl, rfl⟩ := hr
    refine .keep hok hh rfl rfl (List.append_nil _) rfl rfl rfl rfl ?_ trivial
    simp [Call.InSession]
  · simp only [query_failed _ _ _ hs, Option.map_some, Option.some.injEq, Prod.mk.injEq] at hr
    obtain ⟨rfl, rfl⟩ := hr
    refine .keep hok hh rfl rfl rfl rfl rfl rfl hh ?_ ?_
    · simp [Call.InSession, hp, Session.fail]
    · simp [Call.Known, hp]
  · simp only [Option.some.injEq, Prod.mk.injEq] at hr
    obtain ⟨rfl, rfl⟩ := hr
    exact .keep hok hh hstay rfl rfl rfl rfl rfl rfl ⟨aborted, rfl⟩ rfl
  · simp only [Option.some.injEq, Prod.mk.injEq] at hr
    obtain ⟨rfl, rfl⟩ := hr
    exact .keep hok hh hstay rfl rfl rfl rfl rfl rfl trivial rfl

theorem moved_committing {result : ρ} (hok : call.Ok w)
    (hp : call.phase = .committing client result)
    (hr : resume event call w = some (w', call')) : Moved w w' call call' := by
  have hh : call.phase.holds = some client := by rw [hp]; rfl
  obtain ⟨-, session, hs, hin⟩ := hok.held client hh
  have hresult := hok.known
  simp only [Call.Known, hp] at hresult
  simp only [Call.InSession, hp] at hin
  obtain ⟨aborted, rfl⟩ := hin
  rcases event with _ | _ | (_ | ⟨error, aborts⟩) | _ | _ | _ <;>
    simp only [resume, hp, reduceCtorEq] at hr
  · rcases aborted with _ | _ <;>
      simp only [query_done _ hs, Session.run, Option.map_some, Option.some.injEq,
        Prod.mk.injEq] at hr
    · obtain ⟨rfl, rfl⟩ := hr
      exact .release hok hh rfl rfl rfl (.inr ⟨result, rfl, rfl, hresult⟩) rfl rfl rfl rfl hresult
    · obtain ⟨rfl, rfl⟩ := hr
      exact .release hok hh rfl rfl rfl (.inl (List.append_nil _)) rfl rfl rfl rfl hresult
  · simp only [query_failed _ _ _ hs, Option.map_some, Option.some.injEq, Prod.mk.injEq] at hr
    obtain ⟨rfl, rfl⟩ := hr
    exact .keep hok hh rfl rfl rfl rfl rfl rfl rfl trivial rfl

theorem moved_rollingBack {err : Thrown ε} (hok : call.Ok w)
    (hp : call.phase = .rollingBack client err)
    (hdone : ∀ error aborts, event ≠ .answer (.failed error aborts))
    (hr : resume event call w = some (w', call')) : Moved w w' call call' := by
  have hh : call.phase.holds = some client := by rw [hp]; rfl
  obtain ⟨-, session, hs, -⟩ := hok.held client hh
  have hfailure := hok.known
  simp only [Call.Known, hp] at hfailure
  rcases event with _ | _ | (_ | ⟨error, aborts⟩) | _ | _ | _ <;>
    simp only [resume, hp, reduceCtorEq] at hr
  · simp only [query_done _ hs, Session.run, Option.map_some, Option.some.injEq,
      Prod.mk.injEq] at hr
    obtain ⟨rfl, rfl⟩ := hr
    exact .release hok hh rfl rfl rfl (.inl (List.append_nil _)) rfl rfl rfl rfl hfailure
  · exact absurd rfl (hdone error aborts)

theorem resume_moved
    (hfree : ∀ connection ∈ w.connections, connection.free = true → connection.session = .idle)
    (hok : call.Ok w)
    (hdone : ∀ client err error aborts, event = .answer (.failed error aborts) →
      call.phase ≠ .rollingBack client err)
    (hr : resume event call w = some (w', call')) : Moved w w' call call' := by
  cases hp : call.phase with
  | connecting => exact moved_connecting hfree hok hp hr
  | beginning client => exact moved_beginning hok hp hr
  | running client => exact moved_running hok hp hr
  | committing client result => exact moved_committing hok hp hr
  | rollingBack client err =>
    exact moved_rollingBack hok hp (fun error aborts he => hdone client err error aborts he hp) hr
  | settled outcome =>
    rw [resume_settled hp] at hr
    exact absurd hr (Option.some_ne_none _).symm

/-- What is so in every state, when every rollback has succeeded. -/
structure Inv (s : State σ ρ ε) : Prop where
  idle : ∀ r ∈ s.shared.released, r.session = .idle
  together : ∀ batch ∈ s.shared.committed, ∃ (k : ℕ) (call : Call σ ρ ε) (result : ρ),
    s.calls[k]? = some call ∧ call.phase = .settled (.resolved result) ∧
      call.result = some result ∧ batch = call.statements.map (k, ·)
  ids : ∀ (k : ℕ) (call : Call σ ρ ε), s.calls[k]? = some call → call.id = k
  started : s.shared.started = s.calls.length
  released : ∀ r ∈ s.shared.released, r.call < s.calls.length
  free : ∀ connection ∈ s.shared.connections, connection.free = true → connection.session = .idle
  ok : ∀ call ∈ s.calls, call.Ok s.shared
  /-- No two calls use one client. -/
  alone : ∀ (i j : ℕ) (c d : Call σ ρ ε) (client : ℕ), s.calls[i]? = some c →
    s.calls[j]? = some d → c.phase.holds = some client → d.phase.holds = some client → i = j

variable {s s' : State σ ρ ε} {h : List (Taken (State σ ρ ε) (Action σ ρ ε))} {a : Action σ ρ ε}

theorem Inv.isolated (hi : Inv s) : Isolated s where
  idle := hi.idle
  together := hi.together
  error call hc err hp := by
    have := (hi.ok call hc).known
    simpa only [Call.Known, hp] using this
  once k call hc := by
    have := (hi.ok call (List.mem_of_getElem? hc)).released
    rwa [hi.ids k call hc] at this

theorem releasedBy_eq_nil {k : ℕ} (hk : ∀ r ∈ w.released, r.call ≠ k) : w.releasedBy k = [] := by
  unfold World.releasedBy
  rw [List.map_eq_nil_iff, List.filter_eq_nil_iff]
  intro r hr
  simpa using hk r hr

theorem Inv.enter (hi : Inv s) :
    Inv ⟨{ s.shared with started := s.shared.started + 1 },
      s.calls ++ [({ id := s.shared.started, phase := .connecting } : Call σ ρ ε)]⟩ := by
  refine ⟨hi.idle, fun batch hb => ?_, fun k c hc => ?_, ?_, fun r hr => ?_, hi.free,
    fun c hc => ?_, fun i j c d client hc hd hch hdh => ?_⟩
  · obtain ⟨k, call, result, hc, hrest⟩ := hi.together batch hb
    exact ⟨k, call, result, Calls.get_append hc, hrest⟩
  · rcases Calls.of_get_concat hc with hc | ⟨rfl, rfl⟩
    · exact hi.ids k c hc
    · exact hi.started
  · simp [hi.started]
  · have := hi.released r hr
    simp only [List.length_append]
    omega
  · rcases List.mem_append.1 hc with hc | hc
    · exact (hi.ok c hc).frame (fun _ _ _ hget _ => hget) rfl
    · rw [List.mem_singleton] at hc
      subst hc
      refine ⟨fun _ hh => by simp [Phase.holds] at hh, ⟨rfl, rfl⟩, ?_⟩
      refine releasedBy_eq_nil fun r hr he => ?_
      have := hi.released r hr
      have := hi.started
      simp only at he
      omega
  · rcases Calls.of_get_concat hc with hc | ⟨rfl, rfl⟩
    · rcases Calls.of_get_concat hd with hd | ⟨rfl, rfl⟩
      · exact hi.alone i j c d client hc hd hch hdh
      · simp [Phase.holds] at hdh
    · simp [Phase.holds] at hch

theorem Moved.releasedBy_of_ne (hm : Moved w w' call call') {k : ℕ} (hk : k ≠ call.id) :
    w'.releasedBy k = w.releasedBy k := by
  unfold World.releasedBy
  rcases hm.released with hr | ⟨client, hr⟩
  · rw [hr]
  · rw [hr, List.filter_append, List.map_append]
    simp [Ne.symm hk]

theorem Inv.resume {k : ℕ} (hi : Inv s) (hc : s.calls[k]? = some call)
    (hm : Moved s.shared w call call') : Inv ⟨w, s.calls.set k call'⟩ := by
  have hid : call.id = k := hi.ids k call hc
  have hcall := hi.ok call (List.mem_of_getElem? hc)
  -- a client that another call uses is not the one this call has taken
  have hother : ∀ {i : ℕ} {d : Call σ ρ ε} {client : ℕ}, i ≠ k → s.calls[i]? = some d →
      d.phase.holds = some client → call'.phase.holds ≠ some client := by
    intro i d client hik hd hdh hch
    rcases hm.frame.holds client hch with hch | hfree
    · exact hik (hi.alone i k d call client hd hc hdh hch)
    · obtain ⟨-, session, hget, -⟩ := (hi.ok d (List.mem_of_getElem? hd)).held client hdh
      have := hfree _ hget
      simp at this
  refine ⟨fun r hr => ?_, fun batch hb => ?_, fun i c hci => ?_, ?_, fun r hr => ?_,
    hm.frame.free hi.free, fun c hcm => ?_, fun i j c d client hci hdj hch hdh => ?_⟩
  · rcases hm.released with he | ⟨client, he⟩ <;> rw [he] at hr
    · exact hi.idle r hr
    · rcases List.mem_append.1 hr with hr | hr
      · exact hi.idle r hr
      · rw [List.mem_singleton] at hr
        rw [hr]
  · have hold : ∀ batch ∈ s.shared.committed, ∃ (i : ℕ) (c : Call σ ρ ε) (result : ρ),
        (s.calls.set k call')[i]? = some c ∧ c.phase = .settled (.resolved result) ∧
          c.result = some result ∧ batch = c.statements.map (i, ·) := by
      intro batch hb
      obtain ⟨i, c, result, hci, hcp, hrest⟩ := hi.together batch hb
      have hik : i ≠ k := by
        rintro rfl
        rw [hc, Option.some.injEq] at hci
        subst hci
        have hw := hm.waiting
        rw [hcp] at hw
        simp [Phase.over] at hw
      exact ⟨i, c, result, (Calls.get_set_of_ne hik).trans hci, hcp, hrest⟩
    rcases hm.committed with he | ⟨result, he, hp', hr'⟩ <;> rw [he] at hb
    · exact hold batch hb
    · rcases List.mem_append.1 hb with hb | hb
      · exact hold batch hb
      · rw [List.mem_singleton] at hb
        exact ⟨k, call', result, Calls.get_set_self hc, hp', hr', by rw [hb, hid]⟩
  · rcases Calls.of_get_set hci with ⟨rfl, rfl⟩ | ⟨-, hci⟩
    · exact hm.id.trans hid
    · exact hi.ids i c hci
  · rw [hm.started, hi.started, List.length_set]
  · rw [List.length_set]
    rcases hm.released with he | ⟨client, he⟩ <;> rw [he] at hr
    · exact hi.released r hr
    · rcases List.mem_append.1 hr with hr | hr
      · exact hi.released r hr
      · rw [List.mem_singleton] at hr
        rw [hr, hid]
        exact Calls.lt_length hc
  · obtain ⟨i, hci⟩ := List.mem_iff_getElem?.1 hcm
    rcases Calls.of_get_set hci with ⟨rfl, rfl⟩ | ⟨hik, hci⟩
    · exact hm.ok
    · refine (hi.ok c (List.mem_of_getElem? hci)).frame (fun client connection hch hget hf => ?_) ?_
      · exact hm.frame.keep client connection hget hf fun hh =>
          hik (hi.alone i k c call client hci hc hch hh)
      · refine hm.releasedBy_of_ne ?_
        rw [hi.ids i c hci, hid]
        exact hik
  · rcases Calls.of_get_set hci with ⟨rfl, rfl⟩ | ⟨hik, hci'⟩ <;>
      rcases Calls.of_get_set hdj with ⟨rfl, rfl⟩ | ⟨hjk, hdj'⟩
    · rfl
    · exact absurd hch (hother hjk hdj' hdh)
    · exact absurd hdh (hother hik hci' hch)
    · exact hi.alone i j c d client hci' hdj' hch hdh

theorem Inv.step (hi : Inv s) (hdone : RollbackDone s a)
    (hs : (transaction (σ := σ) (ρ := ρ) (ε := ε)).step s a = some s') : Inv s' := by
  rcases Calls.step_cases hs with ⟨_, rfl, rfl⟩ | ⟨k, event, call, w, call', rfl, hc, hr, rfl⟩
  · exact hi.enter
  · refine hi.resume hc (resume_moved hi.free (hi.ok call (List.mem_of_getElem? hc)) ?_ hr)
    intro client err error aborts he
    exact hdone k call client err error aborts (by rw [he]) hc

theorem inv_of_run (hr : Run (Database.transaction σ ρ ε) h s) (hd : Along RollbackDone h) :
    Inv s := by
  refine hr.invariant_of (fun s hs => ?_) (fun s a s' hi hC hs => hi.step hC hs) hd
  subst hs
  constructor <;> simp

theorem resume_failure (hr : resume event call w = some (w', call'))
    (hf : ∀ error, call.failure ≠ some (.rollback error)) (error : ε) :
    call'.failure ≠ some (.rollback error) := by
  unfold resume at hr
  split at hr
  · obtain ⟨v, -, he⟩ := Option.map_eq_some_iff.1 hr
    simp only [Prod.mk.injEq] at he
    exact he.2 ▸ hf error
  · simp only [Option.some.injEq, Prod.mk.injEq] at hr
    simp [← hr.2]
  · obtain ⟨v, -, he⟩ := Option.map_eq_some_iff.1 hr
    simp only [Prod.mk.injEq] at he
    rw [← he.2]
    split
    · exact hf error
    · simp
  · obtain ⟨v, -, he⟩ := Option.map_eq_some_iff.1 hr
    simp only [Prod.mk.injEq] at he
    rw [← he.2]
    split <;> exact hf error
  · simp only [Option.some.injEq, Prod.mk.injEq] at hr
    exact hr.2 ▸ hf error
  · simp only [Option.some.injEq, Prod.mk.injEq] at hr
    simp [← hr.2]
  · obtain ⟨v, -, he⟩ := Option.map_eq_some_iff.1 hr
    split at he <;> simp only [Prod.mk.injEq] at he
    · exact he.2 ▸ hf error
    · simp [← he.2]
  · obtain ⟨v, -, he⟩ := Option.map_eq_some_iff.1 hr
    simp only [Prod.mk.injEq] at he
    rw [← he.2]
    split <;> exact hf error
  · simp at hr

theorem failure_ne_rollback (hr : Run (Database.transaction σ ρ ε) h s) :
    ∀ call ∈ s.calls, ∀ error, call.failure ≠ some (.rollback error) := by
  refine hr.invariant
    (P := fun s => ∀ call ∈ s.calls, ∀ error, call.failure ≠ some (.rollback error))
    (fun s hs => ?_) (fun s a s' hi hs call hc error => ?_)
  · subst hs
    simp
  · rcases Calls.step_cases hs with ⟨_, rfl, rfl⟩ | ⟨k, event, d, w, d', rfl, hd, hr, rfl⟩
    · rcases List.mem_append.1 hc with hc | hc
      · exact hi call hc error
      · simp only [transaction, List.mem_singleton] at hc
        subst hc
        simp
    · rcases List.mem_or_eq_of_mem_set hc with hc | rfl
      · exact hi call hc error
      · exact resume_failure hr (hi d (List.mem_of_getElem? hd)) error

theorem rejected_of_rollback (hr : Run (Database.transaction σ ρ ε) h s) :
    ∀ t ∈ h, ¬ RollbackDone t.pre t.act →
      ∃ call ∈ s.calls, ∃ error, call.phase = .settled (.rejected (.rollback error)) := by
  induction hr with
  | start _ => simp
  | @next h s s' a hr hs ih =>
    intro t ht hd
    replace hs : (transaction (σ := σ) (ρ := ρ) (ε := ε)).step s a = some s' := hs
    rcases List.mem_cons.1 ht with rfl | ht
    · simp only [RollbackDone, not_forall] at hd
      obtain ⟨k, call, client, err, error, aborts, rfl, hc, hp⟩ := hd
      simp only [ne_eq, not_not] at hp
      rcases Calls.step_cases hs with ⟨_, ha, -⟩ | ⟨k, event, d, w, d', ha, hd, hr, rfl⟩
      · cases ha
      · cases ha
        rw [hc, Option.some.injEq] at hd
        subst hd
        simp only [transaction, resume, hp] at hr
        obtain ⟨v, -, he⟩ := Option.map_eq_some_iff.1 hr
        simp only [Prod.mk.injEq] at he
        exact ⟨d', List.mem_of_getElem? (Calls.get_set_self hc), error, by rw [← he.2]⟩
    · obtain ⟨call, hc, error, hp⟩ := ih t ht hd
      rcases Calls.step_cases hs with ⟨_, -, rfl⟩ | ⟨k, event, d, w, d', -, hd, hr, rfl⟩
      · exact ⟨call, List.mem_append_left _ hc, error, hp⟩
      · obtain ⟨i, hci⟩ := List.mem_iff_getElem?.1 hc
        have hik : i ≠ k := by
          rintro rfl
          rw [hci, Option.some.injEq] at hd
          subst hd
          -- a call that is over does not go on
          simp only [transaction, resume, hp] at hr
          simp at hr
        exact ⟨call, List.mem_of_getElem? ((Calls.get_set_of_ne hik).trans hci), error, hp⟩

theorem isolated_iff (hr : Run (Database.transaction σ ρ ε) h s) :
    Isolated s ↔ Along RollbackDone h := by
  refine ⟨fun hi t ht => ?_, fun hd => (inv_of_run hr hd).isolated⟩
  by_contra hd
  obtain ⟨call, hc, error, hp⟩ := rejected_of_rollback hr t ht hd
  exact failure_ne_rollback hr call hc error (hi.error call hc _ hp)

end Isolation

section Pools

/-- Over the pool of the database, and over that of the router, the calls are isolated just when
every rollback succeeds. -/
theorem transactions_isolated_iff (σ ρ ε : Type) :
    (∀ h s, Run (Database.transaction σ ρ ε) h s → (Isolated s ↔ Along RollbackDone h)) ∧
    ∀ h s, Run (PriorityRouter.transaction σ ρ ε) h s → (Isolated s ↔ Along RollbackDone h) :=
  ⟨fun _ _ => isolated_iff, fun _ _ => isolated_iff⟩

/-- Whether a step is not a rollback that fails. -/
def rollbackDone {σ ρ ε : Type} (s : State σ ρ ε) (a : Action σ ρ ε) : Bool :=
  match a with
  | .resume k (.answer (.failed _ _)) =>
    match s.calls[k]? with
    | some call =>
      match call.phase with
      | .rollingBack _ _ => false
      | _ => true
    | none => true
  | _ => true

theorem along_of_rollbackDone {σ ρ ε : Type} {h : List (Taken (State σ ρ ε) (Action σ ρ ε))}
    (hd : (h.all fun t => rollbackDone t.pre t.act) = true) : Along RollbackDone h := by
  intro t ht k call client err error aborts ha hc hp
  have := List.all_eq_true.1 hd t ht
  simp [ha, rollbackDone, hc, hp] at this

/-- A body that throws, its rollback, and a call after it that commits, over one client. -/
theorem transactions_isolated_iff_reused : ∃ h s,
    Run (Database.transaction String String String) h s ∧ Isolated s ∧
      s.shared.committed = [[(1, "UPDATE b")]] ∧ s.shared.connections.length = 1 := by
  obtain ⟨h, s, hr, hp⟩ := Sys.exists_run (S := Database.transaction String String String) rfl
    [.enter (), .resume 0 (.connect none), .resume 0 (.answer .done),
      .resume 0 (.statement "UPDATE a" .done), .resume 0 (.throws "no such node"),
      .resume 0 (.answer .done), .enter (), .resume 1 (.connect (some 0)),
      .resume 1 (.answer .done), .resume 1 (.statement "UPDATE b" .done),
      .resume 1 (.returns "b"), .resume 1 (.answer .done)]
    (p := fun r => (r.1.all fun t => rollbackDone t.pre t.act) &&
      r.2.shared.committed == [[(1, "UPDATE b")]] && r.2.shared.connections.length == 1)
    (by decide +kernel)
  simp only [Bool.and_eq_true, beq_iff_eq] at hp
  have hi := ((transactions_isolated_iff String String String).1 h s hr).2
    (along_of_rollbackDone hp.1.1)
  exact ⟨h, s, hr, hi, hp.1.2, hp.2⟩

/-- The rollback of a body that threw fails: the call rejects with that, and the next call, which
resolves, commits the first one's statement with its own. -/
theorem transactions_not_isolated :
    (¬ ∀ h s, Run (Database.transaction String String String) h s → Isolated s) ∧
    ¬ ∀ h s, Run (PriorityRouter.transaction String String String) h s → Isolated s := by
  have hbad : ∃ h s, Run (Database.transaction String String String) h s ∧
      s.shared.committed = [[(0, "UPDATE a"), (1, "UPDATE b")]] := by
    obtain ⟨h, s, hr, hp⟩ := Sys.exists_run (S := Database.transaction String String String) rfl
      [.enter (), .resume 0 (.connect none), .resume 0 (.answer .done),
        .resume 0 (.statement "UPDATE a" .done), .resume 0 (.throws "no such node"),
        .resume 0 (.answer (.failed "timeout" false)), .enter (), .resume 1 (.connect (some 0)),
        .resume 1 (.answer .done), .resume 1 (.statement "UPDATE b" .done),
        .resume 1 (.returns "b"), .resume 1 (.answer .done)]
      (p := fun r => r.2.shared.committed == [[(0, "UPDATE a"), (1, "UPDATE b")]])
      (by decide +kernel)
    exact ⟨h, s, hr, beq_iff_eq.1 hp⟩
  obtain ⟨h, s, hr, hcommitted⟩ := hbad
  have hnot : ¬ Isolated s := by
    intro hi
    obtain ⟨k, call, result, -, -, -, hb⟩ := hi.together _ (hcommitted ▸ List.mem_singleton_self _)
    have h0 := congrArg (fun l => (l[0]?).map Prod.fst) hb
    have h1 := congrArg (fun l => (l[1]?).map Prod.fst) hb
    rcases hst : call.statements with _ | ⟨x, _ | ⟨y, l⟩⟩ <;> rw [hst] at h0 h1 <;>
      simp at h0 h1
    omega
  exact ⟨fun hall => hnot (hall h s hr), fun hall => hnot (hall h s hr)⟩

end Pools

end Transactions

end VeriNode
