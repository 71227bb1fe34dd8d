import VeriNode.Proofs.Controller

/-!
# When the node status follows the state machine

`transition` checks its edge on the status it reads first, and the commit writes the target over
whatever status the node has by then. A step leaves the state machine exactly if it is a commit,
of a transition or of an administrator, that finds a status the checked edge no longer fits
(`legal_iff`).
-/

namespace VeriNode

namespace TwoPhase

section Edge

/-- The status is the one the attempt's check read, or the target already, or one that the target
`Archived` follows as well. -/
def Fits (a : Attempt) (st : NodeStatus) : Prop :=
  st = a.previousStatus ∨ st = a.targetStatus
    ∨ (a.targetStatus = .archived ∧ (st = .active ∨ st = .slashed))

/-- Every commit finds a status that fits its attempt. -/
def Current (s : State) : Action → Prop
  | .commit id true => ∀ a hash k st, s.calls.get id = some (.committing a hash k) →
      fetchCommittedStatus s.db a.nodeId = some st → Fits a st
  | .forceCommit id => ∀ row a st, s.calls.get id = some (.forceCommitting row) →
      s.issued.get row.idempotencyKey = some a →
      fetchCommittedStatus s.db row.nodeId = some st → Fits a st
  | _ => True

/-- The step changes a node's status along an edge only. -/
def Legal (t : Taken State Action) : Prop :=
  ∀ n st st', fetchCommittedStatus t.pre.db n = some st →
    fetchCommittedStatus t.post.db n = some st' → st' ≠ st → st' ∈ validTransitions st

variable {o : Options} {s s' : State} {a : Action}

theorem fits_iff {at' : Attempt} (h : at'.targetStatus ∈ validTransitions at'.previousStatus)
    (st : NodeStatus) :
    Fits at' st ↔ (at'.targetStatus ≠ st → at'.targetStatus ∈ validTransitions st) := by
  obtain ⟨n, p, t, key⟩ := at'
  simp only [Fits]
  rcases p <;> rcases t <;> simp [validTransitions] at h <;> rcases st <;> simp [validTransitions]

theorem fetch_update {n₀ n : String} {t : NodeStatus} {now : ℕ}
    (hs : s'.db.nodeStatus = updateStatus n₀ t now s.db.nodeStatus) :
    fetchCommittedStatus s'.db n = if n = n₀ then (fetchCommittedStatus s.db n).map fun _ => t
      else fetchCommittedStatus s.db n := by
  unfold fetchCommittedStatus
  rw [hs, get_updateStatus]
  split_ifs
  · rw [Option.map_map, Option.map_map]
    rfl
  · rfl

theorem legal_update {n₀ : String} {t st₀ : NodeStatus} {now : ℕ}
    (hs : s'.db.nodeStatus = updateStatus n₀ t now s.db.nodeStatus)
    (hst : fetchCommittedStatus s.db n₀ = some st₀) :
    Legal ⟨s, a, s'⟩ ↔ (t ≠ st₀ → t ∈ validTransitions st₀) := by
  have hget := fun n => fetch_update (n := n) hs
  constructor
  · intro hl hne
    exact hl n₀ st₀ t hst (by rw [hget, if_pos rfl, hst]; rfl) hne
  · intro h n st st' hpre hpost hne
    simp only [hget] at hpost
    split_ifs at hpost with he
    · subst he
      rw [hst] at hpre
      cases hpre
      rw [hst] at hpost
      cases hpost
      exact h hne
    · rw [hpre] at hpost
      cases hpost
      exact absurd rfl hne

theorem legal_of_nodeStatus (hs : s'.db.nodeStatus = s.db.nodeStatus) : Legal ⟨s, a, s'⟩ := by
  intro n st st' hpre hpost hne
  unfold fetchCommittedStatus at hpre hpost
  simp only [hs] at hpost
  rw [hpre] at hpost
  cases hpost
  exact absurd rfl hne

theorem Linked.status (hl : Linked s) {key : String} {at' : Attempt}
    (hk : s.issued.get key = some at') : ∃ st, fetchCommittedStatus s.db at'.nodeId = some st := by
  obtain ⟨row, hrow⟩ := (hl.issued key at' hk).2.2
  exact ⟨row.status, by simp [fetchCommittedStatus, hrow]⟩

/-- A step is along an edge exactly if, being a commit, it finds a status that fits. -/
theorem legal_iff (hl : Linked s) (h : Move s a s') : Legal ⟨s, a, s'⟩ ↔ Current s a := by
  cases h with
  | committed id at' hash k hc =>
    have hk := hl.calls _ _ hc
    obtain ⟨st, hst⟩ := hl.status hk
    rw [legal_update rfl hst, ← fits_iff (hl.issued _ _ hk).2.1]
    simp only [Current]
    constructor
    · intro hfit at'' hash' k' st' hc' hst'
      rw [hc] at hc'
      cases hc'
      rw [hst] at hst'
      cases hst'
      exact hfit
    · intro h
      exact h at' hash k st hc hst
  | forced id row hc =>
    obtain ⟨at', hk, rfl⟩ := hl.calls _ _ hc
    obtain ⟨st, hst⟩ := hl.status hk
    rw [legal_update rfl hst]
    rw [show at'.row.targetStatus = at'.targetStatus from rfl, ← fits_iff (hl.issued _ _ hk).2.1]
    simp only [Current]
    constructor
    · intro hfit row' at'' st' hc' hk' hst'
      rw [hc] at hc'
      cases hc'
      rw [hk] at hk'
      cases hk'
      rw [show fetchCommittedStatus s.db at'.row.nodeId = some st from hst] at hst'
      cases hst'
      exact hfit
    · intro h
      exact h _ at' st hc hk hst
  | marked id at' hash ok hc =>
    refine iff_of_true (legal_of_nodeStatus ?_) trivial
    rcases ok with _ | _ <;> rfl
  | rolledBack => exact iff_of_true (legal_of_nodeStatus (execute_nodeStatus _ _ _ _ _ _)) trivial
  | forcedBack => exact iff_of_true (legal_of_nodeStatus (execute_nodeStatus _ _ _ _ _ _)) trivial
  | sweptRow => exact iff_of_true (legal_of_nodeStatus (execute_nodeStatus _ _ _ _ _ _)) trivial
  | _ => exact iff_of_true (legal_of_nodeStatus rfl) trivial

end Edge

section Runs

variable {o : Options} {s : State} {h : List (Taken State Action)}

theorem run_legal_iff (hr : Run (sys o) h s) : (∀ t ∈ h, Legal t) ↔ Along Current h := by
  have hstep : ∀ t ∈ h, Legal t ↔ Current t.pre t.act := by
    intro t ht
    obtain ⟨hpre, hs⟩ := hr.taken ht
    exact legal_iff (linked_reachable hpre) (step_move hs)
  exact ⟨fun hl t ht => (hstep t ht).1 (hl t ht), fun hc t ht => (hstep t ht).2 (hc t ht)⟩

theorem run_stays {P : NodeStatus → Prop} (hP : ∀ st st', P st → st' ∈ validTransitions st → P st')
    {n : String} (hr : Run (sys o) h s) : (∀ t ∈ h, Legal t) → ∀ t ∈ h, ∀ st,
      fetchCommittedStatus t.pre.db n = some st → P st →
      ∃ st', fetchCommittedStatus s.db n = some st' ∧ P st' := by
  induction hr with
  | start _ =>
    intro _ t ht
    cases ht
  | @next h s s' a hr hs ih =>
    intro hl t ht st hst hp
    have hbefore : ∃ st₁, fetchCommittedStatus s.db n = some st₁ ∧ P st₁ := by
      rcases List.mem_cons.1 ht with rfl | ht
      · exact ⟨st, hst, hp⟩
      · exact ih (fun u hu => hl u (List.mem_cons_of_mem _ hu)) t ht st hst hp
    obtain ⟨st₁, hst₁, hp₁⟩ := hbefore
    obtain ⟨row, hrow, -⟩ := Option.map_eq_some_iff.1 hst₁
    obtain ⟨row', hrow'⟩ := (step_move hs).nodes ⟨row, hrow⟩
    have hst' : fetchCommittedStatus s'.db n = some row'.status := by
      simp [fetchCommittedStatus, hrow']
    refine ⟨row'.status, hst', ?_⟩
    by_cases he : row'.status = st₁
    · rw [he]
      exact hp₁
    · exact hP st₁ _ hp₁ (hl _ List.mem_cons_self n st₁ _ hst₁ hst' he)

/-- In every run: all changes of a node's status are along edges, so that an archived node keeps
its status and a slashed one is at most archived, exactly if every commit finds a status that
fits its attempt. -/
theorem status_follows_machine_iff (hr : Run (sys o) h s) :
    ((∀ t ∈ h, Legal t)
        ∧ (∀ t ∈ h, ∀ n, fetchCommittedStatus t.pre.db n = some .archived →
          fetchCommittedStatus s.db n = some .archived)
        ∧ ∀ t ∈ h, ∀ n, fetchCommittedStatus t.pre.db n = some .slashed →
          fetchCommittedStatus s.db n ≠ some .active)
      ↔ Along Current h := by
  rw [← run_legal_iff hr]
  refine ⟨And.left, fun hl => ⟨hl, fun t ht n hn => ?_, fun t ht n hn hact => ?_⟩⟩
  · obtain ⟨st, hst, rfl⟩ := run_stays (P := (· = .archived))
      (by rintro st st' rfl h; simp [validTransitions] at h) hr hl t ht _ hn rfl
    exact hst
  · obtain ⟨st, hst, hp⟩ := run_stays (P := fun st => st = .slashed ∨ st = .archived)
      (by rintro st st' (rfl | rfl) h <;> simp_all [validTransitions]) hr hl t ht _ hn (.inl rfl)
    rw [hact] at hst
    cases hst
    simp at hp

/-- A commit finds its node in the status that it leaves, and nothing is committed by force. -/
def commitsCurrent (t : Taken State Action) : Bool :=
  match t.act with
  | .commit id _ =>
    match t.pre.calls.get id with
    | some (.committing a _ _) => fetchCommittedStatus t.pre.db a.nodeId = some a.previousStatus
    | _ => true
  | .forceCommit _ => false
  | _ => true

theorem status_follows_machine_iff_commit : ∃ h s, Run (sys { sha256 := id }) h s
    ∧ fetchCommittedStatus s.db "n" = some .pending ∧ ∀ t ∈ h, Legal t := by
  obtain ⟨h, s, hr, hp⟩ := Sys.exists_run (S := sys { sha256 := id })
    ⟨OrdMap.empty.set "n" ⟨.provisioned, 0⟩, 0, rfl⟩
    [.transition "n" .pending, .phase1 0 "7" "x", .contractAnswered 0 (.returned "h" true none),
      .commit 0 false, .commit 0 true]
    (p := fun x => fetchCommittedStatus x.2.db "n" = some .pending && x.1.all commitsCurrent)
    (by decide +kernel)
  simp only [Bool.and_eq_true, decide_eq_true_eq, List.all_eq_true] at hp
  obtain ⟨hst, hall⟩ := hp
  refine ⟨h, s, hr, hst, ((status_follows_machine_iff hr).2 fun t ht => ?_).1⟩
  have ht' := hall t ht
  unfold commitsCurrent at ht'
  rcases hact : t.act with _ | _ | _ | _ | ⟨id, ok⟩ | _ | _ | _ | id | _ | _ | _ | _ | _ | _ <;>
    try trivial
  · rcases ok with _ | _
    · trivial
    · intro a hash k st hc hst
      simp only [hact, hc, hst, decide_eq_true_eq] at ht'
      exact .inl (Option.some.inj ht')
  · simp [hact] at ht'

/-- Two transitions of an active node read its status; the one that archives it commits first,
and the one that slashes it after that. -/
theorem archived_node_slashed : ∃ h s t, Run (sys { sha256 := id }) h s ∧ t ∈ h
    ∧ fetchCommittedStatus t.pre.db "n" = some .archived
    ∧ fetchCommittedStatus t.post.db "n" = some .slashed ∧ ¬ Legal t := by
  obtain ⟨h, s, hr, hp⟩ := Sys.exists_run (S := sys { sha256 := id })
    ⟨OrdMap.empty.set "n" ⟨.active, 0⟩, 0, rfl⟩
    [.transition "n" .slashed, .transition "n" .archived, .phase1 1 "7" "x",
      .contractAnswered 1 (.returned "h" true none), .commit 1 true, .phase1 0 "7" "y",
      .contractAnswered 0 (.returned "g" true none), .commit 0 true]
    (p := fun x => x.1.any fun t => fetchCommittedStatus t.pre.db "n" = some .archived
      && fetchCommittedStatus t.post.db "n" = some .slashed)
    (by decide +kernel)
  simp only [List.any_eq_true, Bool.and_eq_true, decide_eq_true_eq] at hp
  obtain ⟨t, ht, hpre, hpost⟩ := hp
  refine ⟨h, s, t, hr, ht, hpre, hpost, fun hl => ?_⟩
  have hmem := hl "n" .archived .slashed hpre hpost (by simp)
  simp [validTransitions] at hmem

end Runs

end TwoPhase

end VeriNode
