import VeriNode.Lib.Run
import VeriNode.State.Rollback
import Mathlib.Data.Rat.Floor

/-!
# Reputation scores

`ReputationScoreService` of `src/reputation/scoreService.ts` and `ReputationStore` of
`src/reputation/store.ts` on the record of one node, with the transactions of
`RollbackHandler.execute` that take speculative adjustments of the node back. Any number of calls
go on at once, each a statement at a time, under READ COMMITTED: a statement reads what was
committed when it starts, a row that a transaction has locked is its own until it ends, and an
`UPDATE` that had to wait tests the row again as it is committed by then. Any statement may fail.
-/

namespace VeriNode

namespace Reputations

section Rows

/-- A row of `reputations`. -/
structure Row where
  score : ℤ
  slashVersion : ℤ
deriving DecidableEq

/-- What an `INTEGER` can be. -/
def int4 (x : ℤ) : Bool := -2 ^ 31 ≤ x ∧ x < 2 ^ 31

/-- A `NUMERIC` as an `INTEGER`: halves go away from zero. -/
def toInteger (x : ℚ) : ℤ := if 0 ≤ x then ⌊x + 1 / 2⌋ else ⌈x - 1 / 2⌉

def clamp (score : ℤ) : ℤ := min 1000 (max (-1000) score)

inductive Op
  | applyReward (delta : ℕ)
  | applySlashing (delta : ℕ)
  | applyRewardTransactional (delta : ℕ)
  | applySlashingTransactional (delta : ℕ)
  | applyRewardWithSlashCheck (delta : ℕ)
  /-- `RollbackHandler.execute`. -/
  | rollback (idempotencyKey : String)
deriving DecidableEq

def reward (delta : ℕ) (row : Row) : Row := { row with score := clamp (row.score + delta) }

def slash (delta : ℕ) (row : Row) : Row := ⟨clamp (row.score - delta), row.slashVersion + 1⟩

/-- Without adjustments of that sum, of which so many were slashes. -/
def revert (sum : ℚ) (slashes : ℕ) (row : Row) : Row where
  score := toInteger (max (-1000) (min 1000 (row.score - sum)))
  slashVersion := row.slashVersion - slashes

/-- The committed rows of the node. -/
structure Node where
  nodeId : String
  row : Row
  adjustments : List ReputationAdjustment := []
  /-- The node's tentative row is pending. -/
  pending : Bool := false

end Rows

section Calls

/-- The next statement of a call, or how it ended. -/
inductive Phase
  | beginning
  /-- A `SELECT` that locks nothing. -/
  | reading
  /-- `SELECT … FOR UPDATE`. -/
  | locking
  /-- The store's own `SELECT … FOR UPDATE`. -/
  | lockingAgain
  /-- The `UPDATE` starts, with the row that was read. -/
  | updating (read : Row)
  /-- The `UPDATE` has found the version that was read, and waits for the row. -/
  | waiting (read : Row)
  /-- The `UPDATE` of the tentative row. -/
  | claiming
  /-- What the rollback does before it comes to the reputation. -/
  | cascading
  /-- The `UPDATE` of the reputation starts. -/
  | summing
  /-- The `UPDATE` of the reputation has its sums, and waits for the row. -/
  | reverting (sum : ℚ) (slashes : ℕ)
  /-- The `DELETE` of the adjustments. -/
  | cleaning
  | committing
  /-- `ROLLBACK`. -/
  | aborting
  | returned
  | threw
deriving DecidableEq

/-- A call, with what its transaction has locked and written: the reputation, and, if the rollback
has claimed the tentative row, the adjustments it has seen at its `DELETE`. `taken` is what a
rollback takes back. -/
structure Call where
  op : Op
  phase : Phase
  rowLock : Bool := false
  write : Option Row := none
  claimed : Bool := false
  taken : Option (ℚ × ℕ) := none
  seen : ℕ := 0
deriving DecidableEq

/-- What the call does to the row, alone. -/
def Call.effect (call : Call) (row : Row) : Row :=
  match call.op with
  | .applyReward delta => reward delta row
  | .applySlashing delta => slash delta row
  | .applyRewardTransactional delta => reward delta row
  | .applySlashingTransactional delta => slash delta row
  | .applyRewardWithSlashCheck delta => reward delta row
  | .rollback _ =>
    match call.taken with
    | none => row
    | some (sum, slashes) => revert sum slashes row

/-- The first statement. -/
def Op.start : Op → Phase
  | .applyReward _ => .reading
  | .applySlashing _ => .reading
  | _ => .beginning

/-- The first statement after `BEGIN`. -/
def Op.first : Op → Phase
  | .applyRewardWithSlashCheck _ => .reading
  | .rollback _ => .claiming
  | _ => .locking

structure State where
  node : Node
  calls : OrdMap ℕ Call := ∅
  nextId : ℕ := 0

/-- Another call has locked the row. -/
def rowLocked (s : State) (id : ℕ) : Bool :=
  s.calls.entries.any fun e => e.1 ≠ id ∧ e.2.rowLock = true

/-- Another rollback has claimed the tentative row, and not committed yet. -/
def claimLocked (s : State) (id : ℕ) : Bool :=
  s.calls.entries.any fun e => e.1 ≠ id ∧ e.2.claimed = true

/-- The call's transaction is over. -/
def Call.release (call : Call) (phase : Phase) : Call :=
  { call with phase := phase, rowLock := false, write := none, claimed := false }

/-- What the call has written takes the place of what was committed. -/
def Call.commit (call : Call) (node : Node) : Node where
  nodeId := node.nodeId
  row := call.write.getD node.row
  adjustments :=
    match call.op with
    | .rollback key =>
      if call.claimed then
        ((node.adjustments.take call.seen).filter fun x =>
            ¬ (x.nodeId = node.nodeId ∧ x.idempotencyKey = key))
          ++ node.adjustments.drop call.seen
      else node.adjustments
    | _ => node.adjustments
  pending := node.pending && !call.claimed

/-- The `UPDATE`, with the row that was read before. -/
def Call.update (id : ℕ) (call : Call) (s : State) (read : Row) : Option (Call × Node) :=
  match call.op with
  | .applyReward delta =>
    if rowLocked s id then none
    else if int4 delta ∧ int4 (s.node.row.score + delta) then
      some ({ call with phase := .returned }, { s.node with row := reward delta s.node.row })
    else none
  | .applySlashing delta =>
    if rowLocked s id then none
    else if int4 delta ∧ int4 (s.node.row.score - delta) ∧ int4 (s.node.row.slashVersion + 1) then
      some ({ call with phase := .returned }, { s.node with row := slash delta s.node.row })
    else none
  | .applyRewardTransactional delta =>
    some ({ call with
      phase := .committing
      write := some { s.node.row with score := clamp (read.score + delta) } }, s.node)
  | .applySlashingTransactional delta =>
    if int4 (read.slashVersion + 1) then
      some ({ call with
        phase := .committing
        write := some ⟨clamp (read.score - delta), read.slashVersion + 1⟩ }, s.node)
    else none
  | .applyRewardWithSlashCheck _ =>
    if s.node.row.slashVersion = read.slashVersion then
      some ({ call with phase := .waiting read }, s.node)
    else some ({ call with phase := .aborting }, s.node)
  | .rollback _ => none

/-- The `UPDATE` of `applyRewardWithSlashCheck`, with the lock of the row. -/
def Call.check (call : Call) (s : State) (read : Row) : Option (Call × Node) :=
  match call.op with
  | .applyRewardWithSlashCheck delta =>
    if s.node.row.slashVersion = read.slashVersion then
      some ({ call with
        phase := .committing
        rowLock := true
        write := some { s.node.row with score := clamp (read.score + delta) } }, s.node)
    else some ({ call with phase := .aborting }, s.node)
  | _ => none

/-- The statement succeeds; none if it has to wait, or can only fail. -/
def Call.succeed (id : ℕ) (call : Call) (s : State) : Option (Call × Node) :=
  match call.phase with
  | .beginning => some ({ call with phase := call.op.first }, s.node)
  | .reading => some ({ call with phase := .updating s.node.row }, s.node)
  | .locking =>
    if rowLocked s id then none
    else some ({ call with phase := .lockingAgain, rowLock := true }, s.node)
  | .lockingAgain =>
    if rowLocked s id then none
    else some ({ call with phase := .updating s.node.row, rowLock := true }, s.node)
  | .updating read => call.update id s read
  | .waiting read => if rowLocked s id then none else call.check s read
  | .claiming =>
    if claimLocked s id then none
    else if s.node.pending then some ({ call with phase := .cascading, claimed := true }, s.node)
    else some ({ call with phase := .committing }, s.node)
  | .cascading => some ({ call with phase := .summing }, s.node)
  | .summing =>
    match call.op with
    | .rollback key =>
      let tagged := RollbackHandler.tagged s.node.nodeId key s.node.adjustments
      some ({ call with
        phase := .reverting (tagged.map (·.delta)).sum (tagged.filter (·.isSlash)).length },
        s.node)
    | _ => none
  | .reverting sum slashes =>
    if rowLocked s id then none
    else if int4 (s.node.row.slashVersion - slashes) then
      some ({ call with
        phase := .cleaning
        rowLock := true
        write := some (revert sum slashes s.node.row)
        taken := some (sum, slashes) }, s.node)
    else none
  | .cleaning =>
    some ({ call with phase := .committing, seen := s.node.adjustments.length }, s.node)
  | .committing => some (call.release .returned, call.commit s.node)
  | .aborting => some (call.release .threw, s.node)
  | .returned => none
  | .threw => none

/-- The statement fails. -/
def Call.fail (call : Call) : Option Call :=
  match call.phase with
  | .aborting => some (call.release .threw)
  | .returned => none
  | .threw => none
  | _ =>
    match call.op with
    | .applyReward _ => some { call with phase := .threw }
    | .applySlashing _ => some { call with phase := .threw }
    | _ => some { call with phase := .aborting }

inductive Action
  | call (op : Op)
  /-- The next statement of a call, and whether it fails. -/
  | next (id : ℕ) (fails : Bool)
  /-- A tentative row is written. -/
  | attempt
  /-- An adjustment is written. -/
  | record (adjustment : ReputationAdjustment)
deriving DecidableEq

def step (s : State) : Action → Option State
  | .call op =>
    some { s with
      calls := s.calls.set s.nextId { op := op, phase := op.start }
      nextId := s.nextId + 1 }
  | .next id fails =>
    match s.calls.get id with
    | none => none
    | some call =>
      if fails then call.fail.map fun call' => { s with calls := s.calls.set id call' }
      else
        (call.succeed id s).map fun x =>
          { s with node := x.2, calls := s.calls.set id x.1 }
  | .attempt =>
    if claimLocked s s.nextId then none
    else some { s with node := { s.node with pending := true } }
  | .record adjustment =>
    some { s with node := { s.node with adjustments := s.node.adjustments ++ [adjustment] } }

/-- The node has the row at first, any adjustments, and no calls. -/
def sys (row : Row) : Sys State Action where
  init s := ∃ nodeId adjustments pending,
    s = { node := { nodeId := nodeId, row := row, adjustments := adjustments, pending := pending } }
  step := step

end Calls

end Reputations

end VeriNode
