import VeriNode.State.Controller
import VeriNode.Rewards.Distributor

/-!
# The reward ledger under two-phase transitions

`reward_tx` is written by `RewardDistributor` and deleted from by `RollbackHandler`. Here both work
on it: the two-phase system of `VeriNode.State.Controller` and distributions, each of which is a
whole transaction. A row carries its amount, which only a distribution looks at, and the time its
transaction began, which only a rollback looks at.
-/

namespace VeriNode

namespace RewardLedger

section Tables

/-- A row of `reward_tx`, with its amount. -/
structure LedgerRow extends RewardTx where
  amount : ℤ
deriving DecidableEq

structure Ledger where
  rewardPendingAmounts : OrdMap String ℤ := ∅
  rewardTx : List LedgerRow := []

/-- The tables as a distribution sees them. -/
def Ledger.tables (l : Ledger) : Rewards.Tables where
  rewardPendingAmounts := l.rewardPendingAmounts
  rewardTx := l.rewardTx.map fun x => ⟨x.nodeId, x.amount⟩

/-- What the `SELECT` reads. -/
def Ledger.pendingText (l : Ledger) (nodeId : String) : String :=
  match l.rewardPendingAmounts.get nodeId with
  | none => "0"
  | some units => Rewards.numericText units

/-- The `INSERT` and the `UPDATE`; neither if one of them breaks a constraint. -/
def pay (nodeId : String) (createdAt : ℕ) (allocation : Rewards.RewardAllocation) (l : Ledger) :
    Ledger :=
  match Decimal.parse 7 allocation.amount, l.rewardPendingAmounts.get nodeId with
  | some units, some pending =>
    if 0 < units ∧ Rewards.numeric units ∧ 0 ≤ pending - units ∧ Rewards.numeric (pending - units)
    then
      { rewardPendingAmounts := l.rewardPendingAmounts.set nodeId (pending - units)
        rewardTx := l.rewardTx ++ [{ nodeId := nodeId, createdAt := createdAt, amount := units }] }
    else l
  | _, _ => l

/-- `computeAndDistributeNodeReward`, none of whose statements fails for another reason. -/
def distribute (nodeId : String) (createdAt : ℕ) (l : Ledger) : Ledger :=
  match Rewards.allocation nodeId (l.pendingText nodeId) with
  | .ok (some allocation) => pay nodeId createdAt allocation l
  | .ok none => l
  | .error _ => l

end Tables

section System

structure State where
  twoPhase : TwoPhase.State := {}
  ledger : Ledger := {}

inductive Action
  | twoPhase (action : TwoPhase.Action)
  | distribute (nodeId : String) (createdAt : ℕ)

/-- The two-phase state with the rows of the ledger. -/
def withRows (rows : List LedgerRow) (t : TwoPhase.State) : TwoPhase.State :=
  { t with db := { t.db with speculative := { t.db.speculative with
      rewardTx := rows.map (·.toRewardTx) } } }

/-- The services that write the other tables leave `reward_tx` to the distributor. -/
def restrict (rows : List RewardTx) : TwoPhase.Action → TwoPhase.Action
  | .others tables => .others { tables with rewardTx := rows }
  | action => action

/-- A step of the two-phase system deletes the rows it deletes, with their amounts. -/
def step (o : TwoPhase.Options) (s : State) : Action → Option State
  | .twoPhase action =>
    match TwoPhase.step o s.twoPhase (restrict s.twoPhase.db.speculative.rewardTx action) with
    | none => none
    | some t =>
      some
        { twoPhase := t
          ledger := { s.ledger with
            rewardTx := s.ledger.rewardTx.filter fun x =>
              x.toRewardTx ∈ t.db.speculative.rewardTx } }
  | .distribute nodeId createdAt =>
    if createdAt ≤ s.twoPhase.now then
      let ledger := RewardLedger.distribute nodeId createdAt s.ledger
      some { twoPhase := withRows ledger.rewardTx s.twoPhase, ledger := ledger }
    else none

/-- The system starts with any nodes, any pending amounts and any rewards. -/
def sys (o : TwoPhase.Options) : Sys State Action where
  init s := ∃ nodes now ledger, (∀ x ∈ ledger.rewardTx, 0 < x.amount)
    ∧ s = { twoPhase := withRows ledger.rewardTx { db := { nodeStatus := nodes }, now := now }
            ledger := ledger }
  step := step o

end System

end RewardLedger

end VeriNode
