import VeriNode.Lib.JsString
import VeriNode.Lib.OrdMap
import VeriNode.Lib.Run
import Mathlib.Algebra.Order.Ring.Rat

/-!
# Stored baselines

`BaselineStore` of `src/performance/baseline.ts`: the files of its directory, by name. The directory
is empty at first and no other program writes there; a file of any name can be written, and the
baseline whose text it holds is read back. What is measured is not looked at.
-/

namespace VeriNode

structure PerformanceBaseline (μ : Type*) where
  branch : String
  scenario : String
  storedAt : ℚ
  metrics : List μ
deriving DecidableEq

namespace BaselineStore

variable {μ : Type*}

section Keys

/-- `[a-zA-Z0-9_.-]`. -/
def isSafe (c : Char) : Bool := c.isAlphanum || c = '_' || c = '.' || c = '-'

/-- Each code unit of a character that is not safe is replaced. -/
def replaceChar (c : Char) : List Char :=
  if isSafe c then [c] else (JsString.codeUnits c).map fun _ => '_'

/-- `s.replace(/[^a-zA-Z0-9_.-]/g, '_')`. -/
def replace (s : String) : String := String.ofList (s.toList.flatMap replaceChar)

def key (branch scenario : String) : String :=
  let safeBranch := replace branch
  let safeScenario := replace scenario
  s!"{safeBranch}_{safeScenario}.json"

end Keys

section Store

variable (dir : OrdMap String (PerformanceBaseline μ))

def save (baseline : PerformanceBaseline μ) : OrdMap String (PerformanceBaseline μ) :=
  dir.set (key baseline.branch baseline.scenario) baseline

def load (branch scenario : String) : Option (PerformanceBaseline μ) :=
  dir.get (key branch scenario)

def delete (branch scenario : String) : OrdMap String (PerformanceBaseline μ) :=
  dir.delete (key branch scenario)

/-- The pair that the name of a file stands for. -/
def pair (entry : String) : Option (String × String) :=
  let name := entry.toList.take (entry.toList.length - 5)
  let sep := name.idxOf '_'
  if sep = name.length then none
  else some (String.ofList (name.take sep), String.ofList (name.drop (sep + 1)))

def list : List (String × String) :=
  (dir.keys.filter fun entry => ".json".toList.isSuffixOf entry.toList).filterMap pair

end Store

section System

inductive Action (μ : Type*)
  | save (baseline : PerformanceBaseline μ)
  | delete (branch scenario : String)
deriving DecidableEq

def step (dir : OrdMap String (PerformanceBaseline μ)) :
    Action μ → OrdMap String (PerformanceBaseline μ)
  | .save baseline => save dir baseline
  | .delete branch scenario => delete dir branch scenario

def system (μ : Type*) : Sys (OrdMap String (PerformanceBaseline μ)) (Action μ) where
  init dir := dir = ∅
  step dir a := some (step dir a)

end System

end BaselineStore

end VeriNode
