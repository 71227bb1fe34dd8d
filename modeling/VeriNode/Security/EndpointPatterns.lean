import VeriNode.Lib.OrdMap
import VeriNode.Lib.RegExp

/-!
# Endpoint patterns

`normalizePattern` and `resolveTier` of `src/security/rate_limiter.ts`. A pattern becomes the text of
a regular expression by one replacement after another, and the text is then read as an expression:
here by `lex` and `group`, for the texts that `normalizePattern` makes. A path begins with a slash, so
that no property of `Object.prototype` is found under it, and the entries of a table are in the order
of `Object.keys`.
-/

namespace VeriNode

namespace RateLimiter

open RegExp

inductive RateLimitTier
  | free
  | pro
  | enterprise
deriving DecidableEq

/-- A UTF-16 code unit. The expressions have no `u` flag. -/
abbrev CodeUnit := UInt16

abbrev Text := List CodeUnit

def unit (c : Char) : CodeUnit := c.toNat.toUInt16

def units (s : List Char) : Text := s.map unit

section Expressions

inductive Atom
  | char (c : CodeUnit)
  | notSlash
  | dot
deriving DecidableEq

def Atom.holds : Atom → CodeUnit → Bool
  | .char c, a => a = c
  | .notSlash, a => a ≠ unit '/'
  | .dot, a => a ∉ [0xA, 0xD, 0x2028, 0x2029]

inductive Lexeme
  | atom (a : Atom)
  | quantifier (q : Quantifier)
deriving DecidableEq

def lex : Text → Option (List Lexeme)
  | [] => some []
  | a :: l =>
    if a = unit '\\' then
      match l with
      | [] => none
      | c :: l => (lex l).map (.atom (.char c) :: ·)
    else if a = unit '[' then
      match l with
      | c :: d :: e :: l =>
        if [c, d, e] = units ['^', '/', ']'] then (lex l).map (.atom .notSlash :: ·) else none
      | _ => none
    else if a = unit '*' then (lex l).map (.quantifier .star :: ·)
    else if a = unit '+' then (lex l).map (.quantifier .plus :: ·)
    else if a = unit '.' then (lex l).map (.atom .dot :: ·)
    else (lex l).map (.atom (.char a) :: ·)

/-- The terms of an expression, if no quantifier has nothing to repeat. -/
def group : List Lexeme → Option (List (Term Atom))
  | [] => some []
  | .atom a :: .quantifier q :: l => (group l).map (⟨a, q⟩ :: ·)
  | .atom a :: l => (group l).map (⟨a, .once⟩ :: ·)
  | .quantifier _ :: _ => none

end Expressions

def placeholder : Text := units ['_', '_', 'P', 'A', 'R', 'A', 'M', '_', '_']

/-- The text, with `none` for every match of `:[^/]+`; within a match if so told. -/
def paramsFrom : Bool → Text → List (Option CodeUnit)
  | _, [] => []
  | true, a :: l => if a = unit '/' then some a :: paramsFrom false l else paramsFrom true l
  | false, a :: l =>
    if a = unit ':' ∧ l.head?.any (· ≠ unit '/') = true then none :: paramsFrom true l
    else some a :: paramsFrom false l

def params (pattern : Text) : List (Option CodeUnit) := paramsFrom false pattern

/-- The characters that are escaped. An asterisk is none of them. -/
def metacharacters : Text :=
  units ['-', '/', '\\', '^', '$', '+', '?', '.', '(', ')', '|', '[', ']', '\x7b', '\x7d']

def escape (c : CodeUnit) : Text := if c ∈ metacharacters then [unit '\\', c] else [c]

/-- None is a `SyntaxError`. -/
def normalizePattern (pattern : Text) : Option (List (Term Atom)) :=
  let parameterized := fill placeholder (params pattern)
  let escaped := parameterized.flatMap escape
  let regexString := replaceAll (units ['\\', '*']) (units ['.', '*'])
    (replaceAll placeholder (units ['[', '^', '/', ']', '+']) escaped)
  (lex regexString).bind group

/-- The tier of the first pattern that matches. None is the error of a pattern before it. -/
def firstMatch (path : Text) (defaultTier : RateLimitTier) :
    List (Text × RateLimitTier) → Option RateLimitTier
  | [] => some defaultTier
  | (pattern, tier) :: entries =>
    if pattern = path then firstMatch path defaultTier entries
    else
      match normalizePattern pattern with
      | none => none
      | some matcher =>
        if test Atom.holds matcher path then some tier else firstMatch path defaultTier entries

def resolveTier (path : Text) (endpointTiers : OrdMap Text RateLimitTier)
    (defaultTier : RateLimitTier) : Option RateLimitTier :=
  match endpointTiers.get path with
  | some exact => some exact
  | none => firstMatch path defaultTier endpointTiers.entries

end RateLimiter

end VeriNode
