import Mathlib.Data.List.Basic

/-!
# Loans

What is lent, used and given back, newest first. An item has one holder at a time; when only its
holder uses it and gives it back, and it is lent only when nobody holds it (`Proper`), it has been
given back as often as it was lent, but for the loan that is not over (`Proper.balance`).
-/

namespace Loans

variable {κ γ ω : Type*}

inductive Event (κ γ ω : Type*)
  | lent (borrower : κ) (item : γ)
  | used (borrower : κ) (item : γ) (work : ω)
  | returned (borrower : κ) (item : γ)
deriving DecidableEq

section Uses

variable [DecidableEq κ]

/-- What the borrower has used, and for what. -/
def uses (b : κ) : List (Event κ γ ω) → List (γ × ω)
  | [] => []
  | .used borrower item work :: l =>
    if borrower = b then (item, work) :: uses b l else uses b l
  | _ :: l => uses b l

variable {b c : κ} {item : γ} {work : ω} {l : List (Event κ γ ω)}

@[simp] theorem uses_lent : uses b (.lent c item :: l) = uses b l := rfl

@[simp] theorem uses_returned : uses b (.returned c item :: l) = uses b l := rfl

@[simp] theorem uses_used_self : uses b (.used b item work :: l) = (item, work) :: uses b l :=
  if_pos rfl

theorem uses_used_of_ne (h : c ≠ b) : uses b (.used c item work :: l) = uses b l :=
  if_neg h

end Uses

section Holders

variable [DecidableEq γ]

/-- Who has the item. -/
def holder (item : γ) : List (Event κ γ ω) → Option κ
  | [] => none
  | .lent borrower i :: l => if i = item then some borrower else holder item l
  | .used _ _ _ :: l => holder item l
  | .returned _ i :: l => if i = item then none else holder item l

/-- An item is lent when nobody has it, and used and given back by who has it. -/
def Proper : List (Event κ γ ω) → Prop
  | [] => True
  | .lent _ i :: l => holder i l = none ∧ Proper l
  | .used borrower i _ :: l => holder i l = some borrower ∧ Proper l
  | .returned borrower i :: l => holder i l = some borrower ∧ Proper l

/-- How often the item has been lent. -/
def lentTimes (item : γ) : List (Event κ γ ω) → ℕ
  | [] => 0
  | .lent _ i :: l => lentTimes item l + if i = item then 1 else 0
  | _ :: l => lentTimes item l

/-- How often the item has been given back. -/
def returnedTimes (item : γ) : List (Event κ γ ω) → ℕ
  | [] => 0
  | .returned _ i :: l => returnedTimes item l + if i = item then 1 else 0
  | _ :: l => returnedTimes item l

variable {item : γ} {b : κ} {l : List (Event κ γ ω)}

@[simp] theorem holder_lent_self : holder item (.lent b item :: l) = some b := if_pos rfl

theorem holder_lent_of_ne {i : γ} (h : i ≠ item) :
    holder item (.lent b i :: l) = holder item l :=
  if_neg h

@[simp] theorem holder_used {i : γ} {work : ω} :
    holder item (.used b i work :: l) = holder item l := rfl

@[simp] theorem holder_returned_self : holder item (.returned b item :: l) = none :=
  if_pos rfl

theorem holder_returned_of_ne {i : γ} (h : i ≠ item) :
    holder item (.returned b i :: l) = holder item l :=
  if_neg h

theorem Proper.balance (h : Proper l) :
    lentTimes item l = returnedTimes item l + (holder item l).toList.length := by
  induction l with
  | nil => rfl
  | cons e l ih =>
    rcases e with ⟨c, i⟩ | ⟨c, i, work⟩ | ⟨c, i⟩ <;> obtain ⟨hh, hl⟩ := h <;> have := ih hl
    · by_cases hi : i = item
      · subst hi
        simp only [hh, Option.toList_none, List.length_nil, Nat.add_zero] at this
        simp [lentTimes, returnedTimes, holder, this]
      · simpa [lentTimes, returnedTimes, holder, hi] using this
    · simpa [lentTimes, returnedTimes, holder] using this
    · by_cases hi : i = item
      · subst hi
        simp only [hh, Option.toList_some, List.length_singleton] at this
        simp [lentTimes, returnedTimes, holder, this]
      · simpa [lentTimes, returnedTimes, holder, hi] using this

end Holders

end Loans
