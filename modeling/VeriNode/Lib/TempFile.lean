import Mathlib.Data.List.Basic
import Mathlib.Logic.Function.Basic

/-!
# Files that are replaced through temporary ones

A path and the temporary paths beside it, as links to inodes. A temporary file is opened, which
makes it or empties it, is written through a handle on its inode, and takes the path's place when
it is renamed. A handle stays on its inode whatever becomes of the links, so two writers that open
the same name write the same text; one that is alone on its name puts its text in place whole.
-/

variable {κ β : Type*}

/-- No two paths are linked to one inode, and none to one that is yet to be made. -/
structure Separate (file : Option ℕ) (tmp : κ → Option ℕ) (next : ℕ) : Prop where
  file_lt : ∀ i, file = some i → i < next
  tmp_lt : ∀ k i, tmp k = some i → i < next
  tmp_ne_file : ∀ k i, tmp k = some i → file ≠ some i
  tmp_inj : ∀ k k' i, tmp k = some i → tmp k' = some i → k = k'

/-- A path and its temporary paths: their inodes, and the texts of the inodes. -/
structure Target (κ β : Type*) where
  file : Option ℕ
  tmp : κ → Option ℕ
  text : ℕ → List β
  next : ℕ
  separate : Separate file tmp next

namespace Separate

variable {file : Option ℕ} {tmp : κ → Option ℕ} {next : ℕ} {k : κ}

theorem of_none {file : Option ℕ} (h : ∀ i, file = some i → i < next) :
    Separate file (fun _ : κ => none) next where
  file_lt := h
  tmp_lt := fun k i hk => by cases hk
  tmp_ne_file := fun k i hk => by cases hk
  tmp_inj := fun k k' i hk => by cases hk

variable [DecidableEq κ]

theorem of_update {k' : κ} {i j : ℕ} (h : Function.update tmp k (some i) k' = some j) :
    k' = k ∧ j = i ∨ k' ≠ k ∧ tmp k' = some j := by
  by_cases hk : k' = k
  · rw [hk, Function.update_self] at h
    exact .inl ⟨hk, (Option.some.inj h).symm⟩
  · rw [Function.update_of_ne hk] at h
    exact .inr ⟨hk, h⟩

theorem create (h : Separate file tmp next) (k : κ) :
    Separate file (Function.update tmp k (some next)) (next + 1) where
  file_lt := fun i hi => Nat.lt_succ_of_lt (h.file_lt i hi)
  tmp_lt := fun k' i hk' => by
    rcases of_update hk' with ⟨-, rfl⟩ | ⟨-, hk'⟩
    · exact Nat.lt_succ_self _
    · exact Nat.lt_succ_of_lt (h.tmp_lt k' i hk')
  tmp_ne_file := fun k' i hk' hfile => by
    rcases of_update hk' with ⟨-, rfl⟩ | ⟨-, hk'⟩
    · exact Nat.lt_irrefl _ (h.file_lt _ hfile)
    · exact h.tmp_ne_file k' i hk' hfile
  tmp_inj := fun k₁ k₂ i h₁ h₂ => by
    rcases of_update h₁ with ⟨h₁, hi₁⟩ | ⟨-, h₁⟩ <;> rcases of_update h₂ with ⟨h₂, hi₂⟩ | ⟨-, h₂⟩
    · exact h₁.trans h₂.symm
    · exact absurd (hi₁ ▸ h.tmp_lt _ _ h₂) (Nat.lt_irrefl _)
    · exact absurd (hi₂ ▸ h.tmp_lt _ _ h₁) (Nat.lt_irrefl _)
    · exact h.tmp_inj k₁ k₂ i h₁ h₂

theorem of_update_none {k' : κ} {i : ℕ} (h : Function.update tmp k none k' = some i) :
    k' ≠ k ∧ tmp k' = some i := by
  by_cases hk : k' = k
  · rw [hk, Function.update_self] at h
    cases h
  · rw [Function.update_of_ne hk] at h
    exact ⟨hk, h⟩

theorem rename (h : Separate file tmp next) {i : ℕ} (hk : tmp k = some i) :
    Separate (some i) (Function.update tmp k none) next where
  file_lt := fun j hj => Option.some.inj hj ▸ h.tmp_lt k i hk
  tmp_lt := fun k' j hk' => h.tmp_lt k' j (of_update_none hk').2
  tmp_ne_file := fun k' j hk' hfile => by
    obtain ⟨hne, hk'⟩ := of_update_none hk'
    obtain rfl := Option.some.inj hfile
    exact hne (h.tmp_inj k' k i hk' hk)
  tmp_inj := fun k₁ k₂ j h₁ h₂ =>
    h.tmp_inj k₁ k₂ j (of_update_none h₁).2 (of_update_none h₂).2

end Separate

namespace Target

theorem new_file_lt (content : Option (List β)) (i : ℕ)
    (h : (content.map fun _ => 0) = some i) : i < 1 := by
  cases content with
  | none => cases h
  | some _ => exact Option.some.inj h ▸ Nat.zero_lt_one

/-- A path that has no temporary files beside it. -/
def new (content : Option (List β)) : Target κ β where
  file := content.map fun _ => 0
  tmp := fun _ => none
  text := fun _ => content.getD []
  next := 1
  separate := .of_none (new_file_lt content)

/-- What the path's file holds, if there is one. -/
def read (t : Target κ β) : Option (List β) := t.file.map t.text

def setText (t : Target κ β) (i : ℕ) (text : List β) : Target κ β :=
  { t with text := Function.update t.text i text }

/-- A write of a handle at its position; a hole is filled with zeros. -/
def write (zero : β) (t : Target κ β) (i position : ℕ) (chunk : List β) : Target κ β :=
  t.setText i ((t.text i ++ List.replicate (position - (t.text i).length) zero).take position
    ++ chunk ++ (t.text i).drop (position + chunk.length))

variable {t t' : Target κ β} {k k' : κ} {i j position : ℕ} {zero : β} {chunk : List β}

theorem read_new (content : Option (List β)) : (new content : Target κ β).read = content := by
  cases content <;> rfl

theorem isSome_read (t : Target κ β) : t.read.isSome = t.file.isSome := Option.isSome_map

@[simp] theorem setText_file (text : List β) : (t.setText i text).file = t.file := rfl

@[simp] theorem setText_tmp (text : List β) : (t.setText i text).tmp = t.tmp := rfl

theorem text_setText_self (text : List β) : (t.setText i text).text i = text :=
  Function.update_self ..

theorem text_setText_ne (h : j ≠ i) (text : List β) : (t.setText i text).text j = t.text j :=
  Function.update_of_ne h ..

theorem read_setText (h : t.file ≠ some i) (text : List β) : (t.setText i text).read = t.read := by
  unfold read
  rw [setText_file]
  cases hfile : t.file with
  | none => rfl
  | some j =>
    rw [Option.map_some, Option.map_some, text_setText_ne]
    rintro rfl
    exact h hfile

theorem text_write (h : (t.text i).length = position) :
    (t.write zero i position chunk).text i = t.text i ++ chunk := by
  subst h
  rw [write, text_setText_self]
  simp

variable [DecidableEq κ]

/-- `open(tmp, 'w')`, with the inode of the handle. -/
def openTmp (t : Target κ β) (k : κ) : Target κ β × ℕ :=
  match t.tmp k with
  | some i => (t.setText i [], i)
  | none =>
    ({ t with
        tmp := Function.update t.tmp k (some t.next)
        text := Function.update t.text t.next []
        next := t.next + 1
        separate := t.separate.create k }, t.next)

/-- `rename(tmp, path)`, or none if there is no such file. -/
def rename (t : Target κ β) (k : κ) : Option (Target κ β) :=
  match hk : t.tmp k with
  | none => none
  | some i =>
    some { t with
      file := some i
      tmp := Function.update t.tmp k none
      separate := t.separate.rename hk }

theorem openTmp_spec (t : Target κ β) (k : κ) :
    (t.openTmp k).1.tmp k = some (t.openTmp k).2
      ∧ (t.openTmp k).1.text (t.openTmp k).2 = []
      ∧ (t.openTmp k).1.file = t.file ∧ (∀ k' ≠ k, (t.openTmp k).1.tmp k' = t.tmp k')
      ∧ (∀ i, i < t.next → t.tmp k ≠ some i → (t.openTmp k).1.text i = t.text i) := by
  unfold openTmp
  split
  · rename_i i hk
    refine ⟨hk, text_setText_self _, rfl, fun _ _ => rfl, fun j _ hj => text_setText_ne ?_ _⟩
    rintro rfl
    exact hj hk
  · refine ⟨Function.update_self .., Function.update_self .., rfl,
      fun k' hk' => Function.update_of_ne hk' .., fun j hj _ => Function.update_of_ne (Nat.ne_of_lt hj) ..⟩

theorem read_openTmp (t : Target κ β) (k : κ) : (t.openTmp k).1.read = t.read := by
  obtain ⟨-, -, hfile, -, htext⟩ := openTmp_spec t k
  unfold read
  rw [hfile]
  cases hf : t.file with
  | none => rfl
  | some i =>
    rw [Option.map_some, Option.map_some,
      htext i (t.separate.file_lt i hf) fun hk => t.separate.tmp_ne_file k i hk hf]

theorem rename_eq_none : t.rename k = none ↔ t.tmp k = none := by
  unfold rename
  split <;> simp [*]

theorem rename_spec (h : t.rename k = some t') :
    ∃ i, t.tmp k = some i ∧ t'.read = some (t.text i) ∧ t'.text = t.text
      ∧ t'.tmp k = none ∧ ∀ k' ≠ k, t'.tmp k' = t.tmp k' := by
  unfold rename at h
  split at h
  · cases h
  · rename_i i hk
    obtain rfl := Option.some.inj h
    exact ⟨i, hk, rfl, rfl, Function.update_self .., fun k' hk' => Function.update_of_ne hk' ..⟩

end Target
