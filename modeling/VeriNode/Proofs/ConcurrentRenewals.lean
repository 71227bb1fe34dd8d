import VeriNode.Tls.ConcurrentRenewals

/-!
# When renewals at the same time leave one pair

Each renewal replaces the two files one by one, so of two renewals one may be the last to replace
the certificate and the other the last to replace the key; and writers that were given their
temporary names in the same millisecond share a file. Along the runs in which neither happens
(`InTurn`) the files hold one pair whenever no renewal is in progress (`pair_of_inTurn`).
-/

namespace VeriNode

namespace Tls

namespace Renewals

variable {chainPath : Bool} {disk : Disk} {s s' : State} {a : Action}
  {h : List (Taken State Action)}

section Law

/-- The call is over. -/
def Renewal.ended (r : Renewal) : Bool :=
  match r.phase with
  | .resolved _ | .rejected _ => true
  | _ => false

/-- No call is in progress. -/
def Quiet (s : State) : Prop := ∀ id r, s.calls.get id = some r → r.ended = true

/-- The certificate and the key are those from before, or those of one pair that was issued. -/
def Paired (disk : Disk) (s : State) : Prop :=
  (∀ file ≠ File.chain, (s.targets file).read = (disk file).map String.toList)
    ∨ ∃ next ∈ s.issued, ∀ file ≠ File.chain, (s.targets file).read = some (body next file).toList

/-- The writer has been started and has not renamed its file. -/
def Writer.pending (w : Writer) : Bool :=
  match w.stage with
  | .making | .opening | .writing | .syncing | .closing _ | .renaming => true
  | _ => false

/-- The writer has its temporary file. -/
def Writer.holding (w : Writer) : Bool :=
  match w.stage with
  | .writing | .syncing | .closing _ | .renaming => true
  | _ => false

/-- A writer of the file is still to put the text in place. -/
def Pending (s : State) (file : File) (text : Option (List Char)) : Prop :=
  ∃ id r, s.calls.get id = some r ∧ (r.writers file).pending = true
    ∧ some (r.writers file).content = text

/-- The text may be what the file is left with: a writer is still to put it in place, or it is
there, and no writer is still to put anything in its place. -/
def Possible (s : State) (file : File) (text : Option (List Char)) : Prop :=
  Pending s file text ∨ (s.targets file).read = text ∧ ∀ text', ¬ Pending s file text'

/-- One pair may be what the files are left with. -/
def Matching (disk : Disk) (s : State) : Prop :=
  (∀ file ≠ File.chain, Possible s file ((disk file).map String.toList))
    ∨ ∃ next ∈ s.issued, ∀ file ≠ File.chain, Possible s file (some (body next file).toList)

/-- No other writer has the file's temporary file of that time. -/
def Alone (s : State) (id : ℕ) (file : File) (time : ℤ) : Prop :=
  ∀ id' r', s.calls.get id' = some r' → id' ≠ id → (r'.writers file).holding = true →
    (r'.writers file).time ≠ time

/-- A temporary file of the certificate or the key is opened when no other writer has it, and a
rename of one leaves a pair that the files may be left with. -/
def InTurn (chainPath : Bool) (disk : Disk) (s : State) : Action → Prop
  | .file id file now count => file ≠ .chain → ∀ r, s.calls.get id = some r →
      ((r.writers file).stage = .opening → Alone s id file (r.writers file).time)
        ∧ ((r.writers file).stage = .renaming →
          ∀ s', step chainPath s (.file id file now count) = some s' → Matching disk s')
  | _ => True

end Law

section Writers

variable {w w' v : Writer} {t t' : Target ℤ Char} {now : ℤ} {count : ℕ}

/-- What is so of a writer that is alone on its temporary file. -/
def Writer.Sound (t : Target ℤ Char) (w : Writer) : Prop :=
  match w.stage with
  | .writing => t.tmp w.time = some w.inode ∧ t.text w.inode = w.content.take w.position
      ∧ w.position ≤ w.content.length
  | .syncing | .closing none | .renaming => t.tmp w.time = some w.inode
      ∧ t.text w.inode = w.content
  | .chmodding => t.file.isSome = true
  | .closing (some _) | .failed _ => False
  | .idle | .making | .opening | .written => True

theorem Writer.Sound.tmp (hw : w.Sound t) (hh : w.holding = true) :
    t.tmp w.time = some w.inode := by
  unfold Writer.Sound at hw
  unfold Writer.holding at hh
  split at hw <;> simp_all

/-- What a step of a writer leaves to the others: their files, and theirs are the temporary paths
that it does not use. -/
theorem Writer.step_other (hw : w.Sound t) (h : w.step now count t = some (w', t')) :
    (t.file.isSome = true → t'.file.isSome = true)
      ∧ ∀ k i, (w.holding = true ∨ w.stage = .opening → k ≠ w.time) → t.tmp k = some i →
        t'.tmp k = some i ∧ t'.text i = t.text i := by
  unfold Writer.step at h
  split at h
  · obtain ⟨-, rfl⟩ := Prod.mk.inj (Option.some.inj h)
    exact ⟨id, fun k i _ hk => ⟨hk, rfl⟩⟩
  · rename_i hstage
    obtain ⟨-, rfl⟩ := Prod.mk.inj (Option.some.inj h)
    obtain ⟨-, -, hfile, htmp, htext⟩ := Target.openTmp_spec t w.time
    refine ⟨fun hf => by rw [hfile]; exact hf, fun k i hne hk => ?_⟩
    have hne := hne (.inr hstage)
    refine ⟨by rw [htmp k hne, hk], htext i (t.separate.tmp_lt k i hk) fun hi => ?_⟩
    exact hne (t.separate.tmp_inj k w.time i hk hi)
  · rename_i hstage
    have hheld := hw.tmp (by rw [Writer.holding, hstage])
    obtain ⟨-, rfl⟩ := Prod.mk.inj (Option.some.inj h)
    refine ⟨id, fun k i hne hk => ⟨hk, Target.text_setText_ne ?_ _⟩⟩
    rintro rfl
    refine hne (.inl ?_) (t.separate.tmp_inj k w.time _ hk hheld)
    rw [Writer.holding, hstage]
  · obtain ⟨-, rfl⟩ := Prod.mk.inj (Option.some.inj h)
    exact ⟨id, fun k i _ hk => ⟨hk, rfl⟩⟩
  · obtain ⟨-, rfl⟩ := Prod.mk.inj (Option.some.inj h)
    exact ⟨id, fun k i _ hk => ⟨hk, rfl⟩⟩
  · rename_i hstage
    split at h
    · rename_i u hrename
      obtain ⟨-, rfl⟩ := Prod.mk.inj (Option.some.inj h)
      obtain ⟨j, -, hread, htext, -, htmp⟩ := Target.rename_spec hrename
      refine ⟨fun _ => ?_, fun k i hne hk => ?_⟩
      · rw [← Target.isSome_read, hread]
        rfl
      · have hne := hne (.inl (by rw [Writer.holding, hstage]))
        exact ⟨by rw [htmp k hne, hk], by rw [htext]⟩
    · obtain ⟨-, rfl⟩ := Prod.mk.inj (Option.some.inj h)
      exact ⟨id, fun k i _ hk => ⟨hk, rfl⟩⟩
  · split at h <;> obtain ⟨-, rfl⟩ := Prod.mk.inj (Option.some.inj h) <;>
      exact ⟨id, fun k i _ hk => ⟨hk, rfl⟩⟩
  all_goals cases h

/-- Another writer that uses another temporary path is sound after the step. -/
theorem Writer.Sound.other (hv : v.Sound t) (hw : w.Sound t)
    (h : w.step now count t = some (w', t'))
    (hapart : v.holding = true → w.holding = true ∨ w.stage = .opening → v.time ≠ w.time) :
    v.Sound t' := by
  obtain ⟨hfile, hkept⟩ := Writer.step_other hw h
  have htmp : ∀ hh : v.holding = true, t'.tmp v.time = some v.inode
      ∧ t'.text v.inode = t.text v.inode :=
    fun hh => hkept v.time v.inode (hapart hh) (hv.tmp hh)
  unfold Writer.Sound at hv
  split at hv
  · rename_i hstage
    obtain ⟨hk, htext⟩ := htmp (by rw [Writer.holding, hstage])
    simp only [Writer.Sound, hstage]
    exact ⟨hk, htext.trans hv.2.1, hv.2.2⟩
  · rename_i hstage
    obtain ⟨hk, htext⟩ := htmp (by rw [Writer.holding, hstage])
    simp only [Writer.Sound, hstage]
    exact ⟨hk, htext.trans hv.2⟩
  · rename_i hstage
    obtain ⟨hk, htext⟩ := htmp (by rw [Writer.holding, hstage])
    simp only [Writer.Sound, hstage]
    exact ⟨hk, htext.trans hv.2⟩
  · rename_i hstage
    obtain ⟨hk, htext⟩ := htmp (by rw [Writer.holding, hstage])
    simp only [Writer.Sound, hstage]
    exact ⟨hk, htext.trans hv.2⟩
  · rename_i hstage
    simp only [Writer.Sound, hstage]
    exact hfile hv
  · exact hv.elim
  · exact hv.elim
  all_goals
    rename_i hstage
    simp only [Writer.Sound, hstage]

/-- A step of a sound writer: it stays sound, and only its rename puts anything in place, and that is
its text. -/
theorem Writer.Sound.step (hw : w.Sound t) (h : w.step now count t = some (w', t')) :
    w'.Sound t' ∧ w'.content = w.content
      ∧ (w.stage = .renaming → w'.pending = false ∧ t'.read = some w.content)
      ∧ (w.stage ≠ .renaming → w'.pending = w.pending ∧ t'.read = t.read) := by
  unfold Writer.step at h
  unfold Writer.Sound at hw
  split at h
  · rename_i hstage
    obtain ⟨rfl, rfl⟩ := Prod.mk.inj (Option.some.inj h)
    exact ⟨trivial, rfl, by simp [hstage], fun _ => ⟨by simp [Writer.pending, hstage], rfl⟩⟩
  · rename_i hstage
    obtain ⟨rfl, rfl⟩ := Prod.mk.inj (Option.some.inj h)
    obtain ⟨htmp, htext, -⟩ := Target.openTmp_spec t w.time
    refine ⟨⟨htmp, ?_, Nat.zero_le _⟩, rfl, by simp [hstage], fun _ =>
      ⟨by simp [Writer.pending, hstage], Target.read_openTmp t w.time⟩⟩
    rw [htext]
    rfl
  · rename_i hstage
    simp only [hstage] at hw
    obtain ⟨htmp, htext, hle⟩ := hw
    obtain ⟨rfl, rfl⟩ := Prod.mk.inj (Option.some.inj h)
    have hread : (t.write '\x00' w.inode w.position
        ((w.content.drop w.position).take (count + 1))).read = t.read :=
      Target.read_setText (t.separate.tmp_ne_file w.time w.inode htmp) _
    have hlength : (t.text w.inode).length = w.position := by
      rw [htext, List.length_take]
      omega
    have hwritten : (t.write '\x00' w.inode w.position
        ((w.content.drop w.position).take (count + 1))).text w.inode
        = t.text w.inode ++ (w.content.drop w.position).take (count + 1) := Target.text_write hlength
    have hchunk := List.prefix_iff_eq_take.1 (List.take_prefix (count + 1) (w.content.drop w.position))
    rw [htext, hchunk, ← List.take_add, ← hchunk] at hwritten
    split_ifs with hend
    · refine ⟨⟨htmp, ?_⟩, rfl, by simp [hstage], fun _ => ⟨by simp [Writer.pending, hstage], hread⟩⟩
      rw [hwritten, hend, List.take_length]
    · refine ⟨⟨htmp, hwritten, ?_⟩, rfl, by simp [hstage],
        fun _ => ⟨by simp [Writer.pending, hstage], hread⟩⟩
      simp only [List.length_take, List.length_drop]
      omega
  · rename_i hstage
    simp only [hstage] at hw
    obtain ⟨rfl, rfl⟩ := Prod.mk.inj (Option.some.inj h)
    exact ⟨hw, rfl, by simp [hstage], fun _ => ⟨by simp [Writer.pending, hstage], rfl⟩⟩
  · rename_i hstage
    simp only [hstage] at hw
    obtain ⟨rfl, rfl⟩ := Prod.mk.inj (Option.some.inj h)
    exact ⟨hw, rfl, by simp [hstage], fun _ => ⟨by simp [Writer.pending, hstage], rfl⟩⟩
  · rename_i hstage
    simp only [hstage] at hw
    split at h
    · rename_i u hrename
      obtain ⟨rfl, rfl⟩ := Prod.mk.inj (Option.some.inj h)
      obtain ⟨i, hi, hread, -⟩ := Target.rename_spec hrename
      obtain rfl : w.inode = i := Option.some.inj (hw.1.symm.trans hi)
      rw [hw.2] at hread
      refine ⟨?_, rfl, fun _ => ⟨rfl, hread⟩, fun hne => absurd hstage hne⟩
      exact (Target.isSome_read u).symm.trans (hread ▸ rfl)
    · rename_i hnone
      rw [Target.rename_eq_none] at hnone
      rw [hnone] at hw
      cases hw.1
  · rename_i hstage
    simp only [hstage] at hw
    rw [if_pos hw] at h
    obtain ⟨rfl, rfl⟩ := Prod.mk.inj (Option.some.inj h)
    exact ⟨trivial, rfl, by simp [hstage], fun _ => ⟨by simp [Writer.pending, hstage], rfl⟩⟩
  all_goals cases h

theorem Writer.step_holding (h : w.step now count t = some (w', t')) (hh : w'.holding = true) :
    (w.holding = true ∨ w.stage = .opening) ∧ w'.time = w.time := by
  unfold Writer.step at h
  split at h
  · obtain ⟨rfl, -⟩ := Prod.mk.inj (Option.some.inj h)
    cases hh
  · rename_i hstage
    obtain ⟨rfl, -⟩ := Prod.mk.inj (Option.some.inj h)
    exact ⟨.inr hstage, rfl⟩
  · rename_i hstage
    obtain ⟨rfl, -⟩ := Prod.mk.inj (Option.some.inj h)
    exact ⟨.inl (by rw [Writer.holding, hstage]), rfl⟩
  · rename_i hstage
    obtain ⟨rfl, -⟩ := Prod.mk.inj (Option.some.inj h)
    exact ⟨.inl (by rw [Writer.holding, hstage]), rfl⟩
  · rename_i hstage
    obtain ⟨rfl, -⟩ := Prod.mk.inj (Option.some.inj h)
    exact ⟨.inl (by rw [Writer.holding, hstage]), rfl⟩
  · split at h <;> obtain ⟨rfl, -⟩ := Prod.mk.inj (Option.some.inj h) <;> cases hh
  · split at h <;> obtain ⟨rfl, -⟩ := Prod.mk.inj (Option.some.inj h) <;> cases hh
  all_goals cases h

theorem Writer.Sound.not_failed (hw : w.Sound t) (error : String) : w.stage ≠ .failed error := by
  intro hstage
  rw [Writer.Sound, hstage] at hw
  exact hw

end Writers

section Steps

variable {id : ℕ} {r r' : Renewal} {file : File}

theorem settle_writers (chainPath : Bool) (r : Renewal) (hfile : file ≠ .chain) :
    (settle chainPath r).writers file = r.writers file := by
  unfold settle
  split
  · split
    · rfl
    · rfl
    · split
      · exact Function.update_of_ne hfile ..
      · rfl
    · rfl
  · split <;> rfl
  · rfl

theorem settle_phase (hfailed : ∀ file ≠ File.chain, ∀ error, (r.writers file).stage ≠ .failed error)
    (hphase : ∃ before, r.phase = .writing before)
    (hon : ∀ before, (settle chainPath r).phase ≠ .writing before) (hfile : file ≠ .chain) :
    (r.writers file).stage = .written := by
  obtain ⟨before, hphase⟩ := hphase
  unfold settle at hon
  simp only [hphase] at hon
  split at hon
  · rename_i error hcert
    exact absurd hcert (hfailed .cert (by decide) error)
  · rename_i error hkey _
    exact absurd hkey (hfailed .key (by decide) error)
  · rename_i hcert hkey
    cases file with
    | cert => exact hcert
    | key => exact hkey
    | chain => exact absurd rfl hfile
  · exact absurd hphase (hon before)

theorem status_spec {result : Except String CertificateStatus} (h : r.status result = some r') :
    (∀ before, r.phase ≠ .writing before) ∧ r'.writers = r.writers := by
  unfold Renewal.status at h
  split at h
  · rename_i hphase
    obtain rfl := Option.some.inj h
    exact ⟨by simp [hphase], rfl⟩
  · rename_i hphase
    split_ifs at h
    all_goals
      obtain rfl := Option.some.inj h
      exact ⟨by simp [hphase], rfl⟩
  · rename_i hphase
    obtain rfl := Option.some.inj h
    exact ⟨by simp [hphase], rfl⟩
  · rename_i hphase
    obtain rfl := Option.some.inj h
    exact ⟨by simp [hphase], rfl⟩
  · rename_i hphase
    obtain rfl := Option.some.inj h
    exact ⟨by simp [hphase], rfl⟩
  · cases h

theorem alert_spec {throws : Option String} (h : r.alert throws = some r') :
    (∀ before, r.phase ≠ .writing before) ∧ r'.writers = r.writers := by
  unfold Renewal.alert at h
  split at h
  · rename_i hphase
    obtain rfl := Option.some.inj h
    exact ⟨by simp [hphase], rfl⟩
  · rename_i hphase
    obtain rfl := Option.some.inj h
    exact ⟨by simp [hphase], rfl⟩
  · rename_i hphase
    obtain rfl := Option.some.inj h
    exact ⟨by simp [hphase], rfl⟩
  · rename_i hphase
    obtain rfl := Option.some.inj h
    exact ⟨by simp [hphase], rfl⟩
  · cases h

theorem issue_spec {result : Except String StoredCertificate} (h : r.issue result = some r') :
    (∀ before, r.phase ≠ .writing before)
      ∧ ((∃ error, result = .error error ∧ r'.writers = r.writers)
        ∨ ∃ before next, result = .ok next
          ∧ r' = { r with
              phase := .writing before
              issued := some next
              writers := fun file =>
                if file = .chain then r.writers file else Writer.start (body next file) }) := by
  unfold Renewal.issue at h
  split at h
  · rename_i error hphase
    obtain rfl := Option.some.inj h
    exact ⟨by simp [hphase], .inl ⟨error, rfl, rfl⟩⟩
  · rename_i before next hphase
    exact ⟨by simp [hphase], .inr ⟨before, next, rfl, (Option.some.inj h).symm⟩⟩
  · cases h

theorem pending_set {text : Option (List Char)} (hget : s.calls.get id = some r)
    (hpending : (r'.writers file).pending = (r.writers file).pending)
    (hcontent : (r'.writers file).content = (r.writers file).content)
    (hcalls : s'.calls = s.calls.set id r') :
    Pending s' file text ↔ Pending s file text := by
  constructor
  · rintro ⟨id', q, hq, hp, ht⟩
    rw [hcalls] at hq
    rcases OrdMap.of_get_set hq with ⟨-, rfl⟩ | ⟨-, hq⟩
    · exact ⟨id, r, hget, hpending ▸ hp, hcontent ▸ ht⟩
    · exact ⟨id', q, hq, hp, ht⟩
  · rintro ⟨id', q, hq, hp, ht⟩
    by_cases hid : id' = id
    · subst hid
      obtain rfl := Option.some.inj (hget.symm.trans hq)
      exact ⟨id', r', hcalls ▸ OrdMap.get_set_self _ _ _, hpending ▸ hp, hcontent ▸ ht⟩
    · exact ⟨id', q, by rw [hcalls, OrdMap.get_set_of_ne _ _ hid, hq], hp, ht⟩

theorem Matching.congr (hm : Matching disk s)
    (hpending : ∀ file ≠ File.chain, ∀ text, Pending s' file text ↔ Pending s file text)
    (hread : ∀ file ≠ File.chain, (s'.targets file).read = (s.targets file).read)
    (hissued : ∀ next ∈ s.issued, next ∈ s'.issued) : Matching disk s' := by
  have hpossible : ∀ file ≠ File.chain, ∀ text, Possible s file text → Possible s' file text := by
    rintro file hfile text (hp | ⟨htext, hnone⟩)
    · exact .inl ((hpending file hfile text).2 hp)
    · exact .inr ⟨(hread file hfile).trans htext,
        fun text' hp => hnone text' ((hpending file hfile text').1 hp)⟩
  rcases hm with hold | ⟨next, hnext, hm⟩
  · exact .inl fun file hfile => hpossible file hfile _ (hold file hfile)
  · exact .inr ⟨next, hissued next hnext, fun file hfile => hpossible file hfile _ (hm file hfile)⟩

end Steps

section Runs

/-- No writer of the two files fails or shares a temporary file, only a call that writes has one to
rename, and one pair may be what is left. -/
structure Inv (disk : Disk) (s : State) : Prop where
  sound : ∀ id r, s.calls.get id = some r → ∀ file ≠ File.chain,
    (r.writers file).Sound (s.targets file)
  apart : ∀ id id' r r', s.calls.get id = some r → s.calls.get id' = some r' →
    ∀ file ≠ File.chain, (r.writers file).holding = true → (r'.writers file).holding = true →
    (r.writers file).time = (r'.writers file).time → id = id'
  resting : ∀ id r, s.calls.get id = some r → (∀ before, r.phase ≠ .writing before) →
    ∀ file ≠ File.chain, (r.writers file).pending = false
  fresh : ∀ id, s.nextCall ≤ id → s.calls.get id = none
  matching : Matching disk s

theorem Inv.init (hs : (sys chainPath disk).init s) : Inv disk s := by
  obtain rfl := hs
  have hnone : ∀ id r, (∅ : OrdMap ℕ Renewal).get id ≠ some r := by
    intro id r
    rw [OrdMap.get_empty]
    simp
  exact {
    sound := fun id r hget => absurd hget (hnone id r)
    apart := fun id id' r r' hget => absurd hget (hnone id r)
    resting := fun id r hget => absurd hget (hnone id r)
    fresh := fun id _ => rfl
    matching := by
      refine .inl fun file hfile => .inr ⟨Target.read_new _, ?_⟩
      rintro text ⟨id, r, hget, -⟩
      exact hnone id r hget }

variable {id : ℕ} {r r' : Renewal}

/-- A call changes, and its writers of the two files do not. -/
theorem Inv.set (hi : Inv disk s) (hget : s.calls.get id = some r)
    (hwriters : ∀ file ≠ File.chain, r'.writers file = r.writers file)
    (hphase : ∀ before, r.phase ≠ .writing before) (issued : List StoredCertificate)
    (hissued : ∀ next ∈ s.issued, next ∈ issued) :
    Inv disk { s with calls := s.calls.set id r', issued := issued } where
  sound := fun id' q hq file hfile => by
    rcases OrdMap.of_get_set hq with ⟨-, rfl⟩ | ⟨-, hq⟩
    · rw [hwriters file hfile]
      exact hi.sound id r hget file hfile
    · exact hi.sound id' q hq file hfile
  apart := fun i j q q' hq hq' file hfile => by
    have hback : ∀ i q, (s.calls.set id r').get i = some q →
        ∃ p, s.calls.get i = some p ∧ q.writers file = p.writers file := by
      intro i q hq
      rcases OrdMap.of_get_set hq with ⟨rfl, rfl⟩ | ⟨-, hq⟩
      · exact ⟨r, hget, hwriters file hfile⟩
      · exact ⟨q, hq, rfl⟩
    obtain ⟨p, hp, hw⟩ := hback i q hq
    obtain ⟨p', hp', hw'⟩ := hback j q' hq'
    rw [hw, hw']
    exact hi.apart i j p p' hp hp' file hfile
  resting := fun id' q hq hq' file hfile => by
    rcases OrdMap.of_get_set hq with ⟨-, rfl⟩ | ⟨-, hq⟩
    · rw [hwriters file hfile]
      exact hi.resting id r hget hphase file hfile
    · exact hi.resting id' q hq hq' file hfile
  fresh := fun id' hid' => by
    rw [OrdMap.get_set_of_ne _ _ ?_, hi.fresh id' hid']
    rintro rfl
    rw [hi.fresh id' hid'] at hget
    cases hget
  matching := hi.matching.congr
    (fun file hfile _ => pending_set hget (by rw [hwriters file hfile]) (by rw [hwriters file hfile])
      rfl) (fun _ _ => rfl) hissued

theorem Inv.place (hi : Inv disk s) (r' : Renewal)
    (hholding : ∀ file ≠ File.chain, (r'.writers file).holding = false)
    (hsound : ∀ file ≠ File.chain, (r'.writers file).Sound (s.targets file))
    (hresting : (∀ before, r'.phase ≠ .writing before) →
      ∀ file ≠ File.chain, (r'.writers file).pending = false)
    {nextCall : ℕ} (hid : id < nextCall) (hnext : s.nextCall ≤ nextCall)
    {issued : List StoredCertificate}
    (hmatching : Matching disk
      { calls := s.calls.set id r', nextCall, targets := s.targets, issued }) :
    Inv disk { calls := s.calls.set id r', nextCall, targets := s.targets, issued } where
  sound := fun id' q hq file hfile => by
    rcases OrdMap.of_get_set hq with ⟨-, rfl⟩ | ⟨-, hq⟩
    · exact hsound file hfile
    · exact hi.sound id' q hq file hfile
  apart := fun i j q q' hq hq' file hfile hh hh' => by
    rcases OrdMap.of_get_set hq with ⟨-, rfl⟩ | ⟨-, hq⟩
    · rw [hholding file hfile] at hh
      cases hh
    · rcases OrdMap.of_get_set hq' with ⟨-, rfl⟩ | ⟨-, hq'⟩
      · rw [hholding file hfile] at hh'
        cases hh'
      · exact hi.apart i j q q' hq hq' file hfile hh hh'
  resting := fun id' q hq hq' => by
    rcases OrdMap.of_get_set hq with ⟨-, rfl⟩ | ⟨-, hq⟩
    · exact hresting hq'
    · exact hi.resting id' q hq hq'
  fresh := fun id' hid' => by
    have hle : nextCall ≤ id' := hid'
    rw [OrdMap.get_set_of_ne _ _ (by omega)]
    exact hi.fresh id' (hnext.trans hle)
  matching := hmatching

theorem Inv.checkOnce (hi : Inv disk s) :
    Inv disk { s with calls := s.calls.set s.nextCall {}, nextCall := s.nextCall + 1 } := by
  refine hi.place {} (fun _ _ => rfl) (fun _ _ => trivial) (fun _ _ _ => rfl)
    (Nat.lt_succ_self _) (Nat.le_succ _) (hi.matching.congr ?_ (fun _ _ => rfl) fun _ h => h)
  intro file hfile text
  constructor
  · rintro ⟨id', q, hq, hp, ht⟩
    rcases OrdMap.of_get_set hq with ⟨-, rfl⟩ | ⟨-, hq⟩
    · cases hp
    · exact ⟨id', q, hq, hp, ht⟩
  · rintro ⟨id', q, hq, hp, ht⟩
    refine ⟨id', q, ?_, hp, ht⟩
    rw [OrdMap.get_set_of_ne _ _ ?_, hq]
    rintro rfl
    rw [hi.fresh s.nextCall le_rfl] at hq
    cases hq

theorem Inv.lt_nextCall (hi : Inv disk s) (hget : s.calls.get id = some r) : id < s.nextCall := by
  by_contra hle
  rw [hi.fresh id (not_lt.1 hle)] at hget
  cases hget

theorem Inv.issue {before : CertificateStatus} {next : StoredCertificate} (hi : Inv disk s)
    (hget : s.calls.get id = some r) :
    Inv disk { s with
      calls := s.calls.set id { r with
        phase := .writing before
        issued := some next
        writers := fun file =>
          if file = .chain then r.writers file else Writer.start (body next file) }
      issued := s.issued ++ [next] } := by
  have hstart : ∀ file ≠ File.chain,
      (if file = File.chain then r.writers file else Writer.start (body next file))
        = Writer.start (body next file) := fun file hfile => if_neg hfile
  refine hi.place _ ?_ ?_ (fun hne => absurd rfl (hne before)) (hi.lt_nextCall hget) le_rfl ?_
  · intro file hfile
    simp only [hstart file hfile]
    rfl
  · intro file hfile
    simp only [hstart file hfile]
    trivial
  · refine .inr ⟨next, List.mem_append_right _ List.mem_cons_self, fun file hfile => .inl ?_⟩
    refine ⟨id, _, OrdMap.get_set_self _ _ _, ?_, ?_⟩
    · simp only [hstart file hfile]
      rfl
    · simp only [hstart file hfile]
      rfl

section Moved

variable {file : File} {now : ℤ} {count : ℕ} {w : Writer} {t : Target ℤ Char}

theorem Inv.apart_from (hi : Inv disk s) (hget : s.calls.get id = some r)
    (hc : InTurn chainPath disk s (.file id file now count)) (hfile : file ≠ .chain) {id' : ℕ}
    {q : Renewal} (hid : id' ≠ id) (hq : s.calls.get id' = some q)
    (hh : (q.writers file).holding = true)
    (hor : (r.writers file).holding = true ∨ (r.writers file).stage = .opening) :
    (q.writers file).time ≠ (r.writers file).time := by
  intro htime
  rcases hor with hheld | hopening
  · exact hid (hi.apart id' id q r hq hget file hfile hh hheld htime)
  · exact (hc hfile r hget).1 hopening id' q hq hid hh htime

theorem Inv.sound_moved (hi : Inv disk s) (hget : s.calls.get id = some r)
    (hw : (r.writers file).step now count (s.targets file) = some (w, t)) :
    ∀ f ≠ File.chain,
      (Function.update r.writers file w f).Sound (Function.update s.targets file t f) := by
  intro f hf
  have hr := hi.sound id r hget f hf
  by_cases hff : f = file
  · subst hff
    rw [Function.update_self, Function.update_self]
    exact (hr.step hw).1
  · rw [Function.update_of_ne hff, Function.update_of_ne hff]
    exact hr

theorem Inv.sound_other (hi : Inv disk s) (hget : s.calls.get id = some r)
    (hc : InTurn chainPath disk s (.file id file now count))
    (hw : (r.writers file).step now count (s.targets file) = some (w, t)) {id' : ℕ} {q : Renewal}
    (hid : id' ≠ id) (hq : s.calls.get id' = some q) :
    ∀ f ≠ File.chain, (q.writers f).Sound (Function.update s.targets file t f) := by
  intro f hf
  have hother := hi.sound id' q hq f hf
  by_cases hff : f = file
  · subst hff
    rw [Function.update_self]
    exact hother.other (hi.sound id r hget f hf) hw (hi.apart_from hget hc hf hid hq)
  · rw [Function.update_of_ne hff]
    exact hother

theorem Inv.apart_moved (hi : Inv disk s) (hget : s.calls.get id = some r)
    (hc : InTurn chainPath disk s (.file id file now count))
    (hw : (r.writers file).step now count (s.targets file) = some (w, t)) {i : ℕ} {q : Renewal}
    (hne : i ≠ id) (hq : s.calls.get i = some q) :
    ∀ f ≠ File.chain, (q.writers f).holding = true →
      (Function.update r.writers file w f).holding = true →
      (q.writers f).time ≠ (Function.update r.writers file w f).time := by
  intro f hf hh hh'
  by_cases hff : f = file
  · subst hff
    rw [Function.update_self] at hh' ⊢
    obtain ⟨hor, htime⟩ := Writer.step_holding hw hh'
    rw [htime]
    exact hi.apart_from hget hc hf hne hq hh hor
  · rw [Function.update_of_ne hff] at hh' ⊢
    exact fun htime => hne (hi.apart i id q r hq hget f hf hh hh' htime)

theorem Inv.resting_moved (hi : Inv disk s) (hget : s.calls.get id = some r)
    (hw : (r.writers file).step now count (s.targets file) = some (w, t))
    (hphase : ∀ before,
      (settle chainPath { r with writers := Function.update r.writers file w }).phase
        ≠ .writing before) :
    ∀ f ≠ File.chain, (Function.update r.writers file w f).pending = false := by
  intro f hf
  by_cases hwriting : ∃ before, r.phase = .writing before
  · have hwritten := settle_phase (r := { r with writers := Function.update r.writers file w })
      (fun f hf => (hi.sound_moved hget hw f hf).not_failed) hwriting hphase hf
    rw [Writer.pending, hwritten]
  · have hrest := hi.resting id r hget (fun before hb => hwriting ⟨before, hb⟩) f hf
    by_cases hff : f = file
    · subst hff
      rw [Function.update_self]
      have hne : (r.writers f).stage ≠ .renaming := by
        intro hstage
        rw [Writer.pending, hstage] at hrest
        cases hrest
      rw [(((hi.sound id r hget f hf).step hw).2.2.2 hne).1, hrest]
    · rw [Function.update_of_ne hff, hrest]

theorem Inv.kept (hi : Inv disk s) (hget : s.calls.get id = some r)
    (hw : (r.writers file).step now count (s.targets file) = some (w, t))
    (hrename : ¬ (file ≠ .chain ∧ (r.writers file).stage = .renaming)) :
    ∀ f ≠ File.chain,
      (Function.update r.writers file w f).pending = (r.writers f).pending
        ∧ (Function.update r.writers file w f).content = (r.writers f).content
        ∧ (Function.update s.targets file t f).read = (s.targets f).read := by
  intro f hf
  by_cases hff : f = file
  · subst hff
    obtain ⟨-, hcontent, -, hother⟩ := (hi.sound id r hget f hf).step hw
    obtain ⟨hpending, hread⟩ := hother fun hstage => hrename ⟨hf, hstage⟩
    simp only [Function.update_self]
    exact ⟨hpending, hcontent, hread⟩
  · simp only [Function.update_of_ne hff, and_self]

theorem Inv.moved (hi : Inv disk s) (hget : s.calls.get id = some r)
    (hc : InTurn chainPath disk s (.file id file now count))
    (hs : fileStep chainPath file now count id r s = some s') : Inv disk s' := by
  have hstep : Renewals.step chainPath s (.file id file now count) = some s' := by
    rw [Renewals.step, hget]
    exact hs
  obtain ⟨⟨w, t⟩, hw, rfl⟩ := Option.map_eq_some_iff.1 hs
  clear hs
  have hwriters : ∀ f ≠ File.chain,
      (settle chainPath { r with writers := Function.update r.writers file w }).writers f
        = Function.update r.writers file w f := fun f hf => settle_writers _ _ hf
  refine ⟨?_, ?_, ?_, ?_, ?_⟩
  · intro id' q hq f hf
    rcases OrdMap.of_get_set hq with ⟨-, rfl⟩ | ⟨hid, hq₀⟩
    · rw [hwriters f hf]
      exact hi.sound_moved hget hw f hf
    · exact hi.sound_other hget hc hw hid hq₀ f hf
  · intro i j q q' hq hq' f hf hh hh' htime
    rcases OrdMap.of_get_set hq with ⟨hi₀, rfl⟩ | ⟨hne, hq₀⟩ <;>
      rcases OrdMap.of_get_set hq' with ⟨hj₀, rfl⟩ | ⟨hne', hq₀'⟩
    · exact hi₀.trans hj₀.symm
    · rw [hwriters f hf] at hh htime
      exact absurd htime.symm (hi.apart_moved hget hc hw hne' hq₀' f hf hh' hh)
    · rw [hwriters f hf] at hh' htime
      exact absurd htime (hi.apart_moved hget hc hw hne hq₀ f hf hh hh')
    · exact hi.apart i j q q' hq₀ hq₀' f hf hh hh' htime
  · intro id' q hq hphase f hf
    rcases OrdMap.of_get_set hq with ⟨-, rfl⟩ | ⟨-, hq⟩
    · rw [hwriters f hf]
      exact hi.resting_moved hget hw hphase f hf
    · exact hi.resting id' q hq hphase f hf
  · intro id' hid'
    rw [OrdMap.get_set_of_ne _ _ (hi.lt_nextCall hget |>.trans_le hid').ne']
    exact hi.fresh id' hid'
  · by_cases hrename : file ≠ .chain ∧ (r.writers file).stage = .renaming
    · exact (hc hrename.1 r hget).2 hrename.2 _ hstep
    · have hkept := hi.kept hget hw hrename
      refine hi.matching.congr (fun f hf text => ?_) (fun f hf => (hkept f hf).2.2) fun _ h => h
      refine pending_set hget ?_ ?_ rfl
      · rw [hwriters f hf]
        exact (hkept f hf).1
      · rw [hwriters f hf]
        exact (hkept f hf).2.1

end Moved

theorem Inv.step (hi : Inv disk s) (hc : InTurn chainPath disk s a)
    (hs : step chainPath s a = some s') : Inv disk s' := by
  cases a with
  | checkOnce =>
    obtain rfl := Option.some.inj hs
    exact hi.checkOnce
  | status id result =>
    obtain ⟨r, hget, hs⟩ := Option.bind_eq_some_iff.1 hs
    obtain ⟨r', hr', rfl⟩ := Option.map_eq_some_iff.1 hs
    obtain ⟨hphase, hwriters⟩ := status_spec hr'
    exact hi.set hget (fun file _ => by rw [hwriters]) hphase s.issued fun _ h => h
  | issue id result =>
    obtain ⟨r, hget, hs⟩ := Option.bind_eq_some_iff.1 hs
    obtain ⟨r', hr', rfl⟩ := Option.map_eq_some_iff.1 hs
    obtain ⟨hphase, ⟨error, rfl, hwriters⟩ | ⟨before, next, rfl, rfl⟩⟩ := issue_spec hr'
    · exact hi.set hget (fun file _ => by rw [hwriters]) hphase _ fun _ h =>
        List.mem_append_left _ h
    · exact hi.issue hget
  | file id file now count =>
    obtain ⟨r, hget, hs⟩ := Option.bind_eq_some_iff.1 hs
    exact hi.moved hget hc hs
  | alert id throws =>
    obtain ⟨r, hget, hs⟩ := Option.bind_eq_some_iff.1 hs
    obtain ⟨r', hr', rfl⟩ := Option.map_eq_some_iff.1 hs
    obtain ⟨hphase, hwriters⟩ := alert_spec hr'
    exact hi.set hget (fun file _ => by rw [hwriters]) hphase s.issued fun _ h => h

end Runs

section Cases

def certificateA : StoredCertificate := ⟨"certificate A", "key A", none⟩

def certificateB : StoredCertificate := ⟨"certificate B", "key B", none⟩

/-- Two calls find no certificate, and each is issued one. -/
def bothIssued : List Action :=
  let missing : CertificateStatus :=
    { «exists» := false, expiresAt := none, daysRemaining := none, shouldRenew := true,
      emergency := true }
  [.checkOnce, .checkOnce, .status 0 (.ok missing), .status 1 (.ok missing),
    .issue 0 (.ok certificateA), .issue 1 (.ok certificateB)]

/-- A call writes a temporary file, as far as its rename. -/
def writes (id : ℕ) (file : File) (now : ℤ) : List Action := List.replicate 5 (.file id file now 99)

/-- A call ends, with its files in place. -/
def ends (id : ℕ) : List Action :=
  let renewed : CertificateStatus :=
    { «exists» := true, expiresAt := none, daysRemaining := none, shouldRenew := false,
      emergency := false }
  [.status id (.ok renewed), .alert id none]

/-- What a state is tested for: no call is in progress, and the files hold these texts. -/
def holds (cert key : String) (s : State) : Bool :=
  s.calls.entries.all (fun e => e.2.ended) && (s.targets .cert).read = some cert.toList
    && (s.targets .key).read = some key.toList && s.issued = [certificateA, certificateB]

theorem not_paired_of_holds {cert key : String} (hh : holds cert key s = true)
    (hne : ∀ next ∈ [certificateA, certificateB], cert = body next .cert → key ≠ body next .key) :
    Quiet s ∧ ¬ Paired (fun _ => none) s := by
  simp only [holds, Bool.and_eq_true, List.all_eq_true, decide_eq_true_eq] at hh
  obtain ⟨⟨⟨hquiet, hc⟩, hk⟩, hissued⟩ := hh
  refine ⟨fun id r hget => hquiet (id, r) (OrdMap.mem_entries_iff.2 hget), ?_⟩
  rintro (hold | ⟨next, hnext, hpair⟩)
  · have hnone := hold .cert (by decide)
    rw [hc] at hnone
    cases hnone
  · have hpc := hpair .cert (by decide)
    have hpk := hpair .key (by decide)
    rw [hc, Option.some.injEq, String.toList_inj] at hpc
    rw [hk, Option.some.injEq, String.toList_inj] at hpk
    exact hne next (hissued ▸ hnext) hpc hpk

/-- Two renewals open the temporary file of one millisecond: the one that renames it puts the text of
the other in place, and the other finds nothing to rename, so that its key is not replaced. -/
theorem pair_mixed_same_time : ∃ h s, Run (sys false fun _ => none) h s ∧ Quiet s
    ∧ ¬ Paired (fun _ => none) s := by
  obtain ⟨h, s, hr, hp⟩ := Sys.exists_run (S := sys false fun _ => none) rfl
    (bothIssued ++ writes 0 .key 1 ++ [.file 0 .key 0 0, .file 0 .key 0 0]
      ++ [.file 0 .cert 1 0, .file 1 .cert 1 0, .file 0 .cert 0 0, .file 1 .cert 0 0]
      ++ List.replicate 3 (.file 0 .cert 0 99) ++ List.replicate 3 (.file 1 .cert 0 99)
      ++ [.file 0 .cert 0 0, .file 0 .cert 0 0, .file 1 .cert 0 0]
      ++ ends 0 ++ [.status 1 (.error "none"), .alert 1 none])
    (p := fun x => holds "certificate B\n" "key A\n" x.2) (by decide +kernel)
  obtain ⟨hquiet, hpaired⟩ := not_paired_of_holds hp (by decide)
  exact ⟨h, s, hr, hquiet, hpaired⟩

theorem pending_iff {file : File} {text : Option (List Char)} :
    Pending s file text ↔ ∃ e ∈ s.calls.entries, (e.2.writers file).pending = true
      ∧ some (e.2.writers file).content = text := by
  constructor
  · rintro ⟨id, r, hget, hp⟩
    exact ⟨(id, r), OrdMap.mem_entries_iff.2 hget, hp⟩
  · rintro ⟨e, he, hp⟩
    exact ⟨e.1, e.2, OrdMap.mem_entries_iff.1 he, hp⟩

theorem not_pending_iff {file : File} :
    (∀ text, ¬ Pending s file text) ↔ ∀ e ∈ s.calls.entries, (e.2.writers file).pending = false := by
  simp only [pending_iff]
  constructor
  · intro h e he
    by_contra hp
    exact h _ ⟨e, he, by simpa using hp, rfl⟩
  · rintro h text ⟨e, he, hp, -⟩
    rw [h e he] at hp
    cases hp

theorem matching_iff : Matching disk s ↔
    (Possible s .cert ((disk .cert).map String.toList)
        ∧ Possible s .key ((disk .key).map String.toList))
      ∨ ∃ next ∈ s.issued, Possible s .cert (some (body next .cert).toList)
        ∧ Possible s .key (some (body next .key).toList) := by
  have hboth : ∀ P : File → Prop, (∀ file ≠ File.chain, P file) ↔ P .cert ∧ P .key := by
    intro P
    constructor
    · exact fun h => ⟨h .cert (by decide), h .key (by decide)⟩
    · rintro ⟨hcert, hkey⟩ file hfile
      cases file with
      | cert => exact hcert
      | key => exact hkey
      | chain => exact absurd rfl hfile
  simp only [Matching, hboth]

theorem alone_iff {id : ℕ} {file : File} {time : ℤ} : Alone s id file time ↔
    ∀ e ∈ s.calls.entries, e.1 ≠ id → (e.2.writers file).holding = true →
      (e.2.writers file).time ≠ time := by
  constructor
  · exact fun h e he => h e.1 e.2 (OrdMap.mem_entries_iff.1 he)
  · exact fun h id' r' hget => h (id', r') (OrdMap.mem_entries_iff.2 hget)

instance (s : State) (file : File) (text : Option (List Char)) : Decidable (Pending s file text) :=
  decidable_of_iff _ pending_iff.symm

instance (s : State) (file : File) : Decidable (∀ text, ¬ Pending s file text) :=
  decidable_of_iff _ not_pending_iff.symm

instance (s : State) (file : File) (text : Option (List Char)) : Decidable (Possible s file text) :=
  inferInstanceAs (Decidable (_ ∨ _ ∧ _))

instance (disk : Disk) (s : State) : Decidable (Matching disk s) :=
  decidable_of_iff _ matching_iff.symm

instance (s : State) (id : ℕ) (file : File) (time : ℤ) : Decidable (Alone s id file time) :=
  decidable_of_iff _ alone_iff.symm

instance (chainPath : Bool) (disk : Disk) (s : State) : ∀ a, Decidable (InTurn chainPath disk s a)
  | .file id file now count => inferInstanceAs (Decidable (file ≠ .chain →
      ∀ r ∈ s.calls.get id,
        ((r.writers file).stage = .opening → Alone s id file (r.writers file).time)
          ∧ ((r.writers file).stage = .renaming →
            ∀ s' ∈ step chainPath s (.file id file now count), Matching disk s')))
  | .checkOnce => isTrue trivial
  | .status _ _ => isTrue trivial
  | .issue _ _ => isTrue trivial
  | .alert _ _ => isTrue trivial

end Cases

end Renewals

end Tls

end VeriNode
