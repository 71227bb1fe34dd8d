import VeriNode.Tls.AcmeRotation

/-!
# Renewals and the pair on the disk

Each file is replaced by one rename, but the two files by two, and what follows the renames may still
throw. The certificate and the key are one pair along the runs that rename neither while both are to
change, and in which nothing throws once the pair is another one.
-/

namespace VeriNode

namespace Tls

section Pair

/-- The certificate and the key. -/
def pairOf (disk : Disk) : Option String × Option String := (disk .cert, disk .key)

/-- The pair that has been issued. -/
def newPair (next : StoredCertificate) : Option String × Option String :=
  (some (body next .cert), some (body next .key))

/-- What the claim to be all or nothing says of a state. -/
structure AllOrNothing (s : State) : Prop where
  pair : pairOf s.disk = pairOf s.old ∨ ∃ next, s.issued = some next ∧ pairOf s.disk = newPair next
  resolved : ∀ result, s.phase = .resolved result →
    (result.renewed = true ↔ ∃ next, s.issued = some next ∧ pairOf s.disk = newPair next)
      ∧ (result.renewed = false → pairOf s.disk = pairOf s.old)

/-- The pair is the old one, and what has been issued is another. -/
def unchanged (s : State) : Bool :=
  pairOf s.disk = pairOf s.old && s.issued.all fun next => pairOf s.disk ≠ newPair next

/-- What is issued has the certificate or the key of the old pair. -/
def half (s : State) : Bool :=
  s.issued.any fun next => s.old .cert = some (body next .cert) ∨ s.old .key = some (body next .key)

/-- The block that renews is being executed, past the issuer. -/
def Phase.trying : Phase → Bool
  | .writing _ | .chaining _ | .confirming _ | .announcing _ _ => true
  | _ => false

def Stage.isFailed : Stage → Bool
  | .failed _ => true
  | _ => false

/-- Whether the step throws in the block that renews. -/
def throws (o : Options) (s : State) : Action → Bool
  | .status fault now metricThrows => !(checked o s fault now metricThrows).isOk
  | .issue _ => false
  | .file file outcome => ((s.writers file).advance outcome).any (·.stage.isFailed)
  | .alert throws => throws.isSome

/-- Whether the step renames the certificate or the key. -/
def renames (s : State) : Action → Bool
  | .file file .ok => (s.writers file).stage = .renaming && file ≠ .chain
  | _ => false

/-- A condition on a step: nothing throws once the pair is another one, or when there is no other;
while the block is being executed neither file is renamed if both are to change, and afterwards no
rename changes its file. -/
def keepsPair (o : Options) (s : State) (a : Action) : Bool :=
  (!(s.phase.trying && throws o s a) || unchanged s)
    && (!renames s a || if s.phase.trying then half s else
      match a with
      | .file file _ => s.disk file = some (s.writers file).tmp
      | _ => true)

end Pair

section Writers

variable {w w' : Writer} {outcome : Outcome} {file : File} {disk : Disk}

/-- The temporary file is whole before it is renamed. -/
def Writer.Whole (w : Writer) : Prop :=
  w.stage = .syncing ∨ w.stage = .closing none ∨ w.stage = .renaming → w.tmp = w.content

/-- The file has been replaced. -/
def Writer.placed (w : Writer) : Bool := w.stage = .chmodding || w.stage = .written

/-- A writer goes on to its next call, or has failed. -/
inductive Advanced (w : Writer) : Outcome → Writer → Prop
  | made (hs : w.stage = .making) : Advanced w .ok { w with stage := .opening }
  | opened (hs : w.stage = .opening) : Advanced w .ok { w with stage := .writing, tmp := "" }
  | filled (hs : w.stage = .writing) :
      Advanced w .ok { w with stage := .syncing, tmp := w.content }
  | synced (hs : w.stage = .syncing) : Advanced w .ok { w with stage := .closing none }
  | closed (hs : w.stage = .closing none) : Advanced w .ok { w with stage := .renaming }
  | closedAfter {error : String} (hs : w.stage = .closing (some error)) :
      Advanced w .ok { w with stage := .failed error }
  | renamed (hs : w.stage = .renaming) : Advanced w .ok { w with stage := .chmodding }
  | moded (hs : w.stage = .chmodding) : Advanced w .ok { w with stage := .written }
  | torn {error left : String} (hs : w.stage = .writing) :
      Advanced w (.fail error left) { w with stage := .closing (some error), tmp := left }
  | unsynced {error left : String} (hs : w.stage = .syncing) :
      Advanced w (.fail error left) { w with stage := .closing (some error) }
  | stopped {error left : String} (hs : w.stage = .making ∨ w.stage = .opening ∨
      (∃ e, w.stage = .closing e) ∨ w.stage = .renaming ∨ w.stage = .chmodding) :
      Advanced w (.fail error left) { w with stage := .failed error }

theorem advanced_of_advance (h : w.advance outcome = some w') : Advanced w outcome w' := by
  obtain ⟨stage, content, tmp⟩ := w
  cases outcome with
  | ok =>
    rcases stage with _ | _ | _ | _ | _ | (_ | error) | _ | _ | _ | _ <;>
      simp only [Writer.advance, Option.some.injEq, reduceCtorEq] at h <;> subst h
    · exact .made rfl
    · exact .opened rfl
    · exact .filled rfl
    · exact .synced rfl
    · exact .closed rfl
    · exact .closedAfter rfl
    · exact .renamed rfl
    · exact .moded rfl
  | fail error left =>
    rcases stage with _ | _ | _ | _ | _ | e | _ | _ | _ | _ <;>
      simp only [Writer.advance, Option.some.injEq, reduceCtorEq] at h <;> subst h
    · exact .stopped (.inl rfl)
    · exact .stopped (.inr (.inl rfl))
    · exact .torn rfl
    · exact .unsynced rfl
    · exact .stopped (.inr (.inr (.inl ⟨e, rfl⟩)))
    · exact .stopped (.inr (.inr (.inr (.inl rfl))))
    · exact .stopped (.inr (.inr (.inr (.inr rfl))))

theorem advance_content (h : w.advance outcome = some w') : w'.content = w.content := by
  cases advanced_of_advance h <;> rfl

theorem advance_whole (hw : w.Whole) (h : w.advance outcome = some w') : w'.Whole := by
  unfold Writer.Whole at hw ⊢
  cases advanced_of_advance h <;> simp_all

theorem advance_not_idle (h : w.advance outcome = some w') : w.stage ≠ .idle ∧ w'.stage ≠ .idle := by
  cases advanced_of_advance h with
  | stopped hs => exact ⟨by rintro he; simp [he] at hs, by simp⟩
  | _ hs => exact ⟨by simp [hs], by simp⟩

theorem advance_active (h : w.advance outcome = some w') :
    w.stage ≠ .written ∧ ∀ e, w.stage ≠ .failed e := by
  cases advanced_of_advance h with
  | stopped hs =>
    refine ⟨?_, ?_⟩
    · intro he
      simp [he] at hs
    · intro e he
      simp [he] at hs
  | _ hs => exact ⟨by simp [hs], by simp [hs]⟩

theorem advance_placed (h : w.advance outcome = some w') (hf : w'.stage.isFailed = false) :
    w'.placed = true ↔ w.placed = true ∨ w.stage = .renaming ∧ outcome = .ok := by
  unfold Writer.placed
  cases advanced_of_advance h with
  | stopped hs => cases hf
  | closedAfter hs => cases hf
  | _ hs => simp [hs]

theorem place_of_failed (h : w.advance outcome = some w') (hf : w'.stage.isFailed = true) :
    w.place outcome file disk = disk := by
  unfold Writer.place
  rw [if_neg]
  rintro ⟨hrenaming, rfl⟩
  cases advanced_of_advance h with
  | closedAfter hs => simp [hrenaming] at hs
  | _ hs => cases hf

theorem place_of_ne {file' : File} (hne : file' ≠ file) :
    w.place outcome file disk file' = disk file' := by
  unfold Writer.place
  split_ifs
  · exact Function.update_of_ne hne _ _
  · rfl

theorem place_self : w.place outcome file disk file
    = if w.stage = .renaming ∧ outcome = .ok then some w.tmp else disk file := by
  unfold Writer.place
  split_ifs
  · exact Function.update_self ..
  · rfl

end Writers

section Invariant

/-- Both files have been replaced by what was issued. -/
def Renewed (s : State) : Prop :=
  ∃ next, s.issued = some next ∧ pairOf s.disk = newPair next
    ∧ ∀ file, file ≠ .chain → (s.writers file).stage = .written

/-- What holds where `checkOnce` stands. -/
def AtPhase (s : State) : Prop :=
  match s.phase with
  | .checking | .issuing _ =>
    pairOf s.disk = pairOf s.old ∧ s.issued = none ∧ ∀ file, (s.writers file).stage = .idle
  | .writing _ =>
    (∃ next, s.issued = some next ∧ ∀ file, file ≠ .chain →
      (s.writers file).stage ≠ .idle ∧ (s.writers file).stage.isFailed = false
      ∧ s.disk file = (if (s.writers file).placed then some (body next file) else s.old file)
      ∧ ((s.writers file).placed = true → half s = true))
    ∧ (s.writers .chain).stage = .idle
  | .chaining _ | .confirming _ | .announcing _ _ => Renewed s
  | .recovering _ _ | .reporting _ _ | .rejected _ => unchanged s = true
  | .resolved result => if result.renewed then Renewed s else unchanged s = true

structure Consistent (s : State) : Prop where
  whole : ∀ file, (s.writers file).Whole
  content : ∀ file, file ≠ .chain → (s.writers file).stage ≠ .idle →
    ∃ next, s.issued = some next ∧ (s.writers file).content = body next file
  phase : AtPhase s

variable {o : Options} {s s' : State} {a : Action} {file : File} {outcome : Outcome} {w : Writer}

theorem unchanged_iff : unchanged s = true ↔ pairOf s.disk = pairOf s.old
    ∧ ∀ next, s.issued = some next → pairOf s.disk ≠ newPair next := by
  unfold unchanged
  rw [Bool.and_eq_true, decide_eq_true_eq]
  refine and_congr_right fun _ => ?_
  cases s.issued <;> simp

theorem Consistent.allOrNothing (h : Consistent s) : AllOrNothing s := by
  have hunchanged : unchanged s = true → pairOf s.disk = pairOf s.old := fun hu =>
    (unchanged_iff.1 hu).1
  have hphase := h.phase
  unfold AtPhase at hphase
  refine ⟨?_, fun result hres => ?_⟩
  · split at hphase
    · exact .inl hphase.1
    · exact .inl hphase.1
    · obtain ⟨⟨next, hissued, hfiles⟩, -⟩ := hphase
      obtain ⟨-, -, hcert, hcerthalf⟩ := hfiles .cert nofun
      obtain ⟨-, -, hkey, hkeyhalf⟩ := hfiles .key nofun
      have hhalf : half s = true →
          s.old .cert = some (body next .cert) ∨ s.old .key = some (body next .key) := fun hh => by
        simpa [half, hissued] using hh
      unfold pairOf newPair
      simp only [hissued, Option.some.injEq, exists_eq_left', Prod.mk.injEq, hcert, hkey]
      grind
    · exact .inr (hphase.imp fun _ hn => ⟨hn.1, hn.2.1⟩)
    · exact .inr (hphase.imp fun _ hn => ⟨hn.1, hn.2.1⟩)
    · exact .inr (hphase.imp fun _ hn => ⟨hn.1, hn.2.1⟩)
    · exact .inl (hunchanged hphase)
    · exact .inl (hunchanged hphase)
    · exact .inl (hunchanged hphase)
    · split_ifs at hphase
      · exact .inr (hphase.imp fun _ hn => ⟨hn.1, hn.2.1⟩)
      · exact .inl (hunchanged hphase)
  · rw [hres] at hphase
    simp only at hphase
    split_ifs at hphase with hr
    · exact ⟨iff_of_true hr (hphase.imp fun _ hn => ⟨hn.1, hn.2.1⟩), fun hf => by simp [hr] at hf⟩
    · obtain ⟨hpair, hnew⟩ := unchanged_iff.1 hphase
      exact ⟨iff_of_false hr fun ⟨next, hi, hp⟩ => hnew next hi hp, fun _ => hpair⟩

theorem pairOf_place (h : file = .chain ∨ ¬((s.writers file).stage = .renaming ∧ outcome = .ok)
      ∨ s.disk file = some (s.writers file).tmp) :
    pairOf ((s.writers file).place outcome file s.disk) = pairOf s.disk := by
  rcases h with rfl | hnot | hsame
  · simp only [pairOf, place_of_ne (show File.cert ≠ .chain by decide),
      place_of_ne (show File.key ≠ .chain by decide)]
  · rw [Writer.place, if_neg hnot]
  · unfold Writer.place
    split_ifs
    · rw [← hsame, Function.update_eq_self]
    · rfl

theorem unchanged_congr (hdisk : pairOf s'.disk = pairOf s.disk) (hissued : s'.issued = s.issued)
    (hold : s'.old = s.old) : unchanged s' = unchanged s := by
  unfold unchanged
  rw [hdisk, hissued, hold]

/-- The state a writer's step leads to, before anything waits for it. -/
def moved (s : State) (file : File) (outcome : Outcome) (w : Writer) : State :=
  { s with disk := (s.writers file).place outcome file s.disk
           writers := Function.update s.writers file w }

theorem whole_moved (hs : Consistent s) (h : (s.writers file).advance outcome = some w)
    (f : File) : ((moved s file outcome w).writers f).Whole := by
  by_cases hf : f = file
  · subst hf
    simp only [moved, Function.update_self]
    exact advance_whole (hs.whole f) h
  · simp only [moved, Function.update_of_ne hf]
    exact hs.whole f

theorem content_moved (hs : Consistent s) (h : (s.writers file).advance outcome = some w)
    {f : File} (hne : f ≠ .chain) (hidle : ((moved s file outcome w).writers f).stage ≠ .idle) :
    ∃ next, s.issued = some next
      ∧ ((moved s file outcome w).writers f).content = body next f := by
  by_cases hf : f = file
  · subst hf
    simp only [moved, Function.update_self]
    rw [advance_content h]
    exact hs.content f hne (advance_not_idle h).1
  · simp only [moved, Function.update_of_ne hf] at hidle ⊢
    exact hs.content f hne hidle

theorem settle_of_not_writing (hw : ∀ before, s.phase ≠ .writing before)
    (hc : ∀ before, s.phase ≠ .chaining before) : settle o s = s := by
  unfold settle
  split
  · exact absurd ‹_› (hw _)
  · exact absurd ‹_› (hc _)
  · rfl

theorem settle_frame (s : State) : (settle o s).disk = s.disk ∧ (settle o s).issued = s.issued
    ∧ (settle o s).old = s.old ∧ ∀ f, f ≠ .chain → (settle o s).writers f = s.writers f := by
  unfold settle
  split
  · split
    · exact ⟨rfl, rfl, rfl, fun _ _ => rfl⟩
    · exact ⟨rfl, rfl, rfl, fun _ _ => rfl⟩
    · split
      · exact ⟨rfl, rfl, rfl, fun f hf => Function.update_of_ne hf _ _⟩
      · exact ⟨rfl, rfl, rfl, fun _ _ => rfl⟩
    · exact ⟨rfl, rfl, rfl, fun _ _ => rfl⟩
  · split <;> exact ⟨rfl, rfl, rfl, fun _ _ => rfl⟩
  · exact ⟨rfl, rfl, rfl, fun _ _ => rfl⟩

theorem whole_settle (h : (s.writers .chain).Whole) : ((settle o s).writers .chain).Whole := by
  unfold settle
  split
  · split
    · exact h
    · exact h
    · split
      · simp only [Function.update_self, Writer.Whole, Writer.start]
        simp
      · exact h
    · exact h
  · split <;> exact h
  · exact h

theorem atPhase_settle_failed {before : CertificateStatus} (error : String)
    (hphase : s.phase = .writing before) (hu : unchanged s = true)
    (hfailed : (s.writers .cert).stage = .failed error ∨ (s.writers .key).stage = .failed error) :
    AtPhase (settle o s) := by
  have hrecovering : ∃ error before, (settle o s).phase = .recovering error before := by
    unfold settle
    rw [hphase]
    simp only
    split
    · exact ⟨_, _, rfl⟩
    · exact ⟨_, _, rfl⟩
    · simp_all
    · simp_all
  obtain ⟨error, before, hr⟩ := hrecovering
  obtain ⟨hdisk, hissued, hold, -⟩ := settle_frame (o := o) s
  unfold AtPhase
  rw [hr]
  exact (unchanged_congr (congrArg pairOf hdisk) hissued hold).trans hu

theorem Renewed.settle (h : Renewed s) : Renewed (settle o s) := by
  obtain ⟨next, hissued, hpair, hwritten⟩ := h
  obtain ⟨hdisk, hissued', -, hwriters⟩ := settle_frame (o := o) s
  exact ⟨next, hissued'.trans hissued, hdisk ▸ hpair, fun f hf => hwriters f hf ▸ hwritten f hf⟩

theorem atPhase_settle_writing {before : CertificateStatus} (hphase : s.phase = .writing before)
    (hs : AtPhase s) : AtPhase (settle o s) := by
  have hat := hs
  unfold AtPhase at hat
  rw [hphase] at hat
  obtain ⟨⟨next, hissued, hfiles⟩, -⟩ := hat
  obtain ⟨-, hcf, hcd, -⟩ := hfiles .cert nofun
  obtain ⟨-, hkf, hkd, -⟩ := hfiles .key nofun
  by_cases hboth : (s.writers .cert).stage = .written ∧ (s.writers .key).stage = .written
  · have hrenewed : Renewed s := by
      refine ⟨next, hissued, ?_, fun f hf => ?_⟩
      · simp [pairOf, newPair, hcd, hkd, Writer.placed, hboth]
      · cases f with
        | cert => exact hboth.1
        | key => exact hboth.2
        | chain => exact absurd rfl hf
    have hnext : (∃ before, (settle o s).phase = .chaining before)
        ∨ ∃ before, (settle o s).phase = .confirming before := by
      unfold settle
      rw [hphase, hboth.1, hboth.2]
      simp only
      split
      · exact .inl ⟨_, rfl⟩
      · exact .inr ⟨_, rfl⟩
    unfold AtPhase
    rcases hnext with ⟨b, hb⟩ | ⟨b, hb⟩ <;> rw [hb] <;> exact hrenewed.settle
  · have hsame : settle o s = s := by
      unfold settle
      rw [hphase]
      simp only
      split
      · simp_all [Stage.isFailed]
      · simp_all [Stage.isFailed]
      · exact absurd ⟨‹_›, ‹_›⟩ hboth
      · rfl
    rw [hsame]
    exact hs

theorem atPhase_moved_writing {before : CertificateStatus} (hs : Consistent s)
    (hphase : s.phase = .writing before) (h : (s.writers file).advance outcome = some w)
    (hf : w.stage.isFailed = false)
    (hhalf : file ≠ .chain → (s.writers file).stage = .renaming ∧ outcome = .ok → half s = true) :
    AtPhase (moved s file outcome w) := by
  have hat := hs.phase
  unfold AtPhase at hat ⊢
  rw [show (moved s file outcome w).phase = .writing before from hphase]
  rw [hphase] at hat
  obtain ⟨⟨next, hissued, hfiles⟩, hchain⟩ := hat
  have hne : file ≠ .chain := by
    rintro rfl
    exact (advance_not_idle h).1 hchain
  refine ⟨⟨next, hissued, fun f hfc => ?_⟩, ?_⟩
  · obtain ⟨hidle, hfail, hdisk, hplaced⟩ := hfiles f hfc
    by_cases he : f = file
    · subst he
      have hpl := advance_placed h hf
      simp only [moved, Function.update_self, place_self]
      refine ⟨(advance_not_idle h).2, hf, ?_, fun hp => ?_⟩
      · by_cases hren : (s.writers f).stage = .renaming ∧ outcome = .ok
        · have htmp := hs.whole f (.inr (.inr hren.1))
          obtain ⟨next', hissued', hcontent⟩ := hs.content f hfc hidle
          obtain rfl : next' = next := Option.some.inj (hissued'.symm.trans hissued)
          rw [if_pos hren, if_pos (hpl.2 (.inr hren)), htmp, hcontent]
        · have hsame : w.placed = (s.writers f).placed := by
            rw [Bool.eq_iff_iff, hpl, or_iff_left hren]
          rw [if_neg hren, hsame, hdisk]
      · exact (hpl.1 hp).elim hplaced (hhalf hfc)
    · simp only [moved, Function.update_of_ne he, place_of_ne he]
      exact ⟨hidle, hfail, hdisk, hplaced⟩
  · simp only [moved, Function.update_of_ne hne.symm]
    exact hchain

theorem pairOf_moved (hk : keepsPair o s (.file file outcome) = true)
    (htry : s.phase.trying = false) :
    pairOf (moved s file outcome w).disk = pairOf s.disk := by
  simp only [keepsPair, Bool.and_eq_true] at hk
  refine pairOf_place ?_
  by_cases hfc : file = .chain
  · exact .inl hfc
  · by_cases hren : (s.writers file).stage = .renaming ∧ outcome = .ok
    · refine .inr (.inr ?_)
      obtain ⟨hren, rfl⟩ := hren
      simpa [renames, hren, hfc, htry] using hk.2
    · exact .inr (.inl hren)

theorem unchanged_moved (hk : keepsPair o s (.file file outcome) = true)
    (htry : s.phase.trying = false) (hu : unchanged s = true) :
    unchanged (moved s file outcome w) = true :=
  (unchanged_congr (pairOf_moved hk htry) rfl rfl).trans hu

theorem renewed_moved (hw : (s.writers file).advance outcome = some w) (hr : Renewed s) :
    file = .chain ∧ Renewed (moved s file outcome w) := by
  obtain ⟨next, hi, hp, hwritten⟩ := hr
  have hfc : file = .chain := by
    by_contra hne
    exact (advance_active hw).1 (hwritten file hne)
  refine ⟨hfc, next, hi, ?_, fun f hf => ?_⟩
  · exact (pairOf_place (.inl hfc)).trans hp
  · simp only [moved, Function.update_of_ne (hfc ▸ hf : f ≠ file)]
    exact hwritten f hf

theorem unchanged_of_failed (hk : keepsPair o s (.file file outcome) = true)
    (hw : (s.writers file).advance outcome = some w) (hf : w.stage.isFailed = true)
    (htry : s.phase.trying = true) : unchanged s = true := by
  simp only [keepsPair, Bool.and_eq_true] at hk
  simpa [htry, throws, hw, hf] using hk.1

theorem atPhase_moved_both {before : CertificateStatus} (hs : Consistent s)
    (hk : keepsPair o s (.file file outcome) = true) (hphase : s.phase = .writing before)
    (hw : (s.writers file).advance outcome = some w) :
    AtPhase (settle o (moved s file outcome w)) := by
  have hmoved : (moved s file outcome w).phase = .writing before := hphase
  have htry : s.phase.trying = true := by rw [hphase]; rfl
  cases hf : w.stage.isFailed with
  | false =>
    refine atPhase_settle_writing hmoved
      (atPhase_moved_writing hs hphase hw hf fun hfc hren => ?_)
    obtain ⟨hren, rfl⟩ := hren
    simp only [keepsPair, Bool.and_eq_true] at hk
    simpa [renames, hren, hfc, htry] using hk.2
  | true =>
    have hsame : (moved s file outcome w).disk = s.disk := place_of_failed hw hf
    have hu : unchanged (moved s file outcome w) = true :=
      (unchanged_congr (s := s) (congrArg pairOf hsame) rfl rfl).trans
        (unchanged_of_failed hk hw hf htry)
    obtain ⟨error, herror⟩ : ∃ error, w.stage = .failed error := by
      cases hstage : w.stage with
      | failed error => exact ⟨error, rfl⟩
      | _ => rw [hstage] at hf; cases hf
    refine atPhase_settle_failed error hmoved hu ?_
    have hat := hs.phase
    unfold AtPhase at hat
    rw [hphase] at hat
    cases file with
    | cert => exact .inl (by simp [moved, herror])
    | key => exact .inr (by simp [moved, herror])
    | chain => exact absurd hat.2 (advance_not_idle hw).1

theorem atPhase_moved_chain {before : CertificateStatus} (hr : Renewed s)
    (hk : keepsPair o s (.file .chain outcome) = true) (hphase : s.phase = .chaining before)
    (hw : (s.writers .chain).advance outcome = some w) :
    AtPhase (settle o (moved s .chain outcome w)) := by
  have hf : ¬ w.stage.isFailed = true := by
    intro hf
    obtain ⟨next, hi, hp, -⟩ := hr
    have hu := unchanged_of_failed hk hw hf (by rw [hphase]; rfl)
    exact (unchanged_iff.1 hu).2 next hi hp
  have hnext : (∃ b, (settle o (moved s .chain outcome w)).phase = .chaining b)
      ∨ ∃ b, (settle o (moved s .chain outcome w)).phase = .confirming b := by
    unfold settle
    rw [show (moved s .chain outcome w).phase = .chaining before from hphase]
    simp only [moved, Function.update_self]
    split
    · simp_all [Stage.isFailed]
    · exact .inr ⟨_, rfl⟩
    · exact .inl ⟨_, hphase⟩
  unfold AtPhase
  rcases hnext with ⟨b, hb⟩ | ⟨b, hb⟩ <;> rw [hb] <;> exact (renewed_moved hw hr).2.settle

/-- A step of a writer keeps what is consistent. -/
theorem consistent_fileStep (hs : Consistent s) (hk : keepsPair o s (.file file outcome) = true)
    (h : fileStep o s file outcome = some s') : Consistent s' := by
  obtain ⟨w, hw, rfl⟩ := Option.map_eq_some_iff.1 h
  change Consistent (settle o (moved s file outcome w))
  obtain ⟨hdisk, hissued, hold, hwriters⟩ := settle_frame (o := o) (moved s file outcome w)
  refine ⟨fun f => ?_, fun f hfc hidle => ?_, ?_⟩
  · by_cases hfc : f = .chain
    · exact hfc ▸ whole_settle (whole_moved hs hw .chain)
    · rw [hwriters f hfc]
      exact whole_moved hs hw f
  · rw [hwriters f hfc] at hidle ⊢
    rw [hissued]
    exact content_moved hs hw hfc hidle
  have hat := hs.phase
  have hsettled : (∀ before, s.phase ≠ .writing before) → (∀ before, s.phase ≠ .chaining before) →
      settle o (moved s file outcome w) = moved s file outcome w := fun hw hc =>
    settle_of_not_writing (s := moved s file outcome w) hw hc
  cases hphase : s.phase with
  | writing before => exact atPhase_moved_both hs hk hphase hw
  | chaining before =>
    have hr : Renewed s := by
      unfold AtPhase at hat
      rw [hphase] at hat
      exact hat
    obtain ⟨rfl, -⟩ := renewed_moved hw hr
    exact atPhase_moved_chain hr hk hphase hw
  | checking | issuing before =>
    unfold AtPhase at hat
    rw [hphase] at hat
    exact absurd (hat.2.2 file) (advance_not_idle hw).1
  | confirming before | announcing before after =>
    rw [hsettled (by simp [hphase]) (by simp [hphase])]
    unfold AtPhase at hat ⊢
    rw [hphase] at hat
    rw [show (moved s file outcome w).phase = _ from hphase]
    exact (renewed_moved hw hat).2
  | recovering error before | reporting error current | rejected error =>
    rw [hsettled (by simp [hphase]) (by simp [hphase])]
    unfold AtPhase at hat ⊢
    rw [hphase] at hat
    rw [show (moved s file outcome w).phase = _ from hphase]
    exact unchanged_moved hk (by rw [hphase]; rfl) hat
  | resolved result =>
    rw [hsettled (by simp [hphase]) (by simp [hphase])]
    unfold AtPhase at hat ⊢
    rw [hphase] at hat
    rw [show (moved s file outcome w).phase = _ from hphase]
    simp only at hat ⊢
    split_ifs at hat ⊢
    · exact (renewed_moved hw hat).2
    · exact unchanged_moved hk (by rw [hphase]; rfl) hat

theorem Consistent.goTo {phase : Phase} {alerts : List RenewalAlert} (hs : Consistent s)
    (h : AtPhase { s with phase := phase, alerts := alerts }) :
    Consistent { s with phase := phase, alerts := alerts } :=
  ⟨hs.whole, hs.content, h⟩

theorem unchanged_of_unissued (hpair : pairOf s.disk = pairOf s.old) (hissued : s.issued = none) :
    unchanged s = true :=
  unchanged_iff.2 ⟨hpair, fun _ hi => nomatch hissued.symm.trans hi⟩

theorem unchanged_of_throws (hk : keepsPair o s a = true) (htry : s.phase.trying = true)
    (h : throws o s a = true) : unchanged s = true := by
  simp only [keepsPair, Bool.and_eq_true] at hk
  simpa [htry, h] using hk.1

theorem consistent_status {fault : ReadFault} {now : ℤ} {metricThrows : Option String}
    (hs : Consistent s) (hk : keepsPair o s (.status fault now metricThrows) = true)
    (h : step o s (.status fault now metricThrows) = some s') : Consistent s' := by
  have hat := hs.phase
  unfold AtPhase at hat
  simp only [step] at h
  split at h
  · rename_i hphase
    rw [hphase] at hat
    have hu := unchanged_of_unissued hat.1 hat.2.1
    split at h
    · cases h
      exact hs.goTo hu
    · split_ifs at h
      · cases h
        exact hs.goTo hat
      · cases h
        exact hs.goTo hu
  · rename_i before hphase
    rw [hphase] at hat
    split at h
    · rename_i error hchecked
      cases h
      have hthrows : throws o s (.status fault now metricThrows) = true := by
        simp [throws, hchecked, Except.isOk, Except.toBool]
      have hu : unchanged s = true := unchanged_of_throws hk (by rw [hphase]; rfl) hthrows
      exact hs.goTo hu
    · cases h
      exact hs.goTo hat
  · rename_i error before hphase
    rw [hphase] at hat
    cases h
    exact hs.goTo hat
  · cases h

theorem consistent_issue {result : Except String StoredCertificate} (hs : Consistent s)
    (h : step o s (.issue result) = some s') : Consistent s' := by
  have hat := hs.phase
  unfold AtPhase at hat
  simp only [step] at h
  split at h
  · rename_i before hphase
    rw [hphase] at hat
    obtain ⟨hpair, hissued, hidle⟩ := hat
    cases result with
    | error error =>
      cases h
      exact hs.goTo (unchanged_of_unissued hpair hissued)
    | ok next =>
      cases h
      refine ⟨fun f => ?_, fun f hfc _ => ⟨next, rfl, ?_⟩, ⟨next, rfl, fun f hfc => ?_⟩, ?_⟩
      · by_cases hfc : f = .chain
        · simp only [if_pos hfc]
          exact hs.whole f
        · simp [hfc, Writer.Whole, Writer.start]
      · simp [hfc, Writer.start]
      · have hdisk : s.disk f = s.old f := by
          obtain ⟨hcert, hkey⟩ := Prod.mk.inj hpair
          cases f with
          | cert => exact hcert
          | key => exact hkey
          | chain => exact absurd rfl hfc
        simp [hfc, Writer.start, Writer.placed, Stage.isFailed, hdisk]
      · simpa using hidle .chain
  · cases h

theorem consistent_alert {thrown : Option String} (hs : Consistent s)
    (hk : keepsPair o s (.alert thrown) = true) (h : step o s (.alert thrown) = some s') :
    Consistent s' := by
  have hat := hs.phase
  unfold AtPhase at hat
  simp only [step] at h
  split at h
  · rename_i before after hphase
    rw [hphase] at hat
    cases thrown with
    | some error =>
      cases h
      have hu : unchanged s = true := unchanged_of_throws hk (by rw [hphase]; rfl) rfl
      exact hs.goTo hu
    | none =>
      cases h
      exact hs.goTo hat
  · rename_i error current hphase
    rw [hphase] at hat
    cases thrown <;> cases h <;> exact hs.goTo hat
  · cases h

theorem consistent_step (hs : Consistent s) (hk : keepsPair o s a = true)
    (h : step o s a = some s') : Consistent s' := by
  cases a with
  | status fault now metricThrows => exact consistent_status hs hk h
  | issue result => exact consistent_issue hs h
  | file file outcome => exact consistent_fileStep hs hk h
  | alert thrown => exact consistent_alert hs hk h

theorem consistent_init (h : s = { disk := s.disk, old := s.disk }) : Consistent s := by
  rw [h]
  exact ⟨fun _ => by simp [Writer.Whole], fun _ _ hidle => absurd rfl hidle, rfl, rfl, fun _ => rfl⟩

end Invariant

section Renewals

variable {o : Options} {h : List (Taken State Action)} {s : State}

/-- A renewal is all or nothing along the runs that keep the pair together. -/
theorem renewal_all_or_nothing (hr : Run (sys o) h s)
    (hC : Along (fun s a => keepsPair o s a = true) h) : AllOrNothing s :=
  (hr.invariant_of (P := Consistent) (fun _ => consistent_init)
    (fun _ _ _ hs hk h => consistent_step hs hk h) hC).allOrNothing

/-- Certificates that say when they end. -/
def testOptions : Options where
  renewBeforeDays := 30
  emergencyNotifyDays := 7
  chainPath := false
  certificateExpiry text := if text = "old cert\n" then .ok (10 * dayMs) else .ok (90 * dayMs)

def oldDisk : Disk
  | .cert => some "old cert\n"
  | .key => some "key\n"
  | .chain => none

/-- All steps of a file's writer. -/
def write (file : File) : List Action := List.replicate 7 (.file file .ok)

/-- A renewal that keeps the key. -/
def keyKept : List Action :=
  [.status .none 0 none, .issue (.ok { certificate := "new cert", privateKey := "key" })]
    ++ write .cert ++ write .key ++ [.status .none 0 none, .alert none]

theorem renewal_all_or_nothing_key_kept : ∃ h s, Run (sys testOptions) h s
    ∧ s.phase = .resolved ⟨true, true, some (90 * dayMs), none⟩ ∧ AllOrNothing s := by
  obtain ⟨h, s, hr, ht⟩ := Sys.exists_run (S := sys testOptions)
    (s := { disk := oldDisk, old := oldDisk }) rfl keyKept
    (p := fun x => decide (x.2.phase = .resolved ⟨true, true, some (90 * dayMs), none⟩
      ∧ ∀ t ∈ x.1, keepsPair testOptions t.pre t.act = true)) (by decide +kernel)
  obtain ⟨hphase, hC⟩ := of_decide_eq_true ht
  exact ⟨h, s, hr, hphase, renewal_all_or_nothing hr hC⟩

/-- A renewal of both files, up to the first rename. -/
def firstRename : List Action :=
  [.status .none 0 none, .issue (.ok { certificate := "new cert", privateKey := "new key" })]
    ++ List.replicate 6 (.file .cert .ok)

/-- A renewal of both files in which the listener throws at the end. -/
def listenerThrows : List Action :=
  [.status .none 0 none, .issue (.ok { certificate := "new cert", privateKey := "new key" })]
    ++ write .cert ++ write .key
    ++ [.status .none 0 none, .alert (some "unreachable"), .status .none 0 none, .alert none]

/-- Between the two renames the pair is neither, and a failure after them is reported as one that
has kept the old pair. -/
theorem pair_mixed :
    (∃ h s, Run (sys testOptions) h s ∧ pairOf s.disk = (some "new cert\n", some "key\n")
      ∧ ¬ AllOrNothing s)
    ∧ ∃ h s result, Run (sys testOptions) h s ∧ s.phase = .resolved result
      ∧ result.renewed = false ∧ pairOf s.disk ≠ pairOf s.old := by
  constructor
  · obtain ⟨h, s, hr, ht⟩ := Sys.exists_run (S := sys testOptions)
      (s := { disk := oldDisk, old := oldDisk }) rfl firstRename
      (p := fun x => decide (pairOf x.2.disk = (some "new cert\n", some "key\n")
        ∧ pairOf x.2.disk ≠ pairOf x.2.old)
        && x.2.issued.all fun next => pairOf x.2.disk ≠ newPair next) (by decide +kernel)
    obtain ⟨hpair, hnew⟩ := Bool.and_eq_true_iff.1 ht
    obtain ⟨hpair, hold⟩ := of_decide_eq_true hpair
    refine ⟨h, s, hr, hpair, fun hall => hall.pair.elim hold ?_⟩
    rintro ⟨next, hi, hp⟩
    simp [hi, hp] at hnew
  · obtain ⟨h, s, hr, ht⟩ := Sys.exists_run (S := sys testOptions)
      (s := { disk := oldDisk, old := oldDisk }) rfl listenerThrows
      (p := fun x => decide (x.2.phase
          = .resolved ⟨true, false, some (90 * dayMs), some "unreachable"⟩
        ∧ pairOf x.2.disk ≠ pairOf x.2.old)) (by decide +kernel)
    obtain ⟨hphase, hpair⟩ := of_decide_eq_true ht
    exact ⟨h, s, _, hr, hphase, rfl, hpair⟩

end Renewals

end Tls

end VeriNode
