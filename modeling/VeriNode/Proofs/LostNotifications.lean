import VeriNode.Proofs.SlashingNotifier

/-!
# When a slashing notification is lost

A row that is `delivering` keeps every claim away. While no message of a key has been sent, and what
ends a delivery does not leave its row so (`Harmless`), such a row has a delivery that holds it
(`sound_run`); a call that comes when nobody is there is then granted its claim, and one that skips
the channel leaves it to another.
-/

namespace VeriNode

namespace Notifications

namespace SlashingNotifier

section Progress

variable {σ : Type} {h : List (Taken (State σ) Action)} {s s' : State σ} {id id' : DeliveryId}
  {d d' : Delivery} {event : Event} {phase : Phase} {rows' : σ} {k : Key}
  {store : NotificationDeliveryStore σ} {sha256 : String → String}
  {status : σ → Key → Option NotificationDeliveryStatus}

/-- The delivery has neither settled nor stopped. -/
def Phase.inProgress : Phase → Bool
  | .settled _ => false
  | .stopped => false
  | _ => true

/-- The delivery has ended, and has neither delivered the message nor left it to another. -/
def Phase.gaveUp : Phase → Bool
  | .settled (.undelivered _) => true
  | .settled (.broken _) => true
  | .stopped => true
  | _ => false

/-- A message of the key was sent. -/
def Sent (k : Key) (h : List (Taken (State σ) Action)) : Prop := ∃ id ∈ succeeded h, id.key = k

instance (k : Key) (h : List (Taken (State σ) Action)) : Decidable (Sent k h) :=
  inferInstanceAs (Decidable (∃ _ ∈ _, _))

/-- The delivery was skipped, and its call has not ended. -/
def State.waits (s : State σ) (id : DeliveryId) : Prop :=
  s.outcome id = some .skipped ∧ s.result id.slashingEventId id.call = none

instance (s : State σ) (id : DeliveryId) : Decidable (s.waits id) :=
  inferInstanceAs (Decidable (_ ∧ _))

/-- A call that has not ended has left the channel to the delivery, or to another. -/
def State.awaited (s : State σ) (id : DeliveryId) : Bool :=
  s.deliveries.entries.any fun x => x.1.key = id.key && x.1 ≠ id && s.waits x.1

/-- A step of a delivery of the key does not leave the row `delivering` when it ends the delivery: no
process stops that holds the row, no claim fails when it has had its effect, and a failed send is
marked. And no delivery that another call has left the channel to is given up. -/
def harmless (status : σ → Key → Option NotificationDeliveryStatus) (k : Key)
    (t : Taken (State σ) Action) : Bool :=
  match t.act with
  | .notifySlashing _ _ => true
  | .next id event =>
    id.key ≠ k
      || (match event with
          | .stop => (t.pre.deliveries.get id).all fun d => !d.phase.holds
          | .claim _ .cut _ => !decide (Free (status t.pre.rows k))
          | .markFailed _ _ _ => status t.post.rows k ≠ some .delivering
          | _ => true)
        && (!(t.post.deliveries.get id).any (·.phase.gaveUp) || !t.pre.awaited id)

/-- Until a message of the key is sent, every step is harmless. -/
def kept (status : σ → Key → Option NotificationDeliveryStatus) (k : Key) :
    List (Taken (State σ) Action) → Bool
  | [] => true
  | t :: h => (decide (Sent k h) || harmless status k t) && kept status k h

/-- What a harmless step of a delivery of the key is. -/
structure Harmless (status : σ → Key → Option NotificationDeliveryStatus) (k : Key)
    (t : Taken (State σ) Action) : Prop where
  stop : ∀ id d, t.act = .next id .stop → id.key = k → t.pre.deliveries.get id = some d →
    d.phase.holds = false
  claim : ∀ id now error, t.act = .next id (.claim now .cut error) → id.key = k →
    ¬ Free (status t.pre.rows k)
  failed : ∀ id now fault error, t.act = .next id (.markFailed now fault error) → id.key = k →
    status t.post.rows k ≠ some .delivering
  gaveUp : ∀ id event d, t.act = .next id event → id.key = k →
    t.post.deliveries.get id = some d → d.phase.gaveUp = true →
    ∀ id', id'.key = k → id' ≠ id → ¬ t.pre.waits id'

/-- Before a message of the key is sent: a row that is `delivering` is held, and what was skipped is
in progress elsewhere. -/
structure Sound (status : σ → Key → Option NotificationDeliveryStatus) (k : Key) (s : State σ) :
    Prop where
  known : ∀ id d, s.deliveries.get id = some d → id.call < s.nextCall
  unmarked : ∀ id d attempt, s.deliveries.get id = some d → id.key = k →
    d.phase ≠ .marking attempt
  undelivered : status s.rows k ≠ some .delivered
  held : status s.rows k = some .delivering →
    ∃ id d, s.deliveries.get id = some d ∧ id.key = k ∧ d.phase.holds = true
  left : ∀ id, id.key = k → s.waits id →
    ∃ id' d, s.deliveries.get id' = some d ∧ id'.key = k ∧ id' ≠ id ∧ d.phase.inProgress = true

theorem Sent.cons {t : Taken (State σ) Action} (hs : Sent k h) : Sent k (t :: h) := by
  obtain ⟨id, hid, hk⟩ := hs
  refine ⟨id, ?_, hk⟩
  unfold succeeded at hid ⊢
  rw [List.filterMap_cons]
  split
  · exact hid
  · exact List.mem_cons_of_mem _ hid

theorem inProgress_of_holds {p : Phase} (h : p.holds = true) : p.inProgress = true := by
  cases p <;> first | rfl | cases h

theorem Turn.inProgress {m : JsNumber} {bad : Prop}
    {st st' : Key → Option NotificationDeliveryStatus} {p p' : Phase}
    (h : Turn k m bad st p event p' st') : p.inProgress = true := by
  cases h with
  | stop p _ hs hst =>
    cases p with
    | settled o => exact absurd rfl (hs o)
    | stopped => exact absurd rfl hst
    | _ => rfl
  | _ => rfl

theorem outcome_of_inProgress (hd : s.deliveries.get id = some d)
    (hp : d.phase.inProgress = true) : s.outcome id = none := by
  unfold State.outcome
  rw [hd, Option.bind_some]
  cases hq : d.phase <;> rw [hq] at hp <;> first | rfl | cases hp

theorem result_eq_none {e : String} {n : ℕ} {ch : NotificationChannel}
    (h : s.outcome ⟨e, ch, n⟩ = none) : s.result e n = none := by
  unfold State.result
  cases ch with
  | email => rw [h]
  | webhook =>
    rw [h]
    split
    · rename_i heq
      cases heq
    · rfl

theorem result_goOn {e : String} {n : ℕ} (hne : ∀ ch, (⟨e, ch, n⟩ : DeliveryId) ≠ id) :
    (s.goOn id d phase rows').result e n = s.result e n := by
  have ho : ∀ ch, (s.goOn id d phase rows').outcome ⟨e, ch, n⟩ = s.outcome ⟨e, ch, n⟩ :=
    fun ch => by rw [State.outcome, get_goOn_of_ne (hne ch), State.outcome]
  rw [State.result, State.result, ho, ho]

theorem awaited_of (hw : s.waits id') (hk : id'.key = id.key) (hne : id' ≠ id) :
    s.awaited id = true := by
  obtain ⟨d, hd, -⟩ := outcome_eq hw.1
  refine List.any_eq_true.2 ⟨(id', d), OrdMap.mem_entries_iff.2 hd, ?_⟩
  simp [hk, hne, hw]

theorem harmless_next {t : Taken (State σ) Action} (h : harmless status k t = true) :
    Harmless status k t := by
  refine ⟨fun id d ha hk hd => ?_, fun id now error ha hk => ?_,
    fun id now fault error ha hk => ?_, fun id event d ha hk hd hp id' hk' hne hw => ?_⟩ <;>
    rw [harmless, ha] at h <;>
    simp only [hk, ne_eq, not_true_eq_false, decide_false, Bool.false_or, Bool.and_eq_true] at h
  · simpa [hd] using h.1
  · simpa using h.1
  · simpa using h.1
  · have haw : t.pre.awaited id = true := awaited_of hw (hk'.trans hk.symm) hne
    simp [hd, hp, haw] at h

theorem waits_of_goOn (hd : s.deliveries.get id = some d) (hp : d.phase.inProgress = true)
    (hne : id' ≠ id) (h : (s.goOn id d phase rows').waits id') : s.waits id' := by
  obtain ⟨ho, hr⟩ := h
  refine ⟨?_, ?_⟩
  · rwa [State.outcome, get_goOn_of_ne hne] at ho
  · by_cases hcall : ∃ ch, (⟨id'.slashingEventId, ch, id'.call⟩ : DeliveryId) = id
    · obtain ⟨ch, rfl⟩ := hcall
      exact result_eq_none (outcome_of_inProgress hd hp)
    · rw [not_exists] at hcall
      rwa [result_goOn hcall] at hr

end Progress

section Leaving

variable {k : Key} {m : JsNumber} {bad : Prop}
  {st st' : Key → Option NotificationDeliveryStatus} {p p' : Phase} {event : Event}

theorem enter_inProgress_or {attempt : ℕ} {lastError : Option Thrown} :
    (enter m attempt lastError).inProgress = true ∨ (enter m attempt lastError).gaveUp = true := by
  rcases enter_cases m attempt lastError with ⟨h, -⟩ | h <;> rw [h]
  · exact .inl rfl
  · exact .inr rfl

theorem Turn.ends (h : Turn k m bad st p event p' st') :
    p'.inProgress = true ∨ p'.gaveUp = true ∨ p' = .settled .delivered
      ∨ p' = .settled .skipped := by
  cases h with
  | readOn | wake => exact enter_inProgress_or.imp_right .inl
  | failed attempt cause =>
    rcases afterFailed_cases m attempt cause with h | h <;> rw [h]
    · exact .inr (.inl rfl)
    · exact .inl rfl
  | marked => exact .inr (.inr (.inl rfl))
  | readSkip | denied => exact .inr (.inr (.inr rfl))
  | readBroken | claimBroken | claimCut | failedBroken | stop => exact .inr (.inl rfl)
  | granted | send | sent | unsent | unmarked => exact .inl rfl

theorem Turn.skips (h : Turn k m bad st p event p' st') (hp : p' = .settled .skipped) :
    ¬ Free (st k) ∧ p.holds = false := by
  cases h with
  | readSkip _ _ _ hk => exact ⟨fun h => h.2 hk, rfl⟩
  | denied _ _ _ _ hk => exact ⟨hk, rfl⟩
  | readOn => rcases enter_cases m 0 none with ⟨h, -⟩ | h <;> rw [h] at hp <;> cases hp
  | wake =>
    rename_i n e
    rcases enter_cases m (n + 1) (some e) with ⟨h, -⟩ | h <;> rw [h] at hp <;> cases hp
  | failed attempt cause =>
    rcases afterFailed_cases m attempt cause with h | h <;> rw [h] at hp <;> cases hp
  | _ => cases hp

theorem Turn.delivering (h : Turn k m bad st p event p' st') (hk : st' k = some .delivering)
    (hstop : event = .stop → p.holds = false)
    (hclaim : ∀ now error, event = .claim now .cut error → ¬ Free (st k))
    (hfailed : ∀ now fault error, event ≠ .markFailed now fault error)
    (hmarking : ∀ attempt, p ≠ .marking attempt) :
    p'.holds = true ∨ p.holds = false ∧ st k = some .delivering := by
  cases h with
  | granted | send | sent | unsent => exact .inl rfl
  | claimCut _ now error _ hfree => exact absurd hfree (hclaim now error rfl)
  | marked attempt => exact absurd rfl (hmarking attempt)
  | unmarked attempt => exact absurd rfl (hmarking attempt)
  | failed _ _ now fault error => exact absurd rfl (hfailed now fault error)
  | failedBroken _ _ now fault error => exact absurd rfl (hfailed now fault error)
  | stop => exact .inr ⟨hstop rfl, hk⟩
  | _ => exact .inr ⟨rfl, hk⟩

end Leaving

section Soundness

variable {σ : Type} {h : List (Taken (State σ) Action)} {s s' : State σ} {id id' : DeliveryId}
  {d d' : Delivery} {event : Event} {phase : Phase} {rows' : σ} {k : Key} {bad : Prop}
  {store : NotificationDeliveryStore σ} {sha256 : String → String}
  {status : σ → Key → Option NotificationDeliveryStatus}

theorem Sound.init (ht : Tracks store status) :
    Sound status k ({ rows := store.empty } : State σ) where
  known _ _ hd := nomatch hd
  unmarked _ _ _ hd := nomatch hd
  undelivered := by rw [ht.empty]; exact nofun
  held hk := by rw [ht.empty] at hk; cases hk
  left _ _ hw := nomatch hw.1

theorem Sound.notify (hs : Sound status k s) (e : String) (m : JsNumber) :
    Sound status k (notifySlashing e m s) where
  known id d hd := by
    rcases of_get_notify hd with ⟨hid, -⟩ | hd
    · exact hid ▸ Nat.lt_succ_self _
    · exact Nat.lt_succ_of_lt (hs.known id d hd)
  unmarked id d attempt hd hk := by
    rcases of_get_notify hd with ⟨-, rfl⟩ | hd
    · exact nofun
    · exact hs.unmarked id d attempt hd hk
  undelivered := hs.undelivered
  held hk := by
    obtain ⟨id, d, hd, hkey, hp⟩ := hs.held hk
    exact ⟨id, d, (get_notify (hs.known id d hd).ne).trans hd, hkey, hp⟩
  left id hk hw := by
    obtain ⟨d, hd, hp⟩ := outcome_eq hw.1
    have hd : s.deliveries.get id = some d := by
      rcases of_get_notify hd with ⟨-, rfl⟩ | hd
      · cases hp
      · exact hd
    have hsame : ∀ ch, (notifySlashing e m s).outcome ⟨id.slashingEventId, ch, id.call⟩
        = s.outcome ⟨id.slashingEventId, ch, id.call⟩ := by
      intro ch
      have hne : (⟨id.slashingEventId, ch, id.call⟩ : DeliveryId).call ≠ s.nextCall :=
        (hs.known id d hd).ne
      rw [State.outcome, get_notify hne, State.outcome]
    have hw' : s.waits id := by
      refine ⟨(hsame id.channel).symm.trans hw.1, ?_⟩
      rw [State.result, ← hsame, ← hsame]
      exact hw.2
    obtain ⟨id', d', hd', hrest⟩ := hs.left id hk hw'
    exact ⟨id', d', (get_notify (hs.known id' d' hd').ne).trans hd', hrest⟩

theorem Sound.skipped (hs : Sound status k s) (hkey : id.key = k)
    (hd : s.deliveries.get id = some d)
    (ht : Turn id.key d.maxRetries bad (status s.rows) d.phase event phase (status rows'))
    (hp : phase = .settled .skipped) :
    ∃ id' d', s.deliveries.get id' = some d' ∧ id'.key = k ∧ id' ≠ id ∧ d'.phase.holds = true := by
  obtain ⟨hfree, hholds⟩ := ht.skips hp
  have hdel : status s.rows k = some .delivering := by
    by_contra hne
    exact hfree (hkey ▸ ⟨hne, hs.undelivered⟩)
  obtain ⟨id', d', hd', hk', hp'⟩ := hs.held hdel
  refine ⟨id', d', hd', hk', ?_, hp'⟩
  rintro rfl
  obtain rfl := Option.some.inj (hd.symm.trans hd')
  rw [hholds] at hp'
  cases hp'

theorem Sound.held_next (hs : Sound status k s) (hd : s.deliveries.get id = some d)
    (ht : Turn id.key d.maxRetries bad (status s.rows) d.phase event phase (status rows'))
    (hharm : Harmless status k ⟨s, .next id event, s.goOn id d phase rows'⟩)
    (hk : status rows' k = some .delivering) :
    ∃ id' d', (s.goOn id d phase rows').deliveries.get id' = some d' ∧ id'.key = k
      ∧ d'.phase.holds = true := by
  by_cases hkey : id.key = k
  · subst hkey
    have hfailed : ∀ now fault error, event ≠ .markFailed now fault error := by
      rintro now fault error rfl
      exact hharm.failed id now fault error rfl rfl hk
    rcases ht.delivering hk (fun he => hharm.stop id d (by rw [he]) rfl hd)
      (fun now error he => hharm.claim id now error (by rw [he]) rfl) hfailed
      (fun attempt => hs.unmarked id d attempt hd rfl) with hp | ⟨hp, hold⟩
    · exact ⟨id, _, get_goOn_self, rfl, hp⟩
    · obtain ⟨id', d', hd', hk', hp'⟩ := hs.held hold
      refine ⟨id', d', (get_goOn_of_ne ?_).trans hd', hk', hp'⟩
      rintro rfl
      obtain rfl := Option.some.inj (hd.symm.trans hd')
      rw [hp] at hp'
      cases hp'
  · rw [ht.frame fun h => hkey h.symm] at hk
    obtain ⟨id', d', hd', hk', hp'⟩ := hs.held hk
    have hne : id' ≠ id := fun he => hkey (he ▸ hk')
    exact ⟨id', d', (get_goOn_of_ne hne).trans hd', hk', hp'⟩

theorem Sound.left_next (hs : Sound status k s) (hd : s.deliveries.get id = some d)
    (ht : Turn id.key d.maxRetries bad (status s.rows) d.phase event phase (status rows'))
    (hsent : ¬ Sent k (⟨s, .next id event, s.goOn id d phase rows'⟩ :: h))
    (hharm : Harmless status k ⟨s, .next id event, s.goOn id d phase rows'⟩)
    (hkey' : id'.key = k) (hne : id' ≠ id) (hw : s.waits id') :
    ∃ id'' d'', (s.goOn id d phase rows').deliveries.get id'' = some d'' ∧ id''.key = k
      ∧ id'' ≠ id' ∧ d''.phase.inProgress = true := by
  obtain ⟨id'', d'', hd'', hk'', hne'', hp''⟩ := hs.left id' hkey' hw
  by_cases he : id'' = id
  · subst he
    obtain rfl := Option.some.inj (hd.symm.trans hd'')
    rcases ht.ends with hp | hp | hp | hp
    · exact ⟨id'', _, get_goOn_self, hk'', hne'', hp⟩
    · exact absurd hw (hharm.gaveUp id'' event _ rfl hk'' get_goOn_self hp id' hkey' hne)
    · rcases ht.own (.inr hp) with rfl | ⟨attempt, hm⟩
      · exact absurd ⟨id'', List.mem_cons_self, hk''⟩ hsent
      · exact absurd hm (hs.unmarked id'' d attempt hd hk'')
    · obtain ⟨i, e, hi, hk, hne₁, hholds⟩ := hs.skipped hk'' hd ht hp
      refine ⟨i, e, (get_goOn_of_ne hne₁).trans hi, hk, ?_, inProgress_of_holds hholds⟩
      rintro rfl
      have ho := hw.1
      rw [outcome_of_inProgress hi (inProgress_of_holds hholds)] at ho
      cases ho
  · exact ⟨id'', d'', (get_goOn_of_ne he).trans hd'', hk'', hne'', hp''⟩

theorem Sound.turn (hs : Sound status k s) (hd : s.deliveries.get id = some d)
    (ht : Turn id.key d.maxRetries bad (status s.rows) d.phase event phase (status rows'))
    (hsent : ¬ Sent k (⟨s, .next id event, s.goOn id d phase rows'⟩ :: h))
    (hharm : Harmless status k ⟨s, .next id event, s.goOn id d phase rows'⟩) :
    Sound status k (s.goOn id d phase rows') where
  known id' d' hd' := by
    rcases of_get_goOn hd' with ⟨rfl, -⟩ | ⟨-, hd'⟩
    · exact hs.known _ d hd
    · exact hs.known id' d' hd'
  unmarked id' d' attempt hd' hk := by
    rcases of_get_goOn hd' with ⟨rfl, rfl⟩ | ⟨-, hd'⟩
    · intro hp
      rcases ht.own (.inl ⟨attempt, hp⟩) with rfl | ⟨n, hm⟩
      · exact hsent ⟨id', List.mem_cons_self, hk⟩
      · exact hs.unmarked id' d n hd hk hm
    · exact hs.unmarked id' d' attempt hd' hk
  undelivered hk := by
    rcases ht.delivered_by hk with hk | ⟨rfl, attempt, hp⟩
    · exact hs.undelivered hk
    · exact hs.unmarked id d attempt hd rfl hp
  held hk := hs.held_next hd ht hharm hk
  left id' hk hw := by
    by_cases hne : id' = id
    · subst hne
      have hp : phase = .settled .skipped := by
        obtain ⟨d', hd', hp⟩ := outcome_eq hw.1
        rw [get_goOn_self] at hd'
        obtain rfl := Option.some.inj hd'
        exact hp
      obtain ⟨i, e, hi, hki, hne, hholds⟩ := hs.skipped hk hd ht hp
      exact ⟨i, e, (get_goOn_of_ne hne).trans hi, hki, hne, inProgress_of_holds hholds⟩
    · exact hs.left_next hd ht hsent hharm hk hne (waits_of_goOn hd ht.inProgress hne hw)

theorem sound_run (htr : Tracks store status) (hr : Run (sys store sha256) h s)
    (hk : kept status k h = true) : Sent k h ∨ Sound status k s := by
  induction hr with
  | start hs =>
    rw [show _ = _ from hs]
    exact .inr (Sound.init htr)
  | next hr hs ih =>
    rename_i h s s' a
    by_cases hsent : Sent k (⟨s, a, s'⟩ :: h)
    · exact .inl hsent
    · have hold : ¬ Sent k h := fun h => hsent h.cons
      obtain ⟨hstep, hk⟩ := Bool.and_eq_true_iff.1 hk
      have hsound := (ih hk).resolve_left hold
      have hharm : Harmless status k ⟨s, a, s'⟩ := harmless_next (by simpa [hold] using hstep)
      rcases step_cases hs with ⟨e, m, rfl, rfl⟩ | ⟨id, d, event, phase, rows', rfl, hd, hadv, rfl⟩
      · exact .inr (hsound.notify e m)
      · exact .inr (hsound.turn hd (advance_turn htr hadv) hsent hharm)

end Soundness

section Skips

variable {σ : Type} {h : List (Taken (State σ) Action)} {s s' : State σ} {id id' : DeliveryId}
  {k : Key} {store : NotificationDeliveryStore σ} {sha256 : String → String}
  {status : σ → Key → Option NotificationDeliveryStatus}

/-- The field of the result. -/
def NotifyResult.on : NotifyResult → NotificationChannel → Option ChannelResult
  | .resolved email _, .email => some email
  | .resolved _ webhook, .webhook => some webhook
  | .rejected _, _ => none

theorem skipped_of {ch : NotificationChannel} {o : Outcome} (hf : failures ch o = [])
    (h : channelResult o = .skipped) : o = .skipped := by
  cases o with
  | delivered => cases h
  | skipped => rfl
  | undelivered => cases hf
  | broken => cases hf

theorem outcome_of_result {e : String} {n : ℕ} {ch : NotificationChannel}
    (h : (s.result e n).bind (·.on ch) = some .skipped) :
    s.outcome ⟨e, ch, n⟩ = some .skipped := by
  obtain ⟨r, hr, hon⟩ := Option.bind_eq_some_iff.1 h
  rcases r with ⟨email, webhook⟩ | failed
  · obtain ⟨o, o', ho, ho', hf, hf', rfl, rfl⟩ := result_resolved hr
    cases ch with
    | email => rw [ho, skipped_of hf (Option.some.inj hon)]
    | webhook => rw [ho', skipped_of hf' (Option.some.inj hon)]
  · cases hon

theorem outcome_of_notify {e : String} {m : JsNumber} {o : Outcome}
    (h : (notifySlashing e m s).outcome id = some o) : s.outcome id = some o := by
  obtain ⟨d, hd, hp⟩ := outcome_eq h
  rcases of_get_notify hd with ⟨-, rfl⟩ | hd
  · cases hp
  · rw [State.outcome, hd, Option.bind_some, hp]
    rfl

theorem result_of_notify {e e' : String} {m : JsNumber} {n : ℕ} {r : NotifyResult}
    (h : (notifySlashing e m s).result e' n = some r) : s.result e' n = some r := by
  unfold State.result at h ⊢
  split at h
  · rename_i o o' ho ho'
    rw [outcome_of_notify ho, outcome_of_notify ho']
    exact h
  · cases h

/-- The call resolves in the step, with a channel that it has skipped. -/
def Skips (t : Taken (State σ) Action) (k : Key) (n : ℕ) : Prop :=
  t.pre.result k.1 n = none ∧ (t.post.result k.1 n).bind (·.on k.2) = some .skipped

/-- Another call is in progress on the channel. -/
def Busy (s : State σ) (k : Key) (n : ℕ) : Prop :=
  ∃ id d, s.deliveries.get id = some d ∧ id.key = k ∧ id.call ≠ n ∧ d.phase.inProgress = true

theorem busy_of {d : Delivery} {n : ℕ} (hd : s.deliveries.get id = some d) (hk : id.key = k)
    (hne : id ≠ ⟨k.1, k.2, n⟩) (hp : d.phase.inProgress = true) : Busy s k n := by
  refine ⟨id, d, hd, hk, ?_, hp⟩
  rintro rfl
  subst hk
  exact hne rfl

theorem busy_run (htr : Tracks store status) {a : Action} (hr : Run (sys store sha256) h s)
    (hs : step store sha256 s a = some s') (hk : kept status k (⟨s, a, s'⟩ :: h) = true) {n : ℕ}
    (hskip : Skips ⟨s, a, s'⟩ k n) : Sent k (⟨s, a, s'⟩ :: h) ∨ Busy s' k n := by
  by_cases hsent : Sent k (⟨s, a, s'⟩ :: h)
  · exact .inl hsent
  right
  have hold : ¬ Sent k h := fun h => hsent h.cons
  obtain ⟨hharm, hk⟩ := Bool.and_eq_true_iff.1 hk
  have hsound := (sound_run htr hr hk).resolve_left hold
  have hharm : Harmless status k ⟨s, a, s'⟩ := harmless_next (by simpa [hold] using hharm)
  obtain ⟨hnone, hres⟩ := hskip
  have hout := outcome_of_result hres
  rcases step_cases hs with ⟨e, m, rfl, rfl⟩ | ⟨id, d, event, phase, rows', rfl, hd, hadv, rfl⟩
  · obtain ⟨r, hr', -⟩ := Option.bind_eq_some_iff.1 hres
    rw [result_of_notify hr'] at hnone
    cases hnone
  · have ht := advance_turn htr hadv
    by_cases hid : (⟨k.1, k.2, n⟩ : DeliveryId) = id
    · subst hid
      obtain ⟨d', hd', hp⟩ := outcome_eq hout
      rw [get_goOn_self] at hd'
      obtain rfl := Option.some.inj hd'
      obtain ⟨i, e, hi, hki, hne, hholds⟩ := hsound.skipped rfl hd ht hp
      exact busy_of ((get_goOn_of_ne hne).trans hi) hki hne (inProgress_of_holds hholds)
    · have hw : s.waits ⟨k.1, k.2, n⟩ := by
        refine ⟨?_, hnone⟩
        rwa [State.outcome, get_goOn_of_ne hid] at hout
      obtain ⟨i, e, hi, hki, hne, hp⟩ := hsound.left_next hd ht hsent hharm rfl hid hw
      exact busy_of hi hki hne hp

theorem kept_suffix {l : List (Taken (State σ) Action)} (hk : kept status k (l ++ h) = true) :
    kept status k h = true := by
  induction l with
  | nil => exact hk
  | cons t l ih => exact ih (Bool.and_eq_true_iff.1 hk).2

end Skips

section Alone

variable {σ : Type} {g : List (Taken (State σ) Action)} {s s₁ : State σ} {id : DeliveryId}
  {k : Key} {m : JsNumber} {store : NotificationDeliveryStore σ} {sha256 : String → String}
  {status : σ → Key → Option NotificationDeliveryStatus}

/-- What follows a state. -/
def goingOn (store : NotificationDeliveryStore σ) (sha256 : String → String) (s₁ : State σ) :
    Sys (State σ) Action where
  init s := s = s₁
  step := step store sha256

/-- The delivery that takes the step. -/
def Action.delivery : Action → Option DeliveryId
  | .next id _ => some id
  | _ => none

def stepsOf (id : DeliveryId) (g : List (Taken (State σ) Action)) : ℕ :=
  g.countP fun t => t.act.delivery = some id

/-- The call takes every step, and nothing fails. -/
def Alone (store : NotificationDeliveryStore σ) (sha256 : String → String) (e : String) (n : ℕ)
    (g : List (Taken (State σ) Action)) : Prop :=
  ∀ t ∈ g, (t.act.delivery.any fun id => id.slashingEventId = e && id.call = n) = true
    ∧ assumed store sha256 t.pre t.act = true

instance (store : NotificationDeliveryStore σ) (sha256 : String → String) (e : String) (n : ℕ)
    (g : List (Taken (State σ) Action)) : Decidable (Alone store sha256 e n g) :=
  inferInstanceAs (Decidable (∀ _ ∈ _, _))

/-- A send has been started, or there have been fewer than three steps, and there is another. -/
def Attempts (store : NotificationDeliveryStore σ) (sha256 : String → String) (id : DeliveryId)
    (g : List (Taken (State σ) Action)) (s : State σ) : Prop :=
  id ∈ started g
    ∨ stepsOf id g < 3 ∧ ∃ event, event ≠ .stop ∧ (step store sha256 s (.next id event)).isSome

/-- The way of a delivery to its first send. -/
def Setting (st : Key → Option NotificationDeliveryStatus) (k : Key) (n : ℕ) : Phase → Prop
  | .reading => n = 0 ∧ Free (st k)
  | .claiming 0 => n = 1 ∧ Free (st k)
  | .claimed 0 _ => n = 2
  | _ => False

theorem Turn.setting {bad : Prop} {st st' : Key → Option NotificationDeliveryStatus}
    {p p' : Phase} {event : Event} {n : ℕ} (h : Turn k m bad st p event p' st') (hbad : ¬ bad)
    (hm : (0 : JsNumber).le m = true) (hp : Setting st k n p) :
    event = .send ∨ Setting st' k (n + 1) p' := by
  cases h with
  | readOn =>
    rw [enter, if_pos (show (JsNumber.ofNat 0).le m = true from hm)]
    exact .inr ⟨congrArg (· + 1) hp.1, hp.2⟩
  | readSkip _ _ _ hk => exact absurd hk hp.2.2
  | granted attempt =>
    cases attempt with
    | zero => exact .inr (congrArg (· + 1) hp.1)
    | succ => exact hp.elim
  | denied attempt _ _ _ hk =>
    cases attempt with
    | zero => exact absurd hp.2 hk
    | succ => exact hp.elim
  | send => exact .inl rfl
  | readBroken _ _ _ hb => exact absurd hb hbad
  | claimBroken _ _ _ _ hb => exact absurd hb hbad
  | claimCut _ _ _ hb => exact absurd hb hbad
  | unmarked _ _ _ _ _ hb => exact absurd hb hbad
  | failedBroken _ _ _ _ _ _ hb => exact absurd hb hbad
  | stop _ hb => exact absurd hb hbad
  | sent | unsent | marked | failed | wake => exact hp.elim

/-- A call that is alone finds the row free, and starts a send with its third step. -/
theorem alone_setting (htr : Tracks store status) {n : ℕ} (hm : (0 : JsNumber).le m = true)
    (hget : s₁.deliveries.get ⟨k.1, k.2, n⟩ = some ⟨m, .reading⟩)
    (hfree : Free (status s₁.rows k)) (hr : Run (goingOn store sha256 s₁) g s)
    (ha : Alone store sha256 k.1 n g) : (⟨k.1, k.2, n⟩ : DeliveryId) ∈ started g
      ∨ ∃ p, s.deliveries.get ⟨k.1, k.2, n⟩ = some ⟨m, p⟩
        ∧ Setting (status s.rows) k (stepsOf ⟨k.1, k.2, n⟩ g) p := by
  induction hr with
  | start hs =>
    rw [show _ = _ from hs]
    exact .inr ⟨_, hget, rfl, hfree⟩
  | next hr hs ih =>
    rename_i g s s' a
    obtain ⟨hcall, hassumed⟩ := ha _ List.mem_cons_self
    rcases step_cases hs with ⟨e, m', rfl, rfl⟩ | ⟨⟨e, ch, n'⟩, d, event, phase, rows', rfl, hd,
      hadv, rfl⟩
    · cases hcall
    · simp only [Action.delivery, Option.any_some, Bool.and_eq_true, decide_eq_true_eq] at hcall
      obtain ⟨rfl, hn⟩ := hcall
      obtain rfl := hn.symm
      have ht := advance_turn htr hadv
      rcases ih fun t ht => ha t (List.mem_cons_of_mem _ ht) with hstarted | ⟨p, hp, hset⟩
      · left
        rw [started_next]
        split_ifs
        · exact List.mem_cons_of_mem _ hstarted
        · exact hstarted
      · by_cases hch : ch = k.2
        · subst hch
          obtain rfl := Option.some.inj (hd.symm.trans hp)
          have hbad : ¬ disturbed store sha256 ⟨k.1, k.2, n⟩ p s.rows event = true := by
            simpa only [assumed, hd, Option.all_some, Bool.not_eq_true', Bool.not_eq_true]
              using hassumed
          rcases ht.setting hbad hm hset with rfl | hset
          · exact .inl List.mem_cons_self
          · refine .inr ⟨phase, get_goOn_self, ?_⟩
            rwa [stepsOf, List.countP_cons_of_pos (by simp [Action.delivery])]
        · have hid : (⟨k.1, k.2, n⟩ : DeliveryId) ≠ ⟨k.1, ch, n⟩ := by
            intro he
            exact hch (DeliveryId.mk.inj he).2.1.symm
          have hkey : k ≠ DeliveryId.key ⟨k.1, ch, n⟩ := fun he => hch (congrArg Prod.snd he).symm
          refine .inr ⟨p, (get_goOn_of_ne hid).trans hp, ?_⟩
          rw [stepsOf, List.countP_cons_of_neg (by simp [Action.delivery, Ne.symm hid])]
          have hst : status rows' k = status s.rows k := ht.frame hkey
          cases p with
          | reading => exact ⟨hset.1, (congrArg Free hst).mpr hset.2⟩
          | claiming attempt =>
            cases attempt with
            | zero => exact ⟨hset.1, (congrArg Free hst).mpr hset.2⟩
            | succ => exact hset.elim
          | claimed attempt =>
            cases attempt with
            | zero => exact hset
            | succ => exact hset.elim
          | _ => exact hset.elim

theorem Setting.attempts {n : ℕ} {p : Phase}
    (hget : s.deliveries.get id = some ⟨m, p⟩)
    (hset : Setting (status s.rows) k n p) :
    n < 3 ∧ ∃ event, event ≠ .stop ∧ (step store sha256 s (.next id event)).isSome := by
  cases p with
  | reading =>
    exact ⟨hset.1 ▸ by decide, .read 0 .fine noError, by simp, by
      simp [step, hget, advance, ask, operation]⟩
  | claiming attempt =>
    cases attempt with
    | zero =>
      exact ⟨hset.1 ▸ by decide, .claim 0 .fine noError, by simp, by
        simp [step, hget, advance, ask, operation]⟩
    | succ => exact hset.elim
  | claimed attempt =>
    cases attempt with
    | zero =>
      exact ⟨(show n = 2 from hset) ▸ by decide, .send, by simp, by simp [step, hget, advance]⟩
    | succ => exact hset.elim
  | _ => exact hset.elim

end Alone

section Lost

/-- What a run says about a notification of which no message has been sent: a call that then comes
and is alone starts a send, and a call that resolves without the channel leaves it to another. -/
structure NeverLost {σ : Type} (store : NotificationDeliveryStore σ) (sha256 : String → String)
    (k : Key) (h : List (Taken (State σ) Action)) (s : State σ) : Prop where
  attempts : ∀ m g s', ¬ Sent k h → (0 : JsNumber).le m = true →
    (∀ id d, s.deliveries.get id = some d → id.key = k → d.phase.inProgress = false) →
    Run (goingOn store sha256 (notifySlashing k.1 m s)) g s' →
    Alone store sha256 k.1 s.nextCall g →
    Attempts store sha256 ⟨k.1, k.2, s.nextCall⟩ g s'
  skips : ∀ l t e n, h = l ++ t :: e → Skips t k n → Sent k (t :: e) ∨ Busy t.post k n

theorem get_notify_new {σ : Type} {s : State σ} {e : String} {m : JsNumber} :
    ∀ ch, (notifySlashing e m s).deliveries.get ⟨e, ch, s.nextCall⟩ = some ⟨m, .reading⟩
  | .email => by simp [notifySlashing, OrdMap.get_set]
  | .webhook => by simp [notifySlashing]

/-- Over either store, a notification is not lost in a run that keeps its row. -/
theorem notification_never_lost (b : Backend) (sha256 : String → String) (k : Key)
    {h : List (Taken (State b.Rows) Action)} {s : State b.Rows}
    (hr : Run (sys b.store sha256) h s) (hk : kept b.status k h = true) :
    NeverLost b.store sha256 k h s where
  attempts m g s' hsent hm hidle hrun halone := by
    have hsound := (sound_run b.tracks hr hk).resolve_left hsent
    have hfree : Free (b.status s.rows k) := by
      refine ⟨fun hdel => ?_, hsound.undelivered⟩
      obtain ⟨id, d, hd, hkey, hp⟩ := hsound.held hdel
      have hidle := hidle id d hd hkey
      rw [inProgress_of_holds hp] at hidle
      cases hidle
    rcases alone_setting b.tracks hm (get_notify_new k.2) hfree hrun halone with h | ⟨p, hp, hset⟩
    · exact .inl h
    · exact .inr (hset.attempts hp)
  skips l t e n hh hskip := by
    subst hh
    obtain ⟨hre, hstep⟩ := hr.split rfl
    exact busy_run b.tracks hre hstep (kept_suffix hk) hskip

/-- A call whose first send fails. -/
def failedSend : List Action :=
  .notifySlashing "evt" 3 :: ([.read 1 .fine noError, .claim 2 .fine noError, .send,
    .sent (some (.error "timeout")), .markFailed 3 .fine noError]).map
    (.next ⟨"evt", .email, 0⟩)

theorem notification_never_lost_failed : ∃ h s, Run (sys Backend.pg.store evtHash) h s
    ∧ ¬ Sent ("evt", .email) h
    ∧ NeverLost Backend.pg.store evtHash ("evt", .email) h s := by
  obtain ⟨h, s, hr, ht⟩ := Sys.exists_run (S := sys pgStore evtHash) rfl failedSend
    (p := fun x => decide (¬ Sent ("evt", .email) x.1)
      && kept Pg.status ("evt", .email) x.1) (by decide +kernel)
  obtain ⟨hsent, hk⟩ := Bool.and_eq_true_iff.1 ht
  have hsent : ¬ Sent ("evt", .email) h := of_decide_eq_true hsent
  exact ⟨h, s, hr, hsent, notification_never_lost .pg evtHash _ hr hk⟩

/-- The process stops while it sends. -/
def stopped : List Action :=
  .notifySlashing "evt" 3 :: ([.read 1 .fine noError, .claim 2 .fine noError, .send, .stop]).map
    (.next ⟨"evt", .email, 0⟩) ++ [.next ⟨"evt", .webhook, 0⟩ .stop]

/-- All that the next call does. -/
def nextCall : List Action :=
  ([.read 3 .fine noError, .claim 4 .fine noError]).map (.next ⟨"evt", .email, 1⟩)
    ++ ([.read 5 .fine noError, .claim 6 .fine noError, .send, .sent none,
      .markDelivered 7 .fine noError]).map (.next ⟨"evt", .webhook, 1⟩)

/-- The call that comes when nobody is there ends without a send on the channel. -/
def endsUnsent (h g : List (Taken (State Pg.Table) Action)) (s s' : State Pg.Table) : Bool :=
  decide (Alone pgStore evtHash "evt" s.nextCall g ∧ ¬ Sent ("evt", .email) (g ++ h)
    ∧ ⟨"evt", .email, s.nextCall⟩ ∉ started g
    ∧ s'.result "evt" s.nextCall = some (.resolved .skipped .delivered)
    ∧ ∀ y ∈ s'.deliveries.entries, y.1.key = ("evt", .email) → y.2.phase.inProgress = false)

/-- After the process has stopped, the next call skips the channel, and sends nothing on it. -/
theorem stopped_never_sent : ∃ h s g s', Run (sys Backend.pg.store evtHash) h s
    ∧ (∀ id d, s.deliveries.get id = some d → d.phase.inProgress = false)
    ∧ Run (goingOn Backend.pg.store evtHash (notifySlashing "evt" 3 s)) g s'
    ∧ Alone Backend.pg.store evtHash "evt" s.nextCall g
    ∧ ¬ Sent ("evt", .email) (g ++ h) ∧ ⟨"evt", .email, s.nextCall⟩ ∉ started g
    ∧ s'.result "evt" s.nextCall = some (.resolved .skipped .delivered)
    ∧ ¬ Busy s' ("evt", .email) s.nextCall := by
  obtain ⟨h, s, hr, ht⟩ := Sys.exists_run (S := sys pgStore evtHash) rfl stopped
    (p := fun x => decide (∀ y ∈ x.2.deliveries.entries, y.2.phase.inProgress = false)
      && ((goingOn pgStore evtHash (notifySlashing "evt" 3 x.2)).exec
        (notifySlashing "evt" 3 x.2) [] nextCall).any fun z => endsUnsent x.1 z.1 x.2 z.2)
    (by decide +kernel)
  obtain ⟨hidle, hnext⟩ := Bool.and_eq_true_iff.1 ht
  obtain ⟨⟨g, s'⟩, hexec, hz⟩ := (Option.any_eq_true _ _).1 hnext
  obtain ⟨halone, hsent, hstarted, hres, hbusy⟩ := of_decide_eq_true hz
  refine ⟨h, s, g, s', hr, fun id d hd => ?_, Sys.run_of_exec (.start rfl) hexec, halone, hsent,
    hstarted, hres, ?_⟩
  · exact of_decide_eq_true hidle (id, d) (OrdMap.mem_entries_iff.2 hd)
  · rintro ⟨id, d, hd, hk, -, hp⟩
    rw [hbusy (id, d) (OrdMap.mem_entries_iff.2 hd) hk] at hp
    cases hp

end Lost

end SlashingNotifier

end Notifications

end VeriNode
