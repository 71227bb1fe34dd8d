import VeriNode.Notifications.DeliveryStore

/-!
# What an idempotent sender sends twice

A call asks whether its notification has been sent, and says that it has been only when its own
send is over, so another call of the same notification may be made meanwhile and send it too. Two
sends of one notification that both succeed are those of two calls of which the later was made while
the earlier waited for its sender (`Inv`, `idempotent_iff`), and nothing else goes wrong: a call
resolves only when its notification has been sent.
-/

namespace VeriNode

namespace Notifications

namespace Idempotent

section Runs

/-- The sender has succeeded. -/
def Phase.succeeded : Phase → Bool
  | .settled ok => ok
  | .sent => true
  | _ => false

def Phase.waiting : Phase → Bool
  | .sending => true
  | .settled _ => true
  | _ => false

def Phase.resolved : Phase → Bool
  | .sent => true
  | .skipped => true
  | _ => false

variable {μ : Type} (key : μ → String)

/-- How many times the sender has succeeded for the notification. -/
def sends (s : State μ) (id : String) : ℕ :=
  s.calls.countP fun c => c.phase.succeeded && key c.notification == id

/-- The step resolves a call of the notification. -/
def Resolves (t : Taken (State μ) (Action μ)) (notification : μ) : Prop :=
  ∃ (i : ℕ) (c : Call μ), t.post.calls[i]? = some c ∧ c.notification = notification ∧
    c.phase.resolved = true ∧ ∀ d, t.pre.calls[i]? = some d → d.phase.resolved = false

/-- No notification has been sent twice, and a call resolved only when its notification had been
sent. -/
structure SendsOnce (h : List (Taken (State μ) (Action μ))) (s : State μ) : Prop where
  once : ∀ id, sends key s id ≤ 1
  after : ∀ t ∈ h, ∀ notification, Resolves t notification →
    0 < sends key t.pre (key notification)

/-- The call `j` was made while the call `i` waited for the sender. -/
def Overlaps (h : List (Taken (State μ) (Action μ))) (i j : ℕ) : Prop :=
  ∃ t ∈ h, (∃ notification, t.act = .enter notification) ∧ t.pre.calls.length = j ∧
    ∃ c, t.pre.calls[i]? = some c ∧ c.phase.waiting = true

/-- Of two calls of one notification, the later made while the earlier waited for the sender, the
sender succeeds for one at most. -/
def Separate (h : List (Taken (State μ) (Action μ))) (s : State μ) : Prop :=
  ∀ i j c d, Overlaps h i j → s.calls[i]? = some c → s.calls[j]? = some d →
    key c.notification = key d.notification → c.phase.succeeded = true →
    d.phase.succeeded = false

variable {key} {h : List (Taken (State μ) (Action μ))} {s s' : State μ} {a : Action μ}

theorem Overlaps.cons {i j : ℕ} (ho : Overlaps h i j) (t : Taken (State μ) (Action μ)) :
    Overlaps (t :: h) i j := by
  obtain ⟨u, hu, hrest⟩ := ho
  exact ⟨u, List.mem_cons_of_mem _ hu, hrest⟩

theorem Overlaps.lt {i j : ℕ} (ho : Overlaps h i j) : i < j := by
  obtain ⟨t, -, -, rfl, c, hc, -⟩ := ho
  exact Calls.lt_length hc

/-- What is so in every state: the ids kept are those of the calls that sent; a call that did not
fail and was not skipped has been there when a later one was made, or its id was kept by then. -/
structure Inv (key : μ → String) (h : List (Taken (State μ) (Action μ))) (s : State μ) :
    Prop where
  processed : ∀ id, id ∈ s.shared.elems ↔
    ∃ c ∈ s.calls, c.phase = .sent ∧ key c.notification = id
  skipped : ∀ c ∈ s.calls, c.phase = .skipped → key c.notification ∈ s.shared.elems
  overlaps : ∀ i j c d, i < j → s.calls[i]? = some c → s.calls[j]? = some d →
    key c.notification = key d.notification → c.phase.waiting = true ∨ c.phase = .sent →
    d.phase ≠ .skipped → Overlaps h i j

theorem resume_cases {event : Event} {c c' : Call μ} {processed processed' : OrdSet String}
    (hr : (calls key).resume event c processed = some (processed', c')) :
    c'.notification = c.notification ∧ c.phase.waiting = true ∧
      ((∃ ok, event = .settle ok ∧ c.phase = .sending ∧ c'.phase = .settled ok ∧
          processed' = processed) ∨
        (event = .next ∧ c.phase = .settled true ∧ c'.phase = .sent ∧
          processed' = processed.add (key c.notification)) ∨
        event = .next ∧ c.phase = .settled false ∧ c'.phase = .rejected ∧
          processed' = processed) := by
  obtain ⟨n, p⟩ := c
  rcases event with ok | _ <;> rcases p with _ | ⟨_ | _⟩ | _ | _ | _ <;>
    simp only [calls, reduceCtorEq, Option.some.injEq, Prod.mk.injEq] at hr
  all_goals
    obtain ⟨rfl, rfl⟩ := hr
    simp [Phase.waiting]

theorem Inv.enter (hi : Inv key h s) (notification : μ) :
    Inv key
      (⟨s, .enter notification, ⟨s.shared, s.calls ++
        [⟨notification, if s.shared.has (key notification) then .skipped else .sending⟩]⟩⟩ :: h)
      ⟨s.shared, s.calls ++
        [⟨notification, if s.shared.has (key notification) then .skipped else .sending⟩]⟩ := by
  refine ⟨fun id => ?_, fun c hc hp => ?_, fun i j c d hij hci hdj hk hc hd => ?_⟩
  · rw [hi.processed id]
    constructor
    · rintro ⟨c, hc, hcp⟩
      exact ⟨c, List.mem_append_left _ hc, hcp⟩
    · rintro ⟨c, hc, hcp⟩
      rcases List.mem_append.1 hc with hc | hc
      · exact ⟨c, hc, hcp⟩
      · rw [List.mem_singleton] at hc
        subst hc
        split at hcp <;> simp at hcp
  · rcases List.mem_append.1 hc with hc | hc
    · exact hi.skipped c hc hp
    · rw [List.mem_singleton] at hc
      subst hc
      split at hp
      · exact OrdSet.has_iff.1 ‹_›
      · simp at hp
  · rcases Calls.of_get_concat hdj with hdj | ⟨rfl, rfl⟩
    · have hci' : s.calls[i]? = some c := by
        rcases Calls.of_get_concat hci with hci | ⟨rfl, -⟩
        · exact hci
        · exact absurd (Calls.lt_length hdj) (by omega)
      exact (hi.overlaps i j c d hij hci' hdj hk hc hd).cons _
    · have hci' : s.calls[i]? = some c := by
        rcases Calls.of_get_concat hci with hci | ⟨rfl, -⟩
        · exact hci
        · omega
      -- the new call sends, so no earlier call of its notification is over
      have hnot : key notification ∉ s.shared.elems := fun hm => by
        rw [if_pos (OrdSet.has_iff.2 hm)] at hd
        exact hd rfl
      have hw : c.phase.waiting = true := hc.resolve_right fun hs =>
        hnot ((hi.processed _).2 ⟨c, List.mem_of_getElem? hci', hs, hk⟩)
      exact ⟨_, List.mem_cons_self, ⟨notification, rfl⟩, rfl, c, hci', hw⟩

theorem Inv.resume {call : ℕ} {event : Event} {c c' : Call μ} {processed : OrdSet String}
    (hi : Inv key h s) (hc : s.calls[call]? = some c)
    (hr : (calls key).resume event c s.shared = some (processed, c')) :
    Inv key (⟨s, .resume call event, ⟨processed, s.calls.set call c'⟩⟩ :: h)
      ⟨processed, s.calls.set call c'⟩ := by
  obtain ⟨hn, hw, hcases⟩ := resume_cases hr
  -- what is kept when the call is not over
  have hkept : ∀ id, id ∈ processed.elems ↔
      id ∈ s.shared.elems ∨ c'.phase = .sent ∧ key c'.notification = id := by
    intro id
    rcases hcases with ⟨ok, -, -, hp', rfl⟩ | ⟨-, -, hp', rfl⟩ | ⟨-, -, hp', rfl⟩
    · simp [hp']
    · rw [OrdSet.mem_add, hn, hp']
      simp [eq_comm]
    · simp [hp']
  have hsent : c.phase ≠ .sent := fun he => by rw [he] at hw; simp [Phase.waiting] at hw
  have hskip : c'.phase ≠ .skipped := by
    rcases hcases with ⟨ok, -, -, hp', -⟩ | ⟨-, -, hp', -⟩ | ⟨-, -, hp', -⟩ <;> simp [hp']
  refine ⟨fun id => ?_, fun d hd hp => ?_, fun i j d e hij hdi hej hk hd he => ?_⟩
  · rw [hkept, hi.processed id]
    constructor
    · rintro (⟨d, hd, hds, hdk⟩ | ⟨hp, hk⟩)
      · obtain ⟨i, hdi⟩ := List.mem_iff_getElem?.1 hd
        have hne : i ≠ call := fun he => by
          rw [he, hc] at hdi
          exact hsent (Option.some.inj hdi ▸ hds)
        exact ⟨d, List.mem_of_getElem? ((Calls.get_set_of_ne hne).trans hdi), hds, hdk⟩
      · exact ⟨c', List.mem_of_getElem? (Calls.get_set_self hc), hp, hk⟩
    · rintro ⟨d, hd, hds, hdk⟩
      rcases List.mem_or_eq_of_mem_set hd with hd | rfl
      · exact .inl ⟨d, hd, hds, hdk⟩
      · exact .inr ⟨hds, hdk⟩
  · rcases List.mem_or_eq_of_mem_set hd with hd | rfl
    · exact (hkept _).2 (.inl (hi.skipped d hd hp))
    · exact absurd hp hskip
  · -- either call may be the one that went on; it waited before
    have hd' : ∃ d₀, s.calls[i]? = some d₀ ∧ key d₀.notification = key d.notification ∧
        (d₀.phase.waiting = true ∨ d₀.phase = .sent) := by
      rcases Calls.of_get_set hdi with ⟨rfl, rfl⟩ | ⟨-, hdi⟩
      · exact ⟨c, hc, by rw [hn], .inl hw⟩
      · exact ⟨d, hdi, rfl, hd⟩
    have he' : ∃ e₀, s.calls[j]? = some e₀ ∧ key e₀.notification = key e.notification ∧
        e₀.phase ≠ .skipped := by
      rcases Calls.of_get_set hej with ⟨rfl, rfl⟩ | ⟨-, hej⟩
      · exact ⟨c, hc, by rw [hn], fun hs => by rw [hs] at hw; simp [Phase.waiting] at hw⟩
      · exact ⟨e, hej, rfl, he⟩
    obtain ⟨d₀, hd₀, hdk, hdp⟩ := hd'
    obtain ⟨e₀, he₀, hek, hep⟩ := he'
    exact (hi.overlaps i j d₀ e₀ hij hd₀ he₀ (by rw [hdk, hek, hk]) hdp hep).cons _

theorem inv_of_run (hr : Run (system key) h s) : Inv key h s := by
  induction hr with
  | start hs =>
    subst hs
    refine ⟨fun id => ?_, fun c hc => ?_, fun i j c d _ hc => ?_⟩
    · show id ∈ ([] : List String) ↔ ∃ c ∈ ([] : List (Call μ)), _
      simp
    · cases hc
    · simp at hc
  | next hr hs ih =>
    rcases Calls.step_cases hs with ⟨n, rfl, rfl⟩ | ⟨call, event, c, p, c', rfl, hc, hr, rfl⟩
    · exact ih.enter n
    · exact ih.resume hc hr

theorem Inv.sends_pos (hi : Inv key h s) {id : String} (hid : id ∈ s.shared.elems) :
    0 < sends key s id := by
  obtain ⟨c, hc, hp, rfl⟩ := (hi.processed id).1 hid
  exact List.countP_pos_iff.2 ⟨c, hc, by simp [hp, Phase.succeeded]⟩

theorem Inv.resolves (hi : Inv key h s) (hs : (system key).step s a = some s') {notification : μ}
    (hres : Resolves ⟨s, a, s'⟩ notification) : 0 < sends key s (key notification) := by
  obtain ⟨i, c, hci, rfl, hp, hpre⟩ := hres
  rcases Calls.step_cases hs with ⟨n, rfl, rfl⟩ | ⟨call, event, d, p, d', rfl, hd, hr, rfl⟩
  · rcases Calls.of_get_append hci with hci | ⟨-, hc⟩
    · rw [hpre c hci] at hp
      simp at hp
    · simp only [calls, List.mem_singleton] at hc
      subst hc
      split at hp
      · exact hi.sends_pos (OrdSet.has_iff.1 ‹_›)
      · simp [Phase.resolved] at hp
  · rcases Calls.of_get_set hci with ⟨rfl, rfl⟩ | ⟨-, hci⟩
    · obtain ⟨hn, -, ⟨ok, -, -, hp', -⟩ | ⟨-, hpd, -, -⟩ | ⟨-, -, hp', -⟩⟩ := resume_cases hr
      · simp [hp', Phase.resolved] at hp
      · rw [hn]
        exact List.countP_pos_iff.2 ⟨d, List.mem_of_getElem? hd, by simp [hpd, Phase.succeeded]⟩
      · simp [hp', Phase.resolved] at hp
    · rw [hpre c hci] at hp
      simp at hp

theorem Phase.succeeded_cases {p : Phase} (hp : p.succeeded = true) :
    (p.waiting = true ∨ p = .sent) ∧ p ≠ .skipped := by
  rcases p with _ | _ | _ | _ | _ <;> simp_all [Phase.succeeded, Phase.waiting]

theorem Inv.once_iff (hi : Inv key h s) : (∀ id, sends key s id ≤ 1) ↔ Separate key h s := by
  constructor
  · intro hone i j c d ho hc hd hk hcs
    by_contra hds
    have := Calls.countP_le_one_iff.1 (hone (key c.notification)) i j c d hc hd (by simp [hcs])
      (by simp [hk, Bool.of_not_eq_false hds])
    exact absurd ho.lt (by omega)
  · intro hsep id
    refine Calls.countP_le_one_iff.2 fun i j c d hc hd hcp hdp => ?_
    simp only [Bool.and_eq_true, beq_iff_eq] at hcp hdp
    -- of two places of calls that sent it, the earlier call overlaps the later
    have hlt : ∀ {i j : ℕ} {c d : Call μ}, s.calls[i]? = some c → s.calls[j]? = some d →
        c.phase.succeeded = true → d.phase.succeeded = true →
        key c.notification = key d.notification → ¬ i < j := by
      intro i j c d hc hd hcs hds hk hij
      have ho := hi.overlaps i j c d hij hc hd hk (Phase.succeeded_cases hcs).1
        (Phase.succeeded_cases hds).2
      rw [hsep i j c d ho hc hd hk hcs] at hds
      simp at hds
    have h1 := hlt hc hd hcp.1 hdp.1 (hcp.2.trans hdp.2.symm)
    have h2 := hlt hd hc hdp.1 hcp.1 (hdp.2.trans hcp.2.symm)
    omega

theorem sendsOnce_iff (hr : Run (system key) h s) : SendsOnce key h s ↔ Separate key h s := by
  have hi := inv_of_run hr
  refine ⟨fun ho => hi.once_iff.1 ho.once, fun hsep => ⟨hi.once_iff.2 hsep, fun t ht n hn => ?_⟩⟩
  obtain ⟨l, e, rfl⟩ := List.append_of_mem ht
  obtain ⟨hre, hs⟩ := hr.split rfl
  exact (inv_of_run hre).resolves hs hn

/-- No call was made while another one waited. -/
def quiet (h : List (Taken (State μ) (Action μ))) : Bool :=
  h.all fun t =>
    match t.act with
    | .enter _ => t.pre.calls.all fun c => !c.phase.waiting
    | .resume _ _ => true

theorem separate_of_quiet (hq : quiet h = true) : Separate key h s := by
  intro i j c d ho
  obtain ⟨t, ht, ⟨n, ha⟩, -, c, hc, hw⟩ := ho
  have htq := List.all_eq_true.1 hq t ht
  simp only [ha, List.all_eq_true] at htq
  have := htq c (List.mem_of_getElem? hc)
  simp [hw] at this

end Runs

end Idempotent

section Services

open Idempotent

/-- In a run of either service no notification is sent twice, and every call that resolves does so
after its notification has been sent, just when of two overlapping calls of one notification the
sender succeeds for one at most. -/
theorem senders_idempotent_iff (ν : Type) :
    (∀ h s, Run (IdempotentWebhookService.postWebhook ν) h s →
      (SendsOnce WebhookNotification.notificationId h s ↔
        Separate WebhookNotification.notificationId h s)) ∧
    ∀ h s, Run IdempotentEmailService.sendEmail h s →
      (SendsOnce EmailNotification.notificationId h s ↔
        Separate EmailNotification.notificationId h s) :=
  ⟨fun _ _ => sendsOnce_iff, fun _ _ => sendsOnce_iff⟩

def notice : EmailNotification := ⟨"slash-1:email", "node@example.org", "Slashed", "You lost 5."⟩

/-- A send that failed, the call made again, and a call after that: the notification is sent
once. -/
theorem senders_idempotent_iff_notice : ∃ h s, Run IdempotentEmailService.sendEmail h s ∧
    s.calls.map (·.phase) = [.rejected, .sent, .skipped] ∧
    SendsOnce EmailNotification.notificationId h s := by
  obtain ⟨h, s, hr, hp⟩ := Sys.exists_run (S := IdempotentEmailService.sendEmail) rfl
    [.enter notice, .resume 0 (.settle false), .resume 0 .next, .enter notice,
      .resume 1 (.settle true), .resume 1 .next, .enter notice]
    (p := fun r => quiet r.1 && r.2.calls.map (·.phase) == [.rejected, .sent, .skipped])
    (by decide +kernel)
  simp only [Bool.and_eq_true, beq_iff_eq] at hp
  exact ⟨h, s, hr, hp.2, ((senders_idempotent_iff ℕ).2 h s hr).2 (separate_of_quiet hp.1)⟩

def hook : WebhookNotification ℕ := ⟨"slash-1:webhook", "https://node.example.org", [], 5000⟩

theorem exists_sends_two (μ : Type) (key : μ → String) (n : μ) : ∃ h s, Run (system key) h s ∧
    sends key s (key n) = 2 := by
  have h₂ : ∃ h, Run (system key) h ⟨∅, [⟨n, .sending⟩, ⟨n, .sending⟩]⟩ :=
    ⟨_, ((Run.start rfl).next (a := .enter n) rfl).next (a := .enter n) rfl⟩
  obtain ⟨h, hr⟩ := h₂
  refine ⟨_, _, (hr.next (a := .resume 0 (.settle true)) rfl).next
    (a := .resume 1 (.settle true)) rfl, ?_⟩
  show List.countP (fun c : Idempotent.Call μ => c.phase.succeeded && key c.notification == key n)
    [⟨n, .settled true⟩, ⟨n, .settled true⟩] = 2
  simp [Phase.succeeded]

/-- Two calls of one notification, the second before the first is over, both send it. -/
theorem senders_not_idempotent :
    (¬ ∀ h s, Run (IdempotentWebhookService.postWebhook ℕ) h s →
      SendsOnce WebhookNotification.notificationId h s) ∧
    ¬ ∀ h s, Run IdempotentEmailService.sendEmail h s →
      SendsOnce EmailNotification.notificationId h s := by
  constructor
  · intro hall
    obtain ⟨h, s, hr, hs⟩ := exists_sends_two _ WebhookNotification.notificationId hook
    have := (hall h s hr).once (WebhookNotification.notificationId hook)
    omega
  · intro hall
    obtain ⟨h, s, hr, hs⟩ := exists_sends_two _ EmailNotification.notificationId notice
    have := (hall h s hr).once notice.notificationId
    omega

end Services

end Notifications

end VeriNode
