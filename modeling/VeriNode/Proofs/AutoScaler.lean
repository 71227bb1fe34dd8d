import VeriNode.Queue.KafkaAutoScaler

/-!
# What an auto-scaler keeps to

Every target is within the bounds when the scaler's counts are (`Inv`). The rest does not hold of
every run: an evaluation does not look again whether the auto-scaler runs when the count has come;
the time of a scaling is kept only when it has succeeded, so that two that overlap do not see each
other; and a count that comes late replaces the one that a scaling left. What each step keeps is
said exactly (`respected_step`), and so what runs keep (`respected_iff`).
-/

namespace VeriNode

namespace KafkaAutoScaler

section Bounds

variable (o : Config)

/-- The number is one of consumers that the configuration allows. -/
def Within (n : ℤ) : Prop := o.minConsumers ≤ n ∧ n ≤ o.maxConsumers

/-- The bounds are ones, and the steps lead no other way than they should. -/
structure Valid : Prop where
  one_le : 1 ≤ o.minConsumers
  min_le : o.minConsumers ≤ o.maxConsumers
  up : 0 ≤ o.scaleUpBy
  down : 0 ≤ o.scaleDownBy

/-- The scalings start at least the cooldown apart. -/
def ScaleEvent.Apart (a b : ScaleEvent) : Prop :=
  (JsNumber.fin |(a.timestamp : ℚ) - b.timestamp|).lt o.cooldownPeriodMs = false

/-- A count that the scaler gives is within the bounds. -/
def CountsWithin (_ : State) (a : Action) : Prop :=
  ∀ k count, a = .resume k (.counted count) → Within o count

/-- What is so of an evaluation, by where it stands. -/
def Evaluation.Ok (t : Evaluation) (clock : ℕ) : Prop :=
  match t.stage with
  | .counted currentConsumers => currentConsumers = 0 ∨ Within o currentConsumers
  | .scaling event lastScale => event.groupId = t.groupId ∧ Within o event.«to» ∧
    lastScale ≤ event.timestamp ∧ event.timestamp ≤ clock ∧
      (JsNumber.fin ((event.timestamp : ℚ) - lastScale)).lt o.cooldownPeriodMs = false
  | _ => True

/-- What is so in every state, whatever the order of the steps. -/
structure Inv (s : State) : Prop where
  counts : ∀ groupId n, s.shared.currentConsumerCounts.get groupId = some n → Within o n
  times : ∀ groupId n, s.shared.lastScaleTimes.get groupId = some n → n ≤ s.shared.clock
  requests : ∀ r ∈ s.shared.requests, Within o r.event.«to»
  ok : ∀ t ∈ s.calls, t.Ok o s.shared.clock

variable {o} {w w' : World} {t t' : Evaluation} {event : Event} {c : ℤ}

theorem Valid.target (hv : Valid o) (hc : Within o c) (direction : Direction) :
    Within o (target o direction c) := by
  obtain ⟨h1, h2⟩ := hc
  have hup := hv.up
  have hdown := hv.down
  have hmin := hv.min_le
  cases direction with
  | up =>
    simp only [KafkaAutoScaler.target]
    exact ⟨by omega, by omega⟩
  | down =>
    simp only [KafkaAutoScaler.target]
    exact ⟨by omega, by omega⟩

theorem of_wanted {e : ScaleEvent} (h : wanted o t c w = some e) :
    held o t.groupId c w = false ∧ ∃ direction,
      (choose o t.totalLag c (consecutiveDown w t.groupId)).1 = some direction ∧
      target o direction c ≠ c ∧ e = ⟨t.groupId, direction, c, target o direction c, w.clock⟩ := by
  unfold wanted at h
  split at h
  · cases h
  · rename_i hheld
    refine ⟨by simpa using hheld, ?_⟩
    split at h
    · cases h
    · rename_i direction hd
      simp only at h
      split at h
      · cases h
      · rename_i hne
        exact ⟨direction, hd, hne, (Option.some.inj h).symm⟩

theorem of_held_eq_false {groupId : String} (h : held o groupId c w = false) : c ≠ 0 ∧
    (JsNumber.fin ((w.clock : ℚ) - (w.lastScaleTimes.get groupId).getD 0)).lt
      o.cooldownPeriodMs = false := by
  unfold held at h
  rw [Bool.or_eq_false_iff] at h
  exact ⟨by simpa using h.1, h.2⟩

theorem recount_eq (t : Evaluation) (c : ℤ) (w : World) :
    ∃ downs, recount o t c w = { w with consecutiveScaleDowns := downs } := by
  unfold recount
  split
  · exact ⟨w.consecutiveScaleDowns, rfl⟩
  · split
    · exact ⟨w.consecutiveScaleDowns, rfl⟩
    · exact ⟨_, rfl⟩

theorem proceed_cases (t : Evaluation) (c : ℤ) (w : World) : ∃ downs,
    (wanted o t c w = none ∧
      proceed o t c w = ({ w with consecutiveScaleDowns := downs }, { t with stage := .over })) ∨
    ∃ e, wanted o t c w = some e ∧ proceed o t c w =
      ({ w with consecutiveScaleDowns := downs, requests := ⟨e, w.isRunning⟩ :: w.requests },
        { t with stage := .scaling e ((w.lastScaleTimes.get t.groupId).getD 0) }) := by
  obtain ⟨downs, hw⟩ := recount_eq (o := o) t c w
  refine ⟨downs, ?_⟩
  unfold proceed
  rw [hw]
  cases hwant : wanted o t c w with
  | none => exact .inl ⟨rfl, rfl⟩
  | some e => exact .inr ⟨e, rfl, rfl⟩

theorem Evaluation.Ok.mono {clock clock' : ℕ} (h : t.Ok o clock) (hle : clock ≤ clock') :
    t.Ok o clock' := by
  unfold Evaluation.Ok at h ⊢
  split at h
  · exact h
  · obtain ⟨hg, hw, hl, ht, hc⟩ := h
    exact ⟨hg, hw, hl, ht.trans hle, hc⟩
  · trivial

theorem ok_evaluate (hc : ∀ groupId n, w.currentConsumerCounts.get groupId = some n → Within o n)
    (groupId : String) (totalLag : JsNumber) (clock : ℕ) :
    (evaluate groupId totalLag w).Ok o clock := by
  unfold evaluate
  split
  · trivial
  · split
    · rename_i cached hget
      exact .inr (hc _ _ hget)
    · trivial

end Bounds

section Runs

variable {o : Config} {s s' : State} {a : Action} {h : List (Taken State Action)}

theorem Inv.resume {k : ℕ} {t t' : Evaluation} {event : Event} {w : World} (hv : Valid o)
    (hi : Inv o s) (hc : s.calls[k]? = some t) (hwithin : ∀ n, event = .counted n → Within o n)
    (hr : resume o event t s.shared = some (w, t')) : Inv o ⟨w, s.calls.set k t'⟩ := by
  have hok := hi.ok t (List.mem_of_getElem? hc)
  have hset : ∀ {t' : Evaluation}, t'.Ok o s.shared.clock →
      ∀ u ∈ s.calls.set k t', u.Ok o s.shared.clock := fun ht' u hu => by
    rcases List.mem_or_eq_of_mem_set hu with hu | rfl
    · exact hi.ok u hu
    · exact ht'
  unfold KafkaAutoScaler.resume at hr
  split at hr
  · rename_i n hs
    cases hr
    have hn := hwithin n rfl
    refine ⟨fun g m hg => ?_, hi.times, hi.requests, hset (.inr hn)⟩
    rcases OrdMap.of_get_set hg with ⟨-, rfl⟩ | ⟨-, hg⟩
    · exact hn
    · exact hi.counts g m hg
  · cases hr
    exact ⟨hi.counts, hi.times, hi.requests, hset (.inl rfl)⟩
  · rename_i c hs
    have hp := Option.some.inj hr
    simp only [Evaluation.Ok, hs] at hok
    obtain ⟨downs, ⟨-, hpr⟩ | ⟨e, hwant, hpr⟩⟩ := proceed_cases (o := o) t c s.shared
    · rw [hpr] at hp
      cases hp
      exact ⟨hi.counts, hi.times, hi.requests, hset trivial⟩
    · rw [hpr] at hp
      cases hp
      obtain ⟨hheld, direction, -, -, rfl⟩ := of_wanted hwant
      obtain ⟨hc0, hcool⟩ := of_held_eq_false hheld
      have hto := hv.target (hok.resolve_left hc0) direction
      refine ⟨hi.counts, hi.times, fun r hr => ?_, hset ⟨rfl, hto, ?_, le_rfl, hcool⟩⟩
      · rcases List.mem_cons.1 hr with rfl | hr
        · exact hto
        · exact hi.requests r hr
      · cases hlast : s.shared.lastScaleTimes.get t.groupId with
        | none => exact Nat.zero_le _
        | some n => exact hi.times _ n hlast
  · rename_i e last hs
    cases hr
    simp only [Evaluation.Ok, hs] at hok
    obtain ⟨-, hto, -, hts, -⟩ := hok
    refine ⟨fun g m hg => ?_, fun g m hg => ?_, hi.requests, hset trivial⟩
    · rcases OrdMap.of_get_set hg with ⟨-, rfl⟩ | ⟨-, hg⟩
      · exact hto
      · exact hi.counts g m hg
    · rcases OrdMap.of_get_set hg with ⟨-, rfl⟩ | ⟨-, hg⟩
      · exact hts
      · exact hi.times g m hg
  · cases hr
    exact ⟨hi.counts, hi.times, hi.requests, hset trivial⟩
  · cases hr

theorem Inv.step (hv : Valid o) (hi : Inv o s) (hwithin : CountsWithin o s a)
    (hs : (system o).step s a = some s') : Inv o s' := by
  rcases Calls.step_cases hs with ⟨input, rfl, rfl⟩ | ⟨k, event, t, w, t', rfl, hc, hr, rfl⟩
  · cases input with
    | start =>
      simp only [evaluations, List.append_nil]
      split
      · exact hi
      · exact ⟨hi.counts, hi.times, hi.requests, hi.ok⟩
    | stop =>
      simp only [evaluations, List.append_nil]
      exact ⟨hi.counts, hi.times, hi.requests, hi.ok⟩
    | notify groupId totalLag =>
      refine ⟨hi.counts, hi.times, hi.requests, fun t ht => ?_⟩
      rcases List.mem_append.1 ht with ht | ht
      · exact hi.ok t ht
      · rw [List.eq_of_mem_replicate ht]
        exact ok_evaluate hi.counts _ _ _
    | pass ms =>
      simp only [evaluations, List.append_nil]
      have hle : s.shared.clock ≤ s.shared.clock + ms := Nat.le_add_right _ _
      exact ⟨hi.counts, fun g n hg => (hi.times g n hg).trans hle, hi.requests,
        fun t ht => (hi.ok t ht).mono hle⟩
  · exact hi.resume hv hc (fun n hn => hwithin k n (by rw [hn])) hr

theorem inv_of_run (hv : Valid o) (hr : Run (system o) h s) (hwithin : Along (CountsWithin o) h) :
    Inv o s := by
  refine hr.invariant_of (P := Inv o) (fun s hs => ?_)
    (fun s a s' hi hw hs => hi.step hv hw hs) hwithin
  obtain ⟨clock, rfl⟩ := hs
  exact ⟨by simp, by simp, by simp, by simp⟩

end Runs

end KafkaAutoScaler

end VeriNode

/-!
# Scale-downs in a row

Evaluations of one group, one after the other (`sequence`). The counter of a group goes up when a
scale-down is decided, before it is known whether it succeeds, and goes back only where an
evaluation comes to neither direction; a scale-up that succeeds leaves it. So it counts the
scale-downs that have succeeded in a row as long as each step keeps it so (`counter_step`), and then
the limit is one on these (`lawful_of_run`).
-/

namespace VeriNode

namespace KafkaAutoScaler

section Alone

/-- The count that an evaluation comes to. -/
def countOf (groupId : String) (r : Outcome) (w : World) : ℤ :=
  (w.currentConsumerCounts.get groupId).getD (r.count.getD 0)

/-- The counts are known that the scaler was asked for. -/
def counted (groupId : String) (r : Outcome) (w : World) : World :=
  match w.currentConsumerCounts.get groupId, r.count with
  | none, some n => { w with currentConsumerCounts := w.currentConsumerCounts.set groupId n }
  | _, _ => w

/-- What an evaluation does that has the count, if nothing comes between. -/
def decided (o : Config) (t : Evaluation) (c : ℤ) (scales : Bool) (w : World) : World :=
  match wanted o t c w with
  | none => recount o t c w
  | some event =>
    let w' := { recount o t c w with requests := ⟨event, w.isRunning⟩ :: w.requests }
    if scales then w'.scaled event else w'

variable {o : Config} {w : World} {r : Outcome} {t : Evaluation} {groupId : String}

theorem counted_eq (groupId : String) (r : Outcome) (w : World) :
    ∃ counts, counted groupId r w = { w with currentConsumerCounts := counts } := by
  unfold counted
  split
  · exact ⟨_, rfl⟩
  · exact ⟨w.currentConsumerCounts, rfl⟩

theorem finish_over (fuel : ℕ) (h : t.stage = .over) : finish o r fuel (w, t) = (w, t) := by
  cases fuel with
  | zero => rfl
  | succ fuel =>
    obtain ⟨id, totalLag, stage⟩ := t
    subst h
    rfl

theorem finish_next (fuel : ℕ) {p : World × Evaluation}
    (h : resume o (r.event t.stage) t w = some p) :
    finish o r (fuel + 1) (w, t) = finish o r fuel p := by
  rw [finish, h]

theorem finish_scaling (fuel : ℕ) {event : ScaleEvent} {lastScale : ℕ}
    (h : t.stage = .scaling event lastScale) :
    (finish o r (fuel + 1) (w, t)).1 = if r.scales then w.scaled event else w := by
  have hr : resume o (r.event t.stage) t w =
      some (if r.scales then w.scaled event else w, { t with stage := .over }) := by
    obtain ⟨id, totalLag, stage⟩ := t
    subst h
    obtain ⟨count, _ | _⟩ := r
    · rfl
    · rfl
  rw [finish_next fuel hr, finish_over fuel rfl]

theorem finish_counted (fuel : ℕ) {c : ℤ} (h : t.stage = .counted c) :
    (finish o r (fuel + 2) (w, t)).1 = decided o t c r.scales w := by
  have hr : resume o (r.event t.stage) t w = some (proceed o t c w) := by
    obtain ⟨id, totalLag, stage⟩ := t
    subst h
    rfl
  rw [finish_next _ hr]
  unfold proceed decided
  cases hwant : wanted o t c w with
  | none => exact congrArg Prod.fst (finish_over _ rfl)
  | some event => exact finish_scaling fuel rfl

theorem evaluateAlone_eq (groupId : String) (totalLag : JsNumber) (h : w.isRunning = true) :
    evaluateAlone o groupId totalLag r w =
      decided o ⟨groupId, totalLag, .counted (countOf groupId r w)⟩ (countOf groupId r w) r.scales
        (counted groupId r w) := by
  have hrun : (!w.isRunning) = false := by
    rw [h]
    rfl
  unfold evaluateAlone evaluate countOf counted
  rw [hrun]
  cases hget : w.currentConsumerCounts.get groupId with
  | some n => exact finish_counted 1 rfl
  | none =>
    cases hn : r.count with
    | some n =>
      have hr : resume o (r.event .asking) ⟨groupId, totalLag, .asking⟩ w =
          some ({ w with currentConsumerCounts := w.currentConsumerCounts.set groupId n },
            ⟨groupId, totalLag, .counted n⟩) := by
        unfold Outcome.event
        rw [hn]
        rfl
      exact (congrArg Prod.fst (finish_next 2 hr)).trans (finish_counted 0 rfl)
    | none =>
      have hr : resume o (r.event .asking) ⟨groupId, totalLag, .asking⟩ w =
          some (w, ⟨groupId, totalLag, .counted 0⟩) := by
        unfold Outcome.event
        rw [hn]
        rfl
      exact (congrArg Prod.fst (finish_next 2 hr)).trans (finish_counted 0 rfl)

theorem consecutiveDown_recount (t : Evaluation) (c : ℤ) (w : World) :
    consecutiveDown (recount o t c w) t.groupId =
      if held o t.groupId c w then consecutiveDown w t.groupId
      else (choose o t.totalLag c (consecutiveDown w t.groupId)).2.getD
        (consecutiveDown w t.groupId) := by
  unfold recount
  split
  · rfl
  · split
    · rename_i hn
      rw [hn]
      rfl
    · rename_i n hn
      rw [hn]
      simp [consecutiveDown]

theorem consecutiveDown_decided (t : Evaluation) (c : ℤ) (scales : Bool) (w : World) :
    consecutiveDown (decided o t c scales w) t.groupId =
      consecutiveDown (recount o t c w) t.groupId := by
  unfold decided
  split
  · rfl
  · cases scales <;> rfl

theorem isRunning_decided (t : Evaluation) (c : ℤ) (scales : Bool) (w : World) :
    (decided o t c scales w).isRunning = w.isRunning := by
  obtain ⟨downs, hw⟩ := recount_eq (o := o) t c w
  unfold decided
  rw [hw]
  split
  · rfl
  · cases scales <;> rfl

/-- The direction of the call that has been made since. -/
def requested (w w' : World) : Option Direction :=
  (w'.requests.take (w'.requests.length - w.requests.length)).head?.map (·.event.direction)

theorem requested_decided (t : Evaluation) (c : ℤ) (scales : Bool) (w : World) :
    requested w (decided o t c scales w) = (wanted o t c w).map (·.direction) := by
  unfold decided
  split
  · rename_i hn
    obtain ⟨downs, hw⟩ := recount_eq (o := o) t c w
    rw [hn, hw]
    simp [requested]
  · rename_i event he
    rw [he]
    cases scales <;> simp [requested, World.scaled]

end Alone

section Sequence

/-- An evaluation of the group, so long after the one before, by the times they read. -/
structure Turn where
  elapsed : ℕ
  totalLag : JsNumber
  outcome : Outcome
deriving DecidableEq

/-- What an evaluation saw, the call it made, and whether the scaler would have done it. -/
structure Evaluated where
  totalLag : JsNumber
  currentConsumers : ℤ
  request : Option Direction
  scales : Bool
deriving DecidableEq

/-- The auto-scaler, and the evaluations of the group that there have been, the last first. -/
structure Sequence where
  world : World
  history : List Evaluated := []

/-- The auto-scaler when the evaluation begins. -/
def Sequence.ahead (s : Sequence) (a : Turn) : World :=
  { s.world with clock := s.world.clock + a.elapsed }

variable (o : Config) (groupId : String)

/-- Evaluations of a group by a running auto-scaler, one after the other, the cooldown apart. -/
def sequence : Sys Sequence Turn where
  init s := ∃ clock, s = { world := { clock := clock, isRunning := true, listeners := 1 } }
  step s a :=
    if s.history.isEmpty || !(JsNumber.ofNat a.elapsed).lt o.cooldownPeriodMs then
      let w := s.ahead a
      let w' := evaluateAlone o groupId a.totalLag a.outcome w
      some ⟨w', ⟨a.totalLag, countOf groupId a.outcome w, requested w w', a.outcome.scales⟩ ::
        s.history⟩
    else none

/-- The lag is strictly between the thresholds. -/
def between (totalLag : JsNumber) : Bool :=
  o.scaleDownThreshold.lt totalLag && totalLag.lt o.scaleUpThreshold

/-- The evaluation begins the scale-downs in a row anew. -/
def Evaluated.Resets (e : Evaluated) : Bool :=
  e.request = some .up && e.scales || between o e.totalLag

/-- How many scale-downs have succeeded since an evaluation began them anew. -/
def downs : List Evaluated → ℕ
  | [] => 0
  | e :: h => if e.Resets o then 0 else downs h + (e.request = some .down && e.scales).toNat

/-- Each evaluation that could scale down asks for it just when the limit is not reached. -/
def Lawful : List Evaluated → Prop
  | [] => True
  | e :: h =>
    (e.totalLag.le o.scaleDownThreshold = true → o.minConsumers < e.currentConsumers →
      (e.request = some .down ↔
        (JsNumber.ofNat (downs o h)).lt o.maxConsecutiveScaleDowns = true)) ∧ Lawful h

/-- What an evaluation keeps of the counter of the group, so that it counts the scale-downs that
have succeeded in a row. -/
@[mk_iff] structure Kept (t : Evaluation) (c : ℤ) (scales : Bool) (w : World) : Prop where
  /-- A scale-down that the limit allows is asked for, and succeeds. -/
  down : held o t.groupId c w = false →
    (choose o t.totalLag c (consecutiveDown w t.groupId)).1 = some .down →
      (wanted o t c w).isSome = true ∧ scales = true
  /-- No scale-up succeeds while it counts any. -/
  up : (wanted o t c w).map (·.direction) = some .up → scales = true →
    consecutiveDown w t.groupId = 0
  /-- An evaluation that comes to neither direction sees a lag between, or it counts none. -/
  neither : held o t.groupId c w = false →
    (choose o t.totalLag c (consecutiveDown w t.groupId)).2 = some 0 →
      between o t.totalLag = true ∨ consecutiveDown w t.groupId = 0
  /-- None that is held sees a lag between while it counts any. -/
  held : held o t.groupId c w = true → between o t.totalLag = true →
    consecutiveDown w t.groupId = 0
  /-- None that the limit lets scale down is held, or is to scale up. -/
  free : t.totalLag.le o.scaleDownThreshold = true → o.minConsumers < c →
    (JsNumber.ofNat (consecutiveDown w t.groupId)).lt o.maxConsecutiveScaleDowns = true →
      KafkaAutoScaler.held o t.groupId c w = false ∧
        ¬ (o.scaleUpThreshold.le t.totalLag = true ∧ c < o.maxConsumers)

instance (t : Evaluation) (c : ℤ) (scales : Bool) (w : World) : Decidable (Kept o t c scales w) :=
  decidable_of_iff' _ (kept_iff o t c scales w)

/-- The evaluation keeps the counter. -/
def KeptStep (s : Sequence) (a : Turn) : Prop :=
  let c := countOf groupId a.outcome (s.ahead a)
  Kept o ⟨groupId, a.totalLag, .counted c⟩ c a.outcome.scales
    (counted groupId a.outcome (s.ahead a))

instance : DecidableRel (KeptStep o groupId) := fun _ _ => inferInstanceAs (Decidable (Kept ..))

variable {o groupId} {s s' : Sequence} {a : Turn} {h : List (Taken Sequence Turn)}
  {t : Evaluation} {c : ℤ} {scales : Bool} {w : World} {past : List Evaluated}

theorem choose_cases (o : Config) (totalLag : JsNumber) (c : ℤ) (n : ℕ) :
    ((o.scaleUpThreshold.le totalLag = true ∧ c < o.maxConsumers) ∧
      choose o totalLag c n = (some .up, none)) ∨
    ¬ (o.scaleUpThreshold.le totalLag = true ∧ c < o.maxConsumers) ∧
      ((totalLag.le o.scaleDownThreshold = true ∧ o.minConsumers < c) ∧
        ((JsNumber.ofNat n).lt o.maxConsecutiveScaleDowns = true ∧
          choose o totalLag c n = (some .down, some (n + 1)) ∨
        (JsNumber.ofNat n).lt o.maxConsecutiveScaleDowns = false ∧
          choose o totalLag c n = (none, none)) ∨
      ¬ (totalLag.le o.scaleDownThreshold = true ∧ o.minConsumers < c) ∧
        choose o totalLag c n = (none, some 0)) := by
  unfold choose
  split
  · rename_i hup
    exact .inl ⟨by simpa using hup, rfl⟩
  · rename_i hup
    refine .inr ⟨by simpa using hup, ?_⟩
    split
    · rename_i hdown
      refine .inl ⟨by simpa using hdown, ?_⟩
      split
      · rename_i hn
        exact .inl ⟨hn, rfl⟩
      · rename_i hn
        exact .inr ⟨by simpa using hn, rfl⟩
    · rename_i hdown
      exact .inr ⟨by simpa using hdown, rfl⟩

theorem direction_wanted {direction : Direction}
    (h : (wanted o t c w).map (·.direction) = some direction) : held o t.groupId c w = false ∧
      (choose o t.totalLag c (consecutiveDown w t.groupId)).1 = some direction := by
  obtain ⟨e, hwant, rfl⟩ := Option.map_eq_some_iff.1 h
  obtain ⟨hheld, d, hd, -, rfl⟩ := of_wanted hwant
  exact ⟨hheld, hd⟩

theorem request_eq_none (h : ∀ direction, ¬ (held o t.groupId c w = false ∧
    (choose o t.totalLag c (consecutiveDown w t.groupId)).1 = some direction)) :
    (wanted o t c w).map (·.direction) = none := by
  cases hreq : (wanted o t c w).map (·.direction) with
  | none => rfl
  | some d => exact absurd (direction_wanted hreq) (h d)

theorem not_between_of_up (h : o.scaleUpThreshold.le t.totalLag = true) :
    between o t.totalLag = false := by
  unfold between
  rw [JsNumber.not_lt_of_le h, Bool.and_false]

theorem not_between_of_down (h : t.totalLag.le o.scaleDownThreshold = true) :
    between o t.totalLag = false := by
  unfold between
  rw [JsNumber.not_lt_of_le h, Bool.false_and]

/-- The counter counts the scale-downs in a row, if the evaluation keeps it so. -/
theorem counter_step (hk : Kept o t c scales w)
    (hn : consecutiveDown w t.groupId = downs o past) :
    consecutiveDown (decided o t c scales w) t.groupId =
      downs o (⟨t.totalLag, c, (wanted o t c w).map (·.direction), scales⟩ :: past) := by
  rw [consecutiveDown_decided, consecutiveDown_recount]
  cases hheld : held o t.groupId c w with
  | true =>
    have hreq : (wanted o t c w).map (·.direction) = none :=
      request_eq_none fun d hd => by rw [hheld] at hd; cases hd.1
    simp only [downs, Evaluated.Resets, hreq, ← hn, ↓reduceIte]
    cases hb : between o t.totalLag with
    | true => simpa using hk.held hheld hb
    | false => simp
  | false =>
    simp only [Bool.false_eq_true, ↓reduceIte]
    rcases choose_cases o t.totalLag c (consecutiveDown w t.groupId) with
      ⟨⟨hup, -⟩, he⟩ | ⟨-, ⟨⟨hlow, -⟩, ⟨-, he⟩ | ⟨-, he⟩⟩ | ⟨-, he⟩⟩
    · -- up: the counter stays, and should have been none if the scale-up succeeds
      rw [he]
      simp only [downs, Evaluated.Resets, not_between_of_up hup, ← hn]
      cases hreq : (wanted o t c w).map (·.direction) with
      | none => simp
      | some d =>
        have hd := (direction_wanted hreq).2
        rw [he, Option.some.injEq] at hd
        subst hd
        cases scales with
        | true => simpa using hk.up hreq rfl
        | false => simp
    · -- down: one more, as it succeeds
      obtain ⟨hsome, rfl⟩ := hk.down hheld (by rw [he])
      rw [he]
      have hreq : (wanted o t c w).map (·.direction) = some .down := by
        obtain ⟨e, hwant⟩ := Option.isSome_iff_exists.1 hsome
        have hmap : (wanted o t c w).map (·.direction) = some e.direction := by rw [hwant]; rfl
        have hd := (direction_wanted hmap).2
        rw [he, Option.some.injEq] at hd
        rw [hmap, hd]
      simp [downs, Evaluated.Resets, not_between_of_down hlow, ← hn, hreq]
    · have hreq : (wanted o t c w).map (·.direction) = none :=
        request_eq_none fun d hd => by rw [he] at hd; cases hd.2
      rw [he]
      simp [downs, Evaluated.Resets, not_between_of_down hlow, ← hn, hreq]
    · -- neither: the counter goes back, from none or at a lag between
      have hreq : (wanted o t c w).map (·.direction) = none :=
        request_eq_none fun d hd => by rw [he] at hd; cases hd.2
      simp only [downs, Evaluated.Resets, hreq, ← hn]
      have hb := hk.neither hheld (by rw [he])
      rw [he]
      cases hbw : between o t.totalLag with
      | true => simp
      | false => simpa [hbw, eq_comm] using hb

theorem request_iff (hk : Kept o t c scales w) (hlow : t.totalLag.le o.scaleDownThreshold = true)
    (hmin : o.minConsumers < c) : (wanted o t c w).map (·.direction) = some .down ↔
      (JsNumber.ofNat (consecutiveDown w t.groupId)).lt o.maxConsecutiveScaleDowns = true := by
  constructor
  · intro h
    have hd := (direction_wanted h).2
    rcases choose_cases o t.totalLag c (consecutiveDown w t.groupId) with
      ⟨-, he⟩ | ⟨-, ⟨-, ⟨hlt, -⟩ | ⟨-, he⟩⟩ | ⟨hnot, -⟩⟩
    · rw [he] at hd
      cases hd
    · exact hlt
    · rw [he] at hd
      cases hd
    · exact absurd ⟨hlow, hmin⟩ hnot
  · intro hlt
    obtain ⟨hheld, hup⟩ := hk.free hlow hmin hlt
    have he : (choose o t.totalLag c (consecutiveDown w t.groupId)).1 = some .down := by
      rcases choose_cases o t.totalLag c (consecutiveDown w t.groupId) with
        ⟨hup', -⟩ | ⟨-, ⟨-, ⟨-, he⟩ | ⟨hge, -⟩⟩ | ⟨hnot, -⟩⟩
      · exact absurd hup' hup
      · rw [he]
      · rw [hlt] at hge
        cases hge
      · exact absurd ⟨hlow, hmin⟩ hnot
    obtain ⟨e, hwant⟩ := Option.isSome_iff_exists.1 (hk.down hheld he).1
    have hmap : (wanted o t c w).map (·.direction) = some e.direction := by rw [hwant]; rfl
    have hd := (direction_wanted hmap).2
    rw [he] at hd
    rw [hmap, hd]

theorem sequence_step (hk : KeptStep o groupId s a) (hrun : s.world.isRunning = true)
    (hn : consecutiveDown s.world groupId = downs o s.history) (hl : Lawful o s.history)
    (hs : (sequence o groupId).step s a = some s') :
    s'.world.isRunning = true ∧ consecutiveDown s'.world groupId = downs o s'.history ∧
      Lawful o s'.history := by
  simp only [sequence] at hs
  split at hs
  · cases hs
    have hrun' : (s.ahead a).isRunning = true := hrun
    obtain ⟨counts, hw⟩ := counted_eq groupId a.outcome (s.ahead a)
    unfold KeptStep at hk
    rw [evaluateAlone_eq groupId a.totalLag hrun']
    rw [hw] at hk ⊢
    have hreq := requested_decided (o := o)
      ⟨groupId, a.totalLag, .counted (countOf groupId a.outcome (s.ahead a))⟩
      (countOf groupId a.outcome (s.ahead a)) a.outcome.scales
      { s.ahead a with currentConsumerCounts := counts }
    refine ⟨(isRunning_decided _ _ _ _).trans hrun', ?_, ?_⟩
    · refine (counter_step hk hn).trans ?_
      rw [← hreq]
      rfl
    · refine ⟨fun hlow hmin => ?_, hl⟩
      rw [← hn]
      refine Iff.trans ?_ (request_iff hk hlow hmin)
      rw [← hreq]
      rfl
  · cases hs

/-- In a run whose evaluations keep the counter, each that sees a lag no higher than the lower
threshold and a count above the minimum asks for a scale-down just when fewer than the limit have
succeeded since one scaled up or saw a lag between. -/
theorem lawful_of_run (hr : Run (sequence o groupId) h s) (hk : Along (KeptStep o groupId) h) :
    Lawful o s.history := by
  refine (Run.invariant_of (P := fun s => s.world.isRunning = true ∧
    consecutiveDown s.world groupId = downs o s.history ∧ Lawful o s.history)
    (fun s hs => ?_) (fun s a s' hP hk hs => ?_) hr hk).2.2
  · obtain ⟨clock, rfl⟩ := hs
    exact ⟨rfl, rfl, trivial⟩
  · exact sequence_step hk hP.1 hP.2.1 hP.2.2 hs

/-- Three scale-downs in a row, a fourth that the limit holds back, and another after a lag
between. -/
theorem lawful_of_run_limited : ∃ h s, Run (sequence {} "g") h s ∧ Lawful {} s.history ∧
    s.history = [⟨10, 5, some .down, true⟩, ⟨500, 5, none, true⟩, ⟨10, 5, none, true⟩,
      ⟨10, 6, some .down, true⟩, ⟨10, 7, some .down, true⟩, ⟨10, 8, some .down, true⟩] := by
  obtain ⟨h, s, hr, hp⟩ := Sys.exists_run (S := sequence {} "g")
    (s := { world := { clock := 1000000, isRunning := true, listeners := 1 } }) ⟨_, rfl⟩
    [⟨0, 10, ⟨some 8, true⟩⟩, ⟨60000, 10, ⟨none, true⟩⟩, ⟨60000, 10, ⟨none, true⟩⟩,
      ⟨60000, 10, ⟨none, true⟩⟩, ⟨60000, 500, ⟨none, true⟩⟩, ⟨60000, 10, ⟨none, true⟩⟩]
    (p := fun r => r.1.all (fun step => decide (KeptStep {} "g" step.pre step.act)) &&
      r.2.history == [⟨10, 5, some .down, true⟩, ⟨500, 5, none, true⟩, ⟨10, 5, none, true⟩,
        ⟨10, 6, some .down, true⟩, ⟨10, 7, some .down, true⟩, ⟨10, 8, some .down, true⟩])
    (by decide +kernel)
  simp only [Bool.and_eq_true, beq_iff_eq, List.all_eq_true, decide_eq_true_eq] at hp
  exact ⟨h, s, hr, lawful_of_run hr hp.1, hp.2⟩

/-- Three scale-downs fail, and the fourth is not asked for. -/
theorem not_lawful_after_failures : ∃ h s, Run (sequence {} "g") h s ∧ ¬ Lawful {} s.history ∧
    s.history = ⟨10, 5, none, true⟩ :: List.replicate 3 ⟨10, 5, some .down, false⟩ := by
  obtain ⟨h, s, hr, hp⟩ := Sys.exists_run (S := sequence {} "g")
    (s := { world := { clock := 1000000, isRunning := true, listeners := 1 } }) ⟨_, rfl⟩
    [⟨0, 10, ⟨some 5, false⟩⟩, ⟨60000, 10, ⟨none, false⟩⟩, ⟨60000, 10, ⟨none, false⟩⟩,
      ⟨60000, 10, ⟨none, true⟩⟩]
    (p := fun r => r.2.history ==
      ⟨10, 5, none, true⟩ :: List.replicate 3 ⟨10, 5, some .down, false⟩)
    (by decide +kernel)
  have hh := beq_iff_eq.1 hp
  refine ⟨h, s, hr, fun hl => ?_, hh⟩
  rw [hh] at hl
  have hnone := (hl.1 (by decide +kernel) (by decide)).2 (by decide +kernel)
  cases hnone

end Sequence

end KafkaAutoScaler

end VeriNode
