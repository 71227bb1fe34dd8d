import VeriNode.ConsensusSim.Simulation

/-!
# A simulation that never recovers

A validator proposes a value with its own name in it, and sends it to each of the others once. So no
value comes twice to a validator (`count_delivered_le`), and of two or more validators at least two
would have to send it: no round decides (`runRound_eq`), whatever the faults, and a run ends with
its last round (`never_recovers`).
-/

namespace VeriNode

namespace ConsensusSim

section Lists

variable {α β γ : Type*}

theorem map_filterMap_sublist {f : α → Option β} {g : β → γ} {p : α → γ}
    (hf : ∀ a b, f a = some b → g b = p a) (l : List α) :
    ((l.filterMap f).map g).Sublist (l.map p) := by
  induction l with
  | nil => exact .slnil
  | cons a l ih =>
    rcases ha : f a with _ | b
    · rw [List.filterMap_cons_none ha]
      exact ih.cons _
    · rw [List.filterMap_cons_some ha, List.map_cons, List.map_cons, hf a b ha]
      exact ih.cons_cons _

theorem countP_le_one [DecidableEq γ] {g : β → γ} {c : γ} {p : β → Bool} {l : List β}
    (h : (l.map g).Nodup) (hp : ∀ b ∈ l, p b = true → g b = c) : l.countP p ≤ 1 := by
  calc l.countP p ≤ l.countP fun b => g b == c :=
        List.countP_mono_left fun b hb hpb => beq_iff_eq.2 (hp b hb hpb)
    _ = (l.map g).count c := by rw [List.count, List.countP_map]; rfl
    _ ≤ 1 := List.nodup_iff_count_le_one.1 h c

end Lists

section Messages

variable {faultSpec : Option FaultSpec} {draws : Draws} {validators : List ValidatorState}
variable {round : ℕ}

theorem proposal_injective {a b : String} (h : proposal a round = proposal b round) : a = b := by
  have h := String.toList_inj.2 h
  simp only [proposal, toString, String.toList_append, List.append_assoc] at h
  exact String.toList_inj.1 (List.append_cancel_right h)

theorem proposals_get {id payload : String}
    (h : (proposals faultSpec validators round).get id = some payload) :
    payload = proposal id round := by
  have hfold : ∀ (l : List ValidatorState) (ps : OrdMap String String),
      (∀ k v, ps.get k = some v → v = proposal k round) →
      ∀ k v, (l.foldl (fun ps v => if timedOut faultSpec v.id round then ps
        else ps.set v.id (proposal v.id round)) ps).get k = some v → v = proposal k round := by
    intro l
    induction l with
    | nil => exact fun _ h => h
    | cons x l ih =>
      intro ps hps
      refine ih _ fun k v hk => ?_
      dsimp only at hk
      split_ifs at hk
      · exact hps k v hk
      · rcases OrdMap.of_get_set hk with ⟨rfl, rfl⟩ | ⟨-, hk⟩
        · rfl
        · exact hps k v hk
  exact hfold validators ∅ (fun k v hk => by cases hk) id payload h

theorem deliver_eq {sender payload dest : String} {m : Message}
    (he : equivocates faultSpec sender = false)
    (h : (deliver faultSpec draws round sender payload dest).message = some m) :
    m = ⟨sender, dest, round, payload⟩ := by
  simp only [deliver, he, Bool.false_eq_true, if_false] at h
  split_ifs at h
  exact (Option.some.inj h).symm

/-- What is sent in a round, and to whom. -/
def sends (faultSpec : Option FaultSpec) (validators : List ValidatorState) (round : ℕ) :
    List ((String × String) × String) :=
  (proposals faultSpec validators round).entries.flatMap fun e =>
    ((validators.map (·.id)).filter (· ≠ e.1)).map fun dest => (e, dest)

theorem delivered_eq : delivered faultSpec draws validators round =
    (sends faultSpec validators round).filterMap fun t =>
      (deliver faultSpec draws round t.1.1 t.1.2 t.2).message := by
  rw [delivered, deliveries, sends, List.filterMap_flatMap, List.filterMap_flatMap]
  simp only [List.filterMap_map]
  rfl

theorem nodup_sends (hd : (validators.map (·.id)).Nodup) :
    ((sends faultSpec validators round).map fun t => (t.1.1, t.2)).Nodup := by
  rw [sends, List.map_flatMap, List.nodup_flatMap]
  refine ⟨fun e _ => ?_, ?_⟩
  · rw [List.map_map]
    exact (hd.filter _).map fun a b h => (Prod.mk.inj h).2
  · have hkeys := (List.pairwise_map.1 (proposals faultSpec validators round).nodup)
    refine hkeys.imp fun {e e'} hne => List.disjoint_left.2 fun p hp hp' => hne ?_
    simp only [List.map_map, List.mem_map, Function.comp_apply] at hp hp'
    obtain ⟨_, -, rfl⟩ := hp
    obtain ⟨_, -, hp'⟩ := hp'
    exact (Prod.mk.inj hp').1.symm

theorem nodup_delivered (hd : (validators.map (·.id)).Nodup)
    (he : ∀ id, equivocates faultSpec id = false) :
    ((delivered faultSpec draws validators round).map fun m => (m.«from», m.«to»)).Nodup := by
  rw [delivered_eq]
  refine (map_filterMap_sublist (p := fun t => (t.1.1, t.2)) (fun t m hm => ?_) _).nodup
    (nodup_sends hd)
  rw [deliver_eq (he _) hm]

theorem payload_of_mem (he : ∀ id, equivocates faultSpec id = false) {m : Message}
    (hm : m ∈ delivered faultSpec draws validators round) :
    m.payload = proposal m.«from» round := by
  rw [delivered_eq] at hm
  obtain ⟨t, ht, hm⟩ := List.mem_filterMap.1 hm
  obtain ⟨e, hentry, hdest⟩ := List.mem_flatMap.1 ht
  obtain ⟨dest, -, rfl⟩ := List.mem_map.1 hdest
  rw [deliver_eq (he _) hm]
  exact proposals_get (OrdMap.mem_entries_iff.1 hentry)

theorem count_delivered_le (hd : (validators.map (·.id)).Nodup)
    (he : ∀ id, equivocates faultSpec id = false) (vid val : String) :
    (delivered faultSpec draws validators round).countP
      (fun m => decide (m.«to» = vid ∧ m.payload = val)) ≤ 1 := by
  rcases Nat.eq_zero_or_pos ((delivered faultSpec draws validators round).countP
      fun m => decide (m.«to» = vid ∧ m.payload = val)) with hzero | hpos
  · exact hzero.trans_le (Nat.zero_le 1)
  · obtain ⟨m, hm, hval⟩ := List.countP_pos_iff.1 hpos
    obtain ⟨hvid, hval⟩ := of_decide_eq_true hval
    refine countP_le_one (nodup_delivered hd he) (c := (m.«from», vid)) fun m' hm' hval' => ?_
    obtain ⟨hvid', hval'⟩ := of_decide_eq_true hval'
    have hsender : proposal m'.«from» round = proposal m.«from» round := by
      rw [← payload_of_mem he hm, ← payload_of_mem he hm', hval, hval']
    rw [proposal_injective hsender, hvid']

end Messages

section Tallies

/-- How often a value has come to a validator. -/
def received (perRecipient : OrdMap String (OrdMap String ℕ)) (vid val : String) : ℕ :=
  (((perRecipient.get vid).getD ∅).get val).getD 0

theorem received_count (t : OrdMap String (OrdMap String ℕ)) (m : Message) (vid val : String) :
    received (count t m) vid val =
      received t vid val + if m.«to» = vid ∧ m.payload = val then 1 else 0 := by
  simp only [received, count, OrdMap.get_set]
  by_cases hvid : vid = m.«to»
  · subst hvid
    by_cases hval : val = m.payload
    · subst hval
      simp
    · simp [OrdMap.get_set, hval, Ne.symm hval]
  · simp [hvid, Ne.symm hvid]

theorem received_foldl (msgs : List Message) (t : OrdMap String (OrdMap String ℕ))
    (vid val : String) : received (msgs.foldl count t) vid val =
      received t vid val + msgs.countP fun m => decide (m.«to» = vid ∧ m.payload = val) := by
  induction msgs generalizing t with
  | nil => rfl
  | cons m msgs ih =>
    rw [List.foldl_cons, ih, received_count, List.countP_cons]
    simp only [decide_eq_true_eq]
    omega

theorem received_tally (validators : List ValidatorState) (msgs : List Message)
    (vid val : String) :
    received (tally validators msgs) vid val =
      msgs.countP fun m => decide (m.«to» = vid ∧ m.payload = val) := by
  have hstart : ∀ (l : List ValidatorState) (t : OrdMap String (OrdMap String ℕ)),
      received t vid val = 0 →
      received (l.foldl (fun t v => t.set v.id ∅) t) vid val = 0 := by
    intro l
    induction l with
    | nil => exact fun _ h => h
    | cons v l ih =>
      intro t ht
      refine ih _ ?_
      rw [received, OrdMap.get_set]
      split_ifs
      · rfl
      · exact ht
  rw [tally, received_foldl, hstart validators ∅ rfl, Nat.zero_add]

theorem majority_eq_none {n : ℕ} (hn : 2 ≤ n) {t : OrdMap String ℕ}
    (ht : ∀ val c, t.get val = some c → c ≤ 1) : majority n t = none := by
  rw [majority, Option.map_eq_none_iff, List.find?_eq_none]
  rintro ⟨val, c⟩ he
  have := ht val c (OrdMap.mem_entries_iff.1 he)
  rw [decide_eq_true_eq]
  omega

theorem foldl_observe {n round : ℕ} {s : List ValidatorState × Bool} :
    ∀ l : List (String × OrdMap String ℕ), (∀ e ∈ l, majority n e.2 = none) →
      l.foldl (observe n round) s = s
  | [], _ => rfl
  | e :: l, h => by
    have he : observe n round s e = s := by rw [observe, h e List.mem_cons_self]
    rw [List.foldl_cons, he]
    exact foldl_observe l fun e' he' => h e' (List.mem_cons_of_mem _ he')

end Tallies

section Runs

variable {faultSpec : Option FaultSpec} {validators : List ValidatorState}

theorem runRound_eq (hn : 2 ≤ validators.length) (hd : (validators.map (·.id)).Nodup)
    (he : ∀ id, equivocates faultSpec id = false) (draws : Draws) (round : ℕ) :
    runRound faultSpec draws validators round = (validators, false) := by
  rw [runRound]
  refine foldl_observe _ fun e hentry => majority_eq_none hn fun val c hc => ?_
  have hreceived := received_tally validators (delivered faultSpec draws validators round) e.1 val
  rw [received, OrdMap.mem_entries_iff.1 hentry, Option.getD_some, hc, Option.getD_some]
    at hreceived
  exact hreceived.trans_le (count_delivered_le hd he e.1 val)

variable {cfg : SimulationConfig}

theorem loop_eq (hn : 2 ≤ validators.length) (hd : (validators.map (·.id)).Nodup)
    (he : ∀ id, equivocates cfg.faultSpec id = false) (draws : Draws) (left round : ℕ) :
    Simulation.loop cfg draws left round validators =
      (⟨Simulation.maxRounds cfg, false⟩, validators) := by
  induction left generalizing round with
  | zero => rfl
  | succ left ih => rw [Simulation.loop, runRound_eq hn hd he]; exact ih (round + 1)

/-- A run recovers within a round of the end of its faults, and those who decide in a round decide
the same. -/
structure Recovers (cfg : SimulationConfig) (draws : Draws) (d : ℕ) : Prop where
  recovered : (Simulation.run cfg draws).1.recovered = true
  rounds : (Simulation.run cfg draws).1.rounds ≤ d + 1
  agree : ∀ v ∈ (Simulation.run cfg draws).2, ∀ w ∈ (Simulation.run cfg draws).2,
    ∀ round val val', v.decided.get round = some val → w.decided.get round = some val' → val = val'

/-- No run recovers. -/
theorem never_recovers (hn : 2 ≤ cfg.validators.length) (hd : cfg.validators.Nodup)
    (he : ∀ id, equivocates cfg.faultSpec id = false) (draws : Draws) :
    (Simulation.run cfg draws).1 = ⟨Simulation.maxRounds cfg, false⟩ ∧
      ∀ d, ¬ Recovers cfg draws d := by
  have hids : (Simulation.start cfg).map (·.id) = cfg.validators := by
    simp [Simulation.start, Function.comp_def]
  have hrun : Simulation.run cfg draws =
      (⟨Simulation.maxRounds cfg, false⟩, Simulation.start cfg) :=
    loop_eq (by simpa [Simulation.start] using hn) (hids.symm ▸ hd) he draws _ 1
  refine ⟨congrArg Prod.fst hrun, fun d h => ?_⟩
  have hrecovered := h.recovered
  rw [hrun] at hrecovered
  exact Bool.false_ne_true hrecovered

theorem never_recovers_two :
    (Simulation.run ⟨["a", "b"], none, none⟩ fun _ _ _ => (0, 0)).1 = ⟨20, false⟩ :=
  (never_recovers (by decide) (by decide) (fun _ => rfl) _).1

/-- Four validators, no faults, and one round. -/
theorem no_recovery : ¬ Recovers ⟨["a", "b", "c", "d"], some 1, none⟩ (fun _ _ _ => (0, 0)) 0 := by
  intro h
  have hrecovered := h.recovered
  revert hrecovered
  decide +kernel

end Runs

end ConsensusSim

end VeriNode
