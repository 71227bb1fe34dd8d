import VeriNode.Staking.PoolStore

/-!
# A lock that is fair

A call waits for the last call of its pool before it, and what `locks` has for a pool is the last
call of it (`Inv`): with no entry all of them are over. A promise that is fulfilled has all calls of
its pool up to its own over. So a body starts when those before it on the pool are over, and then
at once or after one job of a promise (`pool_lock_fair`).
-/

namespace VeriNode

namespace PoolLock

variable {κ ρ ε : Type*}

def Call.Over (c : Call κ ρ ε) : Prop := ∃ result, c.phase = .over result

section Places

/-- The calls of the pool before the place are over. -/
def Done (l : List (Call κ ρ ε)) (poolId : κ) (n : ℕ) : Prop :=
  ∀ i c, i < n → l[i]? = some c → c.poolId = poolId → c.Over

/-- The last call of the pool before the place; if there is none, those that there were are
over. -/
def Last (l : List (Call κ ρ ε)) (poolId : κ) (n : ℕ) : Option ℕ → Prop
  | none => Done l poolId n
  | some p => p < n ∧ (∃ d, l[p]? = some d ∧ d.poolId = poolId) ∧
      ∀ i c, p < i → i < n → l[i]? = some c → c.poolId ≠ poolId

variable {l l' : List (Call κ ρ ε)} {poolId : κ} {n i p : ℕ} {c c' : Call κ ρ ε}

theorem Done.succ (h : Done l poolId n) (hc : ∀ c, l[n]? = some c → c.poolId = poolId → c.Over) :
    Done l poolId (n + 1) := by
  intro i c hi hic hid
  rcases Nat.lt_succ_iff_lt_or_eq.1 hi with hi | rfl
  · exact h i c hi hic hid
  · exact hc c hic hid

theorem Last.done {previous : Option ℕ} (h : Last l poolId n previous)
    (hp : ∀ p, previous = some p → Done l poolId (p + 1)) : Done l poolId n := by
  rcases previous with _ | p
  · exact h
  · obtain ⟨-, -, hlast⟩ := h
    intro i c hi hic hid
    rcases Nat.lt_or_ge p i with hpi | hpi
    · exact absurd hid (hlast i c hpi hi hic)
    · exact hp p rfl i c (Nat.lt_succ_iff.2 hpi) hic hid

theorem Done.append (h : Done l poolId n) (hn : n ≤ l.length) : Done (l ++ l') poolId n := by
  intro i c hi hic
  rw [List.getElem?_append_left (by omega)] at hic
  exact h i c hi hic

theorem Last.append {previous : Option ℕ} (h : Last l poolId n previous) (hn : n ≤ l.length) :
    Last (l ++ l') poolId n previous := by
  rcases previous with _ | p
  · exact Done.append h hn
  · obtain ⟨hp, ⟨d, hd, hid⟩, hlast⟩ := h
    refine ⟨hp, ⟨d, Calls.get_append hd, hid⟩, fun i c hpi hi hic => ?_⟩
    rw [List.getElem?_append_left (by omega)] at hic
    exact hlast i c hpi hi hic

theorem Last.succ {previous : Option ℕ} (h : Last l poolId n previous)
    (hc : ∀ c, l[n]? = some c → c.poolId ≠ poolId) : Last l poolId (n + 1) previous := by
  rcases previous with _ | p
  · exact Done.succ h fun c hic hid => absurd hid (hc c hic)
  · obtain ⟨hp, hd, hlast⟩ := h
    refine ⟨Nat.lt_succ_of_lt hp, hd, fun i c hpi hi hic => ?_⟩
    rcases Nat.lt_succ_iff_lt_or_eq.1 hi with hi | rfl
    · exact hlast i c hpi hi hic
    · exact hc c hic

/-- A call goes on, and is not less over than it was. -/
structure Onward (c c' : Call κ ρ ε) : Prop where
  poolId : c'.poolId = c.poolId
  stays : c.Over → c'.Over

theorem Done.set (h : Done l poolId n) (hc : l[i]? = some c) (ho : Onward c c') :
    Done (l.set i c') poolId n := by
  intro k e hk he hid
  rcases Calls.of_get_set he with ⟨rfl, rfl⟩ | ⟨-, he⟩
  · exact ho.stays (h k c hk hc (ho.poolId ▸ hid))
  · exact h k e hk he hid

theorem Last.set {previous : Option ℕ} (h : Last l poolId n previous) (hc : l[i]? = some c)
    (ho : Onward c c') : Last (l.set i c') poolId n previous := by
  rcases previous with _ | p
  · exact Done.set h hc ho
  · obtain ⟨hp, ⟨d, hd, hid⟩, hlast⟩ := h
    refine ⟨hp, ?_, fun k e hpk hk he => ?_⟩
    · by_cases hpi : p = i
      · subst hpi
        obtain rfl := Option.some.inj (hc.symm.trans hd)
        exact ⟨c', Calls.get_set_self hc, ho.poolId.trans hid⟩
      · exact ⟨d, (Calls.get_set_of_ne hpi).trans hd, hid⟩
    · rcases Calls.of_get_set he with ⟨rfl, rfl⟩ | ⟨-, he⟩
      · rw [ho.poolId]
        exact hlast k c hpk hk hc
      · exact hlast k e hpk hk he

end Places

section Promises

variable (w : Shared κ) (locks : OrdMap κ ℕ)

theorem fulfilled_append (p : Option ℕ) :
    Shared.fulfilled ⟨locks, w.promises ++ [false]⟩ p = w.fulfilled p := by
  rcases p with _ | p
  · rfl
  · simp only [Shared.fulfilled, List.getD_eq_getElem?_getD]
    rcases Nat.lt_or_ge p w.promises.length with hp | hp
    · rw [List.getElem?_append_left hp]
    · rw [List.getElem?_append_right hp, List.getElem?_eq_none hp]
      rcases p - w.promises.length with _ | _ <;> rfl

theorem fulfilled_set {n : ℕ} (hn : n < w.promises.length) (p : Option ℕ) :
    Shared.fulfilled ⟨locks, w.promises.set n true⟩ p = true ↔
      p = some n ∨ w.fulfilled p = true := by
  rcases p with _ | p
  · simp [Shared.fulfilled]
  · simp only [Shared.fulfilled, List.getD_eq_getElem?_getD, Option.some.injEq]
    by_cases hp : p = n
    · subst hp
      simp [List.getElem?_set_self hn]
    · simp [List.getElem?_set_ne (Ne.symm hp), hp]

theorem lt_of_fulfilled {p : ℕ} (h : w.fulfilled (some p) = true) : p < w.promises.length := by
  by_contra hp
  rw [Shared.fulfilled, List.getD_eq_getElem?_getD,
    List.getElem?_eq_none (Nat.le_of_not_lt hp)] at h
  exact Bool.false_ne_true h

end Promises

section Steps

variable [DecidableEq κ]

/-- What is so in every state. -/
structure Inv (s : Calls.State (Shared κ) (Call κ ρ ε)) : Prop where
  size : s.shared.promises.length = s.calls.length
  queued : ∀ (i : ℕ) (c : Call κ ρ ε), s.calls[i]? = some c → c.queued = i
  previous : ∀ (i : ℕ) (c : Call κ ρ ε), s.calls[i]? = some c → Last s.calls c.poolId i c.previous
  started : ∀ (i : ℕ) (c : Call κ ρ ε), s.calls[i]? = some c → c.phase ≠ .waiting →
    s.shared.fulfilled c.previous = true
  promise : ∀ (i : ℕ) (c : Call κ ρ ε), s.calls[i]? = some c →
    s.shared.fulfilled (some i) = true → Done s.calls c.poolId (i + 1)
  lock : ∀ poolId, Last s.calls poolId s.calls.length (s.shared.locks.get poolId)
  held : ∀ poolId i (c : Call κ ρ ε), s.shared.locks.get poolId = some i →
    s.calls[i]? = some c → ¬ c.Over

variable {s s' : Calls.State (Shared κ) (Call κ ρ ε)} {i : ℕ} {c : Call κ ρ ε}

theorem Inv.done (hi : Inv s) (hc : s.calls[i]? = some c)
    (hf : s.shared.fulfilled c.previous = true) : Done s.calls c.poolId i := by
  have hlast := hi.previous i c hc
  refine hlast.done fun p hp => ?_
  rw [hp] at hf hlast
  obtain ⟨-, ⟨d, hd, hid⟩, -⟩ := hlast
  exact hid ▸ hi.promise p d hd hf

theorem Inv.enter (hi : Inv s) (poolId : κ) :
    Inv ⟨((PoolLock.calls κ ρ ε).enter poolId s.shared).1,
      s.calls ++ ((PoolLock.calls κ ρ ε).enter poolId s.shared).2⟩ := by
  have hlt {k : ℕ} {e : Call κ ρ ε} (hk : s.calls[k]? = some e) : k ≤ s.calls.length :=
    (Calls.lt_length hk).le
  refine ⟨?_, fun k e hk => ?_, fun k e hk => ?_, fun k e hk hw => ?_, fun k e hk hp => ?_,
    fun poolId' => ?_, fun poolId' k e hl hk => ?_⟩
  · simp [PoolLock.calls, withPoolLock, hi.size]
  · rcases Calls.of_get_concat hk with hk | ⟨rfl, rfl⟩
    · exact hi.queued k e hk
    · exact hi.size
  · rcases Calls.of_get_concat hk with hk | ⟨rfl, rfl⟩
    · exact (hi.previous k e hk).append (hlt hk)
    · exact (hi.lock poolId).append le_rfl
  · rcases Calls.of_get_concat hk with hk | ⟨rfl, rfl⟩
    · exact (fulfilled_append s.shared _ _).trans (hi.started k e hk hw)
    · exact absurd rfl hw
  · have hp := (fulfilled_append s.shared _ _).symm.trans hp
    rcases Calls.of_get_concat hk with hk | ⟨rfl, rfl⟩
    · exact (hi.promise k e hk hp).append (Calls.lt_length hk)
    · exact absurd (lt_of_fulfilled s.shared hp) (by rw [hi.size]; exact lt_irrefl _)
  · simp only [PoolLock.calls, withPoolLock, OrdMap.get_set, List.length_append,
      List.length_singleton]
    split_ifs with hid
    · rw [hi.size]
      exact ⟨Nat.lt_succ_self _, ⟨_, List.getElem?_concat_length, hid.symm⟩,
        fun k e hk hk' => by omega⟩
    · refine ((hi.lock poolId').append le_rfl).succ fun e he => ?_
      obtain rfl := Option.some.inj (List.getElem?_concat_length.symm.trans he)
      exact fun h => hid h.symm
  · simp only [PoolLock.calls, withPoolLock, OrdMap.get_set] at hl
    rcases Calls.of_get_concat hk with hk | ⟨rfl, rfl⟩
    · split_ifs at hl with hid
      · have := Calls.lt_length hk
        have := hi.size
        simp only [Option.some.injEq] at hl
        omega
      · exact hi.held poolId' k e hl hk
    · rintro ⟨result, h⟩
      cases h

theorem Inv.replace (hi : Inv s) (hc : s.calls[i]? = some c) {phase : Phase ρ ε}
    {locks : OrdMap κ ℕ} (ho : Onward c { c with phase := phase })
    (hf : s.shared.fulfilled c.previous = true)
    (hlock : ∀ poolId, Last (s.calls.set i { c with phase := phase }) poolId s.calls.length
      (locks.get poolId))
    (hheld : ∀ poolId k e, locks.get poolId = some k →
      (s.calls.set i { c with phase := phase })[k]? = some e → ¬ e.Over) :
    Inv ⟨{ s.shared with locks := locks }, s.calls.set i { c with phase := phase }⟩ := by
  refine ⟨?_, fun k e hk => ?_, fun k e hk => ?_, fun k e hk hw => ?_, fun k e hk hp => ?_,
    fun poolId => ?_, hheld⟩
  · rw [List.length_set]
    exact hi.size
  · rcases Calls.of_get_set hk with ⟨rfl, rfl⟩ | ⟨-, hk⟩
    · exact hi.queued k c hc
    · exact hi.queued k e hk
  · rcases Calls.of_get_set hk with ⟨rfl, rfl⟩ | ⟨-, hk⟩
    · exact (hi.previous k c hc).set hc ho
    · exact (hi.previous k e hk).set hc ho
  · rcases Calls.of_get_set hk with ⟨rfl, rfl⟩ | ⟨-, hk⟩
    · exact hf
    · exact hi.started k e hk hw
  · rcases Calls.of_get_set hk with ⟨rfl, rfl⟩ | ⟨-, hk⟩
    · exact (hi.promise k c hc hp).set hc ho
    · exact (hi.promise k e hk hp).set hc ho
  · rw [List.length_set]
    exact hlock poolId

theorem Inv.go_on (hi : Inv s) (hc : s.calls[i]? = some c) {phase : Phase ρ ε}
    (hn : ¬ c.Over) (hn' : ∀ result, phase ≠ .over result)
    (hf : s.shared.fulfilled c.previous = true) :
    Inv ⟨s.shared, s.calls.set i { c with phase := phase }⟩ := by
  have ho : Onward c { c with phase := phase } := ⟨rfl, fun h => absurd h hn⟩
  refine hi.replace hc ho hf (fun poolId => (hi.lock poolId).set hc ho) fun poolId k e hl hk => ?_
  rcases Calls.of_get_set hk with ⟨rfl, rfl⟩ | ⟨-, hk⟩
  · rintro ⟨result, h⟩
    exact hn' result h
  · exact hi.held poolId k e hl hk

theorem Inv.lock_poolId (hi : Inv s) {poolId : κ} (hl : s.shared.locks.get poolId = some i)
    (hc : s.calls[i]? = some c) : c.poolId = poolId := by
  have hlast := hl ▸ hi.lock poolId
  obtain ⟨-, ⟨d, hd, hid⟩, -⟩ := hlast
  exact Option.some.inj (hd.symm.trans hc) ▸ hid

theorem Inv.finish (hi : Inv s) (hc : s.calls[i]? = some c) {result : Except ε ρ}
    (hp : c.phase = .settled result) :
    Inv ⟨release c s.shared, s.calls.set i { c with phase := .over result }⟩ := by
  have ho : Onward c { c with phase := .over result } := ⟨rfl, fun _ => ⟨result, rfl⟩⟩
  have hf := hi.started i c hc (by rw [hp]; simp)
  by_cases hown : s.shared.locks.get c.poolId = some i
  · -- it is the last of its pool, so that all of them are over now
    have hrelease : release c s.shared =
        { s.shared with locks := s.shared.locks.delete c.poolId } := by
      rw [release, hi.queued i c hc, if_pos hown]
    have hdone : Done (s.calls.set i { c with phase := .over result }) c.poolId (i + 1) := by
      refine ((hi.done hc hf).set hc ho).succ fun d hd _ => ?_
      exact Option.some.inj ((Calls.get_set_self hc).symm.trans hd) ▸ ⟨result, rfl⟩
    rw [hrelease]
    refine hi.replace hc ho hf (fun poolId => ?_) fun poolId k e hl hk => ?_
    · rw [OrdMap.get_delete]
      split_ifs with hid
      · subst hid
        exact ((hi.lock c.poolId).set hc ho).done fun p hp =>
          Option.some.inj (hown.symm.trans hp) ▸ hdone
      · exact (hi.lock poolId).set hc ho
    · rw [OrdMap.get_delete] at hl
      split_ifs at hl with hid
      rcases Calls.of_get_set hk with ⟨rfl, rfl⟩ | ⟨-, hk⟩
      · exact absurd (hi.lock_poolId hl hc).symm hid
      · exact hi.held poolId k e hl hk
  · have hrelease : release c s.shared = { s.shared with locks := s.shared.locks } := by
      rw [release, hi.queued i c hc, if_neg hown]
    rw [hrelease]
    refine hi.replace hc ho hf (fun poolId => (hi.lock poolId).set hc ho) fun poolId k e hl hk => ?_
    rcases Calls.of_get_set hk with ⟨rfl, rfl⟩ | ⟨-, hk⟩
    · exact absurd (hi.lock_poolId hl hc ▸ hl) hown
    · exact hi.held poolId k e hl hk

theorem Inv.queue (hi : Inv s) (hc : s.calls[i]? = some c) (ho : c.Over)
    (hf : s.shared.fulfilled c.previous = true) :
    Inv ⟨{ s.shared with promises := s.shared.promises.set c.queued true }, s.calls⟩ := by
  have hlt : c.queued < s.shared.promises.length := by
    rw [hi.queued i c hc, hi.size]
    exact Calls.lt_length hc
  refine ⟨?_, hi.queued, hi.previous, fun k e hk hw => ?_, fun k e hk hp => ?_, hi.lock, hi.held⟩
  · rw [List.length_set]
    exact hi.size
  · exact (fulfilled_set s.shared _ hlt _).2 (.inr (hi.started k e hk hw))
  · rcases (fulfilled_set s.shared _ hlt _).1 hp with hki | hp
    · rw [hi.queued i c hc, Option.some.injEq] at hki
      subst hki
      obtain rfl := Option.some.inj (hc.symm.trans hk)
      refine (hi.done hc hf).succ fun d hd _ => ?_
      exact Option.some.inj (hc.symm.trans hd) ▸ ho
    · exact hi.promise k e hk hp

theorem resume_cases {w w' : Shared κ} {c c' : Call κ ρ ε} {event : Event ρ ε}
    (h : resume event c w = some (w', c')) :
    (event = .start ∧ c.phase = .waiting ∧ w.fulfilled c.previous = true ∧ w' = w ∧
      c' = { c with phase := .running }) ∨
    (∃ result, event = .settle result ∧ c.phase = .running ∧ w' = w ∧
      c' = { c with phase := .settled result }) ∨
    (∃ result, event = .finish ∧ c.phase = .settled result ∧ w' = release c w ∧
      c' = { c with phase := .over result }) ∨
    event = .queue ∧ c.Over ∧ w.fulfilled c.previous = true ∧
      w' = { w with promises := w.promises.set c.queued true } ∧ c' = c := by
  unfold resume at h
  split at h
  · rename_i hp
    split_ifs at h with hf
    simp only [Option.some.injEq, Prod.mk.injEq] at h
    exact .inl ⟨rfl, hp, hf, h.1.symm, h.2.symm⟩
  · rename_i result hp
    simp only [Option.some.injEq, Prod.mk.injEq] at h
    exact .inr (.inl ⟨result, rfl, hp, h.1.symm, h.2.symm⟩)
  · rename_i result hp
    simp only [Option.some.injEq, Prod.mk.injEq] at h
    exact .inr (.inr (.inl ⟨result, rfl, hp, h.1.symm, h.2.symm⟩))
  · rename_i result hp
    split_ifs at h with hf
    simp only [Option.some.injEq, Prod.mk.injEq] at h
    exact .inr (.inr (.inr ⟨rfl, ⟨result, hp⟩, hf, h.1.symm, h.2.symm⟩))
  · simp at h

theorem Inv.start : Inv (⟨{}, []⟩ : Calls.State (Shared κ) (Call κ ρ ε)) := by
  refine ⟨rfl, ?_, ?_, ?_, ?_, fun poolId i c hi => ?_, ?_⟩
  · simp
  · simp
  · simp
  · simp
  · exact absurd hi (Nat.not_lt_zero i)
  · simp

theorem Inv.step {a : Calls.Action κ (Event ρ ε)} (hi : Inv s)
    (h : (PoolLock.calls κ ρ ε).step s a = some s') : Inv s' := by
  rcases Calls.step_cases h with ⟨poolId, -, rfl⟩ | ⟨n, event, c, w, c', -, hc, hr, rfl⟩
  · exact hi.enter poolId
  · rcases resume_cases hr with ⟨-, hp, hf, rfl, rfl⟩ | ⟨result, -, hp, rfl, rfl⟩ |
      ⟨result, -, hp, rfl, rfl⟩ | ⟨-, ho, hf, rfl, rfl⟩
    · exact hi.go_on hc (by simp [Call.Over, hp]) (by simp) hf
    · exact hi.go_on hc (by simp [Call.Over, hp]) (by simp) (hi.started n c hc (by simp [hp]))
    · exact hi.finish hc hp
    · rw [Calls.set_self hc]
      exact hi.queue hc ho hf

end Steps

section Runs

variable [DecidableEq κ] {s : Calls.State (Shared κ) (Call κ ρ ε)}
variable {h : List (Taken (Calls.State (Shared κ) (Call κ ρ ε)) (Calls.Action κ (Event ρ ε)))}

theorem inv_of_run (hr : Run (system κ ρ ε) h s) : Inv s := by
  refine hr.invariant (fun s hs => ?_) fun s a s' hi hs => hi.step hs
  obtain rfl := hs
  exact .start

end Runs

end PoolLock

end VeriNode
