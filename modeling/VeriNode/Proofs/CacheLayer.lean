import VeriNode.Cache.CacheLayer

/-!
# When a replaced value does not come back

While Redis is unavailable, memory stands in for it, and what is written there does not reach Redis.
A connection that was opened before and succeeds then makes Redis available again: what it has of
the keys that were written comes back, and what is left in memory does at the next error. Along the
runs in which no connection succeeds so (`Clean`), a value that was replaced or deleted never comes
back (`fresh_of_clean`).
-/

namespace VeriNode

namespace Cache

variable {maxEntries : ℕ} {s s' : State} {a : Action} {h : List (Taken State Action)}

section Law

/-- A `get` that starts when a write is settled, and returns while it still is, returns nothing or
what that write has set. -/
def Fresh (s : State) : Prop :=
  ∀ r ∈ s.returns, ∀ id, r.since = some id → r.settled = some id →
    ∀ copy, r.copy = some copy → copy.writer = some id

/-- When a connection succeeds and Redis was taken to be unavailable, memory is empty and Redis has
nothing that is older than a settled write of its key. -/
def Clean (s : State) : Action → Prop
  | .connected _ => s.redisUnavailable = true →
      (∀ key, s.memory.get key = none)
        ∧ ∀ key id, s.settled key = some id → ∀ copy, s.redis key = some copy →
          copy.writer = some id
  | _ => True

end Law

section Steps

/-- Nothing, or what the write has set. -/
def Current (id : ℕ) (found : Option Copy) : Prop := ∀ copy, found = some copy → copy.writer = some id

/-- A write that no other write of its key has overlapped so far. -/
def Call.Last (s : State) (id : ℕ) (c : Call) : Prop :=
  c.op.writes = true ∧ c.alone = true ∧ s.lastWrite c.op.key = some id

/-- What is so of the calls in progress, of one of them (`except`) only in part; and a settled write
is current in memory, and in Redis if it is available. -/
structure Inv (except : Option ℕ) (s : State) : Prop where
  memory_empty : s.redisUnavailable = false → ∀ key, s.memory.get key = none
  memory : ∀ key id, s.settled key = some id → ∀ e, s.memory.get key = some e →
    e.value.writer = some id
  redis : s.redisUnavailable = false → ∀ key id, s.settled key = some id →
    Current id (s.redis key)
  gets : ∀ i c, some i ≠ except → s.calls.get i = some c → c.op.writes = false →
    ∀ id, c.since = some id → s.settled c.op.key = some id →
      Current id (s.redis c.op.key) ∧ ∀ copy, c.phase = .answered copy → Current id copy
  writes : ∀ i c, some i ≠ except → s.calls.get i = some c → c.Last s i →
    s.memory.get c.op.key = none ∧ ∀ copy, c.phase = .answered copy → Current i (s.redis c.op.key)
  unsettled : ∀ i c, s.calls.get i = some c → c.op.writes = true → s.settled c.op.key = none
  only : ∀ i j c d, s.calls.get i = some c → s.calls.get j = some d → c.Last s i →
    d.op.writes = true → d.op.key = c.op.key → j = i
  since : ∀ i c, s.calls.get i = some c → ∀ id, c.since = some id →
    id < s.nextCall ∧ s.calls.get id = none
  settled : ∀ key id, s.settled key = some id → id < s.nextCall ∧ s.calls.get id = none
  numbered : ∀ i c, s.calls.get i = some c → i < s.nextCall
  fresh : Fresh s

variable {except : Option ℕ} {id : ℕ} {c : Call}

theorem Inv.init (hs : (sys maxEntries).init s) : Inv none s := by
  obtain ⟨redis, -, rfl⟩ := hs
  have hnone : ∀ i c, (∅ : OrdMap ℕ Call).get i ≠ some c := by
    intro i c
    rw [OrdMap.get_empty]
    simp
  exact {
    memory_empty := fun _ _ => rfl
    memory := fun key id hset => by cases hset
    redis := fun _ key id hset => by cases hset
    gets := fun i c _ hget => absurd hget (hnone i c)
    writes := fun i c _ hget => absurd hget (hnone i c)
    unsettled := fun i c hget => absurd hget (hnone i c)
    only := fun i j c d hget => absurd hget (hnone i c)
    since := fun i c hget => absurd hget (hnone i c)
    settled := fun key id hset => by cases hset
    numbered := fun i c hget => absurd hget (hnone i c)
    fresh := fun r hr => by cases hr }

theorem Inv.forget (hi : Inv except s) {memory : OrdMap String MemoryEntry}
    (hsub : ∀ key e, memory.get key = some e → s.memory.get key = some e) :
    Inv except { s with memory := memory } := by
  have hnone : ∀ key, s.memory.get key = none → memory.get key = none := by
    intro key hkey
    refine Option.eq_none_iff_forall_ne_some.2 fun e he => ?_
    rw [hsub key e he] at hkey
    cases hkey
  exact { hi with
    memory_empty := fun hf key => hnone key (hi.memory_empty hf key)
    memory := fun key id hset e he => hi.memory key id hset e (hsub key e he)
    writes := fun i c hne hget hlast =>
      ⟨hnone _ (hi.writes i c hne hget hlast).1, (hi.writes i c hne hget hlast).2⟩ }

theorem Inv.unavailable (hi : Inv except s) : Inv except { s with redisUnavailable := true } :=
  { hi with
    memory_empty := fun hf => by cases hf
    redis := fun hf => by cases hf }

theorem Inv.remove (hi : Inv (some id) s) : Inv none { s with calls := s.calls.delete id } where
  memory_empty := hi.memory_empty
  memory := hi.memory
  redis := hi.redis
  gets := fun i c _ hget => by
    obtain ⟨hne, hget⟩ := OrdMap.of_get_delete hget
    exact hi.gets i c (by simpa using hne) hget
  writes := fun i c _ hget => by
    obtain ⟨hne, hget⟩ := OrdMap.of_get_delete hget
    exact hi.writes i c (by simpa using hne) hget
  unsettled := fun i c hget => hi.unsettled i c (OrdMap.of_get_delete hget).2
  only := fun i j c d hc hd =>
    hi.only i j c d (OrdMap.of_get_delete hc).2 (OrdMap.of_get_delete hd).2
  since := fun i c hget i' hsince => by
    obtain ⟨hlt, hnone⟩ := hi.since i c (OrdMap.of_get_delete hget).2 i' hsince
    exact ⟨hlt, by rw [OrdMap.get_delete, hnone, ite_self]⟩
  settled := fun key i hset => by
    obtain ⟨hlt, hnone⟩ := hi.settled key i hset
    exact ⟨hlt, by rw [OrdMap.get_delete, hnone, ite_self]⟩
  numbered := fun i c hget => hi.numbered i c (OrdMap.of_get_delete hget).2
  fresh := hi.fresh

theorem Inv.weaken (hi : Inv none s) (except : Option ℕ) : Inv except s :=
  { hi with
    gets := fun i c _ => hi.gets i c (Option.some_ne_none i)
    writes := fun i c _ => hi.writes i c (Option.some_ne_none i) }

theorem Inv.return (hi : Inv (some id) s) {copy : Option Copy}
    (hcopy : ∀ i, c.since = some i → s.settled c.op.key = some i → Current i copy) :
    Inv none (s.return id c copy) := by
  refine { hi.remove with fresh := fun r hr => ?_ }
  rcases List.mem_append.1 hr with hr | hr
  · exact hi.fresh r hr
  · obtain rfl := List.mem_singleton.1 hr
    exact hcopy

theorem memoryGet_spec (key : String) (s : State) :
    (∀ copy, (memoryGet key s).1 = some copy → ∃ e, s.memory.get key = some e ∧ e.value = copy)
      ∧ ∀ key' e, (memoryGet key s).2.get key' = some e → s.memory.get key' = some e := by
  unfold memoryGet
  cases hget : s.memory.get key with
  | none => exact ⟨fun copy hcopy => (by cases hcopy), fun key' e he => he⟩
  | some e =>
    simp only
    split_ifs
    · exact ⟨fun copy hcopy => (by cases hcopy), fun key' e he => (OrdMap.of_get_delete he).2⟩
    · exact ⟨fun copy hcopy => ⟨e, rfl, Option.some.inj hcopy⟩, fun key' e he => he⟩

theorem Inv.returnMemory (hi : Inv (some id) s) : Inv none (s.returnMemory id c) := by
  obtain ⟨hfound, hsub⟩ := memoryGet_spec c.op.key s
  refine (hi.forget hsub).return fun i _ hset copy hcopy => ?_
  obtain ⟨e, he, rfl⟩ := hfound copy hcopy
  exact hi.memory c.op.key i hset e he

/-- A write resolves with what it has set in memory, or with nothing there; and in Redis, if that is
available. -/
theorem Inv.resolve (hi : Inv (some id) s) (hget : s.calls.get id = some c)
    (hmemory : c.Last s id → ∀ e, s.memory.get c.op.key = some e → e.value.writer = some id)
    (hredis : s.redisUnavailable = false → c.Last s id → Current id (s.redis c.op.key))
    (hwrites : c.op.writes = true) : Inv none (s.resolve id c) := by
  have hremoved := hi.remove
  unfold State.resolve
  by_cases hlast : c.alone = true ∧ s.lastWrite c.op.key = some id
  · have hL : c.Last s id := ⟨hwrites, hlast⟩
    simp only [if_pos hlast]
    -- what is settled now
    have hcases : ∀ key i, Function.update s.settled c.op.key (some id) key = some i →
        key = c.op.key ∧ i = id ∨ key ≠ c.op.key ∧ s.settled key = some i := by
      intro key i hset
      by_cases hkey : key = c.op.key
      · rw [hkey, Function.update_self] at hset
        exact .inl ⟨hkey, (Option.some.inj hset).symm⟩
      · rw [Function.update_of_ne hkey] at hset
        exact .inr ⟨hkey, hset⟩
    exact { hremoved with
      memory := fun key i hset => by
        rcases hcases key i hset with ⟨rfl, rfl⟩ | ⟨-, hset⟩
        · exact hmemory hL
        · exact hi.memory key i hset
      redis := fun hf key i hset => by
        rcases hcases key i hset with ⟨rfl, rfl⟩ | ⟨-, hset⟩
        · exact hredis hf hL
        · exact hi.redis hf key i hset
      gets := fun i d hne hd hw j hsince hset => by
        rcases hcases _ j hset with ⟨-, rfl⟩ | ⟨-, hset⟩
        · have hnone := (hi.since i d (OrdMap.of_get_delete hd).2 j hsince).2
          rw [hget] at hnone
          cases hnone
        · exact hremoved.gets i d hne hd hw j hsince hset
      unsettled := fun i d hd hw => by
        obtain ⟨hne, hd'⟩ := OrdMap.of_get_delete hd
        by_cases hkey : d.op.key = c.op.key
        · exact absurd (hi.only id i c d hget hd' hL hw hkey) hne
        · exact (Function.update_of_ne hkey ..).trans (hi.unsettled i d hd' hw)
      settled := fun key i hset => by
        rcases hcases key i hset with ⟨rfl, rfl⟩ | ⟨-, hset⟩
        · exact ⟨hi.numbered i c hget, OrdMap.get_delete_self _ _⟩
        · exact hremoved.settled key i hset }
  · simp only [if_neg hlast]
    exact hremoved

theorem memorySet_get {key key' : String} {value : Copy} {ttlSeconds : ℕ} {e : MemoryEntry}
    (he : (memorySet maxEntries key value ttlSeconds s).memory.get key' = some e) :
    key' = key ∧ e.value = value ∨ key' ≠ key ∧ s.memory.get key' = some e := by
  unfold memorySet at he
  rcases OrdMap.of_get_set he with ⟨hkey, rfl⟩ | ⟨hkey, he⟩
  · exact .inl ⟨hkey, rfl⟩
  · refine .inr ⟨hkey, ?_⟩
    split_ifs at he
    · cases holdest : s.memory.keys.head? with
      | none =>
        rw [holdest] at he
        exact he
      | some oldest =>
        rw [holdest] at he
        exact (OrdMap.of_get_delete he).2
    · exact he

theorem Inv.memorySet {key text : String} {ttlSeconds : ℕ} (hi : Inv (some id) s)
    (hget : s.calls.get id = some c) (hop : c.op = .set key text ttlSeconds)
    (hf : s.redisUnavailable = true) :
    Inv (some id) (memorySet maxEntries key ⟨text, some id⟩ ttlSeconds s) := by
  have hkey : c.op.key = key := by rw [hop]; rfl
  have hwrites : c.op.writes = true := by rw [hop]; rfl
  have hunsettled := hi.unsettled id c hget hwrites
  rw [hkey] at hunsettled
  exact { hi with
    memory_empty := fun hf' => by
      rw [show (Cache.memorySet maxEntries key ⟨text, some id⟩ ttlSeconds s).redisUnavailable
        = s.redisUnavailable from rfl, hf] at hf'
      cases hf'
    memory := fun key' i hset e he => by
      rcases memorySet_get he with ⟨rfl, -⟩ | ⟨-, he⟩
      · rw [show (Cache.memorySet maxEntries key' ⟨text, some id⟩ ttlSeconds s).settled
          = s.settled from rfl, hunsettled] at hset
        cases hset
      · exact hi.memory key' i hset e he
    writes := fun i d hne hd hlast => by
      refine ⟨Option.eq_none_iff_forall_ne_some.2 fun e he => ?_, (hi.writes i d hne hd hlast).2⟩
      rcases memorySet_get he with ⟨hsame, -⟩ | ⟨-, he⟩
      · exact hne (congrArg some
          (hi.only i id d c hd hget hlast hwrites (hkey.trans hsame.symm)).symm)
      · rw [(hi.writes i d hne hd hlast).1] at he
        cases he }

/-- A call is entered. -/
theorem Inv.enter (hi : Inv none s) (op : Op) : Inv (some s.nextCall) (s.enter op) := by
  have hfresh : s.calls.get s.nextCall = none := by
    refine Option.eq_none_iff_forall_ne_some.2 fun c hget => ?_
    exact absurd (hi.numbered _ c hget) (Nat.lt_irrefl _)
  have hold : ∀ key i, (s.enter op).settled key = some i → s.settled key = some i := by
    intro key i hset
    simp only [State.enter] at hset
    split_ifs at hset
    · by_cases hkey : key = op.key
      · rw [hkey, Function.update_self] at hset
        cases hset
      · rwa [Function.update_of_ne hkey] at hset
    · exact hset
  have hlast : ∀ i (d : Call), i < s.nextCall → d.Last (s.enter op) i → d.Last s i := by
    rintro i d hlt ⟨hw, halone, hl⟩
    refine ⟨hw, halone, ?_⟩
    simp only [State.enter] at hl
    split_ifs at hl
    · by_cases hkey : d.op.key = op.key
      · rw [hkey, Function.update_self] at hl
        exact absurd (Option.some.inj hl).symm (Nat.ne_of_lt hlt)
      · rwa [Function.update_of_ne hkey] at hl
    · exact hl
  -- the calls that were there before
  have hback : ∀ i d, (s.enter op).calls.get i = some d →
      i = s.nextCall ∧ d = s.newCall op ∨ i ≠ s.nextCall ∧ s.calls.get i = some d :=
    fun i d hd => OrdMap.of_get_set hd
  have hkeep : ∀ i, i < s.nextCall ∧ s.calls.get i = none →
      i < (s.enter op).nextCall ∧ (s.enter op).calls.get i = none := by
    rintro i ⟨hlt, hnone⟩
    refine ⟨Nat.lt_succ_of_lt hlt, ?_⟩
    rw [State.enter, OrdMap.get_set_of_ne _ _ (Nat.ne_of_lt hlt), hnone]
  exact {
    memory_empty := hi.memory_empty
    memory := fun key i hset => hi.memory key i (hold key i hset)
    redis := fun hf key i hset => hi.redis hf key i (hold key i hset)
    gets := fun i d hne hd hw j hsince hset => by
      rcases hback i d hd with ⟨rfl, -⟩ | ⟨-, hd⟩
      · exact absurd rfl hne
      · exact hi.gets i d (Option.some_ne_none i) hd hw j hsince (hold _ j hset)
    writes := fun i d hne hd hl => by
      rcases hback i d hd with ⟨rfl, -⟩ | ⟨-, hd⟩
      · exact absurd rfl hne
      · exact hi.writes i d (Option.some_ne_none i) hd (hlast i d (hi.numbered i d hd) hl)
    unsettled := fun i d hd hw => by
      rcases hback i d hd with ⟨rfl, rfl⟩ | ⟨-, hd⟩
      · have hop : op.writes = true := hw
        simp only [State.enter, hop, if_true, State.newCall, Function.update_self]
      · refine Option.eq_none_iff_forall_ne_some.2 fun j hset => ?_
        have hnone := hi.unsettled i d hd hw
        rw [hold _ j hset] at hnone
        cases hnone
    only := fun i j d e hd he hl hw hkey => by
      rcases hback i d hd with ⟨rfl, rfl⟩ | ⟨hi', hd⟩ <;>
        rcases hback j e he with ⟨rfl, rfl⟩ | ⟨hj', he⟩
      · rfl
      · have halone : s.writing op.key = false := by
          have h₁ := hl.2.1
          simpa only [State.newCall, Bool.not_eq_true'] using h₁
        refine absurd (List.any_eq_false.1 halone (j, e) (OrdMap.mem_entries_iff.2 he)) ?_
        have hsame : e.op.key = op.key := hkey
        simp [hw, hsame]
      · have hop : op.writes = true := hw
        have hl₂ := hl.2.2
        have hsame : op.key = d.op.key := hkey
        simp only [State.enter, hop, if_true, ← hsame, Function.update_self] at hl₂
        exact Option.some.inj hl₂
      · exact hi.only i j d e hd he (hlast i d (hi.numbered i d hd) hl) hw hkey
    since := fun i d hd j hsince => by
      rcases hback i d hd with ⟨rfl, rfl⟩ | ⟨-, hd⟩
      · exact hkeep j (hi.settled op.key j hsince)
      · exact hkeep j (hi.since i d hd j hsince)
    settled := fun key i hset => hkeep i (hi.settled key i (hold key i hset))
    numbered := fun i d hd => by
      rcases hback i d hd with ⟨rfl, -⟩ | ⟨-, hd⟩
      · exact Nat.lt_succ_self _
      · exact Nat.lt_succ_of_lt (hi.numbered i d hd)
    fresh := hi.fresh }

theorem Inv.accept (hi : Inv (some id) s) (hget : s.calls.get id = some c)
    (hgets : c.op.writes = false → ∀ i, c.since = some i → s.settled c.op.key = some i →
      Current i (s.redis c.op.key) ∧ ∀ copy, c.phase = .answered copy → Current i copy)
    (hwrites : c.Last s id → s.memory.get c.op.key = none
      ∧ ∀ copy, c.phase = .answered copy → Current id (s.redis c.op.key)) : Inv none s where
  __ := hi
  gets := fun i d _ hd hw => by
    by_cases hid : i = id
    · subst hid
      obtain rfl := Option.some.inj (hget.symm.trans hd)
      exact hgets hw
    · exact hi.gets i d (by simpa using hid) hd hw
  writes := fun i d _ hd hl => by
    by_cases hid : i = id
    · subst hid
      obtain rfl := Option.some.inj (hget.symm.trans hd)
      exact hwrites hl
    · exact hi.writes i d (by simpa using hid) hd hl

/-- A call goes to another phase. -/
theorem Inv.setPhase (hi : Inv none s) (hget : s.calls.get id = some c) (phase : Phase) :
    Inv (some id) { s with calls := s.calls.set id { c with phase := phase } } := by
  -- a call is as it was, but for its phase
  have hback : ∀ i d, (s.calls.set id { c with phase := phase }).get i = some d →
      ∃ d₀, s.calls.get i = some d₀ ∧ d.op = d₀.op ∧ d.alone = d₀.alone ∧ d.since = d₀.since
        ∧ (i ≠ id → d = d₀) := by
    intro i d hd
    rcases OrdMap.of_get_set hd with ⟨rfl, rfl⟩ | ⟨-, hd⟩
    · exact ⟨c, hget, rfl, rfl, rfl, fun hne => absurd rfl hne⟩
    · exact ⟨d, hd, rfl, rfl, rfl, fun _ => rfl⟩
  have hkeep : ∀ i, i < s.nextCall ∧ s.calls.get i = none →
      i < s.nextCall ∧ (s.calls.set id { c with phase := phase }).get i = none := by
    rintro i ⟨hlt, hnone⟩
    refine ⟨hlt, ?_⟩
    rw [OrdMap.get_set_of_ne _ _ ?_, hnone]
    rintro rfl
    rw [hnone] at hget
    cases hget
  exact {
    memory_empty := hi.memory_empty
    memory := hi.memory
    redis := hi.redis
    gets := fun i d hne hd => by
      obtain ⟨d₀, hd₀, -, -, -, hsame⟩ := hback i d hd
      obtain rfl := hsame (by simpa using hne)
      exact hi.gets i d (Option.some_ne_none i) hd₀
    writes := fun i d hne hd => by
      obtain ⟨d₀, hd₀, -, -, -, hsame⟩ := hback i d hd
      obtain rfl := hsame (by simpa using hne)
      exact hi.writes i d (Option.some_ne_none i) hd₀
    unsettled := fun i d hd hw => by
      obtain ⟨d₀, hd₀, hop, -⟩ := hback i d hd
      rw [hop] at hw ⊢
      exact hi.unsettled i d₀ hd₀ hw
    only := fun i j d e hd he hl hw hkey => by
      obtain ⟨d₀, hd₀, hop, halone, -⟩ := hback i d hd
      obtain ⟨e₀, he₀, hop', -⟩ := hback j e he
      rw [hop'] at hw
      rw [hop', hop] at hkey
      rw [Call.Last, hop, halone] at hl
      exact hi.only i j d₀ e₀ hd₀ he₀ hl hw hkey
    since := fun i d hd j hsince => by
      obtain ⟨d₀, hd₀, -, -, hsame, -⟩ := hback i d hd
      exact hkeep j (hi.since i d₀ hd₀ j (hsame ▸ hsince))
    settled := fun key i hset => hkeep i (hi.settled key i hset)
    numbered := fun i d hd => by
      obtain ⟨d₀, hd₀, -⟩ := hback i d hd
      exact hi.numbered i d₀ hd₀
    fresh := hi.fresh }

theorem Inv.rephase (hi : Inv none s) (hget : s.calls.get id = some c) (phase : Phase)
    (hphase : ∀ copy, phase ≠ .answered copy) :
    Inv none { s with calls := s.calls.set id { c with phase := phase } } := by
  refine (hi.setPhase hget phase).accept (OrdMap.get_set_self _ _ _) ?_ ?_
  · intro hw i hsince hset
    exact ⟨(hi.gets id c (Option.some_ne_none id) hget hw i hsince hset).1,
      fun copy hcopy => absurd hcopy (hphase copy)⟩
  · intro hl
    exact ⟨(hi.writes id c (Option.some_ne_none id) hget hl).1,
      fun copy hcopy => absurd hcopy (hphase copy)⟩

theorem Inv.write (hi : Inv (some id) s) (hget : s.calls.get id = some c)
    (hwrites : c.op.writes = true) (found : Option Copy) :
    Inv (some id) { s with redis := Function.update s.redis c.op.key found } := by
  have hunsettled := hi.unsettled id c hget hwrites
  have hother : ∀ key ≠ c.op.key, ∀ i, Current i (s.redis key) →
      Current i (Function.update s.redis c.op.key found key) := by
    intro key hkey i hcurrent
    rwa [Function.update_of_ne hkey]
  have hne : ∀ key i, s.settled key = some i → key ≠ c.op.key := by
    rintro _ i hset rfl
    rw [hunsettled] at hset
    cases hset
  exact { hi with
    redis := fun hf key i hset => hother key (hne key i hset) i (hi.redis hf key i hset)
    gets := fun i d hi' hd hw j hsince hset => by
      obtain ⟨hcurrent, hanswer⟩ := hi.gets i d hi' hd hw j hsince hset
      exact ⟨hother _ (hne _ j hset) j hcurrent, hanswer⟩
    writes := fun i d hi' hd hl => by
      have hkey : d.op.key ≠ c.op.key := fun hkey =>
        hi' (congrArg some (hi.only i id d c hd hget hl hwrites hkey.symm).symm)
      obtain ⟨hmemory, hanswer⟩ := hi.writes i d hi' hd hl
      exact ⟨hmemory, fun copy hcopy => hother _ hkey i (hanswer copy hcopy)⟩ }

theorem Inv.command (hi : Inv none s) (hget : s.calls.get id = some c) : Inv none (command id c s) := by
  have hown : ∀ found, Current id found → c.op.writes = true →
      Inv none { s with
        redis := Function.update s.redis c.op.key found
        calls := s.calls.set id { c with phase := .answered none } } := by
    intro found hfound hw
    have hset := (hi.setPhase hget (.answered none)).write (OrdMap.get_set_self _ _ _) hw found
    refine hset.accept (OrdMap.get_set_self _ _ _) (fun hw' => ?_) fun hl => ?_
    · rw [hw] at hw'
      cases hw'
    · refine ⟨(hi.writes id c (Option.some_ne_none id) hget hl).1, fun copy _ => ?_⟩
      simp only [Function.update_self]
      exact hfound
  unfold Cache.command
  cases hop : c.op with
  | get key =>
    have hkey : c.op.key = key := by rw [hop]; rfl
    have hw : c.op.writes = false := by rw [hop]; rfl
    have hread : Inv none
        { s with calls := s.calls.set id { c with phase := .answered (s.redis key) } } := by
      refine (hi.setPhase hget _).accept (OrdMap.get_set_self _ _ _) ?_ fun hl => ?_
      · intro _ i hsince hset
        have hcurrent := (hi.gets id c (Option.some_ne_none id) hget hw i hsince hset).1
        refine ⟨hcurrent, fun copy hcopy => ?_⟩
        obtain rfl : s.redis key = copy := Phase.answered.inj hcopy
        exact hkey ▸ hcurrent
      · have hw' : c.op.writes = true := hl.1
        rw [hw] at hw'
        cases hw'
    rw [hop] at hread
    exact hread
  | set key text ttlSeconds =>
    have hset := hown (some ⟨text, some id⟩) (fun copy hcopy => by
      rw [← Option.some.inj hcopy]) (by rw [hop]; rfl)
    rw [hop] at hset
    exact hset
  | delete key =>
    have hset := hown none (fun copy hcopy => by cases hcopy) (by rw [hop]; rfl)
    rw [hop] at hset
    exact hset

end Steps

section Runs

variable {id : ℕ} {c : Call}

theorem newCall_phase (op : Op) (s : State) (copy : Option Copy) :
    (s.newCall op).phase ≠ .answered copy := by
  unfold State.newCall
  split_ifs <;> simp

theorem Inv.start (hi : Inv none s) (op : Op) : Inv none (start maxEntries op s) := by
  have hentered := hi.enter op
  have hget : (s.enter op).calls.get s.nextCall = some (s.newCall op) := OrdMap.get_set_self _ _ _
  unfold Cache.start
  cases op with
  | get key =>
    simp only
    split_ifs with hf
    · exact hentered.returnMemory
    · rw [Bool.not_eq_true] at hf
      refine hentered.accept hget (fun _ i _ hset => ?_) fun hl => by cases hl.1
      exact ⟨hentered.redis hf key i hset, fun copy hcopy => absurd hcopy (newCall_phase _ _ _)⟩
  | set key text ttlSeconds =>
    simp only
    split_ifs with hf
    · refine (hentered.memorySet hget rfl hf).resolve hget ?_ ?_ rfl
      · intro _ e he
        rcases memorySet_get he with ⟨-, hvalue⟩ | ⟨hne, -⟩
        · rw [hvalue]
        · exact absurd rfl hne
      · intro hf'
        rw [show (Cache.memorySet maxEntries key ⟨text, some s.nextCall⟩ ttlSeconds
          (s.enter (.set key text ttlSeconds))).redisUnavailable
            = (s.enter (.set key text ttlSeconds)).redisUnavailable from rfl, hf] at hf'
        cases hf'
    · rw [Bool.not_eq_true] at hf
      refine hentered.accept hget (fun hw => by cases hw) fun _ => ?_
      exact ⟨hentered.memory_empty hf key, fun copy hcopy => absurd hcopy (newCall_phase _ _ _)⟩
  | delete key =>
    have hdeleted : Inv _ { s.enter (.delete key) with
        memory := (s.enter (.delete key)).memory.delete key } :=
      hentered.forget fun key' e he => (OrdMap.of_get_delete he).2
    have hnone : ((s.enter (.delete key)).memory.delete key).get key = none :=
      OrdMap.get_delete_self _ _
    simp only
    split_ifs with hf
    · refine hdeleted.resolve hget (fun _ e he => ?_) (fun hf' => ?_) rfl
      · rw [show (s.newCall (.delete key)).op.key = key from rfl, hnone] at he
        cases he
      · rw [hf] at hf'
        cases hf'
    · refine hdeleted.accept hget (fun hw => by cases hw) fun _ => ?_
      exact ⟨hnone, fun copy hcopy => absurd hcopy (newCall_phase _ _ _)⟩

theorem Inv.answered (hi : Inv none s) (hget : s.calls.get id = some c) {copy : Option Copy}
    (hphase : c.phase = .answered copy) : Inv none (answered id c copy s) := by
  have hresolve : c.op.writes = true → Inv none (s.resolve id c) := by
    intro hw
    refine (hi.weaken (some id)).resolve hget (fun hl e he => ?_) (fun _ hl => ?_) hw
    · rw [(hi.writes id c (Option.some_ne_none id) hget hl).1] at he
      cases he
    · exact (hi.writes id c (Option.some_ne_none id) hget hl).2 copy hphase
  unfold Cache.answered
  cases hop : c.op with
  | get key =>
    have hw : c.op.writes = false := by rw [hop]; rfl
    refine (hi.weaken (some id)).return fun i hsince hset => ?_
    exact (hi.gets id c (Option.some_ne_none id) hget hw i hsince hset).2 copy hphase
  | set key text ttlSeconds => exact hresolve (by rw [hop]; rfl)
  | delete key => exact hresolve (by rw [hop]; rfl)

theorem Inv.caught (hi : Inv none s) (hget : s.calls.get id = some c) :
    Inv none (caught maxEntries id c s) := by
  have htried := (hi.weaken (some id)).unavailable
  have hremoved := (hi.weaken (some id)).remove
  unfold Cache.caught
  cases hop : c.op with
  | get key =>
    simp only
    split_ifs
    · exact hremoved
    · exact htried.returnMemory
  | set key text ttlSeconds =>
    simp only
    split_ifs
    · exact hremoved
    · refine (htried.memorySet hget hop rfl).resolve hget ?_ (fun hf => by cases hf)
        (by rw [hop]; rfl)
      intro _ e he
      rcases memorySet_get he with ⟨-, hvalue⟩ | ⟨hne, -⟩
      · rw [hvalue]
      · exact absurd (by rw [hop]; rfl) hne
  | delete key =>
    refine htried.resolve hget (fun hl e he => ?_) (fun hf => by cases hf) (by rw [hop]; rfl)
    rw [(hi.writes id c (Option.some_ne_none id) hget hl).1] at he
    cases he

theorem Inv.available (hi : Inv none s) (hclean : s.redisUnavailable = true →
      (∀ key, s.memory.get key = none)
        ∧ ∀ key id, s.settled key = some id → Current id (s.redis key)) (redisClient : Bool) :
    Inv none { s with redisClient := redisClient, redisUnavailable := false } :=
  { hi with
    memory_empty := fun _ => by
      cases hf : s.redisUnavailable with
      | false => exact hi.memory_empty hf
      | true => exact (hclean hf).1
    redis := fun _ => by
      cases hf : s.redisUnavailable with
      | false => exact hi.redis hf
      | true => exact (hclean hf).2 }

theorem Inv.advance (hi : Inv none s) (hget : s.calls.get id = some c) (hc : Clean s a)
    (hs : advance maxEntries s id c a = some s') : Inv none s' := by
  unfold Cache.advance at hs
  cases a with
  | connected i =>
    simp only at hs
    split at hs
    · obtain rfl := Option.some.inj hs
      exact (hi.rephase hget .commanding (by simp)).available hc true
    · cases hs
  | connectFailed i =>
    simp only at hs
    split at hs
    · obtain rfl := Option.some.inj hs
      exact hi.rephase hget _ (by simp)
    · cases hs
  | commanded i =>
    simp only at hs
    split at hs
    · obtain rfl := Option.some.inj hs
      exact hi.command hget
    · cases hs
  | commandFailed i =>
    simp only at hs
    split at hs
    · obtain rfl := Option.some.inj hs
      exact hi.rephase hget _ (by simp)
    · cases hs
  | resume i =>
    simp only at hs
    split at hs
    · rename_i copy hphase
      obtain rfl := Option.some.inj hs
      exact hi.answered hget hphase
    · obtain rfl := Option.some.inj hs
      exact hi.caught hget
    · cases hs
  | _ => cases hs

theorem Inv.expire (hi : Inv none s) (key : String) :
    Inv none { s with redis := Function.update s.redis key none } := by
  have hkept : ∀ key' i, Current i (s.redis key') →
      Current i (Function.update s.redis key none key') := by
    intro key' i hcurrent
    by_cases hkey : key' = key
    · rw [hkey, Function.update_self]
      intro copy hcopy
      cases hcopy
    · rwa [Function.update_of_ne hkey]
  exact { hi with
    redis := fun hf key' i hset => hkept key' i (hi.redis hf key' i hset)
    gets := fun i d hne hd hw j hsince hset => by
      obtain ⟨hcurrent, hanswer⟩ := hi.gets i d hne hd hw j hsince hset
      exact ⟨hkept _ j hcurrent, hanswer⟩
    writes := fun i d hne hd hl => by
      obtain ⟨hmemory, hanswer⟩ := hi.writes i d hne hd hl
      exact ⟨hmemory, fun copy hcopy => hkept _ i (hanswer copy hcopy)⟩ }

theorem Inv.step (hi : Inv none s) (hc : Clean s a) (hs : step maxEntries s a = some s') :
    Inv none s' := by
  have hadvance :
      ((s.calls.get a.id).bind fun call => Cache.advance maxEntries s a.id call a) = some s' →
      Inv none s' := by
    intro hs
    obtain ⟨c, hget, hs⟩ := Option.bind_eq_some_iff.1 hs
    exact hi.advance hget hc hs
  cases a with
  | call op =>
    obtain rfl := Option.some.inj hs
    exact hi.start op
  | clientError =>
    obtain rfl := Option.some.inj hs
    exact hi.unavailable
  | expire key =>
    obtain rfl := Option.some.inj hs
    exact hi.expire key
  | clock now =>
    obtain rfl := Option.some.inj hs
    exact { hi with }
  | _ => exact hadvance hs

/-- Along every run in which connections succeed cleanly, what was replaced does not come back. -/
theorem fresh_of_clean (hr : Run (sys maxEntries) h s) (hc : Along Clean h) : Fresh s :=
  (hr.invariant_of (fun _ hs => Inv.init hs) (fun _ _ _ hi hstep hs => hi.step hstep hs) hc).fresh

/-- No connection of these steps succeeds while Redis is taken to be unavailable. -/
def noReset (h : List (Taken State Action)) : Bool :=
  h.all fun t => match t.act with
    | .connected _ => !t.pre.redisUnavailable
    | _ => true

theorem along_of_noReset (hn : noReset h = true) : Along Clean h := by
  intro t ht
  have hstep := List.all_eq_true.1 hn t ht
  cases hact : t.act with
  | connected i =>
    rw [hact] at hstep
    intro hf
    rw [hf] at hstep
    cases hstep
  | _ => trivial

/-- What is set in memory after an error is what is then read. -/
theorem fresh_after_error : ∃ h s, Run (sys 10) h s ∧ Fresh s
    ∧ s.returns = [⟨"k", some 1, some 1, some ⟨"2", some 1⟩⟩] := by
  obtain ⟨h, s, hr, hp⟩ := Sys.exists_run (S := sys 10) (s := {})
    ⟨fun _ => none, fun _ _ hnone => (by cases hnone), rfl⟩
    [.call (.set "k" "1" 60), .connected 0, .commanded 0, .resume 0, .clientError,
      .call (.set "k" "2" 60), .call (.get "k")]
    (p := fun x => noReset x.1
      && x.2.returns = [⟨"k", some 1, some 1, some ⟨"2", some 1⟩⟩]) (by decide +kernel)
  rw [Bool.and_eq_true, decide_eq_true_eq] at hp
  exact ⟨h, s, hr, fresh_of_clean hr (along_of_noReset hp.1), hp.2⟩

/-- A `set` in memory is settled, and then a connection that another call has waited for succeeds: the
next `get` reads what Redis has from before. -/
theorem value_comes_back : ∃ h s, Run (sys 10) h s
    ∧ s.returns = [⟨"k", some 2, some 2, some ⟨"1", some 0⟩⟩] ∧ ¬ Fresh s := by
  obtain ⟨h, s, hr, hp⟩ := Sys.exists_run (S := sys 10) (s := {})
    ⟨fun _ => none, fun _ _ hnone => (by cases hnone), rfl⟩
    [.call (.set "k" "1" 60), .call (.get "j"), .connected 0, .commanded 0, .resume 0, .clientError,
      .call (.set "k" "2" 60), .connected 1, .call (.get "k"), .commanded 3, .resume 3]
    (p := fun x => x.2.returns = [⟨"k", some 2, some 2, some ⟨"1", some 0⟩⟩]) (by decide +kernel)
  rw [decide_eq_true_eq] at hp
  refine ⟨h, s, hr, hp, fun hfresh => ?_⟩
  have hcopy := hfresh _ (hp ▸ List.mem_cons_self) 2 rfl rfl _ rfl
  simp at hcopy

end Runs

end Cache

end VeriNode
