import VeriNode.Cache.CacheLayer
import Mathlib.Data.Fintype.EquivFin

/-!
# What the memory cache keeps

The map is within its limit, and a `get` returns what was set last, if it was not deleted or evicted
since and has not expired. Who is evicted is another matter: a `set` on a full map evicts the first key
of the map before it knows whether its own key is there. Where no such `set` is made, the keys stand in
the order in which they came, a `set` of a key that is there evicts nobody, and one of a new key the
key that has been there longest; the first `set` that is made so can be continued to where that fails
(`memory_exact`).
-/

namespace VeriNode

namespace Cache

namespace MemoryOnly

variable {ν : Type*} [ReadableNumber ν] {c : Config} {s s' : State} {a : Action ν}
  {h : List (Taken State (Action ν))} {key k : String}

section Property

/-- How many of the last calls left the key in the map. -/
def presentFor (key : String) : List (Taken State (Action ν)) → ℕ
  | [] => 0
  | t :: h => if t.post.memory.has key then presentFor key h + 1 else 0

/-- What was last set, and when it expires, if the key was not deleted or evicted since. -/
def lastSet (c : Config) (key : String) :
    List (Taken State (Action ν)) → Option (JsonValue ν × ℤ)
  | [] => none
  | t :: h =>
    match t.act with
    | .get _ _ => lastSet c key h
    | .set key' value ttlSeconds now =>
      match normalizeTtlSeconds ttlSeconds c.defaultTtlSeconds with
      | none => lastSet c key h
      | some ttl =>
        if key' = key then some (value, now + ttl * 1000)
        else if t.pre.memory.has key && !t.post.memory.has key then none
        else lastSet c key h
    | .delete key' _ => if key' = key then none else lastSet c key h

/-- The value, if it has not expired, or `null`. -/
def current (now : ℤ) (last : Option (JsonValue ν × ℤ)) : Json ν :=
  match last.filter (now < ·.2) with
  | some last => last.1.1
  | none => .null

/-- A call does what it should, after the calls before it. -/
structure Faithful (c : Config) (t : Taken State (Action ν)) (h : List (Taken State (Action ν))) :
    Prop where
  bounded : t.post.memory.size ≤ c.maxEntries
  returns : ∀ key now, t.act = .get key now →
    get key { t.pre with now := now } = some (current now (lastSet c key h))
  spares : ∀ key value ttlSeconds now, t.act = .set key value ttlSeconds now →
    t.pre.memory.has key = true ∨ t.pre.memory.size < c.maxEntries →
    ∀ k, k ≠ key → t.post.memory.get k = t.pre.memory.get k
  evicts : ∀ key value ttlSeconds now, t.act = .set key value ttlSeconds now →
    normalizeTtlSeconds ttlSeconds c.defaultTtlSeconds ≠ none →
    t.pre.memory.has key = false → c.maxEntries ≤ t.pre.memory.size →
    ∃ oldest, t.pre.memory.has oldest = true ∧ t.post.memory.has oldest = false
      ∧ (∀ k, k ≠ key → k ≠ oldest → t.post.memory.get k = t.pre.memory.get k)
      ∧ ∀ k, t.pre.memory.has k = true → k ≠ oldest → presentFor k h < presentFor oldest h

/-- Every call of the history does. -/
def Kept (c : Config) : List (Taken State (Action ν)) → Prop
  | [] => True
  | t :: h => Faithful c t h ∧ Kept c h

/-- A key that is there is not set again on a full map, but for a map of one entry. -/
def Roomy (c : Config) (s : State) (a : Action ν) : Prop :=
  ∀ key value ttlSeconds now, a = .set key value ttlSeconds now →
    normalizeTtlSeconds ttlSeconds c.defaultTtlSeconds ≠ none → s.memory.has key = true →
    s.memory.size < c.maxEntries ∨ c.maxEntries = 1

end Property

section Steps

theorem has_iff_mem {m : OrdMap String MemoryEntry} : m.has k = true ↔ k ∈ m.keys := by
  rw [← not_iff_not, Bool.not_eq_true, OrdMap.has_eq_false_iff, OrdMap.get_eq_none_iff]

/-- The map that a call leaves. -/
def effect (c : Config) (s : State) : Action ν → OrdMap String MemoryEntry
  | .get key now => (memoryGet key { s with now := now }).2
  | .set key value ttlSeconds now =>
    match normalizeTtlSeconds ttlSeconds c.defaultTtlSeconds with
    | none => s.memory
    | some ttl =>
      (memorySet c.maxEntries key ⟨value.1.stringify, none⟩ ttl { s with now := now }).memory
  | .delete key _ => s.memory.delete key

theorem effect_set_none {value : JsonValue ν} {ttlSeconds : Option JsNumber} {now : ℤ}
    (httl : normalizeTtlSeconds ttlSeconds c.defaultTtlSeconds = none) :
    effect c s (.set key value ttlSeconds now) = s.memory := by
  unfold effect
  dsimp only
  rw [httl]

theorem effect_set_some {value : JsonValue ν} {ttlSeconds : Option JsNumber} {now : ℤ} {ttl : ℕ}
    (httl : normalizeTtlSeconds ttlSeconds c.defaultTtlSeconds = some ttl) :
    effect c s (.set key value ttlSeconds now)
      = (memorySet c.maxEntries key ⟨value.1.stringify, none⟩ ttl { s with now := now }).memory := by
  unfold effect
  dsimp only
  rw [httl]

theorem step_eq (hs : step c s a = some s') :
    s.now ≤ a.now ∧ s'.now = a.now ∧ s'.memory = effect c s a := by
  rw [step, Option.ite_none_right_eq_some] at hs
  obtain ⟨hnow, hs⟩ := hs
  refine ⟨hnow, ?_⟩
  cases a with
  | get key now =>
    obtain rfl := Option.some.inj hs
    exact ⟨rfl, rfl⟩
  | set key value ttlSeconds now =>
    obtain rfl := Option.some.inj hs
    cases httl : normalizeTtlSeconds ttlSeconds c.defaultTtlSeconds with
    | none =>
      rw [effect_set_none httl, set, httl]
      exact ⟨rfl, rfl⟩
    | some ttl =>
      rw [effect_set_some httl, set, httl]
      exact ⟨rfl, rfl⟩
  | delete key now =>
    obtain rfl := Option.some.inj hs
    exact ⟨rfl, rfl⟩

theorem memorySet_of_room {value : Copy} {ttl : ℕ} (h : s.memory.size < c.maxEntries) :
    (memorySet c.maxEntries key value ttl s).memory
      = s.memory.set key ⟨value, s.now + ttl * 1000⟩ := by
  unfold memorySet
  rw [if_neg (Nat.not_le.2 h)]

theorem memorySet_of_full (key : String) (value : Copy) (ttl : ℕ)
    (h : c.maxEntries ≤ s.memory.size) :
    ∃ oldest rest, s.memory.keys = oldest :: rest
      ∧ (memorySet c.maxEntries key value ttl s).memory
        = (s.memory.delete oldest).set key ⟨value, s.now + ttl * 1000⟩ := by
  have hpos := c.maxEntries_pos
  obtain ⟨oldest, -, hhead, -⟩ := OrdMap.exists_oldest (m := s.memory) (by omega)
  obtain ⟨rest, hkeys⟩ := List.head?_eq_some_iff.1 hhead
  refine ⟨oldest, rest, hkeys, ?_⟩
  unfold memorySet
  rw [if_pos h, hhead]
  rfl

theorem memorySet_cases (c : Config) (s : State) (key : String) (value : Copy) (ttl : ℕ) :
    (memorySet c.maxEntries key value ttl s).memory.get key = some ⟨value, s.now + ttl * 1000⟩
      ∧ ∀ k, k ≠ key → (memorySet c.maxEntries key value ttl s).memory.get k = s.memory.get k
        ∨ (memorySet c.maxEntries key value ttl s).memory.get k = none
          ∧ s.memory.has k = true := by
  rcases Nat.lt_or_ge s.memory.size c.maxEntries with hroom | hfull
  · rw [memorySet_of_room hroom]
    exact ⟨OrdMap.get_set_self _ _ _, fun k hk => .inl (OrdMap.get_set_of_ne _ _ hk)⟩
  · obtain ⟨oldest, rest, hkeys, hmemory⟩ := memorySet_of_full key value ttl hfull
    rw [hmemory]
    refine ⟨OrdMap.get_set_self _ _ _, fun k hk => ?_⟩
    rw [OrdMap.get_set_of_ne _ _ hk, OrdMap.get_delete]
    split_ifs with holdest
    · refine .inr ⟨rfl, ?_⟩
      rw [has_iff_mem, hkeys, holdest]
      exact List.mem_cons_self
    · exact .inl rfl

theorem size_memorySet_le (value : Copy) (ttl : ℕ) (h : s.memory.size ≤ c.maxEntries) :
    (memorySet c.maxEntries key value ttl s).memory.size ≤ c.maxEntries := by
  rcases Nat.lt_or_ge s.memory.size c.maxEntries with hroom | hfull
  · rw [memorySet_of_room hroom]
    exact (OrdMap.size_set_le _ _ _).trans hroom
  · obtain ⟨oldest, rest, hkeys, hmemory⟩ := memorySet_of_full key value ttl hfull
    have hdelete := OrdMap.size_delete_oldest (k := oldest) (by rw [hkeys]; rfl)
    rw [hmemory]
    exact (OrdMap.size_set_le _ _ _).trans (hdelete.le.trans h)

end Steps

section Values

/-- An entry is what was set last; where there is none, that has expired. -/
def Fits (last : Option (JsonValue ν × ℤ)) (now : ℤ) : Option MemoryEntry → Prop
  | some e => ∃ value, last = some (value, e.expiresAtMs) ∧ e.value.text = value.1.stringify
  | none => ∀ value expiresAt, last = some (value, expiresAt) → expiresAt ≤ now

def Holds (c : Config) (h : List (Taken State (Action ν))) (s : State) : Prop :=
  ∀ key, Fits (lastSet c key h) s.now (s.memory.get key)

theorem Holds.of_some {e : MemoryEntry} (hh : Holds c h s) (hget : s.memory.get key = some e) :
    ∃ value, lastSet c key h = some (value, e.expiresAtMs) ∧ e.value.text = value.1.stringify := by
  have hfits := hh key
  rwa [hget] at hfits

theorem Holds.of_none (hh : Holds c h s) (hget : s.memory.get key = none) {value : JsonValue ν}
    {expiresAt : ℤ} (hlast : lastSet c key h = some (value, expiresAt)) : expiresAt ≤ s.now := by
  have hfits := hh key
  rw [hget] at hfits
  exact hfits value expiresAt hlast

theorem Holds.fits_of_same (hh : Holds c h s) (hnow : s.now ≤ s'.now)
    (hget : s'.memory.get key = s.memory.get key) {last : Option (JsonValue ν × ℤ)}
    (hlast : last = lastSet c key h) : Fits last s'.now (s'.memory.get key) := by
  rw [hget, hlast]
  cases hg : s.memory.get key with
  | some e => exact hh.of_some hg
  | none => exact fun value expiresAt hl => (hh.of_none hg hl).trans hnow

theorem fits_of_none (hget : s'.memory.get key = none) {last : Option (JsonValue ν × ℤ)}
    (hlast : ∀ value expiresAt, last = some (value, expiresAt) → expiresAt ≤ s'.now) :
    Fits last s'.now (s'.memory.get key) := by
  rw [hget]
  exact hlast

theorem memoryGet_get (key k : String) (s : State) :
    (memoryGet key s).2.get k = s.memory.get k
      ∨ k = key ∧ (memoryGet key s).2.get k = none
        ∧ ∃ e, s.memory.get key = some e ∧ e.expiresAtMs ≤ s.now := by
  unfold memoryGet
  cases hget : s.memory.get key with
  | none => exact .inl rfl
  | some e =>
    dsimp only
    split_ifs with hexpired
    · rw [OrdMap.get_delete]
      split_ifs with hk
      · exact .inr ⟨hk, rfl, e, rfl, hexpired⟩
      · exact .inl rfl
    · exact .inl rfl

omit [ReadableNumber ν] in
theorem lastSet_set_none {value : JsonValue ν} {ttlSeconds : Option JsNumber} {now : ℤ}
    (httl : normalizeTtlSeconds ttlSeconds c.defaultTtlSeconds = none) :
    lastSet c k (⟨s, .set key value ttlSeconds now, s'⟩ :: h) = lastSet c k h := by
  rw [lastSet.eq_def]
  dsimp only
  rw [httl]

omit [ReadableNumber ν] in
theorem lastSet_set_some {value : JsonValue ν} {ttlSeconds : Option JsNumber} {now : ℤ} {ttl : ℕ}
    (httl : normalizeTtlSeconds ttlSeconds c.defaultTtlSeconds = some ttl) :
    lastSet c k (⟨s, .set key value ttlSeconds now, s'⟩ :: h)
      = if key = k then some (value, now + ttl * 1000)
        else if s.memory.has k && !s'.memory.has k then none
        else lastSet c k h := by
  rw [lastSet.eq_def]
  dsimp only
  rw [httl]

theorem Holds.step (hh : Holds c h s) (hs : step c s a = some s') :
    Holds c (⟨s, a, s'⟩ :: h) s' := by
  obtain ⟨hle, hnow, hmemory⟩ := step_eq hs
  have hnow' : s.now ≤ s'.now := hle.trans hnow.ge
  intro key
  cases a with
  | get key' now =>
    change s'.now = now at hnow
    have hget := memoryGet_get key' key { s with now := now }
    rw [effect] at hmemory
    rw [← hmemory] at hget
    rcases hget with hsame | ⟨rfl, hnone, e, he, hexpired⟩
    · exact hh.fits_of_same hnow' hsame rfl
    · refine fits_of_none hnone fun value expiresAt hlast => ?_
      obtain ⟨value', hlast', -⟩ := hh.of_some he
      change lastSet c key h = _ at hlast
      rw [hlast', Option.some_inj, Prod.mk.injEq] at hlast
      rw [← hlast.2, hnow]
      exact hexpired
  | set key' value ttlSeconds now =>
    change s'.now = now at hnow
    cases httl : normalizeTtlSeconds ttlSeconds c.defaultTtlSeconds with
    | none =>
      rw [effect_set_none httl] at hmemory
      exact hh.fits_of_same hnow' (by rw [hmemory]) (lastSet_set_none httl)
    | some ttl =>
      rw [effect_set_some httl] at hmemory
      obtain ⟨hself, hothers⟩ := memorySet_cases c { s with now := now } key'
        ⟨value.1.stringify, none⟩ ttl
      rw [← hmemory] at hself hothers
      rw [lastSet_set_some httl]
      by_cases hkey : key = key'
      · subst hkey
        rw [hself, if_pos rfl]
        exact ⟨value, rfl, rfl⟩
      · rw [if_neg (Ne.symm hkey)]
        rcases hothers key hkey with hsame | ⟨hnone, hhas⟩
        · refine hh.fits_of_same hnow' hsame (if_neg ?_)
          rw [OrdMap.has, OrdMap.has, hsame]
          cases (s.memory.get key).isSome <;> exact Bool.false_ne_true
        · refine fits_of_none hnone ?_
          rw [if_pos (by rw [hhas, OrdMap.has, hnone]; rfl)]
          exact fun _ _ hnone => absurd hnone (Option.some_ne_none _).symm
  | delete key' now =>
    rw [effect] at hmemory
    rw [lastSet]
    dsimp only
    by_cases hkey : key = key'
    · subst hkey
      refine fits_of_none (by rw [hmemory, OrdMap.get_delete, if_pos rfl]) ?_
      rw [if_pos rfl]
      exact fun _ _ hnone => absurd hnone (Option.some_ne_none _).symm
    · refine hh.fits_of_same hnow' ?_ (if_neg (Ne.symm hkey))
      rw [hmemory, OrdMap.get_delete_of_ne _ hkey]

theorem holds_run (hr : Run (sys c) h s) : Holds c h s := by
  induction hr with
  | start hi =>
    obtain ⟨now, rfl⟩ := hi
    exact fun key value expiresAt hlast => nomatch hlast
  | next _ hs ih => exact ih.step hs

theorem Holds.returns (hh : Holds c h s) {now : ℤ} (hnow : s.now ≤ now) :
    get key { s with now := now } = some (current now (lastSet c key h)) := by
  unfold get memoryGet
  dsimp only
  cases hget : s.memory.get key with
  | none =>
    cases hlast : lastSet c key h with
    | none => rfl
    | some last =>
      have hexpired := hh.of_none hget hlast
      have hfilter : (some last).filter (fun l : JsonValue ν × ℤ => now < l.2) = none :=
        Option.filter_some_neg (by simpa using hexpired.trans hnow)
      rw [current, hfilter]
  | some e =>
    obtain ⟨value, hlast, htext⟩ := hh.of_some hget
    rw [hlast, current, Option.filter_some]
    by_cases hexpired : e.expiresAtMs ≤ now
    · rw [if_neg (by simpa using hexpired)]
      dsimp only
      rw [if_pos hexpired]
    · rw [if_pos (by simpa using hexpired)]
      dsimp only
      rw [if_neg hexpired]
      dsimp only
      rw [htext, Json.parse_stringify value.2]

end Values

section Bounded

theorem size_effect_le (a : Action ν) (h : s.memory.size ≤ c.maxEntries) :
    (effect c s a).size ≤ c.maxEntries := by
  have hdelete : ∀ key, (s.memory.delete key).size ≤ c.maxEntries := fun key =>
    (List.length_filter_le _ _).trans h
  cases a with
  | get key now =>
    change (memoryGet key { s with now := now }).2.size ≤ _
    unfold memoryGet
    split
    · exact h
    · dsimp only
      split_ifs
      · exact hdelete key
      · exact h
  | set key value ttlSeconds now =>
    cases httl : normalizeTtlSeconds ttlSeconds c.defaultTtlSeconds with
    | none =>
      rw [effect_set_none httl]
      exact h
    | some ttl =>
      rw [effect_set_some httl]
      exact size_memorySet_le _ ttl h
  | delete key now => exact hdelete key

theorem size_run (hr : Run (sys c) h s) : s.memory.size ≤ c.maxEntries := by
  refine hr.invariant (P := fun s => s.memory.size ≤ c.maxEntries) ?_ ?_
  · rintro s ⟨now, rfl⟩
    exact Nat.zero_le _
  · intro s a s' hle hs
    rw [(step_eq hs).2.2]
    exact size_effect_le a hle

end Bounded

section Order

theorem presentFor_pos (hr : Run (sys c) h s) (hhas : s.memory.has k = true) :
    0 < presentFor k h := by
  cases hr with
  | start hi =>
    obtain ⟨now, rfl⟩ := hi
    exact absurd hhas Bool.false_ne_true
  | next _ _ =>
    rw [presentFor, if_pos hhas]
    exact Nat.succ_pos _

theorem presentFor_eq_zero (hr : Run (sys c) h s) (hhas : ¬ s.memory.has k = true) :
    presentFor k h = 0 := by
  cases hr with
  | start _ => rfl
  | next _ _ => rw [presentFor, if_neg hhas]

/-- The keys stand in the order in which they came. -/
def InOrder (h : List (Taken State (Action ν))) (keys : List String) : Prop :=
  keys.Pairwise fun k k' => presentFor k' h < presentFor k h

/-- The keys that a call leaves: some of those that were there, and perhaps a new one. -/
def Leaves (keys keys' : List String) : Prop :=
  ∃ l, l.Sublist keys ∧ (keys' = l ∨ ∃ key, key ∉ keys ∧ keys' = l ++ [key])

theorem leaves_delete (m : OrdMap String MemoryEntry) (key : String) :
    Leaves m.keys (m.delete key).keys :=
  ⟨_, List.filter_sublist, .inl (m.keys_delete key)⟩

theorem keys_delete_first {m : OrdMap String MemoryEntry} {rest : List String}
    (hkeys : m.keys = k :: rest) : (m.delete k).keys = rest := by
  have hnodup : (k :: rest).Nodup := hkeys ▸ m.nodup
  rw [OrdMap.keys_delete, hkeys, List.filter_cons_of_neg (by simp)]
  refine List.filter_eq_self.2 fun k' hk' => decide_eq_true fun heq => ?_
  exact (List.nodup_cons.1 hnodup).1 (heq ▸ hk')

theorem length_keys (m : OrdMap String MemoryEntry) : m.keys.length = m.size := List.length_map _

theorem first_of_one {m : OrdMap String MemoryEntry} {first : String} {rest : List String}
    (hsize : m.size ≤ 1) (hkeys : m.keys = first :: rest) (hhas : m.has key = true) :
    key = first ∧ rest = [] := by
  have hlen := length_keys m
  rw [hkeys, List.length_cons] at hlen
  obtain rfl : rest = [] := List.length_eq_zero_iff.1 (by omega)
  rw [has_iff_mem, hkeys] at hhas
  exact ⟨List.mem_singleton.1 hhas, rfl⟩

theorem leaves_memorySet {value : Copy} {ttl : ℕ} (hsize : s.memory.size ≤ c.maxEntries)
    (hroomy : s.memory.has key = true → s.memory.size < c.maxEntries ∨ c.maxEntries = 1) :
    Leaves s.memory.keys (memorySet c.maxEntries key value ttl s).memory.keys := by
  rcases Nat.lt_or_ge s.memory.size c.maxEntries with hroom | hfull
  · rw [memorySet_of_room hroom, OrdMap.keys_set]
    refine ⟨s.memory.keys, List.Sublist.refl _, ?_⟩
    split_ifs with hnew
    · exact .inr ⟨key, OrdMap.get_eq_none_iff.1 hnew, rfl⟩
    · exact .inl rfl
  · obtain ⟨oldest, rest, hkeys, hmemory⟩ := memorySet_of_full key value ttl hfull
    have hdelete := keys_delete_first hkeys
    rw [hmemory, OrdMap.keys_set, hdelete]
    by_cases hhas : s.memory.has key = true
    · have hone : c.maxEntries = 1 := (hroomy hhas).resolve_left (Nat.not_lt.2 hfull)
      obtain ⟨rfl, rfl⟩ := first_of_one (hone ▸ hsize) hkeys hhas
      rw [if_pos (OrdMap.get_delete_self _ _), hkeys]
      exact ⟨[key], List.Sublist.refl _, .inl rfl⟩
    · have hnew : key ∉ s.memory.keys := fun hmem => hhas (has_iff_mem.2 hmem)
      rw [if_pos (OrdMap.get_eq_none_iff.2 fun hmem => hnew ?_)]
      · rw [hkeys]
        exact ⟨rest, List.sublist_cons_self _ _, .inr ⟨key, hkeys ▸ hnew, rfl⟩⟩
      · rw [hdelete] at hmem
        rw [hkeys]
        exact List.mem_cons_of_mem _ hmem

theorem leaves_step (hsize : s.memory.size ≤ c.maxEntries) (hroomy : Roomy c s a)
    (hs : step c s a = some s') : Leaves s.memory.keys s'.memory.keys := by
  rw [(step_eq hs).2.2]
  have hsame : Leaves s.memory.keys s.memory.keys := ⟨_, List.Sublist.refl _, .inl rfl⟩
  cases a with
  | get key now =>
    change Leaves _ (memoryGet key { s with now := now }).2.keys
    unfold memoryGet
    split
    · exact hsame
    · dsimp only
      split_ifs
      · exact leaves_delete _ key
      · exact hsame
  | set key value ttlSeconds now =>
    cases httl : normalizeTtlSeconds ttlSeconds c.defaultTtlSeconds with
    | none =>
      rw [effect_set_none httl]
      exact hsame
    | some ttl =>
      rw [effect_set_some httl]
      have hset := hroomy key value ttlSeconds now rfl (by rw [httl]; exact Option.some_ne_none ttl)
      exact leaves_memorySet (s := { s with now := now }) hsize hset
  | delete key now => exact leaves_delete _ key

theorem InOrder.step (ho : InOrder h s.memory.keys) (hr : Run (sys c) h s)
    (hkeys : Leaves s.memory.keys s'.memory.keys) :
    InOrder (⟨s, a, s'⟩ :: h) s'.memory.keys := by
  have hpresent : ∀ k ∈ s'.memory.keys, presentFor k (⟨s, a, s'⟩ :: h) = presentFor k h + 1 :=
    fun k hk => if_pos (has_iff_mem.2 hk)
  suffices hbefore : InOrder h s'.memory.keys by
    refine hbefore.imp_of_mem fun {k k'} hk hk' hlt => ?_
    rw [hpresent k hk, hpresent k' hk']
    exact Nat.succ_lt_succ hlt
  obtain ⟨l, hl, heq | ⟨key, hnew, heq⟩⟩ := hkeys
  · rw [heq]
    exact ho.sublist hl
  · rw [heq, InOrder, List.pairwise_append]
    refine ⟨ho.sublist hl, List.pairwise_singleton _ _, fun k hk k' hk' => ?_⟩
    obtain rfl := List.mem_singleton.1 hk'
    rw [presentFor_eq_zero hr fun hhas => hnew (has_iff_mem.1 hhas)]
    exact presentFor_pos hr (has_iff_mem.2 (hl.subset hk))

theorem inOrder_run (hr : Run (sys c) h s) (hroomy : Along (Roomy c) h) :
    InOrder h s.memory.keys := by
  induction hr with
  | start hi =>
    obtain ⟨now, rfl⟩ := hi
    exact List.Pairwise.nil
  | next hr hs ih =>
    exact (ih hroomy.tail).step hr (leaves_step (size_run hr) hroomy.head hs)

end Order

section Sets

variable {value : JsonValue ν} {ttlSeconds : Option JsNumber} {now : ℤ} {ttl : ℕ}

theorem set_of_room (hs : step c s (.set key value ttlSeconds now) = some s')
    (httl : normalizeTtlSeconds ttlSeconds c.defaultTtlSeconds = some ttl)
    (hroom : s.memory.size < c.maxEntries) :
    s'.memory = s.memory.set key ⟨⟨value.1.stringify, none⟩, now + ttl * 1000⟩ := by
  rw [(step_eq hs).2.2, effect_set_some httl]
  exact memorySet_of_room (s := { s with now := now }) hroom

theorem set_of_full (hs : step c s (.set key value ttlSeconds now) = some s')
    (httl : normalizeTtlSeconds ttlSeconds c.defaultTtlSeconds = some ttl)
    (hfull : c.maxEntries ≤ s.memory.size) :
    ∃ first rest, s.memory.keys = first :: rest
      ∧ s'.memory = (s.memory.delete first).set key ⟨⟨value.1.stringify, none⟩, now + ttl * 1000⟩ := by
  rw [(step_eq hs).2.2, effect_set_some httl]
  exact memorySet_of_full (s := { s with now := now }) _ _ _ hfull

end Sets

/-- After calls that meet the condition, one that meets it does what it should. -/
theorem faithful_step (hr : Run (sys c) h s) (hroomy : Along (Roomy c) h) (hs : step c s a = some s')
    (ha : Roomy c s a) : Faithful c ⟨s, a, s'⟩ h := by
  refine ⟨size_run (hr.next hs), ?_, ?_, ?_⟩
  · rintro key now rfl
    exact (holds_run hr).returns (step_eq hs).1
  · rintro key value ttlSeconds now rfl hthere k hk
    change s'.memory.get k = s.memory.get k
    cases httl : normalizeTtlSeconds ttlSeconds c.defaultTtlSeconds with
    | none => rw [(step_eq hs).2.2, effect_set_none httl]
    | some ttl =>
      rcases Nat.lt_or_ge s.memory.size c.maxEntries with hroom | hfull
      · rw [set_of_room hs httl hroom, OrdMap.get_set_of_ne _ _ hk]
      · have hhas : s.memory.has key = true := hthere.resolve_right (Nat.not_lt.2 hfull)
        have hone : c.maxEntries = 1 := (ha key value ttlSeconds now rfl
          (by rw [httl]; exact Option.some_ne_none ttl) hhas).resolve_left (Nat.not_lt.2 hfull)
        obtain ⟨first, rest, hkeys, hmemory⟩ := set_of_full hs httl hfull
        obtain ⟨rfl, -⟩ := first_of_one (hone ▸ size_run hr) hkeys hhas
        rw [hmemory, OrdMap.get_set_of_ne _ _ hk, OrdMap.get_delete_of_ne _ hk]
  · rintro key value ttlSeconds now rfl httl hnew hfull
    obtain ⟨ttl, httl⟩ := Option.ne_none_iff_exists'.1 httl
    obtain ⟨oldest, rest, hkeys, hmemory⟩ := set_of_full hs httl hfull
    have hhas : s.memory.has oldest = true := has_iff_mem.2 (hkeys ▸ List.mem_cons_self)
    have hne : oldest ≠ key := fun heq => Bool.false_ne_true (hnew.symm.trans (heq ▸ hhas))
    have horder := inOrder_run hr hroomy
    rw [hkeys] at horder
    refine ⟨oldest, hhas, ?_, fun k hk ho => ?_, fun k hk ho => ?_⟩
    · change s'.memory.has oldest = false
      rw [OrdMap.has_eq_false_iff, hmemory, OrdMap.get_set_of_ne _ _ hne, OrdMap.get_delete_self]
    · change s'.memory.get k = s.memory.get k
      rw [hmemory, OrdMap.get_set_of_ne _ _ hk, OrdMap.get_delete_of_ne _ ho]
    · have hmem := has_iff_mem.1 hk
      change k ∈ s.memory.keys at hmem
      rw [hkeys, List.mem_cons] at hmem
      exact (List.pairwise_cons.1 horder).1 k (hmem.resolve_left ho)

theorem kept_run (hr : Run (sys c) h s) (hroomy : Along (Roomy c) h) : Kept c h := by
  induction hr with
  | start _ => trivial
  | next hr hs ih => exact ⟨faithful_step hr hroomy.tail hs hroomy.head, ih hroomy.tail⟩

section Crowded

theorem exists_fresh (keys : List String) : ∃ key, key ∉ keys := by
  obtain ⟨key, hkey⟩ := Infinite.exists_notMem_finset keys.toFinset
  exact ⟨key, fun hmem => hkey (List.mem_toFinset.2 hmem)⟩

variable {value : JsonValue ν} {ttlSeconds : Option JsNumber} {now : ℤ} {ttl : ℕ} {first : String}
  {rest : List String}

theorem not_faithful_of_other (hs : step c s (.set key value ttlSeconds now) = some s')
    (httl : normalizeTtlSeconds ttlSeconds c.defaultTtlSeconds = some ttl)
    (hfull : c.maxEntries ≤ s.memory.size) (hkeys : s.memory.keys = first :: rest)
    (hhas : s.memory.has key = true) (hne : first ≠ key) :
    ¬ Faithful c ⟨s, .set key value ttlSeconds now, s'⟩ h := by
  intro hf
  have hsame : s'.memory.get first = s.memory.get first :=
    hf.spares key value ttlSeconds now rfl (.inl hhas) first hne
  obtain ⟨first', rest', hkeys', hmemory⟩ := set_of_full hs httl hfull
  obtain ⟨rfl, rfl⟩ := List.cons.inj (hkeys.symm.trans hkeys')
  rw [hmemory, OrdMap.get_set_of_ne _ _ hne, OrdMap.get_delete_self] at hsame
  exact OrdMap.get_eq_none_iff.1 hsame.symm (hkeys ▸ List.mem_cons_self)

theorem not_faithful_of_order (hs : step c s (.set key value ttlSeconds now) = some s')
    (httl : normalizeTtlSeconds ttlSeconds c.defaultTtlSeconds = some ttl)
    (hfull : c.maxEntries ≤ s.memory.size) (hkeys : s.memory.keys = first :: rest)
    (hnew : key ∉ s.memory.keys) (hk : k ∈ rest) (hlonger : presentFor first h < presentFor k h) :
    ¬ Faithful c ⟨s, .set key value ttlSeconds now, s'⟩ h := by
  intro hf
  obtain ⟨oldest, hhas, hgone, -, hlongest⟩ := hf.evicts key value ttlSeconds now rfl
    (by rw [httl]; exact Option.some_ne_none ttl)
    (eq_false_of_ne_true fun hhas => hnew (has_iff_mem.1 hhas)) hfull
  change s.memory.has oldest = true at hhas
  change s'.memory.has oldest = false at hgone
  obtain ⟨first', rest', hkeys', hmemory⟩ := set_of_full hs httl hfull
  obtain ⟨rfl, rfl⟩ := List.cons.inj (hkeys.symm.trans hkeys')
  -- Only the first key is gone, so it is the one.
  obtain rfl : oldest = first := by
    by_contra hne
    have hother : oldest ≠ key := fun heq => hnew (heq ▸ has_iff_mem.1 hhas)
    rw [OrdMap.has_eq_false_iff, hmemory, OrdMap.get_set_of_ne _ _ hother,
      OrdMap.get_delete_of_ne _ hne] at hgone
    exact OrdMap.get_eq_none_iff.1 hgone (has_iff_mem.1 hhas)
  have hne : k ≠ oldest := by
    have hnodup : (oldest :: rest).Nodup := hkeys ▸ s.memory.nodup
    exact fun heq => (List.nodup_cons.1 hnodup).1 (heq ▸ hk)
  have hshorter := hlongest k (has_iff_mem.2 (hkeys ▸ List.mem_cons_of_mem _ hk)) hne
  exact Nat.lt_asymm hlonger hshorter

omit [ReadableNumber ν] in
theorem exists_of_not_roomy (ha : ¬ Roomy c s a) :
    ∃ key value ttlSeconds now ttl, a = .set key value ttlSeconds now
      ∧ normalizeTtlSeconds ttlSeconds c.defaultTtlSeconds = some ttl ∧ s.memory.has key = true
      ∧ c.maxEntries ≤ s.memory.size ∧ 2 ≤ c.maxEntries := by
  simp only [Roomy, not_forall, not_or, Nat.not_lt] at ha
  obtain ⟨key, value, ttlSeconds, now, rfl, httl, hhas, hfull, hone⟩ := ha
  obtain ⟨ttl, httl⟩ := Option.ne_none_iff_exists'.1 httl
  have hpos := c.maxEntries_pos
  exact ⟨key, value, ttlSeconds, now, ttl, rfl, httl, hhas, hfull, by omega⟩

/-- The `set` leaves the first key of the map as the last, so that the next key that is new evicts one
that came later. -/
theorem keys_set_first (hs : step c s (.set key value ttlSeconds now) = some s')
    (httl : normalizeTtlSeconds ttlSeconds c.defaultTtlSeconds = some ttl)
    (hfull : c.maxEntries ≤ s.memory.size) (hkeys : s.memory.keys = key :: rest) :
    s'.memory.keys = rest ++ [key] := by
  obtain ⟨first, rest', hkeys', hmemory⟩ := set_of_full hs httl hfull
  obtain ⟨rfl, rfl⟩ := List.cons.inj (hkeys.symm.trans hkeys')
  rw [hmemory, OrdMap.keys_set, if_pos (OrdMap.get_delete_self _ _), keys_delete_first hkeys]

theorem exists_not_kept (hr : Run (sys c) h s) (hroomy : Along (Roomy c) h)
    (hs : step c s a = some s') (ha : ¬ Roomy c s a) :
    ∃ h' s'', Run (sys c) (h' ++ ⟨s, a, s'⟩ :: h) s'' ∧ ¬ Kept c (h' ++ ⟨s, a, s'⟩ :: h) := by
  obtain ⟨key, value, ttlSeconds, now, ttl, rfl, httl, hhas, hfull, htwo⟩ := exists_of_not_roomy ha
  obtain ⟨first, rest, hkeys, -⟩ := set_of_full hs httl hfull
  by_cases hfirst : first = key
  · subst hfirst
    have hkeys' := keys_set_first hs httl hfull hkeys
    have hlen := length_keys s.memory
    have hlen' := length_keys s'.memory
    rw [hkeys, List.length_cons] at hlen
    rw [hkeys', List.length_append, List.length_singleton] at hlen'
    obtain ⟨second, rest, rfl⟩ := List.exists_cons_of_ne_nil
      (List.ne_nil_of_length_pos (l := rest) (by omega))
    rw [List.cons_append] at hkeys'
    obtain ⟨fresh, hfresh⟩ := exists_fresh s'.memory.keys
    -- The key that was set again has been there longer than the one that is now the first.
    have horder := inOrder_run hr hroomy
    rw [hkeys] at horder
    have hlonger : presentFor second (⟨s, .set first value ttlSeconds now, s'⟩ :: h)
        < presentFor first (⟨s, .set first value ttlSeconds now, s'⟩ :: h) := by
      have hpresent : ∀ k ∈ s'.memory.keys, s'.memory.has k = true := fun k => has_iff_mem.2
      rw [presentFor, presentFor, if_pos (hpresent second (by simp [hkeys'])),
        if_pos (hpresent first (by simp [hkeys']))]
      exact Nat.succ_lt_succ ((List.pairwise_cons.1 horder).1 second List.mem_cons_self)
    have hs' : step c s' (.set fresh ⟨(.null : Json ν), rfl⟩ (some 1) s'.now)
        = some ((set c fresh ⟨(.null : Json ν), rfl⟩ (some 1) s').getD s') :=
      if_pos (Int.le_refl _)
    refine ⟨[_], _, (hr.next hs).next hs', fun hkept => ?_⟩
    exact not_faithful_of_order hs' rfl (by omega) hkeys' hfresh
      (List.mem_append_right _ List.mem_cons_self) hlonger hkept.1
  · exact ⟨[], s', hr.next hs, fun hkept =>
      not_faithful_of_other hs httl hfull hkeys hhas hfirst hkept.1⟩

end Crowded

/-- Calls of which none sets a key that is there on a full map do what they should, and any other call
can be continued to where that fails. -/
theorem memory_exact (c : Config) :
    (∀ (h : List (Taken State (Action ν))) s, Run (sys c) h s → Along (Roomy c) h → Kept c h)
      ∧ ∀ (h : List (Taken State (Action ν))) s a s', Run (sys c) h s → Along (Roomy c) h →
        step c s a = some s' → ¬ Roomy c s a →
        ∃ h' s'', Run (sys c) (h' ++ ⟨s, a, s'⟩ :: h) s''
          ∧ ¬ Kept c (h' ++ ⟨s, a, s'⟩ :: h) :=
  ⟨fun _ _ hr hroomy => kept_run hr hroomy,
    fun _ _ _ _ hr hroomy hs ha => exists_not_kept hr hroomy hs ha⟩

/-- Two entries; the second key is set again, and the first is evicted. -/
theorem not_kept_of_two :
    ∃ (h : List (Taken State (Action ℕ))) (s : State), Run (sys ⟨2, by decide, 60⟩) h s
      ∧ ¬ Kept ⟨2, by decide, 60⟩ h := by
  obtain ⟨h, s, hr, hp⟩ := Sys.exists_run (S := sys (ν := ℕ) ⟨2, by decide, 60⟩)
    (s := { now := 0 }) ⟨0, rfl⟩
    [.set "a" ⟨.null, rfl⟩ none 0, .set "b" ⟨.null, rfl⟩ none 0]
    (p := fun x => x.2.memory.keys = ["a", "b"]) rfl
  have hkeys : s.memory.keys = ["a", "b"] := of_decide_eq_true hp
  have hs : step ⟨2, by decide, 60⟩ s (.set "b" ⟨(.null : Json ℕ), rfl⟩ none s.now)
      = some ((set ⟨2, by decide, 60⟩ "b" ⟨(.null : Json ℕ), rfl⟩ none s).getD s) :=
    if_pos (Int.le_refl _)
  have hhas : s.memory.has "b" = true := has_iff_mem.2 (hkeys ▸ by decide)
  have hfull : 2 ≤ s.memory.size := by rw [← length_keys, hkeys]; decide
  exact ⟨_, _, hr.next hs, fun hkept =>
    not_faithful_of_other hs rfl hfull hkeys hhas (by decide) hkept.1⟩

end MemoryOnly

end Cache

end VeriNode
