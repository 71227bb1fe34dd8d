import VeriNode.Config.Reload
import VeriNode.Proofs.HotUpdate

/-!
# Subscriptions to a path fire on change

The callback of a path is given the new value once if it is structurally another than the old one. If
it is not, the callback is given nothing, unless the value is an object, an array or `NaN`: these are
never `===` to what was copied (`firesOnChange_iff`). So a change elsewhere in the configuration is a
change to whoever subscribed to a section of it (`stays_elsewhere`).
-/

namespace VeriNode

namespace Config

open JsVal

variable {ν ε : Type*}

section Values

variable {v w : JsVal ν}

/-- Leaves that are structurally the same. -/
def SameLeaf : JsVal ν → JsVal ν → Prop
  | .json j, .json j' => Json.Same j j'
  | v, w => v = w

/-- Structurally the same: leaves that are so stand at the same places, up to the order of keys. -/
def Alike (v w : JsVal ν) : Prop := ∀ q, Option.Rel SameLeaf (shape q v) (shape q w)

theorem SameLeaf.refl (v : JsVal ν) : SameLeaf v v := by
  cases v with
  | json j => exact fun _ => rfl
  | _ => rfl

theorem Alike.refl (v : JsVal ν) : Alike v v := by
  intro q
  rcases shape q v with _ | w
  · exact .none
  · exact .some (SameLeaf.refl w)

theorem Alike.leaf (h : Alike v w) : SameLeaf (node v) (node w) := by
  rcases h [] with h | h
  exact h

variable [DecidableEq ν] {isNaN : ν → Bool}

/-- It is not `===` to a copy of itself. -/
def isFresh (isNaN : ν → Bool) : JsVal ν → Bool
  | .obj _ => true
  | .json (.obj _) => true
  | .json (.arr _) => true
  | .json (.num n) => isNaN n
  | _ => false

theorem eq_of_strictEq (h : strictEq isNaN v w = true) : v = w ∧ isFresh isNaN v = false := by
  unfold strictEq at h
  split at h
  · exact ⟨rfl, rfl⟩
  · exact ⟨by rw [of_decide_eq_true h], rfl⟩
  · exact ⟨rfl, rfl⟩
  · exact ⟨by rw [of_decide_eq_true h], rfl⟩
  · rw [Bool.and_eq_true, decide_eq_true_iff, Bool.not_eq_true'] at h
    exact ⟨by rw [h.1], h.2⟩
  · exact ⟨by rw [of_decide_eq_true h], rfl⟩
  · cases h

/-- Other values are if they are structurally the same. -/
theorem strictEq_of_alike (hv : isFresh isNaN v = false) (h : Alike v w) :
    strictEq isNaN v w = true := by
  have hleaf := h.leaf
  cases v with
  | obj fs => cases hv
  | undefined =>
    cases w with
    | undefined => rfl
    | _ => cases hleaf
  | func f =>
    cases w with
    | func g =>
      cases hleaf
      exact decide_eq_true rfl
    | _ => cases hleaf
  | json j =>
    cases w with
    | json j' =>
      have hnode := Json.Same.node hleaf
      cases j with
      | arr xs => cases hv
      | obj fs => cases hv
      | null =>
        cases j' with
        | null => rfl
        | _ => cases hnode
      | bool b =>
        cases j' with
        | bool b' =>
          cases hnode
          exact decide_eq_true rfl
        | _ => cases hnode
      | num n =>
        cases j' with
        | num n' =>
          cases hnode
          have hn : isNaN n = false := hv
          simp [strictEq, hn]
        | _ => cases hnode
      | str s =>
        cases j' with
        | str s' =>
          cases hnode
          exact decide_eq_true rfl
        | _ => cases hnode
    | _ => cases hleaf

end Values

section Changes

variable [DecidableEq ν] {isNaN : ν → Bool} {schema : Schema ν}
  {valid : List (String × JsVal ν) → Bool} {toNumber : String → Option ℕ} {config data : JsVal ν}
  {bus : Bus ν ε} {subscriptions : OrdMap String (Subscription ν)} {id path : String}
  {throws : JsVal ν → Bool} {c : Change ν}

theorem flatMap_of_key {α β : Type*} {id : String} (xs : List β) : ∀ {l : List (String × α)},
    (l.map Prod.fst).Nodup → id ∈ l.map Prod.fst →
      (l.flatMap fun e => if e.1 = id then xs else []) = xs
  | [], _, h => by cases h
  | e :: l, hn, h => by
    obtain ⟨hnot, hn⟩ := List.nodup_cons.1 hn
    rw [List.flatMap_cons]
    rcases List.mem_cons.1 h with rfl | h
    · have hrest : (l.flatMap fun e' => if e'.1 = e.1 then xs else []) = [] :=
        List.flatMap_eq_nil_iff.2 fun e' he' =>
          if_neg fun heq => hnot (List.mem_map.2 ⟨e', he', heq⟩)
      rw [if_pos rfl, hrest, List.append_nil]
    · have hne : e.1 ≠ id := fun heq => hnot (heq ▸ h)
      rw [if_neg hne, List.nil_append]
      exact flatMap_of_key xs hn h

theorem heard_notify (hsub : subscriptions.get id = some (.onChangePath path throws))
    (old new : JsVal ν) (written : List ε) :
    heard isNaN id path (notify old new (managerOf isNaN config bus subscriptions) written)
      = onPath isNaN path old new := by
  set m := subscriptions.map (Subscription.callback isNaN) with hm
  have hmem : id ∈ m.entries.map Prod.fst := by
    have hget : m.get id = some (Subscription.callback isNaN (.onChangePath path throws)) := by
      rw [hm, OrdMap.get_map, hsub]
      rfl
    exact List.mem_map.2 ⟨_, OrdMap.mem_entries_iff.2 hget, rfl⟩
  rw [heard, notify, managerOf, List.flatMap_map]
  exact flatMap_of_key (onPath isNaN path old new) m.nodup hmem

/-- The callback was given the new value once if it is another, and nothing if it is not. -/
def FiresOnChange (old new : JsVal ν) (given : List (JsVal ν)) : Prop :=
  (Alike old new → given = []) ∧ (¬ Alike old new → given = [new])

theorem firesOnChange_onPath (path : String) (old new : JsVal ν) :
    FiresOnChange (readPath path old) (readPath path new) (onPath isNaN path old new)
      ↔ ¬ (isFresh isNaN (readPath path old) = true ∧ Alike (readPath path old) (readPath path new)) := by
  rw [FiresOnChange, onPath]
  by_cases hstrict : strictEq isNaN (readPath path old) (readPath path new) = true
  · obtain ⟨heq, hfresh⟩ := eq_of_strictEq hstrict
    rw [if_pos hstrict, ← heq, hfresh]
    simp [Alike.refl]
  · rw [if_neg hstrict]
    constructor
    · rintro ⟨hsame, -⟩ ⟨-, halike⟩
      exact List.cons_ne_nil _ _ (hsame halike)
    · intro hnot
      refine ⟨fun halike => ?_, fun _ => rfl⟩
      by_cases hfresh : isFresh isNaN (readPath path old) = true
      · exact absurd ⟨hfresh, halike⟩ hnot
      · exact absurd (strictEq_of_alike (eq_false_of_ne_true hfresh) halike) hstrict

/-- The value at the path is an object, an array or `NaN`, and structurally the same is there in what
the change makes of the configuration. -/
def Stays (isNaN : ν → Bool) (schema : Schema ν) (valid : List (String × JsVal ν) → Bool)
    (toNumber : String → Option ℕ) (path : String) (config : JsVal ν) (c : Change ν) : Prop :=
  isFresh isNaN (readPath path config) = true
    ∧ ∃ data, (c.copy toNumber config).bind (validate schema valid) = some data
      ∧ Alike (readPath path config) (readPath path data)

/-- Of a change that succeeds. -/
theorem firesOnChange_iff (hsub : subscriptions.get id = some (.onChangePath path throws))
    (hreturned : ((managerOf isNaN config bus subscriptions).call schema valid toNumber c).outcome
      = .returned) :
    FiresOnChange (readPath path config)
        (readPath path ((managerOf isNaN config bus subscriptions).call schema valid toNumber c).config)
        (heard isNaN id path
          ((managerOf isNaN config bus subscriptions).call schema valid toNumber c))
      ↔ ¬ Stays isNaN schema valid toNumber path config c := by
  set m := managerOf isNaN config bus subscriptions with hm
  have hconfig : m.config = config := rfl
  rcases hdata : (c.copy toNumber m.config).bind (validate schema valid) with _ | data
  · obtain ⟨outcome, hcall, hne⟩ := call_refused hdata
    rw [hcall] at hreturned
    exact absurd hreturned hne
  · have hcall := call_installed hdata
    rw [hcall, install] at hreturned ⊢
    split_ifs at hreturned ⊢ with hthrew
    rw [hm, heard_notify hsub]
    refine (firesOnChange_onPath path config data).trans (not_congr (and_congr_right fun _ => ?_))
    constructor
    · exact fun halike => ⟨data, hdata, halike⟩
    · rintro ⟨data', hdata', halike⟩
      rw [← hconfig, hdata] at hdata'
      obtain rfl := Option.some.inj hdata'
      exact halike

/-- A manager of a section and a number, with a subscription. -/
def watching (path : String) : Manager ℕ ℕ :=
  managerOf (fun _ => false) (.obj [("a", .obj []), ("b", .json (.num 1))]) {}
    ((∅ : OrdMap String (Subscription ℕ)).set "watch" (.onChangePath path fun _ => false))

theorem firesOnChange_b :
    FiresOnChange (readPath "b" (watching "b").config)
        (readPath "b" ((watching "b").call (section_ []) (fun _ => true) Json.arrayIndex
          (.update (.keys ["b"]) (.json (.num 2)))).config)
        (heard (fun _ => false) "watch" "b"
          ((watching "b").call (section_ []) (fun _ => true) Json.arrayIndex
            (.update (.keys ["b"]) (.json (.num 2)))))
      ↔ ¬ Stays (fun _ => false) (section_ []) (fun _ => true) Json.arrayIndex "b"
        (watching "b").config (.update (.keys ["b"]) (.json (.num 2))) :=
  firesOnChange_iff (OrdMap.get_set_self ∅ "watch" (Subscription.onChangePath "b" fun _ => false)) rfl

/-- The subscriber of the section is given it where the number was changed. -/
theorem not_firesOnChange_a :
    ((watching "a").call (section_ []) (fun _ => true) Json.arrayIndex
        (.update (.keys ["b"]) (.json (.num 2)))).outcome = .returned
      ∧ ¬ FiresOnChange (readPath "a" (watching "a").config)
        (readPath "a" ((watching "a").call (section_ []) (fun _ => true) Json.arrayIndex
          (.update (.keys ["b"]) (.json (.num 2)))).config)
        (heard (fun _ => false) "watch" "a"
          ((watching "a").call (section_ []) (fun _ => true) Json.arrayIndex
            (.update (.keys ["b"]) (.json (.num 2))))) := by
  refine ⟨rfl, fun h => ?_⟩
  have hgiven := h.1 (Alike.refl (.obj []))
  cases hgiven

end Changes

section Elsewhere

variable {schema : Schema ν} {valid : List (String × JsVal ν) → Bool} {toNumber : String → Option ℕ}
  {k path : String} {fs gs : List (String × JsVal ν)} {data : JsVal ν} {c : Change ν}

theorem own_fillDefault_congr (h : own k gs = own k fs) (key : String) (d : Option (Json ν)) :
    own k (fillDefault key d gs) = own k (fillDefault key d fs) := by
  by_cases hk : k = key
  · subst hk
    have hread : read k gs = read k fs := by rw [JsVal.read, JsVal.read, h]
    unfold fillDefault
    rw [hread]
    split
    · rw [own_assign_self, own_assign_self]
    · exact h
  · rw [own_fillDefault_ne hk, own_fillDefault_ne hk, h]

theorem own_descend_congr (h : own k gs = own k fs) (key : String)
    (f : List (String × JsVal ν) → List (String × JsVal ν)) :
    own k (descend f key gs) = own k (descend f key fs) := by
  by_cases hk : k = key
  · subst hk
    rw [descend, descend, h]
    split
    · rw [own_assign_self, own_assign_self]
    · exact h
  · rw [own_descend_ne hk, own_descend_ne hk, h]

theorem own_applyProperties_congr : ∀ (ps : List (String × Schema ν))
    {fs gs : List (String × JsVal ν)}, own k gs = own k fs →
      own k (applyProperties ps gs) = own k (applyProperties ps fs)
  | [], _, _, h => h
  | (key, s) :: rest, fs, gs, h => by
    rw [applyProperties, applyProperties]
    refine own_applyProperties_congr rest ?_
    have hfill := own_fillDefault_congr h key s.default
    split_ifs
    · exact own_descend_congr hfill key _
    · exact hfill

theorem readPath_congr (h : own k gs = own k fs) (hk : (splitPath path).head? = some k) :
    readPath path (.obj gs) = readPath path (.obj fs) := by
  obtain ⟨q, hq⟩ := List.head?_eq_some_iff.1 hk
  have hkey : readKey k (.obj gs) = readKey k (.obj fs) := by
    rw [readKey, readKey, child, child, h]
    · intro hfunc
      cases hfunc
    · intro hfunc
      cases hfunc
  rw [readPath, readPath, hq, List.foldl_cons, List.foldl_cons, hkey]

theorem readPath_elsewhere (hcomplete : applyDefaults schema fs = fs)
    (hk : (splitPath path).head? = some k) (hown : own k gs = own k fs)
    (hdata : validate schema valid (.obj gs) = some data) :
    readPath path data = readPath path (.obj fs) := by
  simp only [validate, Option.ite_none_right_eq_some, Option.some.injEq] at hdata
  obtain ⟨-, rfl⟩ := hdata
  refine readPath_congr ?_ hk
  cases schema with
  | mk isObject default properties =>
    rw [← hcomplete]
    exact own_applyProperties_congr properties hown

/-- The change is an update or a deletion under another key. -/
def Change.Elsewhere (k : String) : Change ν → Prop
  | .update path _ => k ≠ path.toKeys.headD "undefined"
  | .delete path => k ≠ path.toKeys.headD "undefined"
  | .reload _ => False

/-- Such a change leaves a section of a complete configuration as it is, and its subscriber is told. -/
theorem stays_elsewhere {isNaN : ν → Bool} (hcomplete : applyDefaults schema fs = fs)
    (hk : (splitPath path).head? = some k) (hc : c.Elsewhere k)
    (hdata : (c.copy toNumber (.obj fs)).bind (validate schema valid) = some data)
    (hfresh : isFresh isNaN (readPath path (.obj fs)) = true) :
    Stays isNaN schema valid toNumber path (.obj fs) c := by
  obtain ⟨new, hcopy, hvalid⟩ := Option.bind_eq_some_iff.1 hdata
  obtain ⟨gs, rfl, hown⟩ : ∃ gs, new = .obj gs ∧ own k gs = own k fs := by
    cases c with
    | update p value => exact setPath_kept hcopy hc
    | delete p => exact deletePath_kept hcopy hc
    | reload merged => exact hc.elim
  have hread : readPath path data = readPath path (.obj fs) :=
    readPath_elsewhere hcomplete hk hown hvalid
  exact ⟨hfresh, data, hdata, hread ▸ Alike.refl _⟩

end Elsewhere

end Config

end VeriNode
