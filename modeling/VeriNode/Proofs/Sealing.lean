import VeriNode.Lib.Fields
import VeriNode.Security.PayloadEncryption
import Mathlib.Data.List.Infix
import Mathlib.Data.Set.Basic

/-!
# Payloads with some paths sealed

While a list of paths is gone through, a payload is its original with some paths sealed (`Sealing`),
and a path that is visited changes at most whether it is sealed itself (`Visit.value`). On
encryption a path is sealed if no prefix of it is listed before it (`sealedBy`); on decryption it is
opened once those of its prefixes that are sealed came in the list from the shortest to the longest
(`stillSealed`).
-/

namespace VeriNode

namespace Security

section Calls

variable {α β : Type} {n n' : ℕ} {a : α} {m : Draws α}

theorem bind_ok (h : m n = .ok (a, n')) (f : α → Draws β) : (m >>= f) n = f a n' := by
  simp only [bind, StateT.bind, h, Except.bind]

theorem map_ok (h : m n = .ok (a, n')) (f : α → β) : (f <$> m) n = .ok (f a, n') := by
  simp only [Functor.map, StateT.map, h, bind, Except.bind, pure, Except.pure]

end Calls

section Envelopes

variable {ν : Type}

/-- The names of the fields of an envelope. -/
def envelopeKeys : List String :=
  [MARKER, "version", "alg", "keyId", "nonce", "ciphertext", "tag"]

theorem stringField_eq {k t : String} {fields : List (String × Json ν)} :
    stringField k fields = some t ↔ fields.lookup k = some (.str t) := by
  unfold stringField
  split
  · rename_i u hu
    simp [hu]
  · rename_i hne
    constructor
    · intro h
      cases h
    · intro h
      exact absurd h (hne t)

variable [ReadableNumber ν]

theorem encryptedEnvelope?_eq {v : Json ν} {e : EncryptedFieldEnvelope} :
    encryptedEnvelope? v = some e ↔ ∃ fields, v = .obj fields
      ∧ fields.lookup MARKER = some (.bool true)
      ∧ fields.lookup "version" = some (.num ReadableNumber.one)
      ∧ fields.lookup "alg" = some (.str ALGORITHM)
      ∧ fields.lookup "keyId" = some (.str e.keyId) ∧ fields.lookup "nonce" = some (.str e.nonce)
      ∧ fields.lookup "ciphertext" = some (.str e.ciphertext)
      ∧ fields.lookup "tag" = some (.str e.tag) := by
  cases v with
  | obj fields =>
    simp only [encryptedEnvelope?, Option.ite_none_right_eq_some, Option.bind_eq_bind,
      Option.bind_eq_some_iff, stringField_eq, Option.pure_def, Option.some.injEq]
    constructor
    · rintro ⟨⟨hm, hv, ha⟩, keyId, hk, nonce, hn, ciphertext, hc, tag, ht, rfl⟩
      exact ⟨fields, rfl, hm, hv, ha, hk, hn, hc, ht⟩
    · rintro ⟨_, he, hm, hv, ha, hk, hn, hc, ht⟩
      cases he
      exact ⟨⟨hm, hv, ha⟩, _, hk, _, hn, _, hc, _, ht, rfl⟩
  | _ => simp [encryptedEnvelope?]

theorem encryptedEnvelope?_json (e : EncryptedFieldEnvelope) :
    encryptedEnvelope? (e.json : Json ν) = some e :=
  encryptedEnvelope?_eq.2 ⟨_, rfl, rfl, rfl, rfl, rfl, rfl, rfl, rfl⟩

theorem wellFormed_json (e : EncryptedFieldEnvelope) : (e.json : Json ν).wellFormed = true := by
  have hkeys : envelopeKeys.Pairwise (Json.precedes · ·) := by decide
  simp only [EncryptedFieldEnvelope.json, Json.wellFormed, Json.everyObj, Json.everyField,
    Bool.and_self, Bool.and_true, decide_eq_true_eq]
  exact hkeys

end Envelopes

section Places

variable {ν : Type}

/-- A step into a value. -/
inductive Step
  | key (k : String)
  | index (i : ℕ)

def valueAt : Json ν → List Step → Option (Json ν)
  | v, [] => some v
  | .obj fields, .key k :: place => (fields.lookup k).bind fun v => valueAt v place
  | .arr items, .index i :: place => items[i]?.bind fun v => valueAt v place
  | _, _ => none

/-- The path that addresses a place: arrays are gone through without a word. -/
def pathOf : List Step → List String
  | [] => []
  | .key k :: place => k :: pathOf place
  | .index _ :: place => pathOf place

/-- A path addresses something. -/
def Present (path : List String) (v : Json ν) : Prop :=
  ∃ place w, valueAt v place = some w ∧ pathOf place = path

/-- No value within is an envelope. -/
def EnvelopeFree [ReadableNumber ν] (v : Json ν) : Prop :=
  ∀ place w, valueAt v place = some w → isEncryptedEnvelope w = false

theorem nodup_of_pairwise {keys : List String} (h : keys.Pairwise (Json.precedes · ·)) :
    keys.Nodup := h.imp fun hab => by
  simp only [Json.precedes, Bool.and_eq_true, decide_eq_true_eq] at hab
  exact hab.1

end Places

section Sealing

variable {ν : Type} {O : Json ν → String → Json ν → Prop} {S S' : Set (List String)}

mutual

/-- What stands for a value at a path, where the fields at the paths of `S` are sealed: `O d k v` is
that `d` is opened as `v`, under the key `k`. -/
def Sealing (O : Json ν → String → Json ν → Prop) (S : Set (List String)) :
    Json ν → List String → Json ν → Prop
  | .arr items, path, d => ∃ ds, d = .arr ds ∧ SealingItems O S items path ds
  | .obj fields, path, d => ∃ ds, d = .obj ds ∧ SealingFields O S fields path ds
  | v, _, d => d = v

def SealingItems (O : Json ν → String → Json ν → Prop) (S : Set (List String)) :
    List (Json ν) → List String → List (Json ν) → Prop
  | [], _, ds => ds = []
  | x :: xs, path, ds =>
    ∃ d rest, ds = d :: rest ∧ Sealing O S x path d ∧ SealingItems O S xs path rest

def SealingFields (O : Json ν → String → Json ν → Prop) (S : Set (List String)) :
    List (String × Json ν) → List String → List (String × Json ν) → Prop
  | [], _, ds => ds = []
  | f :: fs, path, ds =>
    ∃ d rest, ds = (f.1, d) :: rest ∧ SealingFields O S fs path rest
      ∧ ∃ v, Sealing O S f.2 (path ++ [f.1]) v
        ∧ (path ++ [f.1] ∈ S → O d f.1 v) ∧ (path ++ [f.1] ∉ S → d = v)

end

mutual

theorem Sealing.congr : ∀ {x : Json ν} {path : List String} {d : Json ν}, Sealing O S x path d →
    (∀ rest ≠ [], path ++ rest ∈ S ↔ path ++ rest ∈ S') → Sealing O S' x path d
  | .null, _, _, h, _ => h
  | .bool _, _, _, h, _ => h
  | .num _, _, _, h, _ => h
  | .str _, _, _, h, _ => h
  | .arr items, _, _, h, hS => by
    obtain ⟨ds, rfl, hds⟩ := h
    exact ⟨ds, rfl, SealingItems.congr hds hS⟩
  | .obj fields, _, _, h, hS => by
    obtain ⟨ds, rfl, hds⟩ := h
    exact ⟨ds, rfl, SealingFields.congr hds fun f _ rest => hS (f.1 :: rest) (List.cons_ne_nil _ _)⟩

theorem SealingItems.congr : ∀ {xs : List (Json ν)} {path : List String} {ds : List (Json ν)},
    SealingItems O S xs path ds → (∀ rest ≠ [], path ++ rest ∈ S ↔ path ++ rest ∈ S') →
    SealingItems O S' xs path ds
  | [], _, _, h, _ => h
  | x :: xs, _, _, h, hS => by
    obtain ⟨d, rest, rfl, hd, hrest⟩ := h
    exact ⟨d, rest, rfl, Sealing.congr hd hS, SealingItems.congr hrest hS⟩

theorem SealingFields.congr : ∀ {fs : List (String × Json ν)} {path : List String}
    {ds : List (String × Json ν)}, SealingFields O S fs path ds →
    (∀ f ∈ fs, ∀ rest, path ++ f.1 :: rest ∈ S ↔ path ++ f.1 :: rest ∈ S') →
    SealingFields O S' fs path ds
  | [], _, _, h, _ => h
  | f :: fs, path, _, h, hS => by
    obtain ⟨d, rest, rfl, hrest, v, hv, hin, hout⟩ := h
    have hf := hS f List.mem_cons_self
    have hfield : path ++ [f.1] ∈ S ↔ path ++ [f.1] ∈ S' := hf []
    refine ⟨d, rest, rfl, SealingFields.congr hrest fun g hg => hS g (List.mem_cons_of_mem _ hg),
      v, Sealing.congr hv fun τ _ => ?_, fun hS' => hin (hfield.2 hS'),
      fun hS' => hout fun h => hS' (hfield.1 h)⟩
    simpa using hf τ

end

theorem SealingFields.keys : ∀ {fs : List (String × Json ν)} {path : List String}
    {ds : List (String × Json ν)}, SealingFields O S fs path ds →
    ds.map Prod.fst = fs.map Prod.fst
  | [], _, _, h => by rw [show _ = _ from h]
  | f :: fs, _, _, h => by
    obtain ⟨d, rest, rfl, hrest, -⟩ := h
    rw [List.map_cons, List.map_cons, hrest.keys]

theorem SealingFields.lookup {k : String} : ∀ {fs : List (String × Json ν)} {path : List String}
    {ds : List (String × Json ν)}, SealingFields O S fs path ds →
    (fs.lookup k = none ∧ ds.lookup k = none)
      ∨ ∃ x d v, fs.lookup k = some x ∧ ds.lookup k = some d ∧ Sealing O S x (path ++ [k]) v
        ∧ (path ++ [k] ∈ S → O d k v) ∧ (path ++ [k] ∉ S → d = v)
  | [], _, _, h => by
    rw [show _ = _ from h]
    exact .inl ⟨rfl, rfl⟩
  | f :: fs, path, _, h => by
    obtain ⟨d, rest, rfl, hrest, v, hv, hin, hout⟩ := h
    by_cases hk : k = f.1
    · subst hk
      exact .inr ⟨f.2, d, v, by rw [List.lookup_cons_self], by rw [List.lookup_cons_self], hv, hin,
        hout⟩
    · rw [Fields.lookup_cons, Fields.lookup_cons, if_neg hk, if_neg hk]
      exact hrest.lookup

theorem SealingItems.getElem {i : ℕ} : ∀ {xs : List (Json ν)} {path : List String}
    {ds : List (Json ν)} {x : Json ν}, SealingItems O S xs path ds → xs[i]? = some x →
    ∃ d, ds[i]? = some d ∧ Sealing O S x path d := by
  induction i with
  | zero =>
    intro xs path ds x h hx
    cases xs with
    | nil => cases hx
    | cons y ys =>
      obtain ⟨d, rest, rfl, hd, -⟩ := h
      cases hx
      exact ⟨d, rfl, hd⟩
  | succ i ih =>
    intro xs path ds x h hx
    cases xs with
    | nil => cases hx
    | cons y ys =>
      obtain ⟨d, rest, rfl, -, hrest⟩ := h
      exact ih hrest hx

end Sealing

section Opened

variable {ν : Type} [ReadableNumber ν] {C : Crypto} {s : PayloadEncryptionService}
  {S : Set (List String)}

/-- An envelope that is opened as this value, under this key. -/
def Opened (C : Crypto) (s : PayloadEncryptionService) (d : Json ν) (k : String) (v : Json ν) :
    Prop :=
  (∃ e : EncryptedFieldEnvelope, d = e.json) ∧ ∀ n, decryptValue C s d k n = .ok (v, n + 1)

theorem Sealing.eq_of_leaf {x d : Json ν} {path : List String}
    (h : Sealing (Opened C s) S x path d) (hobj : ∀ fields, d ≠ .obj fields)
    (harr : ∀ items, d ≠ .arr items) : x = d := by
  cases x with
  | arr items =>
    obtain ⟨ds, rfl, -⟩ := h
    exact absurd rfl (harr ds)
  | obj fields =>
    obtain ⟨ds, rfl, -⟩ := h
    exact absurd rfl (hobj ds)
  | _ => exact Eq.symm h

theorem SealingFields.lookup_leaf {k : String} {fs ds : List (String × Json ν)} {d : Json ν}
    {path : List String} (h : SealingFields (Opened C s) S fs path ds) (hd : ds.lookup k = some d)
    (hobj : ∀ fields, d ≠ .obj fields) (harr : ∀ items, d ≠ .arr items) :
    fs.lookup k = some d := by
  obtain ⟨-, hnone⟩ | ⟨x, d', v, hx, hd', hv, hin, hout⟩ := h.lookup (k := k)
  · rw [hnone] at hd
    cases hd
  · rw [hd'] at hd
    cases hd
    by_cases hS : path ++ [k] ∈ S
    · obtain ⟨⟨e, rfl⟩, -⟩ := hin hS
      exact absurd rfl (hobj _)
    · rw [← hout hS] at hv
      rw [hx, hv.eq_of_leaf hobj harr]

theorem Sealing.envelope {x d : Json ν} {path : List String} {e : EncryptedFieldEnvelope}
    (h : Sealing (Opened C s) S x path d) (hd : encryptedEnvelope? d = some e) :
    encryptedEnvelope? x = some e := by
  obtain ⟨ds, rfl, hm, hv, ha, hk, hn, hc, ht⟩ := encryptedEnvelope?_eq.1 hd
  cases x with
  | obj fields =>
    obtain ⟨_, he, hds⟩ := h
    cases he
    refine encryptedEnvelope?_eq.2 ⟨fields, rfl, ?_, ?_, ?_, ?_, ?_, ?_, ?_⟩
    · exact hds.lookup_leaf hm (by simp) (by simp)
    · exact hds.lookup_leaf hv (by simp) (by simp)
    · exact hds.lookup_leaf ha (by simp) (by simp)
    · exact hds.lookup_leaf hk (by simp) (by simp)
    · exact hds.lookup_leaf hn (by simp) (by simp)
    · exact hds.lookup_leaf hc (by simp) (by simp)
    · exact hds.lookup_leaf ht (by simp) (by simp)
  | arr items =>
    obtain ⟨_, he, -⟩ := h
    cases he
  | _ => cases (show _ = _ from h)

mutual

theorem Sealing.wellFormed : ∀ {x : Json ν} {path : List String} {d : Json ν},
    Sealing (Opened C s) S x path d → x.wellFormed = true → d.wellFormed = true
  | .null, _, _, h, hx => by rwa [show _ = _ from h]
  | .bool _, _, _, h, hx => by rwa [show _ = _ from h]
  | .num _, _, _, h, hx => by rwa [show _ = _ from h]
  | .str _, _, _, h, hx => by rwa [show _ = _ from h]
  | .arr items, _, _, h, hx => by
    obtain ⟨ds, rfl, hds⟩ := h
    exact hds.wellFormed hx
  | .obj fields, _, _, h, hx => by
    obtain ⟨ds, rfl, hds⟩ := h
    rw [Json.wellFormed, Json.everyObj, Bool.and_eq_true] at hx ⊢
    rw [hds.keys]
    exact ⟨hx.1, hds.wellFormed hx.2⟩

theorem SealingItems.wellFormed : ∀ {xs : List (Json ν)} {path : List String}
    {ds : List (Json ν)}, SealingItems (Opened C s) S xs path ds →
    Json.everyItem (fun keys => keys.Pairwise (Json.precedes · ·)) xs = true →
    Json.everyItem (fun keys => keys.Pairwise (Json.precedes · ·)) ds = true
  | [], _, _, h, _ => by rw [show _ = _ from h]; rfl
  | x :: xs, _, _, h, hx => by
    obtain ⟨d, rest, rfl, hd, hrest⟩ := h
    rw [Json.everyItem, Bool.and_eq_true] at hx ⊢
    exact ⟨hd.wellFormed hx.1, hrest.wellFormed hx.2⟩

theorem SealingFields.wellFormed : ∀ {fs : List (String × Json ν)} {path : List String}
    {ds : List (String × Json ν)}, SealingFields (Opened C s) S fs path ds →
    Json.everyField (fun keys => keys.Pairwise (Json.precedes · ·)) fs = true →
    Json.everyField (fun keys => keys.Pairwise (Json.precedes · ·)) ds = true
  | [], _, _, h, _ => by rw [show _ = _ from h]; rfl
  | f :: fs, path, _, h, hx => by
    obtain ⟨d, rest, rfl, hrest, v, hv, hin, hout⟩ := h
    rw [Json.everyField, Bool.and_eq_true] at hx ⊢
    refine ⟨?_, hrest.wellFormed hx.2⟩
    by_cases hS : path ++ [f.1] ∈ S
    · obtain ⟨⟨e, rfl⟩, -⟩ := hin hS
      exact wellFormed_json e
    · rw [hout hS]
      exact hv.wellFormed hx.1

end

/-- A value within a path that is sealed lies inside an envelope. -/
theorem Sealing.covered : ∀ {place : List Step} {x d w : Json ν} {path rest : List String},
    Sealing (Opened C s) S x path d → valueAt x place = some w → rest ≠ [] →
    rest <+: pathOf place → path ++ rest ∈ S →
    ∃ outer y, outer <+: place ∧ valueAt d outer = some y ∧ isEncryptedEnvelope y = true
  | [], _, _, _, _, rest, _, _, hne, hrest, _ =>
    absurd (List.prefix_nil.1 hrest) hne
  | .index i :: place, x, d, w, path, rest, h, hx, hne, hrest, hS => by
    cases x with
    | arr items =>
      obtain ⟨ds, rfl, hds⟩ := h
      obtain ⟨y, hy, hw⟩ := Option.bind_eq_some_iff.1 hx
      obtain ⟨d, hd, hyd⟩ := hds.getElem hy
      obtain ⟨outer, z, hpre, hz, henv⟩ := hyd.covered hw hne hrest hS
      exact ⟨.index i :: outer, z, List.cons_prefix_cons.2 ⟨rfl, hpre⟩,
        by rw [valueAt, hd]; exact hz, henv⟩
    | _ => cases hx
  | .key k :: place, x, d, w, path, rest, h, hx, hne, hrest, hS => by
    cases x with
    | obj fields =>
      obtain ⟨ds, rfl, hds⟩ := h
      obtain ⟨y, hy, hw⟩ := Option.bind_eq_some_iff.1 hx
      obtain ⟨hnone, -⟩ | ⟨y', d, v, hy', hd, hv, hin, hout⟩ := hds.lookup (k := k)
      · rw [hnone] at hy
        cases hy
      · obtain rfl := Option.some.inj (hy.symm.trans hy')
        by_cases hk : path ++ [k] ∈ S
        · obtain ⟨⟨e, rfl⟩, -⟩ := hin hk
          refine ⟨[.key k], e.json, List.cons_prefix_cons.2 ⟨rfl, List.nil_prefix⟩, ?_, ?_⟩
          · rw [valueAt, hd]
            rfl
          · rw [isEncryptedEnvelope, encryptedEnvelope?_json]
            rfl
        · obtain rfl := hout hk
          obtain ⟨k', rest, rfl⟩ := List.exists_cons_of_ne_nil hne
          obtain ⟨rfl, hinner⟩ := List.cons_prefix_cons.1 hrest
          have hne : rest ≠ [] := by
            rintro rfl
            exact hk hS
          have hS' : path ++ [k'] ++ rest ∈ S := by simpa using hS
          obtain ⟨outer, z, hpre, hz, henv⟩ := hv.covered hw hne hinner hS'
          exact ⟨.key k' :: outer, z, List.cons_prefix_cons.2 ⟨rfl, hpre⟩,
            by rw [valueAt, hd]; exact hz, henv⟩
    | _ => cases hx

mutual

theorem Sealing.eq : ∀ {x : Json ν} {path : List String} {d : Json ν},
    Sealing (Opened C s) S x path d → x.wellFormed = true →
    (∀ rest ≠ [], path ++ rest ∈ S → ¬ Present rest x) → d = x
  | .null, _, _, h, _, _ => h
  | .bool _, _, _, h, _, _ => h
  | .num _, _, _, h, _, _ => h
  | .str _, _, _, h, _, _ => h
  | .arr items, path, _, h, hx, hS => by
    obtain ⟨ds, rfl, hds⟩ := h
    rw [hds.eq hx fun y hy rest hne hrest => ?_]
    rintro ⟨place, w, hw, rfl⟩
    obtain ⟨i, hi⟩ := List.mem_iff_getElem?.1 hy
    exact hS _ hne hrest ⟨.index i :: place, w, by rw [valueAt, hi]; exact hw, rfl⟩
  | .obj fields, path, _, h, hx, hS => by
    obtain ⟨ds, rfl, hds⟩ := h
    rw [Json.wellFormed, Json.everyObj, Bool.and_eq_true, decide_eq_true_eq] at hx
    have hn := nodup_of_pairwise hx.1
    rw [hds.eq hx.2 fun f hf rest hrest => ?_]
    rintro hpresent
    have hlook : fields.lookup f.1 = some f.2 := (Fields.lookup_eq_some_iff_mem hn).2 hf
    refine hS (f.1 :: rest) (List.cons_ne_nil _ _) hrest ?_
    obtain rfl | ⟨place, w, hw, rfl⟩ := hpresent
    · exact ⟨[.key f.1], f.2, by rw [valueAt, hlook]; rfl, rfl⟩
    · exact ⟨.key f.1 :: place, w, by rw [valueAt, hlook]; exact hw, rfl⟩

theorem SealingItems.eq : ∀ {xs : List (Json ν)} {path : List String} {ds : List (Json ν)},
    SealingItems (Opened C s) S xs path ds →
    Json.everyItem (fun keys => keys.Pairwise (Json.precedes · ·)) xs = true →
    (∀ y ∈ xs, ∀ rest ≠ [], path ++ rest ∈ S → ¬ Present rest y) → ds = xs
  | [], _, _, h, _, _ => h
  | x :: xs, _, _, h, hx, hS => by
    obtain ⟨d, rest, rfl, hd, hrest⟩ := h
    rw [Json.everyItem, Bool.and_eq_true] at hx
    rw [hd.eq hx.1 (hS x List.mem_cons_self),
      hrest.eq hx.2 fun y hy => hS y (List.mem_cons_of_mem _ hy)]

theorem SealingFields.eq : ∀ {fs : List (String × Json ν)} {path : List String}
    {ds : List (String × Json ν)}, SealingFields (Opened C s) S fs path ds →
    Json.everyField (fun keys => keys.Pairwise (Json.precedes · ·)) fs = true →
    (∀ f ∈ fs, ∀ rest, path ++ f.1 :: rest ∈ S → ¬ (rest = [] ∨ Present rest f.2)) → ds = fs
  | [], _, _, h, _, _ => h
  | f :: fs, path, _, h, hx, hS => by
    obtain ⟨d, rest, rfl, hrest, v, hv, -, hout⟩ := h
    rw [Json.everyField, Bool.and_eq_true] at hx
    have hf := hS f List.mem_cons_self
    have hd : d = v := hout fun hin => hf [] hin (.inl rfl)
    have hv' : v = f.2 := hv.eq hx.1 fun τ _ hτ hp => hf τ (by simpa using hτ) (.inr hp)
    rw [hd, hv', hrest.eq hx.2 fun g hg => hS g (List.mem_cons_of_mem _ hg)]

end

end Opened

section Visiting

variable {ν : Type} [ReadableNumber ν] {C : Crypto} {s : PayloadEncryptionService}
  {op : Operation} {S S' : Set (List String)} {K : List String} {n : ℕ}

/-- What is neither an array nor an object. -/
def IsLeaf (v : Json ν) : Prop := (∀ fields, v ≠ .obj fields) ∧ ∀ items, v ≠ .arr items

theorem encryptedEnvelope?_leaf {v : Json ν} (h : IsLeaf v) : encryptedEnvelope? v = none := by
  cases v with
  | obj fields => exact absurd rfl (h.1 fields)
  | _ => rfl

theorem visitPath_leaf {v : Json ν} (h : IsLeaf v) (path : List String) :
    visitPath C s op v path n = .ok (v, n) := by
  cases v with
  | obj fields => exact absurd rfl (h.1 fields)
  | arr items => exact absurd rfl (h.2 items)
  | _ => rfl

theorem decryptValue_plain {v : Json ν} (h : encryptedEnvelope? v = none) (k : String) :
    decryptValue C s v k n = .ok (v, n) := by
  rw [decryptValue, h]
  rfl

theorem intercalate_singleton (k : String) : ".".intercalate [k] = k := rfl

theorem visitField_self {k : String} {v v' : Json ν} {fs : List (String × Json ν)} {n' : ℕ}
    {rest : List String}
    (h : (match rest with
      | [] => transformValue C s op v k
      | _ => visitPath C s op v rest) n = .ok (v', n')) :
    visitField C s op ((k, v) :: fs) (k :: rest) n = .ok ((k, v') :: fs, n') := by
  rw [visitField, if_pos rfl]
  cases rest with
  | nil =>
    exact bind_ok h _
  | cons head rest => exact bind_ok h _

theorem visitField_ne {k head : String} {v : Json ν} {fs fs' : List (String × Json ν)} {n' : ℕ}
    {rest : List String} (hk : k ≠ head)
    (h : visitField C s op fs (head :: rest) n = .ok (fs', n')) :
    visitField C s op ((k, v) :: fs) (head :: rest) n = .ok ((k, v) :: fs', n') := by
  rw [visitField, if_neg hk]
  exact bind_ok h _

theorem visitField_leaf {head : String} {rest : List String} (hop : op = .encrypt → rest ≠ []) :
    ∀ {fs : List (String × Json ν)}, (∀ f ∈ fs, IsLeaf f.2) →
      visitField C s op fs (head :: rest) n = .ok (fs, n)
  | [], _ => rfl
  | (k, v) :: fs, h => by
    have hv : IsLeaf v := h (k, v) List.mem_cons_self
    by_cases hk : k = head
    · subst hk
      apply visitField_self
      cases rest with
      | nil =>
        cases op with
        | encrypt => exact absurd rfl (hop rfl)
        | decrypt => exact decryptValue_plain (encryptedEnvelope?_leaf hv) k
      | cons head rest => exact visitPath_leaf hv _
    · exact visitField_ne hk (visitField_leaf hop fun f hf => h f (List.mem_cons_of_mem _ hf))

/-- A path that leaves an envelope as it is when it comes into it. -/
def Passes (op : Operation) (rest : List String) : Prop :=
  inherits rest = false ∧ (op = .encrypt → ∀ e ∈ envelopeKeys, rest ≠ [e])

theorem visitPath_envelope (e : EncryptedFieldEnvelope) {rest : List String}
    (h : Passes op rest) (hne : rest ≠ []) :
    visitPath C s op (e.json : Json ν) rest n = .ok (e.json, n) := by
  obtain ⟨head, rest, rfl⟩ := List.exists_cons_of_ne_nil hne
  rw [EncryptedFieldEnvelope.json, visitPath]
  split_ifs with hown hinh
  · refine map_ok (visitField_leaf ?_ ?_) Json.obj
    · rintro rfl rfl
      exact h.2 rfl head (by simpa [envelopeKeys] using hown) rfl
    · simp [IsLeaf]
  · rw [h.1] at hinh
    cases hinh
  · rfl

/-- A shorter prefix of the path is sealed. -/
def Hidden (S : Set (List String)) (K : List String) : Prop := ∃ π ∈ S, π <+: K ∧ π ≠ K

/-- What is to be shown of one path for all that is at it: what is done with a value that it
addresses. -/
structure Visit (C : Crypto) (s : PayloadEncryptionService) (op : Operation)
    (S S' : Set (List String)) (K : List String) : Prop where
  off : ∀ π ≠ K, (π ∈ S ↔ π ∈ S')
  hidden : Hidden S K → (K ∈ S ↔ K ∈ S')
  leaf : ¬ Hidden S K → ∀ {k : String} {x v d : Json ν} (n : ℕ), x.wellFormed = true →
    encryptedEnvelope? x = none → Sealing (Opened C s) S x K v → (K ∈ S → Opened C s d k v) →
    (K ∉ S → d = v) → ∃ d' n' v', transformValue C s op d k n = .ok (d', n')
      ∧ Sealing (Opened C s) S' x K v' ∧ (K ∈ S' → Opened C s d' k v') ∧ (K ∉ S' → d' = v')

/-- Where the path comes to an object without its key, or to an envelope, it does nothing. -/
structure Fit (op : Operation) (S : Set (List String)) (x : Json ν) (before path : List String) :
    Prop where
  own : ∀ place fields rest, valueAt x place = some (.obj fields) → path = pathOf place ++ rest →
    inherits rest = true → rest.head?.all (· ∈ fields.map Prod.fst) = true
  sealed : ∀ place w rest, valueAt x place = some w → path = pathOf place ++ rest → rest ≠ [] →
    pathOf place ≠ [] → before ++ pathOf place ∈ S → ¬ Hidden S (before ++ pathOf place) →
    Passes op rest

theorem not_hidden {before : List String} {k : String} (h : ∀ π ∈ S, ¬ π <+: before) :
    ¬ Hidden S (before ++ [k]) := by
  rintro ⟨π, hπ, hpre, hne⟩
  obtain heq | hpre := List.prefix_concat_iff.1 hpre
  · exact hne heq
  · exact h π hπ hpre

omit [ReadableNumber ν] in
theorem Fit.index {items : List (Json ν)} {before path : List String}
    (h : Fit op S (.arr items) before path) : ∀ x ∈ items, Fit op S x before path := by
  intro x hx
  obtain ⟨i, hi⟩ := List.mem_iff_getElem?.1 hx
  have hat : ∀ place, valueAt (.arr items) (.index i :: place) = valueAt x place := by
    intro place
    rw [valueAt, hi]
    rfl
  exact ⟨fun place fields rest hw => h.own (.index i :: place) fields rest (by rw [hat, hw]),
    fun place w rest hw => h.sealed (.index i :: place) w rest (by rw [hat, hw])⟩

omit [ReadableNumber ν] in
theorem Fit.key {fields : List (String × Json ν)} {before rest : List String} {k : String}
    {x : Json ν} (h : Fit op S (.obj fields) before (k :: rest)) (hx : fields.lookup k = some x) :
    Fit op S x (before ++ [k]) rest := by
  have hat : ∀ place, valueAt (.obj fields) (.key k :: place) = valueAt x place := by
    intro place
    rw [valueAt, hx]
    rfl
  refine ⟨fun place fields rest' hw hp => h.own (.key k :: place) fields rest' (by rw [hat, hw])
    (by rw [hp]; rfl), fun place w rest' hw hp hne hplace hS hhid =>
      h.sealed (.key k :: place) w rest' (by rw [hat, hw]) (by rw [hp]; rfl) hne
        (List.cons_ne_nil _ _) ?_ ?_⟩
  · simpa [pathOf] using hS
  · simpa [pathOf] using hhid

theorem EnvelopeFree.root {x : Json ν} (h : EnvelopeFree x) : encryptedEnvelope? x = none := by
  have := h [] x rfl
  rwa [isEncryptedEnvelope, Option.isSome_eq_false_iff, Option.isNone_iff_eq_none] at this

theorem EnvelopeFree.index {items : List (Json ν)} (h : EnvelopeFree (.arr items)) :
    ∀ x ∈ items, EnvelopeFree x := by
  intro x hx place w hw
  obtain ⟨i, hi⟩ := List.mem_iff_getElem?.1 hx
  exact h (.index i :: place) w (by rw [valueAt, hi]; exact hw)

theorem EnvelopeFree.key {fields : List (String × Json ν)} (h : EnvelopeFree (.obj fields))
    {k : String} {x : Json ν} (hx : fields.lookup k = some x) : EnvelopeFree x :=
  fun place w hw => h (.key k :: place) w (by rw [valueAt, hx]; exact hw)

mutual

/-- A path that is gone along makes of the paths that are sealed what it makes of them at one
value. -/
theorem Visit.value (hV : Visit (ν := ν) C s op S S' K) : ∀ {x : Json ν} {before path : List String}
    {d : Json ν} (n : ℕ), K = before ++ path → path ≠ [] → (∀ π ∈ S, ¬ π <+: before) →
    x.wellFormed = true → EnvelopeFree x → Fit op S x before path →
    Sealing (Opened C s) S x before d →
    ∃ d' n', visitPath C s op d path n = .ok (d', n') ∧ Sealing (Opened C s) S' x before d'
  | .null, _, path, _, n, _, _, _, _, _, _, h => by
    rw [show _ = _ from h]
    exact ⟨_, _, visitPath_leaf (by simp [IsLeaf]) path, rfl⟩
  | .bool b, _, path, _, n, _, _, _, _, _, _, h => by
    rw [show _ = _ from h]
    exact ⟨_, _, visitPath_leaf (by simp [IsLeaf]) path, rfl⟩
  | .num m, _, path, _, n, _, _, _, _, _, _, h => by
    rw [show _ = _ from h]
    exact ⟨_, _, visitPath_leaf (by simp [IsLeaf]) path, rfl⟩
  | .str t, _, path, _, n, _, _, _, _, _, _, h => by
    rw [show _ = _ from h]
    exact ⟨_, _, visitPath_leaf (by simp [IsLeaf]) path, rfl⟩
  | .arr items, before, path, _, n, hK, hne, hpre, hw, hfree, hfit, h => by
    obtain ⟨ds, rfl, hds⟩ := h
    obtain ⟨ds', n', hrun, hds'⟩ := hV.items n hK hne hpre
      (fun x hx => ⟨Json.everyItem_iff.1 hw x hx, hfree.index x hx, hfit.index x hx⟩) hds
    exact ⟨.arr ds', n', map_ok hrun Json.arr, ds', rfl, hds'⟩
  | .obj fields, before, path, _, n, hK, hne, hpre, hw, hfree, hfit, h => by
    obtain ⟨ds, rfl, hds⟩ := h
    obtain ⟨head, rest, rfl⟩ := List.exists_cons_of_ne_nil hne
    rw [Json.wellFormed, Json.everyObj, Bool.and_eq_true, decide_eq_true_eq] at hw
    have hn := nodup_of_pairwise hw.1
    rw [visitPath, hds.keys]
    split_ifs with hown hinh
    · obtain ⟨ds', n', hrun, hds'⟩ := hV.field n hK hpre hn (by simpa using hown) (fun f hf => by
        have hlook := (Fields.lookup_eq_some_iff_mem hn).2 hf
        refine ⟨Json.everyField_iff.1 hw.2 f hf, hfree.key hlook, ?_⟩
        rintro rfl
        refine ⟨fun hrest hS => hfit.sealed [.key f.1] f.2 rest ?_ rfl hrest
          (List.cons_ne_nil _ _) hS (not_hidden hpre), fun _ => hfit.key hlook⟩
        rw [valueAt, hlook]
        rfl) hds
      exact ⟨.obj ds', n', map_ok hrun Json.obj, ds', rfl, hds'⟩
    · exact absurd (hfit.own [] fields (head :: rest) rfl rfl hinh) hown
    · refine ⟨.obj ds, n, rfl, ds, rfl, hds.congr fun f hf τ => hV.off _ ?_⟩
      rw [hK]
      intro he
      obtain rfl := (List.cons.inj (List.append_cancel_left he)).1
      exact hown (by simpa using List.mem_map_of_mem (f := Prod.fst) hf)

theorem Visit.items (hV : Visit (ν := ν) C s op S S' K) : ∀ {xs : List (Json ν)}
    {before path : List String} {ds : List (Json ν)} (n : ℕ), K = before ++ path → path ≠ [] →
    (∀ π ∈ S, ¬ π <+: before) →
    (∀ x ∈ xs, x.wellFormed = true ∧ EnvelopeFree x ∧ Fit op S x before path) →
    SealingItems (Opened C s) S xs before ds →
    ∃ ds' n', visitItems C s op ds path n = .ok (ds', n')
      ∧ SealingItems (Opened C s) S' xs before ds'
  | [], _, _, _, n, _, _, _, _, h => by
    rw [show _ = _ from h]
    exact ⟨[], n, rfl, rfl⟩
  | x :: xs, before, path, _, n, hK, hne, hpre, hall, h => by
    obtain ⟨d, rest, rfl, hd, hrest⟩ := h
    obtain ⟨hw, hfree, hfit⟩ := hall x List.mem_cons_self
    obtain ⟨d', m, hrun, hd'⟩ := hV.value n hK hne hpre hw hfree hfit hd
    obtain ⟨rest', n', hruns, hrest'⟩ := hV.items m hK hne hpre
      (fun y hy => hall y (List.mem_cons_of_mem _ hy)) hrest
    refine ⟨d' :: rest', n', ?_, d', rest', rfl, hd', hrest'⟩
    rw [visitItems, bind_ok hrun, bind_ok hruns]
    rfl

theorem Visit.field (hV : Visit (ν := ν) C s op S S' K) : ∀ {fs : List (String × Json ν)}
    {before rest : List String} {head : String} {ds : List (String × Json ν)} (n : ℕ),
    K = before ++ head :: rest → (∀ π ∈ S, ¬ π <+: before) → (fs.map Prod.fst).Nodup →
    head ∈ fs.map Prod.fst →
    (∀ f ∈ fs, f.2.wellFormed = true ∧ EnvelopeFree f.2
      ∧ (f.1 = head → (rest ≠ [] → before ++ [head] ∈ S → Passes op rest)
        ∧ (before ++ [head] ∉ S → Fit op S f.2 (before ++ [head]) rest))) →
    SealingFields (Opened C s) S fs before ds →
    ∃ ds' n', visitField C s op ds (head :: rest) n = .ok (ds', n')
      ∧ SealingFields (Opened C s) S' fs before ds'
  | [], _, _, _, _, _, _, _, _, hmem, _, _ => by cases hmem
  | f :: fs, before, rest, head, _, n, hK, hpre, hn, hmem, hall, h => by
    obtain ⟨d, ds, rfl, hds, v, hv, hin, hout⟩ := h
    obtain ⟨hw, hfree, hhead⟩ := hall f List.mem_cons_self
    rw [List.map_cons, List.nodup_cons] at hn
    by_cases hk : f.1 = head
    · subst hk
      -- the other fields are at other paths
      have hothers : SealingFields (Opened C s) S' fs before ds := by
        refine hds.congr fun g hg τ => hV.off _ ?_
        rw [hK]
        intro he
        exact hn.1 (List.mem_map.2 ⟨g, hg, (List.cons.inj (List.append_cancel_left he)).1⟩)
      cases rest with
      | nil =>
        subst hK
        obtain ⟨d', n', v', hrun, hv', hin', hout'⟩ :=
          hV.leaf (not_hidden hpre) n hw hfree.root hv hin hout
        exact ⟨(f.1, d') :: ds, n', visitField_self hrun, d', ds, rfl, hothers, v', hv', hin',
          hout'⟩
      | cons next rest =>
        have hlong : before ++ [f.1] ≠ K := by
          rw [hK]
          simp
        have hstep : before ++ [f.1] ∈ S ↔ before ++ [f.1] ∈ S' := hV.off _ hlong
        by_cases hS : before ++ [f.1] ∈ S
        · have hsame : ∀ π, π ∈ S ↔ π ∈ S' := by
            intro π
            by_cases hπ : π = K
            · rw [hπ]
              exact hV.hidden ⟨_, hS, hK ▸ by simp, hlong⟩
            · exact hV.off π hπ
          obtain ⟨⟨e, rfl⟩, -⟩ := id (hin hS)
          have hpass := (hhead rfl).1 (List.cons_ne_nil _ _) hS
          refine ⟨(f.1, e.json) :: ds, n,
            visitField_self (visitPath_envelope e hpass (List.cons_ne_nil _ _)), e.json, ds, rfl,
            hothers, v, hv.congr fun τ _ => hsame _, fun _ => hin hS,
            fun hS' => absurd (hstep.1 hS) hS'⟩
        · obtain rfl := hout hS
          have hpre' : ∀ π ∈ S, ¬ π <+: before ++ [f.1] := by
            intro π hπ hp
            obtain heq | hp := List.prefix_concat_iff.1 hp
            · exact hS (heq ▸ hπ)
            · exact hpre π hπ hp
          obtain ⟨d', n', hrun, hd'⟩ := hV.value n (by simp [hK]) (List.cons_ne_nil _ _) hpre' hw
            hfree ((hhead rfl).2 hS) hv
          exact ⟨(f.1, d') :: ds, n', visitField_self hrun, d', ds, rfl, hothers, d', hd',
            fun hS' => absurd (hstep.2 hS') hS, fun _ => rfl⟩
    · have hmem' : head ∈ fs.map Prod.fst := by
        rw [List.map_cons, List.mem_cons] at hmem
        exact hmem.resolve_left fun he => hk he.symm
      obtain ⟨ds', n', hrun, hds'⟩ := hV.field n hK hpre hn.2 hmem'
        (fun g hg => hall g (List.mem_cons_of_mem _ hg)) hds
      have hsame : ∀ τ, before ++ f.1 :: τ ∈ S ↔ before ++ f.1 :: τ ∈ S' := by
        intro τ
        refine hV.off _ ?_
        rw [hK]
        intro he
        exact hk (List.cons.inj (List.append_cancel_left he)).1
      refine ⟨(f.1, d) :: ds', n', visitField_ne hk hrun, d, ds', rfl, hds', v,
        hv.congr fun τ _ => by simpa using hsame τ, fun hS' => hin ((hsame []).2 hS'),
        fun hS' => hout fun hS => hS' ((hsame []).1 hS)⟩

end

end Visiting

section Order

variable {L A : List (List String)} {K : List String}

/-- The paths that are sealed once the list is gone through: no prefix is listed before them. -/
def sealedBy (L : List (List String)) : Set (List String) :=
  {K | L.find? (fun π => π.isPrefixOf K) = some K}

instance (L : List (List String)) : DecidablePred (· ∈ sealedBy L) := fun K =>
  inferInstanceAs (Decidable (L.find? (fun π => π.isPrefixOf K) = some K))

theorem mem_of_sealedBy (h : K ∈ sealedBy L) : K ∈ L := List.mem_of_find?_eq_some h

theorem exists_sealedBy {K : List String} (hK : K ∈ L) : ∃ π ∈ sealedBy L, π <+: K := by
  cases hf : L.find? (fun π => π.isPrefixOf K) with
  | none => exact absurd (List.find?_eq_none.1 hf K hK) (by simp)
  | some π =>
    have hread : π.isPrefixOf K = true :=
      List.find?_some (p := fun τ : List String => τ.isPrefixOf K) hf
    have hπ : π <+: K := List.isPrefixOf_iff_prefix.1 hread
    by_cases he : π = K
    · exact ⟨K, he ▸ hf, List.prefix_rfl⟩
    · have hlt : π.length < K.length :=
        lt_of_le_of_ne hπ.length_le fun h => he (hπ.eq_of_length h)
      obtain ⟨τ, hτ, hpre⟩ := exists_sealedBy (List.mem_of_find?_eq_some hf)
      exact ⟨τ, hτ, hpre.trans hπ⟩
termination_by K.length

theorem sealedBy_append (A : List (List String)) (K π : List String) :
    π ∈ sealedBy (A ++ [K]) ↔ π ∈ sealedBy A ∨ (π = K ∧ ∀ τ ∈ A, ¬ τ <+: K) := by
  change (A ++ [K]).find? (fun τ => τ.isPrefixOf π) = some π
    ↔ A.find? (fun τ => τ.isPrefixOf π) = some π ∨ _
  rw [List.find?_append, Option.or_eq_some_iff]
  constructor
  · rintro (h | ⟨h, hK⟩)
    · exact .inl h
    · obtain rfl := List.mem_singleton.1 (List.mem_of_find?_eq_some hK)
      refine .inr ⟨rfl, fun τ hτ hp => ?_⟩
      exact List.find?_eq_none.1 h τ hτ (List.isPrefixOf_iff_prefix.2 hp)
  · rintro (h | ⟨rfl, h⟩)
    · exact .inl h
    · refine .inr ⟨List.find?_eq_none.2 fun τ hτ hp => h τ hτ (List.isPrefixOf_iff_prefix.1 hp), ?_⟩
      simp

theorem sealedBy_append_ne {π : List String} (h : π ≠ K) :
    π ∈ sealedBy A ↔ π ∈ sealedBy (A ++ [K]) := by
  rw [sealedBy_append]
  exact ⟨.inl, fun h' => h'.resolve_right fun hk => h hk.1⟩

theorem sealedBy_append_hidden (h : Hidden (sealedBy A) K) :
    K ∈ sealedBy A ↔ K ∈ sealedBy (A ++ [K]) := by
  obtain ⟨π, hπ, hpre, -⟩ := h
  rw [sealedBy_append]
  exact ⟨.inl, fun h' => h'.resolve_right fun hk => hk.2 π (mem_of_sealedBy hπ) hpre⟩

theorem sealedBy_append_self (h : ¬ Hidden (sealedBy A) K) : K ∈ sealedBy (A ++ [K]) := by
  rw [sealedBy_append]
  by_cases hA : ∃ τ ∈ A, τ <+: K
  · obtain ⟨τ, hτ, hpre⟩ := hA
    obtain ⟨π, hπ, hpre'⟩ := exists_sealedBy hτ
    by_cases he : π = K
    · exact .inl (he ▸ hπ)
    · exact absurd ⟨π, hπ, hpre'.trans hpre, he⟩ h
  · exact .inr ⟨rfl, fun τ hτ hp => hA ⟨τ, hτ, hp⟩⟩

/-- The prefixes of a path that are sealed, the shortest first. -/
def sealedPrefixes (L : List (List String)) (K : List String) : List (List String) :=
  K.inits.filter (· ∈ sealedBy L)

/-- The paths that are still sealed once a part of the list is gone through again. -/
def stillSealed (L A : List (List String)) : Set (List String) :=
  {K | K ∈ sealedBy L ∧ ¬ (sealedPrefixes L K).Sublist A}

theorem inits_concat (τ : List String) (a : String) :
    (τ ++ [a]).inits = τ.inits ++ [τ ++ [a]] := by
  simp [List.inits_append]

theorem sealedPrefixes_concat {τ : List String} {a : String} (h : τ ++ [a] ∈ sealedBy L) :
    sealedPrefixes L (τ ++ [a]) = sealedPrefixes L τ ++ [τ ++ [a]] := by
  rw [sealedPrefixes, inits_concat, List.filter_append, List.filter_singleton, sealedPrefixes]
  simp [h]

theorem sealedPrefixes_mono {σ τ : List String} (h : σ <+: τ) :
    (sealedPrefixes L σ).Sublist (sealedPrefixes L τ) := by
  obtain ⟨ρ, rfl⟩ := h
  rw [sealedPrefixes, sealedPrefixes, List.inits_append, List.filter_append]
  exact List.sublist_append_left _ _

theorem sealedPrefixes_sublist : ∀ {τ : List String}, (∀ π ∈ L, π ≠ []) →
    (∀ σ ∈ sealedBy L, σ <+: τ → (sealedPrefixes L σ).Sublist A) →
    (sealedPrefixes L τ).Sublist A := by
  intro τ hne
  induction τ using List.reverseRecOn with
  | nil =>
    intro _
    have hnil : [] ∉ sealedBy L := fun h => hne [] (mem_of_sealedBy h) rfl
    simp [sealedPrefixes, hnil]
  | append_singleton τ a ih =>
    intro h
    by_cases hsealed : τ ++ [a] ∈ sealedBy L
    · exact h _ hsealed List.prefix_rfl
    · have hnone : [τ ++ [a]].filter (· ∈ sealedBy L) = [] := by simp [hsealed]
      rw [sealedPrefixes, inits_concat, List.filter_append, hnone, List.append_nil]
      exact ih fun σ hσ hp => h σ hσ (hp.trans (List.prefix_append _ _))

theorem concat_sublist_concat {l A : List (List String)} {x y : List String} :
    (l ++ [x]).Sublist (A ++ [y]) ↔ (l ++ [x]).Sublist A ∨ (x = y ∧ l.Sublist A) := by
  rw [← List.reverse_sublist, List.reverse_concat, List.reverse_concat, List.cons_sublist_cons',
    ← List.reverse_concat, List.reverse_sublist, List.reverse_sublist]

variable (hne : ∀ π ∈ L, π ≠ [])
include hne

theorem exists_concat (h : K ∈ sealedBy L) : ∃ τ a, K = τ ++ [a]
    ∧ sealedPrefixes L K = sealedPrefixes L τ ++ [K] := by
  obtain rfl | ⟨τ, a, rfl⟩ := List.eq_nil_or_concat' K
  · exact absurd rfl (hne [] (mem_of_sealedBy h))
  · exact ⟨τ, a, rfl, sealedPrefixes_concat h⟩

theorem stillSealed_nil : stillSealed L [] = sealedBy L := by
  ext K
  refine ⟨fun h => h.1, fun h => ⟨h, fun hsub => ?_⟩⟩
  obtain ⟨τ, a, -, hlast⟩ := exists_concat hne h
  rw [hlast, List.sublist_nil] at hsub
  exact absurd hsub (by simp)

theorem stillSealed_append_ne {π : List String} (h : π ≠ K) :
    π ∈ stillSealed L A ↔ π ∈ stillSealed L (A ++ [K]) := by
  refine and_congr_right fun hπ => not_congr ?_
  obtain ⟨τ, a, -, hlast⟩ := exists_concat hne hπ
  rw [hlast, concat_sublist_concat]
  exact ⟨.inl, fun h' => h'.resolve_right fun hk => h hk.1⟩

theorem stillSealed_append_hidden (h : Hidden (stillSealed L A) K) :
    K ∈ stillSealed L A ↔ K ∈ stillSealed L (A ++ [K]) := by
  obtain ⟨π, hπ, hpre, hshort⟩ := h
  refine and_congr_right fun hK => not_congr ?_
  obtain ⟨τ, a, hconcat, hlast⟩ := exists_concat hne hK
  have hτ : π <+: τ := by
    rw [hconcat] at hpre hshort
    exact (List.prefix_concat_iff.1 hpre).resolve_left hshort
  rw [hlast, concat_sublist_concat]
  refine ⟨.inl, fun h' => h'.resolve_right fun hk => hπ.2 ?_⟩
  exact (sealedPrefixes_mono hτ).trans hk.2

theorem stillSealed_append_self (h : ¬ Hidden (stillSealed L A) K) :
    K ∉ stillSealed L (A ++ [K]) := by
  rintro ⟨hK, hsub⟩
  obtain ⟨τ, a, hconcat, hlast⟩ := exists_concat hne hK
  refine hsub ?_
  rw [hlast, concat_sublist_concat]
  refine .inr ⟨rfl, sealedPrefixes_sublist hne fun σ hσ hp => ?_⟩
  by_contra hsealed
  refine h ⟨σ, ⟨hσ, hsealed⟩, hp.trans ⟨[a], hconcat.symm⟩, ?_⟩
  rintro rfl
  have := hp.length_le
  rw [hconcat, List.length_append] at this
  simp at this

end Order

end Security

end VeriNode
