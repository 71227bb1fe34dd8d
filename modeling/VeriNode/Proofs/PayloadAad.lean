import VeriNode.Proofs.PayloadEncryption

/-!
# What an envelope is bound to

What is authenticated beside an envelope names the rest of its path that the visitor has come to,
and that is its last key. So an envelope that is moved to another path is rejected exactly where the
last keys of the paths differ.
-/

namespace VeriNode

namespace Security

section Runs

variable {α β : Type} {n n' : ℕ}

theorem of_bind_ok {m : Draws α} {f : α → Draws β} {b : β} (h : (m >>= f) n = .ok (b, n')) :
    ∃ a k, m n = .ok (a, k) ∧ f a k = .ok (b, n') := by
  simp only [bind, StateT.bind] at h
  cases hm : m n with
  | error t =>
    rw [hm] at h
    cases h
  | ok r =>
    rw [hm] at h
    exact ⟨r.1, r.2, rfl, h⟩

theorem of_map_ok {m : Draws α} {f : α → β} {b : β} (h : (f <$> m) n = .ok (b, n')) :
    ∃ a, m n = .ok (a, n') ∧ f a = b := by
  simp only [Functor.map, StateT.map] at h
  obtain ⟨a, k, hm, hb⟩ := of_bind_ok (m := m) (f := fun a => pure (f a)) h
  cases hb
  exact ⟨a, hm, rfl⟩

end Runs

section Steps

variable {ν : Type} [ReadableNumber ν] {C : Crypto} {s : PayloadEncryptionService}
  {op : Operation}

/-- What is done with the value of the field that is the head of a path. -/
def visitHead (C : Crypto) (s : PayloadEncryptionService) (op : Operation) (head : String)
    (rest : List String) (v : Json ν) : Draws (Json ν) :=
  match rest with
  | [] => transformValue C s op v head
  | _ => visitPath C s op v rest

theorem visitField_spec {head : String} {rest : List String} :
    ∀ {fs fs' : List (String × Json ν)} {n n' : ℕ},
      visitField C s op fs (head :: rest) n = .ok (fs', n') →
      fs'.map Prod.fst = fs.map Prod.fst ∧ (∀ k ≠ head, fs'.lookup k = fs.lookup k)
        ∧ ∀ x, fs.lookup head = some x → ∃ x' m m', fs'.lookup head = some x'
          ∧ visitHead C s op head rest x m = .ok (x', m')
  | [], _, _, _, h => by
    cases h
    exact ⟨rfl, fun _ _ => rfl, fun _ hx => by cases hx⟩
  | (k, v) :: fs, fs', n, n', h => by
    rw [visitField] at h
    split_ifs at h with hk
    · subst hk
      obtain ⟨v', m, hv, hpure⟩ : ∃ v' m, visitHead C s op k rest v n = .ok (v', m)
          ∧ (pure ((k, v') :: fs) : Draws _) m = .ok (fs', n') := by
        cases rest <;> exact of_bind_ok h
      cases hpure
      refine ⟨rfl, fun k' hk' => ?_, fun x hx => ?_⟩
      · rw [Fields.lookup_cons, Fields.lookup_cons, if_neg hk', if_neg hk']
      · rw [List.lookup_cons_self] at hx ⊢
        cases hx
        exact ⟨v', n, n', rfl, hv⟩
    · obtain ⟨fs'', m, hfs, hpure⟩ := of_bind_ok h
      cases hpure
      obtain ⟨hkeys, hother, hhead⟩ := visitField_spec hfs
      refine ⟨by rw [List.map_cons, List.map_cons, hkeys], fun k' hk' => ?_, fun x hx => ?_⟩
      · rw [Fields.lookup_cons, Fields.lookup_cons, hother k' hk']
      · rw [Fields.lookup_cons, if_neg (Ne.symm hk)] at hx ⊢
        exact hhead x hx

theorem visitItems_spec {path : List String} : ∀ {xs xs' : List (Json ν)} {n n' : ℕ},
    visitItems C s op xs path n = .ok (xs', n') →
    (∀ (i : ℕ) (x' : Json ν), xs'[i]? = some x' → ∃ x, xs[i]? = some x) ∧
    ∀ (i : ℕ) (x : Json ν), xs[i]? = some x → ∃ x' m m', xs'[i]? = some x'
      ∧ visitPath C s op x path m = .ok (x', m')
  | [], _, _, _, h => by
    cases h
    exact ⟨fun _ _ hx => by simp at hx, fun _ _ hx => by simp at hx⟩
  | x :: xs, _, n, _, h => by
    rw [visitItems] at h
    obtain ⟨x', m, hx', h⟩ := of_bind_ok h
    obtain ⟨xs', m', hxs', hpure⟩ := of_bind_ok h
    cases hpure
    obtain ⟨hback, hforth⟩ := visitItems_spec hxs'
    refine ⟨fun i y hy => ?_, fun i y hy => ?_⟩
    · cases i with
      | zero => exact ⟨x, rfl⟩
      | succ i => exact hback i y hy
    · cases i with
      | zero =>
        cases hy
        exact ⟨x', n, m, rfl, hx'⟩
      | succ i => exact hforth i y hy

omit [ReadableNumber ν] in
theorem visitInherited_spec {path : List String} {fs fs' : List (String × Json ν)} {n n' : ℕ}
    (h : visitInherited op path fs n = .ok (fs', n')) : fs' = fs := by
  unfold visitInherited at h
  split at h
  · cases h
  · split_ifs at h
    · cases h
      rfl
    · cases h
  · cases h
    rfl

omit [ReadableNumber ν] in
theorem exists_lookup {k : String} {x : Json ν} {fs fs' : List (String × Json ν)}
    (hkeys : fs'.map Prod.fst = fs.map Prod.fst) (h : fs'.lookup k = some x) :
    ∃ y, fs.lookup k = some y :=
  Fields.exists_lookup_of_mem (hkeys ▸ List.mem_map.2 ⟨_, Fields.mem_of_lookup h, rfl⟩)

/-- What a visit leaves of an object: its keys, the values of those that are not the head of the
path, and what becomes of the value of that. -/
theorem visitPath_obj {fields : List (String × Json ν)} {head : String} {rest : List String}
    {d : Json ν} {n n' : ℕ} (h : visitPath C s op (.obj fields) (head :: rest) n = .ok (d, n')) :
    ∃ fields', d = .obj fields' ∧ fields'.map Prod.fst = fields.map Prod.fst
      ∧ (∀ k ≠ head, fields'.lookup k = fields.lookup k)
      ∧ ∀ x, fields.lookup head = some x → ∃ x' m m', fields'.lookup head = some x'
        ∧ visitHead C s op head rest x m = .ok (x', m') := by
  have habsent : ¬ head ∈ fields.map Prod.fst → ∀ x, fields.lookup head ≠ some x := by
    intro hown x hx
    obtain ⟨l, r, rfl, -⟩ := List.lookup_eq_some_iff.1 hx
    exact hown (by simp)
  rw [visitPath] at h
  split_ifs at h with hown hinh
  · obtain ⟨fields', hrun, rfl⟩ := of_map_ok h
    exact ⟨fields', rfl, visitField_spec hrun⟩
  · obtain ⟨fields', hrun, rfl⟩ := of_map_ok h
    obtain rfl := visitInherited_spec hrun
    refine ⟨_, rfl, rfl, fun _ _ => rfl, fun x hx => absurd hx (habsent ?_ x)⟩
    simpa using hown
  · cases h
    refine ⟨_, rfl, rfl, fun _ _ => rfl, fun x hx => absurd hx (habsent ?_ x)⟩
    simpa using hown

theorem visitPath_arr {items : List (Json ν)} {path : List String} {d : Json ν} {n n' : ℕ}
    (h : visitPath C s op (.arr items) path n = .ok (d, n')) :
    ∃ items', d = .arr items' ∧ visitItems C s op items path n = .ok (items', n') := by
  rw [visitPath] at h
  obtain ⟨items', hrun, rfl⟩ := of_map_ok h
  exact ⟨items', rfl, hrun⟩

end Steps

section Bound

variable {ν : Type} [ReadableNumber ν] {C : Crypto} {s : PayloadEncryptionService}
  {env : EncryptedFieldEnvelope}

/-- What the visitor hands on as the path of a field. -/
def leafPath : List String → String
  | [] => ""
  | [head] => ".".intercalate [head]
  | _ :: next :: rest => leafPath (next :: rest)

theorem leafPath_eq : ∀ {path : List String} {k : String}, path.getLast? = some k →
    leafPath path = k
  | [_], _, h => Option.some.inj h
  | _ :: next :: rest, k, h => by
    rw [leafPath]
    exact leafPath_eq (by rwa [List.getLast?_cons_cons] at h)

def Made (C : Crypto) (s : PayloadEncryptionService) (path : List String)
    (env : EncryptedFieldEnvelope) : Prop :=
  ∃ n plaintext, let activeKey := s.options.keyProvider.getActiveKey n
    let sealed := C.encrypt (normalizeKey C activeKey.key) (C.randomBytes n)
      (aad s activeKey.keyId (leafPath path)) plaintext
    env = ⟨activeKey.keyId, Base64.encode (C.randomBytes n), Base64.encode sealed.1,
      Base64.encode sealed.2⟩

theorem encryptValue_cases {v d : Json ν} {k : String} {n n' : ℕ}
    (h : encryptValue C s v k n = .ok (d, n')) :
    d = v ∨ ∃ e : EncryptedFieldEnvelope, d = e.json ∧ Made C s [k] e := by
  unfold encryptValue at h
  split_ifs at h
  · cases h
    exact .inl rfl
  · obtain ⟨m, k', hdraw, hpure⟩ := of_bind_ok h
    cases hdraw
    cases hpure
    exact .inr ⟨_, rfl, n, _, rfl⟩

theorem valueAt_json {e : EncryptedFieldEnvelope} {step : Step} {place : List Step} {w : Json ν}
    (h : valueAt e.json (step :: place) = some w) : encryptedEnvelope? w = none := by
  cases step with
  | index i => cases h
  | key k =>
    obtain ⟨x, hx, hw⟩ := Option.bind_eq_some_iff.1 h
    obtain ⟨l, r, hfields, -⟩ := List.lookup_eq_some_iff.1 hx
    have hmem : (k, x) ∈ l ++ (k, x) :: r := by simp
    rw [← hfields] at hmem
    have hleaf : IsLeaf x := by
      simp only [List.mem_cons, Prod.mk.injEq, List.not_mem_nil, or_false] at hmem
      obtain ⟨-, rfl⟩ | ⟨-, rfl⟩ | ⟨-, rfl⟩ | ⟨-, rfl⟩ | ⟨-, rfl⟩ | ⟨-, rfl⟩ | ⟨-, rfl⟩ := hmem <;>
        simp [IsLeaf]
    cases place with
    | nil =>
      cases hw
      exact encryptedEnvelope?_leaf hleaf
    | cons step place =>
      cases x with
      | obj fields => exact absurd rfl (hleaf.1 fields)
      | arr items => exact absurd rfl (hleaf.2 items)
      | _ => cases step <;> cases hw

theorem encryptedEnvelope?_of_leaves {fields fields' : List (String × Json ν)}
    (h : ∀ k d, IsLeaf d → fields.lookup k = some d → fields'.lookup k = some d)
    (henv : encryptedEnvelope? (.obj fields) = some env) :
    encryptedEnvelope? (.obj fields') = some env := by
  obtain ⟨_, he, hm, hv, ha, hk, hn, hc, ht⟩ := encryptedEnvelope?_eq.1 henv
  cases he
  refine encryptedEnvelope?_eq.2 ⟨fields', rfl, h _ _ ?_ hm, h _ _ ?_ hv, h _ _ ?_ ha, h _ _ ?_ hk,
    h _ _ ?_ hn, h _ _ ?_ hc, h _ _ ?_ ht⟩ <;> simp [IsLeaf]

theorem leaf_of_visitHead {op : Operation} {head : String} {rest : List String} {x d : Json ν}
    {n n' : ℕ} (hop : op = .decrypt → rest ≠ []) (hleaf : IsLeaf d)
    (h : visitHead C s op head rest x n = .ok (d, n')) : x = d := by
  cases rest with
  | nil =>
    cases op with
    | decrypt => exact absurd rfl (hop rfl)
    | encrypt =>
      obtain rfl | ⟨e, rfl, -⟩ := encryptValue_cases h
      · rfl
      · exact absurd rfl (hleaf.1 _)
  | cons next rest =>
    cases x with
    | arr items =>
      obtain ⟨items', rfl, -⟩ := visitPath_arr h
      exact absurd rfl (hleaf.2 _)
    | obj fields =>
      obtain ⟨fields', rfl, -⟩ := visitPath_obj h
      exact absurd rfl (hleaf.1 _)
    | _ => cases h; rfl

/-- What is an envelope after one path of an encryption was one before, or was made for that path. -/
theorem encrypt_step : ∀ {place : List Step} {d d' w : Json ν} {path : List String} {n n' : ℕ},
    path ≠ [] → visitPath C s .encrypt d path n = .ok (d', n') → valueAt d' place = some w →
    encryptedEnvelope? w = some env →
    (∃ v, valueAt d place = some v ∧ encryptedEnvelope? v = some env)
      ∨ (pathOf place = path ∧ Made C s path env) := by
  intro place
  induction place with
  | nil =>
    intro d d' w path n n' hne h hw henv
    obtain ⟨head, rest, rfl⟩ := List.exists_cons_of_ne_nil hne
    cases hw
    refine .inl ⟨d, rfl, ?_⟩
    cases d with
    | arr items =>
      obtain ⟨items', rfl, -⟩ := visitPath_arr h
      cases henv
    | obj fields =>
      obtain ⟨fields', rfl, hkeys, hother, hhead⟩ := visitPath_obj h
      refine encryptedEnvelope?_of_leaves (fun k d hleaf hd => ?_) henv
      by_cases hk : k = head
      · subst hk
        obtain ⟨x, hx⟩ := exists_lookup hkeys hd
        obtain ⟨x', m, m', hx', hrun⟩ := hhead x hx
        obtain rfl := Option.some.inj (hx'.symm.trans hd)
        rw [hx, leaf_of_visitHead (fun h => by cases h) hleaf hrun]
      · rw [← hother k hk, hd]
    | _ => cases h; exact henv
  | cons step place ih =>
    intro d d' w path n n' hne h hw henv
    obtain ⟨head, rest, rfl⟩ := List.exists_cons_of_ne_nil hne
    cases d with
    | arr items =>
      obtain ⟨items', rfl, hitems⟩ := visitPath_arr h
      cases step with
      | key k => cases hw
      | index i =>
        obtain ⟨y', hy', hw⟩ := Option.bind_eq_some_iff.1 hw
        obtain ⟨hback, hforth⟩ := visitItems_spec hitems
        obtain ⟨y, hy⟩ := hback i y' hy'
        obtain ⟨z, m, m', hz, hrun⟩ := hforth i y hy
        obtain rfl := Option.some.inj (hz.symm.trans hy')
        refine (ih (List.cons_ne_nil _ _) hrun hw henv).imp_left ?_
        rintro ⟨v, hv, hvenv⟩
        exact ⟨v, by rw [valueAt, hy]; exact hv, hvenv⟩
    | obj fields =>
      obtain ⟨fields', rfl, hkeys, hother, hhead⟩ := visitPath_obj h
      cases step with
      | index i => cases hw
      | key k =>
        obtain ⟨y', hy', hw⟩ := Option.bind_eq_some_iff.1 hw
        by_cases hk : k = head
        · subst hk
          obtain ⟨y, hy⟩ := exists_lookup hkeys hy'
          obtain ⟨z, m, m', hz, hrun⟩ := hhead y hy
          obtain rfl := Option.some.inj (hz.symm.trans hy')
          have hat : ∀ v, valueAt y place = some v →
              valueAt (.obj fields) (.key k :: place) = some v := by
            intro v hv
            rw [valueAt, hy]
            exact hv
          cases rest with
          | nil =>
            obtain rfl | ⟨e, rfl, hmade⟩ := encryptValue_cases hrun
            · exact .inl ⟨w, hat w hw, henv⟩
            · -- the new envelope, which has no other in it
              cases place with
              | nil =>
                cases hw
                rw [encryptedEnvelope?_json] at henv
                cases henv
                exact .inr ⟨rfl, hmade⟩
              | cons step place =>
                rw [valueAt_json hw] at henv
                cases henv
          | cons next rest =>
            obtain ⟨v, hv, hvenv⟩ | ⟨hpath, hmade⟩ := ih (List.cons_ne_nil _ _) hrun hw henv
            · exact .inl ⟨v, hat v hv, hvenv⟩
            · refine .inr ⟨by rw [pathOf, hpath], ?_⟩
              rwa [Made, leafPath]
        · refine .inl ⟨w, ?_, henv⟩
          rw [valueAt, ← hother k hk, hy']
          exact hw
    | _ =>
      cases h
      exact .inl ⟨w, hw, henv⟩

theorem encrypt_run : ∀ {L : List (List String)} {d e w : Json ν} {place : List Step} {n n' : ℕ},
    (∀ K ∈ L, K ≠ []) →
    (L.foldlM (fun node path => visitPath C s .encrypt node path) d : Draws (Json ν)) n
      = .ok (e, n') → valueAt e place = some w → encryptedEnvelope? w = some env →
    (∃ v, valueAt d place = some v ∧ encryptedEnvelope? v = some env)
      ∨ Made C s (pathOf place) env
  | [], d, _, w, _, _, _, _, h, hw, henv => by
    cases h
    exact .inl ⟨w, hw, henv⟩
  | K :: L, d, e, w, place, n, n', hne, h, hw, henv => by
    rw [List.foldlM_cons] at h
    obtain ⟨d', m, hstep, hrest⟩ := of_bind_ok h
    obtain ⟨v, hv, hvenv⟩ | hmade :=
      encrypt_run (fun K hK => hne K (List.mem_cons_of_mem _ hK)) hrest hw henv
    · refine (encrypt_step (hne K List.mem_cons_self) hstep hv hvenv).imp_right ?_
      rintro ⟨rfl, hmade⟩
      exact hmade
    · exact .inr hmade

/-- The envelope is at this place, and no object on the way to it has the mark of one. -/
def Carries (env : EncryptedFieldEnvelope) : Json ν → List Step → Prop
  | v, [] => encryptedEnvelope? v = some env
  | .obj fields, .key k :: place =>
    MARKER ∉ fields.map Prod.fst ∧ ∃ x, fields.lookup k = some x ∧ Carries env x place
  | .arr items, .index i :: place => ∃ x, items[i]? = some x ∧ Carries env x place
  | _, _ => False

theorem Carries.plain {v : Json ν} {step : Step} {place : List Step}
    (h : Carries env v (step :: place)) : encryptedEnvelope? v = none := by
  cases v with
  | obj fields =>
    cases step with
    | index i => exact h.elim
    | key k =>
      cases he : encryptedEnvelope? (.obj fields) with
      | none => rfl
      | some e =>
        obtain ⟨_, hf, hm, -⟩ := encryptedEnvelope?_eq.1 he
        cases hf
        obtain ⟨l, r, rfl, -⟩ := List.lookup_eq_some_iff.1 hm
        exact absurd (by simp) h.1
  | _ => rfl

theorem decrypt_inside {w w' : Json ν} {path : List String} {n n' : ℕ} (hne : path ≠ [])
    (hw : encryptedEnvelope? w = some env) (h : visitPath C s .decrypt w path n = .ok (w', n')) :
    encryptedEnvelope? w' = some env := by
  obtain ⟨head, rest, rfl⟩ := List.exists_cons_of_ne_nil hne
  obtain ⟨fields, rfl, -⟩ := encryptedEnvelope?_eq.1 hw
  obtain ⟨fields', rfl, -, hother, hhead⟩ := visitPath_obj h
  refine encryptedEnvelope?_of_leaves (fun k d hleaf hd => ?_) hw
  by_cases hk : k = head
  · subst hk
    obtain ⟨x', m, m', hx', hrun⟩ := hhead d hd
    rw [hx']
    cases rest with
    | nil =>
      have hplain := decryptValue_plain (C := C) (s := s) (n := m) (encryptedEnvelope?_leaf hleaf) k
      cases hplain.symm.trans hrun
      rfl
    | cons next rest =>
      cases (visitPath_leaf hleaf (next :: rest)).symm.trans hrun
      rfl
  · rw [hother k hk, hd]

/-- A path that is not that of the envelope leaves it where it is. -/
theorem decrypt_step : ∀ {place : List Step} {d d' : Json ν} {path : List String} {n n' : ℕ},
    path ≠ [] → pathOf place ≠ path → Carries env d place →
    visitPath C s .decrypt d path n = .ok (d', n') → Carries env d' place := by
  intro place
  induction place with
  | nil =>
    intro d d' path n n' hne _ hd h
    exact decrypt_inside hne hd h
  | cons step place ih =>
    intro d d' path n n' hne hpath hd h
    obtain ⟨head, rest, rfl⟩ := List.exists_cons_of_ne_nil hne
    cases step with
    | index i =>
      cases d with
      | arr items =>
        obtain ⟨x, hx, hcarries⟩ := hd
        obtain ⟨items', rfl, hitems⟩ := visitPath_arr h
        obtain ⟨x', m, m', hx', hrun⟩ := (visitItems_spec hitems).2 i x hx
        exact ⟨x', hx', ih hne hpath hcarries hrun⟩
      | _ => exact hd.elim
    | key k =>
      cases d with
      | obj fields =>
        obtain ⟨hmark, x, hx, hcarries⟩ := hd
        obtain ⟨fields', rfl, hkeys, hother, hhead⟩ := visitPath_obj h
        by_cases hk : k = head
        · subst hk
          obtain ⟨x', m, m', hx', hrun⟩ := hhead x hx
          refine ⟨hkeys ▸ hmark, x', hx', ?_⟩
          cases rest with
          | nil =>
            cases place with
            | nil => exact absurd rfl hpath
            | cons step place =>
              cases (decryptValue_plain hcarries.plain k).symm.trans hrun
              exact hcarries
          | cons next rest =>
            refine ih (List.cons_ne_nil _ _) (fun he => hpath ?_) hcarries hrun
            rw [pathOf, he]
        · exact ⟨hkeys ▸ hmark, x, by rw [hother k hk, hx], hcarries⟩
      | _ => exact hd.elim

theorem pathOf_last : ∀ (place : List Step) {k : String}, place.getLast? = some (.key k) →
    (pathOf place).getLast? = some k
  | [.key _], _, h => by
    cases h
    rfl
  | .key _ :: step :: place, k, h => by
    rw [List.getLast?_cons_cons] at h
    rw [pathOf, List.getLast?_cons, pathOf_last (step :: place) h]
    rfl
  | .index _ :: step :: place, k, h => by
    rw [List.getLast?_cons_cons] at h
    exact pathOf_last (step :: place) h

/-- The path of the envelope opens it, under its last key. -/
theorem decrypt_here : ∀ {place : List Step} {d d' : Json ν} {k : String} {n n' : ℕ},
    place.getLast? = some (.key k) → Carries env d place →
    visitPath C s .decrypt d (pathOf place) n = .ok (d', n') →
    ∃ (w w' : Json ν) (m m' : ℕ), encryptedEnvelope? w = some env
      ∧ decryptValue C s w k m = .ok (w', m') := by
  intro place
  induction place with
  | nil =>
    intro d d' k n n' hlast
    cases hlast
  | cons step place ih =>
    intro d d' k n n' hlast hd h
    cases step with
    | index i =>
      cases d with
      | arr items =>
        obtain ⟨x, hx, hcarries⟩ := hd
        obtain ⟨items', rfl, hitems⟩ := visitPath_arr h
        obtain ⟨x', m, m', hx', hrun⟩ := (visitItems_spec hitems).2 i x hx
        cases place with
        | nil => cases hlast
        | cons step place => exact ih (by rwa [List.getLast?_cons_cons] at hlast) hcarries hrun
      | _ => exact hd.elim
    | key head =>
      cases d with
      | obj fields =>
        obtain ⟨hmark, x, hx, hcarries⟩ := hd
        obtain ⟨fields', rfl, hkeys, hother, hhead⟩ := visitPath_obj h
        obtain ⟨x', m, m', hx', hrun⟩ := hhead x hx
        cases place with
        | nil =>
          cases hlast
          exact ⟨x, x', m, m', hcarries, hrun⟩
        | cons step place =>
          rw [List.getLast?_cons_cons] at hlast
          have hpath := pathOf_last _ hlast
          suffices hrun : visitPath C s .decrypt x (pathOf (step :: place)) m = .ok (x', m') from
            ih hlast hcarries hrun
          cases hp : pathOf (step :: place) with
          | nil =>
            rw [hp] at hpath
            cases hpath
          | cons next rest =>
            rw [hp] at hrun
            exact hrun
      | _ => exact hd.elim

theorem decrypt_run : ∀ {L : List (List String)} {d d' : Json ν} {place : List Step} {k : String}
    {n n' : ℕ}, (∀ K ∈ L, K ≠ []) → pathOf place ∈ L → place.getLast? = some (.key k) →
    Carries env d place →
    (L.foldlM (fun node path => visitPath C s .decrypt node path) d : Draws (Json ν)) n
      = .ok (d', n') →
    ∃ (w w' : Json ν) (m m' : ℕ), encryptedEnvelope? w = some env
      ∧ decryptValue C s w k m = .ok (w', m')
  | K :: L, d, d', place, k, n, n', hne, hmem, hlast, hd, h => by
    rw [List.foldlM_cons] at h
    obtain ⟨d₁, m, hstep, hrest⟩ := of_bind_ok h
    by_cases hK : pathOf place = K
    · exact decrypt_here hlast hd (hK ▸ hstep)
    · exact decrypt_run (fun K hK => hne K (List.mem_cons_of_mem _ hK))
        ((List.mem_cons.1 hmem).resolve_left hK) hlast
        (decrypt_step (hne K List.mem_cons_self) hK hd hstep) hrest

/-- Decryption fails with other data than was authenticated, whatever the key is. -/
def Crypto.Binds (C : Crypto) : Prop :=
  ∀ key key' nonce aad aad' plaintext, aad ≠ aad' →
    C.decrypt key' nonce aad' (C.encrypt key nonce aad plaintext).1
      (C.encrypt key nonce aad plaintext).2 = none

theorem aad_injective {keyId fieldPath fieldPath' : String}
    (h : aad s keyId fieldPath = aad s keyId fieldPath') : fieldPath = fieldPath' := by
  have htext := congrArg Utf8.decode h
  rw [aad, aad, Utf8.decode_encode, Utf8.decode_encode] at htext
  have hlist := congrArg String.toList htext
  simp only [String.toList_append, List.append_assoc] at hlist
  have hrest := List.append_cancel_left (List.append_cancel_left hlist)
  rw [← List.append_assoc, ← List.append_assoc] at hrest
  exact String.toList_injective (List.append_cancel_right (List.append_cancel_right hrest))

theorem not_opened (hbind : C.Binds) {path : List String} {k k' : String} {w w' : Json ν} {n n' : ℕ}
    (hmade : Made C s path env) (hpath : path.getLast? = some k) (hkk : k ≠ k')
    (hw : encryptedEnvelope? w = some env) : decryptValue C s w k' n ≠ .ok (w', n') := by
  intro h
  obtain ⟨m, plaintext, rfl⟩ := hmade
  rw [leafPath_eq hpath] at hw
  rw [decryptValue, hw] at h
  obtain ⟨j, j', hdraw, h⟩ := of_bind_ok h
  cases hkey : s.options.keyProvider.getKey j (s.options.keyProvider.getActiveKey m).keyId with
  | none =>
    simp only [hkey] at h
    cases h
  | some key =>
    have hne : aad s (s.options.keyProvider.getActiveKey m).keyId k
        ≠ aad s (s.options.keyProvider.getActiveKey m).keyId k' := fun he => hkk (aad_injective he)
    simp only [hkey, Base64.decode_encode] at h
    rw [hbind _ _ _ _ _ _ hne] at h
    cases h

end Bound

section Moved

variable {ν : Type} [ReadableNumber ν] {C : Crypto} {s : PayloadEncryptionService}
  {options : PayloadEncryptionOptions} {p q : List String}

/-- What is authenticated for one path is not what is for the other, under whichever key; and an
envelope that an encryption made for the one, in a payload that has it at the other, makes the
decryption throw. -/
structure FieldBound (ν : Type) [ReadableNumber ν] (C : Crypto) (s : PayloadEncryptionService)
    (p q : List String) : Prop where
  aad_ne : ∀ keyId, aad s keyId (leafPath p) ≠ aad s keyId (leafPath q)
  rejects : ∀ (payload moved : JsValue ν) (e v w : Json ν) (env : EncryptedFieldEnvelope)
    (place place' : List Step) (n m : ℕ), encryptPayload C s n payload.json = .ok e →
    pathOf place = p → valueAt payload.json place = some v → isEncryptedEnvelope v = false →
    valueAt e place = some w → encryptedEnvelope? w = some env →
    pathOf place' = q → (∃ k, place'.getLast? = some (.key k)) → Carries env moved.json place' →
    ∃ error, decryptPayload C s m moved.json = .error error

theorem of_transform_ok {op : Operation} {v d : Json ν} {n : ℕ} (hw : v.wellFormed = true)
    (h : (transform C s op v).run' n = .ok d) : ∃ n',
      (s.sensitivePaths.foldlM (fun node path => visitPath C s op node path) v : Draws (Json ν)) n
        = .ok (d, n') := by
  obtain ⟨a, n', hrun, rfl⟩ : ∃ a n', transform C s op v n = .ok (a, n') ∧ a = d := by
    rw [StateT.run'] at h
    cases hrun : transform C s op v n with
    | error t =>
      rw [hrun] at h
      cases h
    | ok r =>
      rw [hrun] at h
      exact ⟨r.1, r.2, rfl, Except.ok.inj h⟩
  obtain ⟨c, m, hclone, hfold⟩ := of_bind_ok hrun
  rw [clone, Json.parse_stringify hw] at hclone
  cases hclone
  exact ⟨n', hfold⟩

/-- An encrypted field cannot be moved between two paths exactly where their last keys differ. -/
theorem field_bound_iff (hnew : PayloadEncryptionService.new options = .ok s) (hbind : C.Binds)
    (hp : p ∈ s.sensitivePaths) (hq : q ∈ s.sensitivePaths) :
    FieldBound ν C s p q ↔ p.getLast? ≠ q.getLast? := by
  have hne := (new_spec hnew).2
  obtain ⟨k, hk⟩ := Option.ne_none_iff_exists'.1 (mt List.getLast?_eq_none_iff.1 (hne p hp))
  obtain ⟨k', hk'⟩ := Option.ne_none_iff_exists'.1 (mt List.getLast?_eq_none_iff.1 (hne q hq))
  rw [hk, hk', Ne, Option.some.injEq]
  constructor
  · rintro h rfl
    refine h.aad_ne "" ?_
    rw [leafPath_eq hk, leafPath_eq hk']
  · intro hkk
    refine ⟨fun keyId he => hkk ?_, ?_⟩
    · rw [leafPath_eq hk, leafPath_eq hk'] at he
      exact aad_injective he
    · rintro payload moved e v w env place place' n m henc rfl hv hplain hw henv rfl ⟨j, hj⟩ hmoved
      cases hdec : decryptPayload C s m moved.json with
      | error error => exact ⟨error, rfl⟩
      | ok d =>
        exfalso
        obtain ⟨n', hfold⟩ := of_transform_ok payload.wellFormed henc
        obtain ⟨m', hfold'⟩ := of_transform_ok moved.wellFormed hdec
        obtain rfl := Option.some.inj ((pathOf_last _ hj).symm.trans hk')
        obtain ⟨u, hu, huenv⟩ | hmade := encrypt_run hne hfold hw henv
        · rw [hv] at hu
          cases hu
          rw [isEncryptedEnvelope, huenv] at hplain
          cases hplain
        · obtain ⟨w₁, w₂, i, i', hw₁, hrun⟩ := decrypt_run hne hq hj hmoved hfold'
          exact not_opened hbind hmade hk hkk hw₁ hrun

theorem tagging_binds : tagging.Binds := fun _ _ _ _ _ _ hne => if_neg fun h => hne h.1

/-- With one key, and another. -/
theorem field_bound_ssn_pin : FieldBound ℕ tagging
    ⟨serviceOf ["user.ssn", "user.pin"], [["user", "ssn"], ["user", "pin"]]⟩
    ["user", "ssn"] ["user", "pin"] := by
  have hnew : PayloadEncryptionService.new (serviceOf ["user.ssn", "user.pin"])
      = .ok ⟨serviceOf ["user.ssn", "user.pin"], [["user", "ssn"], ["user", "pin"]]⟩ := rfl
  exact (field_bound_iff hnew tagging_binds (by simp) (by simp)).2 (by decide)

theorem visitPath_single {op : Operation} {k : String} {rest : List String} {v v' : Json ν}
    {n n' : ℕ} (h : visitHead C s op k rest v n = .ok (v', n')) :
    visitPath C s op (.obj [(k, v)]) (k :: rest) n = .ok (.obj [(k, v')], n') := by
  rw [visitPath, if_pos (by simp)]
  exact map_ok (visitField_self h) Json.obj

theorem visitPath_absent {op : Operation} {fields : List (String × Json ν)} {head : String}
    {rest : List String} (hown : head ∉ fields.map Prod.fst) (hinh : inherits (head :: rest) = false)
    (n : ℕ) : visitPath C s op (.obj fields) (head :: rest) n = .ok (.obj fields, n) := by
  rw [visitPath, if_neg (by simpa using hown), if_neg (by simp [hinh])]
  rfl

/-- What was encrypted of a user is decrypted as the owner's. -/
theorem ssn_is_moved : ¬ ∀ (options : PayloadEncryptionOptions) (s : PayloadEncryptionService)
    (C : Crypto) (p q : List String), PayloadEncryptionService.new options = .ok s → C.Binds →
    p ∈ s.sensitivePaths → q ∈ s.sensitivePaths → p ≠ q → FieldBound ℕ C s p q := by
  intro h
  let s : PayloadEncryptionService :=
    ⟨serviceOf ["user.ssn", "owner.ssn"], [["user", "ssn"], ["owner", "ssn"]]⟩
  have hbound := h (serviceOf ["user.ssn", "owner.ssn"]) s tagging ["user", "ssn"] ["owner", "ssn"]
    rfl tagging_binds (by simp [s]) (by simp [s]) (by decide)
  obtain ⟨d, henc, ⟨env, rfl⟩, hdec⟩ := encryptValue_plain (s := s) (v := (.num 1 : Json ℕ))
    tagging_inverts (serviceOf_keepsKeys _) rfl rfl "ssn" 0
  let payload : JsValue ℕ := ⟨.obj [("user", .obj [("ssn", .num 1)])], by decide⟩
  let moved : JsValue ℕ := ⟨.obj [("owner", .obj [("ssn", env.json)])], by
    have henv := wellFormed_json (ν := ℕ) env
    rw [Json.wellFormed] at henv
    simp [Json.wellFormed, Json.everyObj, Json.everyField, henv]⟩
  have hencrypt : encryptPayload tagging s 0 payload.json
      = .ok (.obj [("user", .obj [("ssn", env.json)])]) := by
    have hfirst : visitPath tagging s .encrypt payload.json ["user", "ssn"] 0
        = .ok (.obj [("user", .obj [("ssn", env.json)])], 1) := by
      refine visitPath_single ?_
      change visitPath tagging s .encrypt (.obj [("ssn", .num 1)]) ["ssn"] 0 = _
      exact visitPath_single henc
    have hrun : (s.sensitivePaths.foldlM (fun node path => visitPath tagging s .encrypt node path)
        payload.json : Draws (Json ℕ)) 0 = .ok (.obj [("user", .obj [("ssn", env.json)])], 1) := by
      rw [List.foldlM_cons, bind_ok hfirst, List.foldlM_cons,
        bind_ok (visitPath_absent (by simp) (by decide) 1)]
      rfl
    exact transform_eq payload.wellFormed 0 hrun
  have hdecrypt : decryptPayload tagging s 0 moved.json
      = .ok (.obj [("owner", .obj [("ssn", .num 1)])]) := by
    have hsecond : visitPath tagging s .decrypt moved.json ["owner", "ssn"] 0
        = .ok (.obj [("owner", .obj [("ssn", .num 1)])], 1) := by
      refine visitPath_single ?_
      change visitPath tagging s .decrypt (.obj [("ssn", env.json)]) ["ssn"] 0 = _
      exact visitPath_single (hdec 0)
    have hrun : (s.sensitivePaths.foldlM (fun node path => visitPath tagging s .decrypt node path)
        moved.json : Draws (Json ℕ)) 0 = .ok (.obj [("owner", .obj [("ssn", .num 1)])], 1) := by
      rw [List.foldlM_cons, bind_ok (visitPath_absent (by simp) (by decide) 0), List.foldlM_cons,
        bind_ok hsecond]
      rfl
    exact transform_eq moved.wellFormed 0 hrun
  obtain ⟨error, herror⟩ := hbound.rejects payload moved _ (.num 1) env.json env
    [.key "user", .key "ssn"] [.key "owner", .key "ssn"] 0 0 hencrypt rfl rfl rfl rfl
    (encryptedEnvelope?_json env) rfl ⟨"ssn", rfl⟩
    ⟨by simp [MARKER], _, rfl, by simp [MARKER], _, rfl, encryptedEnvelope?_json env⟩
  rw [hdecrypt] at herror
  cases herror

end Moved

end Security

end VeriNode
