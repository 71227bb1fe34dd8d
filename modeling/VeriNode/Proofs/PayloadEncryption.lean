import VeriNode.Proofs.Sealing

/-!
# What is decrypted

What is encrypted has every path of the list sealed, or a prefix of it. What is decrypted is the
payload exactly where, of each path that is sealed, the prefixes that are sealed are listed from the
shortest to the longest: an envelope within another is come to in the order in which both were
made, and then the outer one is still closed.
-/

namespace VeriNode

namespace Security

section Leaves

variable {ν : Type} [ReadableNumber ν] {C : Crypto} {s : PayloadEncryptionService}

def Crypto.Inverts (C : Crypto) : Prop :=
  ∀ key nonce aad plaintext, C.decrypt key nonce aad (C.encrypt key nonce aad plaintext).1
    (C.encrypt key nonce aad plaintext).2 = some plaintext

/-- A key that was active is still there, whenever it is asked for. -/
def KeyProvider.KeepsKeys (P : KeyProvider) : Prop :=
  ∀ n m, ∃ key, P.getKey m (P.getActiveKey n).keyId = some key ∧ key.key = (P.getActiveKey n).key

theorem encryptValue_envelope {v : Json ν} (h : (encryptedEnvelope? v).isSome) (k : String)
    (n : ℕ) : encryptValue C s v k n = .ok (v, n) := by
  rw [encryptValue, if_pos (by rw [isEncryptedEnvelope, h])]
  rfl

theorem encryptValue_plain (hinv : C.Inverts) (hkeys : s.options.keyProvider.KeepsKeys)
    {v : Json ν} (hw : v.wellFormed = true) (hv : encryptedEnvelope? v = none) (k : String) (n : ℕ) :
    ∃ d, encryptValue C s v k n = .ok (d, n + 1) ∧ Opened C s d k v := by
  have hplain : ¬ isEncryptedEnvelope v = true := by simp [isEncryptedEnvelope, hv]
  rw [encryptValue, if_neg hplain]
  refine ⟨_, rfl, ⟨_, rfl⟩, fun m => ?_⟩
  obtain ⟨key, hkey, hmaterial⟩ := hkeys n m
  rw [decryptValue, encryptedEnvelope?_json]
  have hdraw : draw m = .ok (m, m + 1) := rfl
  refine (bind_ok hdraw _).trans ?_
  simp only [hkey, hmaterial, Base64.decode_encode, hinv _ _ _ _, Utf8.decode_encode,
    Json.parse_stringify hw]
  rfl

theorem decryptValue_opened {d v : Json ν} {k : String} (h : Opened C s d k v) (n : ℕ) :
    decryptValue C s d k n = .ok (v, n + 1) := h.2 n

theorem visit_encrypt (hinv : C.Inverts) (hkeys : s.options.keyProvider.KeepsKeys)
    (A : List (List String)) (K : List String) :
    Visit (ν := ν) C s .encrypt (sealedBy A) (sealedBy (A ++ [K])) K where
  off _ h := sealedBy_append_ne h
  hidden := sealedBy_append_hidden
  leaf hhid k x v d n hw hx hv hin hout := by
    have hself := sealedBy_append_self hhid
    have hv' : Sealing (Opened C s) (sealedBy (A ++ [K])) x K v :=
      hv.congr fun rest hrest => sealedBy_append_ne (by simpa using hrest)
    by_cases hK : K ∈ sealedBy A
    · obtain ⟨⟨e, rfl⟩, -⟩ := id (hin hK)
      refine ⟨e.json, n, v, encryptValue_envelope ?_ k n, hv', fun _ => hin hK,
        fun h => absurd hself h⟩
      rw [encryptedEnvelope?_json]
      rfl
    · obtain rfl := hout hK
      have hplain : encryptedEnvelope? d = none := by
        cases hd : encryptedEnvelope? d with
        | none => rfl
        | some e =>
          rw [hv.envelope hd] at hx
          cases hx
      obtain ⟨d', hrun, hopen⟩ := encryptValue_plain hinv hkeys (hv.wellFormed hw) hplain k n
      exact ⟨d', n + 1, d, hrun, hv', fun _ => hopen, fun h => absurd hself h⟩

theorem visit_decrypt {L : List (List String)} (hne : ∀ π ∈ L, π ≠ []) (A : List (List String))
    (K : List String) :
    Visit (ν := ν) C s .decrypt (stillSealed L A) (stillSealed L (A ++ [K])) K where
  off _ h := stillSealed_append_ne hne h
  hidden := stillSealed_append_hidden hne
  leaf hhid k x v d n hw hx hv hin hout := by
    have hself := stillSealed_append_self hne hhid
    have hv' : Sealing (Opened C s) (stillSealed L (A ++ [K])) x K v :=
      hv.congr fun rest hrest => stillSealed_append_ne hne (by simpa using hrest)
    by_cases hK : K ∈ stillSealed L A
    · exact ⟨v, n + 1, v, decryptValue_opened (hin hK) n, hv', fun h => absurd h hself,
        fun _ => rfl⟩
    · obtain rfl := hout hK
      have hplain : encryptedEnvelope? d = none := by
        cases hd : encryptedEnvelope? d with
        | none => rfl
        | some e =>
          rw [hv.envelope hd] at hx
          cases hx
      exact ⟨d, n, d, decryptValue_plain hplain k, hv', fun h => absurd h hself, fun _ => rfl⟩

end Leaves

section Lists

variable {ν : Type} {C : Crypto} {s : PayloadEncryptionService}
  {options : PayloadEncryptionOptions} {L : List (List String)} {p : Json ν}

theorem parsePath_ne_nil {path : String} {K : List String} (h : parsePath path = .ok K) :
    K ≠ [] := by
  simp only [parsePath] at h
  split_ifs at h with hnil
  cases h
  exact hnil

theorem ne_nil_of_mapM : ∀ {paths : List String} {L : List (List String)},
    paths.mapM parsePath = .ok L → ∀ K ∈ L, K ≠ []
  | [], _, h, K, hK => by
    cases h
    cases hK
  | path :: paths, L, h, K, hK => by
    rw [List.mapM_cons] at h
    cases hpath : parsePath path with
    | error t =>
      rw [hpath] at h
      cases h
    | ok K' =>
      cases hrest : paths.mapM parsePath with
      | error t =>
        rw [hpath, hrest] at h
        cases h
      | ok L' =>
        rw [hpath, hrest] at h
        cases h
        obtain rfl | hK := List.mem_cons.1 hK
        · exact parsePath_ne_nil hpath
        · exact ne_nil_of_mapM hrest K hK

theorem new_spec (h : PayloadEncryptionService.new options = .ok s) :
    s.options = options ∧ ∀ K ∈ s.sensitivePaths, K ≠ [] := by
  unfold PayloadEncryptionService.new at h
  cases hpaths : options.sensitiveFields.mapM parsePath with
  | error t =>
    rw [hpaths] at h
    cases h
  | ok L =>
    rw [hpaths] at h
    cases h
    exact ⟨rfl, ne_nil_of_mapM hpaths⟩

/-- No path of the list goes on into an envelope that is there by then, with the name of one of its
fields, or to what is inherited: where it comes to an object, the object has the key itself. -/
structure Clean (L : List (List String)) (p : Json ν) : Prop where
  envelope : ∀ A B σ e, L = A ++ (σ ++ [e]) :: B → e ∈ envelopeKeys → σ ∈ A →
    (∀ π ∈ A, π <+: σ → π = σ) → ¬ Present σ p
  inherited : ∀ σ rest, σ ++ rest ∈ L → inherits rest = true →
    (∀ place fields, valueAt p place = some (.obj fields) → pathOf place = σ →
      rest.head?.all (· ∈ fields.map Prod.fst) = true) ∧ (σ ∈ L → ¬ Present σ p)

theorem Clean.fit_encrypt (h : Clean L p) {A B : List (List String)} {K : List String}
    (hL : L = A ++ K :: B) : Fit .encrypt (sealedBy A) p [] K := by
  have hK : K ∈ L := by simp [hL]
  refine ⟨fun place fields rest hw hp hinh => (h.inherited _ _ (hp ▸ hK) hinh).1 place fields hw rfl,
    fun place w rest hw hp hne _ hS hhid => ?_⟩
  rw [List.nil_append] at hS hhid
  have hpresent : Present (pathOf place) p := ⟨place, w, hw, rfl⟩
  have hA := mem_of_sealedBy hS
  refine ⟨?_, ?_⟩
  · rw [Bool.eq_false_iff]
    exact fun hinh => (h.inherited _ _ (hp ▸ hK) hinh).2 (by simp [hL, hA]) hpresent
  · rintro - e he rfl
    refine h.envelope A B _ e (by rw [hL, hp]) he hA (fun π hπ hpre => ?_) hpresent
    obtain ⟨τ, hτ, hτπ⟩ := exists_sealedBy hπ
    have hτσ : τ = pathOf place := by
      by_contra hne
      exact hhid ⟨τ, hτ, hτπ.trans hpre, hne⟩
    exact hpre.eq_of_length_le (hτσ ▸ hτπ.length_le)

theorem Clean.fit_decrypt (h : Clean L p) {A B : List (List String)} {K : List String}
    (hL : L = A ++ K :: B) : Fit .decrypt (stillSealed L A) p [] K := by
  have hK : K ∈ L := by simp [hL]
  refine ⟨fun place fields rest hw hp hinh => (h.inherited _ _ (hp ▸ hK) hinh).1 place fields hw rfl,
    fun place w rest hw hp hne _ hS _ => ⟨?_, fun hop => by cases hop⟩⟩
  rw [Bool.eq_false_iff]
  exact fun hinh => (h.inherited _ _ (hp ▸ hK) hinh).2 (mem_of_sealedBy hS.1) ⟨place, w, hw, rfl⟩

theorem Clean.of_plain (henv : ∀ K ∈ L, ∀ e ∈ envelopeKeys, K.getLast? ≠ some e)
    (hinh : ∀ K ∈ L, ∀ rest ∈ K.tails, inherits rest = false) : Clean L p where
  envelope A B σ e hL he _ _ := absurd (by simp) (henv (σ ++ [e]) (by simp [hL]) e he)
  inherited σ rest hK h := by
    rw [hinh _ hK rest ((List.mem_tails _ _).2 (List.suffix_append _ _))] at h
    cases h

variable [ReadableNumber ν]

mutual

theorem Sealing.refl : ∀ (x : Json ν) (path : List String), Sealing (Opened C s) ∅ x path x
  | .null, _ => rfl
  | .bool _, _ => rfl
  | .num _, _ => rfl
  | .str _, _ => rfl
  | .arr items, path => ⟨items, rfl, SealingItems.refl items path⟩
  | .obj fields, path => ⟨fields, rfl, SealingFields.refl fields path⟩

theorem SealingItems.refl : ∀ (xs : List (Json ν)) (path : List String),
    SealingItems (Opened C s) ∅ xs path xs
  | [], _ => rfl
  | x :: xs, path => ⟨x, xs, rfl, Sealing.refl x path, SealingItems.refl xs path⟩

theorem SealingFields.refl : ∀ (fs : List (String × Json ν)) (path : List String),
    SealingFields (Opened C s) ∅ fs path fs
  | [], _ => rfl
  | f :: fs, path =>
    ⟨f.2, fs, rfl, SealingFields.refl fs path, f.2, Sealing.refl f.2 _, fun h => h.elim, fun _ => rfl⟩

end

theorem run_encrypt (hinv : C.Inverts) (hkeys : s.options.keyProvider.KeepsKeys)
    (hne : ∀ K ∈ L, K ≠ []) (hw : p.wellFormed = true) (hfree : EnvelopeFree p) (h : Clean L p) :
    ∀ {B A : List (List String)} {d : Json ν} (n : ℕ), A ++ B = L →
      Sealing (Opened C s) (sealedBy A) p [] d →
      ∃ d' n', (B.foldlM (fun node path => visitPath C s .encrypt node path) d : Draws (Json ν)) n
        = .ok (d', n') ∧ Sealing (Opened C s) (sealedBy L) p [] d'
  | [], A, d, n, hL, hd => by
    rw [List.append_nil] at hL
    exact ⟨d, n, rfl, hL ▸ hd⟩
  | K :: B, A, d, n, hL, hd => by
    have hpre : ∀ π ∈ sealedBy A, ¬ π <+: [] := fun π hπ hp =>
      hne π (by simp [← hL, mem_of_sealedBy hπ]) (List.prefix_nil.1 hp)
    obtain ⟨d', m, hrun, hd'⟩ := (visit_encrypt hinv hkeys A K).value n rfl
      (hne K (by simp [← hL])) hpre hw hfree (h.fit_encrypt hL.symm) hd
    obtain ⟨d'', n', hruns, hd''⟩ := run_encrypt hinv hkeys hne hw hfree h m (by simpa using hL) hd'
    refine ⟨d'', n', ?_, hd''⟩
    rw [List.foldlM_cons, bind_ok hrun, hruns]

theorem run_decrypt (hne : ∀ K ∈ L, K ≠ []) (hw : p.wellFormed = true) (hfree : EnvelopeFree p)
    (h : Clean L p) : ∀ {B A : List (List String)} {d : Json ν} (n : ℕ), A ++ B = L →
      Sealing (Opened C s) (stillSealed L A) p [] d →
      ∃ d' n', (B.foldlM (fun node path => visitPath C s .decrypt node path) d : Draws (Json ν)) n
        = .ok (d', n') ∧ Sealing (Opened C s) (stillSealed L L) p [] d'
  | [], A, d, n, hL, hd => by
    rw [List.append_nil] at hL
    exact ⟨d, n, rfl, by rwa [hL] at hd⟩
  | K :: B, A, d, n, hL, hd => by
    have hpre : ∀ π ∈ stillSealed L A, ¬ π <+: [] := fun π hπ hp =>
      hne π (mem_of_sealedBy hπ.1) (List.prefix_nil.1 hp)
    obtain ⟨d', m, hrun, hd'⟩ := (visit_decrypt hne A K).value n rfl
      (hne K (by simp [← hL])) hpre hw hfree (h.fit_decrypt hL.symm) hd
    obtain ⟨d'', n', hruns, hd''⟩ := run_decrypt hne hw hfree h m (by simpa using hL) hd'
    refine ⟨d'', n', ?_, hd''⟩
    rw [List.foldlM_cons, bind_ok hrun, hruns]

theorem transform_eq {op : Operation} (hw : p.wellFormed = true) (n : ℕ) {d : Json ν} {n' : ℕ}
    (h : (s.sensitivePaths.foldlM (fun node path => visitPath C s op node path) p : Draws (Json ν)) n
      = .ok (d, n')) : (transform C s op p).run' n = .ok d := by
  have hclone : clone p n = .ok (p, n) := by
    rw [clone, Json.parse_stringify hw]
    rfl
  have hrun : transform C s op p n = .ok (d, n') := (bind_ok hclone _).trans h
  rw [StateT.run', hrun]
  rfl

end Lists

section RoundTrip

variable {ν : Type} [ReadableNumber ν] {C : Crypto} {s : PayloadEncryptionService}
  {options : PayloadEncryptionOptions}

/-- What is encrypted is decrypted as the payload, and every value that a path of the list addresses
in it is an envelope or lies inside one. -/
def RoundTrips (C : Crypto) (s : PayloadEncryptionService) (n m : ℕ) (p : Json ν) : Prop :=
  ∃ e, encryptPayload C s n p = .ok e ∧ decryptPayload C s m e = .ok p
    ∧ ∀ place w, valueAt p place = some w → pathOf place ∈ s.sensitivePaths →
      ∃ outer y, outer <+: place ∧ valueAt e outer = some y ∧ isEncryptedEnvelope y = true

/-- Of each path that is sealed and addresses something, the prefixes that are sealed come in the
list from the shortest to the longest. -/
def InOrder (L : List (List String)) (p : Json ν) : Prop :=
  ∀ K ∈ sealedBy L, Present K p → (sealedPrefixes L K).Sublist L

variable (hnew : PayloadEncryptionService.new options = .ok s) (hinv : C.Inverts)
  (hkeys : options.keyProvider.KeepsKeys) {p : JsValue ν} (hfree : EnvelopeFree p.json)
  (hclean : Clean s.sensitivePaths p.json)
include hnew hinv hkeys hfree hclean

theorem exists_sealing (n m : ℕ) : ∃ e d, encryptPayload C s n p.json = .ok e
    ∧ Sealing (Opened C s) (sealedBy s.sensitivePaths) p.json [] e
    ∧ decryptPayload C s m e = .ok d
    ∧ Sealing (Opened C s) (stillSealed s.sensitivePaths s.sensitivePaths) p.json [] d := by
  obtain ⟨rfl, hne⟩ := new_spec hnew
  have hempty : sealedBy [] = ∅ := Set.eq_empty_iff_forall_notMem.2 fun K hK => by
    cases mem_of_sealedBy hK
  obtain ⟨e, n', hrun, he⟩ := run_encrypt hinv hkeys hne p.wellFormed hfree hclean n rfl
    (hempty ▸ Sealing.refl p.json [])
  obtain ⟨d, m', hrun', hd⟩ := run_decrypt hne p.wellFormed hfree hclean m rfl
    (by rw [stillSealed_nil hne]; exact he)
  exact ⟨e, d, transform_eq p.wellFormed n hrun, he,
    transform_eq (he.wellFormed p.wellFormed) m hrun', hd⟩

theorem round_trips_of_inOrder (h : InOrder s.sensitivePaths p.json) (n m : ℕ) :
    RoundTrips C s n m p.json := by
  obtain ⟨e, d, he, hsealed, hd, hstill⟩ := exists_sealing hnew hinv hkeys hfree hclean n m
  have heq : d = p.json := hstill.eq p.wellFormed fun K _ hK hpresent => hK.2 (h K hK.1 hpresent)
  refine ⟨e, he, heq ▸ hd, fun place w hw hmem => ?_⟩
  obtain ⟨π, hπ, hpre⟩ := exists_sealedBy hmem
  have hne : π ≠ [] := (new_spec hnew).2 π (mem_of_sealedBy hπ)
  exact hsealed.covered hw hne hpre hπ

theorem inOrder_of_round_trips {n m : ℕ} (h : RoundTrips C s n m p.json) :
    InOrder s.sensitivePaths p.json := by
  obtain ⟨e, d, he, -, hd, hstill⟩ := exists_sealing hnew hinv hkeys hfree hclean n m
  obtain ⟨e', he', hd', -⟩ := h
  obtain rfl := Except.ok.inj (he.symm.trans he')
  obtain rfl := Except.ok.inj (hd.symm.trans hd')
  rintro K hK ⟨place, w, hw, rfl⟩
  by_contra hsub
  have hne : pathOf place ≠ [] := (new_spec hnew).2 _ (mem_of_sealedBy hK)
  -- what stands for the value lies inside an envelope, and the payload has none
  obtain ⟨outer, y, -, hy, henv⟩ := hstill.covered hw hne List.prefix_rfl ⟨hK, hsub⟩
  rw [hfree outer y hy] at henv
  cases henv

/-- Field encryption round-trips exactly where the paths that are sealed are listed from the outside
in. -/
theorem payload_round_trips (n m : ℕ) :
    RoundTrips C s n m p.json ↔ InOrder s.sensitivePaths p.json :=
  ⟨inOrder_of_round_trips hnew hinv hkeys hfree hclean,
    fun h => round_trips_of_inOrder hnew hinv hkeys hfree hclean h n m⟩

end RoundTrip

section Runs

/-- A value without the mark of an envelope has none within. -/
theorem envelopeFree_of_unmarked {ν : Type} [ReadableNumber ν] : ∀ {v : Json ν},
    v.everyObj (fun keys => MARKER ∉ keys) = true → EnvelopeFree v := by
  intro v h place
  induction place generalizing v with
  | nil =>
    rintro w hw
    cases hw
    rw [Bool.eq_false_iff]
    intro henv
    obtain ⟨e, he⟩ := Option.isSome_iff_exists.1 henv
    obtain ⟨fields, rfl, hm, -⟩ := encryptedEnvelope?_eq.1 he
    rw [Json.everyObj, Bool.and_eq_true, decide_eq_true_eq] at h
    have hnone : fields.lookup MARKER = none := by
      rw [List.lookup_eq_none_iff]
      intro f hf
      simp only [bne_iff_ne]
      intro he
      exact h.1 (List.mem_map.2 ⟨f, hf, he.symm⟩)
    rw [hnone] at hm
    cases hm
  | cons step place ih =>
    intro w hw
    cases v with
    | arr items =>
      cases step with
      | key k => cases hw
      | index i =>
        obtain ⟨x, hx, hin⟩ := Option.bind_eq_some_iff.1 hw
        exact ih (Json.everyItem_iff.1 h x (List.mem_of_getElem? hx)) w hin
    | obj fields =>
      cases step with
      | index i => cases hw
      | key k =>
        obtain ⟨x, hx, hin⟩ := Option.bind_eq_some_iff.1 hw
        rw [Json.everyObj, Bool.and_eq_true] at h
        obtain ⟨l, r, rfl, -⟩ := List.lookup_eq_some_iff.1 hx
        exact ih (Json.everyField_iff.1 h.2 (k, x) (by simp)) w hin
    | _ => cases step <;> cases hw

/-- A cipher that hides nothing, with what it is made with beside it. -/
def tagging : Crypto where
  encrypt key nonce aad plaintext := (key ++ nonce ++ plaintext, aad)
  decrypt key nonce aad ciphertext tag :=
    if tag = aad ∧ (key ++ nonce) <+: ciphertext then some (ciphertext.drop (key ++ nonce).length)
    else none
  sha256 _ := List.replicate KEY_BYTES 0
  randomBytes n := List.replicate 12 n.toUInt8

theorem tagging_inverts : tagging.Inverts := by
  intro key nonce aad plaintext
  refine (if_pos ⟨rfl, List.prefix_append _ _⟩).trans ?_
  simp only [tagging, List.drop_left]

def serviceOf (sensitiveFields : List String) : PayloadEncryptionOptions where
  keyProvider := StaticKeyProvider ⟨"k1", .text "cGF5bG9hZA=="⟩ []
  sensitiveFields := sensitiveFields
  aadContext := none

theorem serviceOf_keepsKeys (sensitiveFields : List String) :
    (serviceOf sensitiveFields).keyProvider.KeepsKeys := fun _ _ => ⟨_, rfl, rfl⟩

def profile : JsValue ℕ where
  json := .obj [("user", .obj [("ssn", .str "1")]), ("cards", .arr [.obj [("pan", .num 2)]])]
  wellFormed := by decide

theorem profile_free : EnvelopeFree profile.json := envelopeFree_of_unmarked (by decide)

/-- The outer one is listed first. -/
theorem payload_round_trips_outer :
    RoundTrips tagging ⟨serviceOf ["user", "user.ssn", "cards.pan"],
      [["user"], ["user", "ssn"], ["cards", "pan"]]⟩ 0 0 profile.json := by
  have hnew : PayloadEncryptionService.new (serviceOf ["user", "user.ssn", "cards.pan"])
      = .ok ⟨serviceOf ["user", "user.ssn", "cards.pan"],
        [["user"], ["user", "ssn"], ["cards", "pan"]]⟩ := rfl
  refine (payload_round_trips hnew tagging_inverts (serviceOf_keepsKeys _) profile_free
    (Clean.of_plain (by decide) (by decide)) 0 0).2 ?_
  intro K hK _
  have hmem := mem_of_sealedBy hK
  simp only [List.mem_cons, List.not_mem_nil, or_false] at hmem
  obtain rfl | rfl | rfl := hmem
  · decide
  · exact absurd hK (by decide)
  · decide

/-- The inner one is listed first, and stays an envelope. -/
theorem inner_stays_sealed : ¬ ∀ (options : PayloadEncryptionOptions) (s : PayloadEncryptionService)
    (C : Crypto) (p : JsValue ℕ), PayloadEncryptionService.new options = .ok s → C.Inverts →
    options.keyProvider.KeepsKeys → EnvelopeFree p.json → RoundTrips C s 0 0 p.json := by
  intro h
  have hnew : PayloadEncryptionService.new (serviceOf ["user.ssn", "user"])
      = .ok ⟨serviceOf ["user.ssn", "user"], [["user", "ssn"], ["user"]]⟩ := rfl
  have hround := h _ _ tagging profile hnew tagging_inverts (serviceOf_keepsKeys _) profile_free
  have horder := inOrder_of_round_trips hnew tagging_inverts (serviceOf_keepsKeys _) profile_free
    (Clean.of_plain (by decide) (by decide)) hround
  have hpresent : Present ["user", "ssn"] profile.json :=
    ⟨[.key "user", .key "ssn"], .str "1", rfl, rfl⟩
  exact absurd (horder ["user", "ssn"] (by decide) hpresent) (by decide)

end Runs

end Security

end VeriNode
