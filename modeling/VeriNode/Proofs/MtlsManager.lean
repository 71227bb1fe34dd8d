import VeriNode.Security.Mtls

/-!
# The certificate that is served

A load replaces the certificate by that of the files it reads, if that is acceptable and its digest
is another, and changes nothing if not (`load_cases`). So a run serves acceptable certificates only,
has one ever after the first, and catches up with the files at every load of acceptable ones
(`certificate_run`). The digest is of the three files joined: files that differ only in where one
ends and the next begins are taken for unchanged.
-/

namespace VeriNode

namespace Mtls

variable {Ctx : Type} {runtime : Runtime Ctx} {config : MtlsConfig}
variable {m m' : Manager Ctx} {r : Reads} {c c' : LoadedCertificate Ctx}

section Loads

def LoadedCertificate.reads (c : LoadedCertificate Ctx) : Reads :=
  ⟨some c.certPem, some c.keyPem, some c.caPem⟩

def LoadedCertificate.digest (runtime : Runtime Ctx) (c : LoadedCertificate Ctx) : Text :=
  hashInputs runtime c.certPem c.keyPem c.caPem

/-- The certificate is what the runtime makes of its files, and meets the policy. -/
structure Acceptable (runtime : Runtime Ctx) (config : MtlsConfig) (c : LoadedCertificate Ctx) :
    Prop where
  x509 : ∃ cert, runtime.x509 c.certPem = some cert ∧
    c.spiffeIds = extractSpiffeIds cert.subjectAltName ∧ c.fingerprint256 = cert.fingerprint256 ∧
    c.serialNumber = cert.serialNumber ∧ c.validFrom = cert.validFrom ∧ c.validTo = cert.validTo
  context : runtime.createSecureContext c.certPem c.keyPem c.caPem = some c.secureContext
  validity : ∀ first last, c.validFrom = some first → c.validTo = some last →
    ((last - first : ℤ) : ℚ) ≤ config.certMaxValidityMs + 1000
  identity : ∃ id ∈ c.spiffeIds, spiffeScheme ++ config.trustDomain ++ ['/'] <+: id

theorem validateSpiffeIdentity_nil {ids : List Text} {trustDomain : Text} :
    validateSpiffeIdentity ids trustDomain [] = true ↔
      ∃ id ∈ ids, spiffeScheme ++ trustDomain ++ ['/'] <+: id := by
  simp [validateSpiffeIdentity]

theorem validityMs_filter {cert : X509} :
    ((validityMs cert).filter fun ms : ℤ => config.certMaxValidityMs + 1000 < (ms : ℚ)) = none ↔
      ∀ first last, cert.validFrom = some first → cert.validTo = some last →
        ((last - first : ℤ) : ℚ) ≤ config.certMaxValidityMs + 1000 := by
  rcases hf : cert.validFrom with _ | first <;> rcases hl : cert.validTo with _ | last <;>
    simp [validityMs, hf, hl]

theorem accept_eq_ok_iff {certPem keyPem caPem : Bytes} :
    accept runtime config certPem keyPem caPem = .ok c ↔
      c.reads = ⟨some certPem, some keyPem, some caPem⟩ ∧ Acceptable runtime config c := by
  constructor
  · intro h
    unfold accept at h
    split at h
    · cases h
    · rename_i cert hx
      split at h
      · cases h
      · rename_i hv
        simp only at h
        split_ifs at h with hid
        split at h
        · cases h
        · rename_i ctx hctx
          simp only [Except.ok.injEq] at h
          subst h
          refine ⟨rfl, ⟨cert, hx, rfl, rfl, rfl, rfl, rfl⟩, hctx, validityMs_filter.1 hv, ?_⟩
          exact validateSpiffeIdentity_nil.1 (by simpa using hid)
  · rintro ⟨hr, ha⟩
    obtain ⟨cert, hx, hids, hfp, hsn, hfrom, hto⟩ := ha.x509
    obtain ⟨cp, kp, ap, fp, sn, ids, vf, vt, ctx⟩ := c
    simp only [LoadedCertificate.reads, Reads.mk.injEq, Option.some.injEq] at hr
    obtain ⟨rfl, rfl, rfl⟩ := hr
    simp only at hx hids hfp hsn hfrom hto
    subst hids hfp hsn hfrom hto
    have hv := validityMs_filter.2 ha.validity
    have hid := validateSpiffeIdentity_nil.2 ha.identity
    have hctx := ha.context
    simp only at hid hctx
    simp [accept, hx, hv, hid, hctx]

/-- The manager after a load, whether that throws or not. -/
def afterLoad (runtime : Runtime Ctx) (config : MtlsConfig) (r : Reads) (m : Manager Ctx) :
    Manager Ctx :=
  match load runtime config r m with
  | .error _ => m
  | .ok (_, m') => m'

/-- The files are configured, and a certificate can be made of what is read of them. -/
def Offers (runtime : Runtime Ctx) (config : MtlsConfig) (r : Reads) (c : LoadedCertificate Ctx) :
    Prop :=
  config.missing = [] ∧ c.reads = r ∧ Acceptable runtime config c

/-- What a load may come to: nothing changes, or the certificate becomes that of the files. -/
inductive Loaded (runtime : Runtime Ctx) (config : MtlsConfig) (r : Reads) (m : Manager Ctx) :
    Manager Ctx → Prop
  | refused : (∀ c, ¬ Offers runtime config r c) → Loaded runtime config r m m
  | unchanged {c : LoadedCertificate Ctx} : m.loaded = some c →
      (∀ c', Offers runtime config r c' → c'.digest runtime = m.contentHash) →
      Loaded runtime config r m m
  | replaced {c : LoadedCertificate Ctx} : Offers runtime config r c →
      (m.loaded.isSome → c.digest runtime ≠ m.contentHash) →
      Loaded runtime config r m { m with loaded := some c, contentHash := c.digest runtime }

theorem ne_reads_of_none {cert key ca : Option Bytes} (h : cert = none ∨ key = none ∨ ca = none) :
    c.reads ≠ ⟨cert, key, ca⟩ := by
  intro hr
  simp only [LoadedCertificate.reads, Reads.mk.injEq] at hr
  obtain ⟨rfl, rfl, rfl⟩ := hr
  simp at h

theorem digest_eq {certPem keyPem caPem : Bytes}
    (h : c.reads = ⟨some certPem, some keyPem, some caPem⟩) :
    c.digest runtime = hashInputs runtime certPem keyPem caPem := by
  simp only [LoadedCertificate.reads, Reads.mk.injEq, Option.some.injEq] at h
  rw [LoadedCertificate.digest, h.1, h.2.1, h.2.2]

theorem load_cases (runtime : Runtime Ctx) (config : MtlsConfig) (r : Reads) (m : Manager Ctx) :
    Loaded runtime config r m (afterLoad runtime config r m) := by
  unfold afterLoad load
  by_cases hmiss : config.missing = []
  swap
  · rw [if_pos hmiss]
    exact .refused fun c h => hmiss h.1
  rw [if_neg (not_not.2 hmiss)]
  obtain ⟨_ | certPem, key, ca⟩ := r
  · exact .refused fun c h => ne_reads_of_none (.inl rfl) h.2.1
  obtain _ | keyPem := key
  · exact .refused fun c h => ne_reads_of_none (.inr (.inl rfl)) h.2.1
  obtain _ | caPem := ca
  · exact .refused fun c h => ne_reads_of_none (.inr (.inr rfl)) h.2.1
  simp only
  rcases hk : m.loaded.filter fun _ => hashInputs runtime certPem keyPem caPem = m.contentHash
    with _ | c <;> simp only
  · rcases ha : accept runtime config certPem keyPem caPem with failure | c <;>
      simp only [Except.map]
    · refine .refused fun c h => ?_
      rw [accept_eq_ok_iff.2 h.2] at ha
      cases ha
    · have hc := accept_eq_ok_iff.1 ha
      rw [← digest_eq hc.1] at hk ⊢
      refine .replaced ⟨hmiss, hc⟩ fun hsome heq => ?_
      obtain ⟨c₀, hc₀⟩ := Option.isSome_iff_exists.1 hsome
      simp [hc₀, heq] at hk
  · obtain ⟨hl, hh⟩ := Option.filter_eq_some_iff.1 hk
    exact .unchanged hl fun c' h => (digest_eq h.2.1).trans (of_decide_eq_true hh)

end Loads

section Steps

/-- What the step reads of the files, if it loads them. -/
def Action.attempt (config : MtlsConfig) (m : Manager Ctx) : Action → Option Reads
  | .load reads => some reads
  | .reloadIfChanged reads => some reads
  | .startRotationWatch reads _ =>
    if !config.enabled || m.watcher || m.pollTimer then none else some reads
  | .change reads => some reads
  | .serverOptions reads => some reads
  | _ => none

/-- The two are the same but for what is counted and watched. -/
structure SameCertificate (m m' : Manager Ctx) : Prop where
  loaded : m.loaded = m'.loaded
  contentHash : m.contentHash = m'.contentHash

theorem reloadIfChanged_certificate (r : Reads) (m : Manager Ctx) :
    SameCertificate (reloadIfChanged runtime config r m).2 (afterLoad runtime config r m) := by
  unfold reloadIfChanged afterLoad
  rcases load runtime config r m with failure | ⟨c, m'⟩
  · exact ⟨rfl, rfl⟩
  · simp only
    split_ifs <;> exact ⟨rfl, rfl⟩

theorem call_certificate (runtime : Runtime Ctx) (config : MtlsConfig) (m : Manager Ctx)
    (a : Action) :
    SameCertificate (call runtime config m a).2
      (((a.attempt config m).map fun r => afterLoad runtime config r m).getD m) := by
  cases a with
  | load r =>
    simp only [call, Action.attempt, afterLoad, Option.map_some, Option.getD_some]
    rcases load runtime config r m with failure | ⟨c, m'⟩ <;> exact ⟨rfl, rfl⟩
  | reloadIfChanged r => exact reloadIfChanged_certificate r m
  | startRotationWatch r watchThrows =>
    simp only [call, startRotationWatch, Action.attempt]
    by_cases hwatch : (!config.enabled || m.watcher || m.pollTimer) = true
    · simp only [if_pos hwatch]
      exact ⟨rfl, rfl⟩
    · simp only [if_neg hwatch, afterLoad, Option.map_some, Option.getD_some]
      rcases load runtime config r m with failure | ⟨c, m'⟩
      · exact ⟨rfl, rfl⟩
      · cases watchThrows <;> exact ⟨rfl, rfl⟩
  | change r => exact reloadIfChanged_certificate r m
  | serverOptions r =>
    simp only [call, serverOptions, Action.attempt, afterLoad, Option.map_some, Option.getD_some]
    rcases load runtime config r m with failure | ⟨c, m'⟩ <;> exact ⟨rfl, rfl⟩
  | stopRotationWatch => exact ⟨rfl, rfl⟩
  | handshakeFailure => exact ⟨rfl, rfl⟩
  | invalidPeerIdentity => exact ⟨rfl, rfl⟩

end Steps

section Runs

variable {h : List (Taken (Manager Ctx) (Action))}

/-- The hash is the digest of the certificate that is served, which is acceptable. -/
structure Sound (runtime : Runtime Ctx) (config : MtlsConfig) (m : Manager Ctx) : Prop where
  hash : m.contentHash = (m.loaded.map (·.digest runtime)).getD []
  acceptable : ∀ c, m.loaded = some c → Offers runtime config c.reads c

theorem Sound.hash_eq (hs : Sound runtime config m) (hc : m.loaded = some c) :
    m.contentHash = c.digest runtime := by
  rw [hs.hash, hc]
  rfl

theorem Sound.of_same (hs : Sound runtime config m) (h : SameCertificate m' m) :
    Sound runtime config m' where
  hash := by rw [h.contentHash, h.loaded, hs.hash]
  acceptable c hc := hs.acceptable c (h.loaded ▸ hc)

theorem Sound.loads (hs : Sound runtime config m) (hl : Loaded runtime config r m m') :
    Sound runtime config m' := by
  cases hl with
  | refused _ => exact hs
  | unchanged _ _ => exact hs
  | replaced ho _ =>
    refine ⟨rfl, fun c hc => ?_⟩
    obtain rfl := Option.some.inj hc
    exact ⟨ho.1, rfl, ho.2.2⟩

theorem Offers.unique (h : Offers runtime config r c) (h' : Offers runtime config r c') :
    c = c' := by
  obtain ⟨-, rfl, ha⟩ := h
  have hc := accept_eq_ok_iff.2 ⟨rfl, ha⟩
  rw [accept_eq_ok_iff.2 ⟨h'.2.1, h'.2.2⟩] at hc
  exact (Except.ok.inj hc).symm

/-- What a step does to the certificate. -/
structure CertificateStep (runtime : Runtime Ctx) (config : MtlsConfig)
    (t : Taken (Manager Ctx) (Action)) : Prop where
  refused : (∀ r c, t.act.attempt config t.pre = some r → ¬ Offers runtime config r c) →
    t.post.loaded = t.pre.loaded
  offered : ∀ r c, t.act.attempt config t.pre = some r → Offers runtime config r c →
    ∃ c', t.post.loaded = some c' ∧ c'.digest runtime = c.digest runtime ∧
      (c' = c ∨ t.pre.loaded = some c')

theorem CertificateStep.isSome {t : Taken (Manager Ctx) (Action)}
    (hst : CertificateStep runtime config t) (hp : t.pre.loaded.isSome) : t.post.loaded.isSome := by
  by_cases hno : ∀ r c, t.act.attempt config t.pre = some r → ¬ Offers runtime config r c
  · rwa [hst.refused hno]
  · push Not at hno
    obtain ⟨r, c, ha, ho⟩ := hno
    obtain ⟨c', hc', -⟩ := hst.offered r c ha ho
    rw [hc']
    rfl

theorem CertificateStep.attempted {t : Taken (Manager Ctx) (Action)}
    (hst : CertificateStep runtime config t) (hc : t.post.loaded = some c)
    (hne : t.pre.loaded ≠ some c) : t.act.attempt config t.pre = some c.reads := by
  by_cases hno : ∀ r c, t.act.attempt config t.pre = some r → ¬ Offers runtime config r c
  · exact absurd (hst.refused hno ▸ hc) hne
  · push Not at hno
    obtain ⟨r, c₀, ha, ho⟩ := hno
    obtain ⟨c', hc', -, rfl | hpre⟩ := hst.offered r c₀ ha ho
    · obtain rfl := Option.some.inj (hc.symm.trans hc')
      rw [ha, ho.2.1]
    · exact absurd (hpre.trans (hc'.symm.trans hc)) hne

/-- What a run serves. -/
structure Served (runtime : Runtime Ctx) (config : MtlsConfig)
    (h : List (Taken (Manager Ctx) (Action))) (m : Manager Ctx) : Prop where
  acceptable : ∀ c, m.loaded = some c → Acceptable runtime config c ∧
    ∃ t ∈ h, t.act.attempt config t.pre = some c.reads
  kept : ∀ t ∈ h, t.post.loaded.isSome → m.loaded.isSome
  steps : ∀ t ∈ h, CertificateStep runtime config t

section System

theorem Sound.call (hs : Sound runtime config m) (a : Action) :
    Sound runtime config (call runtime config m a).2 := by
  refine Sound.of_same ?_ (call_certificate runtime config m a)
  rcases a.attempt config m with _ | r
  · exact hs
  · exact hs.loads (load_cases runtime config r m)

theorem step_eq {a : Action} (h : (managerSystem runtime config).step m a = some m') :
    m' = (call runtime config m a).2 := by
  simp only [managerSystem] at h
  split_ifs at h
  exact (Option.some.inj h).symm

theorem construct_eq (h : construct config = .ok m) : m =
    { loaded := none, contentHash := [], watcher := false, pollTimer := false
      reloadFailuresTotal := 0, certificateReloadsTotal := 0, handshakeFailuresTotal := 0
      invalidPeerIdentityFailuresTotal := 0 } := by
  unfold construct at h
  split_ifs at h
  exact (Except.ok.inj h).symm

theorem sound_construct (h : construct config = .ok m) : Sound runtime config m := by
  rw [construct_eq h]
  exact ⟨rfl, fun c hc => by cases hc⟩

theorem sound_run (hr : Run (managerSystem runtime config) h m) : Sound runtime config m := by
  refine hr.invariant (fun m hi => sound_construct hi) fun m a m' hs h => ?_
  rw [step_eq h]
  exact hs.call a

theorem certificateStep (hs : Sound runtime config m) {a : Action}
    (h : (managerSystem runtime config).step m a = some m') :
    CertificateStep runtime config ⟨m, a, m'⟩ := by
  have hcert := call_certificate runtime config m a
  rw [← step_eq h] at hcert
  constructor
  · intro hnone
    rw [hcert.loaded]
    rcases ha : a.attempt config m with _ | r
    · rfl
    · have hl := load_cases runtime config r m
      rw [Option.map_some, Option.getD_some]
      generalize afterLoad runtime config r m = m₁ at hl
      cases hl with
      | refused _ => rfl
      | unchanged _ _ => rfl
      | replaced ho _ => exact absurd ho (hnone r _ ha)
  · intro r c ha ho
    have hl := load_cases runtime config r m
    rw [ha, Option.map_some, Option.getD_some] at hcert
    rw [hcert.loaded]
    generalize afterLoad runtime config r m = m₁ at hl
    cases hl with
    | refused hno => exact absurd ho (hno c)
    | unchanged hc hd => exact ⟨_, hc, by rw [← hs.hash_eq hc, hd c ho], .inr hc⟩
    | replaced ho' _ => exact ⟨_, rfl, by rw [ho'.unique ho], .inl (ho'.unique ho)⟩

/-- In a run only acceptable certificates are served, made of files that were read together; there
is one ever after the first; and a load of files that offer one leaves a certificate with their
digest, while any other step leaves it as it was. -/
theorem certificate_run (hr : Run (managerSystem runtime config) h m) :
    Served runtime config h m := by
  induction hr with
  | start hi =>
    refine ⟨fun c hc => ?_, fun t ht => ?_, fun t ht => ?_⟩
    · rw [construct_eq hi] at hc
      cases hc
    · cases ht
    · cases ht
  | @next h m m' a hr hstep ih =>
    have hst := certificateStep (sound_run hr) hstep
    have hs := sound_run (hr.next hstep)
    refine ⟨fun c hc => ⟨(hs.acceptable c hc).2.2, ?_⟩, ?_, List.forall_mem_cons.2 ⟨hst, ih.steps⟩⟩
    · by_cases hpre : m.loaded = some c
      · obtain ⟨t, ht, ha⟩ := (ih.acceptable c hpre).2
        exact ⟨t, List.mem_cons_of_mem _ ht, ha⟩
      · exact ⟨_, List.mem_cons_self, hst.attempted hc hpre⟩
    · refine List.forall_mem_cons.2 ⟨fun hp => hp, fun t ht hp => hst.isSome (ih.kept t ht hp)⟩

end System

end Runs

section Samples

/-- A runtime of one certificate, whose digests are the bytes after a mark. -/
def oneCertificate : Runtime Unit where
  sha256 b := '#' :: b.map fun u => Char.ofNat u.toNat
  x509 _ := some ⟨some "URI:spiffe://cluster.local/api/0".toList, [], [], some 0, some 3600000⟩
  createSecureContext _ _ _ := some ()
  sha256_ne_nil _ := List.cons_ne_nil _ _

def meshConfig : MtlsConfig where
  enabled := true
  certFile := some "cert.pem".toList
  keyFile := some "key.pem".toList
  caFile := some "ca.pem".toList
  trustDomain := "cluster.local".toList
  allowedSpiffeIds := []
  certMaxValidityMs := defaultCertMaxValidityMs
  minSecondsUntilExpiry := 3600
  reloadPollMs := 30000

/-- A load, a handshake that fails, and a reload of which one file cannot be read. -/
theorem certificate_run_reloaded : ∃ (h : List (Taken (Manager Unit) Action)) (m : Manager Unit),
    (m.loaded.isSome && h.length = 3) = true ∧ Served oneCertificate meshConfig h m := by
  obtain ⟨h, m, hr, hl⟩ := Sys.exists_run (S := managerSystem oneCertificate meshConfig) rfl
    [.startRotationWatch ⟨some [1], some [2], some [3]⟩ false, .handshakeFailure,
      .change ⟨some [1], none, some [3]⟩]
    (p := fun x => x.2.loaded.isSome && x.1.length = 3) (by decide +kernel)
  exact ⟨h, m, hl, certificate_run hr⟩

end Samples

end Mtls

end VeriNode
