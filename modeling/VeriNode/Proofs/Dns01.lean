import Mathlib.Data.List.Nodup
import VeriNode.Lib.Calls
import VeriNode.Tls.CertificateReloader

/-!
# Records of challenges

The calls of an authorization touch the records of its own domain only, so authorizations of
different domains leave each other's records alone (`kept_of_nodup`). Two of one domain do not: the
first that is done removes the record of the other. A request keeps its records in every order of
the calls exactly if its names have different identifiers (`challenges_kept_iff`).
-/

namespace VeriNode

namespace Tls

namespace Dns01

variable {T : ChallengeStore} {request : AcmeIssueRequest} {keyAuthorization : String → String}
variable {authzs : List Authz} {authz : Authz} {s s' : State T} {i j : ℕ} {phase next : Phase}
variable {records : T.Records}

section Steps

theorem step_iff : step T request authzs s i = some s' ↔ ∃ authz phase next records,
    authzs[i]? = some authz ∧ s.phases[i]? = some phase ∧
      advance T request authz s.records phase = some (next, records) ∧
      s' = ⟨records, s.phases.set i next⟩ := by
  unfold step
  constructor
  · intro h
    obtain ⟨authz, ha, h⟩ := Option.bind_eq_some_iff.1 h
    obtain ⟨phase, hp, h⟩ := Option.bind_eq_some_iff.1 h
    obtain ⟨⟨next, records⟩, hadv, h⟩ := Option.bind_eq_some_iff.1 h
    exact ⟨authz, phase, next, records, ha, hp, hadv, (Option.some.inj h).symm⟩
  · rintro ⟨authz, phase, next, records, ha, hp, hadv, rfl⟩
    simp only [ha, hp, hadv, Option.bind_eq_bind, Option.bind_some]
    rfl

theorem txt_other {domain : String} (hadv : advance T request authz records phase =
    some (next, s.records)) (hd : domain ≠ domainOf request authz) :
    T.txt s.records domain = T.txt records domain := by
  cases phase <;> simp only [advance, Option.some.injEq, Prod.mk.injEq, reduceCtorEq] at hadv
  all_goals obtain ⟨-, hrec⟩ := hadv
  all_goals rw [← hrec]
  · exact T.set_other _ _ _ _ hd
  · exact T.remove_other _ _ _ hd

/-- The phases in which the record of an authorization is to be there. -/
def Phase.isSet : Phase → Bool
  | .set => true
  | .created => true
  | _ => false

theorem mem_of_isSet (hadv : advance T request authz records phase = some (next, s.records))
    (hset : next.isSet = true) (hmem : phase.isSet = true →
      authz.keyAuthorization ∈ T.txt records (domainOf request authz)) :
    authz.keyAuthorization ∈ T.txt s.records (domainOf request authz) := by
  cases phase <;> simp only [advance, Option.some.injEq, Prod.mk.injEq, reduceCtorEq] at hadv
  all_goals obtain ⟨hnext, hrec⟩ := hadv
  all_goals rw [← hrec]
  all_goals subst hnext
  · exact absurd hset (by decide)
  · exact T.mem_set _ _ _
  · exact hmem rfl
  · exact absurd hset (by decide)
  · exact absurd hset (by decide)
  · exact absurd hset (by decide)

end Steps

section Domains

theorem domains_eq : (authorizations keyAuthorization request).map (domainOf request) =
    (requestedNames request).map identifier := by
  unfold authorizations
  rw [List.map_map]
  rfl

theorem domains_ne (hnodup : ((requestedNames request).map identifier).Nodup) {authz' : Authz}
    (hi : (authorizations keyAuthorization request)[i]? = some authz)
    (hj : (authorizations keyAuthorization request)[j]? = some authz') (hij : i ≠ j) :
    domainOf request authz ≠ domainOf request authz' := by
  intro heq
  rw [← domains_eq] at hnodup
  refine hij ((List.getElem?_inj ?_ hnodup).1 ?_)
  · rw [List.length_map]
    exact Calls.lt_length hi
  · rw [List.getElem?_map, List.getElem?_map, hi, hj, Option.map_some, Option.map_some, heq]

end Domains

section Kept

/-- Every record that has been set and not removed is there. -/
def Kept (request : AcmeIssueRequest) (authzs : List Authz) (s : State T) : Prop :=
  ∀ (i : ℕ) (authz : Authz), authzs[i]? = some authz → s.phases[i]? = some .created →
    authz.keyAuthorization ∈ T.txt s.records (domainOf request authz)

/-- The records of the calls that are being set or removed are known too. -/
def Inv (request : AcmeIssueRequest) (authzs : List Authz) (s : State T) : Prop :=
  ∀ (i : ℕ) (authz : Authz) (phase : Phase), authzs[i]? = some authz →
    s.phases[i]? = some phase → phase.isSet = true →
      authz.keyAuthorization ∈ T.txt s.records (domainOf request authz)

theorem inv_step (hnodup : ((requestedNames request).map identifier).Nodup)
    (hi : Inv request (authorizations keyAuthorization request) s)
    (hs : step T request (authorizations keyAuthorization request) s i = some s') :
    Inv request (authorizations keyAuthorization request) s' := by
  obtain ⟨authz, phase, next, records, ha, hp, hadv, rfl⟩ := step_iff.1 hs
  intro j authz' phase' ha' hp' hset
  by_cases hji : j = i
  · subst hji
    obtain rfl := Option.some.inj (ha.symm.trans ha')
    obtain ⟨-, rfl⟩ := (Calls.of_get_set hp').resolve_right fun h => h.1 rfl
    exact mem_of_isSet (s := ⟨records, _⟩) hadv hset fun hset' => hi j authz phase ha hp hset'
  · obtain ⟨-, hpj⟩ := (Calls.of_get_set hp').resolve_left fun h => hji h.1
    rw [txt_other (s := ⟨records, _⟩) hadv (domains_ne hnodup ha' ha hji)]
    exact hi j authz' phase' ha' hpj hset

theorem kept_of_nodup (hnodup : ((requestedNames request).map identifier).Nodup)
    {h : List (Taken (State T) ℕ)} (hr : Run (system T request keyAuthorization) h s) :
    Kept request (authorizations keyAuthorization request) s := by
  have hinv : Inv request (authorizations keyAuthorization request) s := by
    refine hr.invariant (P := Inv request (authorizations keyAuthorization request)) ?_
      fun s a s' hi hs => inv_step hnodup hi hs
    intro s hinit i authz phase ha hp hset
    have hp := List.mem_of_getElem? hp
    rw [hinit] at hp
    obtain ⟨-, -, rfl⟩ := List.mem_map.1 hp
    exact absurd hset (by decide)
  exact fun i authz ha hp => hinv i authz .created ha hp rfl

end Kept

section Clobbered

/-- A run brings two of the authorizations to the phases, and the records to where they are. -/
def Brings (T : ChallengeStore) (request : AcmeIssueRequest) (keyAuthorization : String → String)
    (i j : ℕ) (p q : Phase) (records : T.Records) : Prop :=
  ∃ h s, Run (system T request keyAuthorization) h s ∧ s.phases[i]? = some p ∧
    s.phases[j]? = some q ∧ s.records = records

variable {p q p' : Phase} {records' : T.Records}

theorem Brings.symm (hb : Brings T request keyAuthorization i j p q records) :
    Brings T request keyAuthorization j i q p records := by
  obtain ⟨h, s, hr, hi, hj, hrec⟩ := hb
  exact ⟨h, s, hr, hj, hi, hrec⟩

theorem Brings.advance (hb : Brings T request keyAuthorization i j p q records) (hij : i ≠ j)
    (ha : (authorizations keyAuthorization request)[i]? = some authz)
    (hadv : Dns01.advance T request authz records p = some (p', records')) :
    Brings T request keyAuthorization i j p' q records' := by
  obtain ⟨h, s, hr, hi, hj, rfl⟩ := hb
  refine ⟨_, ⟨records', s.phases.set i p'⟩,
    hr.next (a := i) (step_iff.2 ⟨authz, p, p', records', ha, hi, hadv, rfl⟩), ?_, ?_, rfl⟩
  · exact Calls.get_set_self hi
  · exact (Calls.get_set_of_ne hij.symm).trans hj

theorem brings_waiting (records : T.Records) {authz' : Authz}
    (ha : (authorizations keyAuthorization request)[i]? = some authz)
    (ha' : (authorizations keyAuthorization request)[j]? = some authz') :
    Brings T request keyAuthorization i j .waiting .waiting records := by
  refine ⟨[], ⟨records, (authorizations keyAuthorization request).map fun _ => .waiting⟩,
    .start rfl, ?_, ?_, rfl⟩
  · rw [List.getElem?_map, ha, Option.map_some]
  · rw [List.getElem?_map, ha', Option.map_some]

theorem brings_removed (records : T.Records) {authz' : Authz} (hij : i ≠ j)
    (ha : (authorizations keyAuthorization request)[i]? = some authz)
    (ha' : (authorizations keyAuthorization request)[j]? = some authz') :
    ∃ records', Brings T request keyAuthorization i j .created .removed
      (T.removeTxtRecord (domainOf request authz') records') := by
  have hcreated := (((brings_waiting records ha ha').advance hij ha rfl).advance hij ha rfl).advance
    hij ha rfl
  have hremoved := ((((hcreated.symm.advance hij.symm ha' rfl).advance hij.symm ha' rfl).advance
    hij.symm ha' rfl).advance hij.symm ha' rfl).advance hij.symm ha' rfl
  exact ⟨_, hremoved.symm⟩

theorem nodup_of_kept (records : T.Records)
    (hkept : ∀ h (s : State T), Run (system T request keyAuthorization) h s →
      Kept request (authorizations keyAuthorization request) s) :
    ((requestedNames request).map identifier).Nodup := by
  rw [← domains_eq, List.nodup_iff_getElem?_ne_getElem?]
  intro i j hij hj heq
  rw [List.length_map] at hj
  have hi := Nat.lt_trans hij hj
  have ha := List.getElem?_eq_getElem hi
  have ha' := List.getElem?_eq_getElem hj
  rw [List.getElem?_map, List.getElem?_map, ha, ha', Option.map_some, Option.map_some,
    Option.some.injEq] at heq
  obtain ⟨records', h, s, hr, hpi, -, hrec⟩ := brings_removed records (Nat.ne_of_lt hij) ha ha'
  have hmem := hkept h s hr i _ ha hpi
  rw [hrec, heq, T.remove_self] at hmem
  exact absurd hmem List.not_mem_nil

/-- The records of the challenges are kept in every order of the calls exactly if no two of the
names have one identifier. -/
theorem challenges_kept_iff (T : ChallengeStore) (records : T.Records)
    (keyAuthorization : String → String) (request : AcmeIssueRequest) :
    (∀ h (s : State T), Run (system T request keyAuthorization) h s →
      Kept request (authorizations keyAuthorization request) s) ↔
      ((requestedNames request).map identifier).Nodup :=
  ⟨nodup_of_kept records, fun hnodup _ _ hr => kept_of_nodup hnodup hr⟩

def oneRecord : ChallengeStore where
  Records := String → List String
  txt records domain := records domain
  setTxtRecord domain value records := fun other =>
    if other = domain then [value] else records other
  removeTxtRecord domain records := fun other => if other = domain then [] else records other
  mem_set domain value records := by simp
  set_other domain value records other hne := if_neg hne
  remove_self domain records := if_pos rfl
  remove_other domain records other hne := if_neg hne

/-- A domain and its wildcard. -/
def withWildcard : AcmeIssueRequest := ⟨["example.com", "*.example.com"], "ops@example.com"⟩

/-- The challenge of the domain waits to be validated when that of the wildcard is over. -/
theorem wildcard_clobbers : ∃ h s, Run (system oneRecord withWildcard id) h s ∧
    ¬ Kept withWildcard (authorizations id withWildcard) s := by
  obtain ⟨h, s, hr, hp⟩ := Sys.exists_run (S := system oneRecord withWildcard id)
    (s := ⟨fun _ => [], [.waiting, .waiting]⟩)
    (by show ([.waiting, .waiting] : List Phase) = _; decide +kernel) [0, 0, 0, 1, 1, 1, 1, 1]
    (p := fun x => x.2.phases[0]? = some .created && (x.2.records "example.com").isEmpty)
    (by decide +kernel)
  rw [Bool.and_eq_true, decide_eq_true_iff, List.isEmpty_iff] at hp
  have ha : (authorizations id withWildcard)[0]? = some ⟨some "example.com", "example.com"⟩ := by
    decide +kernel
  refine ⟨h, s, hr, fun hkept => ?_⟩
  have hmem : "example.com" ∈ s.records "example.com" := hkept 0 _ ha hp.1
  rw [hp.2] at hmem
  exact absurd hmem List.not_mem_nil

end Clobbered

end Dns01

end Tls

end VeriNode
