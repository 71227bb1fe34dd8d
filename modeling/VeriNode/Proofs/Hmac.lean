import VeriNode.Audit.Hmac

/-!
# What a digest binds

The payload is read from both ends: the id, the source and the time have no `|`, and a JSON text that
a `|` follows is read in one way. So another entry has the same payload only where the bars can be
told apart differently, and `Unambiguous` says where they cannot (`payload_binds_iff`).
-/

namespace VeriNode

namespace AuditLog

variable {ν : Type*}

/-- The entries agree on what was signed. -/
structure SameFields (e e' : AuditEntry ν) : Prop where
  entryId : e.entryId = e'.entryId
  configPath : e.configPath = e'.configPath
  previousValue : e.previousValue = e'.previousValue
  newValue : e.newValue = e'.newValue
  actor : e.actor = e'.actor
  sourceIp : e.sourceIp = e'.sourceIp
  changedAt : e.changedAt = e'.changedAt
  changeSource : e.changeSource = e'.changeSource

/-- The entry has two JSON values. -/
def HasValues (e : AuditEntry ν) : Prop :=
  e.previousValue.isSome ∧ e.newValue.isSome

section Bars

variable {a a' l l' : List Char} {c : Char}

theorem cut_first : ∀ {a a' : List Char}, c ∉ a → c ∉ a' → a ++ c :: l = a' ++ c :: l' →
    a = a' ∧ l = l'
  | [], [], _, _, h => ⟨rfl, (List.cons.inj h).2⟩
  | [], d :: _, _, h', h => absurd (List.cons.inj h).1 (List.ne_of_not_mem_cons h')
  | d :: _, [], h', _, h => absurd (List.cons.inj h).1.symm (List.ne_of_not_mem_cons h')
  | d :: a, d' :: a', hc, hc', h => by
    obtain ⟨rfl, ht⟩ := List.cons.inj h
    obtain ⟨rfl, hl⟩ := cut_first (fun hm => hc (List.mem_cons_of_mem _ hm))
      (fun hm => hc' (List.mem_cons_of_mem _ hm)) ht
    exact ⟨rfl, hl⟩

theorem cut_last (hl : c ∉ l) (hl' : c ∉ l') (h : a ++ c :: l = a' ++ c :: l') :
    a = a' ∧ l = l' := by
  have hr := congrArg List.reverse h
  simp only [List.reverse_append, List.reverse_cons, List.append_assoc, List.singleton_append] at hr
  obtain ⟨h1, h2⟩ := cut_first (fun hm => hl (List.mem_reverse.1 hm))
    (fun hm => hl' (List.mem_reverse.1 hm)) hr
  exact ⟨List.reverse_injective h2, List.reverse_injective h1⟩

theorem bar_not_mem_uuid (u : Uuid) : '|' ∉ u.text.toList := by
  intro hm
  have hv := u.valid
  unfold isUuid at hv
  rw [Bool.and_eq_true] at hv
  exact absurd (List.all_eq_true.1 hv.2 _ hm) (by decide)

theorem bar_not_mem_source (s : ChangeSource) : '|' ∉ s.text.toList := by
  cases s <;> decide

theorem bar_not_mem_date (d : JsDate) : '|' ∉ d.toISOString.toList :=
  JsDate.not_mem_toISOString (by decide) (by decide) d

theorem source_text_injective {s s' : ChangeSource} (h : s.text.toList = s'.text.toList) :
    s = s' := by
  cases s <;> cases s' <;> first | rfl | exact absurd h (by decide)

end Bars

variable [JsonNumber ν]

/-- The path and the values, with the bars that follow them. -/
def change (e : AuditEntry ν) : List Char :=
  e.configPath.toList ++ '|' :: ((orNull e.previousValue).json.chars
    ++ '|' :: ((orNull e.newValue).json.chars ++ ['|']))

/-- What stands between the id and the time. -/
def middle (e : AuditEntry ν) : List Char :=
  change e ++ (e.actor.toList ++ '|' :: (e.sourceIp.getD "").toList)

theorem toList_payload (e : AuditEntry ν) : (payload e).toList = e.entryId.text.toList
    ++ '|' :: (middle e ++ '|' :: (e.changedAt.toISOString.toList
    ++ '|' :: e.changeSource.text.toList)) := by
  simp [payload, middle, change, Json.stringify]

theorem payload_eq_iff {e e' : AuditEntry ν} : payload e' = payload e ↔ e'.entryId = e.entryId
    ∧ middle e' = middle e ∧ e'.changedAt = e.changedAt ∧ e'.changeSource = e.changeSource := by
  rw [← String.toList_inj, toList_payload, toList_payload]
  constructor
  · intro h
    obtain ⟨hid, h⟩ := cut_first (bar_not_mem_uuid _) (bar_not_mem_uuid _) h
    have hids : e'.entryId = e.entryId := by
      rcases hu : e'.entryId with ⟨t, ht⟩
      rcases hu' : e.entryId with ⟨t', ht'⟩
      rw [hu, hu'] at hid
      have htext : t = t' := String.toList_injective hid
      subst htext
      rfl
    rw [← List.cons_append, ← List.append_assoc, ← List.cons_append, ← List.append_assoc] at h
    obtain ⟨h, hsource⟩ := cut_last (bar_not_mem_source _) (bar_not_mem_source _) h
    obtain ⟨hmiddle, hdate⟩ := cut_last (bar_not_mem_date _) (bar_not_mem_date _) h
    exact ⟨hids, hmiddle, JsDate.toISOString_injective (String.toList_injective hdate),
      source_text_injective hsource⟩
  · rintro ⟨hid, hmiddle, hdate, hsource⟩
    rw [hid, hmiddle, hdate, hsource]

theorem values_append {p n p' n' : Json ν} {r r' : List Char}
    (h : p.chars ++ '|' :: (n.chars ++ '|' :: r) = p'.chars ++ '|' :: (n'.chars ++ '|' :: r')) :
    p = p' ∧ n = n' ∧ r = r' := by
  have hbar : ∀ l : List Char, Json.Stops ('|' :: l) := fun l => Json.stops_cons (by decide)
  obtain ⟨rfl, hn⟩ := Json.chars_append p p' (hbar _) (hbar _) h
  obtain ⟨rfl, hr⟩ := Json.chars_append n n' (hbar _) (hbar _) (List.cons.inj hn).2
  exact ⟨rfl, rfl, (List.cons.inj hr).2⟩

/-- The entry has an address, there is no bar in the address or the actor, and nowhere else in the
path and the values do two JSON texts stand between bars. -/
structure Unambiguous (e : AuditEntry ν) : Prop where
  address : ∃ ip, e.sourceIp = some ip ∧ ip ≠ "" ∧ '|' ∉ ip.toList
  actor : '|' ∉ e.actor.toList
  values : ∀ (a : List Char) (p n : JsValue ν) (rest : List Char),
    change e = a ++ '|' :: (p.json.chars ++ '|' :: (n.json.chars ++ '|' :: rest)) →
    a = e.configPath.toList

theorem Unambiguous.of_no_bar {e : AuditEntry ν}
    (address : ∃ ip, e.sourceIp = some ip ∧ ip ≠ "" ∧ '|' ∉ ip.toList)
    (actor : '|' ∉ e.actor.toList) (path : '|' ∉ e.configPath.toList)
    (previous : '|' ∉ (orNull e.previousValue).json.chars)
    (new : '|' ∉ (orNull e.newValue).json.chars) : Unambiguous e := by
  refine ⟨address, actor, ?_⟩
  intro a p n rest hchange
  have hcount := congrArg (List.count '|') hchange
  simp only [change, List.count_append, List.count_cons_self, List.count_nil,
    List.count_eq_zero.2 path, List.count_eq_zero.2 previous, List.count_eq_zero.2 new] at hcount
  have ha : '|' ∉ a := List.count_eq_zero.1 (by omega)
  exact (cut_first path ha hchange).1.symm

/-- No other entry has the payload. -/
def Binds (e : AuditEntry ν) : Prop :=
  ∀ e' : AuditEntry ν, HasValues e' → payload e' = payload e → SameFields e' e

theorem change_ends (e : AuditEntry ν) : ∃ y, change e = y ++ ['|'] :=
  ⟨e.configPath.toList ++ '|' :: ((orNull e.previousValue).json.chars
    ++ '|' :: (orNull e.newValue).json.chars), by simp [change]⟩

/-- Where neither the actor nor the address has a bar, no entry with the same middle has its change
end later. -/
theorem change_prefix {e e' : AuditEntry ν} (hactor : '|' ∉ e.actor.toList)
    (hip : '|' ∉ (e.sourceIp.getD "").toList) (h : middle e' = middle e) :
    ∃ rest, change e = change e' ++ rest := by
  rcases List.append_eq_append_iff.1 h with ⟨s, hs, -⟩ | ⟨s, hs, hrest⟩
  · exact ⟨s, hs⟩
  · -- the bars after the change are too few for the other's to reach into them
    have hcount := congrArg (List.count '|') hrest
    simp only [List.count_append, List.count_cons_self, List.count_eq_zero.2 hactor,
      List.count_eq_zero.2 hip] at hcount
    have hbar : '|' ∉ s := List.count_eq_zero.1 (by omega)
    rcases List.eq_nil_or_concat s with rfl | ⟨t, c, rfl⟩
    · exact ⟨[], by rw [hs, List.append_nil, List.append_nil]⟩
    · obtain ⟨y, hy⟩ := change_ends e'
      rw [hy, List.concat_eq_append, ← List.append_assoc, List.append_singleton_inj] at hs
      rw [← hs.2] at hbar
      simp at hbar

omit [JsonNumber ν] in
theorem orNull_injective {v v' : Option (JsValue ν)} (hv : v.isSome) (hv' : v'.isSome)
    (h : (orNull v).json = (orNull v').json) : v = v' := by
  obtain ⟨⟨j, hj⟩, rfl⟩ := Option.isSome_iff_exists.1 hv
  obtain ⟨⟨j', hj'⟩, rfl⟩ := Option.isSome_iff_exists.1 hv'
  obtain rfl : j = j' := h
  rfl

theorem Unambiguous.binds {e : AuditEntry ν} (hu : Unambiguous e) (he : HasValues e) : Binds e := by
  intro e' he' hp
  obtain ⟨hid, hmiddle, hdate, hsource⟩ := payload_eq_iff.1 hp
  obtain ⟨ip, hip, hne, hbar⟩ := hu.address
  have hget : e.sourceIp.getD "" = ip := by rw [hip]; rfl
  obtain ⟨rest, hrest⟩ := change_prefix hu.actor (hget ▸ hbar) hmiddle
  have hpath : e'.configPath.toList = e.configPath.toList := by
    refine hu.values _ (orNull e'.previousValue) (orNull e'.newValue) rest ?_
    rw [hrest, change]
    simp only [List.append_assoc, List.cons_append, List.nil_append]
  rw [middle, middle, change, change, hpath] at hmiddle
  simp only [List.append_assoc, List.cons_append, List.nil_append, List.append_cancel_left_eq,
    List.cons.injEq, true_and] at hmiddle
  obtain ⟨hprev, hnew, hlast⟩ := values_append hmiddle
  rw [hget] at hlast
  obtain ⟨hactor, -, hip'⟩ := (List.append_cons_inj_of_notMem hu.actor hbar).1 hlast.symm
  have haddress : e'.sourceIp.getD "" = ip := String.toList_injective hip'.symm
  refine ⟨hid, String.toList_injective hpath, orNull_injective he'.1 he.1 hprev,
    orNull_injective he'.2 he.2 hnew, String.toList_injective hactor.symm, ?_, hdate, hsource⟩
  rw [hip]
  rcases hsome : e'.sourceIp with _ | ip'
  · rw [hsome] at haddress
    exact absurd haddress.symm hne
  · rw [hsome] at haddress
    exact congrArg some haddress

theorem Binds.actor_of_middle {e : AuditEntry ν} (hb : Binds e) (he : HasValues e)
    (actor : String) (sourceIp : Option String) (h : actor.toList ++ '|' :: (sourceIp.getD "").toList
      = e.actor.toList ++ '|' :: (e.sourceIp.getD "").toList) :
    actor = e.actor ∧ sourceIp = e.sourceIp := by
  have hmiddle : middle { e with actor, sourceIp } = middle e := by
    simp only [middle, change, h]
  have hs := hb { e with actor, sourceIp } he (payload_eq_iff.2 ⟨rfl, hmiddle, rfl, rfl⟩)
  exact ⟨hs.actor, hs.sourceIp⟩

theorem Binds.unambiguous {e : AuditEntry ν} (hb : Binds e) (he : HasValues e) :
    Unambiguous e := by
  refine ⟨?_, ?_, ?_⟩
  · rcases hip : e.sourceIp with _ | ip
    · have hs := hb.actor_of_middle he e.actor (some "") (by rw [hip]; rfl)
      rw [hip] at hs
      cases hs.2
    · refine ⟨ip, rfl, ?_, ?_⟩
      · rintro rfl
        have hs := hb.actor_of_middle he e.actor none (by rw [hip]; rfl)
        rw [hip] at hs
        cases hs.2
      · intro hbar
        obtain ⟨x, y, hxy⟩ := List.append_of_mem hbar
        have hs := hb.actor_of_middle he (String.ofList (e.actor.toList ++ '|' :: x))
          (some (String.ofList y)) (by simp [hip, hxy])
        have hlen := congrArg (fun s : String => s.toList.length) hs.1
        simp at hlen
  · intro hbar
    obtain ⟨x, y, hxy⟩ := List.append_of_mem hbar
    have hs := hb.actor_of_middle he (String.ofList x)
      (some (String.ofList (y ++ '|' :: (e.sourceIp.getD "").toList))) (by simp [hxy])
    have hlen := congrArg (fun s : String => s.toList.length) hs.1
    simp [hxy] at hlen
  · intro a p n rest hchange
    let e' : AuditEntry ν :=
      { e with
        configPath := String.ofList a
        previousValue := some p
        newValue := some n
        actor := String.ofList (rest ++ e.actor.toList) }
    have hp : payload e' = payload e := by
      refine payload_eq_iff.2 ⟨rfl, ?_, rfl, rfl⟩
      rw [middle, middle, hchange]
      simp [change, e', orNull]
    have hs := hb e' ⟨rfl, rfl⟩ hp
    rw [← hs.configPath]
    exact (String.toList_ofList).symm

section Verify

variable {hmac : String → String} {log : List (AuditRow ν)} {row : AuditRow ν}

theorem verifyIntegrity_row (hlog : (log.map (·.entryId)).Nodup) (hrow : row ∈ log) :
    verifyIntegrity hmac log row.entryId
      = .ok (computeHmac hmac row.toAuditEntry = row.hmacDigest) := by
  have hmem : row ∈ log.filter fun r => r.entryId = row.entryId := by
    simp [List.mem_filter, hrow]
  unfold verifyIntegrity
  rcases hf : log.filter (fun r => r.entryId = row.entryId) with _ | ⟨r, rest⟩
  · rw [hf] at hmem
    cases hmem
  · have hr : r ∈ log.filter fun r => r.entryId = row.entryId := by
      rw [hf]
      exact List.mem_cons_self
    rw [List.mem_filter, decide_eq_true_eq] at hr
    obtain rfl : r = row := List.inj_on_of_nodup_map hlog hr.1 hrow hr.2
    rw [hf]

theorem mem_invalidEntryIds {start finish : JsDate} {id : Uuid} :
    id ∈ (verifyChain hmac log start finish).invalidEntryIds ↔ ∃ r ∈ log,
      inPeriod start finish r = true ∧ computeHmac hmac r.toAuditEntry ≠ r.hmacDigest
        ∧ r.entryId = id := by
  simp only [verifyChain, inOrder, List.mem_map, List.mem_filter, List.mem_insertionSort,
    decide_eq_true_eq, and_assoc]

end Verify

/-- Both verifications reject a row that was written as the entry and differs in a field. -/
def Rejects (e : AuditEntry ν) : Prop :=
  ∀ hmac : String → String, Function.Injective hmac → ∀ log : List (AuditRow ν),
    (log.map (·.entryId)).Nodup → ∀ row ∈ log, HasValues row.toAuditEntry →
    row.hmacDigest = computeHmac hmac e → ¬ SameFields row.toAuditEntry e →
    verifyIntegrity hmac log row.entryId = .ok false
      ∧ ∀ start finish, inPeriod start finish row = true →
        row.entryId ∈ (verifyChain hmac log start finish).invalidEntryIds

theorem Binds.rejects {e : AuditEntry ν} (hb : Binds e) : Rejects e := by
  intro hmac hinj log hlog row hrow hvalues hdigest hdiffers
  have hne : computeHmac hmac row.toAuditEntry ≠ row.hmacDigest := by
    rw [hdigest]
    exact fun h => hdiffers (hb _ hvalues (hinj h))
  refine ⟨?_, ?_⟩
  · rw [verifyIntegrity_row hlog hrow, decide_eq_false hne]
  · intro start finish hperiod
    exact mem_invalidEntryIds.2 ⟨row, hrow, hperiod, hne, rfl⟩

/-- The digest binds every field of exactly the entries that can be read in one way. -/
theorem payload_binds_iff (e : AuditEntry ν) (he : HasValues e) :
    Binds e ∧ Rejects e ↔ Unambiguous e := by
  constructor
  · rintro ⟨hb, -⟩
    exact hb.unambiguous he
  · intro hu
    exact ⟨hu.binds he, (hu.binds he).rejects⟩

/-- A change of a number, from one to the next. -/
def counted (configPath : String) (n : ℕ) (actor : String) : AuditEntry ℕ :=
  { configPath, actor
    previousValue := some ⟨.num n, rfl⟩
    newValue := some ⟨.num (n + 1), rfl⟩
    sourceIp := some "10.0.0.1"
    changedAt := ⟨1704067200000, by decide⟩
    changeSource := .hotUpdate
    entryId := ⟨"0b0e7cd8-6c2d-4f3a-9d51-2f6a1c8f0a11", by decide⟩
    hmacDigest := "" }

theorem payload_binds_counted :
    Binds (counted "db" 1 "ops") ∧ Rejects (counted "db" 1 "ops") :=
  (payload_binds_iff (counted "db" 1 "ops") ⟨rfl, rfl⟩).2
    (.of_no_bar ⟨"10.0.0.1", rfl, by decide, by decide⟩ (by decide) (by decide) (by decide)
      (by decide))

/-- A row can be made to say that another path was changed, by another actor. -/
theorem forged_row_verifies :
    payload (counted "db|1" 2 "ops") = payload (counted "db" 1 "3|ops")
      ∧ ¬ SameFields (counted "db|1" 2 "ops") (counted "db" 1 "3|ops")
      ∧ ∀ hmac : String → String,
        let row : AuditRow ℕ :=
          { counted "db|1" 2 "ops" with
            hmacDigest := computeHmac hmac (counted "db" 1 "3|ops")
            micros := 0 }
        verifyIntegrity hmac [row] row.entryId = .ok true
          ∧ ∀ start finish, (verifyChain hmac [row] start finish).invalidCount = 0 := by
  have hp : payload (counted "db|1" 2 "ops") = payload (counted "db" 1 "3|ops") := by
    rw [payload_eq_iff]
    exact ⟨rfl, by decide, rfl, rfl⟩
  refine ⟨hp, fun hs => absurd hs.configPath (by decide), ?_⟩
  intro hmac row
  have hvalid : computeHmac hmac row.toAuditEntry = row.hmacDigest := congrArg hmac hp
  refine ⟨?_, ?_⟩
  · rw [verifyIntegrity_row (by simp) (by simp), decide_eq_true hvalid]
  · intro start finish
    have hnone : (verifyChain hmac [row] start finish).invalidEntryIds = [] := by
      rw [List.eq_nil_iff_forall_not_mem]
      intro id hid
      obtain ⟨r, hr, -, hne, -⟩ := mem_invalidEntryIds.1 hid
      rw [List.mem_singleton.1 hr] at hne
      exact hne hvalid
    exact congrArg List.length hnone

end AuditLog

end VeriNode

/-!
# The rows the program writes, verified

A row verifies if and only if its payload is what was signed. The columns of JSON bring a value back
with its keys in their own order, in a text as long as the one that was signed, and the cast brings
an address back in its own form; the rest comes back as it was. A row that was written past the
logger was not signed.
-/

namespace VeriNode

namespace AuditLog

variable {ν : Type*}

/-- Where a row comes from: an entry that `write` was called with, or an attempt that was denied. -/
inductive Origin (ν : Type*)
  | logged (input : AuditEntryInput ν) (entryId : Uuid)
  | denied (actor : ActorContext) (operation : String) (entryId : Uuid) (now : JsDate)
    (micros : Fin 1000)

variable [JsonNumber ν] (hmac : String → String) (inet : String → Option String)

def Origin.row : Origin ν → Option (AuditRow ν)
  | .logged input entryId => insertEntry inet (signed hmac input entryId)
  | .denied actor operation entryId now micros =>
    writeAccessDenied inet actor operation entryId now micros

def table (origins : List (Origin ν)) : List (AuditRow ν) := origins.filterMap (·.row hmac inet)

/-- The values have their keys in the order of the column and the address is in its own form; of an
attempt that was denied, the text happens to have zeros for its HMAC. -/
def Origin.Survives : Origin ν → Prop
  | .logged input _ =>
    (orNull input.previousValue).json.ordered = true ∧ (orNull input.newValue).json.ordered = true
      ∧ ∀ ip, input.sourceIp = some ip → inet ip = some ip
  | .denied actor operation entryId now micros =>
    ∀ row : AuditRow ν, writeAccessDenied inet actor operation entryId now micros = some row →
      hmac (payload row.toAuditEntry) = "".pushn '0' 64

/-- Everything verifies, one by one and over any period. -/
def Verifies (log : List (AuditRow ν)) : Prop :=
  (∀ row ∈ log, verifyIntegrity hmac log row.entryId = .ok true)
    ∧ ∀ start finish, (verifyChain hmac log start finish).invalidCount = 0

variable {hmac inet}

theorem verifies_iff {log : List (AuditRow ν)} (hlog : (log.map (·.entryId)).Nodup) :
    Verifies hmac log ↔ ∀ row ∈ log, computeHmac hmac row.toAuditEntry = row.hmacDigest := by
  have hone : ∀ row ∈ log, verifyIntegrity hmac log row.entryId = .ok true
      ↔ computeHmac hmac row.toAuditEntry = row.hmacDigest := by
    intro row hrow
    rw [verifyIntegrity_row hlog hrow, Except.ok.injEq, decide_eq_true_iff]
  constructor
  · rintro ⟨hall, -⟩ row hrow
    exact (hone row hrow).1 (hall row hrow)
  · intro hall
    refine ⟨fun row hrow => (hone row hrow).2 (hall row hrow), fun start finish => ?_⟩
    have hnone : (verifyChain hmac log start finish).invalidEntryIds = [] := by
      rw [List.eq_nil_iff_forall_not_mem]
      intro id hid
      obtain ⟨r, hr, -, hne, -⟩ := mem_invalidEntryIds.1 hid
      exact hne (hall r hr)
    exact congrArg List.length hnone

theorem verifies_one {o : Origin ν} {row : AuditRow ν} (h : o.row hmac inet = some row) :
    Verifies hmac (table hmac inet [o]) ↔ computeHmac hmac row.toAuditEntry = row.hmacDigest := by
  have htable : table hmac inet [o] = [row] := by simp [table, h]
  rw [htable, verifies_iff (by simp)]
  simp

omit [JsonNumber ν] in
theorem insertEntry_eq {e : AuditEntry ν} {row : AuditRow ν} (h : insertEntry inet e = some row) :
    ∃ address, (∀ ip, e.sourceIp = some ip → ∃ a, address = some a ∧ inet ip = some a)
      ∧ (e.sourceIp = none → address = none)
      ∧ row.toAuditEntry = { e with
          previousValue := stored e.previousValue
          newValue := stored e.newValue
          sourceIp := address } := by
  unfold insertEntry at h
  split at h
  · rename_i hip
    refine ⟨none, fun ip hsome => ?_, fun _ => rfl, ?_⟩
    · rw [hip] at hsome
      cases hsome
    · rw [← Option.some.inj h, ← hip]
  · rename_i ip hip
    obtain ⟨a, ha, hrow⟩ := Option.map_eq_some_iff.1 h
    refine ⟨some a, fun ip' hsome => ?_, fun hnone => ?_, ?_⟩
    · rw [hip] at hsome
      exact ⟨a, rfl, Option.some.inj hsome ▸ ha⟩
    · rw [hip] at hnone
      cases hnone
    · rw [← hrow]

theorem chars_norm_append {j : Json ν} {l l' : List Char}
    (h : j.norm.chars ++ l = j.chars ++ l') : j.ordered = true ∧ l = l' := by
  obtain ⟨hj, hl⟩ := List.append_inj h (Json.length_chars_norm j)
  exact ⟨(Json.norm_eq_iff j).1 (Json.stringify_injective (congrArg String.ofList hj)), hl⟩

theorem middle_stored_iff {e : AuditEntry ν} {address : Option String} :
    middle { e with
      previousValue := stored e.previousValue
      newValue := stored e.newValue
      sourceIp := address } = middle e
    ↔ (orNull e.previousValue).json.ordered = true ∧ (orNull e.newValue).json.ordered = true
      ∧ address.getD "" = e.sourceIp.getD "" := by
  have horNull : ∀ v : Option (JsValue ν), (orNull (stored v)).json = (orNull v).json.norm :=
    fun _ => rfl
  simp only [middle, change, horNull, List.append_assoc, List.cons_append, List.nil_append,
    List.append_cancel_left_eq, List.cons.injEq, true_and]
  constructor
  · intro h
    obtain ⟨hprev, h⟩ := chars_norm_append h
    obtain ⟨hnew, h⟩ := chars_norm_append (List.cons.inj h).2
    have haddress := List.append_cancel_left (List.cons.inj h).2
    exact ⟨hprev, hnew, String.toList_injective (List.cons.inj haddress).2⟩
  · rintro ⟨hprev, hnew, haddress⟩
    rw [(Json.norm_eq_iff _).2 hprev, (Json.norm_eq_iff _).2 hnew, haddress]

theorem logged_verifies_iff (hinj : Function.Injective hmac) {input : AuditEntryInput ν}
    {entryId : Uuid} {row : AuditRow ν}
    (h : insertEntry inet (signed hmac input entryId) = some row) :
    computeHmac hmac row.toAuditEntry = row.hmacDigest
      ↔ (Origin.logged input entryId).Survives hmac inet := by
  obtain ⟨address, hsome, hnone, hrow⟩ := insertEntry_eq h
  let e : AuditEntry ν := signed hmac input entryId
  have hdigest : row.hmacDigest = hmac (payload e) := by
    rw [show row.hmacDigest = row.toAuditEntry.hmacDigest from rfl, hrow]
    rfl
  have haddress : address.getD "" = input.sourceIp.getD ""
      ↔ ∀ ip, input.sourceIp = some ip → inet ip = some ip := by
    rcases hip : input.sourceIp with _ | ip
    · rw [hnone hip]
      simp
    · obtain ⟨a, rfl, ha⟩ := hsome ip hip
      simp [ha]
  rw [hdigest, computeHmac, hinj.eq_iff, payload_eq_iff, hrow]
  constructor
  · rintro ⟨-, hm, -⟩
    obtain ⟨hprev, hnew, ha⟩ := middle_stored_iff.1 hm
    exact ⟨hprev, hnew, haddress.1 ha⟩
  · rintro ⟨hprev, hnew, ha⟩
    exact ⟨rfl, middle_stored_iff.2 ⟨hprev, hnew, haddress.2 ha⟩, rfl, rfl⟩

omit [JsonNumber ν] in
theorem writeAccessDenied_digest {actor : ActorContext} {operation : String} {entryId : Uuid}
    {now : JsDate} {micros : Fin 1000} {row : AuditRow ν}
    (h : writeAccessDenied inet actor operation entryId now micros = some row) :
    row.hmacDigest = "".pushn '0' 64 := by
  unfold writeAccessDenied at h
  split at h
  · rw [← Option.some.inj h]
  · obtain ⟨a, -, ha⟩ := Option.map_eq_some_iff.1 h
    rw [← ha]

theorem Origin.verifies_iff (hinj : Function.Injective hmac) {o : Origin ν} {row : AuditRow ν}
    (h : o.row hmac inet = some row) :
    computeHmac hmac row.toAuditEntry = row.hmacDigest ↔ o.Survives hmac inet := by
  cases o with
  | logged input entryId => exact logged_verifies_iff hinj h
  | denied actor operation entryId now micros =>
    rw [writeAccessDenied_digest h]
    constructor
    · intro hzeros row' hrow'
      rw [← Option.some.inj (h.symm.trans hrow')]
      exact hzeros
    · exact fun hzeros => hzeros row h

/-- Untouched rows verify if and only if each of them came back from its columns as it was signed. -/
theorem untouched_verifies_iff (hinj : Function.Injective hmac) (origins : List (Origin ν))
    (hids : ((table hmac inet origins).map (·.entryId)).Nodup) :
    Verifies hmac (table hmac inet origins)
      ↔ ∀ o ∈ origins, (o.row hmac inet).isSome → o.Survives hmac inet := by
  rw [AuditLog.verifies_iff hids]
  constructor
  · intro hall o ho hrow
    obtain ⟨row, hrow⟩ := Option.isSome_iff_exists.1 hrow
    exact (Origin.verifies_iff hinj hrow).1 (hall row (List.mem_filterMap.2 ⟨o, ho, hrow⟩))
  · intro hall row hmem
    obtain ⟨o, ho, hrow⟩ := List.mem_filterMap.1 hmem
    exact (Origin.verifies_iff hinj hrow).2 (hall o ho (Option.isSome_iff_exists.2 ⟨row, hrow⟩))

theorem wellFormed_two {k k' : String} (h : Json.precedes k k' = true) :
    (Json.obj [(k, .num 1), (k', .num 2)] : Json ℕ).wellFormed = true := by
  simp [Json.wellFormed, Json.everyObj, Json.everyField, h]

theorem start_of_2024 : -8640000000000000 ≤ (1704067200000 : ℤ)
    ∧ (1704067200000 : ℤ) ≤ 8640000000000000 := by decide

/-- Two keys, in this order, were added. -/
def added (k k' : String) (h : Json.precedes k k' = true) : AuditEntryInput ℕ :=
  { configPath := "limits"
    previousValue := none
    newValue := some ⟨.obj [(k, .num 1), (k', .num 2)], wellFormed_two h⟩
    actor := "ops"
    sourceIp := some "10.0.0.1"
    changedAt := ⟨1704067200000, start_of_2024⟩
    changeSource := .hotUpdate }

theorem isUuid_addedId : isUuid "0b0e7cd8-6c2d-4f3a-9d51-2f6a1c8f0a11" = true := by decide

def addedId : Uuid := ⟨"0b0e7cd8-6c2d-4f3a-9d51-2f6a1c8f0a11", isUuid_addedId⟩

theorem untouched_verifies_added :
    Verifies (ν := ℕ) id (table id some [.logged (added "a" "b" (by decide)) addedId]) :=
  (untouched_verifies_iff Function.injective_id [.logged (added "a" "b" (by decide)) addedId]
    (by decide)).2 (by
      intro o ho _
      rw [List.mem_singleton.1 ho]
      exact ⟨by decide, by decide, fun _ h => h ▸ rfl⟩)

/-- Neither the keys that the column put in its own order verify, nor does a denied attempt. -/
theorem untouched_rejected :
    (¬ ∃ hmac, Function.Injective hmac
      ∧ Verifies hmac (table hmac some [.logged (added "b" "a" (by decide)) addedId]))
    ∧ ¬ ∃ hmac : String → String, (∀ text, hmac text ≠ "".pushn '0' 64)
      ∧ Verifies (ν := ℕ) hmac (table hmac some
        [.denied ⟨"ops", some "10.0.0.1"⟩ "baseline:capture" addedId ⟨0, by decide⟩ 0]) := by
  refine ⟨?_, ?_⟩
  · rintro ⟨hmac, hinj, hall⟩
    have hvalid := (verifies_one rfl).1 hall
    have hsurvives : (Origin.logged (added "b" "a" (by decide)) addedId).Survives hmac some :=
      (Origin.verifies_iff hinj rfl).1 hvalid
    exact absurd hsurvives.2.1 (by decide)
  · rintro ⟨hmac, hzeros, hall⟩
    have hvalid := (verifies_one rfl).1 hall
    exact hzeros _ hvalid

end AuditLog

end VeriNode
