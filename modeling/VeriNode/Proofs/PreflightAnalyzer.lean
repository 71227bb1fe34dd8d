import VeriNode.Blockchain.PreflightAnalyzer

/-!
# Whose report is returned

Two operations have one key just when they are of one contract and their arguments are written
alike (`cacheKey_eq_iff`); their functions, and the transactions that they bring, are not in it.
What the cache holds is right for the operation that it was made for (`Inv`), and young enough when
it is returned. So a report that is returned is of the operation that was asked for just when that
one is the same (`sound_iff`).
-/

namespace VeriNode

namespace PreflightAnalyzer

section Keys

theorem hexDigit_inj {m n : ℕ} (hm : m < 16) (hn : n < 16)
    (h : JsString.hexDigit m = JsString.hexDigit n) : m = n := by
  have hv : ∀ k, k < 16 → JsString.hexValue (JsString.hexDigit k) = k := by decide
  rw [← hv m hm, h, hv n hn]

theorem hexDigit_ne_colon : ∀ n, n < 16 → JsString.hexDigit n ≠ ':' := by decide

theorem digits_inj : ∀ {b b' : List UInt8},
    (b.flatMap fun x => [JsString.hexDigit (x.toNat / 16), JsString.hexDigit (x.toNat % 16)]) =
      (b'.flatMap fun x => [JsString.hexDigit (x.toNat / 16), JsString.hexDigit (x.toNat % 16)]) →
    b = b'
  | [], [], _ => rfl
  | [], _ :: _, h => by simp at h
  | _ :: _, [], h => by simp at h
  | x :: b, y :: b', h => by
    simp only [List.flatMap_cons, List.cons_append, List.nil_append, List.cons.injEq] at h
    obtain ⟨hhigh, hlow, hrest⟩ := h
    have hx := x.toNat_lt
    have hy := y.toNat_lt
    have h1 : x.toNat / 16 = y.toNat / 16 := hexDigit_inj (by omega) (by omega) hhigh
    have h2 : x.toNat % 16 = y.toNat % 16 := hexDigit_inj (by omega) (by omega) hlow
    have hxy : x = y := UInt8.toNat_inj.1 (by omega)
    rw [hxy, digits_inj hrest]

theorem hex_inj {b b' : List UInt8} (h : hex b = hex b') : b = b' :=
  digits_inj (String.ofList_inj.1 h)

theorem colon_notMem_hex (b : List UInt8) : ':' ∉ (hex b).toList := by
  unfold hex
  rw [String.toList_ofList]
  intro h
  obtain ⟨x, -, hx⟩ := List.mem_flatMap.1 h
  have hlt := x.toNat_lt
  simp only [List.mem_cons, List.not_mem_nil, or_false] at hx
  rcases hx with hx | hx
  · exact hexDigit_ne_colon _ (by omega) hx.symm
  · exact hexDigit_ne_colon _ (by omega) hx.symm

theorem append_cons_inj {c : Char} {l l' r r' : List Char} (hr : c ∉ r) (hr' : c ∉ r')
    (h : l ++ c :: r = l' ++ c :: r') : l = l' ∧ r = r' := by
  rcases List.append_eq_append_iff.1 h with ⟨m, rfl, hm⟩ | ⟨m, rfl, hm⟩
  · rcases m with _ | ⟨d, m⟩
    · simpa using hm
    · rw [List.cons_append, List.cons.injEq] at hm
      exact absurd (hm.2 ▸ List.mem_append_right _ List.mem_cons_self) hr
  · rcases m with _ | ⟨d, m⟩
    · simpa [eq_comm] using hm
    · rw [List.cons_append, List.cons.injEq] at hm
      exact absurd (hm.2 ▸ List.mem_append_right _ List.mem_cons_self) hr'

variable {α ν : Type} [JsonNumber ν] {toJson : α → Option (Json ν)} {op op' : ContractOperation α}
  {key : String}

theorem key_inj {c c' : String} {b b' : List UInt8}
    (h : "preflight:" ++ c ++ ":" ++ hex b = "preflight:" ++ c' ++ ":" ++ hex b') :
    c = c' ∧ b = b' := by
  have hl := congrArg String.toList h
  simp only [String.toList_append, List.append_assoc] at hl
  have hl' := append_cons_inj (colon_notMem_hex b) (colon_notMem_hex b')
    (List.append_cancel_left hl)
  exact ⟨String.toList_inj.1 hl'.1, hex_inj (String.toList_inj.1 hl'.2)⟩

theorem of_cacheKey (h : cacheKey toJson op = some key) : ∃ json,
    argsJson toJson op.args = some json ∧
      key = "preflight:" ++ op.contractId ++ ":" ++ hex (Utf8.encode json.stringify) := by
  obtain ⟨hash, hhash, rfl⟩ := Option.map_eq_some_iff.1 h
  obtain ⟨json, hjson, rfl⟩ := Option.map_eq_some_iff.1 hhash
  exact ⟨json, hjson, rfl⟩

theorem cacheKey_eq_iff (hkey : cacheKey toJson op = some key) :
    cacheKey toJson op' = some key ↔
      op'.contractId = op.contractId ∧ argsJson toJson op'.args = argsJson toJson op.args := by
  constructor
  · intro hkey'
    obtain ⟨json, hjson, rfl⟩ := of_cacheKey hkey
    obtain ⟨json', hjson', he⟩ := of_cacheKey hkey'
    obtain ⟨hc, hb⟩ := key_inj he
    have htext : json.stringify = json'.stringify := by
      rw [← Utf8.decode_encode json.stringify, hb, Utf8.decode_encode]
    rw [hjson, hjson', Json.stringify_injective htext]
    exact ⟨hc.symm, rfl⟩
  · rintro ⟨hc, ha⟩
    rw [← hkey]
    unfold cacheKey hashArgs
    rw [hc, ha]

end Keys

section Runs

variable {α ν : Type} [JsonNumber ν] (toJson : α → Option (Json ν))
  (simulate : String → Option SimulateTransactionResponse)

/-- What the service says of the operation: the instructions and the bytes of the transaction that
is submitted for it. -/
structure Measured (op : ContractOperation α) (instructions writeBytes : Option ℤ) : Prop where
  key : (cacheKey toJson op).isSome = true
  simulated : ∃ tx simulation, txXdr toJson op = some tx ∧ simulate tx = some simulation ∧
    simulation.error = none ∧
    instructions = parseInt (orElse (simulation.cost.bind (·.instructions)) "0") ∧
    writeBytes = parseInt (orElse (simulation.cost.bind (·.writeBytes)) "0")

structure IsReport (op : ContractOperation α) (report : PreflightReport) : Prop where
  measured : Measured toJson simulate op report.instructions report.writeBytes
  estimatedGas : report.estimatedGas =
    report.instructions.map fun n => min (n * 3 / 2 + 50000 + 5 * 5000) 100000000
  storageKeys : report.storageKeysAccessed = criticalDataKeys

/-- What is returned is the report of the operation that was asked for, computed now or less than
the time to live ago. -/
structure Right (call : Call α) (entry : CacheEntry α) (time : ℕ) : Prop where
  operation : entry.operation = call.operation
  report : IsReport toJson simulate call.operation entry.report
  fresh : entry.timestamp ≤ time ∧ time - entry.timestamp < 60000

def Sound (s : State α) : Prop :=
  ∀ call ∈ s.calls, ∀ entry time, call.stage = .returned entry time →
    Right toJson simulate call entry time

/-- No operation is asked for while the cache has a report of another one that is young enough, of
the same contract and with arguments that are written alike. -/
def Separate (s : State α) (a : Action α) : Prop :=
  ∀ op, a = .enter (.analyze op) → ∀ key entry, s.shared.cache.get key = some entry →
    entry.operation.contractId = op.contractId →
    argsJson toJson entry.operation.args = argsJson toJson op.args →
    s.shared.clock - entry.timestamp < cacheTtlMs → entry.operation = op

/-- What is so of an entry, whichever operation asks for it. -/
structure EntryOk (entry : CacheEntry α) (time : ℕ) : Prop where
  report : IsReport toJson simulate entry.operation entry.report
  fresh : entry.timestamp ≤ time

/-- What is so of a call, by where it stands. -/
def Call.Ok (call : Call α) : Prop :=
  match call.stage with
  | .simulating tx => (cacheKey toJson call.operation).isSome = true ∧
    txXdr toJson call.operation = some tx
  | .measured instructions writeBytes =>
    Measured toJson simulate call.operation instructions writeBytes
  | .returned entry time => EntryOk toJson simulate entry time ∧ time - entry.timestamp < 60000
  | .rejected _ => True

/-- What is so in every state. -/
structure Inv (s : State α) : Prop where
  cache : ∀ key entry, s.shared.cache.get key = some entry →
    cacheKey toJson entry.operation = some key ∧
      EntryOk toJson simulate entry s.shared.clock
  ok : ∀ call ∈ s.calls, call.Ok toJson simulate

variable {toJson simulate} {s s' : State α} {a : Action α} {h : List (Taken (State α) (Action α))}
  {op : ContractOperation α} {call call' : Call α} {w w' : World α} {event : Event}

theorem estimatedGas_eq (instructions : Option ℤ) : estimatedGas instructions criticalDataKeys =
    instructions.map fun n => min (n * 3 / 2 + 50000 + 5 * 5000) 100000000 := rfl

theorem EntryOk.mono {entry : CacheEntry α} {time time' : ℕ}
    (h : EntryOk toJson simulate entry time) (hle : time ≤ time') :
    EntryOk toJson simulate entry time' := ⟨h.report, h.fresh.trans hle⟩

theorem analyze_hit {key : String} {entry : CacheEntry α} (hkey : cacheKey toJson op = some key)
    (hget : w.cache.get key = some entry) (hfresh : w.clock - entry.timestamp < cacheTtlMs) :
    (analyze toJson op w).stage = .returned entry w.clock := by
  simp only [analyze, hkey, hget, hfresh, ↓reduceIte]

theorem analyze_cases (toJson : α → Option (Json ν)) (op : ContractOperation α) (w : World α) :
    (∃ message, (analyze toJson op w).stage = .rejected message) ∨
      (∃ tx, (analyze toJson op w).stage = .simulating tx ∧
        (cacheKey toJson op).isSome = true ∧ txXdr toJson op = some tx) ∨
      ∃ key entry, (analyze toJson op w).stage = .returned entry w.clock ∧
        cacheKey toJson op = some key ∧ w.cache.get key = some entry ∧
          w.clock - entry.timestamp < cacheTtlMs := by
  cases hkey : cacheKey toJson op with
  | none => exact .inl ⟨none, by simp only [analyze, hkey]⟩
  | some key =>
    have hmiss : (∀ entry, w.cache.get key = some entry →
        ¬ w.clock - entry.timestamp < cacheTtlMs) →
        (analyze toJson op w).stage = (txXdr toJson op).elim (.rejected none) .simulating := by
      intro hold
      simp only [analyze, hkey]
      cases hget : w.cache.get key with
      | none => cases txXdr toJson op <;> rfl
      | some entry =>
        simp only [hold entry hget, ↓reduceIte]
        cases txXdr toJson op <;> rfl
    by_cases hhit : ∃ entry, w.cache.get key = some entry ∧
        w.clock - entry.timestamp < cacheTtlMs
    · obtain ⟨entry, hget, hfresh⟩ := hhit
      exact .inr (.inr ⟨key, entry, analyze_hit hkey hget hfresh, rfl, hget, hfresh⟩)
    · replace hmiss := hmiss fun entry hget hfresh => hhit ⟨entry, hget, hfresh⟩
      cases htx : txXdr toJson op with
      | none =>
        rw [htx] at hmiss
        exact .inl ⟨none, hmiss⟩
      | some tx =>
        rw [htx] at hmiss
        exact .inr (.inl ⟨tx, hmiss, rfl, rfl⟩)

theorem ok_analyze (hi : Inv toJson simulate s) (op : ContractOperation α) :
    (analyze toJson op s.shared).Ok toJson simulate := by
  unfold Call.Ok
  rcases analyze_cases toJson op s.shared with
    ⟨message, hs⟩ | ⟨tx, hs, hkey, htx⟩ | ⟨key, entry, hs, hkey, hget, hfresh⟩ <;> rw [hs]
  · trivial
  · exact ⟨hkey, htx⟩
  · exact ⟨(hi.cache key entry hget).2, hfresh⟩

/-- What a call does that goes on: the cache stays, or has its report, which it returns. -/
theorem resume_cases (hok : call.Ok toJson simulate)
    (hr : resume toJson simulate event call w = some (w', call')) :
    call'.operation = call.operation ∧ call'.Ok toJson simulate ∧
      (w' = w ∧ (∀ entry time, call'.stage ≠ .returned entry time) ∨
        ∃ key entry, w' = { w with cache := w.cache.set key entry } ∧
          cacheKey toJson entry.operation = some key ∧ entry.operation = call.operation ∧
          EntryOk toJson simulate entry w.clock ∧ entry.timestamp = w.clock ∧
          call'.stage = .returned entry w.clock) := by
  unfold resume at hr
  split at hr
  · rename_i tx hs
    unfold Call.Ok at hok
    rw [hs] at hok
    obtain ⟨hkey, htx⟩ := hok
    split at hr
    · cases hr
      exact ⟨rfl, trivial, .inl ⟨rfl, fun _ _ h => by cases h⟩⟩
    · rename_i simulation hsim
      split at hr
      · cases hr
        exact ⟨rfl, trivial, .inl ⟨rfl, fun _ _ h => by cases h⟩⟩
      · rename_i herr
        cases hr
        exact ⟨rfl, ⟨hkey, tx, simulation, htx, hsim, herr, rfl, rfl⟩,
          .inl ⟨rfl, fun _ _ h => by cases h⟩⟩
  · rename_i instructions writeBytes hs
    unfold Call.Ok at hok
    rw [hs] at hok
    obtain ⟨key, hkey⟩ := Option.isSome_iff_exists.1 hok.key
    simp only [hkey, Option.some.injEq, Prod.mk.injEq] at hr
    obtain ⟨rfl, rfl⟩ := hr
    have hentry : EntryOk toJson simulate ⟨⟨instructions, writeBytes,
        estimatedGas instructions criticalDataKeys, w.clock - call.start, criticalDataKeys⟩,
        w.clock, call.operation⟩ w.clock := ⟨⟨hok, estimatedGas_eq _, rfl⟩, le_rfl⟩
    refine ⟨rfl, ⟨hentry, ?_⟩, .inr ⟨key, _, rfl, hkey, rfl, hentry, rfl, rfl⟩⟩
    simp
  · cases hr

theorem Inv.step (hi : Inv toJson simulate s) (hs : (system toJson simulate).step s a = some s') :
    Inv toJson simulate s' := by
  rcases Calls.step_cases hs with ⟨input, rfl, rfl⟩ | ⟨k, event, call, w, call', rfl, hc, hr, rfl⟩
  · cases input with
    | analyze op =>
      refine ⟨hi.cache, fun call hcall => ?_⟩
      rcases List.mem_append.1 hcall with hcall | hcall
      · exact hi.ok call hcall
      · rw [List.mem_singleton.1 hcall]
        exact ok_analyze hi op
    | pass ms =>
      refine ⟨fun key entry hget => ?_, fun call hcall => ?_⟩
      case refine_2 => exact hi.ok call (by simpa [calls] using hcall)
      obtain ⟨hkey, hentry⟩ := hi.cache key entry hget
      exact ⟨hkey, hentry.mono (Nat.le_add_right _ _)⟩
  · obtain ⟨-, hok', hw⟩ := resume_cases (hi.ok call (List.mem_of_getElem? hc)) hr
    have hcalls : ∀ c ∈ s.calls.set k call', c.Ok toJson simulate := fun c hcm => by
      rcases List.mem_or_eq_of_mem_set hcm with hcm | rfl
      · exact hi.ok c hcm
      · exact hok'
    rcases hw with ⟨rfl, -⟩ | ⟨key, entry, rfl, hkey, -, hentry, -, -⟩
    · exact ⟨hi.cache, hcalls⟩
    · refine ⟨fun key' entry' hget => ?_, hcalls⟩
      rcases OrdMap.of_get_set hget with ⟨rfl, rfl⟩ | ⟨-, hget⟩
      · exact ⟨hkey, hentry⟩
      · exact hi.cache key' entry' hget

theorem inv_of_run (hr : Run (system toJson simulate) h s) : Inv toJson simulate s := by
  refine hr.invariant (fun s hs => ?_) (fun s a s' hi hs => hi.step hs)
  obtain ⟨clock, rfl⟩ := hs
  exact ⟨by simp, by simp⟩

theorem right_iff {entry : CacheEntry α} {time : ℕ} (hok : call.Ok toJson simulate)
    (hs : call.stage = .returned entry time) :
    Right toJson simulate call entry time ↔ entry.operation = call.operation := by
  unfold Call.Ok at hok
  rw [hs] at hok
  obtain ⟨hentry, hfresh⟩ := hok
  constructor
  · exact fun h => h.operation
  · exact fun h => ⟨h, h ▸ hentry.report, hentry.fresh, hfresh⟩

theorem separate_iff (hi : Inv toJson simulate s) (op : ContractOperation α) :
    Separate toJson s (.enter (.analyze op)) ↔
      ∀ entry time, (analyze toJson op s.shared).stage = .returned entry time →
        Right toJson simulate (analyze toJson op s.shared) entry time := by
  constructor
  · intro hsep entry time hs
    rw [right_iff (ok_analyze hi op) hs]
    rcases analyze_cases toJson op s.shared with
      ⟨message, hs'⟩ | ⟨tx, hs', -⟩ | ⟨key, entry', hs', hkey, hget, hfresh⟩ <;> rw [hs'] at hs
    · cases hs
    · cases hs
    · cases hs
      obtain ⟨hcontract, hargs⟩ := (cacheKey_eq_iff hkey).1 (hi.cache key entry hget).1
      exact hsep op rfl key entry hget hcontract hargs hfresh
  · intro hright op' ha key entry hget hcontract hargs hfresh
    cases ha
    have hkey := (cacheKey_eq_iff (hi.cache key entry hget).1).2 ⟨hcontract.symm, hargs.symm⟩
    exact (hright entry s.shared.clock (analyze_hit hkey hget hfresh)).operation

theorem sound_step (hi : Inv toJson simulate s)
    (hs : (system toJson simulate).step s a = some s') :
    Sound toJson simulate s' ↔ Separate toJson s a ∧ Sound toJson simulate s := by
  rcases Calls.step_cases hs with ⟨input, rfl, rfl⟩ | ⟨k, event, call, w, call', rfl, hc, hr, rfl⟩
  · cases input with
    | analyze op =>
      rw [separate_iff hi]
      show (∀ call ∈ s.calls ++ [analyze toJson op s.shared], _) ↔ _
      rw [List.forall_mem_append, and_comm]
      simp only [List.mem_singleton, forall_eq]
      rfl
    | pass ms =>
      have hsep : Separate toJson s (.enter (.pass ms)) := fun op ha => by cases ha
      rw [and_iff_right hsep]
      simp only [Sound, calls, List.append_nil]
  · have hsep : Separate toJson s (.resume k event) := fun op ha => by cases ha
    rw [and_iff_right hsep]
    obtain ⟨hop, hok', hw⟩ := resume_cases (hi.ok call (List.mem_of_getElem? hc)) hr
    constructor
    · intro h c hcm entry time hstage
      -- a call that has returned is not the one that goes on
      obtain ⟨i, hci⟩ := List.mem_iff_getElem?.1 hcm
      have hik : i ≠ k := by
        rintro rfl
        rw [hc, Option.some.injEq] at hci
        subst hci
        simp [calls, PreflightAnalyzer.resume, hstage] at hr
      refine h c ?_ entry time hstage
      rw [← Calls.get_set_of_ne hik] at hci
      exact List.mem_of_getElem? hci
    · intro h c hcm entry time hstage
      rcases List.mem_or_eq_of_mem_set hcm with hcm | rfl
      · exact h c hcm entry time hstage
      · rw [right_iff hok' hstage, hop]
        rcases hw with ⟨-, hnot⟩ | ⟨key, entry', -, -, hop', -, -, hret⟩
        · exact absurd hstage (hnot entry time)
        · rw [hret, Stage.returned.injEq] at hstage
          rw [← hstage.1, hop']

/-- In every run each report that is returned is the one of the operation that was asked for, with
the gas that is due for its instructions, computed now or less than the time to live ago, just when
no operation is asked for while a report of another one is taken for its own. -/
theorem sound_iff (hr : Run (system toJson simulate) h s) :
    Sound toJson simulate s ↔ Along (Separate toJson) h := by
  refine hr.iff_along (fun s hs => ?_) fun h s a s' hr hs => sound_step (inv_of_run hr) hs
  obtain ⟨clock, rfl⟩ := hs
  exact fun _ hc => by cases hc

/-- A service that knows two transactions. -/
def twoTransactions (tx : String) : Option SimulateTransactionResponse :=
  some { cost := some ⟨some (if tx = "AAAA" then "1000000" else "5000000"), some "64"⟩ }

/-- Two operations of one contract with the same arguments. -/
def verify : ContractOperation ℕ := ⟨"C", "verify", [7], some "AAAA"⟩

def slash : ContractOperation ℕ := ⟨"C", "slash", [7], some "BBBB"⟩

/-- The report of the first of them, computed at the time. -/
def verifyEntry : CacheEntry ℕ :=
  ⟨⟨some 1000000, some 64, some 1575000, 200, criticalDataKeys⟩, 1000200, verify⟩

abbrev twoSystem : Sys (State ℕ) (Action ℕ) := system (fun n => some (Json.num n)) twoTransactions

/-- An operation that is asked for again has the report of before. -/
theorem sound_iff_again : ∃ h s, Run twoSystem h s ∧
    Sound (fun n => some (Json.num n)) twoTransactions s ∧
    Along (Separate fun n => some (Json.num n)) h ∧
    s.calls = [⟨verify, 1000000, .returned verifyEntry 1000200⟩,
      ⟨verify, 1001200, .returned verifyEntry 1001200⟩] := by
  obtain ⟨h, s, hr, hp⟩ := Sys.exists_run (S := twoSystem) (s := ⟨{ clock := 1000000 }, []⟩)
    ⟨_, rfl⟩ [.enter (.analyze verify), .enter (.pass 200), .resume 0 .answered, .resume 0 .keyed,
      .enter (.pass 1000), .enter (.analyze verify)]
    (p := fun r => r.2.calls == [⟨verify, 1000000, .returned verifyEntry 1000200⟩,
      ⟨verify, 1001200, .returned verifyEntry 1001200⟩])
    (by decide +kernel)
  have hcalls := beq_iff_eq.1 hp
  have hsound : Sound (fun n => some (Json.num n)) twoTransactions s := by
    intro call hcall entry time hs
    rw [right_iff ((inv_of_run hr).ok call hcall) hs]
    rw [hcalls] at hcall
    simp only [List.mem_cons, List.not_mem_nil, or_false] at hcall
    rcases hcall with rfl | rfl <;> cases hs <;> rfl
  exact ⟨h, s, hr, hsound, (sound_iff hr).1 hsound, hcalls⟩

/-- An operation has the report of another one, of a fifth of its instructions. -/
theorem not_sound_other_function : ∃ h s, Run twoSystem h s ∧
    ¬ Sound (fun n => some (Json.num n)) twoTransactions s ∧
    s.calls = [⟨verify, 1000000, .returned verifyEntry 1000200⟩,
      ⟨slash, 1001200, .returned verifyEntry 1001200⟩] := by
  obtain ⟨h, s, hr, hp⟩ := Sys.exists_run (S := twoSystem) (s := ⟨{ clock := 1000000 }, []⟩)
    ⟨_, rfl⟩ [.enter (.analyze verify), .enter (.pass 200), .resume 0 .answered, .resume 0 .keyed,
      .enter (.pass 1000), .enter (.analyze slash)]
    (p := fun r => r.2.calls == [⟨verify, 1000000, .returned verifyEntry 1000200⟩,
      ⟨slash, 1001200, .returned verifyEntry 1001200⟩])
    (by decide +kernel)
  have hcalls := beq_iff_eq.1 hp
  refine ⟨h, s, hr, fun hsound => ?_, hcalls⟩
  have hmem : ⟨slash, 1001200, .returned verifyEntry 1001200⟩ ∈ s.calls := by
    rw [hcalls]
    exact List.mem_cons_of_mem _ List.mem_cons_self
  have hop := (hsound _ hmem _ _ rfl).operation
  revert hop
  decide

end Runs

end PreflightAnalyzer

end VeriNode
