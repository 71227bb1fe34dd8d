import VeriNode.Audit.DeepDiff
import VeriNode.Proofs.Baseline
import VeriNode.Proofs.Drift

/-!
# Drift between a configuration and its own baseline

What `deepDiff` makes of plain objects is what was said of them (`deepDiff_plain`). A configuration
compared with the baseline that was captured of it has drifted exactly where an array holds objects
whose keys `sortedKeys` puts in another order, for arrays are compared by their texts, and where
fields are called `__proto__` (`noPhantomDrift_iff`).
-/

namespace VeriNode

namespace DeepDiff

open JsVal Drift Baseline
open Json (everyObj everyItem everyField precedes arrayIndex everyItem_iff everyField_iff)

variable {ν : Type*} [JsonNumber ν]

section Plain

variable {path k : String}

theorem inheritedDiff_of_ne (hk : k ≠ "__proto__") (v : Json ν) (fs : List (String × JsVal ν))
    (hown : own k fs = none) : inheritedDiff path k v
      = if has k fs then textDiff path (ofJson v) (JsVal.read k fs)
        else [⟨path, ofJson v, .undefined⟩] := by
  rw [inheritedDiff, if_neg hk, has, JsVal.read, hown]
  by_cases hi : k ∈ inherited
  · simp [hi]
  · simp [hi]

theorem swap_textDiff (path : String) (b l : JsVal ν) :
    (textDiff path b l).map swap = textDiff path l b := by
  unfold textDiff
  by_cases h : stringify b = stringify l
  · simp [h]
  · rw [if_pos h, if_pos (Ne.symm h)]
    rfl

theorem map_swap_inheritedDiff (hk : k ≠ "__proto__") (v : Json ν) (fs : List (String × JsVal ν))
    (hown : own k fs = none) : (inheritedDiff path k v).map swap
      = if has k fs then textDiff path (JsVal.read k fs) (ofJson v)
        else [⟨path, .undefined, ofJson v⟩] := by
  rw [inheritedDiff_of_ne hk v fs hown]
  split_ifs
  · exact swap_textDiff path _ _
  · rfl

theorem liveDiff_plain {ls : List (String × Json ν)} (hl : "__proto__" ∉ ls.map Prod.fst)
    (bs : List (String × Json ν)) (path : String) :
    Drift.liveDiff path (ofFields bs) (ofFields ls) = liveDiff path bs ls := by
  induction ls with
  | nil => rfl
  | cons f ls ih =>
    rw [List.map_cons, List.mem_cons, not_or] at hl
    have ih' := ih hl.2
    rw [Drift.liveDiff, liveDiff] at ih' ⊢
    rw [ofFields, List.flatMap_cons, List.flatMap_cons, ih']
    congr 1
    rw [own_ofFields, Option.isSome_map]
    rcases hb : bs.lookup f.1 with _ | b
    · have hown : own f.1 (ofFields bs) = none := by rw [own_ofFields, hb, Option.map_none]
      rw [map_swap_inheritedDiff (Ne.symm hl.1) f.2 _ hown]
    · rfl

theorem valueDiff_inherited (path : String) (b : Json ν) {fs : List (String × JsVal ν)}
    (hown : own k fs = none) : Drift.valueDiff path (ofJson b) (JsVal.read k fs)
      = textDiff path (ofJson b) (JsVal.read k fs) := by
  rw [JsVal.read, hown]
  by_cases hi : k ∈ inherited
  · simp only [hi, if_true]
    cases b <;> rfl
  · simp only [hi, if_false]
    cases b <;> rfl

mutual

theorem valueDiff_plain : ∀ (b l : Json ν) (path : String), noProto b = true → noProto l = true →
    Drift.valueDiff path (ofJson b) (ofJson l) = valueDiff path b l
  | .obj bs, .obj ls, path, hb, hl => by
    rw [noProto, everyObj, Bool.and_eq_true, decide_eq_true_iff] at hb hl
    rw [ofJson, ofJson, Drift.valueDiff, valueDiff, liveDiff_plain hl.1,
      keysDiff_plain bs ls path hb.1 hb.2 hl.2]
  | .obj _, .null, _, _, _ => rfl
  | .obj _, .bool _, _, _, _ => rfl
  | .obj _, .num _, _, _, _ => rfl
  | .obj _, .str _, _, _, _ => rfl
  | .obj _, .arr _, _, _, _ => rfl
  | .null, _, _, _, _ => rfl
  | .bool _, _, _, _, _ => rfl
  | .num _, _, _, _, _ => rfl
  | .str _, _, _, _, _ => rfl
  | .arr _, _, _, _, _ => rfl

theorem keysDiff_plain : ∀ (bs ls : List (String × Json ν)) (path : String),
    "__proto__" ∉ bs.map Prod.fst →
    everyField (fun keys => "__proto__" ∉ keys) bs = true →
    everyField (fun keys => "__proto__" ∉ keys) ls = true →
    Drift.keysDiff path (ofFields bs) (ofFields ls) = keysDiff path bs ls
  | [], _, _, _, _, _ => rfl
  | (k, b) :: bs, ls, path, hkeys, hbs, hls => by
    rw [List.map_cons, List.mem_cons, not_or] at hkeys
    rw [everyField, Bool.and_eq_true] at hbs
    rw [ofFields, Drift.keysDiff, keysDiff, keysDiff_plain bs ls path hkeys.2 hbs.2 hls]
    congr 1
    rcases hl : ls.lookup k with _ | l
    · have hown : own k (ofFields ls) = none := by rw [own_ofFields, hl, Option.map_none]
      simp only [inheritedDiff_of_ne (Ne.symm hkeys.1) b _ hown]
      split_ifs with hhas
      · exact valueDiff_inherited _ b hown
      · rfl
    · have hown : own k (ofFields ls) = some (ofJson l) := by rw [own_ofFields, hl, Option.map_some]
      have hhas : has k (ofFields ls) = true := by simp [has, hown]
      have hread : JsVal.read k (ofFields ls) = ofJson l := read_of_own hown
      simp only [hhas, if_true, hread]
      exact valueDiff_plain b l _ hbs.1 (everyField_iff.1 hls _ (Fields.mem_of_lookup hl))

end

/-- Between plain objects it is the `deepDiff` of plain objects. -/
theorem deepDiff_plain (b l : PlainObject ν) (path : String) :
    Drift.deepDiff b.value l.value path = deepDiff b.fields l.fields path :=
  valueDiff_plain (.obj b.fields) (.obj l.fields) path b.noProto l.noProto

end Plain

section Baseline

/-- The keys that are no array indices are in the order of `sort`, and none is `__proto__`. -/
def sortedAlready (keys : List String) : Bool :=
  "__proto__" ∉ keys ∧ (keys.filter fun k => (arrayIndex k).isNone).Pairwise
    (JsString.utf16 · ≤ JsString.utf16 ·)

/-- Not to be told from `Object.prototype`. -/
def likePrototype : Json ν → Bool
  | .obj [] => true
  | .obj [(k, .null)] => k = "__proto__"
  | _ => false

mutual

/-- Within arrays, the keys of every object are sorted already; elsewhere, a field called `__proto__`
is not to be told from `Object.prototype`. -/
def settled : Json ν → Bool
  | .arr items => everyItem sortedAlready items
  | .obj fields => settledFields fields
  | _ => true

def settledFields : List (String × Json ν) → Bool
  | [] => true
  | f :: fs => (if f.1 = "__proto__" then likePrototype f.2 else settled f.2) && settledFields fs

end

variable {v : Json ν} {fs : List (String × Json ν)}

omit [JsonNumber ν] in
theorem settledFields_iff : settledFields fs = true
    ↔ ∀ f ∈ fs, (if f.1 = "__proto__" then likePrototype f.2 else settled f.2) = true := by
  induction fs with
  | nil => simp [settledFields]
  | cons f fs ih => simp [settledFields, ih]

theorem sortedAlready_iff {keys : List String} (h : keys.Pairwise (precedes · ·)) :
    sortedAlready keys = true
      ↔ "__proto__" ∉ keys ∧ keys.Pairwise (rank · < rank ·) := by
  rw [sortedAlready, decide_eq_true_iff, List.pairwise_filter]
  refine and_congr_right fun _ => ⟨fun hsort => ?_, fun hrank => ?_⟩
  · refine (h.and hsort).imp ?_
    rintro k k' ⟨hp, hle⟩
    have hne : k ≠ k' := by
      rintro rfl
      simp [precedes] at hp
    rcases hk' : arrayIndex k' with _ | n
    · rcases hk : arrayIndex k with _ | m
      · rw [precedes_eq_rank (hle (by simp [hk]) (by simp [hk'])) hne, decide_eq_true_iff] at hp
        exact hp
      · rw [rank, rank, hk, hk']
        exact List.Lex.rel (by decide)
    · rw [precedes_eq_of_index hk' hne, decide_eq_true_iff] at hp
      exact hp
  · refine hrank.imp ?_
    intro k k' hlt hk hk'
    rw [Option.isNone_iff_eq_none] at hk hk'
    rw [rank, rank, hk, hk', List.cons_lt_cons_self] at hlt
    exact hlt.le

omit [JsonNumber ν] in
theorem everyObj_sortedAlready_iff (hv : v.wellFormed = true) : everyObj sortedAlready v = true
    ↔ noProto v = true ∧ everyObj (fun keys => keys.Pairwise (rank · < rank ·)) v = true := by
  have hkeys {q : JsonSchema.Location} {fs : List (String × Json ν)}
      (hq : Json.follow q v = some (.obj fs)) := sortedAlready_iff (by
    simpa using Json.everyObj_follow hv hq)
  constructor
  · intro h
    constructor
    · refine Json.everyObj_of_follow hv fun q fs hq => ?_
      exact decide_eq_true ((hkeys hq).1 (Json.everyObj_follow h hq)).1
    · refine Json.everyObj_of_follow hv fun q fs hq => ?_
      exact decide_eq_true ((hkeys hq).1 (Json.everyObj_follow h hq)).2
  · rintro ⟨hproto, hrank⟩
    refine Json.everyObj_of_follow hv fun q fs hq => (hkeys hq).2 ⟨?_, ?_⟩
    · simpa using Json.everyObj_follow hproto hq
    · simpa using Json.everyObj_follow hrank hq

omit [JsonNumber ν] in
theorem sortedKeys_eq_self_iff (hv : v.wellFormed = true) :
    sortedKeys v = v ↔ everyObj sortedAlready v = true := by
  rw [everyObj_sortedAlready_iff hv]
  constructor
  · intro h
    refine ⟨(same_sortedKeys_iff hv).1 fun q => by rw [h], ?_⟩
    have hsorted := everyObj_sortedKeys hv
    rwa [h] at hsorted
  · rintro ⟨hproto, hrank⟩
    exact Json.eq_of_same (fun _ _ hlt hlt' => lt_asymm hlt hlt') (everyObj_sortedKeys hv) hrank
      ((same_sortedKeys_iff hv).2 hproto)

theorem textDiff_eq_nil_iff {path : String} {b l : JsVal ν} :
    textDiff path b l = [] ↔ stringify b = stringify l := by
  unfold textDiff
  split_ifs with h
  · simp [h]
  · simp [not_not.1 h]

theorem textDiff_ofJson_eq_nil_iff {path : String} {b l : Json ν} :
    textDiff path (ofJson b) (ofJson l) = [] ↔ b = l := by
  rw [textDiff_eq_nil_iff, stringify_ofJson, stringify_ofJson, Option.some.injEq]
  exact ⟨Json.stringify_injective, congrArg Json.stringify⟩

theorem prototypeDiff_obj_eq_nil_iff {path : String} : prototypeDiff path (.obj fs) = []
    ↔ ∀ f ∈ fs, f = ("__proto__", .null) := by
  rw [prototypeDiff, List.flatMap_eq_nil_iff]
  refine forall₂_congr fun f _ => ?_
  obtain ⟨k, v⟩ := f
  rw [Prod.mk.injEq]
  by_cases hk : k = "__proto__"
  · have hvalue : prototypeValue k = some (ofJson (.null : Json ν)) := if_pos hk
    simp only [hvalue, textDiff_ofJson_eq_nil_iff]
    simp [hk]
  · by_cases hi : k ∈ inherited
    · have hvalue : prototypeValue (ν := ν) k = some (.func k) := by
        rw [prototypeValue, if_neg hk, if_pos hi]
      simp only [hvalue, textDiff_eq_nil_iff, stringify_ofJson, hk, false_and, iff_false]
      exact Option.some_ne_none _
    · have hvalue : prototypeValue (ν := ν) k = none := by
        rw [prototypeValue, if_neg hk, if_neg hi]
      simp [hvalue, hk]

theorem prototypeDiff_eq_nil_iff (hv : v.wellFormed = true) {path : String} :
    prototypeDiff path v = [] ↔ likePrototype v = true := by
  cases v with
  | obj fs =>
    have hn := Json.wellFormed_keys hv
    rw [prototypeDiff_obj_eq_nil_iff]
    rcases fs with _ | ⟨⟨k, v⟩, _ | ⟨g, fs⟩⟩
    · simp [likePrototype]
    · cases v <;> simp [likePrototype]
    · -- only one field can be called `__proto__`
      refine ⟨fun h => ?_, fun h => by simp [likePrototype] at h⟩
      have hk := h (k, v) List.mem_cons_self
      have hg := h g (List.mem_cons_of_mem _ List.mem_cons_self)
      simp [hk, hg] at hn
  | _ =>
    have hobj : (JsVal.obj [] : JsVal ν) = ofJson (.obj []) := rfl
    simp only [prototypeDiff, likePrototype, hobj, textDiff_ofJson_eq_nil_iff, reduceCtorEq,
      Bool.false_eq_true]

theorem keysDiff_eq_nil_iff {pre : String} {rest live : List (String × Json ν)}
    (hrest : ∀ f ∈ rest, (live.lookup f.1).isSome) : keysDiff pre rest live = []
      ↔ ∀ f ∈ rest, ∀ lVal, live.lookup f.1 = some lVal →
        valueDiff (fullPath pre f.1) f.2 lVal = [] := by
  induction rest with
  | nil => simp [keysDiff]
  | cons f rest ih =>
    obtain ⟨lVal, hl⟩ := Option.isSome_iff_exists.1 (hrest f List.mem_cons_self)
    rw [keysDiff, List.append_eq_nil_iff, List.forall_mem_cons,
      ih fun g hg => hrest g (List.mem_cons_of_mem _ hg)]
    simp only [hl, Option.some.injEq, forall_eq']

omit [JsonNumber ν] in
theorem mem_assigned (hn : (fs.map Prod.fst).Nodup) {f : String × Json ν} :
    f ∈ assigned fs ↔ ∃ g ∈ fs, g.1 ≠ "__proto__" ∧ (g.1, sortedKeys g.2) = f := by
  rw [(assigned_perm hn).1.mem_iff, List.mem_filter, sortedFields_eq_map, List.mem_map]
  constructor
  · rintro ⟨⟨g, hg, rfl⟩, hne⟩
    exact ⟨g, hg, of_decide_eq_true hne, rfl⟩
  · rintro ⟨g, hg, hne, rfl⟩
    exact ⟨⟨g, hg, rfl⟩, decide_eq_true hne⟩

theorem keysDiff_assigned_eq_nil_iff (hn : (fs.map Prod.fst).Nodup) (path : String) :
    keysDiff path (assigned fs) fs = [] ↔ ∀ f ∈ fs, f.1 ≠ "__proto__" →
      valueDiff (fullPath path f.1) (sortedKeys f.2) f.2 = [] := by
  have hlookup {g : String × Json ν} (hg : g ∈ fs) := (Fields.lookup_eq_some_iff_mem hn).2 hg
  have hall : ∀ f ∈ assigned fs, (fs.lookup f.1).isSome := by
    intro f hf
    obtain ⟨g, hg, -, rfl⟩ := (mem_assigned hn).1 hf
    rw [hlookup hg]
    rfl
  rw [keysDiff_eq_nil_iff hall]
  constructor
  · intro h f hf hne
    exact h (f.1, sortedKeys f.2) ((mem_assigned hn).2 ⟨f, hf, hne, rfl⟩) f.2 (hlookup hf)
  · intro h f hf lVal hl
    obtain ⟨g, hg, hne, rfl⟩ := (mem_assigned hn).1 hf
    obtain rfl : g.2 = lVal := Option.some.inj ((hlookup hg).symm.trans hl)
    exact h g hg hne

theorem liveDiff_assigned_eq_nil_iff (hv : (Json.obj fs).wellFormed = true) (path : String) :
    liveDiff path (assigned fs) fs = []
      ↔ ∀ f ∈ fs, f.1 = "__proto__" → likePrototype f.2 = true := by
  have hn := Json.wellFormed_keys hv
  rw [liveDiff, List.flatMap_eq_nil_iff]
  refine forall₂_congr fun f hf => ?_
  have hlookup := (Fields.lookup_eq_some_iff_mem hn).2 hf
  rw [lookup_assigned hn]
  by_cases hk : f.1 = "__proto__"
  · rw [if_pos hk, Option.isSome_none, if_neg (by decide), List.map_eq_nil_iff, inheritedDiff,
      if_pos hk, prototypeDiff_eq_nil_iff (Json.wellFormed_of_lookup hv hlookup)]
    exact ⟨fun h _ => h, fun h => h hk⟩
  · rw [if_neg hk, hlookup]
    simp [hk]

mutual

theorem valueDiff_sortedKeys_eq_nil_iff : ∀ (v : Json ν) (path : String), v.wellFormed = true →
    (valueDiff path (sortedKeys v) v = [] ↔ settled v = true)
  | .null, path, _ => by simp [sortedKeys, valueDiff, textDiff_self, settled]
  | .bool _, path, _ => by simp [sortedKeys, valueDiff, textDiff_self, settled]
  | .num _, path, _ => by simp [sortedKeys, valueDiff, textDiff_self, settled]
  | .str _, path, _ => by simp [sortedKeys, valueDiff, textDiff_self, settled]
  | .arr xs, path, hv => by
    have hself := sortedKeys_eq_self_iff hv
    rw [sortedKeys] at hself ⊢
    rw [valueDiff, textDiff_ofJson_eq_nil_iff, hself]
    rfl
  | .obj fs, path, hv => by
    have hn := Json.wellFormed_keys hv
    have hlive := liveDiff_assigned_eq_nil_iff hv path
    rw [Json.wellFormed, everyObj, Bool.and_eq_true] at hv
    rw [sortedKeys_obj, valueDiff, List.append_eq_nil_iff, keysDiff_assigned_eq_nil_iff hn, hlive,
      settled, settledFields_iff, ← forall₂_and]
    refine forall₂_congr fun f hf => ?_
    by_cases hk : f.1 = "__proto__"
    · simp [hk]
    · simp [hk, valueDiff_sortedFields_eq_nil_iff fs hv.2 f hf]

theorem valueDiff_sortedFields_eq_nil_iff : ∀ (fs : List (String × Json ν)),
    everyField (fun keys => keys.Pairwise (precedes · ·)) fs = true → ∀ f ∈ fs, ∀ path : String,
    (valueDiff path (sortedKeys f.2) f.2 = [] ↔ settled f.2 = true)
  | (k, v) :: fs, h, f, hf, path => by
    rw [everyField, Bool.and_eq_true] at h
    rcases List.mem_cons.1 hf with he | hf
    · rw [he]
      exact valueDiff_sortedKeys_eq_nil_iff v path h.1
    · exact valueDiff_sortedFields_eq_nil_iff fs h.2 f hf path

end

end Baseline

section Claim

variable {μ : Type*} [ReadableNumber μ] (parseMessage : String → String)

/-- The configuration has not drifted from the baseline that is captured of it, and no alert is
dispatched. -/
def NoPhantomDrift (c : JsonObject μ) : Prop :=
  ∃ text baseline, serializeBaseline c.json = .ok text
    ∧ deserializeBaseline parseMessage (.str text) = .ok (.obj baseline)
    ∧ deepDiff baseline c.fields "" = []
    ∧ ∀ baselineId detectedAt, dispatched baselineId detectedAt baseline c.fields = none

theorem deserializeBaseline_assigned (c : JsonObject μ) :
    deserializeBaseline parseMessage (.str (sortedKeys c.json).stringify)
      = .ok (.obj (assigned c.fields)) := deserializeBaseline_serialized parseMessage c

variable {parseMessage}

theorem NoPhantomDrift.settled {c : JsonObject μ} (h : NoPhantomDrift parseMessage c) :
    settled c.json = true := by
  obtain ⟨text, baseline, htext, hbaseline, hnone, -⟩ := h
  rw [serializeBaseline_json, Except.ok.injEq] at htext
  rw [← htext, deserializeBaseline_assigned, Except.ok.injEq, Json.obj.injEq] at hbaseline
  rw [← hbaseline] at hnone
  exact (valueDiff_sortedKeys_eq_nil_iff c.json "" c.wellFormed_json).1 hnone

variable (parseMessage)

/-- It has not if the objects in its arrays have their keys sorted already. -/
theorem noPhantomDrift_iff (c : JsonObject μ) :
    NoPhantomDrift parseMessage c ↔ settled c.json = true := by
  refine ⟨fun h => h.settled, fun h => ?_⟩
  have hnone : deepDiff (assigned c.fields) c.fields "" = [] :=
    (valueDiff_sortedKeys_eq_nil_iff c.json "" c.wellFormed_json).2 h
  refine ⟨_, assigned c.fields, serializeBaseline_json c, deserializeBaseline_assigned parseMessage c,
    hnone, fun baselineId detectedAt => ?_⟩
  rw [dispatched, hnone]
  rfl

/-- `{ tls: [{ key: 1, cert: 2 }] }`. -/
def listed : JsonObject ℕ :=
  ⟨[("tls", .arr [.obj [("key", .num 1), ("cert", .num 2)]])], by decide⟩

theorem phantomDrift_listed : ¬ NoPhantomDrift (fun _ => "") listed := by
  intro h
  exact absurd h.settled (by decide)

end Claim

end DeepDiff

end VeriNode
