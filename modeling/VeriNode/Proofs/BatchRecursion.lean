import Mathlib.Logic.Relation
import VeriNode.Lib.JsNumber
import VeriNode.Proofs.BatchValidator

/-!
# When the recursion on a batch ends

A batch above the limit is cut into as many parts as there are to work in parallel. Of two parts or
more each is shorter than the batch, but for a batch of one entry, which is above a limit of zero
alone; in one part, or in none, the batch is its own part, and the recursion does not end
(`ends_iff`).
-/

namespace VeriNode

namespace Attestation

variable {α : Type} {verify : List α → Bool} {o : Options} {batch b part : List α}

section Property

/-- An array of the language. -/
abbrev JsArray (α : Type) : Type := {l : List α // l.length < 2 ^ 32}

/-- An integer that is not negative, among the finite numbers of the language. -/
abbrev Count : Type := {n : ℕ // n < 2 ^ 1024}

theorem lt_two_pow_of_lt {n e : ℕ} (h : n < 2 ^ 32) (he : 32 ≤ e) : n < 2 ^ e :=
  h.trans_le (Nat.pow_le_pow_right Nat.two_pos he)

/-- The length of an array. -/
def Count.ofLength (n : ℕ) (h : n < 2 ^ 32) : Count := ⟨n, lt_two_pow_of_lt h (by decide)⟩

/-- `validateBatch` of a batch calls itself on the part. -/
def Recurs (o : Options) (batch part : List α) : Prop :=
  batch.length ≠ 0 ∧ o.maxBatchSize.lt (.ofNat batch.length) = true
    ∧ ∃ parts, partitionBatch Double.divide batch o.parallelism = some parts ∧ part ∈ parts

/-- There is an answer, and each call on the way is on a shorter batch or on one that is not cut. -/
structure Ends (verify : List α → Bool) (o : Options) (batch : List α) : Prop where
  answers : ∃ depth result, validateCurve verify Double.divide o depth batch = some result
  shrinks : ∀ b part, Relation.ReflTransGen (Recurs o) batch b → Recurs o b part →
    part.length < b.length ∨ (JsNumber.ofNat part.length).le o.maxBatchSize = true

/-- The options of a validator that is given some of them. -/
def optionsOf (maxBatchSize parallelism : Option Count) (cpus : Count) : Options :=
  Options.new (maxBatchSize.map fun n => .ofNat n) (parallelism.map fun n => .ofNat n) cpus

end Property

section Parts

theorem length_le_chunks {c : ℕ} (hc : 0 < c) (n : ℕ) : n ≤ (n + c - 1) / c * c := by
  have hdiv := Nat.div_add_mod (n + c - 1) c
  have hmod := Nat.mod_lt (n + c - 1) hc
  rw [Nat.mul_comm] at hdiv
  omega

theorem chunk_lt {c k n : ℕ} (hc : 0 < c) (hk : k < (n + c - 1) / c) : k * c < n := by
  have hle : (k + 1) * c ≤ n + c - 1 :=
    (Nat.mul_le_mul_right c hk).trans (Nat.div_mul_le_self _ _)
  rw [Nat.succ_mul] at hle
  omega

theorem partitionBatch_of_pos {n : JsNumber} {r : ℚ} (hr : 0 < r)
    (hdivide : Double.divide batch.length n = .fin r) :
    partitionBatch Double.divide batch n
      = some ((List.range ((batch.length + ⌈r⌉.toNat - 1) / ⌈r⌉.toNat)).map fun k =>
        (batch.drop (k * ⌈r⌉.toNat)).take ⌈r⌉.toNat) := by
  have hpos : ¬ ((⌈r⌉ : ℤ) : ℚ) ≤ 0 := by
    rw [Int.cast_nonpos, not_le]
    exact Int.ceil_pos.2 hr
  unfold partitionBatch
  rw [hdivide, ceil]
  dsimp only
  rw [if_neg hpos, Int.ceil_intCast]

theorem partitionBatch_of_two_le {p : ℚ} (hp : 2 ≤ p) (hp' : p < 2 ^ 1024)
    (hpos : 0 < batch.length) (hlen : batch.length < 2 ^ 32) :
    ∃ parts, partitionBatch Double.divide batch (.fin p) = some parts ∧ parts.flatten = batch
      ∧ ∀ part ∈ parts, part ≠ [] ∧ 2 * part.length ≤ batch.length + 1 := by
  obtain ⟨r, hdivide, hr, hhalf⟩ := Double.divide_of_two_le hpos hlen hp hp'
  have hceil : 2 * ⌈r⌉ ≤ batch.length + 1 := by
    have hlt : (⌈r⌉ : ℚ) < batch.length / 2 + 1 := (Int.ceil_lt_add_one r).trans_le (by linarith)
    have hlt' : 2 * (⌈r⌉ : ℚ) < batch.length + 2 := by linarith
    exact Int.lt_add_one_iff.1 (by exact_mod_cast hlt')
  have hpos' : 0 < ⌈r⌉ := Int.ceil_pos.2 hr
  have hc : 0 < ⌈r⌉.toNat := by omega
  refine ⟨_, partitionBatch_of_pos hr hdivide, ?_, fun part hpart => ?_⟩
  · rw [Pieces.flatten_pieces]
    exact List.take_of_length_le (length_le_chunks hc _)
  · obtain ⟨k, hk, rfl⟩ := List.mem_map.1 hpart
    have hlt := chunk_lt hc (List.mem_range.1 hk)
    rw [← List.length_pos_iff, List.length_take, List.length_drop]
    omega

theorem partitionBatch_of_le_one {p : ℕ} (hp : p ≤ 1) (hpos : 0 < batch.length)
    (hlen : batch.length < 2 ^ 32) :
    partitionBatch Double.divide batch (.ofNat p) = some [batch] := by
  rcases Nat.le_one_iff_eq_zero_or_eq_one.1 hp with rfl | rfl
  · have hdivide : Double.divide batch.length (.ofNat 0) = .posInf := by
      rw [JsNumber.ofNat, Nat.cast_zero]
      exact Double.divide_zero hpos
    unfold partitionBatch
    rw [hdivide]
    rfl
  · have hdivide : Double.divide batch.length (.ofNat 1) = .fin batch.length := by
      rw [JsNumber.ofNat, Nat.cast_one]
      exact Double.divide_one hpos hlen
    have hchunks : (batch.length + batch.length - 1) / batch.length = 1 :=
      Nat.div_eq_of_lt_le (by omega) (by omega)
    rw [partitionBatch_of_pos (Nat.cast_pos.2 hpos) hdivide, Int.ceil_natCast, Int.toNat_natCast,
      hchunks]
    simp

end Parts

section Ending

/-- A limit of one or more, and two parts or more. -/
structure Splits (o : Options) : Prop where
  size : (1 : JsNumber).le o.maxBatchSize = true
  parts : ∃ p : ℚ, o.parallelism = .fin p ∧ 2 ≤ p ∧ p < 2 ^ 1024

theorem one_lt_of_lt {a : JsNumber} {n : ℕ} (hle : (1 : JsNumber).le a = true)
    (hlt : a.lt (.ofNat n) = true) : 1 < n := by
  rw [JsNumber.ofNat_eq, JsNumber.ofNat] at hle
  cases a with
  | nan => cases hlt
  | negInf => cases hle
  | posInf => cases hlt
  | fin q =>
    rw [JsNumber.le_fin] at hle
    have hlt' : q < n := of_decide_eq_true hlt
    exact_mod_cast hle.trans_lt hlt'

theorem Splits.partition (ho : Splits o) (hlen : batch.length < 2 ^ 32)
    (hcut : o.maxBatchSize.lt (.ofNat batch.length) = true) :
    ∃ parts, partitionBatch Double.divide batch o.parallelism = some parts
      ∧ parts.flatten = batch ∧ ∀ part ∈ parts, part.length < batch.length := by
  obtain ⟨p, hp, htwo, hfinite⟩ := ho.parts
  have hone := one_lt_of_lt ho.size hcut
  obtain ⟨parts, hparts, hflatten, hspec⟩ := partitionBatch_of_two_le htwo hfinite (by omega) hlen
  refine ⟨parts, hp ▸ hparts, hflatten, fun part hpart => ?_⟩
  have hhalf := (hspec part hpart).2
  omega

theorem exists_mapM_leaves {divide : ℕ → JsNumber → JsNumber} : ∀ {parts : List (List α)},
    (∀ part ∈ parts, ∃ depth ls, leaves divide o depth part = some ls ∧ ls.flatten = part) →
    ∃ depth lss, parts.mapM (leaves divide o depth) = some lss
      ∧ lss.flatten.flatten = parts.flatten
  | [], _ => ⟨0, [], rfl, rfl⟩
  | part :: parts, h => by
    obtain ⟨depth, ls, hls, hflatten⟩ := h part List.mem_cons_self
    obtain ⟨depth', lss, hlss, hflatten'⟩ :=
      exists_mapM_leaves fun part hpart => h part (List.mem_cons_of_mem _ hpart)
    refine ⟨max depth depth', ls :: lss, ?_, ?_⟩
    · rw [List.mapM_cons, leaves_of_le (le_max_left _ _) hls,
        mapM_of_le (fun _ _ => leaves_of_le (le_max_right _ _)) hlss]
      rfl
    · rw [List.flatten_cons, List.flatten_append, hflatten, hflatten', List.flatten_cons]

theorem Splits.exists_leaves (ho : Splits o) : ∀ {n : ℕ} {batch : List α}, batch.length ≤ n →
    batch.length < 2 ^ 32 → ∃ depth ls, leaves Double.divide o depth batch = some ls
      ∧ ls.flatten = batch := by
  intro n
  induction n with
  | zero =>
    intro batch hle _
    obtain rfl : batch = [] := List.length_eq_zero_iff.1 (Nat.le_zero.1 hle)
    exact ⟨1, [], rfl, rfl⟩
  | succ n ih =>
    intro batch hle hlen
    by_cases hempty : batch.length = 0
    · obtain rfl : batch = [] := List.length_eq_zero_iff.1 hempty
      exact ⟨1, [], rfl, rfl⟩
    · by_cases hcut : o.maxBatchSize.lt (.ofNat batch.length) = true
      · obtain ⟨parts, hparts, hflatten, hshorter⟩ := ho.partition hlen hcut
        obtain ⟨depth, lss, hlss, hall⟩ := exists_mapM_leaves fun part hpart => by
          have hlt := hshorter part hpart
          exact ih (by omega) (by omega)
        refine ⟨depth + 1, lss.flatten, ?_, hall.trans hflatten⟩
        rw [leaves, if_neg hempty, if_pos hcut, hparts]
        dsimp only
        rw [hlss, Option.map_some]
      · refine ⟨1, [batch], ?_, by simp⟩
        rw [leaves, if_neg hempty, if_neg hcut]

theorem Splits.recurs_shorter (ho : Splits o) (hlen : b.length < 2 ^ 32) (h : Recurs o b part) :
    part.length < b.length := by
  obtain ⟨-, hcut, parts, hparts, hpart⟩ := h
  obtain ⟨parts', hparts', -, hshorter⟩ := ho.partition hlen hcut
  obtain rfl := Option.some.inj (hparts.symm.trans hparts')
  exact hshorter part hpart

theorem Splits.reaches_shorter (ho : Splits o) (hlen : batch.length < 2 ^ 32)
    (h : Relation.ReflTransGen (Recurs o) batch b) : b.length ≤ batch.length := by
  induction h with
  | refl => exact Nat.le_refl _
  | tail _ hrecurs ih => exact (ho.recurs_shorter (by omega) hrecurs).le.trans ih

theorem Splits.ends (ho : Splits o) (hlen : batch.length < 2 ^ 32) : Ends verify o batch where
  answers := by
    obtain ⟨depth, ls, hls, -⟩ := ho.exists_leaves (Nat.le_refl _) hlen
    exact ⟨depth, answerOf verify ls, by rw [validateCurve_eq, hls, Option.map_some]⟩
  shrinks b part hreach hrecurs :=
    .inl (ho.recurs_shorter ((ho.reaches_shorter hlen hreach).trans_lt hlen) hrecurs)

theorem ends_of_not_cut (h : o.maxBatchSize.lt (.ofNat batch.length) = false) :
    Ends verify o batch where
  answers := by
    rw [← Bool.not_eq_true] at h
    by_cases hempty : batch.length = 0
    · exact ⟨1, _, by rw [validateCurve]; exact if_pos hempty⟩
    · exact ⟨1, _, by rw [validateCurve]; exact (if_neg hempty).trans (if_neg h)⟩
  shrinks b part hreach hrecurs := by
    rcases hreach.cases_head with rfl | ⟨_, hrecurs', -⟩
    · exact absurd (h.symm.trans hrecurs.2.1) Bool.false_ne_true
    · exact absurd (h.symm.trans hrecurs'.2.1) Bool.false_ne_true

end Ending

section Endless

theorem mapM_eq_none {β γ : Type} {f : β → Option γ} {x : β} (hx : f x = none) :
    ∀ {l : List β}, x ∈ l → l.mapM f = none
  | y :: l, h => by
    rw [List.mapM_cons]
    rcases List.mem_cons.1 h with rfl | h
    · rw [hx]
      rfl
    · rw [mapM_eq_none hx h]
      cases f y <;> rfl

theorem validateCurve_endless {P : List α → Prop}
    (hP : ∀ b, P b → b.length ≠ 0 ∧ o.maxBatchSize.lt (.ofNat b.length) = true
      ∧ ∃ parts, partitionBatch Double.divide b o.parallelism = some parts ∧ ∃ part ∈ parts, P part) :
    ∀ (depth : ℕ) {b : List α}, P b → validateCurve verify Double.divide o depth b = none
  | 0, _, _ => rfl
  | depth + 1, b, hb => by
    obtain ⟨hempty, hcut, parts, hparts, part, hpart, hp⟩ := hP b hb
    rw [validateCurve]
    dsimp only
    rw [if_neg hempty, if_pos hcut, hparts]
    dsimp only
    rw [mapM_eq_none (validateCurve_endless hP depth hp) hpart, Option.map_none]

theorem not_ends {P : List α → Prop} (hP : ∀ b, P b → b.length ≠ 0
      ∧ o.maxBatchSize.lt (.ofNat b.length) = true
      ∧ ∃ parts, partitionBatch Double.divide b o.parallelism = some parts ∧ ∃ part ∈ parts, P part)
    (h : P batch) : ¬ Ends verify o batch := by
  rintro ⟨⟨depth, result, hresult⟩, -⟩
  rw [validateCurve_endless hP depth h] at hresult
  cases hresult

theorem not_ends_of_le_one {maxBatchSize p : ℕ} (hp : p ≤ 1) (hlt : maxBatchSize < batch.length)
    (hlen : batch.length < 2 ^ 32) :
    ¬ Ends verify ⟨.ofNat maxBatchSize, .ofNat p⟩ batch := by
  refine not_ends (P := (· = batch)) ?_ rfl
  rintro b rfl
  have hpos : 0 < b.length := by omega
  exact ⟨hpos.ne', JsNumber.lt_ofNat.2 hlt, [b], partitionBatch_of_le_one hp hpos hlen, b,
    List.mem_singleton_self b, rfl⟩

theorem not_ends_of_zero {p : ℕ} (hp : 2 ≤ p) (hp' : p < 2 ^ 1024) (hpos : 0 < batch.length)
    (hlen : batch.length < 2 ^ 32) : ¬ Ends verify ⟨.ofNat 0, .ofNat p⟩ batch := by
  refine not_ends (P := fun b => 0 < b.length ∧ b.length < 2 ^ 32) ?_ ⟨hpos, hlen⟩
  rintro b ⟨hpos, hlen⟩
  obtain ⟨parts, hparts, hflatten, hspec⟩ := partitionBatch_of_two_le (p := p)
    (by exact_mod_cast hp) (by exact_mod_cast hp') hpos hlen
  obtain ⟨part, rest, rfl⟩ := List.exists_cons_of_ne_nil
    (show parts ≠ [] by rintro rfl; simp [← hflatten] at hpos)
  obtain ⟨hne, hhalf⟩ := hspec part List.mem_cons_self
  exact ⟨hpos.ne', JsNumber.lt_ofNat.2 hpos, _, hparts, part, List.mem_cons_self,
    List.length_pos_iff.2 hne, by omega⟩

end Endless

theorem optionsOf_eq (maxBatchSize parallelism : Option Count) (cpus : Count) :
    optionsOf maxBatchSize parallelism cpus
      = ⟨.ofNat (maxBatchSize.elim 512 (·.1)), .ofNat (parallelism.getD cpus).1⟩ := by
  cases maxBatchSize <;> cases parallelism <;> rfl

/-- The validation of a batch ends if the batch is within the limit, or if the limit is one or more
and there are two parts or more. -/
theorem ends_iff (verify : List α → Bool) (batch : JsArray α) (maxBatchSize parallelism : Option Count)
    (cpus : Count) :
    Ends verify (optionsOf maxBatchSize parallelism cpus) batch.1
      ↔ batch.1.length ≤ maxBatchSize.elim 512 (·.1)
        ∨ 1 ≤ maxBatchSize.elim 512 (·.1) ∧ 2 ≤ (parallelism.getD cpus).1 := by
  obtain ⟨batch, hlen⟩ := batch
  rw [optionsOf_eq]
  generalize maxBatchSize.elim 512 (·.1) = limit
  obtain ⟨p, hp⟩ := parallelism.getD cpus
  dsimp only
  constructor
  · intro hends
    by_contra hcond
    rw [not_or, Nat.not_le] at hcond
    obtain ⟨hlt, hsmall⟩ := hcond
    rcases Nat.lt_or_ge p 2 with hone | htwo
    · exact not_ends_of_le_one (Nat.le_of_lt_succ hone) hlt hlen hends
    · obtain rfl : limit = 0 := by omega
      exact not_ends_of_zero htwo hp hlt hlen hends
  · rintro (hle | ⟨hone, htwo⟩)
    · refine ends_of_not_cut (Bool.eq_false_iff.2 fun hcut => ?_)
      exact Nat.not_lt.2 hle (JsNumber.lt_ofNat.1 hcut)
    · refine Splits.ends ⟨JsNumber.le_ofNat.2 hone, p, rfl, ?_, ?_⟩ hlen
      · exact_mod_cast htwo
      · exact_mod_cast hp

/-- Default options on one processor, and a batch of one entry more than the limit. -/
theorem not_ends_one_cpu : ¬ Ends (verifyBatchEd25519 fun _ _ _ => .ok true)
    (optionsOf none none (.ofLength 1 (by decide)))
    (List.replicate 513 (⟨.text "vote", (), ()⟩ : SignedMessage Unit Unit)) := by
  rw [optionsOf_eq]
  refine not_ends_of_le_one (Nat.le_refl 1) ?_ ?_
  · rw [List.length_replicate]
    exact Nat.lt_succ_self 512
  · rw [List.length_replicate]
    norm_num

end Attestation

end VeriNode

/-!
# Batches of Ed25519 signatures

The check of a batch is the conjunction of the checks of its triples, so that it does not matter how
the batch is cut: the answer is whether all triples verify (`ed25519_agrees`). The counts are of whole
sub-batches, and so below those of the triples.
-/

namespace VeriNode

namespace Attestation

section Answers

variable {α : Type} {p : α → Bool} {verify : List α → Bool}

theorem verified_add_failed (verify : List α → Bool) (ls : List (List α)) :
    (answerOf verify ls).verified + (answerOf verify ls).failed = ls.flatten.length := by
  induction ls with
  | nil => rfl
  | cons l ls ih =>
    simp only [answerOf, List.map_cons, List.sum_cons, List.flatten_cons, List.length_append] at ih ⊢
    rw [← ih]
    split_ifs <;> omega

theorem verified_le_countP (h : ∀ l, verify l = true → ∀ x ∈ l, p x = true) (ls : List (List α)) :
    (answerOf verify ls).verified ≤ ls.flatten.countP p := by
  induction ls with
  | nil => exact Nat.le_refl 0
  | cons l ls ih =>
    simp only [answerOf, List.map_cons, List.sum_cons, List.flatten_cons, List.countP_append] at ih ⊢
    refine Nat.add_le_add ?_ ih
    split_ifs with hl
    · exact (List.countP_eq_length.2 (h l hl)).ge
    · exact Nat.zero_le _

end Answers

variable {G K : Type} {verify : G → List UInt8 → K → Except String Bool} {o o' : Options}

section Property

variable (verify)

/-- The triple verifies on its own. -/
def verifiesAlone (sm : SignedMessage G K) : Bool :=
  verifies verify sm.signature sm.message.buffer sm.publicKey

/-- The answer to a batch, whatever the depth at which there is one. -/
def AnswersEd25519 (o : Options) (batch : List (SignedMessage G K)) (result : BatchResult) : Prop :=
  ∃ depth, validateBatchEd25519 verify Double.divide o depth batch = some result

/-- There is an answer, and an answer is what the triples on their own say. -/
structure AgreesWithSingles (o : Options) (batch : List (SignedMessage G K)) : Prop where
  answers : ∃ result, AnswersEd25519 verify o batch result
  valid : ∀ result, AnswersEd25519 verify o batch result →
    (result.valid = true ↔ ∀ sm ∈ batch, verifiesAlone verify sm = true)
  total : ∀ result, AnswersEd25519 verify o batch result →
    result.verified + result.failed = batch.length
  verified : ∀ result, AnswersEd25519 verify o batch result →
    result.verified ≤ batch.countP (verifiesAlone verify)

end Property

section Batches

theorem verifyBatchEd25519_eq (batch : List (SignedMessage G K)) :
    verifyBatchEd25519 verify batch = batch.all (verifiesAlone verify) := by
  unfold verifyBatchEd25519 verifyEd25519Batch
  simp only [List.length_map, ne_eq, not_true_eq_false, or_false, if_false]
  by_cases hempty : batch.length = 0
  · obtain rfl := List.length_eq_zero_iff.1 hempty
    rfl
  · rw [if_neg hempty]
    dsimp only
    rw [List.zip_map', List.zip_map', List.map_map, List.all_map]
    rfl

theorem Splits.answers_iff (verify : G → List UInt8 → K → Except String Bool) (ho : Splits o)
    {batch : List (SignedMessage G K)} (hlen : batch.length < 2 ^ 32) :
    ∃ ls : List (List (SignedMessage G K)), ls.flatten = batch
      ∧ ∀ result, AnswersEd25519 verify o batch result
        ↔ result = answerOf (verifyBatchEd25519 verify) ls := by
  obtain ⟨depth, ls, hls, hflatten⟩ := ho.exists_leaves (Nat.le_refl _) hlen
  refine ⟨ls, hflatten, fun result => ⟨?_, ?_⟩⟩
  · rintro ⟨depth', h⟩
    rw [validateBatchEd25519, validateCurve_eq] at h
    obtain ⟨ls', hls', rfl⟩ := Option.map_eq_some_iff.1 h
    rw [leaves_unique hls' hls]
  · rintro rfl
    exact ⟨depth, by rw [validateBatchEd25519, validateCurve_eq, hls, Option.map_some]⟩

theorem Splits.agrees (ho : Splits o) {batch : List (SignedMessage G K)}
    (hlen : batch.length < 2 ^ 32) : AgreesWithSingles verify o batch := by
  obtain ⟨ls, rfl, hanswers⟩ := ho.answers_iff verify hlen
  have hall : ∀ l, verifyBatchEd25519 verify l = true → ∀ sm ∈ l, verifiesAlone verify sm = true := by
    intro l hl
    rwa [verifyBatchEd25519_eq, List.all_eq_true] at hl
  refine ⟨⟨_, (hanswers _).2 rfl⟩, fun result h => ?_, fun result h => ?_, fun result h => ?_⟩
  · rw [(hanswers result).1 h]
    simp only [answerOf, List.all_eq_true, verifyBatchEd25519_eq, List.mem_flatten]
    constructor
    · rintro hl sm ⟨l, hmem, hsm⟩
      exact hl l hmem sm hsm
    · exact fun hsm l hl sm hmem => hsm sm ⟨l, hl, hmem⟩
  · rw [(hanswers result).1 h]
    exact verified_add_failed _ ls
  · rw [(hanswers result).1 h]
    exact verified_le_countP hall ls

end Batches

end Attestation

end VeriNode
