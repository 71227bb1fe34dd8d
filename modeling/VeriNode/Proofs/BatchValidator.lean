import VeriNode.Attestation.BatchValidator
import VeriNode.Lib.Pieces
import Mathlib.Algebra.BigOperators.Group.List.Basic
import Mathlib.Algebra.Module.Basic
import Mathlib.Algebra.Module.BigOperators
import Mathlib.Data.Nat.Cast.Order.Field

/-!
# What the check of a batch says

A batch is cut into sub-batches (`subBatches`), and of each the sum of the signatures is checked
against the sum of the keys and the first message. So a message that is not the first of a sub-batch
is not looked at, and the check is right exactly where no key but the first has a secret.
-/

namespace VeriNode

namespace Attestation

section Cutting

variable {α β : Type} {divide : ℕ → JsNumber → JsNumber} {o : Options} {n : JsNumber}

theorem partitionBatch_map (f : α → β) (batch : List α) :
    partitionBatch divide (batch.map f) n
      = (partitionBatch divide batch n).map fun parts => parts.map (List.map f) := by
  unfold partitionBatch
  rw [List.length_map]
  split
  · split_ifs
    · rfl
    · simp [List.map_take, List.map_drop]
  · rfl
  · rfl
  · rfl

theorem partitionBatch_sublist {batch : List α} {parts : List (List α)}
    (h : partitionBatch divide batch n = some parts) : parts.flatten.Sublist batch := by
  unfold partitionBatch at h
  split at h
  · split_ifs at h
    cases h
    rw [Pieces.flatten_pieces]
    exact List.take_sublist _ _
  · cases h
    simp
  · cases h
    simp
  · cases h

/-- The sub-batches that are checked, up to a depth of the recursion. -/
def leaves (divide : ℕ → JsNumber → JsNumber) (o : Options) :
    ℕ → List α → Option (List (List α))
  | 0, _ => none
  | depth + 1, batch =>
    if batch.length = 0 then some []
    else if o.maxBatchSize.lt (.ofNat batch.length) then
      match partitionBatch divide batch o.parallelism with
      | none => none
      | some parts => (parts.mapM (leaves divide o depth)).map List.flatten
    else some [batch]

theorem mapM_map_option {γ δ : Type} (f : α → Option β) (g : γ → Option δ) (k : γ → α) (e : δ → β)
    (h : ∀ x, f (k x) = (g x).map e) : ∀ l : List γ, (l.map k).mapM f = (l.mapM g).map (List.map e)
  | [] => rfl
  | x :: l => by
    rw [List.map_cons, List.mapM_cons, List.mapM_cons, h, mapM_map_option f g k e h l]
    cases g x with
    | none => rfl
    | some y => cases l.mapM g <;> rfl

theorem leaves_map (divide : ℕ → JsNumber → JsNumber) (o : Options) (f : α → β) :
    ∀ (depth : ℕ) (batch : List α),
    leaves divide o depth (batch.map f)
      = (leaves divide o depth batch).map fun ls => ls.map (List.map f)
  | 0, _ => rfl
  | depth + 1, batch => by
    simp only [leaves, List.length_map, partitionBatch_map]
    split_ifs
    · rfl
    · cases partitionBatch divide batch o.parallelism with
      | none => rfl
      | some parts =>
        simp only [Option.map_some]
        rw [mapM_map_option _ _ _ _ (leaves_map divide o f depth)]
        cases parts.mapM (leaves divide o depth) with
        | none => rfl
        | some lss => simp [List.map_flatten]
    · rfl

theorem mapM_of_le {f g : α → Option β} (h : ∀ x y, f x = some y → g x = some y) :
    ∀ {l : List α} {ys : List β}, l.mapM f = some ys → l.mapM g = some ys
  | [], _, hl => hl
  | x :: l, ys, hl => by
    rw [List.mapM_cons] at hl ⊢
    cases hx : f x with
    | none =>
      rw [hx] at hl
      cases hl
    | some y =>
      cases hr : l.mapM f with
      | none =>
        rw [hx, hr] at hl
        cases hl
      | some rest =>
        rw [hx, hr] at hl
        rw [h x y hx, mapM_of_le h hr]
        exact hl

theorem leaves_succ : ∀ {depth : ℕ} {batch : List α} {ls : List (List α)},
    leaves divide o depth batch = some ls → leaves divide o (depth + 1) batch = some ls
  | 0, _, _, h => by cases h
  | depth + 1, batch, ls, h => by
    rw [leaves] at h ⊢
    split_ifs at h ⊢
    · exact h
    · cases hparts : partitionBatch divide batch o.parallelism with
      | none =>
        rw [hparts] at h
        cases h
      | some parts =>
        rw [hparts] at h
        obtain ⟨lss, hlss, rfl⟩ := Option.map_eq_some_iff.1 h
        simp only
        rw [mapM_of_le (fun _ _ => leaves_succ) hlss]
        rfl
    · exact h

theorem leaves_of_le {depth depth' : ℕ} {batch : List α} {ls : List (List α)}
    (hle : depth ≤ depth') (h : leaves divide o depth batch = some ls) :
    leaves divide o depth' batch = some ls := by
  induction hle with
  | refl => exact h
  | step _ ih => exact leaves_succ ih

theorem leaves_unique {depth depth' : ℕ} {batch : List α} {ls ls' : List (List α)}
    (h : leaves divide o depth batch = some ls) (h' : leaves divide o depth' batch = some ls') :
    ls = ls' :=
  Option.some.inj ((leaves_of_le (le_max_left _ _) h).symm.trans
    (leaves_of_le (le_max_right _ _) h'))

theorem leaves_spec : ∀ {depth : ℕ} {batch : List α} {ls : List (List α)},
    leaves divide o depth batch = some ls → ls.flatten.Sublist batch ∧ ∀ l ∈ ls, l ≠ []
  | 0, _, _, h => by cases h
  | depth + 1, batch, ls, h => by
    simp only [leaves] at h
    split_ifs at h with hlen hmax
    · cases h
      simp
    · split at h
      · cases h
      · rename_i parts hparts
        obtain ⟨lss, hlss, rfl⟩ := Option.map_eq_some_iff.1 h
        have hall : ∀ {parts : List (List α)} {lss : List (List (List α))},
            parts.mapM (leaves divide o depth) = some lss →
            lss.flatten.flatten.Sublist parts.flatten ∧ ∀ l ∈ lss.flatten, l ≠ [] := by
          intro parts
          induction parts with
          | nil =>
            intro lss h
            cases h
            simp
          | cons part parts ih =>
            intro lss h
            rw [List.mapM_cons] at h
            cases hp : leaves divide o depth part with
            | none =>
              rw [hp] at h
              cases h
            | some ls =>
              cases hr : parts.mapM (leaves divide o depth) with
              | none =>
                rw [hp, hr] at h
                cases h
              | some rest =>
                rw [hp, hr] at h
                cases h
                obtain ⟨hsub, hne⟩ := leaves_spec hp
                obtain ⟨hsub', hne'⟩ := ih hr
                simp only [List.flatten_cons, List.flatten_append]
                refine ⟨hsub.append hsub', fun l hl => ?_⟩
                exact (List.mem_append.1 hl).elim (hne l) (hne' l)
        obtain ⟨hsub, hne⟩ := hall hlss
        exact ⟨hsub.trans (partitionBatch_sublist hparts), hne⟩
    · cases h
      refine ⟨by simp, fun l hl => ?_⟩
      rw [List.mem_singleton.1 hl]
      exact fun he => hlen (by rw [he]; rfl)

end Cutting

section Answers

variable {α : Type} {verify : List α → Bool} {divide : ℕ → JsNumber → JsNumber} {o : Options}

/-- The answer of a validation, by its sub-batches. -/
def answerOf (verify : List α → Bool) (ls : List (List α)) : BatchResult where
  valid := ls.all verify
  verified := (ls.map fun l => if verify l then l.length else 0).sum
  failed := (ls.map fun l => if verify l then 0 else l.length).sum

theorem answerOf_flatten (verify : List α → Bool) (lss : List (List (List α))) :
    answerOf verify lss.flatten
      = { valid := (lss.map (answerOf verify)).all BatchResult.valid
          verified := ((lss.map (answerOf verify)).map BatchResult.verified).sum
          failed := ((lss.map (answerOf verify)).map BatchResult.failed).sum } := by
  induction lss with
  | nil => rfl
  | cons ls lss ih =>
    have happend : ∀ l l' : List (List α), answerOf verify (l ++ l')
        = { valid := (answerOf verify l).valid && (answerOf verify l').valid
            verified := (answerOf verify l).verified + (answerOf verify l').verified
            failed := (answerOf verify l).failed + (answerOf verify l').failed } := fun l l' => by
      simp [answerOf]
    rw [List.flatten_cons, happend, ih]
    simp

theorem validateCurve_eq (verify : List α → Bool) : ∀ (depth : ℕ) (batch : List α),
    validateCurve verify divide o depth batch
      = (leaves divide o depth batch).map (answerOf verify)
  | 0, _ => rfl
  | depth + 1, batch => by
    simp only [validateCurve, leaves]
    split_ifs with hlen hmax hv
    · rfl
    · cases partitionBatch divide batch o.parallelism with
      | none => rfl
      | some parts =>
        have hall := mapM_map_option (validateCurve verify divide o depth) (leaves divide o depth) id
          (answerOf verify) (validateCurve_eq verify depth) parts
        rw [List.map_id] at hall
        simp only [hall, Option.map_map]
        congr 1
        funext lss
        exact (answerOf_flatten verify lss).symm
    · simp [answerOf, hv]
    · simp [answerOf, hv]

end Answers

section Checks

variable {F G K : Type} [Field F] [AddCommGroup G] [Module F G] [AddCommGroup K] [DecidableEq G]
  {S : BlsScheme F G K} {divide : ℕ → JsNumber → JsNumber} {o : Options}
  {batch : List (SignedMessage G K)}

theorem validateBatch_eq (depth : ℕ) (batch : List (SignedMessage G K)) :
    validateBatch S divide o depth batch
      = (leaves divide o depth batch).map (answerOf (verifyBatch S)) :=
  validateCurve_eq (verifyBatch S) depth batch

theorem foldl_add {M : Type} [AddCommGroup M] : ∀ (l : List M) (x : M),
    l.foldl (· + ·) x = x + l.sum
  | [], x => by simp
  | y :: l, x => by rw [List.foldl_cons, foldl_add l, List.sum_cons, add_assoc]

theorem verifyBatch_cons (sm : SignedMessage G K) (rest : List (SignedMessage G K)) :
    verifyBatch S (sm :: rest) = true ↔
      sm.signature + (rest.map SignedMessage.signature).sum
        = (S.secret sm.publicKey + (rest.map fun t => S.secret t.publicKey).sum)
          • S.hash sm.message.buffer := by
  have hsum : S.secret (rest.map SignedMessage.publicKey).sum
      = (rest.map fun t => S.secret t.publicKey).sum := by
    rw [map_list_sum, List.map_map]
    rfl
  simp [verifyBatch, verifyAggregate, aggregateBLSSignatures, aggregateBLSPublicKeys,
    verifyBLSAggregate, foldl_add, bind, Except.bind, pure, Except.pure, hsum]

theorem verifySingle_iff (sm : SignedMessage G K) : verifySingle S sm = .ok true ↔
    sm.signature = S.secret sm.publicKey • S.hash sm.message.buffer := by
  simp [verifySingle, verifyAggregate, aggregateBLSSignatures, aggregateBLSPublicKeys,
    verifyBLSAggregate, bind, Except.bind, pure, Except.pure]

theorem verifyBatch_first {sm : SignedMessage G K} {rest : List (SignedMessage G K)}
    (h : ∀ t ∈ rest, S.secret t.publicKey = 0) :
    verifyBatch S (sm :: rest) = true ↔ sm.signature + (rest.map SignedMessage.signature).sum
      = S.secret sm.publicKey • S.hash sm.message.buffer := by
  have hzero : (rest.map fun t => S.secret t.publicKey).sum = 0 :=
    List.sum_eq_zero fun x hx => by
      obtain ⟨t, ht, rfl⟩ := List.mem_map.1 hx
      exact h t ht
  rw [verifyBatch_cons, hzero, add_zero]

end Checks

section Places

variable {G K : Type} {divide : ℕ → JsNumber → JsNumber} {o : Options}
  {batch : List (SignedMessage G K)} {depth : ℕ} {message : Message} {i : ℕ}

/-- The batch with another message at a place. -/
def replaceMessage (batch : List (SignedMessage G K)) (i : ℕ) (message : Message) :
    List (SignedMessage G K) :=
  batch.modify i fun sm => { sm with message := message }

/-- The sub-batches that are checked, their triples with their places in the batch. -/
def subBatches (divide : ℕ → JsNumber → JsNumber) (o : Options) (depth : ℕ)
    (batch : List (SignedMessage G K)) : List (List (SignedMessage G K × ℕ)) :=
  (leaves divide o depth batch.zipIdx).getD []

/-- A place is the first of a sub-batch. -/
def Leads (ls : List (List (SignedMessage G K × ℕ))) (i : ℕ) : Prop :=
  ∃ p rest, p :: rest ∈ ls ∧ p.2 = i

/-- What replacing a message makes of a triple at its place. -/
def replaced (i : ℕ) (message : Message) (p : SignedMessage G K × ℕ) : SignedMessage G K :=
  if p.2 = i then { p.1 with message := message } else p.1

theorem replaceMessage_eq (batch : List (SignedMessage G K)) (i : ℕ) (message : Message) :
    replaceMessage batch i message = batch.zipIdx.map (replaced i message) := by
  refine List.ext_getElem? fun j => ?_
  rw [replaceMessage, List.getElem?_modify, List.getElem?_map, List.getElem?_zipIdx]
  cases batch[j]? with
  | none => rfl
  | some sm => by_cases h : i = j <;> simp [replaced, h, eq_comm]

theorem ne_of_leads {α : Type} {f : α → ℕ} : ∀ {ls : List (List α)}, (ls.flatten.map f).Nodup →
    ∀ {p q x : α} {rest rest' : List α}, p :: rest ∈ ls → x ∈ rest → q :: rest' ∈ ls → f x ≠ f q
  | [], _, _, _, _, _, _, h, _, _ => nomatch h
  | l :: ls, hn, p, q, x, rest, rest', hp, hx, hq => by
    rw [List.flatten_cons, List.map_append, List.nodup_append] at hn
    obtain ⟨hl, hls, hdisj⟩ := hn
    have hxl : ∀ {l : List (List α)}, p :: rest ∈ l → f x ∈ l.flatten.map f := fun h =>
      List.mem_map_of_mem (List.mem_flatten.2 ⟨_, h, List.mem_cons_of_mem _ hx⟩)
    have hql : ∀ {l : List (List α)}, q :: rest' ∈ l → f q ∈ l.flatten.map f := fun h =>
      List.mem_map_of_mem (List.mem_flatten.2 ⟨_, h, List.mem_cons_self⟩)
    rcases List.mem_cons.1 hp with rfl | hp'
    · rcases List.mem_cons.1 hq with hq | hq
      · obtain ⟨rfl, rfl⟩ := List.cons.inj hq
        intro he
        exact (List.nodup_cons.1 hl).1 (he ▸ List.mem_map_of_mem hx)
      · exact hdisj _ (List.mem_map_of_mem (List.mem_cons_of_mem _ hx)) _ (hql hq)
    · rcases List.mem_cons.1 hq with rfl | hq'
      · exact fun he => hdisj _ (List.mem_map_of_mem List.mem_cons_self) _ (hxl hp') he.symm
      · exact ne_of_leads hls hp' hx hq'

section Ends

variable {ls : List (List (SignedMessage G K × ℕ))}
  (hls : leaves divide o depth batch.zipIdx = some ls)

include hls

theorem leaves_batch : leaves divide o depth batch = some (ls.map (List.map Prod.fst)) := by
  have h := leaves_map divide o Prod.fst depth batch.zipIdx
  rwa [hls, List.zipIdx_map_fst] at h

theorem leaves_replaced : leaves divide o depth (replaceMessage batch i message)
    = some (ls.map (List.map (replaced i message))) := by
  rw [replaceMessage_eq, leaves_map, hls]
  rfl

theorem nodup_places : (ls.flatten.map Prod.snd).Nodup := by
  have hsub := ((leaves_spec hls).1).map Prod.snd
  rw [List.zipIdx_map_snd] at hsub
  exact (List.nodup_range' ..).sublist hsub

theorem getElem?_of_mem {l : List (SignedMessage G K × ℕ)} {p : SignedMessage G K × ℕ}
    (hl : l ∈ ls) (hp : p ∈ l) : batch[p.2]? = some p.1 := by
  have hmem : p ∈ batch.zipIdx := (leaves_spec hls).1.subset (List.mem_flatten.2 ⟨l, hl, hp⟩)
  exact List.mem_zipIdx_iff_getElem?.1 hmem

end Ends

end Places

section Authenticates

variable {F G K : Type} [Field F] [AddCommGroup G] [Module F G] [AddCommGroup K] [DecidableEq G]
  {S : BlsScheme F G K} {divide : ℕ → JsNumber → JsNumber} {o : Options}
  {batch : List (SignedMessage G K)} {depth : ℕ} {message : Message} {i : ℕ}

/-- A batch whose triples all verify is valid, and a valid one is not with another message. -/
structure Authenticates (S : BlsScheme F G K) (divide : ℕ → JsNumber → JsNumber) (o : Options)
    (batch : List (SignedMessage G K)) : Prop where
  complete : (∀ sm ∈ batch, verifySingle S sm = .ok true) →
    ∃ result, Answers S divide o batch result ∧ result.valid = true
  sound : (∃ result, Answers S divide o batch result ∧ result.valid = true) →
    ∀ i sm, batch[i]? = some sm → S.secret sm.publicKey ≠ 0 →
    ∀ message : Message, S.hash message.buffer ≠ S.hash sm.message.buffer →
    ∃ result, Answers S divide o (replaceMessage batch i message) result ∧ result.valid = false

/-- Every place whose key has a secret is the first of a sub-batch. -/
def SecretsLead (S : BlsScheme F G K) (batch : List (SignedMessage G K))
    (ls : List (List (SignedMessage G K × ℕ))) : Prop :=
  ∀ i sm, batch[i]? = some sm → S.secret sm.publicKey ≠ 0 → Leads ls i

section Ends

variable {ls : List (List (SignedMessage G K × ℕ))}
  (hls : leaves divide o depth batch.zipIdx = some ls)

include hls

theorem answers_iff {result : BatchResult} : Answers S divide o batch result ↔
    result = answerOf (verifyBatch S) (ls.map (List.map Prod.fst)) := by
  have hbatch := leaves_batch hls
  constructor
  · rintro ⟨depth', h⟩
    rw [validateBatch_eq] at h
    obtain ⟨ls', hls', rfl⟩ := Option.map_eq_some_iff.1 h
    rw [leaves_unique hls' hbatch]
  · rintro rfl
    exact ⟨depth, by rw [validateBatch_eq, hbatch]; rfl⟩

theorem answers_replaced (S : BlsScheme F G K) (i : ℕ) (message : Message) :
    Answers S divide o (replaceMessage batch i message)
      (answerOf (verifyBatch S) (ls.map (List.map (replaced i message)))) :=
  ⟨depth, by rw [validateBatch_eq, leaves_replaced hls]; rfl⟩

omit [DecidableEq G] in
theorem secret_eq_zero (hlead : SecretsLead S batch ls) {p q : SignedMessage G K × ℕ}
    {rest : List (SignedMessage G K × ℕ)} (hp : p :: rest ∈ ls) (hq : q ∈ rest) :
    S.secret q.1.publicKey = 0 := by
  by_contra hne
  obtain ⟨p', rest', hp', he⟩ :=
    hlead q.2 q.1 (getElem?_of_mem hls hp (List.mem_cons_of_mem _ hq)) hne
  exact ne_of_leads (nodup_places hls) hp hq hp' he.symm

theorem verifyBatch_of_verifySingle (hlead : SecretsLead S batch ls)
    (hall : ∀ sm ∈ batch, verifySingle S sm = .ok true) {l : List (SignedMessage G K × ℕ)}
    (hl : l ∈ ls) : verifyBatch S (l.map Prod.fst) = true := by
  obtain ⟨p, rest, rfl⟩ := List.exists_cons_of_ne_nil ((leaves_spec hls).2 l hl)
  have hsingle : ∀ q ∈ p :: rest,
      q.1.signature = S.secret q.1.publicKey • S.hash q.1.message.buffer := fun q hq =>
    (verifySingle_iff q.1).1 (hall q.1 (List.mem_of_getElem? (getElem?_of_mem hls hl hq)))
  have hsum : ((rest.map Prod.fst).map SignedMessage.signature).sum = 0 :=
    List.sum_eq_zero fun x hx => by
      simp only [List.map_map, List.mem_map, Function.comp_apply] at hx
      obtain ⟨q, hq, rfl⟩ := hx
      rw [hsingle q (List.mem_cons_of_mem _ hq), secret_eq_zero hls hlead hl hq, zero_smul]
  rw [List.map_cons, verifyBatch_first, hsum, add_zero, hsingle p List.mem_cons_self]
  intro t ht
  obtain ⟨q, hq, rfl⟩ := List.mem_map.1 ht
  exact secret_eq_zero hls hlead hl hq

theorem replaced_invalid (hlead : SecretsLead S batch ls)
    (hchecks : ∀ l ∈ ls, verifyBatch S (l.map Prod.fst) = true) {sm : SignedMessage G K}
    (hi : batch[i]? = some sm) (hsecret : S.secret sm.publicKey ≠ 0)
    (hhash : S.hash message.buffer ≠ S.hash sm.message.buffer) :
    (answerOf (verifyBatch S) (ls.map (List.map (replaced i message)))).valid = false := by
  obtain ⟨p, rest, hl, rfl⟩ := hlead i sm hi hsecret
  have hp : p.1 = sm := Option.some.inj ((getElem?_of_mem hls hl List.mem_cons_self).symm.trans hi)
  have hzero : ∀ q ∈ rest, S.secret q.1.publicKey = 0 := fun q => secret_eq_zero hls hlead hl
  have hrest : rest.map (replaced p.2 message) = rest.map Prod.fst := by
    refine List.map_congr_left fun q hq => ?_
    have hne : q.2 ≠ p.2 := ne_of_leads (nodup_places hls) hl hq hl
    rw [replaced, if_neg hne]
  have hzero' : ∀ t ∈ rest.map Prod.fst, S.secret t.publicKey = 0 := fun t ht => by
    obtain ⟨q, hq, rfl⟩ := List.mem_map.1 ht
    exact hzero q hq
  have hold := hchecks _ hl
  rw [List.map_cons, verifyBatch_first hzero', hp] at hold
  refine List.all_eq_false.2 ⟨(p :: rest).map (replaced p.2 message), List.mem_map_of_mem hl, ?_⟩
  intro hnew
  rw [List.map_cons, hrest, verifyBatch_first hzero', replaced, if_pos rfl] at hnew
  simp only [hp] at hnew
  -- both checks compare the same sum of signatures
  have hsame : S.secret sm.publicKey • S.hash message.buffer
      = S.secret sm.publicKey • S.hash sm.message.buffer := hnew.symm.trans hold
  have hscaled := congrArg ((S.secret sm.publicKey)⁻¹ • ·) hsame
  simp only [inv_smul_smul₀ hsecret] at hscaled
  exact hhash hscaled

theorem replaced_valid (hchecks : ∀ l ∈ ls, verifyBatch S (l.map Prod.fst) = true)
    (hi : ¬ Leads ls i) : (answerOf (verifyBatch S) (ls.map (List.map (replaced i message)))).valid = true := by
  refine List.all_eq_true.2 fun t ht => ?_
  obtain ⟨l, hl, rfl⟩ := List.mem_map.1 ht
  obtain ⟨p, rest, rfl⟩ := List.exists_cons_of_ne_nil ((leaves_spec hls).2 l hl)
  have hp : replaced i message p = p.1 := if_neg fun he => hi ⟨p, rest, hl, he⟩
  have hsignature : ∀ q : SignedMessage G K × ℕ,
      (replaced i message q).signature = q.1.signature := fun q => by
    unfold replaced
    split_ifs <;> rfl
  have hkey : ∀ q : SignedMessage G K × ℕ,
      (replaced i message q).publicKey = q.1.publicKey := fun q => by
    unfold replaced
    split_ifs <;> rfl
  have hold := hchecks _ hl
  rw [List.map_cons, verifyBatch_cons] at hold ⊢
  simp only [List.map_map, Function.comp_def, hsignature, hkey, hp] at hold ⊢
  exact hold

end Ends

/-- A batch whose validation ends is authenticated exactly if, when all its triples verify or all its
sub-batches pass their check, every key with a secret is the first of a sub-batch. -/
theorem batch_authenticated_iff {result : BatchResult}
    (hend : validateBatch S divide o depth batch = some result) :
    Authenticates S divide o batch ↔
      ((∀ sm ∈ batch, verifySingle S sm = .ok true)
        ∨ (∀ l ∈ subBatches divide o depth batch, verifyBatch S (l.map Prod.fst) = true)) →
      SecretsLead S batch (subBatches divide o depth batch) := by
  obtain ⟨ls, hls⟩ : ∃ ls, leaves divide o depth batch.zipIdx = some ls := by
    have h := leaves_map divide o Prod.fst depth batch.zipIdx
    rw [List.zipIdx_map_fst] at h
    rw [validateBatch_eq, h] at hend
    cases hls : leaves divide o depth batch.zipIdx with
    | none =>
      rw [hls] at hend
      cases hend
    | some ls => exact ⟨ls, rfl⟩
  have hsub : subBatches divide o depth batch = ls := by rw [subBatches, hls]; rfl
  have hvalid : (answerOf (verifyBatch S) (ls.map (List.map Prod.fst))).valid = true
      ↔ ∀ l ∈ ls, verifyBatch S (l.map Prod.fst) = true := by
    simp [answerOf, List.all_eq_true]
  rw [hsub]
  constructor
  · rintro ⟨hcomplete, hsound⟩ hpasses
    have hanswer : ∃ result, Answers S divide o batch result ∧ result.valid = true := by
      rcases hpasses with hall | hchecks
      · exact hcomplete hall
      · exact ⟨_, (answers_iff hls).2 rfl, hvalid.2 hchecks⟩
    obtain ⟨r, hr, hrv⟩ := id hanswer
    have hchecks := hvalid.1 ((answers_iff hls).1 hr ▸ hrv)
    intro i sm hi hsecret
    by_contra hlead
    -- another message, of another length
    have hother : S.hash (0 :: sm.message.buffer) ≠ S.hash sm.message.buffer := fun he => by
      have hlen := congrArg List.length (S.hash_injective he)
      simp at hlen
    obtain ⟨r', ⟨depth', hr'⟩, hinvalid⟩ :=
      hsound hanswer i sm hi hsecret (.bytes (0 :: sm.message.buffer)) hother
    rw [validateBatch_eq] at hr'
    obtain ⟨ls', hls', rfl⟩ := Option.map_eq_some_iff.1 hr'
    rw [leaves_unique hls' (leaves_replaced hls)] at hinvalid
    exact Bool.false_ne_true (hinvalid.symm.trans (replaced_valid hls hchecks hlead))
  · intro h
    refine ⟨fun hall => ⟨_, (answers_iff hls).2 rfl, hvalid.2 fun l hl => ?_⟩,
      fun ⟨r, hr, hrv⟩ i sm hi hsecret message hhash => ?_⟩
    · exact verifyBatch_of_verifySingle hls (h (.inl hall)) hall hl
    · have hchecks := hvalid.1 ((answers_iff hls).1 hr ▸ hrv)
      exact ⟨_, answers_replaced hls S i message,
        replaced_invalid hls (h (.inr hchecks)) hchecks hi hsecret hhash⟩

/-- Numbers a list of bytes stands for, no two the same one. -/
def encodeBytes : List UInt8 → ℕ
  | [] => 0
  | b :: bytes => b.toNat + 1 + 257 * encodeBytes bytes

theorem encodeBytes_injective : Function.Injective encodeBytes := by
  intro b
  induction b with
  | nil =>
    intro c h
    cases c with
    | nil => rfl
    | cons y c =>
      simp only [encodeBytes] at h
      omega
  | cons x b ih =>
    intro c h
    cases c with
    | nil =>
      simp only [encodeBytes] at h
      omega
    | cons y c =>
      simp only [encodeBytes] at h
      have hx := x.toNat_lt
      have hy := y.toNat_lt
      obtain rfl : x = y := UInt8.toNat_inj.1 (by omega)
      rw [ih (by omega : encodeBytes b = encodeBytes c)]

/-- Secrets as keys, over the rational numbers. -/
def rationalScheme : BlsScheme ℚ ℚ ℚ where
  secret := AddMonoidHom.id ℚ
  hash bytes := encodeBytes bytes
  hash_injective _ _ h := encodeBytes_injective (Nat.cast_injective h)

/-- Division, where it is exact. -/
def exactly (n : ℕ) : JsNumber → JsNumber
  | .fin q => if q = 0 then .posInf else .fin (n / q)
  | .posInf | .negInf => 0
  | .nan => .nan

def signed (secret : ℚ) (bytes : List UInt8) : SignedMessage ℚ ℚ :=
  ⟨.bytes bytes, secret * encodeBytes bytes, secret⟩

/-- Two messages in parts of one. -/
theorem batch_authenticated_apart :
    Authenticates rationalScheme exactly (Options.new (some 1) (some 2) 8)
      [signed 3 [1], signed 5 [2]] := by
  have hend : validateBatch rationalScheme exactly (Options.new (some 1) (some 2) 8) 2
      [signed 3 [1], signed 5 [2]] = some ⟨true, 2, 0⟩ := by
    decide +kernel
  refine (batch_authenticated_iff hend).2 fun _ i sm hi _ => ?_
  have hparts : subBatches exactly (Options.new (some 1) (some 2) 8) 2
      [signed 3 [1], signed 5 [2]] = [[(signed 3 [1], 0)], [(signed 5 [2], 1)]] := by
    decide +kernel
  rw [hparts]
  have hlt : i < 2 := (List.getElem?_eq_some_iff.1 hi).1
  rcases i with _ | _ | i
  · exact ⟨_, _, List.mem_cons_self, rfl⟩
  · exact ⟨_, _, List.mem_cons_of_mem _ List.mem_cons_self, rfl⟩
  · omega

/-- Two messages that verify, in a batch that does not; and a batch whose second message may be
any. -/
theorem second_message_unchecked :
    ((∀ sm ∈ [signed 1 [1], signed 1 [2]], verifySingle rationalScheme sm = .ok true)
      ∧ validateBatch rationalScheme exactly (Options.new none none 8) 1
        [signed 1 [1], signed 1 [2]] = some ⟨false, 0, 2⟩)
    ∧ validateBatch rationalScheme exactly (Options.new none none 8) 1
        [signed 1 [1], signed 1 [1]] = some ⟨true, 2, 0⟩
    ∧ validateBatch rationalScheme exactly (Options.new none none 8) 1
        (replaceMessage [signed 1 [1], signed 1 [1]] 1 (.bytes [2])) = some ⟨true, 2, 0⟩
    ∧ rationalScheme.hash [2] ≠ rationalScheme.hash [1] ∧ rationalScheme.secret 1 ≠ 0 := by
  refine ⟨⟨fun sm hsm => ?_, ?_⟩, ?_, ?_, ?_, ?_⟩
  · rw [verifySingle_iff]
    simp only [List.mem_cons, List.not_mem_nil, or_false] at hsm
    rcases hsm with rfl | rfl <;> decide +kernel
  all_goals decide +kernel

end Authenticates

end Attestation

end VeriNode
