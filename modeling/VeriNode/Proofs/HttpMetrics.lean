import Mathlib.Algebra.Order.Ring.Rat
import Mathlib.Data.NNRat.Floor
import VeriNode.Api.HttpMetrics

/-!
# Metrics of requests that only grow

As long as nothing that was recorded is dropped, the records of a scrape are a beginning of those of
a later one, and so are those of each key (`histogram_le`). Keys and labels are texts without
escapes: those of parts that have none of the characters between them tell the parts apart
(`labels_inj`).
-/

namespace VeriNode

namespace HttpMetrics

variable {N : Type} {rec rec' : HttpRecord N}

section Labels

/-- None of the characters that separate the parts of a key or the labels. -/
def Unmarked (part : String) : Prop := '|' ∉ part.toList ∧ '"' ∉ part.toList

instance (part : String) : Decidable (Unmarked part) := inferInstanceAs (Decidable (_ ∧ _))

structure Plain (rec : HttpRecord N) : Prop where
  route : Unmarked rec.route
  method : Unmarked rec.method
  statusCode : Unmarked rec.statusCode

/-- Two records are of the same route, method and status code. -/
structure Alike (rec rec' : HttpRecord N) : Prop where
  route : rec.route = rec'.route
  method : rec.method = rec'.method
  statusCode : rec.statusCode = rec'.statusCode

theorem keyOf_eq_join (rec : HttpRecord N) :
    keyOf rec = Separated.join '|' [rec.route, rec.method, rec.statusCode] := by
  rw [← String.toList_inj]
  simp [keyOf, Separated.join]

theorem Plain.split (hp : Plain rec) :
    Separated.split '|' (keyOf rec) = [rec.route, rec.method, rec.statusCode] := by
  rw [keyOf_eq_join]
  refine Separated.split_join (List.cons_ne_nil _ _) fun p hmem => ?_
  simp only [List.mem_cons, List.not_mem_nil, or_false] at hmem
  rcases hmem with rfl | rfl | rfl
  · exact hp.route.1
  · exact hp.method.1
  · exact hp.statusCode.1

theorem Plain.labels (hp : Plain rec) : labelsOf (keyOf rec) =
    "route=\"" ++ rec.route ++ "\",method=\"" ++ rec.method ++ "\",status_code=\"" ++
      rec.statusCode ++ "\"" := by
  unfold labelsOf
  rw [hp.split]
  rfl

theorem quote_inj {a b c d : List Char} (ha : '"' ∉ a) (hb : '"' ∉ b)
    (h : a ++ '"' :: c = b ++ '"' :: d) : a = b ∧ c = d := Separated.append_cons_inj ha hb h

theorem labels_inj (hp : Plain rec) (hp' : Plain rec')
    (heq : labelsOf (keyOf rec) = labelsOf (keyOf rec')) : Alike rec rec' := by
  rw [hp.labels, hp'.labels, ← String.toList_inj] at heq
  simp only [String.toList_append, List.append_assoc] at heq
  have hroute := List.append_cancel_left heq
  obtain ⟨h1, hmethod⟩ := quote_inj hp.route.2 hp'.route.2 hroute
  have hmethod := (List.append_right_inj ",method=\"".toList).1 hmethod
  obtain ⟨h2, hstatus⟩ := quote_inj hp.method.2 hp'.method.2 hmethod
  have hstatus := (List.append_right_inj ",status_code=\"".toList).1 hstatus
  obtain ⟨h3, -⟩ := quote_inj hp.statusCode.2 hp'.statusCode.2 hstatus
  exact ⟨String.toList_inj.1 h1, String.toList_inj.1 h2, String.toList_inj.1 h3⟩

theorem Alike.keyOf_eq (h : Alike rec rec') : keyOf rec = keyOf rec' := by
  unfold keyOf
  rw [h.route, h.method, h.statusCode]

end Labels

section Sums

variable [Amount N] {l l' : List N}

theorem foldl_add_le (h : l.Sublist l') :
    ∀ {s s' : N}, s ≤ s' → l.foldl Amount.add s ≤ l'.foldl Amount.add s' := by
  induction h with
  | slnil => exact fun hs => hs
  | cons x _ ih => exact fun hs => ih (hs.trans (Amount.le_add _ x))
  | cons_cons x _ ih => exact fun hs => ih (Amount.add_mono x hs)

theorem sorted_sublist (h : l.Sublist l') :
    (l.insertionSort (· ≤ ·)).Sublist (l'.insertionSort (· ≤ ·)) := by
  refine List.sublist_of_subperm_of_pairwise ?_ (List.pairwise_insertionSort _ l)
    (List.pairwise_insertionSort _ l')
  exact (List.perm_insertionSort _ l).subperm.trans
    (h.subperm.trans (List.perm_insertionSort _ l').symm.subperm)

end Sums

section Histograms

variable [Amount N] {records records' : List (HttpRecord N)} {measure : HttpRecord N → N}
variable {bounds : List N} {exemplars : Bool} {printSum : N → N} {key : String}

/-- Nothing in a histogram is less than it was. -/
structure Histogram.Le (x y : Histogram N) : Prop where
  labels : x.labels = y.labels
  buckets : List.Forall₂ (fun b c => b.le = c.le ∧ b.count ≤ c.count) x.buckets y.buckets
  inf : x.inf ≤ y.inf
  sum : x.sum ≤ y.sum
  count : x.count ≤ y.count

theorem histogram_le (hprint : Monotone printSum) (h : records <+: records') :
    (histogram measure bounds exemplars printSum key records).Le
      (histogram measure bounds exemplars printSum key records') := by
  have hsub := sorted_sublist (h.sublist.map measure)
  refine ⟨rfl, ?_, hsub.length_le, hprint (foldl_add_le hsub le_rfl), hsub.length_le⟩
  refine List.forall₂_map_left_iff.2 (List.forall₂_map_right_iff.2 (List.forall₂_same.2 ?_))
  exact fun le _ => ⟨rfl, (hsub.filter _).length_le⟩

/-- What a histogram says of one scrape: more are below a greater bound, and all are counted. -/
structure Histogram.Sound (x : Histogram N) : Prop where
  inf : x.inf = x.count
  buckets : ∀ b ∈ x.buckets, b.count ≤ x.inf ∧ ∀ c ∈ x.buckets, b.le ≤ c.le → b.count ≤ c.count

theorem histogram_sound : (histogram measure bounds exemplars printSum key records).Sound := by
  refine ⟨rfl, fun b hb => ?_⟩
  obtain ⟨le, -, rfl⟩ := List.mem_map.1 hb
  refine ⟨List.length_filter_le _ _, fun c hc hle => ?_⟩
  obtain ⟨le', -, rfl⟩ := List.mem_map.1 hc
  refine (List.monotone_filter_right _ fun d hd => ?_).length_le
  exact decide_eq_true ((of_decide_eq_true hd).trans hle)

/-- One of the two families of histograms. -/
def family (measure : HttpRecord N → N) (bounds : List N) (exemplars : Bool) (printSum : N → N)
    (records : List (HttpRecord N)) : List (Histogram N) :=
  (Pieces.groups keyOf records).entries.map fun e =>
    histogram measure bounds exemplars printSum e.1 e.2

theorem durations_eq (records : List (HttpRecord N)) : (render records).durations =
    family (·.durationS) httpDurationBuckets true Amount.fixed records := rfl

theorem sizes_eq (records : List (HttpRecord N)) :
    (render records).sizes = family (·.responseSizeBytes) sizeBuckets false id records := rfl

theorem mem_family {x : Histogram N} (hx : x ∈ family measure bounds exemplars printSum records) :
    ∃ key ∈ (Pieces.groups keyOf records).keys,
      x = histogram measure bounds exemplars printSum key (records.filter (keyOf · = key)) := by
  obtain ⟨e, he, rfl⟩ := List.mem_map.1 hx
  exact ⟨e.1, List.mem_map_of_mem he, by rw [Pieces.group_of_mem he]⟩

theorem family_of_mem (hr : rec ∈ records) :
    histogram measure bounds exemplars printSum (keyOf rec)
      (records.filter (keyOf · = keyOf rec)) ∈
        family measure bounds exemplars printSum records := by
  have hmem : keyOf rec ∈ (Pieces.groups keyOf records).keys :=
    Pieces.mem_keys_groups.2 ⟨rec, hr, rfl⟩
  obtain ⟨e, he, hkey⟩ := List.mem_map.1 hmem
  refine List.mem_map.2 ⟨e, he, ?_⟩
  rw [Pieces.group_of_mem he, hkey]

theorem family_le (hprint : Monotone printSum) (h : records <+: records') :
    ∀ x ∈ family measure bounds exemplars printSum records,
      ∃ y ∈ family measure bounds exemplars printSum records', x.Le y := by
  intro x hx
  obtain ⟨key, hkey, rfl⟩ := mem_family hx
  obtain ⟨rec, hrec, rfl⟩ := Pieces.mem_keys_groups.1 hkey
  exact ⟨_, family_of_mem (h.subset hrec), histogram_le hprint (h.filter _)⟩

theorem family_sound : ∀ x ∈ family measure bounds exemplars printSum records, x.Sound := by
  intro x hx
  obtain ⟨key, -, rfl⟩ := mem_family hx
  exact histogram_sound

theorem length_insertionSort_map (records : List (HttpRecord N)) :
    ((records.map measure).insertionSort (· ≤ ·)).length = records.length := by
  rw [List.length_insertionSort, List.length_map]

theorem family_total :
    ((family measure bounds exemplars printSum records).map (·.count)).sum = records.length := by
  have hcount : (family measure bounds exemplars printSum records).map (·.count) =
      (Pieces.groups keyOf records).entries.map fun e => e.2.length := by
    unfold family
    rw [List.map_map]
    exact List.map_congr_left fun e _ => length_insertionSort_map e.2
  have hlen : ((Pieces.groups keyOf records).entries.flatMap Prod.snd).length = records.length :=
    Pieces.length_flatMap_groups records
  rw [hcount, ← hlen, List.length_flatMap]

theorem family_distinct (hp : ∀ rec ∈ records, Plain rec) :
    ((family measure bounds exemplars printSum records).map (·.labels)).Nodup := by
  have hlabels : (family measure bounds exemplars printSum records).map (·.labels) =
      (Pieces.groups keyOf records).keys.map labelsOf := by
    unfold family OrdMap.keys
    rw [List.map_map, List.map_map]
    rfl
  rw [hlabels]
  refine List.Nodup.map_on ?_ (Pieces.groups keyOf records).nodup
  intro k hk k' hk' heq
  obtain ⟨rec, hrec, rfl⟩ := Pieces.mem_keys_groups.1 hk
  obtain ⟨rec', hrec', rfl⟩ := Pieces.mem_keys_groups.1 hk'
  exact (labels_inj (hp rec hrec) (hp rec' hrec') heq).keyOf_eq

end Histograms

section Runs

variable {h : List (Taken (List (HttpRecord N)) (HttpRecord N))} {records s : List (HttpRecord N)}

theorem record_eq (records : List (HttpRecord N)) (rec : HttpRecord N) : record records rec =
    if maxRecords < (records ++ [rec]).length then (records ++ [rec]).tail
    else records ++ [rec] := rfl

theorem record_of_lt (hlt : records.length < maxRecords) (rec : HttpRecord N) :
    record records rec = records ++ [rec] := by
  rw [record_eq, if_neg]
  rw [List.length_append, List.length_singleton]
  omega

theorem length_le_of_run (hr : Run system h s) : s.length ≤ maxRecords := by
  refine hr.invariant (P := fun s => s.length ≤ maxRecords) ?_ ?_
  · rintro s rfl
    exact Nat.zero_le _
  · intro s rec s' hle hs
    obtain rfl := Option.some.inj hs
    rw [record_eq]
    split_ifs with hlt
    · rw [List.length_tail, List.length_append, List.length_singleton]
      omega
    · exact not_lt.1 hlt

/-- The records made, oldest first. -/
def made (h : List (Taken (List (HttpRecord N)) (HttpRecord N))) : List (HttpRecord N) :=
  (h.map (·.act)).reverse

/-- A record is made where there is room for it, and has none of the separators in its parts. -/
def Fits (records : List (HttpRecord N)) (rec : HttpRecord N) : Prop :=
  records.length < maxRecords ∧ Plain rec

theorem records_eq (hr : Run system h s) (hfit : Along Fits h) : s = made h := by
  induction hr with
  | start hi => exact hi
  | next _ hs ih =>
    obtain rfl := Option.some.inj hs
    rw [record_of_lt hfit.head.1, ih hfit.tail]
    exact List.reverse_cons.symm

theorem records_beginning (hr : Run system h s) (hfit : Along Fits h) {t : Taken _ _} (ht : t ∈ h) :
    t.pre <+: s := by
  obtain ⟨l, e, rfl⟩ := List.append_of_mem ht
  have hpre := records_eq (hr.split rfl).1 fun u hu =>
    hfit u (List.mem_append_right _ (List.mem_cons_of_mem _ hu))
  rw [hpre, records_eq hr hfit, made, made, List.map_append, List.map_cons, List.reverse_append,
    List.reverse_cons, List.append_assoc]
  exact List.prefix_append _ _

variable [Amount N]

/-- What a family of histograms is in a run: none is less than in an earlier scrape, each has labels
of its own and is sound, and all the records are counted. -/
structure Counts (f : Rendered N → List (Histogram N))
    (h : List (Taken (List (HttpRecord N)) (HttpRecord N))) (s : List (HttpRecord N)) : Prop where
  monotone : ∀ t ∈ h, ∀ x ∈ f (render t.pre), ∃ y ∈ f (render s), x.Le y
  distinct : ((f (render s)).map (·.labels)).Nodup
  sound : ∀ x ∈ f (render s), x.Sound
  total : ((f (render s)).map (·.count)).sum = h.length

/-- The metrics of requests are counters, and the labels of two records, which are those of the
histogram each is counted in, are the same only if the records are alike. -/
structure Counters (h : List (Taken (List (HttpRecord N)) (HttpRecord N)))
    (s : List (HttpRecord N)) : Prop where
  durations : Counts Rendered.durations h s
  sizes : Counts Rendered.sizes h s
  apart : ∀ t ∈ h, ∀ u ∈ h, labelsOf (keyOf t.act) = labelsOf (keyOf u.act) → Alike t.act u.act

theorem counts_of_fits {f : Rendered N → List (Histogram N)} {measure : HttpRecord N → N}
    {bounds : List N} {exemplars : Bool} {printSum : N → N}
    (hf : ∀ records, f (render records) = family measure bounds exemplars printSum records)
    (hprint : Monotone printSum) (hr : Run system h s) (hfit : Along Fits h) : Counts f h s := by
  have hs := records_eq hr hfit
  have hplain : ∀ rec ∈ s, Plain rec := by
    intro rec hrec
    rw [hs, made, List.mem_reverse] at hrec
    obtain ⟨t, ht, rfl⟩ := List.mem_map.1 hrec
    exact (hfit t ht).2
  refine ⟨fun t ht => ?_, ?_, ?_, ?_⟩
  · rw [hf, hf]
    exact family_le hprint (records_beginning hr hfit ht)
  · rw [hf]
    exact family_distinct hplain
  · rw [hf]
    exact family_sound
  · rw [hf, family_total, hs, made, List.length_reverse, List.length_map]

/-- The metrics are counters in a run of records that have no separators in their parts, until there
is no room for another. -/
theorem http_counters (hr : Run system h s) (hfit : Along Fits h) : Counters h s :=
  ⟨counts_of_fits durations_eq Amount.fixed_mono hr hfit,
    counts_of_fits sizes_eq monotone_id hr hfit,
    fun t ht u hu heq => labels_inj (hfit t ht).2 (hfit u hu).2 heq⟩

end Runs

section Samples

/-- Rational numbers, added exactly. -/
instance : Amount ℚ≥0 where
  literal q := q.toNNRat
  add s x := s + x
  le_add s x := le_self_add
  add_mono x hs := add_le_add_left hs x
  fixed q := ⌊q * 10 ^ 6 + 1 / 2⌋₊ / 10 ^ 6
  fixed_mono p q hpq := by
    have hunits : ⌊p * 10 ^ 6 + 1 / 2⌋₊ ≤ ⌊q * 10 ^ 6 + 1 / 2⌋₊ :=
      Nat.floor_mono (add_le_add_left (mul_le_mul_left hpq _) _)
    exact div_le_div_of_nonneg_right (Nat.cast_le.2 hunits) zero_le

/-- A request of a route and a method that was answered. -/
def answered (route method : String) : HttpRecord ℚ≥0 := ⟨route, method, "200", 1 / 100, 512, none⟩

theorem http_counters_two : ∃ h s, Run system h s ∧ h.length = 2 ∧ Counters (N := ℚ≥0) h s := by
  have hr : Run system _ _ := .next (a := answered "/stake" "POST")
    (.next (a := answered "/nodes" "GET") (.start rfl) rfl) rfl
  refine ⟨_, _, hr, rfl, http_counters hr ?_⟩
  rw [along_cons, along_cons]
  exact ⟨⟨by decide, ⟨by decide, by decide, by decide⟩⟩,
    ⟨by decide, ⟨by decide, by decide, by decide⟩⟩, fun t ht => absurd ht List.not_mem_nil⟩

theorem exists_run_of_length (rec : HttpRecord N) : ∀ n, ∃ h s, Run system h s ∧ h.length = n ∧
    ∀ t ∈ h, t.act = rec
  | 0 => ⟨[], [], .start rfl, rfl, fun t ht => absurd ht List.not_mem_nil⟩
  | n + 1 => by
    obtain ⟨h, s, hr, hn, hall⟩ := exists_run_of_length rec n
    refine ⟨_, _, hr.next (a := rec) rfl, congrArg (· + 1) hn, ?_⟩
    exact List.forall_mem_cons.2 ⟨rfl, hall⟩

/-- With one record more than there is room for, not all are counted; and a route with the separator
of the key in it is taken for another. -/
theorem http_counters_lose :
    (∃ h s, Run system h s ∧ h.length = 10001 ∧ (∀ t ∈ h, t.act = answered "/nodes" "GET") ∧
      ¬ Counters h s) ∧
    ∃ h s, Run system h s ∧ h.map (·.act) = [answered "/a" "b|GET", answered "/a|b" "GET"] ∧
      ¬ Counters h s := by
  refine ⟨?_, ?_⟩
  · obtain ⟨h, s, hr, hn, hall⟩ := exists_run_of_length (answered "/nodes" "GET") 10001
    refine ⟨h, s, hr, hn, hall, fun hc => ?_⟩
    have htotal := hc.durations.total
    rw [durations_eq, family_total, hn] at htotal
    have hle := length_le_of_run hr
    rw [htotal, maxRecords] at hle
    omega
  · have hr : Run system _ _ := .next (a := answered "/a" "b|GET")
      (.next (a := answered "/a|b" "GET") (.start rfl) rfl) rfl
    refine ⟨_, _, hr, rfl, fun hc => ?_⟩
    have halike := hc.apart _ List.mem_cons_self _ (List.mem_cons_of_mem _ List.mem_cons_self)
      (by decide +kernel)
    exact absurd halike.route (by decide)

end Samples

end HttpMetrics

end VeriNode
