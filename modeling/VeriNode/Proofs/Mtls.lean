import Mathlib.Data.List.DropRight
import VeriNode.Lib.Separated
import VeriNode.Security.Mtls

/-!
# Who is read off a certificate

An id is read as the parts that it is written of (`parse_eq_some_iff`), so ids are read and built
inversely (`spiffe_inverse`).
The text of the names is split at its commas, and each part is stripped of white space: of a name
that is written as it is, the value is read without the white space at its end, and a name that is
written as a string literal is lost, and split further where the literal has commas. So the ids that
are read are those of the URI names exactly if none of these has white space at its end or is written
as a literal, and no literal has a comma with an id after it (`extract_exact_iff`).
-/

namespace VeriNode

namespace Mtls

open JsString

section Grammar

variable {u s p : Text} {i : VeriNodeSpiffeIdentity}

def VeriNodeSpiffeIdentity.text (i : VeriNodeSpiffeIdentity) : Text :=
  spiffeScheme ++ i.trustDomain ++ '/' :: i.serviceName ++ '/' :: i.podId

/-- No part has a slash, and the service and the pod have names. -/
structure VeriNodeSpiffeIdentity.WellFormed (i : VeriNodeSpiffeIdentity) : Prop where
  trustDomain : '/' ∉ i.trustDomain
  serviceName : '/' ∉ i.serviceName
  podId : '/' ∉ i.podId
  serviceName_ne : i.serviceName ≠ []
  podId_ne : i.podId ≠ []

theorem splitOn_eq_pair_iff {path : Text} :
    path.splitOn '/' = [s, p] ↔ path = s ++ '/' :: p ∧ '/' ∉ s ∧ '/' ∉ p := by
  constructor
  · intro h
    have hmem : ∀ part ∈ path.splitOn '/', '/' ∉ part := Separated.not_mem_of_mem_splitOn path
    rw [h] at hmem
    have hpath : ['/'].intercalate (path.splitOn '/') = path := List.intercalate_splitOn '/'
    rw [h] at hpath
    refine ⟨hpath.symm.trans ?_, hmem s List.mem_cons_self, hmem p (by simp)⟩
    simp
  · rintro ⟨rfl, hs, hp⟩
    rw [List.splitOn_append_cons_self_of_not_mem hs, List.splitOn_eq_singleton hp]

/-- What is read of a domain and the parts of the path after it. -/
def parseParts (d : Text) : List Text → Option VeriNodeSpiffeIdentity
  | [serviceName, podId] =>
    if serviceName = [] ∨ podId = [] then none else some ⟨d, serviceName, podId⟩
  | _ => none

theorem parse_domain {d path : Text} (hd : '/' ∉ d) :
    parseVeriNodeSpiffeId (spiffeScheme ++ (d ++ '/' :: path)) =
      parseParts d (path.splitOn '/') := by
  have hall : ∀ c ∈ d, decide (c ≠ '/') = true := by
    intro c hc
    rw [decide_eq_true_eq]
    rintro rfl
    exact hd hc
  have htake : (d ++ '/' :: path).takeWhile (· ≠ '/') = d := by
    rw [List.takeWhile_append_of_pos hall]
    simp
  have hdrop : (d ++ '/' :: path).dropWhile (· ≠ '/') = '/' :: path := by
    rw [List.dropWhile_append_of_pos hall]
    simp
  unfold parseVeriNodeSpiffeId
  simp only [List.prefix_append, if_true, List.drop_left, htake, hdrop, List.drop_succ_cons,
    List.drop_zero, List.mem_append, List.mem_cons, true_or, or_true]
  rfl

theorem parse_domain_eq_some_iff {d path : Text} (hd : '/' ∉ d) :
    parseVeriNodeSpiffeId (spiffeScheme ++ (d ++ '/' :: path)) = some i ↔
      i.trustDomain = d ∧ i.serviceName ≠ [] ∧ i.podId ≠ [] ∧
        path.splitOn '/' = [i.serviceName, i.podId] := by
  rw [parse_domain hd]
  unfold parseParts
  constructor
  · intro h
    split at h
    · next serviceName podId hsplit =>
      split_ifs at h with hempty
      rw [not_or] at hempty
      obtain rfl := Option.some.inj h
      exact ⟨rfl, hempty.1, hempty.2, hsplit⟩
    · cases h
  · rintro ⟨rfl, hs, hp, hsplit⟩
    rw [hsplit]
    exact if_neg (by rw [not_or]; exact ⟨hs, hp⟩)

theorem parse_eq_some_iff : parseVeriNodeSpiffeId u = some i ↔ i.WellFormed ∧ u = i.text := by
  constructor
  · intro h
    have hscheme : spiffeScheme <+: u := by
      by_contra hn
      rw [parseVeriNodeSpiffeId, if_neg hn] at h
      cases h
    obtain ⟨rest, rfl⟩ := hscheme
    have hslash : '/' ∈ rest := by
      by_contra hn
      rw [parseVeriNodeSpiffeId, if_pos (List.prefix_append _ _), List.drop_left] at h
      simp only [hn, if_false] at h
      cases h
    obtain ⟨d, path, rfl, hd⟩ := List.eq_append_cons_of_mem hslash
    obtain ⟨rfl, hs, hp, hsplit⟩ := (parse_domain_eq_some_iff hd).1 h
    obtain ⟨rfl, hs', hp'⟩ := splitOn_eq_pair_iff.1 hsplit
    refine ⟨⟨hd, hs', hp', hs, hp⟩, ?_⟩
    rw [VeriNodeSpiffeIdentity.text, List.append_assoc, List.append_assoc, List.cons_append]
  · rintro ⟨hi, rfl⟩
    rw [VeriNodeSpiffeIdentity.text, List.append_assoc, List.append_assoc, List.cons_append]
    exact (parse_domain_eq_some_iff hi.trustDomain).2
      ⟨rfl, hi.serviceName_ne, hi.podId_ne,
        splitOn_eq_pair_iff.2 ⟨rfl, hi.serviceName, hi.podId⟩⟩

theorem build_eq (s p : Text) :
    buildVeriNodeSpiffeId s p = VeriNodeSpiffeIdentity.text ⟨veriNodeDomain, s, p⟩ := rfl

theorem not_mem_veriNodeDomain : '/' ∉ veriNodeDomain := by decide +kernel

theorem parse_build_eq_some_iff : parseVeriNodeSpiffeId (buildVeriNodeSpiffeId s p) = some i ↔
    i = ⟨veriNodeDomain, s, p⟩ ∧ i.WellFormed := by
  have hbuild : buildVeriNodeSpiffeId s p =
      spiffeScheme ++ (veriNodeDomain ++ '/' :: (s ++ '/' :: p)) := by
    rw [buildVeriNodeSpiffeId, List.append_assoc, List.append_assoc, List.cons_append]
  constructor
  · intro h
    have hi := (parse_eq_some_iff.1 h).1
    rw [hbuild, parse_domain_eq_some_iff not_mem_veriNodeDomain] at h
    obtain ⟨hd, -, -, hsplit⟩ := h
    obtain ⟨heq, hs, hp⟩ := splitOn_eq_pair_iff.1 hsplit
    -- there is one slash in what is split, so none in the parts
    have hcount := congrArg (List.count '/') heq
    rw [List.count_append, List.count_append, List.count_cons_self, List.count_cons_self,
      List.count_eq_zero.2 hs, List.count_eq_zero.2 hp] at hcount
    have hfree : '/' ∉ s := List.count_eq_zero.1 (by omega)
    obtain ⟨rfl, rfl⟩ := Separated.append_cons_inj hfree hs heq
    exact ⟨by rw [← hd], hi⟩
  · rintro ⟨rfl, hi⟩
    exact parse_eq_some_iff.2 ⟨hi, build_eq s p⟩

/-- Ids are read and built inversely. -/
theorem spiffe_inverse (u s p : Text) :
    (parseVeriNodeSpiffeId u ≠ none ↔ ∃ d s p, u = spiffeScheme ++ d ++ '/' :: s ++ '/' :: p ∧
        ('/' ∉ d ∧ '/' ∉ s ∧ '/' ∉ p) ∧ s ≠ [] ∧ p ≠ []) ∧
      (∀ d s p, u = spiffeScheme ++ d ++ '/' :: s ++ '/' :: p →
        ('/' ∉ d ∧ '/' ∉ s ∧ '/' ∉ p) ∧ s ≠ [] ∧ p ≠ [] →
          parseVeriNodeSpiffeId u = some ⟨d, s, p⟩) ∧
      parseVeriNodeSpiffeId (buildVeriNodeSpiffeId s p) =
        (if (s ≠ [] ∧ p ≠ []) ∧ '/' ∉ s ∧ '/' ∉ p then some ⟨veriNodeDomain, s, p⟩ else none) ∧
      (parseVeriNodeSpiffeId u = some ⟨veriNodeDomain, s, p⟩ → buildVeriNodeSpiffeId s p = u) := by
  have hread (d s p : Text) (hu : u = spiffeScheme ++ d ++ '/' :: s ++ '/' :: p)
      (h : ('/' ∉ d ∧ '/' ∉ s ∧ '/' ∉ p) ∧ s ≠ [] ∧ p ≠ []) :
      parseVeriNodeSpiffeId u = some ⟨d, s, p⟩ :=
    parse_eq_some_iff.2 ⟨⟨h.1.1, h.1.2.1, h.1.2.2, h.2.1, h.2.2⟩, hu⟩
  refine ⟨⟨fun h => ?_, ?_⟩, hread, ?_, fun h => (parse_eq_some_iff.1 h).2.symm⟩
  · obtain ⟨⟨d, s, p⟩, hi⟩ := Option.ne_none_iff_exists'.1 h
    obtain ⟨hi, hu⟩ := parse_eq_some_iff.1 hi
    exact ⟨d, s, p, hu, ⟨hi.trustDomain, hi.serviceName, hi.podId⟩, hi.serviceName_ne, hi.podId_ne⟩
  · rintro ⟨d, s, p, hu, h⟩
    rw [hread d s p hu h]
    exact Option.some_ne_none _
  · split_ifs with h
    · exact parse_build_eq_some_iff.2 ⟨rfl, not_mem_veriNodeDomain, h.2.1, h.2.2, h.1.1, h.1.2⟩
    · rw [Option.eq_none_iff_forall_ne_some]
      intro i hi
      obtain ⟨rfl, hi⟩ := parse_build_eq_some_iff.1 hi
      exact h ⟨⟨hi.serviceName_ne, hi.podId_ne⟩, hi.serviceName, hi.podId⟩

end Grammar

section Splitting

variable {blank : Bool} {t l q : Text} {c : Char}

/-- What is kept of the parts of a text. -/
def idsOf (blank : Bool) (t : Text) : List Text :=
  (((splitEntries blank t).map trim).filter fun entry => uriPrefix ++ spiffeScheme <+: entry).map
    (·.drop uriPrefix.length)

theorem extractSpiffeIds_some (t : Text) : extractSpiffeIds (some t) = idsOf false t := by
  cases t <;> rfl

theorem splitEntries_cons (blank : Bool) (c : Char) (t : Text) :
    splitEntries blank (c :: t) =
      if c = ',' then [] :: splitEntries true t
      else if blank && isWhitespace c then splitEntries true t
      else (splitEntries false t).modifyHead (c :: ·) := rfl

theorem splitEntries_ne_nil (blank : Bool) (t : Text) : splitEntries blank t ≠ [] := by
  induction t generalizing blank with
  | nil => exact List.cons_ne_nil _ _
  | cons c t ih =>
    rw [splitEntries_cons]
    split_ifs
    · exact List.cons_ne_nil _ _
    · exact ih true
    · rw [Ne, List.modifyHead_eq_nil_iff]
      exact ih false

theorem splitEntries_append (blank : Bool) (t l : Text) :
    splitEntries blank (t ++ ',' :: l) = splitEntries blank t ++ splitEntries true l := by
  induction t generalizing blank with
  | nil => rfl
  | cons c t ih =>
    rw [List.cons_append, splitEntries_cons, splitEntries_cons]
    split_ifs
    · rw [ih, List.cons_append]
    · exact ih true
    · rw [ih]
      obtain ⟨p, ps, hp⟩ := List.exists_cons_of_ne_nil (splitEntries_ne_nil false t)
      rw [hp]
      rfl

theorem idsOf_append (blank : Bool) (t l : Text) :
    idsOf blank (t ++ ',' :: l) = idsOf blank t ++ idsOf true l := by
  unfold idsOf
  rw [splitEntries_append, List.map_append, List.filter_append, List.map_append]

theorem splitEntries_of_no_comma (h : ',' ∉ t) : splitEntries false t = [t] := by
  induction t with
  | nil => rfl
  | cons c t ih =>
    rw [List.mem_cons, not_or] at h
    rw [splitEntries_cons, if_neg (Ne.symm h.1), if_neg (by simp), ih h.2]
    rfl

theorem splitEntries_true (t : Text) :
    splitEntries true t = splitEntries false (t.dropWhile isWhitespace) := by
  induction t with
  | nil => rfl
  | cons c t ih =>
    by_cases hc : isWhitespace c = true
    · have hcomma : c ≠ ',' := by
        rintro rfl
        exact absurd hc (by decide)
      rw [splitEntries_cons, if_neg hcomma, if_pos (by simpa using hc),
        List.dropWhile_cons_of_pos hc, ih]
    · rw [List.dropWhile_cons_of_neg hc, splitEntries_cons, splitEntries_cons]
      simp only [hc, Bool.and_false, Bool.false_eq_true, if_false]

theorem trim_eq (t : Text) : trim t = (t.dropWhile isWhitespace).rdropWhile isWhitespace := rfl

theorem rdropWhile_append (t l : Text) (hc : isWhitespace c = false) :
    (t ++ c :: l).rdropWhile isWhitespace = t ++ c :: l.rdropWhile isWhitespace := by
  unfold List.rdropWhile
  rw [List.reverse_append, List.reverse_cons, List.append_assoc, List.singleton_append,
    List.dropWhile_append]
  split_ifs with h
  · rw [List.isEmpty_iff.1 h, List.dropWhile_cons_of_neg (by simp [hc])]
    simp
  · simp

theorem prefix_rdropWhile_iff (hc : isWhitespace c = false) :
    q ++ [c] <+: t.rdropWhile isWhitespace ↔ q ++ [c] <+: t := by
  refine ⟨fun h => h.trans (List.rdropWhile_prefix isWhitespace t), ?_⟩
  rintro ⟨l, rfl⟩
  rw [List.append_assoc, List.singleton_append, rdropWhile_append q l hc]
  exact ⟨l.rdropWhile isWhitespace, by rw [List.append_assoc, List.singleton_append]⟩

/-- An id begins the text, after white space. -/
def Begins (t : Text) : Prop := uriPrefix ++ spiffeScheme <+: t.dropWhile isWhitespace

instance : DecidablePred Begins := fun _ => inferInstanceAs (Decidable (_ <+: _))

theorem prefix_trim_iff (t : Text) : uriPrefix ++ spiffeScheme <+: trim t ↔ Begins t := by
  rw [trim_eq]
  exact prefix_rdropWhile_iff (q := ['U', 'R', 'I', ':', 's', 'p', 'i', 'f', 'f', 'e', ':', '/'])
    (c := '/') (by decide)

theorem idsOf_of_no_comma (blank : Bool) (h : ',' ∉ t) :
    idsOf blank t = if Begins t then [(trim t).drop uriPrefix.length] else [] := by
  have hids : idsOf blank t = if uriPrefix ++ spiffeScheme <+: trim t
      then [(trim t).drop uriPrefix.length] else [] := by
    have hparts : (splitEntries blank t).map trim = [trim t] := by
      cases blank with
      | false => rw [splitEntries_of_no_comma h, List.map_singleton]
      | true =>
        have hdrop : ',' ∉ t.dropWhile isWhitespace :=
          fun hmem => h ((List.dropWhile_sublist _).subset hmem)
        rw [splitEntries_true, splitEntries_of_no_comma hdrop, List.map_singleton, trim_eq, trim_eq,
          List.dropWhile_idempotent]
    rw [idsOf, hparts]
    split_ifs with hp
    · rw [List.filter_cons_of_pos (by simpa using hp)]
      rfl
    · rw [List.filter_cons_of_neg (by simpa using hp)]
      rfl
  rw [hids]
  exact if_congr (prefix_trim_iff t) rfl rfl

theorem prefix_append_comma_iff (hq : c ∉ q) : q <+: t ++ c :: l ↔ q <+: t := by
  refine ⟨fun h => ?_, fun h => h.trans (List.prefix_append _ _)⟩
  have ht : t ++ [c] <+: t ++ c :: l := ⟨l, by simp⟩
  rcases List.prefix_or_prefix_of_prefix h ht with h | h
  · rcases List.prefix_concat_iff.1 h with rfl | h
    · exact absurd (List.mem_append_right t (List.mem_singleton_self c)) hq
    · exact h
  · exact absurd (h.subset (List.mem_append_right t (List.mem_singleton_self c))) hq

theorem begins_append_iff : Begins (t ++ ',' :: l) ↔ Begins t := by
  have hdrop : (t ++ ',' :: l).dropWhile isWhitespace = t.dropWhile isWhitespace ++ ',' :: l := by
    rw [List.dropWhile_append]
    split_ifs with h
    · rw [List.isEmpty_iff.1 h]
      rfl
    · rfl
  unfold Begins
  rw [hdrop]
  exact prefix_append_comma_iff (by decide)

theorem idsOf_eq_nil_iff (blank : Bool) (t : Text) : idsOf blank t = []
    ↔ ¬ Begins t ∧ ∀ pre post, t = pre ++ ',' :: post → ¬ Begins post := by
  induction hn : t.length using Nat.strong_induction_on generalizing blank t with
  | _ n ih =>
    by_cases hcomma : ',' ∈ t
    · obtain ⟨p, r, rfl, hp⟩ := List.eq_append_cons_of_mem hcomma
      have hlt : r.length < n := by
        rw [← hn, List.length_append, List.length_cons]
        omega
      have hfirst : idsOf blank p = [] ↔ ¬ Begins p := by
        rw [idsOf_of_no_comma blank hp]
        split_ifs with h <;> simp [h]
      rw [idsOf_append, List.append_eq_nil_iff, hfirst, ih _ hlt true r rfl, begins_append_iff]
      refine and_congr_right fun _ => ⟨?_, ?_⟩
      · rintro ⟨hr, hrest⟩ pre post hpost
        rcases List.append_eq_append_iff.1 hpost with ⟨m, rfl, hm⟩ | ⟨m, rfl, hm⟩
        · cases m with
          | nil => exact (List.cons.inj hm).2 ▸ hr
          | cons d m => exact hrest m post (List.cons.inj hm).2
        · cases m with
          | nil => exact (List.cons.inj hm).2 ▸ hr
          | cons d m =>
            obtain ⟨rfl, -⟩ := List.cons.inj hm
            exact absurd (List.mem_append_right pre List.mem_cons_self) hp
      · intro h
        refine ⟨h p r rfl, fun pre post hpost => h (p ++ ',' :: pre) post ?_⟩
        rw [hpost, List.append_assoc, List.cons_append]
    · rw [idsOf_of_no_comma blank hcomma]
      have hnone : ∀ pre post, t = pre ++ ',' :: post → ¬ Begins post := by
        rintro pre post rfl
        exact absurd (List.mem_append_right pre List.mem_cons_self) hcomma
      rw [and_iff_left hnone]
      split_ifs with h <;> simp [h]

theorem no_comma_of_mem_splitEntries {p : Text} (hp : p ∈ splitEntries blank t) : ',' ∉ p := by
  induction t generalizing blank p with
  | nil =>
    rw [List.mem_singleton.1 hp]
    exact List.not_mem_nil
  | cons c t ih =>
    rw [splitEntries] at hp
    split_ifs at hp with hc hblank
    · rcases List.mem_cons.1 hp with rfl | hp
      · exact List.not_mem_nil
      · exact ih hp
    · exact ih hp
    · obtain ⟨first, rest, hsplit⟩ := List.exists_cons_of_ne_nil (splitEntries_ne_nil false t)
      rw [hsplit, List.modifyHead_cons] at hp
      rcases List.mem_cons.1 hp with rfl | hp
      · rw [List.mem_cons, not_or]
        exact ⟨Ne.symm hc, ih (hsplit ▸ List.mem_cons_self)⟩
      · exact ih (hsplit ▸ List.mem_cons_of_mem _ hp)

theorem no_comma_of_mem_idsOf {id : Text} (h : id ∈ idsOf blank t) : ',' ∉ id := by
  obtain ⟨entry, hentry, rfl⟩ := List.mem_map.1 h
  obtain ⟨p, hp, rfl⟩ := List.mem_map.1 (List.mem_of_mem_filter hentry)
  refine fun hmem => no_comma_of_mem_splitEntries hp ?_
  exact (List.dropWhile_sublist _).subset
    ((List.rdropWhile_prefix _ _).subset (List.mem_of_mem_drop hmem))

end Splitting

section Entries

variable {format : SanFormat} {n : AltName} {ns : List AltName}

/-- The SPIFFE ids among the names. -/
def spiffeIds (ns : List AltName) : List Text :=
  (ns.filter fun n => n.type = .uri ∧ spiffeScheme <+: n.value).map AltName.value

/-- An id is written as it is and has no white space at its end, and in no literal does an id begin
after a comma. -/
structure SanFormat.Harmless (format : SanFormat) (n : AltName) : Prop where
  plain : n.type = .uri → spiffeScheme <+: n.value → n.value.any format.special = false
  trimmed : n.type = .uri → spiffeScheme <+: n.value →
    ∀ h : n.value ≠ [], ¬ isWhitespace (n.value.getLast h)
  literal : n.value.any format.special = true →
    ∀ pre post, format.literal n.value = pre ++ ',' :: post → ¬ Begins post

theorem label_cons (type : NameType) :
    ∃ c l, type.label = c :: l ∧ isWhitespace c = false ∧ ',' ∉ type.label := by
  cases type <;> exact ⟨_, _, rfl, rfl, by decide⟩

theorem begins_label_iff (type : NameType) (v : Text) :
    Begins (type.label ++ ':' :: v) ↔ type = .uri ∧ spiffeScheme <+: v := by
  have huri : NameType.uri.label ++ ':' :: v = uriPrefix ++ v := rfl
  unfold Begins
  cases type with
  | uri =>
    rw [huri, show (uriPrefix ++ v).dropWhile isWhitespace = uriPrefix ++ v from rfl,
      List.prefix_append_right_inj]
    exact (and_iff_right rfl).symm
  | dns => exact iff_of_false (fun h => absurd (List.cons_prefix_cons.1 h).1 (by decide)) (by simp)
  | email => exact iff_of_false (fun h => absurd (List.cons_prefix_cons.1 h).1 (by decide)) (by simp)
  | ip => exact iff_of_false (fun h => absurd (List.cons_prefix_cons.1 h).1 (by decide)) (by simp)

theorem trim_label (type : NameType) (v : Text) :
    trim (type.label ++ ':' :: v) = type.label ++ ':' :: v.rdropWhile isWhitespace := by
  have hdrop : (type.label ++ ':' :: v).dropWhile isWhitespace = type.label ++ ':' :: v := by
    cases type <;> rfl
  rw [trim_eq, hdrop, rdropWhile_append _ _ (by decide)]

theorem entry_special (h : n.value.any format.special = true) :
    format.entry n = n.type.label ++ ':' :: format.literal n.value := by
  rw [SanFormat.entry, if_pos h]

theorem entry_plain (h : n.value.any format.special = false) :
    format.entry n = n.type.label ++ ':' :: n.value := by
  rw [SanFormat.entry, if_neg (by simp [h])]

theorem idsOf_entry_plain (h : n.value.any format.special = false) :
    idsOf false (format.entry n) = if n.type = .uri ∧ spiffeScheme <+: n.value
      then [n.value.rdropWhile isWhitespace] else [] := by
  have hvalue : ',' ∉ n.value := fun hmem => by
    have := List.any_eq_false.1 h ',' hmem
    exact this format.comma_special
  have hcomma : ',' ∉ n.type.label ++ ':' :: n.value := by
    obtain ⟨-, -, -, -, hlabel⟩ := label_cons n.type
    simp [hlabel, hvalue]
  rw [entry_plain h, idsOf_of_no_comma false hcomma, trim_label]
  refine ite_congr (propext (begins_label_iff _ _)) (fun huri => ?_) (fun _ => rfl)
  rw [huri.1]
  rfl

theorem exists_comma_of_append {a b pre post : Text} (ha : ',' ∉ a)
    (h : a ++ b = pre ++ ',' :: post) : ∃ m, b = m ++ ',' :: post := by
  rcases List.append_eq_append_iff.1 h with ⟨m, rfl, hm⟩ | ⟨m, rfl, hm⟩
  · exact ⟨m, hm⟩
  · cases m with
    | nil => exact ⟨[], hm.symm⟩
    | cons d m =>
      obtain ⟨rfl, -⟩ := List.cons.inj hm
      exact absurd (List.mem_append_right pre List.mem_cons_self) ha

theorem idsOf_entry_special_iff (h : n.value.any format.special = true) :
    idsOf false (format.entry n) = []
      ↔ ∀ pre post, format.literal n.value = pre ++ ',' :: post → ¬ Begins post := by
  obtain ⟨-, -, -, -, hlabel⟩ := label_cons n.type
  have hlabel' : ',' ∉ n.type.label ++ [':'] := by simp [hlabel]
  have hbegins : ¬ Begins (n.type.label ++ ':' :: format.literal n.value) := by
    rw [begins_label_iff]
    rintro ⟨-, hpre⟩
    obtain ⟨body, hbody⟩ := format.literal_quoted n.value
    rw [hbody] at hpre
    exact absurd (List.cons_prefix_cons.1 hpre).1 (by decide)
  rw [entry_special h, idsOf_eq_nil_iff, and_iff_right hbegins]
  constructor
  · intro hnone pre post hpost
    exact hnone (n.type.label ++ ':' :: pre) post (by simp [hpost])
  · intro hnone pre post hpost
    rw [← List.singleton_append, ← List.append_assoc] at hpost
    obtain ⟨m, hm⟩ := exists_comma_of_append hlabel' hpost
    exact hnone m post hm

theorem spiffeIds_cons (n : AltName) (ns : List AltName) :
    spiffeIds (n :: ns) = spiffeIds [n] ++ spiffeIds ns := by
  unfold spiffeIds
  rw [← List.singleton_append, List.filter_append, List.map_append]

theorem spiffeIds_singleton (n : AltName) :
    spiffeIds [n] = if n.type = .uri ∧ spiffeScheme <+: n.value then [n.value] else [] := by
  unfold spiffeIds
  split_ifs with h
  · rw [List.filter_cons_of_pos (by simpa using h)]
    rfl
  · rw [List.filter_cons_of_neg (by simpa using h)]
    rfl

theorem idsOf_entry_iff : idsOf false (format.entry n) = spiffeIds [n] ↔ format.Harmless n := by
  rw [spiffeIds_singleton]
  by_cases hspecial : n.value.any format.special = true
  · by_cases huri : n.type = .uri ∧ spiffeScheme <+: n.value
    · rw [if_pos huri]
      refine iff_of_false (fun h => ?_) fun h => ?_
      · -- the value is read, so it has no commas, nor has its literal
        have hvalue : ',' ∉ n.value :=
          no_comma_of_mem_idsOf (h ▸ List.mem_singleton_self n.value)
        have hnone := (idsOf_entry_special_iff hspecial).2 fun pre post hpost =>
          absurd (format.literal_comma n.value
            (hpost ▸ List.mem_append_right pre List.mem_cons_self)) hvalue
        rw [hnone] at h
        exact nomatch h
      · exact Bool.false_ne_true ((h.plain huri.1 huri.2).symm.trans hspecial)
    · rw [if_neg huri, idsOf_entry_special_iff hspecial]
      exact ⟨fun h => ⟨fun h1 h2 => absurd ⟨h1, h2⟩ huri, fun h1 h2 => absurd ⟨h1, h2⟩ huri,
        fun _ => h⟩, fun h => h.literal hspecial⟩
  · have hplain := eq_false_of_ne_true hspecial
    rw [idsOf_entry_plain hplain]
    split_ifs with huri
    · rw [List.cons_eq_cons, and_iff_left rfl, List.rdropWhile_eq_self_iff]
      exact ⟨fun h => ⟨fun _ _ => hplain, fun _ _ => h, fun hs => absurd hs hspecial⟩,
        fun h => h.trimmed huri.1 huri.2⟩
    · exact iff_of_true rfl ⟨fun _ _ => hplain, fun h1 h2 => absurd ⟨h1, h2⟩ huri,
        fun hs => absurd hs hspecial⟩

theorem render_cons_cons (n m : AltName) (ns : List AltName) :
    format.render (n :: m :: ns) = format.entry n ++ ',' :: ' ' :: format.render (m :: ns) := by
  unfold SanFormat.render
  rw [List.map_cons, List.map_cons, List.intercalate_cons_cons, List.append_assoc]
  rfl

theorem dropWhile_render (n : AltName) (ns : List AltName) :
    (' ' :: format.render (n :: ns)).dropWhile isWhitespace = format.render (n :: ns) := by
  obtain ⟨c, l, hlabel, hc, -⟩ := label_cons n.type
  have hhead : ∃ rest, format.render (n :: ns) = c :: rest := by
    cases ns with
    | nil => exact ⟨_, by rw [SanFormat.render, List.map_singleton, List.intercalate_singleton,
        SanFormat.entry, hlabel, List.cons_append]⟩
    | cons m ns => exact ⟨_, by rw [render_cons_cons, SanFormat.entry, hlabel, List.cons_append,
        List.cons_append]⟩
  obtain ⟨rest, hrest⟩ := hhead
  rw [hrest, List.dropWhile_cons_of_pos (by decide), List.dropWhile_cons_of_neg (by simp [hc])]

theorem idsOf_render (ns : List AltName) :
    idsOf false (format.render ns) = ns.flatMap fun n => idsOf false (format.entry n) := by
  induction ns with
  | nil => rfl
  | cons n ns ih =>
    cases ns with
    | nil =>
      rw [SanFormat.render, List.map_singleton, List.intercalate_singleton, List.flatMap_singleton]
    | cons m ns =>
      have hskip : idsOf true (' ' :: format.render (m :: ns))
          = idsOf false (format.render (m :: ns)) := by
        rw [idsOf, splitEntries_true, dropWhile_render, idsOf]
      rw [render_cons_cons, idsOf_append, hskip, ih]
      rfl

end Entries

section Certificates

variable {format : SanFormat} {ns : List AltName}

/-- An id of the trust domain, and an allowed one where some are listed. -/
def Allowed (trustDomain : Text) (allowedSpiffeIds : List Text) (id : Text) : Prop :=
  spiffeScheme ++ trustDomain ++ ['/'] <+: id ∧ (allowedSpiffeIds = [] ∨ id ∈ allowedSpiffeIds)

/-- The service that the first URI name tells that is well formed and of the domain. -/
def firstService (ns : List AltName) : Option Text :=
  (ns.filter fun n => n.type = .uri).findSome? fun n => veriNodeService n.value

/-- The ids are those of the URI names, and who is let in has a name that says so. -/
structure Exact (format : SanFormat) (ns : List AltName) : Prop where
  ids : extractSpiffeIds (some (format.render ns)) = spiffeIds ns
  peer : ∀ trustDomain allowed,
    validatePeerCertificate (some (format.render ns)) trustDomain allowed = true →
      ∃ n ∈ ns, n.type = .uri ∧ Allowed trustDomain allowed n.value
  service : ∀ allowed, verifyPeerServiceIdentity (some (format.render ns)) allowed = true →
    ∃ name, firstService ns = some name ∧ (allowed = [] ∨ name ∈ allowed)

theorem spiffeScheme_of_veriNodeService {id name : Text} (h : veriNodeService id = some name) :
    spiffeScheme <+: id := by
  by_contra hpre
  rw [veriNodeService, parseVeriNodeSpiffeId, if_neg hpre] at h
  exact nomatch h

theorem findSome?_spiffeIds (ns : List AltName) :
    (spiffeIds ns).findSome? veriNodeService = firstService ns := by
  induction ns with
  | nil => rfl
  | cons n ns ih =>
    rw [spiffeIds_cons, spiffeIds_singleton, firstService]
    by_cases htype : n.type = .uri
    · rw [List.filter_cons_of_pos (by simpa using htype), List.findSome?_cons]
      by_cases hpre : spiffeScheme <+: n.value
      · rw [if_pos ⟨htype, hpre⟩, List.singleton_append, List.findSome?_cons, ih, firstService]
      · have hnone : veriNodeService n.value = none := by
          rw [Option.eq_none_iff_forall_ne_some]
          exact fun name hname => hpre (spiffeScheme_of_veriNodeService hname)
        rw [if_neg (fun h => hpre h.2), List.nil_append, ih, hnone, firstService]
    · rw [List.filter_cons_of_neg (by simpa using htype), if_neg (fun h => htype h.1),
        List.nil_append, ih, firstService]

theorem exact_of_ids (h : extractSpiffeIds (some (format.render ns)) = spiffeIds ns) :
    Exact format ns where
  ids := h
  peer trustDomain allowed hpeer := by
    rw [validatePeerCertificate, h, validateSpiffeIdentity, List.any_eq_true] at hpeer
    obtain ⟨id, hid, hallowed⟩ := hpeer
    obtain ⟨n, hn, rfl⟩ := List.mem_map.1 hid
    rw [List.mem_filter, decide_eq_true_eq] at hn
    rw [Bool.and_eq_true, Bool.or_eq_true, List.isPrefixOf_iff_prefix, List.isEmpty_iff,
      decide_eq_true_eq] at hallowed
    exact ⟨n, hn.1, hn.2.1, hallowed⟩
  service allowed hservice := by
    rw [verifyPeerServiceIdentity, extractVeriNodeServiceName, h, findSome?_spiffeIds] at hservice
    cases hname : firstService ns with
    | none =>
      rw [hname] at hservice
      exact absurd hservice Bool.false_ne_true
    | some name =>
      rw [hname] at hservice
      dsimp only at hservice
      rw [Bool.or_eq_true, List.isEmpty_iff, decide_eq_true_eq] at hservice
      exact ⟨name, rfl, hservice⟩

theorem exact_of_harmless (h : ∀ n ∈ ns, format.Harmless n) : Exact format ns := by
  refine exact_of_ids ?_
  rw [extractSpiffeIds_some, idsOf_render]
  induction ns with
  | nil => rfl
  | cons n ns ih =>
    rw [List.forall_mem_cons] at h
    rw [List.flatMap_cons, spiffeIds_cons, idsOf_entry_iff.2 h.1, ih h.2]

/-- The certificates with names of a kind are read exactly if the names of the kind are harmless. -/
theorem extract_exact_iff (format : SanFormat) (kind : AltName → Prop) :
    (∀ ns, (∀ n ∈ ns, kind n) → Exact format ns) ↔ ∀ n, kind n → format.Harmless n := by
  constructor
  · intro h n hn
    have hids := (h [n] (List.forall_mem_singleton.2 hn)).ids
    rw [extractSpiffeIds_some, idsOf_render, List.flatMap_singleton] at hids
    exact idsOf_entry_iff.1 hids
  · exact fun h ns hns => exact_of_harmless fun n hn => h n (hns n hn)

/-- A character of a literal, commas escaped as well. -/
def nodeEscape (c : Char) : Text :=
  if c = '\\' ∨ c = '"' then ['\\', c]
  else if 0x20 ≤ c.toNat ∧ c.toNat ≤ 0x7E ∧ c ≠ ',' then [c]
  else ['\\', 'u', '0', '0', hexDigit (c.toNat / 16 % 16), hexDigit (c.toNat % 16)]

theorem hexDigit_ne_comma : ∀ n < 16, hexDigit n ≠ ',' := by decide

theorem no_comma_of_nodeEscape (c : Char) : ',' ∉ nodeEscape c := by
  have hhigh := hexDigit_ne_comma (c.toNat / 16 % 16) (Nat.mod_lt _ (by decide))
  have hlow := hexDigit_ne_comma (c.toNat % 16) (Nat.mod_lt _ (by decide))
  unfold nodeEscape
  split_ifs with hquote hplain
  · rcases hquote with rfl | rfl <;> decide
  · simpa using Ne.symm hplain.2.2
  · simp [Ne.symm hhigh, Ne.symm hlow]

/-- The format of Node: literals where there are quotes, commas, backslashes, or what is not
printable ASCII. -/
def nodeFormat : SanFormat where
  special c := c ∈ ['"', '\\', ',', '\''] || c.toNat < 0x20 || 0x7E < c.toNat
  literal value := '"' :: value.flatMap nodeEscape ++ ['"']
  comma_special := rfl
  literal_quoted value := ⟨_, rfl⟩
  literal_comma value h := by
    rw [List.cons_append, List.mem_cons, List.mem_append, List.mem_flatMap] at h
    rcases h with h | ⟨c, -, h⟩ | h
    · exact absurd h (by decide)
    · exact absurd h (no_comma_of_nodeEscape c)
    · exact absurd h (by decide)

/-- A URI name with a blank at its end, and the id without it. -/
theorem blank_let_in :
    validatePeerCertificate
        (some (nodeFormat.render [⟨.uri, "spiffe://cluster.local/api ".toList⟩]))
        "cluster.local".toList ["spiffe://cluster.local/api".toList] = true
      ∧ ¬ Exact nodeFormat [⟨.uri, "spiffe://cluster.local/api ".toList⟩] := by
  have hpeer : validatePeerCertificate
      (some (nodeFormat.render [⟨.uri, "spiffe://cluster.local/api ".toList⟩]))
      "cluster.local".toList ["spiffe://cluster.local/api".toList] = true := by decide
  refine ⟨hpeer, fun h => ?_⟩
  obtain ⟨n, hn, -, hallowed⟩ := h.peer _ _ hpeer
  obtain rfl := List.mem_singleton.1 hn
  exact absurd hallowed.2 (by decide)

end Certificates

end Mtls

end VeriNode
