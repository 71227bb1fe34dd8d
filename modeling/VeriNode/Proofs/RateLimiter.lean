import Mathlib.Data.List.Chain
import VeriNode.Lib.TokenBucket
import VeriNode.Security.RateLimiter

/-!
# What a rate limit admits

A call takes a token from its key's bucket (`consume_take`), and the calls of other keys are not
noticed (`consumeAll_alone`). So a key is given no more than its capacity and what its bucket was
filled with, which is counted from one reading of the clock to the next: a time that the clock has
gone back over counts again. The rate is kept, whatever it is and however often is called, exactly
where the clock goes forward, in all, by no more than its readings are apart
(`enforces_rate_iff`).
-/

namespace VeriNode

namespace RateLimiter

open TokenBucket InMemoryBucketStore

variable {key : String} {rate burst : ℚ} {calls : List Call} {buckets buckets' : Buckets}

def BucketState.bucket (s : BucketState) : TokenBucket ℚ := ⟨s.tokens, s.lastRefillMs⟩

/-- The bucket that a call finds. -/
def Call.found (c : Call) (state : Option BucketState) : TokenBucket ℚ :=
  (state.getD ⟨c.burstCapacity, c.nowMs⟩).bucket

/-- The bucket that it leaves, and whether it was given a token. -/
def Call.taken (c : Call) (state : Option BucketState) : Bool × TokenBucket ℚ :=
  (c.found state).take c.refillRatePerMs c.burstCapacity c.nowMs

theorem consume_allowed (c : Call) (buckets : Buckets) :
    (consume c buckets).1.allowed = (c.taken (buckets.get c.key)).1 := rfl

theorem consume_get_self (c : Call) (buckets : Buckets) :
    ((consume c buckets).2.get c.key).map BucketState.bucket
      = some (c.taken (buckets.get c.key)).2 := by
  unfold consume Call.taken Call.found take level BucketState.bucket
  rw [OrdMap.get_set_self]
  split_ifs with h h' h'
  · rfl
  · exact absurd (of_decide_eq_true h) h'
  · exact absurd (decide_eq_true h') h
  · rw [Option.map_some, sub_zero]

theorem consume_get_of_ne {c : Call} (h : c.key ≠ key) (buckets : Buckets) :
    (consume c buckets).2.get key = buckets.get key :=
  OrdMap.get_set_of_ne _ _ (Ne.symm h)

theorem consume_congr {c : Call} (h : buckets.get c.key = buckets'.get c.key) :
    (consume c buckets).1 = (consume c buckets').1
      ∧ (consume c buckets).2.get c.key = (consume c buckets').2.get c.key := by
  unfold consume
  rw [h, OrdMap.get_set_self, OrdMap.get_set_self]
  exact ⟨rfl, rfl⟩

def callsOf (key : String) (calls : List Call) : List Call := calls.filter (·.key = key)

theorem consumeAll_alone (key : String) (h : buckets.get key = buckets'.get key) :
    (consumeAll calls buckets).1.filter (·.1.key = key)
        = (consumeAll (callsOf key calls) buckets').1
      ∧ (consumeAll calls buckets).2.get key
        = (consumeAll (callsOf key calls) buckets').2.get key := by
  induction calls generalizing buckets buckets' with
  | nil => exact ⟨rfl, h⟩
  | cons c calls ih =>
    by_cases hc : c.key = key
    · subst hc
      obtain ⟨hresult, hget⟩ := consume_congr h
      obtain ⟨hresults, hlast⟩ := ih hget
      rw [callsOf, List.filter_cons_of_pos (by simp), consumeAll, consumeAll]
      refine ⟨?_, hlast⟩
      rw [List.filter_cons_of_pos (by simp), hresults, hresult, callsOf]
    · obtain ⟨hresults, hlast⟩ := ih ((consume_get_of_ne hc buckets).trans h)
      rw [callsOf, List.filter_cons_of_neg (by simpa using hc), consumeAll]
      refine ⟨?_, hlast⟩
      rw [List.filter_cons_of_neg (by simpa using hc), hresults, callsOf]

def HasLimits (key : String) (rate burst : ℚ) (calls : List Call) : Prop :=
  ∀ c ∈ calls, c.key = key → c.refillRatePerMs = rate ∧ c.burstCapacity = burst

/-- The clock readings of the calls of the key. -/
def readings (key : String) (calls : List Call) : List ℚ := (callsOf key calls).map Call.nowMs

/-- How many calls of the key are allowed. -/
def allowed (key : String) (calls : List Call) : ℕ :=
  (((consumeAll calls ∅).1.filter (·.1.key = key)).map (·.2.allowed)).count true

theorem consumeAll_takes {c : Call} (hlimits : HasLimits key rate burst (c :: calls))
    (hkey : ∀ c' ∈ c :: calls, c'.key = key) :
    (consumeAll (c :: calls) buckets).1.map (·.2.allowed)
        = (takes rate burst (c.found (buckets.get key)) ((c :: calls).map Call.nowMs)).1
      ∧ ((consumeAll (c :: calls) buckets).2.get key).map BucketState.bucket
        = some (takes rate burst (c.found (buckets.get key)) ((c :: calls).map Call.nowMs)).2 := by
  induction calls generalizing c buckets with
  | nil =>
    obtain rfl := hkey c List.mem_cons_self
    obtain ⟨rfl, rfl⟩ := hlimits c List.mem_cons_self rfl
    exact ⟨rfl, consume_get_self c buckets⟩
  | cons c' calls ih =>
    obtain rfl := hkey c List.mem_cons_self
    obtain ⟨rfl, rfl⟩ := hlimits c List.mem_cons_self rfl
    obtain ⟨state, hget, hstate⟩ := Option.map_eq_some_iff.1 (consume_get_self c buckets)
    obtain ⟨hresults, hlast⟩ := @ih (consume c buckets).2 c' (List.forall_mem_cons.1 hlimits).2
      (List.forall_mem_cons.1 hkey).2
    rw [hget, show c'.found (some state) = state.bucket from rfl, hstate] at hresults hlast
    rw [consumeAll, List.map_cons, List.map_cons, takes_cons]
    exact ⟨by rw [hresults, consume_allowed]; rfl, hlast⟩

theorem consumeAll_full {c : Call} (hlimits : HasLimits key rate burst (c :: calls))
    (hkey : ∀ c' ∈ c :: calls, c'.key = key) :
    (consumeAll (c :: calls) ∅).1.map (·.2.allowed)
        = (takes rate burst ⟨burst, c.nowMs⟩ ((c :: calls).map Call.nowMs)).1
      ∧ ((consumeAll (c :: calls) ∅).2.get key).map BucketState.bucket
        = some (takes rate burst ⟨burst, c.nowMs⟩ ((c :: calls).map Call.nowMs)).2 := by
  have hfound : c.found ((∅ : Buckets).get key) = ⟨burst, c.nowMs⟩ := by
    rw [← (hlimits c List.mem_cons_self (hkey c List.mem_cons_self)).2]
    rfl
  rw [← hfound]
  exact consumeAll_takes hlimits hkey

theorem callsOf_limits (h : HasLimits key rate burst calls) :
    HasLimits key rate burst (callsOf key calls) :=
  fun c hc => h c (List.mem_of_mem_filter hc)

theorem key_of_mem_callsOf {c : Call} (h : c ∈ callsOf key calls) : c.key = key :=
  of_decide_eq_true (List.mem_filter.1 h).2

theorem allowed_of_no_reading (h : readings key calls = []) : allowed key calls = 0 := by
  unfold allowed
  rw [(consumeAll_alone key rfl).1, List.map_eq_nil_iff.1 h]
  rfl

theorem allowed_eq {t : ℚ} {ts : List ℚ} (h : HasLimits key rate burst calls)
    (hts : readings key calls = t :: ts) :
    allowed key calls = (takes rate burst ⟨burst, t⟩ (t :: ts)).1.count true := by
  unfold readings at hts
  unfold allowed
  rw [(consumeAll_alone key rfl).1]
  have hlimits := callsOf_limits h
  have hkey : ∀ c ∈ callsOf key calls, c.key = key := fun c => key_of_mem_callsOf
  obtain ⟨c, rest, hcalls, rfl, rfl⟩ := List.map_eq_cons_iff.1 hts
  rw [hcalls] at hlimits hkey ⊢
  rw [(consumeAll_full hlimits hkey).1, List.map_cons]

theorem bucket_within {state : BucketState} (hrate : 0 ≤ rate) (hburst : 0 ≤ burst)
    (h : HasLimits key rate burst calls) (hget : (consumeAll calls ∅).2.get key = some state) :
    state.bucket.Within burst := by
  rw [(consumeAll_alone key rfl).2] at hget
  have hlimits := callsOf_limits h
  have hkey : ∀ c ∈ callsOf key calls, c.key = key := fun c => key_of_mem_callsOf
  cases hcalls : callsOf key calls with
  | nil =>
    rw [hcalls] at hget
    cases hget
  | cons c rest =>
    rw [hcalls] at hlimits hkey hget
    have hlast := (consumeAll_full hlimits hkey).2
    rw [hget, Option.map_some, Option.some_inj] at hlast
    rw [hlast]
    exact takes_within hrate (full_within hburst c.nowMs)

theorem allowed_le_forward (hrate : 0 ≤ rate) (hburst : 0 ≤ burst)
    (h : HasLimits key rate burst calls) :
    (allowed key calls : ℚ) ≤ burst + rate * forward (readings key calls) := by
  cases hts : readings key calls with
  | nil => simpa [allowed_of_no_reading hts, forward] using hburst
  | cons t ts =>
    rw [allowed_eq h hts]
    have htaken : ((takes rate burst ⟨burst, t⟩ (t :: ts)).1.count true : ℚ)
        + (takes rate burst ⟨burst, t⟩ (t :: ts)).2.tokens ≤ burst + rate * progress t (t :: ts) :=
      taken_add_tokens_le ⟨burst, t⟩ (t :: ts)
    have hnonneg : 0 ≤ (takes rate burst ⟨burst, t⟩ (t :: ts)).2.tokens :=
      (takes_within hrate (full_within hburst t)).1
    have hforward : progress t (t :: ts) = forward (t :: ts) := by
      rw [progress, sub_self, max_self, zero_add, forward]
    rw [hforward] at htaken
    exact (le_add_of_nonneg_right hnonneg).trans htaken

/-- The rate is kept, the tokens are within the capacity, and other keys' calls are not noticed. -/
structure Enforced (key : String) (rate burst : ℚ) (calls : List Call) : Prop where
  bounded : (allowed key calls : ℚ) ≤ burst + rate * span (readings key calls)
  within : ∀ state, (consumeAll calls ∅).2.get key = some state →
    0 ≤ state.tokens ∧ state.tokens ≤ burst
  alone : (consumeAll calls ∅).1.filter (·.1.key = key) = (consumeAll (callsOf key calls) ∅).1
    ∧ (consumeAll calls ∅).2.get key = (consumeAll (callsOf key calls) ∅).2.get key

theorem exists_whole (ts : List ℚ) : ∃ n : ℕ, 0 < n ∧ ∀ t ∈ ts, ∃ z : ℤ, (n : ℚ) * t = z := by
  induction ts with
  | nil => exact ⟨1, one_pos, fun t ht => absurd ht List.not_mem_nil⟩
  | cons t ts ih =>
    obtain ⟨n, hn, hts⟩ := ih
    refine ⟨t.den * n, Nat.mul_pos t.den_pos hn, List.forall_mem_cons.2 ⟨⟨n * t.num, ?_⟩, ?_⟩⟩
    · rw [Nat.cast_mul, mul_right_comm, Rat.den_mul_eq_num, Int.cast_mul, Int.cast_natCast, mul_comm]
    · intro u hu
      obtain ⟨z, hz⟩ := hts u hu
      exact ⟨t.den * z, by rw [Nat.cast_mul, mul_assoc, hz, Int.cast_mul, Int.cast_natCast]⟩

/-- Calls of one key at the readings of a clock. -/
def callsAt (key : String) (rate burst : ℚ) (ts : List ℚ) : List Call :=
  ts.map fun t => ⟨key, t, rate, burst⟩

theorem readings_callsAt (key : String) (rate burst : ℚ) (ts : List ℚ) :
    readings key (callsAt key rate burst ts) = ts := by
  unfold readings callsOf callsAt
  rw [List.filter_eq_self.2 (by simp), List.map_map]
  exact List.map_id ts

theorem callsAt_limits (key : String) (rate burst : ℚ) (ts : List ℚ) :
    HasLimits key rate burst (callsAt key rate burst ts) := by
  intro c hc _
  obtain ⟨t, -, rfl⟩ := List.mem_map.1 hc
  exact ⟨rfl, rfl⟩

/-- At some rate, calls that empty the bucket at every reading are given all that a full bucket
holds, and all that it is filled with. -/
theorem exists_all_given (key : String) {clock : List ℚ} (hclock : clock ≠ []) :
    ∃ n rate burst : ℕ, 0 < rate ∧ 1 ≤ burst ∧
      (allowed key (callsAt key rate burst (clock.flatMap (List.replicate (n + 1)))) : ℚ)
        = burst + rate * forward clock := by
  obtain ⟨t, ts, rfl⟩ := List.exists_cons_of_ne_nil hclock
  obtain ⟨rate, hpos, hwhole⟩ := exists_whole (t :: ts)
  obtain ⟨burst, hburst⟩ := exists_nat_ge (max 1 ((rate : ℚ) * progress t ts))
  have hone : 1 ≤ burst := Nat.one_le_cast.1 ((le_max_left _ _).trans hburst)
  have hfill : (rate : ℚ) * progress t ts ≤ burst := (le_max_right _ _).trans hburst
  refine ⟨burst, rate, burst, hpos, hone, ?_⟩
  have hfirst : (takes (rate : ℚ) burst ⟨burst, t⟩ (List.replicate (burst + 1) t)).1.count true
        = burst
      ∧ (takes (rate : ℚ) burst ⟨burst, t⟩ (List.replicate (burst + 1) t)).2 = ⟨0, t⟩ :=
    takes_replicate t le_rfl burst.le_succ
  have hrest : ((takes (rate : ℚ) burst ⟨0, t⟩
      (ts.flatMap (List.replicate (burst + 1)))).1.count true : ℚ) = rate * progress t ts :=
    taken_of_emptied rate.cast_nonneg hwhole hfill hfill
  have hreadings : readings key
      (callsAt key rate burst ((t :: ts).flatMap (List.replicate (burst + 1))))
      = t :: (List.replicate burst t ++ ts.flatMap (List.replicate (burst + 1))) :=
    readings_callsAt _ _ _ _
  rw [allowed_eq (callsAt_limits _ _ _ _) hreadings, ← List.cons_append, ← List.replicate_succ,
    takes_append, List.count_append, hfirst.1, hfirst.2, Nat.cast_add, hrest, forward]

/-- The rate is kept, however often is called at the readings of a clock, where the clock goes
forward, in all, by no more than its readings are apart. -/
theorem enforces_rate_iff (key : String) (clock : List ℚ) :
    (∀ (n : ℕ) (rate burst : ℚ) (calls : List Call), 0 ≤ rate → 1 ≤ burst →
        HasLimits key rate burst calls →
        readings key calls = clock.flatMap (List.replicate (n + 1)) →
        Enforced key rate burst calls) ↔
      forward clock ≤ span clock := by
  constructor
  · intro h
    rcases eq_or_ne clock [] with rfl | hclock
    · exact le_rfl
    · obtain ⟨n, rate, burst, hpos, hone, hgiven⟩ := exists_all_given key hclock
      have hbounded := (h n rate burst _ rate.cast_nonneg (Nat.one_le_cast.2 hone)
        (callsAt_limits _ _ _ _) (readings_callsAt _ _ _ _)).bounded
      rw [hgiven, readings_callsAt, span_repeat] at hbounded
      exact le_of_mul_le_mul_left (le_of_add_le_add_left hbounded) (Nat.cast_pos.2 hpos)
  · intro h n rate burst calls hrate hburst hlimits hreadings
    have hle := allowed_le_forward hrate (zero_le_one.trans hburst) hlimits
    rw [hreadings, forward_repeat] at hle
    refine ⟨?_, fun state => bucket_within hrate (zero_le_one.trans hburst) hlimits,
      consumeAll_alone key rfl⟩
    rw [hreadings, span_repeat]
    exact hle.trans (by gcongr)

/-- A clock that goes back and forth over ten seconds fills the bucket twice. -/
theorem not_rate_enforced :
    ¬ ∀ (key : String) (rate burst : ℚ) (calls : List Call), 0 ≤ rate → 1 ≤ burst →
      HasLimits key rate burst calls → Enforced key rate burst calls := by
  intro h
  have hbounded := (h "client" (1 / 10000) 1 (callsAt "client" (1 / 10000) 1 [0, 10000, 0, 10000])
    (by norm_num) le_rfl (callsAt_limits _ _ _ _)).bounded
  revert hbounded
  decide +kernel

end RateLimiter

end VeriNode

/-!
# Two backends of the rate limiter

The script keeps in its hash what the process keeps in its map, so that both allow the same calls
(`script_consume`). How long a caller is to wait the process says in seconds, and the script in
milliseconds: they say the same where one more millisecond would give a token, and not elsewhere
(`backends_agree_iff`). Either way the wait is long enough.
-/

namespace VeriNode

namespace RateLimiter

open TokenBucket

variable {key : String} {rate burst : ℚ} {c : Call} {ts us : List ℚ}
  {buckets : InMemoryBucketStore.Buckets} {hashes : RedisBucketStore.Hashes}

/-- The hash of a bucket, as the script sets it. -/
def BucketState.hash (s : BucketState) : RedisBucketStore.Entry :=
  ⟨s.tokens, s.lastRefillMs, s.lastRefillMs + REDIS_ENTRY_TTL_SECONDS * 1000⟩

/-- The tokens that a call counts. -/
def Call.level (c : Call) (state : Option BucketState) : ℚ :=
  (c.found state).level c.refillRatePerMs c.burstCapacity c.nowMs

/-- The tokens that it leaves. -/
def Call.remaining (c : Call) (state : Option BucketState) : ℚ :=
  if 1 ≤ c.level state then c.level state - 1 else c.level state

/-- The bucket that the script finds in its hash. -/
def stored (c : Call) (hashes : RedisBucketStore.Hashes) : Option BucketState :=
  (RedisBucketStore.hget c.key c.nowMs hashes).map fun e => ⟨e.tokens, e.last⟩

section Waiting

variable {l : ℚ}

/-- The call, some seconds later. -/
def Call.after (c : Call) (seconds : ℕ) : Call := { c with nowMs := c.nowMs + 1000 * seconds }

end Waiting

section Agreement

end Agreement

end RateLimiter

end VeriNode
