import VeriNode.Lib.OrdMap
import Mathlib.Algebra.Order.Archimedean.Basic
import Mathlib.Data.Rat.Floor

/-!
# The rate limiter's buckets

The two stores of `src/security/rate_limiter.ts`: a map in the process, and a script that Redis runs
on a hash with an expiry. Times are milliseconds of the caller's clock, which Redis is taken to
share. Numbers are exact.
-/

namespace VeriNode

namespace RateLimiter

def REDIS_ENTRY_TTL_SECONDS : ℚ := 3600

structure BucketState where
  tokens : ℚ
  lastRefillMs : ℚ
deriving DecidableEq

structure ConsumeResult where
  allowed : Bool
  /-- None is `Infinity`. -/
  retryAfterSeconds : Option ℕ
deriving DecidableEq

def retryAfterFromTokens (tokens refillRatePerMs : ℚ) : Option ℕ :=
  if 1 ≤ tokens then some 0
  else if refillRatePerMs = 0 then none
  else some (max 1 ⌈(1 - tokens) / (refillRatePerMs * 1000)⌉₊)

/-- The arguments of `consume`. -/
structure Call where
  key : String
  nowMs : ℚ
  refillRatePerMs : ℚ
  burstCapacity : ℚ

namespace InMemoryBucketStore

abbrev Buckets := OrdMap String BucketState

def consume (c : Call) (buckets : Buckets) : ConsumeResult × Buckets :=
  let existing := (buckets.get c.key).getD ⟨c.burstCapacity, c.nowMs⟩
  let elapsed := max 0 (c.nowMs - existing.lastRefillMs)
  let tokens := min c.burstCapacity (existing.tokens + elapsed * c.refillRatePerMs)
  let allowed : Bool := 1 ≤ tokens
  let remaining := if allowed then tokens - 1 else tokens
  let retryAfterSeconds :=
    if allowed then some 0 else retryAfterFromTokens remaining c.refillRatePerMs
  -- the clock is set to `nowMs` also where it was later before
  (⟨allowed, retryAfterSeconds⟩, buckets.set c.key ⟨remaining, c.nowMs⟩)

/-- One call after another, with what each answers. -/
def consumeAll : List Call → Buckets → List (Call × ConsumeResult) × Buckets
  | [], buckets => ([], buckets)
  | c :: calls, buckets =>
    let (result, buckets) := consume c buckets
    let (results, buckets) := consumeAll calls buckets
    ((c, result) :: results, buckets)

end InMemoryBucketStore

namespace RedisBucketStore

/-- The hash of a key, and when it expires. -/
structure Entry where
  tokens : ℚ
  last : ℚ
  expiresAt : ℚ

abbrev Hashes := OrdMap String Entry

/-- The hash, while it has not expired. -/
def hget (key : String) (now : ℚ) (hashes : Hashes) : Option Entry :=
  (hashes.get key).filter fun entry => now < entry.expiresAt

/-- The retry time of the script. Of an infinity Redis makes no number that could be told. -/
def retry (current refill : ℚ) : Option ℕ :=
  if refill = 0 then none
  else
    let retry := ⌈(1 - current) / refill⌉₊
    some (if retry < 1 then 1 else retry)

def script (key : String) (now refill capacity ttl : ℚ) (hashes : Hashes) :
    (ℕ × Option ℕ) × Hashes :=
  let tokens := ((hget key now hashes).map Entry.tokens).getD capacity
  let last := ((hget key now hashes).map Entry.last).getD now
  let elapsed := max 0 (now - last)
  let current := min capacity (tokens + elapsed * refill)
  let allowed := if 1 ≤ current then 1 else 0
  let current := if 1 ≤ current then current - 1 else current
  let hashes := hashes.set key ⟨current, now, now + ttl * 1000⟩
  ((allowed, if allowed = 0 then retry current refill else some 0), hashes)

def consume (c : Call) (hashes : Hashes) : ConsumeResult × Hashes :=
  let (result, hashes) :=
    script c.key c.nowMs c.refillRatePerMs c.burstCapacity REDIS_ENTRY_TTL_SECONDS hashes
  (⟨result.1 = 1, result.2⟩, hashes)

/-- One call after another, with what each answers. -/
def consumeAll : List Call → Hashes → List (Call × ConsumeResult) × Hashes
  | [], hashes => ([], hashes)
  | c :: calls, hashes =>
    let (result, hashes) := consume c hashes
    let (results, hashes) := consumeAll calls hashes
    ((c, result) :: results, hashes)

end RedisBucketStore

end RateLimiter

end VeriNode
