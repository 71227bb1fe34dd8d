import Mathlib.Algebra.Order.Ring.Unbundled.Rat
import Mathlib.Data.List.Sort
import Mathlib.Order.Monotone.Defs
import VeriNode.Lib.Pieces
import VeriNode.Lib.Run
import VeriNode.Lib.Separated

/-!
# Metrics of requests

`HttpMetricsCollector` of `src/api/metrics/prometheus.ts` keeps the records of requests and makes
two histograms of them at every scrape, for each route, method and status code. The three are joined
to a key, and read back out of it. Durations and sizes are numbers that are not negative, of which
only their order is used, and that sums are taken with an addition that may round.
-/

namespace VeriNode

namespace HttpMetrics

/-- Numbers that are not negative, as the language adds and prints them: an addition that rounds is
monotone, and so is what is printed of a number with a fixed number of decimals. -/
class Amount (N : Type) extends LinearOrder N where
  /-- The number that a literal stands for. -/
  literal : ℚ → N
  add : N → N → N
  le_add : ∀ s x, s ≤ add s x
  add_mono : ∀ {s t} x, s ≤ t → add s x ≤ add t x
  /-- The value of `toFixed(6)`. -/
  fixed : N → N
  fixed_mono : Monotone fixed

structure Exemplar (N : Type) where
  traceId : String
  value : N

structure HttpRecord (N : Type) where
  route : String
  method : String
  statusCode : String
  durationS : N
  responseSizeBytes : N
  exemplar : Option (Exemplar N) := none

/-- A bucket: its bound, how many are not above it, and the exemplar of the last of them. -/
structure Bucket (N : Type) where
  le : N
  count : ℕ
  exemplar : Option (Exemplar N)

/-- What is printed of the records of one key, with the labels that all the series have. -/
structure Histogram (N : Type) where
  labels : String
  buckets : List (Bucket N)
  inf : ℕ
  sum : N
  count : ℕ

/-- The two histograms of a scrape. -/
structure Rendered (N : Type) where
  durations : List (Histogram N)
  sizes : List (Histogram N)

variable {N : Type}

section Keys

def keyOf (rec : HttpRecord N) : String :=
  rec.route ++ "|" ++ rec.method ++ "|" ++ rec.statusCode

/-- The labels of a key, after `const [route, method, statusCode] = key.split('|')`. -/
def labelsOf (key : String) : String :=
  let parts := Separated.split '|' key
  "route=\"" ++ parts.getD 0 "undefined" ++ "\",method=\"" ++ parts.getD 1 "undefined" ++
    "\",status_code=\"" ++ parts.getD 2 "undefined" ++ "\""

end Keys

section Collector

variable [Amount N]

/-- The most records that are kept. -/
def maxRecords : ℕ := 10000

def record (records : List (HttpRecord N)) (rec : HttpRecord N) : List (HttpRecord N) :=
  let records := records ++ [rec]
  if maxRecords < records.length then records.tail else records

/-- `buildExemplar`, for an exemplar that has a trace. -/
def buildExemplar (exemplar : Option (Exemplar N)) : Option (Exemplar N) :=
  exemplar.filter (·.traceId ≠ "")

/-- The histogram of the records of a key, by what is measured of a record and how the sum is
printed. -/
def histogram (measure : HttpRecord N → N) (bounds : List N) (exemplars : Bool) (printSum : N → N)
    (key : String) (records : List (HttpRecord N)) : Histogram N :=
  let sorted := (records.map measure).insertionSort (· ≤ ·)
  { labels := labelsOf key
    buckets := bounds.map fun le =>
      { le
        count := (sorted.filter (· ≤ le)).length
        exemplar :=
          if exemplars then
            buildExemplar ((records.filter fun r => measure r ≤ le).getLast?.bind (·.exemplar))
          else none }
    inf := sorted.length
    sum := printSum (sorted.foldl Amount.add (Amount.literal 0))
    count := sorted.length }

def httpDurationBuckets : List N :=
  [1 / 1000, 5 / 1000, 1 / 100, 25 / 1000, 5 / 100, 1 / 10, 25 / 100, 5 / 10, 1, 25 / 10, 5].map
    Amount.literal

def sizeBuckets : List N := [64, 256, 1024, 4096, 16384, 65536, 262144, 1048576].map Amount.literal

/-- `render`, before it is printed. -/
def render (records : List (HttpRecord N)) : Rendered N :=
  let grouped := (Pieces.groups keyOf records).entries
  { durations := grouped.map fun e =>
      histogram (·.durationS) httpDurationBuckets true Amount.fixed e.1 e.2
    sizes := grouped.map fun e => histogram (·.responseSizeBytes) sizeBuckets false id e.1 e.2 }

def system : Sys (List (HttpRecord N)) (HttpRecord N) where
  init records := records = []
  step records rec := some (record records rec)

end Collector

section Text

/-- The lines of a histogram, where `number` and `printed` print a bound and a sum. -/
def Histogram.lines (name : String) (number printed : N → String) (h : Histogram N) : List String :=
  h.buckets.map (fun b => name ++ "_bucket\x7b" ++ h.labels ++ ",le=\"" ++ number b.le ++
    "\"\x7d " ++ toString b.count ++ ((b.exemplar.map fun e =>
      " # \x7btrace_id=\"" ++ e.traceId ++ "\"\x7d " ++ printed e.value).getD "")) ++
  [name ++ "_bucket\x7b" ++ h.labels ++ ",le=\"+Inf\"\x7d " ++ toString h.inf,
    name ++ "_sum\x7b" ++ h.labels ++ "\x7d " ++ printed h.sum,
    name ++ "_count\x7b" ++ h.labels ++ "\x7d " ++ toString h.count]

def Rendered.lines (number fixed : N → String) (r : Rendered N) : List String :=
  ["# HELP verinode_http_request_duration_seconds HTTP request latency histogram.",
    "# TYPE verinode_http_request_duration_seconds histogram"] ++
  r.durations.flatMap (Histogram.lines "verinode_http_request_duration_seconds" number fixed) ++
  ["# HELP verinode_http_response_size_bytes HTTP response body size histogram.",
    "# TYPE verinode_http_response_size_bytes histogram"] ++
  r.sizes.flatMap (Histogram.lines "verinode_http_response_size_bytes" number number)

end Text

end HttpMetrics

end VeriNode
