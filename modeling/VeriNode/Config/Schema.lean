import VeriNode.Config.Manager

/-!
# The schema of the configuration

The schemas of `src/config/schema.ts`, by what the defaults come from: types, defaults and
properties. What the values are checked for is left out.
-/

namespace VeriNode

namespace Config

/-- `type: 'object'` without a default. -/
def section_ (properties : List (String × Schema ℕ)) : Schema ℕ := .mk true none properties

/-- `type: 'object'` with `default: \x7b\x7d`. -/
def optional (properties : List (String × Schema ℕ)) : Schema ℕ :=
  .mk true (some (.obj [])) properties

/-- A property that is no object, without a default. -/
def plain : Schema ℕ := .mk false none []

/-- A property that is no object, with a default. -/
def withDefault (default : Json ℕ) : Schema ℕ := .mk false (some default) []

def databaseSchema : Schema ℕ :=
  section_
    [("host", withDefault (.str "localhost")),
      ("port", withDefault (.num 5432)),
      ("user", withDefault (.str "verinode")),
      ("password", withDefault (.str "")),
      ("database", withDefault (.str "verinode")),
      ("maxConnections", withDefault (.num 20)),
      ("idleTimeoutMs", withDefault (.num 30000)),
      ("connectionTimeoutMs", withDefault (.num 10000))]

def mtlsSchema : Schema ℕ :=
  section_
    [("enabled", withDefault (.bool false)),
      ("certFile", plain),
      ("keyFile", plain),
      ("caFile", plain),
      ("trustDomain", withDefault (.str "cluster.local")),
      ("allowedSpiffeIds", withDefault (.arr [])),
      ("certMaxValidityMs", withDefault (.num 86400000)),
      ("minSecondsUntilExpiry", withDefault (.num 3600)),
      ("reloadPollMs", withDefault (.num 30000))]

def tlsSchema : Schema ℕ :=
  section_
    [("acme", section_
        [("enabled", withDefault (.bool false)),
          ("domains", withDefault (.arr [])),
          ("email", plain),
          ("directoryUrl", withDefault (.str "https://acme-v02.api.letsencrypt.org/directory")),
          ("termsOfServiceAgreed", withDefault (.bool false)),
          ("renewBeforeDays", withDefault (.num 30)),
          ("emergencyNotifyDays", withDefault (.num 7)),
          ("checkIntervalMs", withDefault (.num 86400000))]),
      ("certPath", plain),
      ("keyPath", plain),
      ("chainPath", plain),
      ("webroot", withDefault (.str "/tmp/verinode-acme"))]

def telemetrySchema : Schema ℕ :=
  section_
    [("otel", section_
        [("enabled", withDefault (.bool true)),
          ("endpoint", withDefault (.str "http://localhost:4317")),
          ("serviceName", withDefault (.str "verinode-backend")),
          ("samplingRatio", withDefault (.num 1))])]

def appSchema : Schema ℕ :=
  section_
    [("port", withDefault (.num 3000)),
      ("environment", withDefault (.str "development")),
      ("logLevel", withDefault (.str "info"))]

def stakingSchema : Schema ℕ :=
  section_
    [("maxConcurrentWorkers", withDefault (.num 10)),
      ("nonceRangeLimit", withDefault (.str "1000"))]

def remoteSchema : Schema ℕ :=
  section_
    [("etcd", section_
        [("enabled", withDefault (.bool false)),
          ("endpoints", withDefault (.arr [.str "http://localhost:2379"])),
          ("username", plain),
          ("password", plain),
          ("keyPrefix", withDefault (.str "verinode/config")),
          ("watchIntervalMs", withDefault (.num 10000))]),
      ("consul", section_
        [("enabled", withDefault (.bool false)),
          ("address", plain),
          ("token", plain),
          ("keyPrefix", withDefault (.str "verinode/config")),
          ("watchIntervalMs", withDefault (.num 10000))])]

/-- A level of `thresholds`. -/
def threshold (cpuPercent memoryPercent requestRatePerSec p99LatencyMs : ℕ) : Schema ℕ :=
  optional
    [("cpuPercent", withDefault (.num cpuPercent)),
      ("memoryPercent", withDefault (.num memoryPercent)),
      ("requestRatePerSec", withDefault (.num requestRatePerSec)),
      ("p99LatencyMs", withDefault (.num p99LatencyMs))]

def mainSchema : Schema ℕ :=
  section_
    [("db", databaseSchema),
      ("mtls", mtlsSchema),
      ("tls", tlsSchema),
      ("telemetry", telemetrySchema),
      ("app", appSchema),
      ("staking", stakingSchema),
      ("remote", remoteSchema),
      ("feature_flags", optional [("overrides", optional [])]),
      ("capacity_shedding", optional
        [("enabled", withDefault (.bool true)),
          ("checkIntervalMs", withDefault (.num 5000)),
          ("cooldownPeriodMs", withDefault (.num 30000)),
          ("thresholds", optional
            [("light", threshold 70 75 800 500),
              ("medium", threshold 85 85 1200 1000),
              ("critical", threshold 95 95 2000 3000)]),
          ("flagsToShed", optional [])])]

end Config

end VeriNode
