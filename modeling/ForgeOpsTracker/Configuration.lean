import ForgeOpsTracker.Lib.Bytes

/-! The configuration every call reads, and the DSN that says where to send. -/

namespace ForgeOps

structure Configuration where
  dsn : Option Bytes := none
  environment : Option Bytes := some (ascii "production")
  release : Option Bytes := none
  serverName : Option Bytes := none
  crashReportsDirectory : Option Bytes := some (ascii "/tmp/forgeops-tracker/pending-crash-reports")
  scrubPii : Bool := true
  captureSourceContext : Bool := true
  captureSqlObjects : Bool := true
  captureSqlStatement : Bool := false
  trackBreadcrumbs : Bool := true
  maxBreadcrumbs : Int := 30
  trackPerformance : Bool := true
  trackTracing : Bool := true
  traceCaptureThresholdMs : Int := 1000
  enabledEnvironments : List Bytes := [ascii "production", ascii "staging"]
  strictPrivacy : Bool := false
  privacyAllowedFields : List (Option Bytes) := []
  deriving DecidableEq, Repr

namespace Configuration

/-- `strstr(text, needle)`: the text before the first occurrence and the text after it. -/
def splitAtFirst (needle : Bytes) : Bytes → Option (Bytes × Bytes)
  | [] => if needle = [] then some ([], []) else none
  | c :: text =>
    if needle.isPrefixOf (c :: text) then some ([], (c :: text).drop needle.length)
    else (splitAtFirst needle text).map fun p => (c :: p.1, p.2)

/-- A DSN cut at its "://" and its first "@"; `userinfo` is `none` without an "@". -/
structure SplitDsn where
  scheme : Bytes
  userinfo : Option Bytes
  host : Bytes
  deriving DecidableEq, Repr

def splitDsn (dsn : Bytes) : Option SplitDsn :=
  match splitAtFirst (ascii "://") dsn with
  | none => none
  | some (scheme, rest) =>
    if scheme = [] then none
    else
      let parts : SplitDsn :=
        match splitAtFirst (ascii "@") rest with
        | some (userinfo, host) => ⟨scheme, some userinfo, host⟩
        | none => ⟨scheme, none, rest⟩
      if parts.host = [] then none else some parts

def hexDigit (c : UInt8) : Option Nat :=
  if Byte.isDigit c then some (c.toNat - 48)
  else if 97 ≤ c && c ≤ 102 then some (c.toNat - 97 + 10)
  else if 65 ≤ c && c ≤ 70 then some (c.toNat - 65 + 10)
  else none

def percentDecode : Bytes → Bytes
  | 37 :: a :: b :: rest =>
    match hexDigit a, hexDigit b with
    | some hi, some lo => UInt8.ofNat (hi * 16 + lo) :: percentDecode rest
    | _, _ => 37 :: percentDecode (a :: b :: rest)
  | c :: rest => c :: percentDecode rest
  | [] => []

/-- The decoded userinfo, read as a C string: a decoded NUL ends it. -/
def apiKey (config : Configuration) : Option Bytes :=
  match config.dsn with
  | none => none
  | some dsn =>
    if dsn = [] then none
    else
      match splitDsn dsn with
      | none => none
      | some parts =>
        match parts.userinfo with
        | none => none
        | some userinfo =>
          if userinfo = [] then none
          else
            let decoded := (percentDecode userinfo).takeWhile (· ≠ 0)
            if decoded = [] then none else some decoded

def isEnabled (config : Configuration) : Bool :=
  (config.apiKey).isSome &&
    match config.environment with
    | none => false
    | some environment => config.enabledEnvironments.contains environment

end Configuration

end ForgeOps
