import ForgeOpsTracker.Lib.Scan
import ForgeOpsTracker.Sha256
import ForgeOpsTracker.Configuration

/-! The rewritings of `strict_privacy.c`: message fingerprints, paths and span
names, and what a context key or a user may still send. Allocations succeed here;
a caller that has to deal with one that fails takes the result as optional. -/

namespace ForgeOps.StrictPrivacy

def isWord (c : UInt8) : Bool := Byte.isWord c
def isDigit (c : UInt8) : Bool := Byte.isDigit c
def isHex (c : UInt8) : Bool := Byte.isHex c
def isAlpha (c : UInt8) : Bool := Byte.isAlpha c
def isSpace (c : UInt8) : Bool := Byte.isSpace c

/-- `.` `_` `%` `+` `-` besides letters and digits. -/
def isEmailLocal (c : UInt8) : Bool :=
  isAlpha c || isDigit c || c == 46 || c == 95 || c == 37 || c == 43 || c == 45

def isEmailDomain (c : UInt8) : Bool := isAlpha c || isDigit c || c == 46 || c == 45

/-- Whether a word character stands at the head; the closing NUL is none. -/
def wordAhead (s : Bytes) : Bool := (s.head?.map isWord).getD false

/-! ## The message fingerprint -/

/-- The loop over `dot` in `email_at`: how much of `domain` the match takes, or 0. -/
def domainMatch (domain : Bytes) : Nat → Nat
  | dot + 2 =>
    let d := dot + 1
    let letters := ((domain.drop (d + 1)).takeWhile isAlpha).length
    if domain[d]? = some 46 ∧ letters ≥ 2 then d + 1 + letters else domainMatch domain (dot + 1)
  | _ => 0

/-- The length of the email at the head of `s`, or 0. -/
def emailAt (s : Bytes) : Nat :=
  let localPart := s.takeWhile isEmailLocal
  if localPart = [] then 0
  else
    match s.drop localPart.length with
    | 64 :: afterAt =>
      let length := domainMatch afterAt (afterAt.takeWhile isEmailDomain).length
      if length = 0 then 0 else localPart.length + 1 + length
    | _ => 0

def replaceEmails : Bytes → Bytes :=
  pass fun _ c rest =>
    if isEmailLocal c then
      let length := emailAt (c :: rest)
      if length > 0 then (ascii "<email>", length - 1)
      else (c :: rest.takeWhile isEmailLocal, (rest.takeWhile isEmailLocal).length)
    else ([c], 0)

def replaceQuoted (quote : UInt8) (atWordBoundary : Bool) : Bytes → Bytes :=
  pass fun prev c rest =>
    if c = quote ∧ (¬ atWordBoundary ∨ ¬ (prev.map isWord).getD false) then
      let body := rest.takeWhile fun d => d ≠ quote ∧ d ≠ 13 ∧ d ≠ 10
      match rest.drop body.length with
      | q :: after =>
        if q = quote ∧ (¬ atWordBoundary ∨ ¬ wordAhead after) then (ascii "<str>", body.length + 1)
        else ([c], 0)
      | [] => ([c], 0)
    else ([c], 0)

def replaceDoubleQuoted : Bytes → Bytes := replaceQuoted 34 false
def replaceSingleQuoted : Bytes → Bytes := replaceQuoted 39 true

def replaceHexObjectIds : Bytes → Bytes :=
  pass fun _ c rest =>
    match c, rest with
    | 48, 120 :: digits =>
      let run := (digits.takeWhile isHex).length
      if run ≥ 4 then (ascii "0x", 1 + run) else ([c], 0)
    | _, _ => ([c], 0)

/-- `groups` hex runs of the given lengths, joined by dashes, at the head of `s`. -/
def hexGroups : List Nat → Bytes → Bool
  | [], _ => true
  | [n], s => (s.take n).length = n && (s.take n).all isHex
  | n :: m :: groups, s =>
    (s.take n).length = n && (s.take n).all isHex &&
      match s.drop n with
      | 45 :: rest => hexGroups (m :: groups) rest
      | _ => false

def uuidAt (s : Bytes) : Bool := hexGroups [8, 4, 4, 4, 12] s
def uuidLength : Nat := 36

def replaceUuids : Bytes → Bytes :=
  pass fun prev c rest =>
    if ¬ (prev.map isWord).getD false ∧ uuidAt (c :: rest) ∧
        ¬ wordAhead ((c :: rest).drop uuidLength) then
      (ascii "<uuid>", uuidLength - 1)
    else ([c], 0)

def replaceNumbers : Bytes → Bytes :=
  pass fun prev c rest =>
    if isDigit c then
      let more := rest.takeWhile isDigit
      let boundaryBefore := ¬ (prev.map isWord).getD false
      let boundaryAfter := ¬ wordAhead (rest.drop more.length)
      if boundaryBefore ∧ boundaryAfter then (ascii "<n>", more.length)
        else (c :: more, more.length)
    else ([c], 0)

/-- `NULL` is treated as "". -/
def normalizeMessage (message : Option Bytes) : Bytes :=
  replaceNumbers (replaceUuids (replaceHexObjectIds (replaceSingleQuoted
    (replaceDoubleQuoted (replaceEmails (message.getD []))))))

def messageFingerprintLength : Nat := 32

def messageFingerprint (message : Option Bytes) : Bytes :=
  ((Sha256.sha256 (normalizeMessage message)).take (messageFingerprintLength / 2)).flatMap hexByte

/-! ## Paths and span names -/

def maxSegmentCharacters : Nat := 40

def noNewline (s : Bytes) : Bool := s.all (· ≠ 10)

/-- `:id`, `{id}`, `<int:id>`, `[slug]` or `*path`. -/
def isRouteParameter (segment : Bytes) : Bool :=
  match segment with
  | [] => false
  | c :: rest =>
    if segment.length ≥ 2 ∧ c = 58 then noNewline rest
    else if c = 42 then noNewline rest
    else if segment.length ≥ 3 ∧
        ((c = 123 ∧ rest.getLast? = some 125) ∨ (c = 60 ∧ rest.getLast? = some 62) ∨
          (c = 91 ∧ rest.getLast? = some 93)) then noNewline rest.dropLast
    else false

/-- A digit anywhere, or more than 40 UTF-8 characters. -/
def isIdSegment (segment : Bytes) : Bool :=
  segment.any isDigit ||
    (segment.filter fun c => ¬ Byte.isContinuation c).length > maxSegmentCharacters

/-- The pieces between the slashes, empty ones included. -/
def segments : Bytes → List Bytes
  | [] => [[]]
  | 47 :: rest => [] :: segments rest
  | c :: rest =>
    match segments rest with
    | s :: more => (c :: s) :: more
    | [] => [[c]]

def strictPath (path : Option Bytes) : Bytes :=
  let p := (path.getD []).takeWhile fun c => c ≠ 63 ∧ c ≠ 35
  if (segments p).any isRouteParameter then p
  else
    let fromFirst := p.dropWhile (· = 47)
    if fromFirst = [] then ascii "/"
    else
      let first := fromFirst.takeWhile (· ≠ 47)
      let rest := (fromFirst.drop first.length).dropWhile (· = 47)
      (if p.head? = some 47 then ascii "/" else []) ++
        (if isIdSegment first then ascii ":id" else first) ++
        (if rest ≠ [] then ascii "/:path" else [])

def httpMethods : List Bytes :=
  [ascii "GET", ascii "POST", ascii "PUT", ascii "PATCH", ascii "DELETE", ascii "HEAD",
   ascii "OPTIONS"]

/-- The length of a leading "scheme://", or 0. -/
def schemeLength (target : Bytes) : Nat :=
  match target with
  | [] => 0
  | c :: rest =>
    if isAlpha c then
      let more := rest.takeWhile fun d => isAlpha d || isDigit d || d == 43 || d == 46 || d == 45
      if (ascii "://").isPrefixOf (rest.drop more.length) then 1 + more.length + 3 else 0
    else 0

/-- What follows the last "@". -/
def afterLastAt (authority : Bytes) : Bytes :=
  (authority.reverse.takeWhile (· ≠ 64)).reverse

/-- The host of an outbound call's target, or `none` when there is none. -/
def hostOf (target : Bytes) : Option Bytes :=
  let scheme := schemeLength target
  let authority := afterLastAt
    ((target.drop scheme).takeWhile fun c => c ≠ 47 ∧ c ≠ 63 ∧ c ≠ 35)
  let digits := (authority.reverse.takeWhile isDigit).length
  let port := digits > 0 ∧ authority.reverse[digits]? = some 58
  let host := if port then authority.take (authority.length - (digits + 1)) else authority
  if host = [] then none
  else
    let dotted := host.contains 46
    let localhost := equalsIgnoringCase host (ascii "localhost")
    if scheme = 0 ∧ ¬ port ∧ ¬ dotted ∧ ¬ localhost then none else some host

/-- The method `name` starts with, ignoring case, when a space follows it. -/
def leadingMethod (name : Bytes) : Option Bytes :=
  httpMethods.find? fun m =>
    equalsIgnoringCase (name.take m.length) m && (name[m.length]?.map isSpace).getD false

def spanName (name : Bytes) : Bytes :=
  if name.head? = some 47 then strictPath (some name)
  else
    match leadingMethod name with
    | none => name
    | some method =>
      let target := ((name.drop method.length).dropWhile isSpace).takeWhile fun c => ¬ isSpace c
      if target = [] then name
      else
        let host := if target.head? = some 47 then none else hostOf target
        method ++ ascii " " ++ host.getD (strictPath (some target))

def transactionName (name : Bytes) : Bytes := if name = [] then name else spanName name

/-! ## Context keys and the user -/

def allowsField (config : Configuration) (key : Bytes) : Bool :=
  config.privacyAllowedFields.any fun field => field = some key

/-- The value under the first "id" key that is not blank. Keys and values may be `NULL`. -/
def userId (user : List (Option Bytes × Option Bytes)) : Option Bytes :=
  user.findSome? fun
    | (some key, some value) =>
      if key = ascii "id" ∧ value.any (fun c => ¬ isSpace c) then some value else none
    | _ => none

end ForgeOps.StrictPrivacy
