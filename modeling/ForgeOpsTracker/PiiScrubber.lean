import ForgeOpsTracker.Lib.Ere
import ForgeOpsTracker.Lib.Scan

/-! What `pii_scrubber.c` takes out of a text: IBANs, eight patterns, and card
numbers in any other shape; and which keys name something sensitive. -/

namespace ForgeOps.PiiScrubber

def isAsciiDigit (c : UInt8) : Bool := Byte.isDigit c
def isAsciiUpper (c : UInt8) : Bool := Byte.isUpper c
def isIbanChar (c : UInt8) : Bool := isAsciiUpper c || isAsciiDigit c
def isWordChar (c : UInt8) : Bool := isIbanChar c || Byte.isLower c || c == 95

def space : UInt8 := 32
def dash : UInt8 := 45

/-! ## The patterns -/

/-- `pattern_spec_t`. `wordBounded` asks for a word boundary at both ends of a match. -/
structure PatternSpec where
  label : Bytes
  pattern : Ere
  wordBounded : Bool := false

section
open Ere

local instance : HAppend Ere Ere Ere := ⟨.seq⟩

def alnumOr (others : Bytes) (c : UInt8) : Bool := Byte.isAlnum c || others.contains c
def atLeast (n : Nat) (p : UInt8 → Bool) : Ere := .many p n none
def exactly (n : Nat) (p : UInt8 → Bool) : Ere := .many p n (some n)
def spaceOrDash : Ere := .set fun c => c == space || c == dash

/-- A literal in either case, as `REG_ICASE` matches it. -/
def literalIgnoringCase : Bytes → Ere
  | [] => literal []
  | [c] => .set fun d => Byte.toLower d == Byte.toLower c
  | c :: s => (Ere.set fun d => Byte.toLower d == Byte.toLower c) ++ literalIgnoringCase s

def email : Ere :=
  atLeast 1 (alnumOr (ascii "._%+-")) ++ literal (ascii "@") ++ atLeast 1 (alnumOr (ascii ".-")) ++
    literal (ascii ".") ++ atLeast 2 Byte.isAlpha

def ssn : Ere :=
  exactly 3 Byte.isDigit ++ literal (ascii "-") ++ exactly 2 Byte.isDigit ++ literal (ascii "-") ++
    exactly 4 Byte.isDigit

def creditCard : Ere :=
  exactly 4 Byte.isDigit ++ spaceOrDash ++ exactly 4 Byte.isDigit ++ spaceOrDash ++
    exactly 4 Byte.isDigit ++ spaceOrDash ++ .many Byte.isDigit 1 (some 4)

def bearerToken : Ere :=
  literalIgnoringCase (ascii "Bearer") ++ atLeast 1 Byte.isSpace ++
    atLeast 1 (alnumOr (ascii "._~+/-")) ++ atLeast 0 (· == 61)

def jwt : Ere :=
  let part := atLeast 10 (alnumOr (ascii "_-"))
  literal (ascii "ey") ++ part ++ literal (ascii ".") ++ part ++ literal (ascii ".") ++ part

def awsKey : Ere := literal (ascii "AKIA") ++ exactly 16 isIbanChar

def stripeKey : Ere :=
  Ere.set (fun c => c == 115 || c == 114) ++ literal (ascii "k_") ++
    Ere.alt (literal (ascii "live")) (literal (ascii "test")) ++ literal (ascii "_") ++
    atLeast 10 Byte.isAlnum

def githubToken : Ere :=
  literal (ascii "gh") ++ Ere.set (fun c => (ascii "pousr").contains c) ++ literal (ascii "_") ++
    atLeast 20 Byte.isAlnum

end

/-- `PATTERNS` -/
def patterns : List PatternSpec :=
  [ { label := ascii "EMAIL", pattern := email },
    { label := ascii "SSN", pattern := ssn },
    { label := ascii "CREDIT CARD", pattern := creditCard, wordBounded := true },
    { label := ascii "BEARER TOKEN", pattern := bearerToken },
    { label := ascii "JWT", pattern := jwt },
    { label := ascii "AWS KEY", pattern := awsKey },
    { label := ascii "STRIPE KEY", pattern := stripeKey },
    { label := ascii "GITHUB TOKEN", pattern := githubToken } ]

def filtered (label : Bytes) : Bytes := ascii "[" ++ label ++ ascii " FILTERED]"

/-- Whether a word character stands at the head; the closing NUL is none. -/
def wordAhead (s : Bytes) : Bool := (s.head?.map isWordChar).getD false

/-- `apply_pattern`. No pattern matches the empty text. -/
def applyPattern (spec : PatternSpec) : Bytes → Bytes :=
  pass fun prev c rest =>
    match spec.pattern.longest (c :: rest) with
    | none => ([c], 0)
    | some n =>
      if spec.wordBounded ∧ ((prev.map isWordChar).getD false ∨ wordAhead ((c :: rest).drop n)) then
        ([c], 0)
      else (filtered spec.label, n - 1)

/-! ## IBANs -/

/-- `\b` at `pos`, for `0 < pos`. -/
def isWordBoundary (s : Bytes) (pos : Nat) : Bool :=
  ((s[pos - 1]?).map isWordChar).getD false != ((s[pos]?).map isWordChar).getD false

/-- A space and four of `[A-Z0-9]` at the head. -/
def isIbanGroup : Bytes → Bool
  | sp :: a :: b :: c :: d :: _ =>
    sp == space && isIbanChar a && isIbanChar b && isIbanChar c && isIbanChar d
  | _ => false

/-- How many groups, at most `most`, stand at the head. -/
def ibanGroups : Nat → Bytes → Nat
  | 0, _ => 0
  | most + 1, s => if isIbanGroup s then ibanGroups most (s.drop 5) + 1 else 0

/-- The greatest `base + k` that is a word boundary, with `least ≤ k` and `k` at most
the last argument; 0 when there is none. -/
def lastBoundary (s : Bytes) (base least : Nat) : Nat → Nat
  | 0 => 0
  | k + 1 =>
    if k + 1 < least then 0
    else if isWordBoundary s (base + (k + 1)) then base + (k + 1)
    else lastBoundary s base least k

/-- The loop over `g`: the end with the most groups and the longest tail. -/
def spacedEnd (s : Bytes) : Nat → Nat
  | 0 => 0
  | g + 1 =>
    if g + 1 < 2 then 0
    else
      let after := 4 + 5 * (g + 1)
      let tail :=
        if s[after]? = some space then
          lastBoundary s (after + 1) 1 (min 4 ((s.drop (after + 1)).takeWhile isIbanChar).length)
        else 0
      if tail ≠ 0 then tail
      else if isWordBoundary s after then after
      else spacedEnd s g

/-- How far the IBAN candidate at the head of `s` reaches, or 0. -/
def ibanCandidateEnd (prev : Option UInt8) (s : Bytes) : Nat :=
  if (prev.map isWordChar).getD false then 0
  else
    match s with
    | a :: b :: c :: d :: rest =>
      if isAsciiUpper a && isAsciiUpper b && isAsciiDigit c && isAsciiDigit d then
        let compact := lastBoundary s 4 11 (min 30 (rest.takeWhile isIbanChar).length)
        if compact ≠ 0 then compact else spacedEnd s (ibanGroups 7 rest)
      else 0
    | _ => 0

/-- One character of the number that is taken modulo 97. -/
def ibanRemainder (remainder : Nat) (c : UInt8) : Nat :=
  if isAsciiUpper c then
    let value := c.toNat - 65 + 10
    ((remainder * 10 + value / 10) % 97 * 10 + value % 10) % 97
  else (remainder * 10 + (c.toNat - 48)) % 97

/-- `is_iban` -/
def isIban (candidate : Bytes) : Bool :=
  let compact := candidate.filter (· ≠ space)
  15 ≤ compact.length && compact.length ≤ 34 &&
    (compact.drop 4 ++ compact.take 4).foldl ibanRemainder 0 == 1

/-- `scrub_ibans` -/
def scrubIbans : Bytes → Bytes :=
  pass fun prev c rest =>
    let n := ibanCandidateEnd prev (c :: rest)
    if n = 0 then ([c], 0)
    else if isIban ((c :: rest).take n) then (ascii "[IBAN FILTERED]", n - 1)
    else ((c :: rest).take n, n - 1)

/-! ## Card numbers -/

def digitValue (c : UInt8) : Nat := c.toNat - 48

/-- The number the first `n` digits make. -/
def prefixValue (n : Nat) (digits : Bytes) : Nat :=
  (digits.take n).foldl (fun value c => value * 10 + digitValue c) 0

/-- `has_card_prefix` -/
def hasCardPrefix (digits : Bytes) : Bool :=
  let two := prefixValue 2 digits
  let three := prefixValue 3 digits
  let four := prefixValue 4 digits
  prefixValue 1 digits = 4 || (51 ≤ two && two ≤ 55) || two = 34 || two = 37 || two = 65 ||
    two = 36 || two = 62 || (2221 ≤ four && four ≤ 2720) || four = 6011 ||
    (3528 ≤ four && four ≤ 3589) || (644 ≤ three && three ≤ 649) || (300 ≤ three && three ≤ 305)

/-- What a digit adds to the Luhn sum; every second one from the right is doubled. -/
def luhnValue (c : UInt8) (doubled : Bool) : Nat :=
  let value := digitValue c
  if doubled then (if value * 2 > 9 then value * 2 - 9 else value * 2) else value

def luhnSum (digits : Bytes) : Nat :=
  (digits.reverse.zipIdx.map fun d => luhnValue d.1 (d.2 % 2 = 1)).sum

/-- `is_card_number` -/
def isCardNumber (digits : Bytes) : Bool :=
  13 ≤ digits.length && digits.length ≤ 19 && hasCardPrefix digits && luhnSum digits % 10 = 0

def maxCardDigits : Nat := 19

/-- The inner loop of `scrub_card_numbers_in`: the end of the last stretch of whole groups
from the first on that is a card number, or 0. `taken` bytes and the digits `joined` are
behind; the first argument bounds the groups still to come. -/
def cardStretchEnd : Nat → Nat → Bytes → Nat → Bytes → Nat
  | 0, _, _, found, _ => found
  | groups + 1, taken, joined, found, s =>
    if s = [] then found
    else
      let group := s.takeWhile isAsciiDigit
      if joined.length + group.length > maxCardDigits then found
      else
        let joined := joined ++ group
        let found := if isCardNumber joined then taken + group.length else found
        cardStretchEnd groups (taken + group.length + 1) joined found (s.drop (group.length + 1))

/-- `scrub_card_numbers_in`, for a run of at most as many bytes as the first argument. -/
def scrubCardNumbersIn : Nat → Bytes → Bytes
  | 0, _ => []
  | size + 1, run =>
    if run = [] then []
    else
      let group := run.takeWhile isAsciiDigit
      let foundEnd := cardStretchEnd run.length 0 [] 0 run
      let text := if foundEnd ≠ 0 then ascii "[CREDIT CARD FILTERED]" else group
      let writtenTo := if foundEnd ≠ 0 then foundEnd else group.length
      text ++ (run.drop writtenTo).take 1 ++ scrubCardNumbersIn size (run.drop (writtenTo + 1))

/-- How far the run of digits joined by single spaces or dashes goes, and where its last
separator is (0: none), `n` bytes of it being behind. -/
def cardRun : Nat → Nat → Bytes → Nat × Nat
  | n, separator, c :: d :: rest =>
    if isAsciiDigit c then cardRun (n + 1) separator (d :: rest)
    else if (c == space || c == dash) && isAsciiDigit d then cardRun (n + 2) n rest
    else (n, separator)
  | n, separator, [c] => if isAsciiDigit c then (n + 1, separator) else (n, separator)
  | n, separator, [] => (n, separator)

/-- `scrub_card_numbers` -/
def scrubCardNumbers : Bytes → Bytes :=
  pass fun prev c rest =>
    if ¬ isAsciiDigit c ∨ (prev.map isWordChar).getD false then ([c], 0)
    else
      let s := c :: rest
      let run := cardRun 1 0 rest
      if wordAhead (s.drop run.1) then
        if run.2 = 0 then (s.take run.1, run.1 - 1)
        else (scrubCardNumbersIn run.2 (s.take run.2), run.2 - 1)
      else (scrubCardNumbersIn run.1 (s.take run.1), run.1 - 1)

/-! ## Strings and keys -/

/-- `forgeops_scrub_string`, allocations succeeding. -/
def scrubString (input : Bytes) : Bytes :=
  scrubCardNumbers (patterns.foldl (fun current spec => applyPattern spec current)
    (scrubIbans input))

def redacted : Bytes := ascii "[FILTERED]"

/-- `SENSITIVE_KEYS` -/
def sensitiveKeys : List Bytes :=
  [ "password", "passwd", "pwd", "secret", "apisecret", "clientsecret", "secretkey", "token",
    "accesstoken", "refreshtoken", "apikey", "apitoken", "authorization", "authtoken", "bearer",
    "sessiontoken", "csrftoken", "creditcard", "cardnumber", "cardnum", "cvv", "cvv2", "cvc",
    "iban", "accountnumber", "routingnumber", "bankaccount", "ssn", "socialsecuritynumber",
    "socialsecurity", "privatekey" ].map ascii

/-- `forgeops_is_sensitive_key` -/
def isSensitiveKey (key : Option Bytes) : Bool :=
  match key with
  | none => false
  | some key =>
    let normalized := ((key.filter Byte.isAlnum).map Byte.toLower).take 255
    key ≠ [] && sensitiveKeys.any fun k => decide (k <:+: normalized)

end ForgeOps.PiiScrubber
