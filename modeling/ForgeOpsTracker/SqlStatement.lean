import ForgeOpsTracker.Lib.Scan
import ForgeOpsTracker.JsonText

/-! Masking a SQL statement and naming what it touches (`sql_statement.c`).
Positions are relative: a scanner that stands at a byte sees the byte before it and
the text from there on. Allocations succeed. -/

namespace ForgeOps.SqlStatement

def isWord (c : UInt8) : Bool := Byte.isWord c
def isDigitChar (c : UInt8) : Bool := Byte.isDigit c
def isAlphaChar (c : UInt8) : Bool := Byte.isAlpha c
def isSpaceChar (c : UInt8) : Bool := Byte.isSpace c
def isHexChar (c : UInt8) : Bool := Byte.isHex c
def isBinaryChar (c : UInt8) : Bool := c == 48 || c == 49

def maxSqlLength : Nat := 4000
def maxNames : Nat := 10
def maxNameLength : Nat := 200

/-! ## String literals -/

/-- A word character or a dollar sign before the current byte. -/
def afterWord (prev : Option UInt8) : Bool := (prev.map fun c => isWord c || c == 36).getD false

/-- How far from `c` the opening quote of a string literal stands, if one starts here: the
quote itself, or the one right after an E, X, N, B or U& prefix. -/
def stringQuote (prev : Option UInt8) (c : UInt8) (rest : Bytes) : Option Nat :=
  if c = 39 then some 0
  else if afterWord prev then none
  else if (ascii "EeXxNnBb").contains c then
    if rest[0]? = some 39 then some 1 else none
  else if (c = 85 ∨ c = 117) ∧ rest[0]? = some 38 then
    if rest[1]? = some 39 then some 2 else none
  else none

/-- `quoted_end`: how much of the text behind an opening quote the literal takes, its closing
quote included, or all of it when there is none. -/
def quotedLength (quote : UInt8) : Bytes → Nat
  | [] => 0
  | [_] => 1
  | c :: d :: s =>
    if c = 92 then 2 + quotedLength quote s
    else if c = quote then
      if d = quote then 2 + quotedLength quote s else 1
    else 1 + quotedLength quote (d :: s)

/-! ## Numbers -/

def digitsLength (s : Bytes) : Nat := (s.takeWhile isDigitChar).length

/-- The length of the fraction (`.5`) at the head of `s`. -/
def fractionLength : Bytes → Option Nat
  | dot :: d :: s => if dot = 46 ∧ isDigitChar d then some (1 + digitsLength (d :: s)) else none
  | _ => none

def isSign (c : UInt8) : Bool := c == 43 || c == 45

def signLength (s : Bytes) : Nat := if (s.head?.map isSign).getD false then 1 else 0

/-- The length of the exponent (`e10`, `E-3`) at the head of `s`. -/
def exponentLength : Bytes → Option Nat
  | [] => none
  | e :: s =>
    if e = 101 ∨ e = 69 then
      let digits := digitsLength (s.drop (signLength s))
      if digits > 0 then some (1 + signLength s + digits) else none
    else none

/-- Nothing, or no word character, stands at the head. -/
def endsHere (s : Bytes) : Bool := (s.head?.map fun c => !isWord c).getD true

/-- A digit of the base that `x` behind a zero announces, if it announces one. -/
def radixDigit (x c : UInt8) : Bool :=
  if x = 120 ∨ x = 88 then isHexChar c else if x = 98 ∨ x = 66 then isBinaryChar c else false

/-- `0x` or `0b` and at least one digit of that base, standing alone. -/
def radixEnd : Bytes → Option Nat
  | zero :: x :: s =>
    let digits := (s.takeWhile (radixDigit x)).length
    if zero = 48 ∧ digits > 0 ∧ endsHere (s.drop digits) then some (2 + digits) else none
  | _ => none

/-- A mantissa of `n` bytes with an exponent, or without one, standing alone. -/
def mantissaEnd (s : Bytes) (n : Nat) : Option Nat :=
  match exponentLength (s.drop n) with
  | some e =>
    if endsHere (s.drop (n + e)) then some (n + e) else if endsHere (s.drop n) then some n else none
  | none => if endsHere (s.drop n) then some n else none

/-- `number_end`: the length of the standalone number at the head of `s`. -/
def numberEnd (s : Bytes) : Option Nat :=
  match radixEnd s with
  | some n => some n
  | none =>
    let int := digitsLength s
    let fraction := (fractionLength (s.drop int)).map (int + ·)
    match fraction.bind (mantissaEnd s) with
    | some n => some n
    | none => if int > 0 then mantissaEnd s int else none

/-! ## Masking -/

/-- How much of a dollar-quoted body the search for `tag` takes, the tag included, or all of
it when there is none. -/
def closingLength (tag : Bytes) : Bytes → Nat
  | [] => 0
  | c :: s => if tag <+: c :: s then tag.length else 1 + closingLength tag s

def isTagChar (c : UInt8) : Bool := c == 95 || isAlphaChar c

/-- The tag (`$$`, `$body$`) of the dollar-quoted body that starts at the dollar sign before
`rest`, and the text behind the tag. -/
def dollarTag (rest : Bytes) : Option (Bytes × Bytes) :=
  let name := rest.takeWhile isTagChar
  match rest.drop name.length with
  | [] => none
  | c :: body => if c = 36 then some (36 :: (name ++ [36]), body) else none

/-- How much of the text behind a dollar sign a dollar-quoted body takes, if one starts here. -/
def dollarLength (rest : Bytes) : Option Nat :=
  (dollarTag rest).map fun t => t.1.length - 1 + closingLength t.1 t.2

/-- What one turn of the masking loop appends: a byte as it is, or a question mark. -/
inductive Piece
  | byte (c : UInt8)
  | string
  | number
  | dollar
  deriving DecidableEq, Repr

def Piece.text : Piece → UInt8
  | .byte c => c
  | _ => 63

/-- A digit here would be part of an identifier, a placeholder or another number's fraction. -/
def partOfSomething (prev : Option UInt8) : Bool :=
  (prev.map fun c => isWord c || c == 36 || c == 46).getD false

/-- One turn of the masking loop: its piece, and how far past `c` the loop goes on. -/
def nextPiece (doubleQuotedStrings : Bool) (prev : Option UInt8) (c : UInt8) (rest : Bytes) :
    Piece × Nat :=
  match stringQuote prev c rest with
  | some quote => (.string, quote + quotedLength 39 (rest.drop quote))
  | none =>
    if doubleQuotedStrings ∧ c = 34 then (.string, quotedLength 34 rest)
    else if c = 36 then
      match dollarLength rest with
      | some n => (.dollar, n)
      | none => (.byte c, 0)
    else if isDigitChar c ∨ c = 46 then
      match if partOfSomething prev then none else numberEnd (c :: rest) with
      | some n => (.number, n - 1)
      | none => (.byte c, 0)
    else (.byte c, 0)

def pieces (doubleQuotedStrings : Bool) (statement : Bytes) : List Piece :=
  scan (nextPiece doubleQuotedStrings) 0 none statement

/-- Cut back to a character boundary, with three dots after it. -/
def cutStatement (out : Bytes) : Bytes :=
  if out.length > maxSqlLength then out.take (cutBack out maxSqlLength) ++ ascii "..." else out

def doubleQuotedStrings (dbSystem : Option Bytes) : Bool :=
  match dbSystem with
  | none => false
  | some system =>
    equalsIgnoringCase system (ascii "mysql") || equalsIgnoringCase system (ascii "mariadb")

/-- `forgeops_sql_mask_for_system` -/
def maskForSystem (statement dbSystem : Option Bytes) : Option Bytes :=
  match statement with
  | none => none
  | some s =>
    if s.all isSpaceChar then none
    else some (cutStatement ((pieces (doubleQuotedStrings dbSystem) s).map Piece.text))

/-- `forgeops_sql_mask` -/
def mask (statement : Option Bytes) : Option Bytes := maskForSystem statement none

/-! ## Tokens -/

structure Token where
  text : Bytes
  isName : Bool
  deriving DecidableEq, Repr

def isBareChar (c : UInt8) : Bool := isWord c || c == 36 || c == 35 || c == 64

/-- The length of the identifier part at the head of `s`: bare, "double quoted", [bracketed] or
`backticked`. -/
def namePartEnd : Bytes → Option Nat
  | [] => none
  | c :: s =>
    if isBareChar c then some (1 + (s.takeWhile isBareChar).length)
    else if c = 34 ∨ c = 96 ∨ c = 91 then
      let closer := if c = 91 then 93 else c
      let inside := (s.takeWhile (· ≠ closer)).length
      if inside < s.length ∧ inside > 0 then some (inside + 2) else none
    else none

/-- The loop of `name_end` from `last` on; each turn takes at least two bytes of `s`. -/
def nameEndFrom (s : Bytes) : Nat → Nat → Nat
  | 0, last => last
  | turns + 1, last =>
    if s[last]? = some 46 then
      match namePartEnd (s.drop (last + 1)) with
      | some n => nameEndFrom s turns (last + 1 + n)
      | none => last
    else last

/-- The length of the (optionally qualified) name at the head of `s`. -/
def nameEnd (s : Bytes) : Option Nat := (namePartEnd s).map (nameEndFrom s s.length)

def nextToken (_prev : Option UInt8) (c : UInt8) (rest : Bytes) : Option Token × Nat :=
  if isSpaceChar c then (none, 0)
  else
    match nameEnd (c :: rest) with
    | some n => (some ⟨(c :: rest).take n, true⟩, n - 1)
    | none => (some ⟨[c], false⟩, 0)

def tokenize (s : Bytes) : List Token := (scan nextToken 0 none s).filterMap id

/-! ## What a statement touches -/

def inSet (word : Bytes) (set : List String) : Bool :=
  set.any fun entry => equalsIgnoringCase word (ascii entry)

def operations : List String :=
  ["SELECT", "INSERT", "UPDATE", "DELETE", "MERGE", "WITH", "CALL", "EXEC", "EXECUTE", "CREATE",
   "ALTER", "DROP", "TRUNCATE"]
def builtins : List String :=
  ["count", "sum", "min", "max", "avg", "now", "coalesce", "nullif", "lower", "upper", "length",
   "concat", "cast", "date_trunc", "current_timestamp", "current_date", "row_number", "rank",
   "json_build_object", "json_agg", "array_agg"]
def keywordsNotNames : List String :=
  ["select", "set", "values", "where", "lateral", "only", "unnest", "generate_series"]
def procedureKeywords : List String := ["call", "exec", "execute", "perform"]
def notProcedureNames : List String := ["immediate", "function", "procedure"]
def relationKeywords : List String := ["from", "join", "into", "update", "table"]
def functionLikeSkipped : List String := ["extract", "substring", "trim", "overlay"]

/-- How many tokens up to and including the closing parenthesis, when none opens before it. -/
def closeIndex : List Token → Option Nat
  | [] => none
  | t :: ts =>
    if t.text = ascii "(" then none
    else if t.text = ascii ")" then some 1
    else (closeIndex ts).map (· + 1)

/-- How many of the tokens behind `t` go with it when it is `EXTRACT(...)` and the like. -/
def functionLikeLength (t : Token) : List Token → Option Nat
  | [] => none
  | paren :: ts =>
    if t.isName ∧ inSet t.text functionLikeSkipped ∧ paren.text = ascii "(" then
      (closeIndex ts).map (· + 1)
    else none

/-- The tokens without `EXTRACT(year FROM col)` and the like: a FROM that isn't a table. The
first argument is how many of them are still to be passed over. -/
def keptTokens : Nat → List Token → List Token
  | _, [] => []
  | n + 1, _ :: ts => keptTokens n ts
  | 0, t :: ts =>
    match functionLikeLength t ts with
    | some n => keptTokens n ts
    | none => t :: keptTokens 0 ts

def procedureNames : List Token → List Bytes
  | keyword :: name :: ts =>
    if keyword.isName ∧ inSet keyword.text procedureKeywords ∧ name.isName then
      let firstPart := name.text.takeWhile (· ≠ 46)
      if firstPart.length < 15 ∧ inSet firstPart notProcedureNames then procedureNames (name :: ts)
      else name.text :: procedureNames ts
    else procedureNames (name :: ts)
  | _ => []

/-- The names behind FROM, JOIN and the like, and whether each is a function that is called. -/
def relationNames : List Token → List (Bytes × Bool)
  | keyword :: name :: ts =>
    if keyword.isName ∧ inSet keyword.text relationKeywords ∧ name.isName then
      if inSet name.text keywordsNotNames then relationNames ts
      else
        let paren := ts.head?.map Token.text = some (ascii "(")
        (name.text, paren ∧ inSet keyword.text ["from", "join"]) :: relationNames ts
    else relationNames (name :: ts)
  | _ => []

/-- `SELECT some_function(...)` without a FROM. -/
def selectedFunction (kept : List Token) : List Bytes :=
  match kept with
  | select :: name :: paren :: _ =>
    if select.isName ∧ inSet select.text ["select"] ∧ name.isName ∧ paren.text = ascii "(" ∧
        ¬ inSet name.text builtins ∧ ¬ kept.any fun t => t.isName && inSet t.text ["from"] then
      [name.text]
    else []
  | _ => []

/-- The leading word in capitals, when it is an operation; the buffer has room for 15 bytes. -/
def operationOf : List Token → Bytes
  | [] => []
  | t :: _ =>
    let candidate := t.text.takeWhile isWord
    if candidate ≠ [] ∧ candidate.length < 16 ∧ inSet candidate operations then
      candidate.map Byte.toUpper
    else []

def trimmedName (name : Bytes) : Bytes :=
  ((((name.dropWhile isSpaceChar).reverse.dropWhile isSpaceChar).reverse).take maxNameLength)

def isFullName (name : Bytes) : Bool := name.length > 0 && nameEnd name = some name.length

/-- `clean_list`: trims, caps, validates and de-duplicates. -/
def cleanList (names : List Bytes) : List Bytes :=
  names.foldl (fun kept name =>
    let name := trimmedName name
    if ¬ isFullName name ∨ name ∈ kept ∨ kept.length ≥ maxNames then kept else kept ++ [name]) []

def jsonList (names : List Bytes) : Bytes :=
  ascii "[" ++ JsonText.commaSeparated (names.map JsonText.jsonString) ++ ascii "]"

/-- `forgeops_sql_objects_json` -/
def objectsJson (masked : Option Bytes) : Option Bytes :=
  match masked with
  | none => none
  | some s =>
    if s.all isSpaceChar then none
    else
      let kept := keptTokens 0 (tokenize s)
      let named := relationNames kept
      let called := (named.filter Prod.snd).map Prod.fst
      let procedures := cleanList (procedureNames kept ++ called ++ selectedFunction kept)
      let relations := cleanList ((named.filter fun n => ¬ n.2).map Prod.fst)
      let operation := operationOf kept
      if procedures ≠ [] ∨ relations ≠ [] ∨ operation ≠ [] then
        some (ascii "\x7b" ++
          (if operation ≠ [] then
            ascii "\"operation\":" ++ JsonText.jsonString operation ++ ascii ","
          else []) ++
          ascii "\"procedures\":" ++ jsonList procedures ++
          ascii ",\"relations\":" ++ jsonList relations ++ ascii "\x7d")
      else none

end ForgeOps.SqlStatement
