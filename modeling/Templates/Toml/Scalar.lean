import Templates.Toml.Value
/-!
# TOML scalars

Readers for what has no parts: strings in their four forms, booleans, integers, floats, dates and times.  A reader takes
what it understands from the front of a text and leaves the rest.
-/
namespace Templates
namespace Toml

abbrev Reader (α : Type) := Text → Option (α × Text)

def push (c : Char) : Option (Text × Text) → Option (Text × Text) :=
  Option.map fun p => (c :: p.1, p.2)

/-- Whether a character may stand in a comment or, unless it has a meaning there, in a string: a tab or any character that
is not a control character of ASCII. -/
def isShown (c : Char) : Bool := c = '\t' || (0x20 ≤ c.toNat && c.toNat ≠ 0x7F)

def hexDigit? (c : Char) : Option Nat :=
  if '0' ≤ c ∧ c ≤ '9' then some (c.toNat - '0'.toNat)
  else if 'a' ≤ c ∧ c ≤ 'f' then some (c.toNat - 'a'.toNat + 10)
  else if 'A' ≤ c ∧ c ≤ 'F' then some (c.toNat - 'A'.toNat + 10)
  else none

def scalar? (n : Nat) : Option Char := if n.isValidChar then some (Char.ofNat n) else none

def escaped? (c : Char) : Option Char :=
  if c = 'b' then some (Char.ofNat 8)
  else if c = 't' then some '\t'
  else if c = 'n' then some '\n'
  else if c = 'f' then some (Char.ofNat 12)
  else if c = 'r' then some '\r'
  else if c = '"' then some '"'
  else if c = '\\' then some '\\'
  else none

/-- The number of digits of a code point, by the letter that announces it. -/
def codeLength? (c : Char) : Option Nat :=
  if c = 'u' then some 4 else if c = 'U' then some 8 else none

/-- Where the reading of a string with escapes stands. -/
inductive Within where
  /-- Between two characters; blanks and line ends are left out while `trimming`. -/
  | plain (trimming : Bool)
  | escape
  /-- Behind a backslash and blanks, which must end the line. -/
  | lineEnd
  /-- Inside a code point, with so many digits to come and this value so far. -/
  | code (more value : Nat)

def basicBody : Within → Text → Option (Text × Text)
  | _, [] => none
  | .plain _, c :: t =>
    if c = '"' then some ([], t)
    else if c = '\\' then basicBody .escape t
    else if isShown c then push c (basicBody (.plain false) t)
    else none
  | .escape, c :: t => match codeLength? c with
    | some n => basicBody (.code n 0) t
    | none => match escaped? c with
      | some d => push d (basicBody (.plain false) t)
      | none => none
  | .lineEnd, _ => none
  | .code more value, c :: t => match hexDigit? c with
    | none => none
    | some d =>
      if more ≤ 1 then
        match scalar? (value * 16 + d) with
        | some e => push e (basicBody (.plain false) t)
        | none => none
      else basicBody (.code (more - 1) (value * 16 + d)) t

/-- One or two quotes in front of the three that end a string belong to it. -/
def extraQuotes (quote : Char) : Text → Text × Text
  | c :: d :: t =>
    if c = quote then (if d = quote then ([quote, quote], t) else ([quote], d :: t)) else ([], c :: d :: t)
  | [c] => if c = quote then ([quote], []) else ([], [c])
  | [] => ([], [])

def multiBody : Within → Text → Option (Text × Text)
  | _, [] => none
  | .plain _, '"' :: '"' :: '"' :: t => some (extraQuotes '"' t)
  | .plain trimming, '\r' :: '\n' :: t =>
    if trimming then multiBody (.plain true) t else push '\n' (multiBody (.plain false) t)
  | .plain trimming, c :: t =>
    if c = '\\' then multiBody .escape t
    else if trimming && (c = '\n' || c = ' ' || c = '\t') then multiBody (.plain true) t
    else if c = '\n' || isShown c then push c (multiBody (.plain false) t)
    else none
  | .escape, '\r' :: '\n' :: t => multiBody (.plain true) t
  | .escape, c :: t =>
    if c = '\n' then multiBody (.plain true) t
    else if c = ' ' || c = '\t' then multiBody .lineEnd t
    else match codeLength? c with
      | some n => multiBody (.code n 0) t
      | none => match escaped? c with
        | some d => push d (multiBody (.plain false) t)
        | none => none
  | .lineEnd, '\r' :: '\n' :: t => multiBody (.plain true) t
  | .lineEnd, c :: t =>
    if c = '\n' then multiBody (.plain true) t
    else if c = ' ' || c = '\t' then multiBody .lineEnd t
    else none
  | .code more value, c :: t => match hexDigit? c with
    | none => none
    | some d =>
      if more ≤ 1 then
        match scalar? (value * 16 + d) with
        | some e => push e (multiBody (.plain false) t)
        | none => none
      else multiBody (.code (more - 1) (value * 16 + d)) t

def literalBody : Text → Option (Text × Text)
  | [] => none
  | c :: t => if c = '\'' then some ([], t) else if isShown c then push c (literalBody t) else none

def multiLiteralBody : Text → Option (Text × Text)
  | [] => none
  | '\'' :: '\'' :: '\'' :: t => some (extraQuotes '\'' t)
  | '\r' :: '\n' :: t => push '\n' (multiLiteralBody t)
  | c :: t => if c = '\n' || isShown c then push c (multiLiteralBody t) else none

def dropLineEnd : Text → Text
  | '\n' :: t => t
  | '\r' :: '\n' :: t => t
  | t => t

def string : Reader Text
  | '"' :: '"' :: '"' :: t => multiBody (.plain false) (dropLineEnd t)
  | '"' :: t => basicBody (.plain false) t
  | '\'' :: '\'' :: '\'' :: t => multiLiteralBody (dropLineEnd t)
  | '\'' :: t => literalBody t
  | _ => none

/-- Digits, with single underscores between them left out. -/
def digitRun (isDigit : Char → Bool) : Text → Text × Text
  | [] => ([], [])
  | [c] => if isDigit c then ([c], []) else ([], [c])
  | c :: d :: t =>
    if isDigit c then (c :: (digitRun isDigit (d :: t)).1, (digitRun isDigit (d :: t)).2)
    else if c = '_' && isDigit d then digitRun isDigit (d :: t)
    else ([], c :: d :: t)

/-- One digit or more, which an underscore does not lead. -/
def digits (isDigit : Char → Bool) (t : Text) : Option (Text × Text) :=
  match t with
  | [] => none
  | c :: _ => if isDigit c then some (digitRun isDigit t) else none

def plainDigits (t : Text) : Option (Text × Text) :=
  match t with
  | '0' :: rest => some (['0'], rest)
  | _ => digits Char.isDigit t

def number (base : Nat) (ds : Text) : Nat := ds.foldl (fun n c => n * base + (hexDigit? c).getD 0) 0

def sign : Text → Bool × Text
  | '+' :: t => (false, t)
  | '-' :: t => (true, t)
  | t => (false, t)

def word? (n : Int) : Option Int := if -0x8000000000000000 ≤ n ∧ n < 0x8000000000000000 then some n else none

def basedInteger (base : Nat) (t : Text) : Option (Int × Text) := do
  let (ds, rest) ← digits (fun c => (hexDigit? c).any (· < base)) t
  return (← word? (number base ds), rest)

def integer : Reader Int
  | '0' :: 'x' :: t => basedInteger 16 t
  | '0' :: 'o' :: t => basedInteger 8 t
  | '0' :: 'b' :: t => basedInteger 2 t
  | t => do
    let (minus, t) := sign t
    let (ds, rest) ← plainDigits t
    return (← word? (if minus then -(number 10 ds : Int) else number 10 ds), rest)

/-- The least number that is nearer to 2 ^ 1024 than to any number of double precision, or as near. -/
def overflowBound : Nat := Nat.pow 2 1024 - Nat.pow 2 970

/-- Whether `m · 10 ^ e` is too large for double precision. -/
def overflows (m : Nat) (e : Int) : Bool :=
  let size : Int := (Nat.toDigits 10 m).length + e
  if m = 0 then false
  else if 309 < size then true
  else if size < 309 then false
  else if 0 ≤ e then overflowBound ≤ m * Nat.pow 10 e.toNat
  else overflowBound * Nat.pow 10 (-e).toNat ≤ m

def exponent (t : Text) : Option (Int × Text) :=
  match t with
  | c :: t =>
    if c = 'e' || c = 'E' then do
      let (minus, t) := sign t
      let (ds, rest) ← digits Char.isDigit t
      return (if minus then -(number 10 ds : Int) else number 10 ds, rest)
    else none
  | [] => none

def floatParts (t : Text) : Option ((Text × Int) × Text) := do
  let (whole, t) ← plainDigits t
  match t with
  | '.' :: t =>
    let (fraction, t) ← digits Char.isDigit t
    let (e, rest) := (exponent t).getD (0, t)
    return ((whole ++ fraction, e - fraction.length), rest)
  | _ =>
    let (e, rest) ← exponent t
    return ((whole, e), rest)

/-- A float; returns the rest.  Too large a number is refused unless it has a minus. -/
def float (t : Text) : Option Text :=
  let (minus, t) := sign t
  match t with
  | 'i' :: 'n' :: 'f' :: rest => some rest
  | 'n' :: 'a' :: 'n' :: rest => some rest
  | _ => match floatParts t with
    | none => none
    | some ((ds, e), rest) => if !minus && overflows (number 10 ds) e then none else some rest

def fixedNumber : Nat → Nat → Text → Option (Nat × Text)
  | 0, n, t => some (n, t)
  | k + 1, n, c :: t => if c.isDigit then fixedNumber k (n * 10 + (c.toNat - '0'.toNat)) t else none
  | _ + 1, _, [] => none

def twoDigits (low high : Nat) (t : Text) : Option (Nat × Text) := do
  let (n, rest) ← fixedNumber 2 0 t
  if low ≤ n ∧ n ≤ high then return (n, rest) else none

def expect (c : Char) : Text → Option Text
  | d :: t => if d = c then some t else none
  | [] => none

def isLeapYear (year : Nat) : Bool := year % 4 = 0 && (year % 100 ≠ 0 || year % 400 = 0)

def daysIn (year month : Nat) : Nat :=
  if month = 2 then (if isLeapYear year then 29 else 28)
  else if month = 4 || month = 6 || month = 9 || month = 11 then 30
  else 31

/-- A date; returns the rest. -/
def date (t : Text) : Option Text := do
  let (year, t) ← fixedNumber 4 0 t
  let (month, t) ← twoDigits 1 12 (← expect '-' t)
  let (_, rest) ← twoDigits 1 (daysIn year month) (← expect '-' t)
  return rest

def time (t : Text) : Option Text := do
  let (_, t) ← twoDigits 0 23 t
  let (_, t) ← twoDigits 0 59 (← expect ':' t)
  let (_, t) ← twoDigits 0 60 (← expect ':' t)
  match t with
  | '.' :: c :: rest => if c.isDigit then return (c :: rest).dropWhile Char.isDigit else return t
  | _ => return t

def offset : Text → Option Text
  | [] => none
  | c :: t =>
    if c = 'Z' || c = 'z' then some t
    else if c = '+' || c = '-' then do
      let (_, t) ← twoDigits 0 23 t
      let (_, rest) ← twoDigits 0 59 (← expect ':' t)
      return rest
    else none

def moment (t : Text) : Option Text :=
  match date t with
  | none => time t
  | some [] => some []
  | some (c :: rest) =>
    if c = 'T' || c = 't' || c = ' ' then
      match time rest with
      | none => some (c :: rest)
      | some rest => some ((offset rest).getD rest)
    else some (c :: rest)

def taken (t rest : Text) : Text := t.take (t.length - rest.length)

def numeric (t : Text) : Option (Value × Text) :=
  match moment t with
  | some rest => some (.moment (taken t rest), rest)
  | none => match float t with
    | some rest => some (.float (taken t rest), rest)
    | none => (integer t).map fun p => (.integer p.1, p.2)

def scalar : Reader Value
  | 't' :: 'r' :: 'u' :: 'e' :: t => some (.boolean true, t)
  | 'f' :: 'a' :: 'l' :: 's' :: 'e' :: t => some (.boolean false, t)
  | [] => none
  | c :: t =>
    if c = '"' || c = '\'' then (string (c :: t)).map fun p => (.string p.1, p.2)
    else if c.isDigit || c = '+' || c = '-' || c = 'i' || c = 'n' then numeric (c :: t)
    else none

end Toml
end Templates
