import Templates.Toml.Scalar
/-!
# TOML documents

Keys, arrays, tables in braces, and the lines of a document.  `document?` gives what a TOML 1.0 document holds.  Values may
nest, and keys have parts, up to `deepest`, which also bounds the recursion.
-/
namespace Templates
namespace Toml

/-- How deep values may nest, and how many parts a key may have. -/
def deepest : Nat := 79

def skipBlanks (t : Text) : Text := t.dropWhile fun c => c = ' ' || c = '\t'

/-- A text behind blanks, line ends and comments; nothing when a comment holds a character that it may not. -/
def skipLines : Bool → Text → Option Text
  | _, [] => some []
  | _, '\n' :: t => skipLines false t
  | _, '\r' :: '\n' :: t => skipLines false t
  | true, c :: t => if isShown c then skipLines true t else none
  | false, c :: t =>
    if c = ' ' || c = '\t' then skipLines false t
    else if c = '#' then skipLines true t
    else some (c :: t)

/-- A comment at the end of a line, and that end; nothing when something else is there. -/
def endOfLine (t : Text) : Option Text :=
  match skipBlanks t with
  | '#' :: t => afterComment t
  | t => lineEnd t
where
  lineEnd : Text → Option Text
    | [] => some []
    | '\n' :: t => some t
    | '\r' :: '\n' :: t => some t
    | _ => none
  afterComment (t : Text) : Option Text := lineEnd (t.dropWhile isShown)

def isBare (c : Char) : Bool :=
  ('a' ≤ c && c ≤ 'z') || ('A' ≤ c && c ≤ 'Z') || c.isDigit || c = '_' || c = '-'

def keyPart : Reader Text
  | '"' :: t => basicBody (.plain false) t
  | '\'' :: t => literalBody t
  | t => if t.takeWhile isBare = [] then none else some (t.takeWhile isBare, t.dropWhile isBare)

/-- A key of at most so many parts, with the blanks around them. -/
def key : Nat → Reader (List Text)
  | 0, _ => none
  | n + 1, t => do
    let (part, t) ← keyPart (skipBlanks t)
    match skipBlanks t with
    | '.' :: t =>
      let (parts, rest) ← key n t
      return (part :: parts, rest)
    | rest => return ([part], rest)

def keyOfPair (t : Text) : Option (List Text × Text) := do
  let (parts, t) ← key deepest t
  return (parts, ← expect '=' t)

mutual

/-- A value, where `fuel` bounds the work and `room` the nesting. -/
def value : Nat → Nat → Reader Value
  | 0, _, _ => none
  | fuel + 1, room, '[' :: t => match room with
    | 0 => none
    | room + 1 => (items fuel room t).map fun p => (.array p.1, p.2)
  | fuel + 1, room, '{' :: t => match room with
    | 0 => none
    | room + 1 => match skipBlanks t with
      | '}' :: rest => some (.table .braces [], rest)
      | t => (pairs fuel room [] t).map fun p => (.table .braces p.1, p.2)
  | _ + 1, _, t => scalar t

def items : Nat → Nat → Reader (List Value)
  | 0, _, _ => none
  | fuel + 1, room, t => do
    match ← skipLines false t with
    | ']' :: rest => return ([], rest)
    | t =>
      let (v, t) ← value fuel room t
      match ← skipLines false t with
      | ',' :: t =>
        let (vs, rest) ← items fuel room t
        return (v :: vs, rest)
      | ']' :: rest => return ([v], rest)
      | _ => none

def pairs : Nat → Nat → Pairs → Reader Pairs
  | 0, _, _, _ => none
  | fuel + 1, room, sofar, t => do
    let (parts, t) ← keyOfPair t
    let (v, t) ← value fuel room (skipBlanks t)
    let sofar ← sofar.addPair (parts.getLastD []) v parts.dropLast
    match skipBlanks t with
    | ',' :: t => pairs fuel room sofar t
    | '}' :: rest => return (sofar, rest)
    | _ => none

end

def valueOfPair (t : Text) : Option (Value × Text) := value (2 * t.length + 2) deepest (skipBlanks t)

/-- What has been read of a document: its pairs and the header that the next pairs stand under. -/
structure Progress where
  pairs : Pairs
  header : List Text

/-- One header or pair of a document, and the rest behind it. -/
def entry (p : Progress) : Reader Progress
  | '[' :: '[' :: t => do
    let (names, t) ← key deepest t
    let t ← expect ']' (← expect ']' t)
    return (⟨← p.pairs.openElement names, names⟩, t)
  | '[' :: t => do
    let (names, t) ← key deepest t
    let t ← expect ']' t
    return (⟨← p.pairs.openTable names, names⟩, t)
  | t => do
    let (parts, t) ← keyOfPair t
    let (v, t) ← valueOfPair t
    return (⟨← p.pairs.addBelow p.header (parts.getLastD []) v parts.dropLast, p.header⟩, t)

/-- The rest of a document, of at most so many entries. -/
def entries : Nat → Progress → Text → Option Pairs
  | 0, _, _ => none
  | n + 1, p, t => do
    match ← skipLines false t with
    | [] => return p.pairs
    | t =>
      let (p, t) ← entry p t
      entries n p (← endOfLine t)

/-- What a document holds.  A byte order mark in front of it is left out. -/
def document? (t : Text) : Option Pairs :=
  let t := if t.head? = some (Char.ofNat 0xFEFF) then t.drop 1 else t
  entries (t.length + 1) ⟨[], []⟩ t

end Toml
end Templates
