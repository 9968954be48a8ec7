import Templates.Text.Cut
/-!
# Long forms

A tag may be written short, and may leave out the stem of the file that it names a fragment of.  `longForm stem t` writes
every tag of `t` out, with `stem` as the file that is meant:

* `{+#row}` becomes `{~.include.page#row}`, and `{+(c)#row}` becomes `{~.includeIf(c).page#row}`;
* `{^wiki.x}` becomes `{~.wiki.x}`, which is then a tag like any other;
* `{* #card}` becomes `{* page#card}`;
* inside `{~ … }` the references `,+#x`, `:+#x`, `(+#x`, `).#x` and `e.#x` get the stem, and the arguments of `.loop` and
  `.grid` get it before each `#` that starts one.

The work goes in passes.  One pass (`pass`) handles the first open brace of the text and tells how much of the result is
settled and what is left to look at; a tag without an end stops the work there.  What is settled is never looked at again.
-/
namespace Templates
namespace Tag

/-- The word that a bare reference stands for. -/
def includeWord : Text := ['~', '.', 'i', 'n', 'c', 'l', 'u', 'd', 'e', '.']

/-- The word that a reference under a condition stands for. -/
def includeIfWord : Text := ['~', '.', 'i', 'n', 'c', 'l', 'u', 'd', 'e', 'I', 'f']

def loopWord : Text := ['.', 'l', 'o', 'o', 'p']

def gridWord : Text := ['.', 'g', 'r', 'i', 'd']

def startsArgument (c : Char) : Bool := c == '"' || c == ',' || c == ' ' || c == '('

def startsBareReference (c : Char) : Bool := c == ',' || c == ':' || c == '('

/-- The characters after which `.#` is a reference: the end of a condition, and the end of the word `include`. -/
def endsDirectiveHead (c : Char) : Bool := c == ')' || c == 'e'

def qualifyArguments (stem : Text) : Text → Text
  | [] => []
  | [c] => [c]
  | c :: d :: t =>
    if d = '#' ∧ startsArgument c then c :: (stem ++ qualifyArguments stem (d :: t))
    else c :: qualifyArguments stem (d :: t)

def qualifyReferences (stem : Text) : Text → Text
  | [] => []
  | [c] => [c]
  | [c, d] => [c, d]
  | c :: d :: e :: t =>
    if e = '#' ∧ d = '+' ∧ startsBareReference c then c :: (includeWord ++ stem ++ qualifyReferences stem (e :: t))
    else if e = '#' ∧ d = '.' ∧ endsDirectiveHead c then c :: d :: (stem ++ qualifyReferences stem (e :: t))
    else c :: qualifyReferences stem (d :: e :: t)

/-- The directive of a tag with the stem put in wherever it was left out. -/
def qualify (stem directive : Text) : Text :=
  if loopWord.isPrefixOf directive || gridWord.isPrefixOf directive then qualifyArguments stem directive
  else qualifyReferences stem directive

inductive Pass where
  /-- The work is over, and this is the text. -/
  | ended (text : Text)
  /-- The first part is settled and the second has to be looked at. -/
  | onward (settled rest : Text)
  deriving DecidableEq, Repr

/-- The same pass with a text before it that is settled. -/
def Pass.after (before : Text) : Pass → Pass
  | .ended t => .ended (before ++ t)
  | .onward settled rest => .onward (before ++ settled) rest

/-- Goes on at the first `}` of a text, which is left to look at; without one the work is over. -/
def passToBrace (t : Text) : Pass :=
  match Text.cut ['}'] t with
  | none => .ended t
  | some (before, after) => .onward before ('}' :: after)

def passInclude (stem : Text) : Text → Pass
  | [] => .ended ['{', '+']
  | '#' :: t => (passToBrace ('#' :: t)).after ('{' :: (includeWord ++ stem))
  | '(' :: t =>
    match Text.cutUnescaped [')'] t with
    | none => .ended ('{' :: '+' :: '(' :: t)
    | some (_, []) => .ended ('{' :: '+' :: '(' :: t)
    | some (condition, '#' :: rest) =>
      (passToBrace ('#' :: rest)).after
        ('{' :: (includeIfWord ++ '(' :: (condition ++ ')' :: '.' :: stem)))
    | some (condition, c :: rest) => .onward ('{' :: '+' :: '(' :: (condition ++ [')'])) (c :: rest)
  | c :: t => .onward ['{', '+'] (c :: t)

def passTag (stem t : Text) : Pass :=
  match Text.cutUnescaped ['}'] t with
  | none => .ended ('{' :: '~' :: t)
  | some (directive, rest) => .onward ('{' :: '~' :: (qualify stem directive ++ ['}'])) rest

/-- Goes on behind the first `}` of a text; without one, it goes on with the text itself. -/
def passMacroName (lead name : Text) : Pass :=
  match Text.cut ['}'] name with
  | some (before, rest) => .onward ('{' :: (lead ++ before ++ ['}'])) rest
  | none => .onward ['{'] (lead ++ name)

def passMacro (stem t : Text) : Pass :=
  match t.dropWhile (· == ' ') with
  | [] => .ended ('{' :: '*' :: t)
  | '#' :: name => passMacroName ('*' :: (t.takeWhile (· == ' ') ++ stem ++ ['#'])) name
  | name => passMacroName ('*' :: t.takeWhile (· == ' ')) name

/-- A pass over what follows an open brace.  A brace before any other character is no tag, and that character is settled with
it. -/
def passBrace (stem : Text) : Text → Pass
  | [] => .ended ['{']
  | '+' :: t => passInclude stem t
  | '~' :: t => passTag stem t
  | '^' :: t => passTag stem ('.' :: t)
  | '*' :: t => passMacro stem t
  | c :: t => .onward ['{', c] t

/-- One pass over a text: its first open brace and what follows. -/
def pass (stem t : Text) : Pass :=
  match Text.cut ['{'] t with
  | none => .ended t
  | some (before, after) => (passBrace stem after).after before

/-- The text after at most so many passes; nothing when they do not come to an end. -/
def passes (stem : Text) : Nat → Text → Option Text
  | 0, _ => none
  | n + 1, t => match pass stem t with
    | .ended u => some u
    | .onward settled rest => (passes stem n rest).map (settled ++ ·)

/-- Passes enough for every text whose passes end: each takes an open brace, and the stem puts in its own at most once for
each character of the text. -/
def enoughPasses (stem t : Text) : Nat := (t.length + 1) * (stem.length + 1) + 1

/-- The text with every tag written out; nothing when the passes never come to an end.  Only a stem with an open brace in it
can keep them from it, by putting in a new tag each time. -/
def longForm? (stem t : Text) : Option Text := passes stem (enoughPasses stem t) t

/-- The text with every tag written out, or as it is when the passes never come to an end. -/
def longForm (stem t : Text) : Text := (longForm? stem t).getD t

end Tag
end Templates
