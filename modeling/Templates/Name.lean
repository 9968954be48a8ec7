import Templates.Text.Cut
/-!
# Names

A fragment is asked for by the stem of its file and the names of the parts down to it: `themes/page#row` and
`themes/page.row` are the part `row` of the file `themes/page`.  `requestStem` finds the stem of a request, and
`fragmentKey` is what a fragment is kept under, where `#` counts as a dot.
-/
namespace Templates
namespace Name

/-- Folders in a name are separated by either slash. -/
def isSeparator (c : Char) : Bool := c == '/' || c == '\\'

def splitFolder : Text → Text × Text
  | [] => ([], [])
  | c :: t =>
    let (folder, base) := splitFolder t
    if folder = [] ∧ ¬ isSeparator c then ([], c :: base) else (c :: folder, base)

/-- The part of a name before the first dot behind its last separator.  A name whose only such dot is its first character
is its own stem. -/
def fileStem (name : Text) : Text :=
  match Text.cut ['.'] (splitFolder name).2 with
  | none => name
  | some (before, _) =>
    if (splitFolder name).1 ++ before = [] then name else (splitFolder name).1 ++ before

/-- The stem of the file that a request goes to.  Everything from the first `#` names parts, which may hold separators. -/
def requestStem (name : Text) : Text := fileStem (name.takeWhile (· ≠ '#'))

def dotted (name : Text) : Text := name.map fun c => if c = '#' then '.' else c

/-- What the fragment of a name is kept under, for each extension. -/
def fragmentKey (extension name : Text) : Text := extension ++ '.' :: dotted name

end Name
end Templates
