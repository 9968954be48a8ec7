import Templates.Text.Basic
/-!
# Lines

A line ends with a line feed, and a carriage return directly before that line feed belongs to the end too.  The last line
needs no end, and no empty line follows a final end.  `linesBy` is the rule for any kind of unit, so that a file's bytes and a
text's characters are cut alike.
-/
namespace Templates

/-- The lines of a sequence of units, where `lf` ends a line together with one `cr` directly before it. -/
def linesBy {α : Type} [DecidableEq α] (lf cr : α) : List α → List (List α)
  | [] => []
  | c :: t =>
    if c = lf then [] :: linesBy lf cr t
    else match linesBy lf cr t with
      | [] => [[c]]
      | l :: ls => if c = cr ∧ t.head? = some lf then l :: ls else (c :: l) :: ls

def Text.lines (t : Text) : List Text := linesBy '\n' '\r' t

end Templates
