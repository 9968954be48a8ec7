import Templates.Text.Cut
/-!
# Tag marks

The two marks a tag stands between, and the change of a text from one pair of marks to another.  `retag` takes the leftmost
tags: the text between two marks is kept as it is, and neither it nor a new mark is looked at again.
-/
namespace Templates
namespace Tag

structure Marks where
  opening : Text
  closing : Text
  deriving DecidableEq, Repr

/-- Tags stand between `{~` and `}` unless somebody says otherwise. -/
def Marks.standard : Marks := ⟨['{', '~'], ['}']⟩

def Marks.wrap (m : Marks) (name : Text) : Text := m.opening ++ name ++ m.closing

/-- A text in which every tag between the marks `old` stands between the marks `new` instead.  An opening mark with no
closing mark behind it is kept, and the search goes on behind it.  Every text stays when one of the old marks is empty. -/
def retag (old new : Marks) (t : Text) : Text :=
  if old.opening = [] ∨ old.closing = [] then t
  else match _ : Text.cut old.opening t with
    | none => t
    | some (before, behind) => match _ : Text.cut old.closing behind with
      | none => before ++ old.opening ++ retag old new behind
      | some (name, rest) => before ++ new.wrap name ++ retag old new rest
termination_by t.length
decreasing_by
  all_goals
    have h1 := Text.length_of_cut ‹Text.cut old.opening t = _›
    have h3 : old.opening.length ≠ 0 := fun h => by simp_all
  · omega
  · have h2 := Text.length_of_cut ‹Text.cut old.closing behind = _›
    omega

end Tag
end Templates
