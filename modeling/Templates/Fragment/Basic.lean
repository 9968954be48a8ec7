import Templates.Text.Cut
/-!
# Fragments

A template file holds one fragment for itself and one for each part that is marked in it, at any depth.  Here are the
fragments, the marks that a file is cut at (`Mark`, `Mark.first`), and the end of a comment (`skipComment`).  The lines of a
file come from a source that may fail, so a line still to be read is a text or the failure.
-/
namespace Templates

/-- A named piece of a template file. -/
structure Fragment where
  /-- The stem of the file and the names of the enclosing parts, joined by dots. -/
  name : Text
  /-- The text of the piece, without comments and without the parts inside it. -/
  body : Text
  deriving DecidableEq, Repr

namespace Fragment

def endMark : Text := ['{', '#', '}']

def commentEnd : Text := ['-', '-', '}']

/-- The first mark on a line, with the text before it and the text behind it. -/
inductive Mark where
  | nothing
  | comment (before behind : Text)
  /-- A part starts or ends here. -/
  | part (before behind : Text)
  deriving DecidableEq, Repr

def Mark.push (c : Char) : Mark → Mark
  | .nothing => .nothing
  | .comment before behind => .comment (c :: before) behind
  | .part before behind => .part (c :: before) behind

/-- The first mark on a line: `{!--` starts a comment, and `{#` starts or ends a part. -/
def Mark.first : Text → Mark
  | [] => .nothing
  | '{' :: '#' :: t => .part [] t
  | '{' :: '!' :: '-' :: '-' :: t => .comment [] t
  | c :: t => (Mark.first t).push c

/-- Whether a mark stands on a line as it says. -/
def Mark.StandsOn (t : Text) : Mark → Prop
  | .nothing => True
  | .comment before behind => t = before ++ '{' :: '!' :: '-' :: '-' :: behind
  | .part before behind => t = before ++ '{' :: '#' :: behind

theorem Mark.StandsOn.push {c : Char} {t : Text} {m : Mark} (h : m.StandsOn t) : (m.push c).StandsOn (c :: t) := by
  cases m with
  | nothing => trivial
  | comment before behind => exact congrArg (c :: ·) h
  | part before behind => exact congrArg (c :: ·) h

/-- **The first mark of a line stands on the line.** -/
theorem Mark.standsOn_first (t : Text) : (first t).StandsOn t := by
  induction t using first.induct with
  | case1 => trivial
  | case2 t => rfl
  | case3 t => rfl
  | case4 c t hpart hcomment ih =>
    rw [first]
    · exact ih.push
    · exact hpart
    · exact hcomment

/-- What comes behind a comment. -/
inductive CommentEnd (ε : Type) where
  /-- The rest of the line that it ends on, and the lines still to be read. -/
  | closed (rest : Text) (ahead : List (Except ε Text))
  /-- Nothing, as it never ends. -/
  | unclosed
  | failed (failure : ε)

/-- The end of a comment that starts with the text `t`: its first unescaped end mark on this line, or else on the first
line ahead that has one. -/
def skipComment {ε : Type} (t : Text) (ahead : List (Except ε Text)) : CommentEnd ε :=
  match Text.cutUnescaped commentEnd t with
  | some (_, rest) => .closed rest ahead
  | none => match ahead with
    | [] => .unclosed
    | .error e :: _ => .failed e
    | .ok line :: later => skipComment line later

section Progress

variable {ε : Type}

/-- How much there is to read in a line that is still ahead: its bytes, and one for the line itself. -/
def lineSize : Except ε Text → Nat
  | .ok t => Text.byteSize t + 1
  | .error _ => 1

def linesSize (ahead : List (Except ε Text)) : Nat := ahead.foldr (fun line n => lineSize line + n) 0

@[simp] theorem linesSize_nil : linesSize ([] : List (Except ε Text)) = 0 := rfl

@[simp] theorem linesSize_cons (line : Except ε Text) (ahead : List (Except ε Text)) :
    linesSize (line :: ahead) = lineSize line + linesSize ahead := by
  simp [linesSize]

theorem byteSize_of_first_comment {t before behind : Text} (h : Mark.first t = .comment before behind) :
    Text.byteSize t = Text.byteSize before + 4 + Text.byteSize behind := by
  have hstands : (Mark.first t).StandsOn t := Mark.standsOn_first t
  rw [h] at hstands
  rw [show t = before ++ '{' :: '!' :: '-' :: '-' :: behind from hstands]
  simp [Char.utf8Size]
  omega

theorem byteSize_of_first_part {t before behind : Text} (h : Mark.first t = .part before behind) :
    Text.byteSize t = Text.byteSize before + 2 + Text.byteSize behind := by
  have hstands : (Mark.first t).StandsOn t := Mark.standsOn_first t
  rw [h] at hstands
  rw [show t = before ++ '{' :: '#' :: behind from hstands]
  simp [Char.utf8Size]
  omega

/-- A comment takes text away and puts none in. -/
theorem size_of_skipComment {t rest : Text} {ahead later : List (Except ε Text)}
    (h : skipComment t ahead = .closed rest later) :
    Text.byteSize rest + linesSize later ≤ Text.byteSize t + linesSize ahead := by
  induction ahead generalizing t with
  | nil =>
    rw [skipComment.eq_def] at h
    split at h
    · next hc =>
      cases h
      have := Text.byteSize_of_cutUnescaped hc
      omega
    · cases h
  | cons line ahead ih =>
    rw [skipComment.eq_def] at h
    split at h
    · next hc =>
      cases h
      have := Text.byteSize_of_cutUnescaped hc
      omega
    · cases line with
      | error e => cases h
      | ok t' =>
        have := ih h
        simp only [linesSize_cons, lineSize]
        omega

end Progress

end Fragment
end Templates
