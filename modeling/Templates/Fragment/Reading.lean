import Templates.Fragment.Basic
import Templates.Text.Lines
/-!
# Reading fragments

The lines of a file are read with the parts that are open at the moment: the innermost one, which takes the text, and those
around it (`Reading`).  One step (`Reading.step`) deals with the first mark of the line in hand, and a part that ends is
delivered at once, so that a part comes before the part around it and the fragment of the file comes last.  No mark is an
error: an end mark outside all parts is text, as is a start mark without the end of its name, and the end of the file ends
every part.  Each step leaves less to read (`size_lt_of_step`), and `Fragment.ofLines` runs them all.
-/
namespace Templates
namespace Fragment

/-- A part that is not read to its end yet. -/
structure Open where
  name : Text
  /-- The pieces of its text so far, the last one first. -/
  pieces : List Text
  /-- Whether the line in hand has put anything into it. -/
  written : Bool
  /-- Whether it still is on the line that it starts on. -/
  starting : Bool
  deriving DecidableEq, Repr

namespace Open

def start (name : Text) : Open := ⟨name, [], false, true⟩

/-- The fragment of the file itself, before its first line. -/
def whole (stem : Text) : Open := ⟨stem, [], false, false⟩

def body (o : Open) : Text := o.pieces.reverse.flatten

def write (piece : Text) (o : Open) : Open :=
  { o with pieces := piece :: o.pieces, written := o.written || !piece.isEmpty }

def leaveLine (o : Open) : Open := { o with written := false, starting := false }

/-- Ends the line in hand: a line feed follows it if there are more lines, unless nothing came of the line that the part
starts on. -/
def endLine (more : Bool) (o : Open) : Open :=
  if more && (o.written || !o.starting) then { o with pieces := ['\n'] :: o.pieces } else o

def close (o : Open) : Fragment := ⟨o.name, o.body⟩

@[simp] theorem body_start (name : Text) : (start name).body = [] := rfl

@[simp] theorem body_whole (stem : Text) : (whole stem).body = [] := rfl

@[simp] theorem body_write (piece : Text) (o : Open) : (o.write piece).body = o.body ++ piece := by
  simp [body, write]

@[simp] theorem body_leaveLine (o : Open) : o.leaveLine.body = o.body := rfl

@[simp] theorem name_endLine (more : Bool) (o : Open) : (o.endLine more).name = o.name := by
  unfold endLine
  split <;> rfl

/-- Only the end of a line that is not the last one can add a line feed. -/
theorem body_endLine (more : Bool) (o : Open) :
    (o.endLine more).body = if more && (o.written || !o.starting) then o.body ++ ['\n'] else o.body := by
  unfold endLine
  split <;> simp [body]

end Open

/-- What is known while lines are read. -/
structure Reading (ε : Type) where
  /-- The part that takes the text. -/
  inner : Open
  /-- The parts around it, the nearest first. -/
  outer : List Open
  line : Text
  ahead : List (Except ε Text)

/-- What one step comes to, with the fragments that it delivers. -/
inductive Step (ε : Type) where
  | onward (delivered : List Fragment) (next : Reading ε)
  | ended (delivered : List Fragment)
  | failed (delivered : List Fragment) (failure : ε)

namespace Reading

variable {ε : Type}

/-- How many bytes are left to read, with one more for each line ahead. -/
def size (r : Reading ε) : Nat := Text.byteSize r.line + linesSize r.ahead

/-- Takes the next line in hand; at the end of the lines every part ends. -/
def nextLine (delivered : List Fragment) (inner : Open) (outer : List Open) : List (Except ε Text) → Step ε
  | [] => .ended (delivered ++ (inner :: outer).map Open.close)
  | .error e :: _ => .failed delivered e
  | .ok line :: ahead => .onward delivered ⟨inner.leaveLine, outer, line, ahead⟩

def takeLine (r : Reading ε) : Step ε :=
  nextLine [] ((r.inner.write r.line).endLine (!r.ahead.isEmpty)) r.outer r.ahead

/-- Ends the innermost part, with `before` as its last text and `rest` behind its end mark.  Outside all parts the end mark
is text. -/
def endPart (r : Reading ε) (before rest : Text) : Step ε :=
  match r.outer with
  | [] => .onward [] { r with inner := r.inner.write (before ++ endMark), line := rest }
  | parent :: outer =>
    if rest = [] then nextLine [(r.inner.write before).close] parent outer r.ahead
    else .onward [(r.inner.write before).close] ⟨parent, outer, rest, r.ahead⟩

/-- Starts a part inside the innermost one, with `before` as the text in front of it. -/
def startPart (r : Reading ε) (before localName rest : Text) : Reading ε :=
  ⟨.start (r.inner.name ++ '.' :: localName), r.inner.write before :: r.outer, rest, r.ahead⟩

def step (r : Reading ε) : Step ε :=
  match Mark.first r.line with
  | .nothing => r.takeLine
  | .comment before behind => match skipComment behind r.ahead with
    | .closed rest ahead => .onward [] { r with line := before ++ rest, ahead }
    | .unclosed => .onward [] { r with line := before, ahead := [] }
    | .failed e => .failed [] e
  | .part before ('}' :: rest) => r.endPart before rest
  | .part before behind => match Text.cut ['}'] behind with
    | none => r.takeLine
    | some (localName, rest) => .onward [] (r.startPart before localName rest)

end Reading

namespace Reading

variable {ε : Type}

theorem size_lt_of_nextLine {delivered delivered' : List Fragment} {inner : Open} {outer : List Open}
    {ahead : List (Except ε Text)} {r : Reading ε} (h : nextLine delivered inner outer ahead = .onward delivered' r) :
    r.size < linesSize ahead := by
  cases ahead with
  | nil => cases h
  | cons line ahead =>
    cases line with
    | error e => cases h
    | ok t =>
      cases h
      simp only [size, linesSize_cons, lineSize]
      omega

/-- **Each step leaves less to read.** -/
theorem size_lt_of_step {r next : Reading ε} {delivered : List Fragment} (h : r.step = .onward delivered next) :
    next.size < r.size := by
  have htake : r.takeLine = .onward delivered next → next.size < r.size := fun h => by
    have := size_lt_of_nextLine h
    simp only [size] at this ⊢
    omega
  unfold step at h
  split at h
  · exact htake h
  · next before behind hm =>
    have hlen := byteSize_of_first_comment hm
    split at h
    · next rest ahead hs =>
      cases h
      have := size_of_skipComment hs
      simp only [size, Text.byteSize_append]
      omega
    · cases h
      simp only [size, linesSize_nil]
      omega
    · cases h
  · next before rest hm =>
    have hlen := byteSize_of_first_part hm
    simp only [Text.byteSize_cons] at hlen
    unfold endPart at h
    split at h
    · cases h
      simp only [size]
      omega
    · split at h
      · have := size_lt_of_nextLine h
        simp only [size] at this ⊢
        omega
      · cases h
        simp only [size]
        omega
  · next before behind hne hm =>
    have hlen := byteSize_of_first_part hm
    split at h
    · exact htake h
    · next localName rest hc =>
      cases h
      have := Text.byteSize_of_cut hc
      simp only [size, startPart]
      omega

end Reading

/-- The fragments that came of some lines, and the failure of the lines if they failed. -/
structure Delivery (ε : Type) where
  fragments : List Fragment
  failure : Option ε
  deriving DecidableEq, Repr

def Delivery.prepend {ε : Type} (delivered : List Fragment) (d : Delivery ε) : Delivery ε :=
  { d with fragments := delivered ++ d.fragments }

namespace Reading

variable {ε : Type}

def run (r : Reading ε) : Delivery ε :=
  match _ : r.step with
  | .ended delivered => ⟨delivered, none⟩
  | .failed delivered e => ⟨delivered, some e⟩
  | .onward delivered next => next.run.prepend delivered
termination_by r.size
decreasing_by exact size_lt_of_step ‹r.step = _›

end Reading

def ofLines {ε : Type} (stem : Text) (lines : List (Except ε Text)) : Delivery ε :=
  match Reading.nextLine [] (.whole stem) [] lines with
  | .ended delivered => ⟨delivered, none⟩
  | .failed delivered e => ⟨delivered, some e⟩
  | .onward delivered r => r.run.prepend delivered

def ofText (stem source : Text) : List Fragment :=
  (ofLines stem (source.lines.map (Except.ok (ε := Empty)))).fragments

end Fragment
end Templates
