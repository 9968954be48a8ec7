import Templates.Fragment.Reading
import Templates.Proofs.Document
/-!
# What a step does

The first mark of the line in hand says what a step does (`Reading.Does`), and there is nothing else that it can do
(`Reading.does_step`).  What a step keeps is proved once for each of the ways, and what a run keeps by induction on what is
left to read.
-/
namespace Templates
namespace Fragment

open Document (commentStart)

variable {ε : Type}

/-- **The ways of a step**, by the first mark of the line in hand. -/
inductive Reading.Does (r : Reading ε) : Step ε → Prop where
  /-- The line has no mark, or one that starts a part without the end of its name. -/
  | takeLine : Does r r.takeLine
  | skipComment {before behind rest : Text} {ahead : List (Except ε Text)} :
      r.line = before ++ (commentStart ++ behind) → Fragment.skipComment behind r.ahead = .closed rest ahead →
      Does r (.onward [] { r with line := before ++ rest, ahead })
  | skipAll {before behind : Text} :
      r.line = before ++ (commentStart ++ behind) → Fragment.skipComment behind r.ahead = .unclosed →
      Does r (.onward [] { r with line := before, ahead := [] })
  | failInComment {before behind : Text} {e : ε} :
      r.line = before ++ (commentStart ++ behind) → Fragment.skipComment behind r.ahead = .failed e → Does r (.failed [] e)
  /-- An end mark outside all parts is text. -/
  | keepEndMark {before rest : Text} :
      r.line = before ++ (endMark ++ rest) → r.outer = [] →
      Does r (.onward [] { r with inner := r.inner.write (before ++ endMark), line := rest })
  | endPart {before rest : Text} {parent : Open} {outer : List Open} :
      r.line = before ++ (endMark ++ rest) → r.outer = parent :: outer → rest ≠ [] →
      Does r (.onward [(r.inner.write before).close] ⟨parent, outer, rest, r.ahead⟩)
  | endPartAndLine {before : Text} {parent : Open} {outer : List Open} :
      r.line = before ++ endMark → r.outer = parent :: outer →
      Does r (nextLine [(r.inner.write before).close] parent outer r.ahead)
  | startPart {before localName rest : Text} :
      r.line = before ++ ('{' :: '#' :: (localName ++ '}' :: rest)) → localName ≠ [] → '}' ∉ localName →
      Does r (.onward [] (r.startPart before localName rest))

/-- **A step goes one of these ways.** -/
theorem Reading.does_step (r : Reading ε) : r.Does r.step := by
  have hstands : (Mark.first r.line).StandsOn r.line := Mark.standsOn_first r.line
  unfold step
  split
  · exact .takeLine
  · next before behind hmark =>
    rw [hmark] at hstands
    split
    · next hskip => exact .skipComment hstands hskip
    · next hskip => exact .skipAll hstands hskip
    · next hskip => exact .failInComment hstands hskip
  · next before rest hmark =>
    rw [hmark] at hstands
    unfold endPart
    split
    · next houter => exact .keepEndMark hstands houter
    · next parent outer houter =>
      split
      · next hrest =>
        subst hrest
        exact .endPartAndLine hstands houter
      · next hrest => exact .endPart hstands houter hrest
  · next before behind hnotEnd hmark =>
    rw [hmark] at hstands
    split
    · exact .takeLine
    · next localName rest hcut =>
      obtain ⟨rfl, hbrace⟩ := Text.cut_eq_some_iff.1 hcut
      refine .startPart hstands ?_ hbrace
      rintro rfl
      exact hnotEnd rest rfl

end Fragment
end Templates
