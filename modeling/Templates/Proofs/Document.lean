import Templates.Fragment.Basic
import Templates.Proofs.Cuts
/-!
# Balanced documents

A document is a list of items: characters, comments and parts, where a part has a local name and a document of its own.
`Document.render` writes it down with its marks and `Document.fragments` says which fragments it stands for, each with the
characters of its own node (`Document.bodyFrom`).  Neither knows anything of lines being read.
-/
namespace Templates

/-- A list of items, each written together with the items behind it. -/
inductive Document where
  | done
  | char (c : Char) (rest : Document)
  | comment (content : Text) (rest : Document)
  | part (name : Text) (inner rest : Document)
  deriving DecidableEq

namespace Document

open Fragment (endMark commentEnd)

def commentStart : Text := ['{', '!', '-', '-']

def render : Document → Text
  | done => []
  | char c rest => c :: rest.render
  | comment content rest => commentStart ++ (content ++ (commentEnd ++ rest.render))
  | part name inner rest => '{' :: '#' :: (name ++ '}' :: (inner.render ++ (endMark ++ rest.render)))

/-- The characters of a node itself.  A line feed counts unless it is the first character of a part (`fresh`), stands
directly behind a part (`behindPart`), or ends the whole file. -/
def bodyFrom (nested fresh behindPart : Bool) : Document → Text
  | done => []
  | char c rest =>
    if c = '\n' ∧ (fresh ∨ behindPart ∨ (¬ nested ∧ rest = done)) then rest.bodyFrom nested false false
    else c :: rest.bodyFrom nested false false
  | comment _ rest => rest.bodyFrom nested fresh false
  | part _ _ rest => rest.bodyFrom nested fresh true

def partBody (d : Document) : Text := d.bodyFrom true true false

def fileBody (d : Document) : Text := d.bodyFrom false false false

/-- The fragments of the parts inside the node of this name, each one behind those of its own parts. -/
def partFragments (name : Text) : Document → List Fragment
  | done => []
  | char _ rest => rest.partFragments name
  | comment _ rest => rest.partFragments name
  | part localName inner rest =>
    inner.partFragments (name ++ '.' :: localName) ++
      ⟨name ++ '.' :: localName, inner.partBody⟩ :: rest.partFragments name

/-- **The fragments of a file**: those of its parts, and its own one last. -/
def fragments (stem : Text) (d : Document) : List Fragment := d.partFragments stem ++ [⟨stem, d.fileBody⟩]

/-- A text that can stand in a comment: each end mark in it is escaped, and the one behind it is not. -/
def IsComment (content : Text) : Prop :=
  '\r' ∉ content ∧ ¬ Text.Escaping content ∧ ∀ a b, content = a ++ (commentEnd ++ b) → Text.Escaping a

def IsLocalName (name : Text) : Prop := name ≠ [] ∧ '}' ∉ name ∧ '\n' ∉ name ∧ '\r' ∉ name

/-- A document that goes on with a character which makes no mark of a brace before it. -/
def PlainNext : Document → Prop
  | char c _ => c ≠ '#' ∧ c ≠ '!'
  | _ => False

/-- **A document whose rendering can be told apart again**: every open brace that is text has a character behind it that
makes no mark of it. -/
def WellFormed : Document → Prop
  | done => True
  | char c rest => c ≠ '\r' ∧ (c = '{' → rest.PlainNext) ∧ rest.WellFormed
  | comment content rest => IsComment content ∧ rest.WellFormed
  | part name inner rest => IsLocalName name ∧ inner.WellFormed ∧ rest.WellFormed

/-- A document that makes no mark of a brace before it, even when its first comments are taken away. -/
def NoMarkNext : Document → Prop
  | char c _ => c ≠ '#' ∧ c ≠ '!'
  | comment _ rest => rest.NoMarkNext
  | _ => True

/-- **A document that can be read**: no open brace that is text becomes a mark when the comments are taken away. -/
def Readable : Document → Prop
  | done => True
  | char c rest => c ≠ '\r' ∧ (c = '{' → rest.NoMarkNext) ∧ rest.Readable
  | comment content rest => IsComment content ∧ rest.Readable
  | part name inner rest => IsLocalName name ∧ inner.Readable ∧ rest.Readable

/-- A text that a comment skips, whatever else is in it: each end mark in it is escaped, and the one behind it is not. -/
def IsSkipped (content : Text) : Prop :=
  ¬ Text.Escaping content ∧ ∀ a b, content = a ++ (commentEnd ++ b) → Text.Escaping a

/-- A text without an end mark is skipped, unless it escapes the end mark behind it. -/
theorem isSkipped_of_not_infix {content : Text} (hend : ¬ commentEnd <:+: content) (hescaping : ¬ Text.Escaping content) :
    IsSkipped content := by
  refine ⟨hescaping, fun a b hab => absurd ?_ hend⟩
  exact ⟨a, b, by rw [hab, List.append_assoc]⟩

/-- **A document that can be read, with carriage returns in its comments and names**: those in its text would be taken for a
part of the line end if a line feed comes behind them. -/
def Legible : Document → Prop
  | done => True
  | char c rest => c ≠ '\r' ∧ (c = '{' → rest.NoMarkNext) ∧ rest.Legible
  | comment content rest => IsSkipped content ∧ rest.Legible
  | part name inner rest => (name ≠ [] ∧ '}' ∉ name ∧ '\n' ∉ name) ∧ inner.Legible ∧ rest.Legible

theorem PlainNext.noMarkNext : ∀ {d : Document}, d.PlainNext → d.NoMarkNext
  | char _ _, h => h

theorem WellFormed.readable : ∀ {d : Document}, d.WellFormed → d.Readable
  | done, _ => trivial
  | char _ _, h => ⟨h.1, fun hc => (h.2.1 hc).noMarkNext, readable h.2.2⟩
  | comment _ _, h => ⟨h.1, readable h.2⟩
  | part _ _ _, h => ⟨h.1, readable h.2.1, readable h.2.2⟩

theorem Readable.legible : ∀ {d : Document}, d.Readable → d.Legible
  | done, _ => trivial
  | char _ _, h => ⟨h.1, h.2.1, legible h.2.2⟩
  | comment _ _, h => ⟨h.1.2, legible h.2⟩
  | part _ _ _, h => ⟨⟨h.1.1, h.1.2.1, h.1.2.2.1⟩, legible h.2.1, legible h.2.2⟩

theorem render_eq_nil {d : Document} : d.render = [] ↔ d = done := by
  cases d <;> simp [render, commentStart]

theorem Readable.cr_not_mem_render : ∀ {d : Document}, d.Readable → '\r' ∉ d.render
  | done, _ => by simp [render]
  | char c rest, h => by
    have := Readable.cr_not_mem_render h.2.2
    simp only [render, List.mem_cons, not_or]
    exact ⟨h.1.symm, this⟩
  | comment content rest, h => by
    have := Readable.cr_not_mem_render h.2
    simp [render, commentStart, commentEnd, h.1.1, this]
  | part name inner rest, h => by
    have hi := Readable.cr_not_mem_render h.2.1
    have hr := Readable.cr_not_mem_render h.2.2
    simp [render, endMark, h.1.2.2.2, hi, hr]

end Document
end Templates
