import Templates.Library.Source
/-!
# Drafts

A draft is template text that is being put together.  It keeps the marks and the sources that were in force when it was
made, and asks the first source that answers to a protocol.
-/
namespace Templates

/-- Text that is being put together, with the marks of its tags and the sources it may ask. -/
structure Draft where
  marks : Tag.Marks
  sources : List Source
  text : Text

namespace Draft

def new (marks : Tag.Marks) (sources : List Source) : Draft := ⟨marks, sources, []⟩

def append (d : Draft) (text : Text) : Draft := { d with text := d.text ++ text }

def protocols (d : Draft) : List Text := d.sources.map Source.protocol

/-- The first source that answers to a protocol. -/
def sourceFor (d : Draft) (protocol : Text) : Option Source := d.sources.find? fun s => s.protocol = protocol

def fetchFrom (d : Draft) (l : Library) (protocol name : Text) : Option Text × Library :=
  match d.sourceFor protocol with
  | some s => s.fetch l name
  | none => (none, l)

end Draft

namespace Library

/-- A draft without text that asks the library first and then its sources. -/
def blankDraft (l : Library) : Draft := .new l.marks (.library :: l.sources.values)

/-- A draft with the text of a fragment, or with what the library shows in its place. -/
def draftWith (l : Library) (name extension : Text) : Draft × Library :=
  match l.getWith name extension with
  | (some t, after) => (l.blankDraft.append t, after)
  | (none, after) => (l.blankDraft, after)

def draft (l : Library) (name : Text) : Draft × Library := l.draftWith name l.extension

end Library
end Templates
