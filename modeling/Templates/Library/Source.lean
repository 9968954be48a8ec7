import Templates.Library.Basic
import Templates.Text.Quoted
/-!
# Sources

What a source answers (`Source.fetch`, `Source.provides`), and how sources are registered with a library: one for each
protocol, the last one that came, in the order in which the protocols came.
-/
namespace Templates

def includeProtocol : Text := ['i', 'n', 'c', 'l', 'u', 'd', 'e']

def trimContext (context : Text) : Text := (context.reverse.dropWhile Name.isSeparator).reverse

/-- The name that stands for `name` in the folder `context`. -/
def qualifyName (context name : Text) : Text :=
  if trimContext context = [] then name else trimContext context ++ '/' :: name

namespace Source

def protocol : Source → Text
  | library => includeProtocol
  | folder _ => includeProtocol
  | snippets protocol _ => protocol
  | echo protocol => protocol
  | foreign protocol _ _ => protocol

/-- The text of a name.  A library may read a file for it. -/
def fetch (s : Source) (l : Library) (name : Text) : Option Text × Library :=
  match s with
  | library => l.get name
  | folder context => l.get (qualifyName context name)
  | snippets _ texts => (texts.get? name, l)
  | echo _ => (if name = [] then none else some name, l)
  | foreign _ text? _ => (text? name, l)

/-- Whether there is text for a name.  A library may read a file for it. -/
def provides (s : Source) (l : Library) (name : Text) : Bool × Library :=
  match s with
  | library => l.provides name
  | folder context => l.provides (qualifyName context name)
  | snippets _ texts => ((texts.get? name).isSome, l)
  | echo _ => (name ≠ [], l)
  | foreign _ _ has => (has name, l)

/-- The same source with a text kept under a name; only snippets keep any. -/
def insert (s : Source) (name text : Text) : Source :=
  match s with
  | snippets protocol texts => snippets protocol (texts.insert name text)
  | s => s

end Source

namespace Library

def addSource (l : Library) (s : Source) : Library := { l with sources := l.sources.insert s.protocol s }

def protocols (l : Library) : List Text := l.sources.values.map Source.protocol

def folderSummary (l : Library) (context : Text) : Text :=
  "TemplateSetSlice \x7b base_dir: ".toList ++ Text.quoted l.folder ++ ", context: ".toList ++ Text.quoted context ++
    " \x7d".toList

end Library
end Templates
