import Templates.Cache
import Templates.Files.Tree
import Templates.Fragment.Reading
import Templates.Path
import Templates.Settings.Basic
import Templates.Tag.LongForm
/-!
# The library

A library answers requests for fragments of the template files in a folder.  A request that the cache cannot answer reads the
file that it goes to: all its fragments, with their tags written out, go into the cache, and the answer comes from there
(`Library.load`).  A file that cannot be read to its end leaves the cache as it was.
-/
namespace Templates

/-- Where text for a name can come from besides one library: every source answers to the word for its protocol. -/
inductive Source where
  | library
  /-- The library, with names taken in one of its folders. -/
  | folder (context : Text)
  | snippets (protocol : Text) (texts : Table Text Text)
  /-- Every name but the empty one, as its own text. -/
  | echo (protocol : Text)
  /-- A source from outside, given by what it answers. -/
  | foreign (protocol : Text) (text? : Text → Option Text) (has : Text → Bool)

inductive LoadError where
  /-- There is no such file, or no such fragment in it. -/
  | notFound (name extension path : Text)
  | unreadable (name extension path : Text) (fault : Fault)
  deriving DecidableEq, Repr

namespace LoadError

def path : LoadError → Text
  | notFound _ _ path => path
  | unreadable _ _ path _ => path

def message : LoadError → Text
  | notFound name extension path =>
    extension ++ " template '".toList ++ name ++ "' not found (looked in ".toList ++ path ++ [')']
  | unreadable name extension path fault =>
    "error fetching ".toList ++ extension ++ " template '".toList ++ name ++ "' from ".toList ++ path ++
      ": ".toList ++ fault.message

/-- The text that stands in the place of the fragment where failures are shown. -/
def placeholder : LoadError → Text
  | notFound name extension path =>
    '[' :: (extension ++ " template '".toList ++ name ++ "' not found]<!-- looked in [".toList ++ path ++
      "] -->".toList)
  | unreadable name extension path fault =>
    "[error fetching ".toList ++ extension ++ " template '".toList ++ name ++ "']<!-- ".toList ++ path ++
      ": ".toList ++ fault.message ++ " (".toList ++ fault.kind ++ ") -->".toList

end LoadError

/-- A library of templates: its settings, its cache, the sources registered with it and the files that there are. -/
structure Library where
  folder : Text
  /-- The extension for requests that name none. -/
  extension : Text
  marks : Tag.Marks
  onMiss : OnMiss
  cache : Cache
  /-- The sources besides the library itself, by their protocols. -/
  sources : Table Text Source
  files : Files.Tree

namespace Library

def ofSettings (s : Settings) (files : Files.Tree) (now : Instant) : Library where
  folder := s.baseFolder
  extension := s.extension
  marks := s.marks
  onMiss := s.onMiss
  cache := .empty (.ofSeconds (Settings.minutesInSeconds s.refreshMinutes)) now
  sources := .empty
  files

def locate (l : Library) (name extension : Text) : Text := Path.locate l.folder extension name

/-- The cache with every fragment of a file stored, its tags written out with the stem of that file. -/
def store (cache : Cache) (stem extension : Text) (fragments : List Fragment) : Cache :=
  fragments.foldl (fun c f => c.put extension f.name (Tag.longForm stem f.body)) cache

/-- The cache with every fragment of some lines stored; the fault if the lines have one. -/
def absorb (cache : Cache) (stem extension : Text) (lines : List (Except Fault Text)) : Except Fault Cache :=
  let d := Fragment.ofLines stem lines
  match d.failure with
  | some fault => .error fault
  | none => .ok (store cache stem extension d.fragments)

/-- The text of a fragment, from the cache or else from its file, which is opened by `openFile`. -/
def loadBy (l : Library) (openFile : Text → Except Fault (List (Except Fault Text))) (name extension : Text) :
    Except LoadError Text × Library :=
  match l.cache.get? extension name with
  | some t => (.ok t, l)
  | none =>
    let path := l.locate name extension
    match openFile path with
    | .error .missing => (.error (.notFound name extension path), l)
    | .error fault => (.error (.unreadable name extension path fault), l)
    | .ok lines => match absorb l.cache (Name.requestStem name) extension lines with
      | .error fault => (.error (.unreadable name extension path fault), l)
      | .ok cache => match cache.get? extension name with
        | some t => (.ok t, { l with cache })
        | none => (.error (.notFound name extension path), { l with cache })

/-- The text of a fragment, from the cache or else from its file. -/
def load (l : Library) (name extension : Text) : Except LoadError Text × Library := l.loadBy l.files.open? name extension

def shown (onMiss : OnMiss) : Except LoadError Text → Option Text
  | .ok t => some t
  | .error e => match onMiss with
    | .placeholder => some e.placeholder
    | .nothing => none

def fetchWith (l : Library) (name extension : Text) (onMiss : OnMiss) : Option Text × Library :=
  (shown onMiss (l.load name extension).1, (l.load name extension).2)

def getWith (l : Library) (name extension : Text) : Option Text × Library := l.fetchWith name extension l.onMiss

def get (l : Library) (name : Text) : Option Text × Library := l.getWith name l.extension

def provides (l : Library) (name : Text) : Bool × Library :=
  ((l.fetchWith name l.extension .nothing).1.isSome, (l.fetchWith name l.extension .nothing).2)

/-- The library with another folder; its cache stays. -/
def setFolder (l : Library) (folder : Text) : Library := { l with folder }

def setExtension (l : Library) (extension : Text) : Library := { l with extension }

def setRefreshMinutes (l : Library) (minutes : Nat) : Library :=
  { l with cache := l.cache.setRefresh (.ofSeconds (Settings.minutesInSeconds minutes)) }

def setMarks (l : Library) (marks : Tag.Marks) : Library := { l with marks }

def setOnMiss (l : Library) (onMiss : OnMiss) : Library := { l with onMiss }

def clearCache (l : Library) : Library := { l with cache := l.cache.clear }

/-- The library with its clock moved on; nothing when there is no such instant. -/
def advance? (l : Library) (span : Span) : Option Library := (l.cache.advance? span).map fun cache => { l with cache }

def writeFile (l : Library) (path : Text) (node : Files.Node) : Library := { l with files := l.files.write path node }

def removeFile (l : Library) (path : Text) : Library := { l with files := l.files.remove path }

end Library
end Templates
