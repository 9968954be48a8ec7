import Templates.Files.Fault
import Templates.Table
import Templates.Text.Lines
import Templates.Text.Utf8
/-!
# Folder trees

The files that templates come from, as a tree of folders from the root on, with a working folder in it.  A path that starts with a
slash is followed from the root and every other one from the working folder, name by name (`Tree.walk`): a name that is empty or
`.` stays, `..` climbs as far as the root, and every other name must be there.  `Tree.open?` gives the lines of a file and
`Tree.read?` its bytes; a folder can be opened but not read.
-/
namespace Templates
namespace Files

inductive Node where
  | file (bytes : List UInt8)
  | folder
  deriving DecidableEq, Repr

/-- A place is told by the names that lead to it from the root. -/
abbrev Place := List Text

namespace Place

/-- Where a name leads from a place. -/
def step (p : Place) (name : Text) : Place :=
  if name = [] ∨ name = ['.'] then p
  else if name = ['.', '.'] then p.dropLast
  else p ++ [name]

def follow (p : Place) (names : List Text) : Place := names.foldl step p

/-- The places where the names lead one after the other. -/
def way (p : Place) : List Text → List Place
  | [] => []
  | name :: names => step p name :: way (step p name) names

end Place

/-- What there is at which places, and the working folder. -/
structure Tree where
  nodes : Table Place Node
  workingFolder : Place

namespace Tree

/-- A tree with nothing but its working folder. -/
def empty : Tree := ⟨.empty, ["working-folder".toList]⟩

/-- What there is at a place.  The root, the working folder and the folders between them are always there. -/
def node? (t : Tree) (p : Place) : Option Node :=
  if p.isPrefixOf t.workingFolder then some .folder else t.nodes.get? p

def isFile (t : Tree) (p : Place) : Bool :=
  match t.node? p with
  | some (.file _) => true
  | _ => false

def longestName : Nat := 255

def longestPath : Nat := 4095

/-- Follows names from a place. -/
def walk (t : Tree) : Place → List Text → Except Fault Place
  | p, [] => .ok p
  | p, name :: names =>
    if t.isFile p then .error .notFolder
    else if longestName < Text.byteSize name then .error .nameTooLong
    else if (t.node? (Place.step p name)).isSome then t.walk (Place.step p name) names
    else .error .missing

def names (path : Text) : List Text := Text.pieces (· == '/') path

/-- Where the names of a path are followed from. -/
def start (t : Tree) (path : Text) : Place := if path.head? = some '/' then [] else t.workingFolder

/-- Where a path leads if everything on the way is there. -/
def place (t : Tree) (path : Text) : Place := Place.follow (t.start path) (names path)

def find (t : Tree) (path : Text) : Except Fault Node :=
  if Char.ofNat 0 ∈ path then .error .nulInPath
  else if path = [] then .error .missing
  else if longestPath < Text.byteSize path then .error .nameTooLong
  else match t.walk (t.start path) (names path) with
    | .error fault => .error fault
    | .ok place => match t.node? place with
      | some node => .ok node
      | none => .error .missing

def read? (t : Tree) (path : Text) : Except Fault (List UInt8) :=
  match t.find path with
  | .error fault => .error fault
  | .ok .folder => .error .isFolder
  | .ok (.file bytes) => .ok bytes

/-- The lines of some bytes, each decoded for itself. -/
def lines (bytes : List UInt8) : List Text := (linesBy 0x0A 0x0D bytes).map Utf8.decodeLossy

/-- The lines of a file.  A folder opens, but its first line is a fault. -/
def open? (t : Tree) (path : Text) : Except Fault (List (Except Fault Text)) :=
  match t.find path with
  | .error fault => .error fault
  | .ok .folder => .ok [.error .isFolder]
  | .ok (.file bytes) => .ok ((lines bytes).map .ok)

/-- The tree with a folder at a place where there is nothing. -/
def addFolder (t : Tree) (p : Place) : Tree :=
  if (t.node? p).isSome then t else { t with nodes := t.nodes.insert p .folder }

def addFolders (t : Tree) (places : List Place) : Tree := places.foldl addFolder t

/-- The tree with a file or folder put at a path, and the folders on the way to it made as needed. -/
def write (t : Tree) (path : Text) (node : Node) : Tree :=
  let grown := t.addFolders (Place.way (t.start path) (names path))
  { grown with nodes := grown.nodes.insert (t.place path) node }

/-- The tree without the file at a path. -/
def remove (t : Tree) (path : Text) : Tree :=
  if t.isFile (t.place path) then { t with nodes := t.nodes.erase (t.place path) } else t

end Tree
end Files
end Templates
