import Templates.Name
/-!
# Paths

A path is a text, built from a folder and pieces and never tidied up.  `Path.locate` is the path of the file that a request
goes to: the folders of its stem under the base folder, with the extension behind the last piece.
-/
namespace Templates
namespace Path

/-- A path with a piece put behind it, with a slash between them where the path needs one. -/
def join (path piece : Text) : Text :=
  if path = [] ∨ path.getLast? = some '/' then path ++ piece else path ++ '/' :: piece

def segments (stem : Text) : List Text := (Text.pieces Name.isSeparator stem).filter (· ≠ [])

/-- The path of a file from its folder and the pieces of its stem; without any piece it is the folder itself. -/
def under (folder extension : Text) : List Text → Text
  | [] => folder
  | [piece] => join folder (piece ++ '.' :: extension)
  | piece :: pieces => under (join folder piece) extension pieces

def locate (folder extension name : Text) : Text := under folder extension (segments (Name.requestStem name))

end Path
end Templates
