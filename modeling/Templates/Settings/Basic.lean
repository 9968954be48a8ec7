import Templates.Tag.Marks
/-!
# Settings

What a library of templates is set up with: where its files are, which extension they have, how long their fragments are kept,
how tags are marked, and what a request shows that cannot be met.
-/
namespace Templates

/-- What a request shows that cannot be met. -/
inductive OnMiss where
  | placeholder
  /-- Nothing, so that whoever asks can tell. -/
  | nothing
  deriving DecidableEq, Repr

structure Settings where
  /-- The folder of the template files, if one is named. -/
  folder : Option Text
  /-- The folder of the template files when none is named. -/
  fallbackFolder : Option Text
  extension : Text
  refreshMinutes : Nat
  marks : Tag.Marks
  onMiss : OnMiss
  deriving DecidableEq, Repr

namespace Settings

/-- What holds unless somebody says otherwise. -/
def standard : Settings where
  folder := none
  fallbackFolder := none
  extension := ['h', 't', 'm', 'l']
  refreshMinutes := 15
  marks := .standard
  onMiss := .placeholder

/-- The standard settings with the folder that the surroundings name, where an empty name counts as none. -/
def ofSurroundings (folder : Option Text) : Settings :=
  { standard with fallbackFolder := folder.filter (· ≠ []) }

def baseFolder (s : Settings) : Text := (s.folder <|> s.fallbackFolder).getD []

/-- The greatest number of seconds that can be counted. -/
def mostSeconds : Nat := 0xFFFFFFFFFFFFFFFF

def minutesInSeconds (minutes : Nat) : Nat := min (minutes * 60) mostSeconds

end Settings
end Templates
