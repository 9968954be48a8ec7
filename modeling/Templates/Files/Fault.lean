import Templates.Text.Basic
/-!
# Faults of files

Why a file could not be opened or read.  A fault has a kind, which is one word, and a message for people.
-/
namespace Templates

/-- Why a file could not be opened or read. -/
inductive Fault where
  | missing
  | forbidden
  /-- Something on the way to it is a file and not a folder. -/
  | notFolder
  | isFolder
  /-- A name on the way to it, or the whole path, is too long. -/
  | nameTooLong
  | nulInPath
  /-- Its bytes are not UTF-8 where they have to be. -/
  | notUtf8
  /-- A source of lines has a fault of its own. -/
  | other (kind message : Text)
  deriving DecidableEq, Repr

namespace Fault

def kind : Fault → Text
  | missing => "NotFound".toList
  | forbidden => "PermissionDenied".toList
  | notFolder => "NotADirectory".toList
  | isFolder => "IsADirectory".toList
  | nameTooLong => "InvalidFilename".toList
  | nulInPath => "InvalidInput".toList
  | notUtf8 => "InvalidData".toList
  | other kind _ => kind

def message : Fault → Text
  | missing => "No such file or directory (os error 2)".toList
  | forbidden => "Permission denied (os error 13)".toList
  | notFolder => "Not a directory (os error 20)".toList
  | isFolder => "Is a directory (os error 21)".toList
  | nameTooLong => "File name too long (os error 36)".toList
  | nulInPath => "file name contained an unexpected NUL byte".toList
  | notUtf8 => "stream did not contain valid UTF-8".toList
  | other _ message => message

end Fault
end Templates
