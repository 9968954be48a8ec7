import Templates.Files.Tree
import Templates.Settings.Basic
import Templates.Toml.Document
/-!
# Reading settings

Settings may be written in TOML.  Every one of them has its standard value unless it is given, and keys that mean nothing
here are passed over.  The marks of a tag are a table or else a list, and a mark that it does not give is the standard one.
The word for what a miss shows may stand alone or be the one key of a table with nothing in it.
-/
namespace Templates

inductive SettingsError where
  | unreadable (fault : Fault)
  /-- The text is not TOML, or a setting has a value of the wrong kind. -/
  | malformed
  deriving DecidableEq, Repr

namespace Settings

open Toml (Value Pairs)

def text? : Value → Option Text
  | .string t => some t
  | _ => none

def count? : Value → Option Nat
  | .integer n => if 0 ≤ n then some n.toNat else none
  | _ => none

/-- The value under a key, read, or a standard value where the key is not given. -/
def field {α : Type} (pairs : Pairs) (key : String) (standard : α) (read : Value → Option α) : Option α :=
  match pairs.get? key.toList with
  | none => some standard
  | some v => read v

/-- Reads one mark of a list, or keeps the standard one where the list ends before it. -/
def markAt (standard : Text) : Option Value → Option Text
  | none => some standard
  | some v => text? v

/-- Reads the marks of a tag.  A date or a time of day counts as a table that gives neither of them. -/
def marks? : Value → Option Tag.Marks
  | .table _ pairs => do
    let opening ← field pairs "start" Tag.Marks.standard.opening text?
    let closing ← field pairs "end" Tag.Marks.standard.closing text?
    return ⟨opening, closing⟩
  | .array items => do
    let opening ← markAt Tag.Marks.standard.opening items[0]?
    let closing ← markAt Tag.Marks.standard.closing items[1]?
    return ⟨opening, closing⟩
  | .moment _ => some Tag.Marks.standard
  | _ => none

def onMissOfWord? (word : Text) : Option OnMiss :=
  if word = "verbose".toList ∨ word = "pretty".toList then some .placeholder
  else if word = "silent".toList then some .nothing
  else none

/-- Whether a value has parts but none of them is there. -/
def isHollow : Value → Bool
  | .table _ [] => true
  | .array [] => true
  | _ => false

def onMiss? : Value → Option OnMiss
  | .string word => onMissOfWord? word
  | .table _ [(word, v)] => if isHollow v then onMissOfWord? word else none
  | _ => none

def ofPairs (pairs : Pairs) : Option Settings := do
  let folder ← field pairs "base_dir" none fun v => (text? v).map some
  let fallbackFolder ← field pairs "fallback_dir" none fun v => (text? v).map some
  let extension ← field pairs "default_extension" standard.extension text?
  let refreshMinutes ← field pairs "refresh_minutes" standard.refreshMinutes count?
  let marks ← field pairs "tag_boundaries" standard.marks marks?
  let onMiss ← field pairs "fail_mode" standard.onMiss onMiss?
  return { folder, fallbackFolder, extension, refreshMinutes, marks, onMiss }

def ofToml (t : Text) : Except SettingsError Settings :=
  match Toml.document? t >>= ofPairs with
  | some s => .ok s
  | none => .error .malformed

def ofFile (tree : Files.Tree) (path : Text) : Except SettingsError Settings :=
  match tree.read? path with
  | .error fault => .error (.unreadable fault)
  | .ok bytes => match Utf8.decode? bytes with
    | none => .error (.unreadable .notUtf8)
    | some t => ofToml t

end Settings

def SettingsError.message : SettingsError → Text
  | .unreadable fault => "Failed to read template set config: ".toList ++ fault.message
  | .malformed => "Failed to parse template set config TOML".toList

end Templates
