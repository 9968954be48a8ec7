import Templates.Text.Basic
/-!
# UTF-8

Bytes are decoded one at a time.  Between two characters nothing is owed; behind a lead byte a number of continuation bytes
is (`Owed`), the first of them within bounds that leave out overlong forms, surrogates and what is past the last code
point.  A byte that cannot continue what was begun ends an ill-formed piece and starts anew, so that each ill-formed piece
is as long as it can be and yet the start of a character.  `decodeLossy` puts U+FFFD for each such piece, and `decode?`
refuses them.
-/
namespace Templates
namespace Utf8

/-- A character of which some bytes are still to come. -/
structure Owed where
  /-- The value of the bits read so far. -/
  value : Nat
  /-- How many bytes are to come behind the next one. -/
  more : Nat
  low : UInt8
  high : UInt8
  deriving DecidableEq, Repr

/-- What a byte comes to between two characters. -/
inductive Lead where
  | whole (c : Char)
  | start (o : Owed)
  | refused
  deriving DecidableEq, Repr

def lead (b : UInt8) : Lead :=
  if b < 0x80 then .whole (Char.ofNat b.toNat)
  else if b < 0xC2 then .refused
  else if b < 0xE0 then .start ⟨b.toNat - 0xC0, 0, 0x80, 0xBF⟩
  else if b = 0xE0 then .start ⟨0, 1, 0xA0, 0xBF⟩
  else if b = 0xED then .start ⟨0xD, 1, 0x80, 0x9F⟩
  else if b < 0xF0 then .start ⟨b.toNat - 0xE0, 1, 0x80, 0xBF⟩
  else if b = 0xF0 then .start ⟨0, 2, 0x90, 0xBF⟩
  else if b < 0xF4 then .start ⟨b.toNat - 0xF0, 2, 0x80, 0xBF⟩
  else if b = 0xF4 then .start ⟨4, 2, 0x80, 0x8F⟩
  else .refused

/-- The characters of some bytes, with nothing for each ill-formed piece, where `owed` is the character begun before
them. -/
def decodeAfter : Option Owed → List UInt8 → List (Option Char)
  | none, [] => []
  | some _, [] => [none]
  | none, b :: rest => match lead b with
    | .whole c => some c :: decodeAfter none rest
    | .start o => decodeAfter (some o) rest
    | .refused => none :: decodeAfter none rest
  | some o, b :: rest =>
    if o.low ≤ b ∧ b ≤ o.high then
      match o.more with
      | 0 => some (Char.ofNat (o.value * 64 + (b.toNat - 0x80))) :: decodeAfter none rest
      | n + 1 => decodeAfter (some ⟨o.value * 64 + (b.toNat - 0x80), n, 0x80, 0xBF⟩) rest
    else
      match lead b with
      | .whole c => none :: some c :: decodeAfter none rest
      | .start o => none :: decodeAfter (some o) rest
      | .refused => none :: none :: decodeAfter none rest

/-- The characters of some bytes, with nothing for each ill-formed piece. -/
def decode (bytes : List UInt8) : List (Option Char) := decodeAfter none bytes

def replacement : Char := Char.ofNat 0xFFFD

/-- The text of some bytes, with U+FFFD for each ill-formed piece. -/
def decodeLossy (bytes : List UInt8) : Text := (decode bytes).map fun c => c.getD replacement

/-- The text of some bytes without ill-formed pieces. -/
def decode? (bytes : List UInt8) : Option Text := (decode bytes).mapM id

end Utf8
end Templates
