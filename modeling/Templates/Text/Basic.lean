/-!
# Text

A text is the list of its characters.  Where a place in a text has to be told to the outside it is a byte offset into
the UTF-8 form: `Text.byteSize` is the length of that form and `Text.dropBytes?` what is left after an offset, when the
offset falls between two characters.  `Text.pieces` takes a text apart at separators (`pieces_append_cons`).
-/
namespace Templates

abbrev Text := List Char

namespace Text

def byteSize : Text → Nat
  | [] => 0
  | c :: t => c.utf8Size + byteSize t

/-- What is left of a text after its first `n` bytes; nothing when `n` is past the end or inside a character. -/
def dropBytes? : Nat → Text → Option Text
  | 0, t => some t
  | _ + 1, [] => none
  | n + 1, c :: t => if c.utf8Size ≤ n + 1 then dropBytes? (n + 1 - c.utf8Size) t else none

/-- The pieces of a text between the characters that `isSeparator` names, empty pieces included. -/
def pieces (isSeparator : Char → Bool) : Text → List Text
  | [] => [[]]
  | c :: t =>
    if isSeparator c then [] :: pieces isSeparator t
    else match pieces isSeparator t with
      | [] => [[c]]
      | p :: ps => (c :: p) :: ps

@[simp] theorem byteSize_nil : byteSize [] = 0 := rfl

@[simp] theorem byteSize_cons (c : Char) (t : Text) : byteSize (c :: t) = c.utf8Size + byteSize t := rfl

@[simp] theorem byteSize_append (s t : Text) : byteSize (s ++ t) = byteSize s + byteSize t := by
  induction s with
  | nil => simp
  | cons c s ih => simp [ih, Nat.add_assoc]

theorem pieces_ne_nil (isSeparator : Char → Bool) : ∀ t : Text, pieces isSeparator t ≠ []
  | [] => by simp [pieces]
  | c :: t => by
    rw [pieces]
    split
    · simp
    · split <;> simp

/-- **The pieces of two texts with a separator between them** are those of the first and then those of the second. -/
theorem pieces_append_cons {isSeparator : Char → Bool} {c : Char} (hc : isSeparator c = true) (t : Text) :
    ∀ s : Text, pieces isSeparator (s ++ c :: t) = pieces isSeparator s ++ pieces isSeparator t
  | [] => by simp [pieces, hc]
  | d :: s => by
    rw [List.cons_append, pieces, pieces, pieces_append_cons hc t s]
    split
    · rfl
    · obtain ⟨p, ps, hp⟩ := List.exists_cons_of_ne_nil (pieces_ne_nil isSeparator s)
      rw [hp]
      rfl

theorem dropBytes?_byteSize_append (s t : Text) : dropBytes? (byteSize s) (s ++ t) = some t := by
  induction s with
  | nil => simp [dropBytes?]
  | cons c s ih =>
    have hpos := c.utf8Size_pos
    obtain ⟨n, hn⟩ : ∃ n, byteSize (c :: s) = n + 1 := ⟨c.utf8Size + byteSize s - 1, by simp; omega⟩
    rw [hn, List.cons_append, dropBytes?]
    rw [byteSize_cons] at hn
    rw [if_pos (by omega), show n + 1 - c.utf8Size = byteSize s by omega]
    exact ih

/-- An offset that leaves a rest is the size of the part before that rest. -/
theorem exists_of_dropBytes? {n : Nat} {t rest : Text} (h : dropBytes? n t = some rest) :
    ∃ s, t = s ++ rest ∧ byteSize s = n := by
  induction t generalizing n with
  | nil =>
    cases n with
    | zero => exact ⟨[], by simpa [dropBytes?] using h, rfl⟩
    | succ n => simp [dropBytes?] at h
  | cons c t ih =>
    cases n with
    | zero => exact ⟨[], by simpa [dropBytes?] using h, rfl⟩
    | succ n =>
      rw [dropBytes?] at h
      split at h
      · obtain ⟨s, rfl, hs⟩ := ih h
        exact ⟨c :: s, rfl, by rw [byteSize_cons]; omega⟩
      · cases h

end Text
end Templates
