import Templates.Text.Basic
/-!
# Cutting a text at a mark

`Text.cut mark t` takes a text apart at the first place where `mark` stands; `Text.cutUnescaped mark t` at the first place
where it stands unescaped, that is after an even number of backslashes.  `eq_append_of_cut` and
`eq_append_of_cutUnescaped` say that nothing is lost, and `unescapedOffset?` gives the place as a byte offset.
-/
namespace Templates
namespace Text

/-- The parts of a text before and after the first occurrence of `mark`. -/
def cut (mark : Text) : Text → Option (Text × Text)
  | [] => if mark = [] then some ([], []) else none
  | c :: t =>
    if mark.isPrefixOf (c :: t) then some ([], (c :: t).drop mark.length)
    else (cut mark t).map fun parts => (c :: parts.1, parts.2)

/-- The parts of a text before and after the first unescaped occurrence of `mark`, where `escaped` tells whether an odd
number of backslashes stands directly before the text. -/
def cutUnescapedAfter (mark : Text) (escaped : Bool) : Text → Option (Text × Text)
  | [] => none
  | c :: t =>
    if !escaped && mark.isPrefixOf (c :: t) then some ([], (c :: t).drop mark.length)
    else (cutUnescapedAfter mark (c == '\\' && !escaped) t).map fun parts => (c :: parts.1, parts.2)

/-- The parts of a text before and after the first occurrence of `mark` that follows an even number of backslashes; an
empty mark stands nowhere. -/
def cutUnescaped (mark t : Text) : Option (Text × Text) :=
  if mark = [] then none else cutUnescapedAfter mark false t

/-- The byte offset of the first unescaped `mark` at or after the byte offset `start`.  Backslashes before `start` do not
count, and an offset that is not between two characters finds nothing. -/
def unescapedOffset? (mark : Text) (start : Nat) (t : Text) : Option Nat := do
  let rest ← dropBytes? start t
  let parts ← cutUnescaped mark rest
  return start + byteSize parts.1

theorem eq_append_drop_of_isPrefixOf {mark t : Text} (h : mark.isPrefixOf t = true) :
    t = mark ++ t.drop mark.length := by
  obtain ⟨r, rfl⟩ := List.isPrefixOf_iff_prefix.1 h
  simp

/-- **A cut loses nothing**: the parts and the mark between them are the text. -/
theorem eq_append_of_cut {mark t before after : Text} (h : cut mark t = some (before, after)) :
    t = before ++ (mark ++ after) := by
  induction t generalizing before with
  | nil =>
    rw [cut] at h
    split at h
    · next hm => cases h; simp [hm]
    · cases h
  | cons c t ih =>
    rw [cut] at h
    split at h
    · next hp =>
      cases h
      exact eq_append_drop_of_isPrefixOf hp
    · obtain ⟨parts, hparts, heq⟩ := Option.map_eq_some_iff.1 h
      obtain ⟨b, a⟩ := parts
      cases heq
      rw [ih hparts, List.cons_append]

/-- **An unescaped cut loses nothing**, wherever it starts. -/
theorem eq_append_of_cutUnescapedAfter {mark t before after : Text} {escaped : Bool}
    (h : cutUnescapedAfter mark escaped t = some (before, after)) : t = before ++ (mark ++ after) := by
  induction t generalizing before escaped with
  | nil => cases h
  | cons c t ih =>
    rw [cutUnescapedAfter] at h
    split at h
    · next hp =>
      cases h
      simp only [Bool.and_eq_true] at hp
      exact eq_append_drop_of_isPrefixOf hp.2
    · obtain ⟨parts, hparts, heq⟩ := Option.map_eq_some_iff.1 h
      obtain ⟨b, a⟩ := parts
      cases heq
      rw [ih hparts, List.cons_append]

theorem eq_append_of_cutUnescaped {mark t before after : Text} (h : cutUnescaped mark t = some (before, after)) :
    t = before ++ (mark ++ after) := by
  unfold cutUnescaped at h
  split at h
  · cases h
  · exact eq_append_of_cutUnescapedAfter h

theorem length_of_cut {mark t before after : Text} (h : cut mark t = some (before, after)) :
    t.length = before.length + mark.length + after.length := by
  rw [eq_append_of_cut h]
  simp [Nat.add_assoc]

theorem byteSize_of_cut {mark t before after : Text} (h : cut mark t = some (before, after)) :
    byteSize t = byteSize before + byteSize mark + byteSize after := by
  rw [eq_append_of_cut h, byteSize_append, byteSize_append, Nat.add_assoc]

theorem byteSize_of_cutUnescaped {mark t before after : Text} (h : cutUnescaped mark t = some (before, after)) :
    byteSize t = byteSize before + byteSize mark + byteSize after := by
  rw [eq_append_of_cutUnescaped h, byteSize_append, byteSize_append, Nat.add_assoc]

theorem count_of_cut {mark t before after : Text} (c : Char) (h : cut mark t = some (before, after)) :
    t.count c = before.count c + (mark.count c + after.count c) := by
  rw [eq_append_of_cut h, List.count_append, List.count_append]

theorem count_of_cutUnescaped {mark t before after : Text} (c : Char) (h : cutUnescaped mark t = some (before, after)) :
    t.count c = before.count c + (mark.count c + after.count c) := by
  rw [eq_append_of_cutUnescaped h, List.count_append, List.count_append]

end Text
end Templates
