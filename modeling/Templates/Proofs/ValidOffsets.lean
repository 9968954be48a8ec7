import Templates.Proofs.InPlace
import Templates.Proofs.LineRanges
import Templates.Tag.Marks
/-!
# All offsets are valid

Reading and changing texts at byte offsets never goes wrong.  Every access in a search, in a change of marks, in writing tags out
and in reading a file fails where its range is not one of the text (`Text.exists_ranged?_iff`), and yet all of these come to what
is done with texts that are taken apart (`all_offsets_valid`).
-/
namespace Templates

open Text (byteSize slice? dropBytes? firstOffset?)

namespace Tag

/-- Changes the marks of the tags from an offset on, where `converted` is what has been written so far.  Nothing when there are
more than `n` opening marks. -/
def retagFrom? (old new : Marks) (t : Text) : Nat → Text → Nat → Option Text
  | 0, _, _ => none
  | n + 1, converted, marker => do
    match ← firstOffset? old.opening marker t with
    | none =>
      let rest ← dropBytes? marker t
      return converted ++ rest
    | some start =>
      let before ← slice? marker start t
      match ← firstOffset? old.closing (start + byteSize old.opening) t with
      | none => retagFrom? old new t n (converted ++ before ++ old.opening) (start + byteSize old.opening)
      | some stop =>
        let name ← slice? (start + byteSize old.opening) stop t
        retagFrom? old new t n (converted ++ before ++ new.wrap name) (stop + byteSize old.closing)

/-- The text with other marks, found by offsets. -/
def retagAt? (old new : Marks) (n : Nat) (t : Text) : Option Text :=
  if old.opening = [] ∨ old.closing = [] then some t else retagFrom? old new t n [] 0

variable {old new : Marks}

/-- At an opening mark the search goes on behind the tag, or behind the mark if the tag never ends. -/
theorem retagFrom?_of_cut {rest before behind : Text} (hcut : Text.cut old.opening rest = some (before, behind))
    (done converted : Text) (n : Nat) :
    retagFrom? old new (done ++ rest) (n + 1) converted (byteSize done) = match Text.cut old.closing behind with
      | none => retagFrom? old new (done ++ before ++ old.opening ++ behind) n (converted ++ before ++ old.opening)
          (byteSize (done ++ before ++ old.opening))
      | some (name, rest) =>
        retagFrom? old new (done ++ before ++ old.opening ++ name ++ old.closing ++ rest) n
          (converted ++ before ++ new.wrap name) (byteSize (done ++ before ++ old.opening ++ name ++ old.closing)) := by
  have htext : done ++ rest = done ++ before ++ old.opening ++ behind := by simp [Text.eq_append_of_cut hcut]
  have hstart : byteSize done + byteSize before + byteSize old.opening = byteSize (done ++ before ++ old.opening) := by
    simp only [Text.byteSize_append]
  have hbefore : slice? (byteSize done) (byteSize done + byteSize before) (done ++ before ++ old.opening ++ behind) =
      some before := Text.slice?_eq_of done (old.opening ++ behind) (by simp) rfl rfl
  rw [retagFrom?, Text.firstOffset?_eq_of old.opening done rest rfl rfl, hcut, htext]
  simp only [Option.map_some, Option.bind_eq_bind, Option.bind_some, hbefore, hstart,
    Text.firstOffset?_eq_of old.closing _ behind rfl rfl]
  cases hclosing : Text.cut old.closing behind with
  | none => rfl
  | some parts =>
    obtain ⟨name, rest⟩ := parts
    obtain rfl := Text.eq_append_of_cut hclosing
    have hname : slice? (byteSize (done ++ before ++ old.opening)) (byteSize (done ++ before ++ old.opening) + byteSize name)
        (done ++ before ++ old.opening ++ (name ++ (old.closing ++ rest))) = some name :=
      Text.slice?_eq_of (done ++ before ++ old.opening) (old.closing ++ rest) rfl rfl rfl
    have hstop : byteSize (done ++ before ++ old.opening) + byteSize name + byteSize old.closing =
        byteSize (done ++ before ++ old.opening ++ name ++ old.closing) := by simp only [Text.byteSize_append]
    simp only [Option.map_some, Option.bind_some, hname, hstop]
    simp only [List.append_assoc]

theorem exists_retagFrom?_eq (hmarks : ¬ (old.opening = [] ∨ old.closing = [])) (done rest converted : Text) :
    ∃ n, retagFrom? old new (done ++ rest) n converted (byteSize done) = some (converted ++ retag old new rest) := by
  fun_induction retag old new rest generalizing done converted with
  | case1 rest hempty => exact absurd hempty hmarks
  | case2 rest _ hopening =>
    refine ⟨1, ?_⟩
    rw [retagFrom?, Text.firstOffset?_eq_of old.opening done rest rfl rfl, hopening]
    simp [Text.dropBytes?_byteSize_append]
  | case3 rest _ before behind hopening hclosing ih =>
    obtain ⟨n, hn⟩ := ih (done ++ before ++ old.opening) (converted ++ before ++ old.opening)
    refine ⟨n + 1, ?_⟩
    rw [retagFrom?_of_cut hopening, hclosing]
    exact hn.trans (by simp only [List.append_assoc])
  | case4 rest _ before behind hopening name rest' hclosing ih =>
    obtain ⟨n, hn⟩ := ih (done ++ before ++ old.opening ++ name ++ old.closing) (converted ++ before ++ new.wrap name)
    refine ⟨n + 1, ?_⟩
    rw [retagFrom?_of_cut hopening, hclosing]
    exact hn.trans (by simp only [List.append_assoc])

/-- **Giving tags other marks in place ends, and gives the text with these marks.** -/
theorem exists_retagAt?_eq (old new : Marks) (t : Text) : ∃ n, retagAt? old new n t = some (retag old new t) := by
  unfold retagAt?
  split
  · next hempty => exact ⟨0, by rw [retag, if_pos hempty]⟩
  · next hmarks => exact exists_retagFrom?_eq hmarks [] t []

end Tag

/-- **No access to a text is out of place.**  Taking a range of a text fails unless the range starts no later than it ends, ends
within the text and lies between characters, and taking the text from an offset on fails unless that lies between characters.
Although each of their accesses can fail like that, a search for an unescaped mark from any start, a change of marks, the writing
out of tags with a stem without open braces and the reading of a file line by line always come to something, which is what they
come to without offsets. -/
theorem all_offsets_valid {ε : Type} (t : Text) :
    (∀ start stop, (∃ parts, Text.ranged? start stop t = some parts) ↔
      start ≤ stop ∧ stop ≤ byteSize t ∧ Text.IsBoundary t start ∧ Text.IsBoundary t stop) ∧
    (∀ start, (∃ rest, dropBytes? start t = some rest) ↔ Text.IsBoundary t start) ∧
    (∀ mark start, Text.searchUnescaped? mark start t = some (Text.unescapedOffset? mark start t)) ∧
    (∀ old new, ∃ n, Tag.retagAt? old new n t = some (Tag.retag old new t)) ∧
    (∀ stem, '{' ∉ stem → ∃ n, Tag.turns? stem n t 0 = some (Tag.longForm stem t)) ∧
    ∀ (stem : Text) (lines : List (Except ε Text)), (Fragment.Call.readPart false (.whole stem) none lines).runAt? =
      some (.ofDelivery (Fragment.ofLines stem lines)) := by
  refine ⟨fun start stop => Text.exists_ranged?_iff, fun start => Text.isBoundary_iff.symm, fun mark start => ?_,
    fun old new => ?_, fun stem hstem => ?_, fun stem lines => ?_⟩
  · exact Text.searchUnescaped?_eq mark start t
  · exact Tag.exists_retagAt?_eq old new t
  · exact Tag.exists_turns?_eq_longForm hstem t
  · exact Fragment.Call.runAt?_whole stem lines

/-- Two short references behind characters of three and four bytes are written out in place. -/
theorem offsets_valid_behind_wide_characters :
    '{' ∉ "p".toList ∧ ∃ n, Tag.turns? "p".toList n "☃\x7b+#a\x7d𝄞\x7b+(é)#b\x7d".toList 0 =
      some "☃\x7b~.include.p#a\x7d𝄞\x7b~.includeIf(é).p#b\x7d".toList := by
  have hstem : '{' ∉ "p".toList := by decide
  have hlong : Tag.longForm "p".toList "☃\x7b+#a\x7d𝄞\x7b+(é)#b\x7d".toList =
      "☃\x7b~.include.p#a\x7d𝄞\x7b~.includeIf(é).p#b\x7d".toList := by decide +kernel
  obtain ⟨-, -, -, -, hturns, -⟩ := all_offsets_valid (ε := Empty) "☃\x7b+#a\x7d𝄞\x7b+(é)#b\x7d".toList
  exact ⟨hstem, by rw [← hlong]; exact hturns _ hstem⟩

end Templates
