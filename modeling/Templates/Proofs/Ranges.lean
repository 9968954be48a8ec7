import Templates.Proofs.Offsets
/-!
# Ranges of byte offsets

A text can be read and changed at byte offsets instead of being taken apart.  Here every such access comes to nothing where it is
not allowed: a range has to start no later than it ends, to end within the text and to lie between characters
(`exists_ranged?_iff`), and a byte has to be one of the text.  A byte that is an ASCII character belongs to no other character
(`eq_toUInt8_iff`), so looking at single bytes is as good as looking at characters.  The search for an unescaped mark goes from
offset to offset and looks back over the bytes, and all that it looks at is there (`searchUnescaped?_eq`).
-/
namespace Templates
namespace Text

variable {mark t before within behind : Text} {start stop n : Nat} {b : UInt8} {c k : Char}

/-! ### Ranges -/

/-- A text taken apart at a byte offset. -/
def splitBytes? (n : Nat) (t : Text) : Option (Text × Text) :=
  (dropBytes? n t).map fun rest => (t.take (t.length - rest.length), rest)

theorem splitBytes?_eq_some_iff : splitBytes? n t = some (before, behind) ↔ t = before ++ behind ∧ byteSize before = n := by
  rw [splitBytes?, Option.map_eq_some_iff]
  constructor
  · rintro ⟨rest, hrest, heq⟩
    obtain ⟨s, rfl, hs⟩ := exists_of_dropBytes? hrest
    simp only [List.length_append, Nat.add_sub_cancel_right, List.take_left', Prod.mk.injEq] at heq
    obtain ⟨rfl, rfl⟩ := heq
    exact ⟨rfl, hs⟩
  · rintro ⟨rfl, rfl⟩
    exact ⟨behind, dropBytes?_byteSize_append before behind, by simp⟩

/-- The text before, in and behind a range of byte offsets. -/
def ranged? (start stop : Nat) (t : Text) : Option (Text × Text × Text) :=
  if start ≤ stop then do
    let (before, rest) ← splitBytes? start t
    let (within, behind) ← splitBytes? (stop - start) rest
    return (before, within, behind)
  else none

theorem ranged?_eq_some_iff : ranged? start stop t = some (before, within, behind) ↔
    t = before ++ (within ++ behind) ∧ byteSize before = start ∧ start + byteSize within = stop := by
  unfold ranged?
  constructor
  · intro h
    split at h
    · next hle =>
      obtain ⟨⟨s, rest⟩, hs, h⟩ := Option.bind_eq_some_iff.1 h
      obtain ⟨⟨w, r⟩, hw, h⟩ := Option.bind_eq_some_iff.1 h
      cases h
      obtain ⟨rfl, hstart⟩ := splitBytes?_eq_some_iff.1 hs
      obtain ⟨rfl, hwithin⟩ := splitBytes?_eq_some_iff.1 hw
      exact ⟨rfl, hstart, by omega⟩
    · cases h
  · rintro ⟨rfl, rfl, rfl⟩
    have hrest : splitBytes? (byteSize before) (before ++ (within ++ behind)) = some (before, within ++ behind) :=
      splitBytes?_eq_some_iff.2 ⟨rfl, rfl⟩
    have hwithin : splitBytes? (byteSize within) (within ++ behind) = some (within, behind) :=
      splitBytes?_eq_some_iff.2 ⟨rfl, rfl⟩
    simp only [Nat.le_add_right, if_true, Nat.add_sub_cancel_left, hrest, hwithin, Option.bind_eq_bind, Option.bind_some,
      Option.pure_def]

theorem exists_ranged?_iff : (∃ parts, ranged? start stop t = some parts) ↔
    start ≤ stop ∧ stop ≤ byteSize t ∧ IsBoundary t start ∧ IsBoundary t stop := by
  constructor
  · rintro ⟨⟨before, within, behind⟩, h⟩
    obtain ⟨rfl, rfl, rfl⟩ := ranged?_eq_some_iff.1 h
    refine ⟨Nat.le_add_right _ _, by simp, ⟨before, _, rfl, rfl⟩, before ++ within, behind, by simp, by simp⟩
  · rintro ⟨hle, -, ⟨before, rest, rfl, rfl⟩, ⟨upTo, behind, heq, rfl⟩⟩
    -- the range is what stands between the two places, or they are the same place
    rcases List.append_eq_append_iff.1 heq with ⟨within, rfl, rfl⟩ | ⟨more, rfl, rfl⟩
    · exact ⟨(before, within, behind), ranged?_eq_some_iff.2 ⟨rfl, rfl, by simp⟩⟩
    · refine ⟨(upTo ++ more, [], rest), ranged?_eq_some_iff.2 ⟨rfl, rfl, ?_⟩⟩
      rw [byteSize_append] at hle ⊢
      simp only [byteSize_nil]
      omega

/-- A character of two bytes cannot be taken in half. -/
example : ranged? 0 1 ['é', 'a'] = none := by decide

/-- The text in a range of byte offsets. -/
def slice? (start stop : Nat) (t : Text) : Option Text := (ranged? start stop t).map fun parts => parts.2.1

/-- The text with a range of byte offsets replaced. -/
def replaceRange? (start stop : Nat) (new t : Text) : Option Text :=
  (ranged? start stop t).map fun parts => parts.1 ++ (new ++ parts.2.2)

theorem dropBytes?_eq_of (before : Text) (ht : t = before ++ behind) (hstart : byteSize before = start) :
    dropBytes? start t = some behind := by
  rw [ht, ← hstart, dropBytes?_byteSize_append]

theorem slice?_eq_of (before behind : Text) (ht : t = before ++ (within ++ behind)) (hstart : byteSize before = start)
    (hstop : start + byteSize within = stop) : slice? start stop t = some within := by
  rw [slice?, ranged?_eq_some_iff.2 ⟨ht, hstart, hstop⟩]
  rfl

theorem slice?_zero (before behind : Text) : slice? 0 (byteSize before) (before ++ behind) = some before :=
  slice?_eq_of [] behind rfl rfl (Nat.zero_add _)

theorem replaceRange?_eq_of (before within behind : Text) (ht : t = before ++ (within ++ behind))
    (hstart : byteSize before = start) (hstop : start + byteSize within = stop) (new : Text) :
    replaceRange? start stop new t = some (before ++ (new ++ behind)) := by
  rw [replaceRange?, ranged?_eq_some_iff.2 ⟨ht, hstart, hstop⟩]
  rfl

/-! ### Bytes -/

/-- The UTF-8 form of a text. -/
def bytes (t : Text) : List UInt8 := t.flatMap String.utf8EncodeChar

@[simp] theorem bytes_nil : bytes [] = [] := rfl

@[simp] theorem bytes_cons (c : Char) (t : Text) : bytes (c :: t) = String.utf8EncodeChar c ++ bytes t := rfl

@[simp] theorem bytes_append (s t : Text) : bytes (s ++ t) = bytes s ++ bytes t := List.flatMap_append

@[simp] theorem length_bytes : ∀ t : Text, (bytes t).length = byteSize t
  | [] => rfl
  | c :: t => by simp [length_bytes t]

theorem utf8EncodeChar_of_lt (h : c.toNat < 0x80) : String.utf8EncodeChar c = [c.toUInt8] :=
  String.utf8EncodeChar_eq_singleton (Char.utf8Size_eq_one_iff.2 (UInt32.le_iff_toNat_le.2 (Nat.le_of_lt_succ h)))

theorem le_of_mem_utf8EncodeChar (h : ¬ c.toNat < 0x80) (hb : b ∈ String.utf8EncodeChar c) : 0x80 ≤ b.toNat := by
  have hlarge : ¬ c.val.toNat ≤ 127 := fun hle => h (Nat.lt_succ_of_le hle)
  -- the forms of two, three and four bytes, each of whose bytes has its top bit set
  rw [String.utf8EncodeChar] at hb
  simp only [if_neg hlarge] at hb
  split at hb
  · simp at hb
    rcases hb with rfl | rfl <;> simp <;> omega
  · split at hb
    · simp at hb
      rcases hb with rfl | rfl | rfl <;> simp <;> omega
    · simp at hb
      rcases hb with rfl | rfl | rfl | rfl <;> simp <;> omega

theorem toNat_toUInt8_of_lt (h : c.toNat < 0x80) : c.toUInt8.toNat = c.toNat :=
  Nat.mod_eq_of_lt (Nat.lt_trans h (by decide))

/-- **A byte below 128 is a character of its own**, and no part of another one. -/
theorem eq_toUInt8_iff (hb : b ∈ String.utf8EncodeChar c) (hk : k.toNat < 0x80) : b = k.toUInt8 ↔ c = k := by
  by_cases hc : c.toNat < 0x80
  · rw [utf8EncodeChar_of_lt hc, List.mem_singleton] at hb
    rw [hb, ← UInt8.toNat_inj, toNat_toUInt8_of_lt hc, toNat_toUInt8_of_lt hk]
    exact Char.toNat_inj
  · refine iff_of_false ?_ ?_
    · rintro rfl
      have hle := le_of_mem_utf8EncodeChar hc hb
      rw [toNat_toUInt8_of_lt hk] at hle
      omega
    · rintro rfl
      exact hc hk

/-- At the offset behind a text stands the first byte of the next character. -/
theorem exists_byte_behind (before : Text) (c : Char) (behind : Text) :
    ∃ b ∈ String.utf8EncodeChar c, (before ++ c :: behind).bytes[byteSize before]? = some b := by
  obtain ⟨b, more, hb⟩ := List.exists_cons_of_ne_nil (String.utf8EncodeChar_ne_nil (c := c))
  refine ⟨b, by simp [hb], ?_⟩
  rw [bytes_append, List.getElem?_append_right (by simp), length_bytes, Nat.sub_self, bytes_cons, hb]
  rfl

/-- One before the offset behind a text stands the last byte of its last character. -/
theorem exists_byte_before (before : Text) (c : Char) (behind : Text) :
    ∃ b ∈ String.utf8EncodeChar c, (before ++ c :: behind).bytes[byteSize (before ++ [c]) - 1]? = some b := by
  obtain ⟨more, b, hb⟩ := (List.eq_nil_or_concat (String.utf8EncodeChar c)).resolve_left String.utf8EncodeChar_ne_nil
  rw [List.concat_eq_append] at hb
  refine ⟨b, by simp [hb], ?_⟩
  have hplace : byteSize (before ++ [c]) - 1 = (bytes before ++ more).length := by
    rw [← length_bytes, bytes_append, bytes_cons, hb]
    simp
  have hbytes : (before ++ c :: behind).bytes = (bytes before ++ more) ++ b :: bytes behind := by
    rw [bytes_append, bytes_cons, hb]
    simp
  rw [hplace, hbytes, List.getElem?_append_right (Nat.le_refl _), Nat.sub_self]
  rfl

theorem bytes_past_end (t : Text) : t.bytes[byteSize t]? = none := by
  rw [← length_bytes]
  exact List.getElem?_eq_none (Nat.le_refl _)

/-- The bytes between two offsets. -/
def byteRange? (start stop : Nat) (t : Text) : Option (List UInt8) :=
  if start ≤ stop ∧ stop ≤ t.bytes.length then some ((t.bytes.drop start).take (stop - start)) else none

theorem byteRange?_eq_of (before behind : Text) (ht : t = before ++ (within ++ behind)) (hstart : byteSize before = start)
    (hstop : start + byteSize within = stop) : byteRange? start stop t = some (bytes within) := by
  subst ht hstart hstop
  rw [byteRange?, if_pos (by simp)]
  simp [← length_bytes]

/-- The bytes of a text end in as many backslashes as the text. -/
theorem length_takeWhile_bytes (t : Text) :
    (t.bytes.reverse.takeWhile (· == '\\'.toUInt8)).length = (t.reverse.takeWhile (· == '\\')).length := by
  induction t using List.reverseRecOn with
  | nil => rfl
  | append_singleton t c ih =>
    rw [bytes_append, List.reverse_append, List.reverse_append]
    by_cases hc : c = '\\'
    · subst hc
      have hone : bytes ['\\'] = ['\\'.toUInt8] := by decide
      rw [hone]
      simp [ih]
    · obtain ⟨more, b, hb⟩ := (List.eq_nil_or_concat (String.utf8EncodeChar c)).resolve_left String.utf8EncodeChar_ne_nil
      rw [List.concat_eq_append] at hb
      have hne : b ≠ '\\'.toUInt8 := fun h => hc ((eq_toUInt8_iff (by simp [hb]) (by decide)).1 h)
      simp [hb, hne, hc]

/-! ### Searches -/

/-- The offset of the first `mark` from a start on, if there is one. -/
def firstOffset? (mark : Text) (start : Nat) (t : Text) : Option (Option Nat) :=
  (dropBytes? start t).map fun rest => (cut mark rest).map fun parts => start + byteSize parts.1

theorem bounds_of_firstOffset? {place : Nat} (h : firstOffset? mark start t = some (some place)) :
    start ≤ place ∧ place + byteSize mark ≤ byteSize t := by
  obtain ⟨rest, hrest, hplace⟩ := Option.map_eq_some_iff.1 h
  obtain ⟨parts, hcut, rfl⟩ := Option.map_eq_some_iff.1 hplace
  obtain ⟨skipped, rfl, rfl⟩ := exists_of_dropBytes? hrest
  have hsize := byteSize_of_cut hcut
  rw [byteSize_append]
  omega

/-- The offset of the first unescaped `m :: mark` from the offset `search` on, if there is one.  The bytes from `start` on are
looked at for backslashes, and the search goes on behind the first character of a mark that is escaped. -/
def firstUnescapedFrom? (m : Char) (mark : Text) (start search : Nat) (t : Text) : Option (Option Nat) :=
  match _ : firstOffset? (m :: mark) search t with
  | none => none
  | some none => some none
  | some (some place) => do
    let passed ← byteRange? start place t
    if (passed.reverse.takeWhile (· == '\\'.toUInt8)).length % 2 = 0 then return some place
    else firstUnescapedFrom? m mark start (place + m.utf8Size) t
termination_by byteSize t - search
decreasing_by
  have hbounds := bounds_of_firstOffset? ‹_›
  have hpos := m.utf8Size_pos
  rw [byteSize_cons] at hbounds
  omega

/-- The offset of the first unescaped `mark` from a start on, if there is one. -/
def firstUnescaped? (mark : Text) (start : Nat) (t : Text) : Option (Option Nat) :=
  match mark with
  | [] => some none
  | m :: mark => firstUnescapedFrom? m mark start start t

/-- The same for any start: one that is no place in the text is found out before it is used. -/
def searchUnescaped? (mark : Text) (start : Nat) (t : Text) : Option (Option Nat) :=
  match dropBytes? start t with
  | none => some none
  | some _ => firstUnescaped? mark start t

theorem cut_cons_of_not_prefix (h : ¬ mark <+: c :: t) :
    cut mark (c :: t) = (cut mark t).map fun parts => (c :: parts.1, parts.2) := by
  rw [cut, if_neg (mt List.isPrefixOf_iff_prefix.1 h)]

theorem firstOffset?_eq_of (mark before behind : Text) (ht : t = before ++ behind) (hstart : byteSize before = start) :
    firstOffset? mark start t = some ((cut mark behind).map fun parts => start + byteSize parts.1) := by
  rw [firstOffset?, dropBytes?_eq_of before ht hstart]
  rfl

theorem firstOffset?_zero (mark t : Text) : firstOffset? mark 0 t = some ((cut mark t).map fun parts => byteSize parts.1) :=
  (firstOffset?_eq_of mark [] t rfl rfl).trans (by simp)

theorem firstUnescapedFrom?_of_none {m : Char} {search : Nat} (h : firstOffset? (m :: mark) search t = some none) :
    firstUnescapedFrom? m mark start search t = some none := by
  rw [firstUnescapedFrom?]
  split
  · next hfailed => cases h.symm.trans hfailed
  · rfl
  · next hfound => cases h.symm.trans hfound

theorem firstUnescapedFrom?_of_place {m : Char} {search place : Nat}
    (h : firstOffset? (m :: mark) search t = some (some place)) :
    firstUnescapedFrom? m mark start search t = (byteRange? start place t).bind fun passed =>
      if (passed.reverse.takeWhile (· == '\\'.toUInt8)).length % 2 = 0 then some (some place)
      else firstUnescapedFrom? m mark start (place + m.utf8Size) t := by
  rw [firstUnescapedFrom?]
  split
  · next hfailed => cases h.symm.trans hfailed
  · next hnone => cases h.symm.trans hnone
  · next hfound =>
    cases h.symm.trans hfound
    rfl

/-- At a mark the search ends, or goes on behind the first character of the mark. -/
theorem firstUnescapedFrom?_of_cut {m : Char} {mark rest before after : Text} (hcut : cut (m :: mark) rest = some (before, after))
    (skipped passed : Text) :
    firstUnescapedFrom? m mark (byteSize skipped) (byteSize (skipped ++ passed)) (skipped ++ (passed ++ rest)) =
      if Escaping (passed ++ before) then
        firstUnescapedFrom? m mark (byteSize skipped) (byteSize (skipped ++ (passed ++ (before ++ [m]))))
          (skipped ++ (passed ++ (before ++ [m]) ++ (mark ++ after)))
      else some (some (byteSize skipped + byteSize (passed ++ before))) := by
  have htext : skipped ++ (passed ++ rest) = skipped ++ (passed ++ (before ++ [m]) ++ (mark ++ after)) := by
    simp [eq_append_of_cut hcut]
  have hplace : byteSize (skipped ++ passed) + byteSize before = byteSize skipped + byteSize (passed ++ before) := by
    simp [Nat.add_assoc]
  have hsearch : firstOffset? (m :: mark) (byteSize (skipped ++ passed)) (skipped ++ (passed ++ rest)) =
      some (some (byteSize skipped + byteSize (passed ++ before))) := by
    rw [firstOffset?_eq_of _ _ _ (List.append_assoc skipped passed rest).symm rfl, hcut, ← hplace]
    rfl
  have hbytes : byteRange? (byteSize skipped) (byteSize skipped + byteSize (passed ++ before))
      (skipped ++ (passed ++ (before ++ [m]) ++ (mark ++ after))) = some (bytes (passed ++ before)) :=
    byteRange?_eq_of skipped (m :: mark ++ after) (by simp) rfl rfl
  have hnext : byteSize skipped + byteSize (passed ++ before) + m.utf8Size =
      byteSize (skipped ++ (passed ++ (before ++ [m]))) := by simp [Nat.add_assoc]
  rw [firstUnescapedFrom?_of_place hsearch, htext, hbytes, hnext, Option.bind_some, length_takeWhile_bytes]
  by_cases hescaping : Escaping (passed ++ before)
  · rw [if_pos hescaping, if_neg (Nat.mod_two_ne_zero.2 hescaping)]
  · rw [if_neg hescaping, if_pos (Nat.mod_two_ne_one.1 hescaping)]

theorem firstUnescapedFrom?_eq (m : Char) (mark skipped passed rest : Text) :
    firstUnescapedFrom? m mark (byteSize skipped) (byteSize (skipped ++ passed)) (skipped ++ (passed ++ rest)) =
      some ((searchOn m mark passed rest).map fun parts => byteSize skipped + byteSize parts.1) := by
  fun_induction searchOn m mark passed rest with
  | case1 passed rest hcut =>
    refine firstUnescapedFrom?_of_none ?_
    rw [firstOffset?_eq_of _ _ _ (List.append_assoc skipped passed rest).symm rfl, hcut]
    rfl
  | case2 passed rest before after hcut hescaping ih => rw [firstUnescapedFrom?_of_cut hcut, if_pos hescaping, ih]
  | case3 passed rest before after hcut hescaping =>
    rw [firstUnescapedFrom?_of_cut hcut, if_neg hescaping]
    rfl

theorem firstUnescaped?_eq_of (mark before behind : Text) (ht : t = before ++ behind) (hstart : byteSize before = start) :
    firstUnescaped? mark start t = some ((cutUnescaped mark behind).map fun parts => start + byteSize parts.1) := by
  subst ht hstart
  cases mark with
  | nil => simp [firstUnescaped?, cutUnescaped]
  | cons m mark =>
    have h := firstUnescapedFrom?_eq m mark before [] behind
    rw [List.append_nil, List.nil_append, searchOn_eq] at h
    rw [firstUnescaped?, h, cutUnescaped, if_neg (List.cons_ne_nil m mark)]
    simp

theorem firstUnescaped?_zero (mark t : Text) :
    firstUnescaped? mark 0 t = some ((cutUnescaped mark t).map fun parts => byteSize parts.1) :=
  (firstUnescaped?_eq_of mark [] t rfl rfl).trans (by simp)

/-- **A search for an unescaped mark looks only at places of the text**, whatever start it is given. -/
theorem searchUnescaped?_eq (mark : Text) (start : Nat) (t : Text) :
    searchUnescaped? mark start t = some (unescapedOffset? mark start t) := by
  rw [searchUnescaped?, unescapedOffset?]
  cases hrest : dropBytes? start t with
  | none => rfl
  | some rest =>
    obtain ⟨skipped, rfl, hstart⟩ := exists_of_dropBytes? hrest
    simp only [firstUnescaped?_eq_of mark skipped rest rfl hstart, Option.bind_eq_bind, Option.bind_some, Option.pure_def,
      Option.map_eq_bind]
    rfl

end Text
end Templates
