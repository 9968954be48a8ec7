import Templates.Proofs.Ranges
import Templates.Tag.Passes
/-!
# Writing tags out in place

The long form of a text can be written into the text itself: a cursor goes from brace to brace, each turn changes the text at
offsets that it has found by searching or by counting marks, and all later offsets count from the changed text.  A directive is
written anew by going through its hash signs, looking at the two bytes before each, and copying what stands between two changes
(`Splicing`).  An access that is not allowed comes to nothing, and none is made: a directive at offsets is the directive with the
stem put in (`exists_spliced?`), a turn is a pass over the text that is left, or half of one at a caret
(`exists_turns?_eq_resume`), and the turns come to the long form (`exists_turns?_eq_longForm`).
-/
namespace Templates
namespace Tag

open Text (bytes byteSize slice? replaceRange? dropBytes? firstOffset? firstUnescaped?)

/-! ### Directives -/

/-- The offsets at which a character stands in a text, where `n` is the offset of the text itself. -/
def offsetsFrom (c : Char) (n : Nat) : Text → List Nat
  | [] => []
  | d :: t => if d = c then n :: offsetsFrom c (n + d.utf8Size) t else offsetsFrom c (n + d.utf8Size) t

/-- What has been written anew of a directive, if anything has, and up to which offset of the directive. -/
structure Splicing where
  written : Option Text
  copied : Nat

namespace Splicing

/-- Copies the directive up to the offset `upTo` and writes a piece behind the copy.  The hash sign at the offset `hash` comes
next. -/
def splice? (directive : Text) (s : Splicing) (upTo hash : Nat) (piece : Text) : Option Splicing := do
  let copy ← slice? s.copied upTo directive
  return ⟨some (s.written.getD [] ++ copy ++ piece), hash⟩

/-- Writes the stem before the hash sign of a reference, for what the two bytes before the sign are. -/
def reference? (stem directive : Text) (s : Splicing) (hash : Nat) : Option Splicing :=
  if hash < 2 then some s
  else do
    let a ← directive.bytes[hash - 2]?
    let b ← directive.bytes[hash - 1]?
    if b = '+'.toUInt8 ∧ (a = ','.toUInt8 ∨ a = ':'.toUInt8 ∨ a = '('.toUInt8) then
      s.splice? directive (hash - 1) hash (includeWord ++ stem)
    else if b = '.'.toUInt8 ∧ (a = ')'.toUInt8 ∨ a = 'e'.toUInt8) then s.splice? directive hash hash stem
    else return s

/-- Writes the stem before the hash sign of an argument, for what the byte before the sign is. -/
def argument? (stem directive : Text) (s : Splicing) (hash : Nat) : Option Splicing :=
  if hash < 2 then some s
  else do
    let b ← directive.bytes[hash - 1]?
    if b = '"'.toUInt8 ∨ b = ','.toUInt8 ∨ b = ' '.toUInt8 ∨ b = '('.toUInt8 then s.splice? directive hash hash stem
    else return s

/-- Copies the rest of the directive, if anything was written. -/
def finish? (directive : Text) (s : Splicing) : Option (Option Text) :=
  match s.written with
  | none => some none
  | some written => do
    let rest ← dropBytes? s.copied directive
    return some (written ++ rest)

end Splicing

/-- The directive written anew, unless nothing changes. -/
def spliced? (one : Splicing → Nat → Option Splicing) (directive : Text) : Option (Option Text) := do
  let s ← (offsetsFrom '#' 0 directive).foldlM one ⟨none, 0⟩
  s.finish? directive

/-! ### Turns -/

/-- The text after a turn and the offset at which the next one looks for a brace, unless the work is over. -/
abbrev Turn := Text × Option Nat

/-- Writes a word over what stands behind a brace, up to the offset `stop`.  The next turn starts at the end of the tag. -/
def writeWord? (word t : Text) (opened stop : Nat) : Option Turn := do
  let t ← replaceRange? (opened + 1) stop word t
  return (t, ← firstOffset? ['}'] (opened + 1 + byteSize word) t)

/-- The turn at a short reference under a condition, with the offsets of its brace and of the end of the condition. -/
def includeIfAt? (stem t : Text) (opened closing : Nat) : Option Turn :=
  match t.bytes[closing + 1]? with
  | none => some (t, none)
  | some b =>
    if b = '#'.toUInt8 then do
      let condition ← slice? (opened + 2) (closing + 1) t
      writeWord? (includeIfWord ++ (condition ++ '.' :: stem)) t opened (closing + 1)
    else some (t, some (closing + 1))

/-- The turn at a short reference. -/
def includeAt? (stem t : Text) (opened : Nat) : Option Turn :=
  match t.bytes[opened + 2]? with
  | none => some (t, none)
  | some b =>
    if b = '#'.toUInt8 then writeWord? (includeWord ++ stem) t opened (opened + 2)
    else if b = '('.toUInt8 then do
      match ← firstUnescaped? [')'] (opened + 3) t with
      | none => return (t, none)
      | some closing => includeIfAt? stem t opened closing
    else some (t, some (opened + 2))

/-- The turn at a tag: its directive is written anew. -/
def tagAt? (stem t : Text) (opened : Nat) : Option Turn := do
  match ← firstUnescaped? ['}'] (opened + 2) t with
  | none => return (t, none)
  | some closing =>
    let directive ← slice? (opened + 2) closing t
    let one := if loopWord.isPrefixOf directive || gridWord.isPrefixOf directive then Splicing.argument? stem directive
      else Splicing.reference? stem directive
    match ← spliced? one directive with
    | none => return (t, some (closing + 1))
    | some written => return (← replaceRange? (opened + 2) closing written t, some (opened + 2 + byteSize written + 1))

/-- The turn at a macro call: the stem comes before a name that starts with a hash sign. -/
def macroAt? (stem t : Text) (opened : Nat) : Option Turn := do
  let name := opened + 2 + ((t.bytes.drop (opened + 2)).takeWhile (· == ' '.toUInt8)).length
  match t.bytes[name]? with
  | none => return (t, none)
  | some b =>
    let (t, start) ← if b = '#'.toUInt8 then (replaceRange? name name stem t).map fun t => (t, name + byteSize stem + 1)
      else some (t, name)
    match ← firstOffset? ['}'] start t with
    | some closing => return (t, some (closing + 1))
    | none => return (t, some (opened + 1))

/-- One turn, at the offset of an open brace.  A caret is only written out, and its tag is left to the next turn. -/
def turnAt? (stem t : Text) (opened : Nat) : Option Turn := do
  let tag ← dropBytes? opened t
  match ← dropBytes? 1 tag with
  | [] => return (t, none)
  | c :: _ =>
    if ['{', '+'].isPrefixOf tag then includeAt? stem t opened
    else if ['{', '~'].isPrefixOf tag then tagAt? stem t opened
    else if ['{', '^'].isPrefixOf tag then return (← replaceRange? (opened + 1) (opened + 2) ['~', '.'] t, some opened)
    else if ['{', '*'].isPrefixOf tag then macroAt? stem t opened
    else return (t, some (opened + (1 + c.utf8Size)))

/-- The text after the turns from an offset on.  Nothing when there are more of them than `n`. -/
def turns? (stem : Text) : Nat → Text → Nat → Option Text
  | 0, _, _ => none
  | n + 1, t, cursor => do
    match ← firstOffset? ['{'] cursor t with
    | none => return t
    | some opened => match ← turnAt? stem t opened with
      | (t, none) => return t
      | (t, some resume) => turns? stem n t resume

/-! ### Directives at offsets -/

section Directives

variable {stem directive copied pending before rest t : Text} {w : Option Text} {s : Splicing} {c d : Char} {b : UInt8}

open Splicing

theorem splice?_eq_of (rest : Text) (hdirective : directive = copied ++ (pending ++ rest)) {upTo : Nat}
    (hupTo : byteSize (copied ++ pending) = upTo) (hash : Nat) (piece : Text) :
    splice? directive ⟨w, byteSize copied⟩ upTo hash piece = some ⟨some (w.getD [] ++ (pending ++ piece)), hash⟩ := by
  have hcopy : slice? (byteSize copied) upTo directive = some pending :=
    Text.slice?_eq_of copied rest hdirective rfl (by rw [← hupTo, Text.byteSize_append])
  simp [splice?, hcopy]

/-- At the end the rest is copied, or nothing has changed. -/
theorem exists_finish? (hdirective : directive = copied ++ rest) (hw : w = none → copied = []) :
    ∃ r, finish? directive ⟨w, byteSize copied⟩ = some r ∧ r.getD directive = w.getD [] ++ rest := by
  cases w with
  | none => exact ⟨none, rfl, by simp [hdirective, hw rfl]⟩
  | some written =>
    have hrest : dropBytes? (byteSize copied) directive = some rest := Text.dropBytes?_eq_of copied hdirective rfl
    exact ⟨some (written ++ rest), by simp [finish?, hrest], rfl⟩

theorem hash_byte_before (hdirective : directive = before ++ c :: d :: rest) :
    ∃ b ∈ String.utf8EncodeChar c, directive.bytes[byteSize (before ++ [c]) - 1]? = some b := by
  rw [hdirective]
  exact Text.exists_byte_before before c (d :: rest)

/-- Behind a character other than `+` and `.` a hash sign is no reference. -/
theorem reference?_of_ne (before : Text) (hdirective : directive = before ++ d :: '#' :: t) (hplus : d ≠ '+')
    (hdot : d ≠ '.') : reference? stem directive s (byteSize (before ++ [d])) = some s := by
  by_cases hsize : byteSize (before ++ [d]) < 2
  · rw [reference?, if_pos hsize]
  · obtain ⟨b, hb, hbyte⟩ := hash_byte_before hdirective
    have hin : byteSize (before ++ [d]) - 2 < directive.bytes.length := by
      have hlength : directive.bytes.length = byteSize (before ++ [d]) + byteSize ('#' :: t) := by
        rw [Text.length_bytes, ← Text.byteSize_append, hdirective, List.append_assoc]
        rfl
      omega
    rw [reference?, if_neg hsize, hbyte, List.getElem?_eq_getElem hin]
    simp [Text.eq_toUInt8_iff hb, hplus, hdot]

theorem reference?_of_first (hdirective : directive = d :: '#' :: t) :
    reference? stem directive s (byteSize [d]) = some s := by
  by_cases hsize : byteSize [d] < 2
  · rw [reference?, if_pos hsize]
  · have hne : ∀ k : Char, k.utf8Size = 1 → d ≠ k := by
      rintro k hk rfl
      exact hsize (by simp [hk])
    exact reference?_of_ne [] hdirective (hne _ rfl) (hne _ rfl)

/-- **A hash sign is a reference for what the two characters before it are.** -/
theorem reference?_eq (hdirective : directive = before ++ c :: d :: '#' :: t) :
    reference? stem directive s (byteSize (before ++ [c, d])) =
      if d = '+' ∧ startsBareReference c then
        s.splice? directive (byteSize (before ++ [c, d]) - 1) (byteSize (before ++ [c, d])) (includeWord ++ stem)
      else if d = '.' ∧ endsDirectiveHead c then
        s.splice? directive (byteSize (before ++ [c, d])) (byteSize (before ++ [c, d])) stem
      else some s := by
  have hregrouped : directive = (before ++ [c]) ++ d :: '#' :: t := by rw [hdirective, List.append_assoc]; rfl
  have hjoined : before ++ [c, d] = (before ++ [c]) ++ [d] := by rw [List.append_assoc]; rfl
  by_cases hd : d = '+' ∨ d = '.'
  · obtain ⟨a, ha, hfirst⟩ := hash_byte_before hdirective
    obtain ⟨b, hb, hsecond⟩ := hash_byte_before hregrouped
    have hone : byteSize [d] = 1 := by rcases hd with rfl | rfl <;> rfl
    have hsize : byteSize (before ++ [c, d]) = byteSize (before ++ [c]) + 1 := by rw [hjoined, Text.byteSize_append, hone]
    have hplace : byteSize (before ++ [c, d]) - 2 = byteSize (before ++ [c]) - 1 := by omega
    have hlarge : ¬ byteSize (before ++ [c, d]) < 2 := by
      have hpos := c.utf8Size_pos
      simp only [hsize, Text.byteSize_append, Text.byteSize_cons]
      omega
    rw [reference?, if_neg hlarge, hplace, hfirst, hjoined, hsecond]
    simp [Text.eq_toUInt8_iff ha, Text.eq_toUInt8_iff hb, startsBareReference, endsDirectiveHead, or_assoc]
  · obtain ⟨hplus, hdot⟩ := not_or.1 hd
    rw [hjoined, reference?_of_ne _ hregrouped hplus hdot, if_neg (fun h => hplus h.1), if_neg (fun h => hdot h.1)]

theorem reference?_of_bare (hdirective : directive = copied ++ (pending ++ c :: '+' :: '#' :: t))
    (hc : startsBareReference c) :
    reference? stem directive ⟨w, byteSize copied⟩ (byteSize (copied ++ (pending ++ [c] ++ ['+']))) =
      some ⟨some (w.getD [] ++ (pending ++ [c] ++ (includeWord ++ stem))),
        byteSize (copied ++ (pending ++ [c] ++ ['+']))⟩ := by
  have hjoined : copied ++ (pending ++ [c] ++ ['+']) = copied ++ pending ++ [c, '+'] := by simp
  have hplus : byteSize (copied ++ (pending ++ [c])) = byteSize (copied ++ pending ++ [c, '+']) - 1 := by
    have hone : '+'.utf8Size = 1 := rfl
    simp only [Text.byteSize_append, Text.byteSize_cons, Text.byteSize_nil, hone]
    omega
  rw [hjoined, reference?_eq (by rw [hdirective, List.append_assoc]), if_pos ⟨rfl, hc⟩]
  exact splice?_eq_of ('+' :: '#' :: t) (by simp [hdirective]) hplus _ _

theorem reference?_of_head (hdirective : directive = copied ++ (pending ++ c :: '.' :: '#' :: t))
    (hc : endsDirectiveHead c) :
    reference? stem directive ⟨w, byteSize copied⟩ (byteSize (copied ++ (pending ++ [c] ++ ['.']))) =
      some ⟨some (w.getD [] ++ (pending ++ [c] ++ ['.'] ++ stem)), byteSize (copied ++ (pending ++ [c] ++ ['.']))⟩ := by
  have hjoined : copied ++ (pending ++ [c] ++ ['.']) = copied ++ pending ++ [c, '.'] := by simp
  rw [hjoined, reference?_eq (by rw [hdirective, List.append_assoc]), if_neg (by simp), if_pos ⟨rfl, hc⟩]
  exact splice?_eq_of ('#' :: t) (by simp [hdirective]) (by rw [hjoined]) _ _

/-- What is written behind the offset `copied` when the hash signs of the text `t`, which follows that offset and `pending`, are
gone through. -/
def Writes (one : Splicing → Nat → Option Splicing) (directive copied pending t : Text) (w : Option Text)
    (result : Text) : Prop :=
  ∃ r, ((offsetsFrom '#' (byteSize (copied ++ pending)) t).foldlM one ⟨w, byteSize copied⟩).bind
      (finish? directive) = some r ∧ r.getD directive = w.getD [] ++ result

variable {one : Splicing → Nat → Option Splicing} {result : Text}

theorem writes_nil (hdirective : directive = copied ++ pending) (hw : w = none → copied = []) :
    Writes one directive copied pending [] w pending := exists_finish? hdirective hw

theorem writes_cons_of_ne (hd : d ≠ '#') :
    Writes one directive copied pending (d :: t) w result ↔ Writes one directive copied (pending ++ [d]) t w result := by
  unfold Writes
  rw [offsetsFrom, if_neg hd, ← List.append_assoc, Text.byteSize_append (copied ++ pending)]
  rfl

/-- A hash sign that changes nothing. -/
theorem writes_hash_of_kept
    (hkept : one ⟨w, byteSize copied⟩ (byteSize (copied ++ pending)) = some ⟨w, byteSize copied⟩) :
    Writes one directive copied pending ('#' :: t) w result ↔ Writes one directive copied (pending ++ ['#']) t w result := by
  unfold Writes
  rw [offsetsFrom, if_pos rfl, List.foldlM_cons, hkept, ← List.append_assoc, Text.byteSize_append (copied ++ pending)]
  rfl

/-- A hash sign before which a piece is written. -/
theorem writes_hash_of_spliced {written : Text}
    (hspliced : one ⟨w, byteSize copied⟩ (byteSize (copied ++ pending)) =
      some ⟨some (w.getD [] ++ written), byteSize (copied ++ pending)⟩)
    (h : Writes one directive (copied ++ pending) ['#'] t (some (w.getD [] ++ written)) result) :
    Writes one directive copied pending ('#' :: t) w (written ++ result) := by
  obtain ⟨r, hr, hresult⟩ := h
  refine ⟨r, ?_, by rw [hresult]; simp⟩
  rw [offsetsFrom, if_pos rfl, List.foldlM_cons, hspliced, ← hr, Text.byteSize_append (copied ++ pending)]
  rfl

/-- The references of a directive behind a character at which none ends. -/
theorem writes_references (stem : Text) : ∀ (t copied pending : Text) (c : Char) (w : Option Text),
    directive = copied ++ (pending ++ c :: t) → (w = none → copied = []) →
    (t.head? = some '#' → ∀ s, reference? stem directive s (byteSize (copied ++ (pending ++ [c]))) = some s) →
    Writes (reference? stem directive) directive copied (pending ++ [c]) t w (pending ++ qualifyReferences stem (c :: t))
  | [], copied, pending, c, w, hdirective, hw, _ => writes_nil hdirective hw
  | [d], copied, pending, c, w, hdirective, hw, hkept => by
    have hend : Writes (reference? stem directive) directive copied (pending ++ [c] ++ [d]) [] w (pending ++ [c] ++ [d]) :=
      writes_nil (by simp [hdirective]) hw
    have hresult : pending ++ qualifyReferences stem [c, d] = pending ++ [c] ++ [d] := by simp [qualifyReferences]
    rw [hresult]
    by_cases hd : d = '#'
    · subst hd
      exact (writes_hash_of_kept (hkept rfl _)).2 hend
    · exact (writes_cons_of_ne hd).2 hend
  | d :: e :: t, copied, pending, c, w, hdirective, hw, hkept => by
    have hsplit : directive = (copied ++ pending) ++ c :: d :: e :: t := by rw [hdirective, List.append_assoc]
    have hjoined : copied ++ (pending ++ [c] ++ [d]) = copied ++ pending ++ [c, d] := by simp
    -- behind a hash sign that is a reference the copy starts anew
    have hanew : e = '#' → ∀ w', Writes (reference? stem directive) directive (copied ++ (pending ++ [c] ++ [d])) ['#'] t
        (some w') (qualifyReferences stem ('#' :: t)) := by
      rintro rfl w'
      refine writes_references stem t (copied ++ (pending ++ [c] ++ [d])) [] '#' (some w') (by simp [hdirective])
        (fun h => by cases h) fun hhash s => ?_
      obtain ⟨t, rfl⟩ := List.head?_eq_some_iff.1 hhash
      exact reference?_of_ne (t := t) _ (by simp [hdirective]) (by decide) (by decide)
    have hbehind : Writes (reference? stem directive) directive copied (pending ++ [c] ++ [d]) (e :: t) w
        (pending ++ qualifyReferences stem (c :: d :: e :: t)) := by
      rw [qualifyReferences]
      by_cases hbare : e = '#' ∧ d = '+' ∧ startsBareReference c
      · obtain ⟨rfl, rfl, hc⟩ := hbare
        have hwrites := writes_hash_of_spliced (reference?_of_bare (w := w) hdirective hc) (hanew rfl _)
        rw [if_pos ⟨rfl, rfl, hc⟩]
        simpa using hwrites
      · by_cases hhead : e = '#' ∧ d = '.' ∧ endsDirectiveHead c
        · obtain ⟨rfl, rfl, hc⟩ := hhead
          have hwrites := writes_hash_of_spliced (reference?_of_head (w := w) hdirective hc) (hanew rfl _)
          rw [if_neg hbare, if_pos ⟨rfl, rfl, hc⟩]
          simpa using hwrites
        · have hrest := writes_references stem (e :: t) copied (pending ++ [c]) d w (by simp [hdirective]) hw fun hhash s => by
            obtain rfl : e = '#' := by simpa using hhash
            rw [hjoined, reference?_eq hsplit, if_neg fun h => hbare ⟨rfl, h⟩, if_neg fun h => hhead ⟨rfl, h⟩]
          rw [if_neg hbare, if_neg hhead]
          simpa using hrest
    by_cases hd : d = '#'
    · subst hd
      exact (writes_hash_of_kept (hkept rfl _)).2 hbehind
    · exact (writes_cons_of_ne hd).2 hbehind
termination_by t => t.length

/-- **A hash sign starts an argument for what the character before it is.** -/
theorem argument?_eq (hdirective : directive = before ++ c :: '#' :: t)
    (hlarge : 2 ≤ byteSize (before ++ [c]) ∨ ¬ startsArgument c) :
    argument? stem directive s (byteSize (before ++ [c])) =
      if startsArgument c then s.splice? directive (byteSize (before ++ [c])) (byteSize (before ++ [c])) stem else some s := by
  by_cases hsize : byteSize (before ++ [c]) < 2
  · rw [argument?, if_pos hsize, if_neg (hlarge.resolve_left (Nat.not_le.2 hsize))]
  · obtain ⟨b, hb, hbyte⟩ := hash_byte_before hdirective
    rw [argument?, if_neg hsize, hbyte]
    simp [Text.eq_toUInt8_iff hb, startsArgument, or_assoc]

/-- The arguments of a loop or a grid behind a character that starts none, or is not the first. -/
theorem writes_arguments (stem : Text) : ∀ (t copied pending : Text) (c : Char) (w : Option Text),
    directive = copied ++ (pending ++ c :: t) → (w = none → copied = []) →
    (2 ≤ byteSize (copied ++ (pending ++ [c])) ∨ ¬ startsArgument c) →
    Writes (argument? stem directive) directive copied (pending ++ [c]) t w (pending ++ qualifyArguments stem (c :: t))
  | [], copied, pending, c, w, hdirective, hw, _ => writes_nil hdirective hw
  | d :: t, copied, pending, c, w, hdirective, hw, hlarge => by
    have hsplit : directive = (copied ++ pending) ++ c :: d :: t := by rw [hdirective, List.append_assoc]
    have hlarger : 2 ≤ byteSize (copied ++ (pending ++ [c] ++ [d])) := by
      have hc := c.utf8Size_pos
      have hd := d.utf8Size_pos
      simp only [Text.byteSize_append, Text.byteSize_cons]
      omega
    rw [qualifyArguments]
    by_cases hargument : d = '#' ∧ startsArgument c
    · obtain ⟨rfl, hc⟩ := hargument
      have hspliced : argument? stem directive ⟨w, byteSize copied⟩ (byteSize (copied ++ (pending ++ [c]))) =
          some ⟨some (w.getD [] ++ (pending ++ [c] ++ stem)), byteSize (copied ++ (pending ++ [c]))⟩ := by
        rw [← List.append_assoc] at hlarge ⊢
        rw [argument?_eq hsplit hlarge, if_pos hc]
        exact splice?_eq_of ('#' :: t) (by simp [hdirective]) (by rw [← List.append_assoc]) _ _
      have hanew := writes_arguments stem t (copied ++ (pending ++ [c])) [] '#' (some (w.getD [] ++ (pending ++ [c] ++ stem)))
        (by simp [hdirective]) (fun h => by cases h) (.inr (by decide))
      rw [if_pos ⟨rfl, hc⟩]
      have hwrites := writes_hash_of_spliced hspliced hanew
      simpa using hwrites
    · have hrest := writes_arguments stem t copied (pending ++ [c]) d w (by simp [hdirective]) hw (.inl hlarger)
      have hrest : Writes (argument? stem directive) directive copied (pending ++ [c] ++ [d]) t w
          (pending ++ c :: qualifyArguments stem (d :: t)) := by simpa using hrest
      rw [if_neg hargument]
      by_cases hd : d = '#'
      · subst hd
        refine (writes_hash_of_kept ?_).2 hrest
        rw [← List.append_assoc] at hlarge ⊢
        rw [argument?_eq hsplit hlarge, if_neg fun hc => hargument ⟨rfl, hc⟩]
      · exact (writes_cons_of_ne hd).2 hrest

/-- **A directive written anew at offsets is the directive with the stem put in.** -/
theorem exists_spliced? (stem directive : Text) :
    ∃ r, spliced? (if loopWord.isPrefixOf directive || gridWord.isPrefixOf directive then argument? stem directive
      else reference? stem directive) directive = some r ∧ r.getD directive = qualify stem directive := by
  have hwrites : Writes (if loopWord.isPrefixOf directive || gridWord.isPrefixOf directive then argument? stem directive
      else reference? stem directive) directive [] [] directive none (qualify stem directive) := by
    cases directive with
    | nil => exact writes_nil rfl fun _ => rfl
    | cons c t =>
      unfold qualify
      split
      · next hword =>
        obtain rfl : c = '.' := by
          rcases Bool.or_eq_true_iff.1 hword with h | h
          · exact (List.cons_prefix_cons.1 (List.isPrefixOf_iff_prefix.1 h)).1.symm
          · exact (List.cons_prefix_cons.1 (List.isPrefixOf_iff_prefix.1 h)).1.symm
        exact (writes_cons_of_ne (by decide)).2
          (writes_arguments stem t [] [] '.' none rfl (fun _ => rfl) (.inr (by decide)))
      · have hrest : Writes (reference? stem (c :: t)) (c :: t) [] [c] t none (qualifyReferences stem (c :: t)) := by
          refine writes_references stem t [] [] c none rfl (fun _ => rfl) fun hhash s => ?_
          obtain ⟨t, rfl⟩ := List.head?_eq_some_iff.1 hhash
          exact reference?_of_first rfl
        by_cases hc : c = '#'
        · subst hc
          exact (writes_hash_of_kept rfl).2 hrest
        · exact (writes_cons_of_ne hc).2 hrest
  simpa [Writes, spliced?] using hwrites

end Directives

/-! ### Turns at offsets -/

/-- What a pass leaves of a text behind a part that is done, and where the next turn begins. -/
def Pass.inPlace (done : Text) : Pass → Turn
  | ended t => (done ++ t, none)
  | onward settled rest => (done ++ (settled ++ rest), some (byteSize (done ++ settled)))

section Turns

variable {stem done rest t : Text} {start stop : Nat}

theorem byteSize_append_marks (t : Text) {marks : Text} {n : Nat} (h : byteSize marks = n) :
    byteSize (t ++ marks) = byteSize t + n := by rw [Text.byteSize_append, h]

theorem writeWord?_eq (word old rest : Text) (ht : t = done ++ '{' :: (old ++ rest))
    (hstop : byteSize (done ++ '{' :: old) = stop) :
    writeWord? word t (byteSize done) stop = some (((passToBrace rest).after ('{' :: word)).inPlace done) := by
  have hopen : byteSize (done ++ ['{']) = byteSize done + 1 := byteSize_append_marks done rfl
  have hreplaced : replaceRange? (byteSize done + 1) stop word t = some (done ++ ['{'] ++ (word ++ rest)) :=
    Text.replaceRange?_eq_of _ old rest (by simp [ht]) hopen (by rw [← hopen, ← Text.byteSize_append, ← hstop]; simp) word
  have hstart : byteSize (done ++ ['{'] ++ word) = byteSize done + 1 + byteSize word := by rw [Text.byteSize_append, hopen]
  rw [writeWord?, hreplaced]
  simp only [Option.bind_eq_bind, Option.bind_some,
    Text.firstOffset?_eq_of ['}'] (done ++ ['{'] ++ word) rest (List.append_assoc ..).symm hstart]
  unfold passToBrace
  cases hcut : Text.cut ['}'] rest with
  | none => simp [Pass.after, Pass.inPlace]
  | some parts =>
    have hrest := Text.eq_append_of_cut hcut
    simp [Pass.after, Pass.inPlace, hrest, ← hopen, Nat.add_assoc]

theorem includeIfAt?_eq {condition behind : Text} (hcut : Text.cutUnescaped [')'] t = some (condition, behind))
    (stem done : Text) :
    includeIfAt? stem (done ++ '{' :: '+' :: '(' :: t) (byteSize done) (byteSize done + 3 + byteSize condition) =
      some ((passInclude stem ('(' :: t)).inPlace done) := by
  obtain rfl := Text.eq_append_of_cutUnescaped hcut
  have hplus : byteSize (done ++ ['{', '+']) = byteSize done + 2 := byteSize_append_marks done rfl
  have hparen : byteSize (done ++ ['{', '+', '(']) = byteSize done + 3 := byteSize_append_marks done rfl
  have hjoined : done ++ '{' :: '+' :: '(' :: (condition ++ [')']) = done ++ ['{', '+', '('] ++ condition ++ [')'] := by simp
  have hend : byteSize (done ++ '{' :: '+' :: '(' :: (condition ++ [')'])) = byteSize done + 3 + byteSize condition + 1 := by
    rw [hjoined, byteSize_append_marks _ rfl, Text.byteSize_append, hparen]
    rfl
  have hsplit : done ++ '{' :: '+' :: '(' :: (condition ++ ([')'] ++ behind)) =
      (done ++ '{' :: '+' :: '(' :: (condition ++ [')'])) ++ behind := by simp
  simp only [includeIfAt?, passInclude, hcut, hsplit, ← hend]
  cases behind with
  | nil =>
    rw [List.append_nil, Text.bytes_past_end]
    simp [Pass.inPlace]
  | cons c rest =>
    obtain ⟨b, hb, hbyte⟩ := Text.exists_byte_behind (done ++ '{' :: '+' :: '(' :: (condition ++ [')'])) c rest
    rw [hbyte]
    simp only [Text.eq_toUInt8_iff hb (k := '#') (by decide)]
    by_cases hhash : c = '#'
    · subst hhash
      have hcondition : slice? (byteSize done + 2) (byteSize (done ++ '{' :: '+' :: '(' :: (condition ++ [')'])))
          (done ++ '{' :: '+' :: '(' :: (condition ++ [')']) ++ '#' :: rest) = some ('(' :: (condition ++ [')'])) :=
        Text.slice?_eq_of (done ++ ['{', '+']) ('#' :: rest) (by simp) hplus
          (by rw [← hplus, ← Text.byteSize_append]; simp)
      rw [if_pos rfl, hcondition]
      simp only [Option.bind_eq_bind, Option.bind_some]
      rw [writeWord?_eq _ ('+' :: '(' :: (condition ++ [')'])) ('#' :: rest) (by simp) rfl]
      simp
    · simp [hhash, Pass.inPlace]

theorem includeAt?_eq (stem done t : Text) :
    includeAt? stem (done ++ '{' :: '+' :: t) (byteSize done) = some ((passInclude stem t).inPlace done) := by
  have hplus : byteSize (done ++ ['{', '+']) = byteSize done + 2 := byteSize_append_marks done rfl
  have hparen : byteSize (done ++ ['{', '+', '(']) = byteSize done + 3 := byteSize_append_marks done rfl
  have hsplit : done ++ '{' :: '+' :: t = (done ++ ['{', '+']) ++ t := by simp
  rw [includeAt?]
  cases t with
  | nil =>
    have hend : (done ++ ['{', '+']).bytes[byteSize done + 2]? = none := hplus ▸ Text.bytes_past_end _
    rw [hend]
    rfl
  | cons c t =>
    obtain ⟨b, hb, hbyte⟩ := Text.exists_byte_behind (done ++ ['{', '+']) c t
    rw [hplus, ← hsplit] at hbyte
    rw [hbyte]
    simp only [Text.eq_toUInt8_iff hb (k := '#') (by decide), Text.eq_toUInt8_iff hb (k := '(') (by decide)]
    by_cases hhash : c = '#'
    · subst hhash
      exact writeWord?_eq _ ['+'] ('#' :: t) (by simp) hplus
    rw [if_neg hhash]
    by_cases hcondition : c = '('
    · subst hcondition
      rw [if_pos rfl, Text.firstUnescaped?_eq_of [')'] (done ++ ['{', '+', '(']) t (by simp) hparen]
      cases hcut : Text.cutUnescaped [')'] t with
      | none => simp [passInclude, hcut, Pass.inPlace]
      | some parts =>
        obtain ⟨condition, behind⟩ := parts
        exact includeIfAt?_eq hcut stem done
    · have hpass : passInclude stem (c :: t) = .onward ['{', '+'] (c :: t) := by
        unfold passInclude
        split <;> simp_all
      rw [if_neg hcondition, hpass]
      simp [Pass.inPlace, hplus]

theorem tagAt?_eq (stem done t : Text) :
    tagAt? stem (done ++ '{' :: '~' :: t) (byteSize done) = some ((passTag stem t).inPlace done) := by
  have hopen : byteSize (done ++ ['{', '~']) = byteSize done + 2 := byteSize_append_marks done rfl
  have hsearch : firstUnescaped? ['}'] (byteSize done + 2) (done ++ '{' :: '~' :: t) =
      some ((Text.cutUnescaped ['}'] t).map fun parts => byteSize done + 2 + byteSize parts.1) :=
    Text.firstUnescaped?_eq_of ['}'] _ t (by simp) hopen
  rw [tagAt?, hsearch, passTag]
  cases hcut : Text.cutUnescaped ['}'] t with
  | none => rfl
  | some parts =>
    obtain ⟨directive, rest⟩ := parts
    obtain rfl := Text.eq_append_of_cutUnescaped hcut
    have hdirective : slice? (byteSize done + 2) (byteSize done + 2 + byteSize directive)
        (done ++ '{' :: '~' :: (directive ++ (['}'] ++ rest))) = some directive :=
      Text.slice?_eq_of (done ++ ['{', '~']) ('}' :: rest) (by simp) hopen rfl
    have hend : ∀ d : Text, byteSize (done ++ '{' :: '~' :: (d ++ ['}'])) = byteSize done + 2 + byteSize d + 1 := fun d => by
      have hsplit : done ++ '{' :: '~' :: (d ++ ['}']) = (done ++ ['{', '~'] ++ d) ++ ['}'] := by simp
      rw [hsplit, byteSize_append_marks _ rfl, Text.byteSize_append, hopen]
      rfl
    obtain ⟨written, hwritten, hqualify⟩ := exists_spliced? stem directive
    simp only [Option.map_some, Option.bind_eq_bind, Option.bind_some, hdirective, hwritten]
    cases written with
    | none => simp [← hqualify, Pass.inPlace, hend]
    | some written =>
      have hreplaced : replaceRange? (byteSize done + 2) (byteSize done + 2 + byteSize directive) written
          (done ++ '{' :: '~' :: (directive ++ (['}'] ++ rest))) = some (done ++ ['{', '~'] ++ (written ++ '}' :: rest)) :=
        Text.replaceRange?_eq_of _ directive ('}' :: rest) (by simp) hopen rfl _
      simp only [hreplaced, Option.bind_some]
      simp [← hqualify, Pass.inPlace, hend]

/-- The blank bytes at an offset are the blanks of the text. -/
theorem length_blank_bytes (before : Text) : ∀ t : Text,
    (((before ++ t).bytes.drop (byteSize before)).takeWhile (· == ' '.toUInt8)).length = byteSize (t.takeWhile (· == ' ')) := by
  intro t
  rw [Text.bytes_append, ← Text.length_bytes, List.drop_left]
  induction t with
  | nil => rfl
  | cons c t ih =>
    by_cases hc : c = ' '
    · subst hc
      have hone : bytes (' ' :: t) = ' '.toUInt8 :: bytes t := rfl
      have hsize : ' '.utf8Size = 1 := rfl
      rw [hone]
      simp [ih, hsize, Nat.add_comm]
    · obtain ⟨b, more, hb⟩ := List.exists_cons_of_ne_nil (String.utf8EncodeChar_ne_nil (c := c))
      have hne : b ≠ ' '.toUInt8 := fun h => hc ((Text.eq_toUInt8_iff (by simp [hb]) (by decide)).1 h)
      simp [hb, hne, hc]

/-- A macro call behind the place where its name starts. -/
theorem turn_macroName {opened : Nat} {lead name : Text} (ht : t = done ++ '{' :: (lead ++ name))
    (hstart : byteSize (done ++ '{' :: lead) = start) (hopened : byteSize done = opened) :
    ((firstOffset? ['}'] start t).bind fun found => match found with
      | some closing => some (t, some (closing + 1))
      | none => some (t, some (opened + 1))) = some ((passMacroName lead name).inPlace done) := by
  rw [Text.firstOffset?_eq_of ['}'] (done ++ '{' :: lead) name (by simp [ht]) hstart]
  unfold passMacroName
  cases hcut : Text.cut ['}'] name with
  | none =>
    have hopen : byteSize (done ++ ['{']) = byteSize done + 1 := byteSize_append_marks done rfl
    simp [Pass.inPlace, ht, hopen, hopened]
  | some parts =>
    obtain ⟨before, rest⟩ := parts
    obtain rfl := Text.eq_append_of_cut hcut
    have hend : byteSize (done ++ '{' :: (lead ++ before ++ ['}'])) = start + byteSize before + 1 := by
      have hsplit : done ++ '{' :: (lead ++ before ++ ['}']) = (done ++ '{' :: lead ++ before) ++ ['}'] := by simp
      rw [hsplit, byteSize_append_marks _ rfl, Text.byteSize_append, hstart]
      rfl
    simp [Pass.inPlace, ht, ← hend]

theorem macroAt?_eq (stem done t : Text) :
    macroAt? stem (done ++ '{' :: '*' :: t) (byteSize done) = some ((passMacro stem t).inPlace done) := by
  have hopen : byteSize (done ++ ['{', '*']) = byteSize done + 2 := byteSize_append_marks done rfl
  have hblanks := length_blank_bytes (done ++ ['{', '*']) t
  have hplace : ∀ u : Text, byteSize done + 2 + byteSize u = byteSize (done ++ '{' :: '*' :: u) := fun u => by
    rw [← hopen, ← Text.byteSize_append, List.append_assoc]
    rfl
  have htext : done ++ '{' :: '*' :: t =
      (done ++ '{' :: '*' :: t.takeWhile (· == ' ')) ++ t.dropWhile (· == ' ') := by
    simp [List.takeWhile_append_dropWhile]
  rw [hopen, List.append_assoc] at hblanks
  unfold macroAt? passMacro
  rw [List.cons_append, List.singleton_append] at hblanks
  simp only [hblanks, hplace]
  cases hname : t.dropWhile (· == ' ') with
  | nil =>
    rw [hname, List.append_nil] at htext
    rw [← htext, Text.bytes_past_end]
    rfl
  | cons c name =>
    rw [hname] at htext
    generalize t.takeWhile (· == ' ') = blanks at htext ⊢
    obtain ⟨b, hb, hbyte⟩ := Text.exists_byte_behind (done ++ '{' :: '*' :: blanks) c name
    rw [htext, hbyte]
    simp only [Text.eq_toUInt8_iff hb (k := '#') (by decide)]
    by_cases hhash : c = '#'
    · subst hhash
      have hinserted : replaceRange? (byteSize (done ++ '{' :: '*' :: blanks)) (byteSize (done ++ '{' :: '*' :: blanks)) stem
          (done ++ '{' :: '*' :: blanks ++ '#' :: name) = some (done ++ '{' :: '*' :: blanks ++ (stem ++ '#' :: name)) :=
        Text.replaceRange?_eq_of _ [] ('#' :: name) (by simp) rfl (by simp) _
      simp only [if_true, hinserted, Option.map_some, Option.bind_eq_bind, Option.bind_some]
      refine turn_macroName (by simp) ?_ rfl
      have hsplit : done ++ '{' :: '*' :: (blanks ++ stem ++ ['#']) = (done ++ '{' :: '*' :: blanks ++ stem) ++ ['#'] := by simp
      rw [hsplit, byteSize_append_marks _ rfl, Text.byteSize_append]
      rfl
    · rw [if_neg hhash]
      split
      · next hnil => cases hnil
      · next hcons => exact absurd (List.cons.inj hcons).1 hhash
      · exact turn_macroName (by simp) rfl rfl

theorem turnAt?_caret (stem done t : Text) :
    turnAt? stem (done ++ '{' :: '^' :: t) (byteSize done) = some (done ++ '{' :: '~' :: '.' :: t, some (byteSize done)) := by
  have hopen : byteSize (done ++ ['{']) = byteSize done + 1 := byteSize_append_marks done rfl
  have htag : dropBytes? (byteSize done) (done ++ '{' :: '^' :: t) = some ('{' :: '^' :: t) :=
    Text.dropBytes?_byteSize_append done _
  have hafter : dropBytes? 1 ('{' :: '^' :: t) = some ('^' :: t) := Text.dropBytes?_byteSize_append ['{'] _
  have hreplaced : replaceRange? (byteSize done + 1) (byteSize done + 2) ['~', '.'] (done ++ '{' :: '^' :: t) =
      some (done ++ ['{'] ++ (['~', '.'] ++ t)) := Text.replaceRange?_eq_of _ ['^'] t (by simp) hopen rfl _
  simp [turnAt?, htag, hafter, hreplaced]

theorem turnAt?_eq {after : Text} (hcaret : after.head? ≠ some '^') (stem done : Text) :
    turnAt? stem (done ++ '{' :: after) (byteSize done) = some ((passBrace stem after).inPlace done) := by
  have htag : dropBytes? (byteSize done) (done ++ '{' :: after) = some ('{' :: after) :=
    Text.dropBytes?_byteSize_append done _
  have hafter : dropBytes? 1 ('{' :: after) = some after := Text.dropBytes?_byteSize_append ['{'] _
  unfold passBrace
  split
  · simp [turnAt?, htag, hafter, Pass.inPlace]
  · simp [turnAt?, htag, hafter, includeAt?_eq]
  · simp [turnAt?, htag, hafter, tagAt?_eq]
  · simp at hcaret
  · simp [turnAt?, htag, hafter, macroAt?_eq]
  · next c t hplus htilde hcar hstar =>
    have hend : byteSize (done ++ ['{', c]) = byteSize done + (1 + c.utf8Size) := by
      have hone : '{'.utf8Size = 1 := rfl
      simp [hone]
    simp [turnAt?, htag, hafter, Pass.inPlace, hend, ne_comm.1 hplus, ne_comm.1 htilde, ne_comm.1 hcar, ne_comm.1 hstar]

/-- The text after the turns that follow one. -/
def Turn.resume? (stem : Text) (n : Nat) : Turn → Option Text
  | (t, none) => some t
  | (t, some cursor) => turns? stem n t cursor

theorem turns?_of_cut {rest before after : Text} (hcut : Text.cut ['{'] rest = some (before, after)) (stem done : Text)
    (n : Nat) : turns? stem (n + 1) (done ++ rest) (byteSize done) =
      (turnAt? stem ((done ++ before) ++ '{' :: after) (byteSize (done ++ before))).bind (Turn.resume? stem n) := by
  obtain rfl := Text.eq_append_of_cut hcut
  rw [turns?, Text.firstOffset?_eq_of ['{'] done _ rfl rfl, hcut]
  simp only [Option.map_some, Option.bind_eq_bind, Option.bind_some, ← Text.byteSize_append]
  rw [List.append_assoc]
  rfl

/-- **A pass over the text that is left is a turn or two.** -/
theorem exists_turns?_eq_resume {rest before after : Text} (hcut : Text.cut ['{'] rest = some (before, after))
    (stem done : Text) : ∃ k, ∀ n, turns? stem (n + k) (done ++ rest) (byteSize done) =
      ((passBrace stem after).inPlace (done ++ before)).resume? stem n := by
  by_cases hcaret : after.head? = some '^'
  · -- the turn at the caret comes back to its brace
    obtain ⟨t, rfl⟩ := List.head?_eq_some_iff.1 hcaret
    have hagain : Text.cut ['{'] ('{' :: '~' :: '.' :: t) = some ([], '~' :: '.' :: t) := Text.cut_cons_self '{' _
    refine ⟨2, fun n => ?_⟩
    have hnext := turns?_of_cut hagain stem (done ++ before) n
    rw [List.append_nil, turnAt?_eq (by simp)] at hnext
    rw [turns?_of_cut hcut, turnAt?_caret]
    exact hnext
  · exact ⟨1, fun n => by rw [turns?_of_cut hcut, turnAt?_eq hcaret]; rfl⟩

theorem exists_turns?_of_passes (stem : Text) : ∀ {n : Nat} {rest u : Text}, passes stem n rest = some u →
    ∀ done, ∃ k, turns? stem k (done ++ rest) (byteSize done) = some (done ++ u)
  | 0, _, _, h, _ => by cases h
  | n + 1, rest, u, h, done => by
    rw [passes, pass] at h
    cases hcut : Text.cut ['{'] rest with
    | none =>
      rw [hcut] at h
      cases h
      refine ⟨1, ?_⟩
      rw [turns?, Text.firstOffset?_eq_of ['{'] done _ rfl rfl, hcut]
      rfl
    | some parts =>
      obtain ⟨before, after⟩ := parts
      rw [hcut] at h
      obtain ⟨k, hturns⟩ := exists_turns?_eq_resume hcut stem done
      cases hpass : passBrace stem after with
      | ended v =>
        simp only [hpass, Pass.after] at h
        cases h
        exact ⟨0 + k, by rw [hturns, hpass]; simp [Pass.inPlace, Turn.resume?]⟩
      | onward settled left =>
        simp only [hpass, Pass.after] at h
        obtain ⟨v, hv, rfl⟩ := Option.map_eq_some_iff.1 h
        obtain ⟨m, hnext⟩ := exists_turns?_of_passes stem hv (done ++ before ++ settled)
        refine ⟨m + k, ?_⟩
        rw [hturns, hpass, Pass.inPlace, Turn.resume?, ← List.append_assoc, hnext]
        simp

/-- **Writing tags out in place ends, and gives their long form**. -/
theorem exists_turns?_eq_longForm {stem : Text} (hstem : '{' ∉ stem) (t : Text) :
    ∃ n, turns? stem n t 0 = some (longForm stem t) := by
  obtain ⟨u, hu⟩ := exists_passes hstem _ t (count_lt_enoughPasses stem t)
  rw [longForm_of_passes hstem hu]
  exact exists_turns?_of_passes stem hu []

end Turns

end Tag
end Templates
