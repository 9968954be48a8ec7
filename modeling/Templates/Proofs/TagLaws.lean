import Templates.Proofs.PlannedText
/-!
# Laws of long forms

The long form of a text is put together from its tags: a tag behind text without an open brace is written out from its own
characters alone, and what is behind it has its own long form (`longForm_laws`).  A tag without an end stops the work, but for
a macro call, whose name is looked at again.  In a directive each character is written out for itself, from what stands before
it and behind it in the directive as it was (`qualify_eq_spelled`).
-/
namespace Templates
namespace Text

/-- A text in which every character of a kind is escaped. -/
def Escapes (c : Char) (t : Text) : Prop := ∀ a b, t = a ++ c :: b → Escaping a

/-- A text that the character behind it ends: that character is the first of its kind that is not escaped. -/
def EndedBy (c : Char) (t : Text) : Prop := ¬ Escaping t ∧ Escapes c t

/-- Whether every character of a kind is escaped, where `e` tells whether the first character of the text is. -/
def EscapesBehind (e : Bool) (c : Char) (t : Text) : Prop := ∀ a b, t = a ++ c :: b → escapedBehind e a = true

theorem escapesBehind_false_iff {c : Char} {t : Text} : EscapesBehind false c t ↔ Escapes c t := by
  simp only [EscapesBehind, escapedBehind_iff, Escapes]

theorem escapesBehind_cons {e : Bool} {c d : Char} {t : Text} :
    EscapesBehind e c (d :: t) ↔ (e = true ∨ c ≠ d) ∧ EscapesBehind (d == '\\' && !e) c t := by
  constructor
  · intro h
    refine ⟨?_, fun a b hab => h (d :: a) b (by rw [hab]; rfl)⟩
    by_cases hd : c = d
    · exact .inl (h [] t (by rw [hd]; rfl))
    · exact .inr hd
  · rintro ⟨hd, h⟩ a b hab
    cases a with
    | nil =>
      cases hab
      simpa using hd
    | cons x a =>
      cases hab
      exact h a b rfl

theorem cutUnescapedAfter_eq_none_iff {c : Char} : ∀ {e : Bool} {t : Text},
    cutUnescapedAfter [c] e t = none ↔ EscapesBehind e c t
  | e, [] => by simp [cutUnescapedAfter, EscapesBehind]
  | e, d :: t => by
    rw [escapesBehind_cons]
    by_cases hd : e = true ∨ c ≠ d
    · rw [cutUnescapedAfter_cons_of hd, Option.map_eq_none_iff, cutUnescapedAfter_eq_none_iff]
      simp [hd]
    · refine iff_of_false ?_ fun h => hd h.1
      rw [not_or, Bool.not_eq_true, not_not] at hd
      obtain ⟨rfl, rfl⟩ := hd
      simp [cutUnescapedAfter_cons_self]

theorem cutUnescapedAfter_eq_some_iff {c : Char} (r : Text) : ∀ {e : Bool} {t : Text},
    cutUnescapedAfter [c] e (t ++ c :: r) = some (t, r) ↔ escapedBehind e t = false ∧ EscapesBehind e c t
  | e, [] => by
    cases e with
    | false => simp [cutUnescapedAfter_cons_self, EscapesBehind]
    | true =>
      rw [List.nil_append, cutUnescapedAfter_cons_of (.inl rfl)]
      simp
  | e, d :: t => by
    rw [List.cons_append, escapesBehind_cons, escapedBehind_cons]
    by_cases hd : e = true ∨ c ≠ d
    · rw [cutUnescapedAfter_cons_of hd, and_iff_right hd, ← cutUnescapedAfter_eq_some_iff r]
      simp
    · rw [not_or, Bool.not_eq_true, not_not] at hd
      obtain ⟨rfl, rfl⟩ := hd
      simp [cutUnescapedAfter_cons_self]

theorem cutUnescaped_eq_none_iff {c : Char} {t : Text} : cutUnescaped [c] t = none ↔ Escapes c t := by
  rw [cutUnescaped_singleton, cutUnescapedAfter_eq_none_iff, escapesBehind_false_iff]

/-- **A cut at an unescaped character gives the text that it ends.** -/
theorem cutUnescaped_eq_some_iff {c : Char} {t : Text} (r : Text) :
    cutUnescaped [c] (t ++ c :: r) = some (t, r) ↔ EndedBy c t := by
  rw [cutUnescaped_singleton, cutUnescapedAfter_eq_some_iff, ← Bool.not_eq_true, escapedBehind_iff, escapesBehind_false_iff]
  rfl

instance (c : Char) (t : Text) : Decidable (EndedBy c t) := decidable_of_iff _ (cutUnescaped_eq_some_iff [])

end Text

namespace Tag

/-- What becomes of a character in the directive of a loop or a grid, from what stands before it. -/
def argumentAt (stem before : Text) (c : Char) (_behind : Text) : Text :=
  if c = '#' ∧ 2 ≤ Text.byteSize before ∧
      (['"'] <:+ before ∨ [','] <:+ before ∨ [' '] <:+ before ∨ ['('] <:+ before) then stem ++ [c]
  else [c]

/-- Whether a text ends in a dot that makes a reference of a hash sign behind it. -/
def EndsInHead (t : Text) : Prop := [')', '.'] <:+ t ∨ ['e', '.'] <:+ t

instance (t : Text) : Decidable (EndsInHead t) := inferInstanceAs (Decidable (_ ∨ _))

/-- What becomes of a character in any other directive, from what stands before it and behind it. -/
def referenceAt (stem before : Text) (c : Char) (behind : Text) : Text :=
  if c = '+' ∧ ['#'] <+: behind ∧ ([','] <:+ before ∨ [':'] <:+ before ∨ ['('] <:+ before) then includeWord ++ stem
  else if c = '#' ∧ 2 ≤ Text.byteSize before ∧ EndsInHead before then stem ++ [c]
  else [c]

/-- What becomes of a text behind another one, when `form` tells it of each character from what stands before it and behind
it. -/
def spelledFrom (form : Text → Char → Text → Text) (before : Text) : Text → Text
  | [] => []
  | c :: t => form before c t ++ spelledFrom form (before ++ [c]) t

/-- A directive with each of its characters written out for itself. -/
def spelled (stem directive : Text) : Text :=
  spelledFrom (if loopWord <+: directive ∨ gridWord <+: directive then argumentAt stem else referenceAt stem) [] directive

variable {stem : Text}

theorem append_singleton_suffix_iff {u t : Text} {x c : Char} : u ++ [x] <:+ t ++ [c] ↔ c = x ∧ u <:+ t := by
  rw [← List.reverse_prefix, List.reverse_append, List.reverse_append, ← List.reverse_prefix, eq_comm]
  exact List.cons_prefix_cons

theorem singleton_suffix_iff {t : Text} {x c : Char} : [x] <:+ t ++ [c] ↔ c = x := by
  have h := append_singleton_suffix_iff (u := []) (t := t) (x := x) (c := c)
  rwa [and_iff_left (List.nil_suffix)] at h

theorem pair_suffix_iff {t : Text} {d x c : Char} : [d, x] <:+ t ++ [c] ↔ c = x ∧ [d] <:+ t :=
  append_singleton_suffix_iff (u := [d])

theorem two_le_byteSize (t : Text) (c d : Char) : 2 ≤ Text.byteSize (t ++ [c] ++ [d]) := by
  have hc := c.utf8Size_pos
  have hd := d.utf8Size_pos
  simp only [Text.byteSize_append, Text.byteSize_cons, Text.byteSize_nil]
  omega

theorem qualifyArguments_eq : ∀ (before : Text) (c : Char) (t : Text), 2 ≤ Text.byteSize (before ++ [c]) →
    qualifyArguments stem (c :: t) = c :: spelledFrom (argumentAt stem) (before ++ [c]) t
  | before, c, [], _ => rfl
  | before, c, d :: t, hsize => by
    have hat : argumentAt stem (before ++ [c]) d t = if d = '#' ∧ startsArgument c then stem ++ [d] else [d] := by
      simp only [argumentAt, hsize, singleton_suffix_iff]
      simp [startsArgument, or_assoc]
    rw [qualifyArguments, qualifyArguments_eq (before ++ [c]) d t (two_le_byteSize before c d), spelledFrom, hat]
    split
    · simp
    · rfl

theorem endsInHead_iff {t : Text} {c d : Char} : EndsInHead (t ++ [c] ++ [d]) ↔ d = '.' ∧ endsDirectiveHead c := by
  rw [EndsInHead, pair_suffix_iff, pair_suffix_iff, singleton_suffix_iff, singleton_suffix_iff, ← and_or_left]
  simp [endsDirectiveHead]

theorem not_endsInHead {t : Text} {c : Char} (hc : c ≠ '.') : ¬ EndsInHead (t ++ [c]) := by
  rw [EndsInHead, pair_suffix_iff, pair_suffix_iff, ← and_or_left]
  exact fun h => hc h.1

theorem referenceAt_of_not {before behind : Text} {c d : Char} (h : ¬ (d = '#' ∧ EndsInHead (before ++ [c]))) :
    referenceAt stem (before ++ [c]) d behind =
      if d = '+' ∧ ['#'] <+: behind ∧ startsBareReference c then includeWord ++ stem else [d] := by
  have hhead : ¬ (d = '#' ∧ 2 ≤ Text.byteSize (before ++ [c]) ∧ EndsInHead (before ++ [c])) := fun hd => h ⟨hd.1, hd.2.2⟩
  rw [referenceAt, if_neg hhead]
  simp only [singleton_suffix_iff]
  simp [startsBareReference, or_assoc]

theorem referenceAt_hash {before behind : Text} {c : Char} (hc : endsDirectiveHead c) :
    referenceAt stem (before ++ [c] ++ ['.']) '#' behind = stem ++ ['#'] := by
  have hhead : EndsInHead (before ++ [c] ++ ['.']) := endsInHead_iff.2 ⟨rfl, hc⟩
  rw [referenceAt, if_neg (by simp), if_pos ⟨rfl, two_le_byteSize before c '.', hhead⟩]

/-- A text is written out behind a character that stays.  If the text starts with a hash sign, that is no reference of the
character and the one before it. -/
theorem qualifyReferences_eq : ∀ (before : Text) (c : Char) (t : Text), (['#'] <+: t → ¬ EndsInHead (before ++ [c])) →
    qualifyReferences stem (c :: t) = c :: spelledFrom (referenceAt stem) (before ++ [c]) t
  | before, c, [], _ => rfl
  | before, c, [d], h => by
    have hd : referenceAt stem (before ++ [c]) d [] = [d] := by
      rw [referenceAt_of_not fun hd => h (by simp [hd.1]) hd.2]
      simp
    rw [spelledFrom, hd]
    rfl
  | before, c, d :: e :: t, h => by
    have hd : referenceAt stem (before ++ [c]) d (e :: t) =
        if d = '+' ∧ ['#'] <+: e :: t ∧ startsBareReference c then includeWord ++ stem else [d] :=
      referenceAt_of_not fun hd => h (by simp [hd.1]) hd.2
    by_cases hbare : e = '#' ∧ d = '+' ∧ startsBareReference c
    · obtain ⟨rfl, rfl, hc⟩ := hbare
      have hhash : referenceAt stem (before ++ [c] ++ ['+']) '#' t = ['#'] := by
        rw [referenceAt_of_not fun hhead => not_endsInHead (by decide) hhead.2]
        simp
      have hnext := qualifyReferences_eq (before ++ [c] ++ ['+']) '#' t fun _ => not_endsInHead (by decide)
      rw [qualifyReferences, if_pos ⟨rfl, rfl, hc⟩, hnext, spelledFrom, hd, if_pos ⟨rfl, by simp, hc⟩,
        spelledFrom, hhash]
      simp
    · by_cases hhead : e = '#' ∧ d = '.' ∧ endsDirectiveHead c
      · obtain ⟨rfl, rfl, hc⟩ := hhead
        have hnext := qualifyReferences_eq (before ++ [c] ++ ['.']) '#' t fun _ => not_endsInHead (by decide)
        rw [qualifyReferences, if_neg hbare, if_pos ⟨rfl, rfl, hc⟩, hnext, spelledFrom, hd, if_neg (by simp),
          spelledFrom, referenceAt_hash hc]
        simp
      · have hnext := qualifyReferences_eq (before ++ [c]) d (e :: t) fun he hends =>
          hhead ⟨by simpa [eq_comm] using he, endsInHead_iff.1 hends⟩
        have hkept : ¬ (d = '+' ∧ ['#'] <+: e :: t ∧ startsBareReference c) := fun hd =>
          hbare ⟨by simpa [eq_comm] using hd.2.1, hd.1, hd.2.2⟩
        have hspelled : spelledFrom (referenceAt stem) (before ++ [c]) (d :: e :: t) =
            referenceAt stem (before ++ [c]) d (e :: t) ++
              spelledFrom (referenceAt stem) (before ++ [c] ++ [d]) (e :: t) := rfl
        rw [qualifyReferences, if_neg hbare, if_neg hhead, hnext, hspelled, hd, if_neg hkept]
        rfl

/-- **A directive is written out character by character.** -/
theorem qualify_eq_spelled (stem directive : Text) : qualify stem directive = spelled stem directive := by
  have hlist : (loopWord.isPrefixOf directive || gridWord.isPrefixOf directive) = true ↔
      loopWord <+: directive ∨ gridWord <+: directive := by
    rw [Bool.or_eq_true, List.isPrefixOf_iff_prefix, List.isPrefixOf_iff_prefix]
  unfold qualify spelled
  split
  · next h =>
    rw [if_pos (hlist.1 h)]
    have hdot : ∃ c t, directive = '.' :: c :: t ∧ c ≠ '#' := by
      rcases hlist.1 h with ⟨t, rfl⟩ | ⟨t, rfl⟩
      · exact ⟨'l', _, rfl, by decide⟩
      · exact ⟨'g', _, rfl, by decide⟩
    obtain ⟨c, t, rfl, hc⟩ := hdot
    have hsecond : argumentAt stem ['.'] c t = [c] := by simp [argumentAt, hc]
    have hnext : qualifyArguments stem (c :: t) = c :: spelledFrom (argumentAt stem) (['.'] ++ [c]) t :=
      qualifyArguments_eq ['.'] c t (two_le_byteSize [] '.' c)
    rw [qualifyArguments, if_neg fun h => hc h.1, hnext, spelledFrom, spelledFrom, List.nil_append, hsecond]
    rfl
  · next h =>
    rw [if_neg fun hw => h (hlist.2 hw)]
    cases directive with
    | nil => rfl
    | cons c t =>
      have hfirst : referenceAt stem [] c t = [c] := by
        simp [referenceAt]
      have hstart : ¬ EndsInHead ([] ++ [c]) := by
        rw [EndsInHead, pair_suffix_iff, pair_suffix_iff]
        simp
      rw [spelledFrom, hfirst, qualifyReferences_eq [] c t fun _ => hstart]
      rfl

/-- A tag without an end at which the work stops with nothing put in, from behind its brace. -/
inductive Stops : Text → Prop where
  | plus : Stops ['+']
  | condition {c : Text} (h : Text.Escapes ')' c) : Stops ('+' :: '(' :: c)
  | afterCondition {c : Text} (h : Text.EndedBy ')' c) : Stops ('+' :: '(' :: (c ++ [')']))
  | directive {b : Text} (h : Text.Escapes '}' b) : Stops ('~' :: b)
  | blanks {s : Text} (h : ∀ c ∈ s, c = ' ') : Stops ('*' :: s)

/-- **What a rewriting of texts does with each kind of tag**, behind a text `p` without an open brace and with `r` behind
the tag. -/
structure TagLaws (stem : Text) (X : Text → Text) : Prop where
  plain : ∀ p, '{' ∉ p → X p = p
  lastBrace : ∀ p, '{' ∉ p → X (p ++ ['{']) = p ++ ['{']
  reference : ∀ p n r, '{' ∉ p → '}' ∉ n →
    X (p ++ ['{', '+', '#'] ++ n ++ ['}'] ++ r) = p ++ ['{'] ++ includeWord ++ stem ++ ['#'] ++ n ++ ['}'] ++ X r
  conditional : ∀ p c n r, '{' ∉ p → Text.EndedBy ')' c → '}' ∉ n →
    X (p ++ ['{', '+', '('] ++ c ++ [')', '#'] ++ n ++ ['}'] ++ r) =
      p ++ ['{'] ++ includeIfWord ++ ['('] ++ c ++ [')', '.'] ++ stem ++ ['#'] ++ n ++ ['}'] ++ X r
  noReference : ∀ p c d r, '{' ∉ p → Text.EndedBy ')' c → d ≠ '#' →
    X (p ++ ['{', '+', '('] ++ c ++ [')', d] ++ r) = p ++ ['{', '+', '('] ++ c ++ [')'] ++ X (d :: r)
  plus : ∀ p d r, '{' ∉ p → d ≠ '#' → d ≠ '(' → X (p ++ ['{', '+', d] ++ r) = p ++ ['{', '+'] ++ X (d :: r)
  caret : ∀ p r, '{' ∉ p → X (p ++ ['{', '^'] ++ r) = X (p ++ ['{', '~', '.'] ++ r)
  directive : ∀ p b r, '{' ∉ p → Text.EndedBy '}' b →
    X (p ++ ['{', '~'] ++ b ++ ['}'] ++ r) = p ++ ['{', '~'] ++ spelled stem b ++ ['}'] ++ X r
  macroReference : ∀ p s n r, '{' ∉ p → (∀ c ∈ s, c = ' ') → '}' ∉ n →
    X (p ++ ['{', '*'] ++ s ++ ['#'] ++ n ++ ['}'] ++ r) = p ++ ['{', '*'] ++ s ++ stem ++ ['#'] ++ n ++ ['}'] ++ X r
  macroName : ∀ p s n r, '{' ∉ p → (∀ c ∈ s, c = ' ') → n.head? ≠ some ' ' → n.head? ≠ some '#' → '}' ∉ n →
    X (p ++ ['{', '*'] ++ s ++ n ++ ['}'] ++ r) = p ++ ['{', '*'] ++ s ++ n ++ ['}'] ++ X r
  noTag : ∀ p d r, '{' ∉ p → d ∉ ['+', '~', '^', '*'] → X (p ++ ['{', d] ++ r) = p ++ ['{', d] ++ X r
  openReference : ∀ p n, '{' ∉ p → '}' ∉ n → X (p ++ ['{', '+', '#'] ++ n) = p ++ ['{'] ++ includeWord ++ stem ++ ['#'] ++ n
  openConditional : ∀ p c n, '{' ∉ p → Text.EndedBy ')' c → '}' ∉ n →
    X (p ++ ['{', '+', '('] ++ c ++ [')', '#'] ++ n) =
      p ++ ['{'] ++ includeIfWord ++ ['('] ++ c ++ [')', '.'] ++ stem ++ ['#'] ++ n
  openMacroReference : ∀ p s n, '{' ∉ p → (∀ c ∈ s, c = ' ') → '}' ∉ n →
    X (p ++ ['{', '*'] ++ s ++ ['#'] ++ n) = p ++ ['{', '*'] ++ s ++ stem ++ ['#'] ++ X n
  openMacroName : ∀ p s d n, '{' ∉ p → (∀ c ∈ s, c = ' ') → d ∉ [' ', '#'] → '}' ∉ d :: n →
    X (p ++ ['{', '*'] ++ s ++ d :: n) = p ++ ['{', '*'] ++ s ++ X (d :: n)
  stop : ∀ p t, '{' ∉ p → Stops t → X (p ++ '{' :: t) = p ++ '{' :: t

theorem pass_cons_brace (stem t : Text) : pass stem ('{' :: t) = passBrace stem t := by
  rw [pass, Text.cut_cons_self]
  cases h : passBrace stem t <;> simp [Pass.after, h]

/-- What a pass settles behind a brace stands behind the text before it, and the rest has a long form of its own. -/
theorem longForm_brace {p t settled rest : Text} (hstem : '{' ∉ stem) (hp : '{' ∉ p)
    (h : passBrace stem t = .onward settled rest) : longForm stem (p ++ '{' :: t) = p ++ settled ++ longForm stem rest := by
  rw [longForm_append hstem hp, longForm_of_onward hstem ((pass_cons_brace stem t).trans h), List.append_assoc]

theorem longForm_brace_of_ended {p t u : Text} (hstem : '{' ∉ stem) (hp : '{' ∉ p) (h : passBrace stem t = .ended u) :
    longForm stem (p ++ '{' :: t) = p ++ u := by
  rw [longForm_append hstem hp, longForm_of_ended hstem ((pass_cons_brace stem t).trans h)]

theorem longForm_congr {t u : Text} (hstem : '{' ∉ stem) (h : pass stem t = pass stem u) :
    longForm stem t = longForm stem u := by
  cases hpass : pass stem u with
  | ended v => rw [longForm_of_ended hstem hpass, longForm_of_ended hstem (h.trans hpass)]
  | onward settled rest => rw [longForm_of_onward hstem hpass, longForm_of_onward hstem (h.trans hpass)]

/-! ### What a pass does behind a brace -/

theorem passBrace_reference (stem t : Text) :
    passBrace stem ('+' :: '#' :: t) = (passToBrace ('#' :: t)).after ('{' :: (includeWord ++ stem)) := rfl

theorem passBrace_conditional {c : Text} (hc : Text.EndedBy ')' c) (stem t : Text) :
    passBrace stem ('+' :: '(' :: (c ++ ')' :: '#' :: t)) =
      (passToBrace ('#' :: t)).after ('{' :: (includeIfWord ++ '(' :: (c ++ ')' :: '.' :: stem))) := by
  rw [passBrace, passInclude, (Text.cutUnescaped_eq_some_iff ('#' :: t)).2 hc]
  rfl

theorem passBrace_noReference {c : Text} {d : Char} (hc : Text.EndedBy ')' c) (hd : d ≠ '#') (stem t : Text) :
    passBrace stem ('+' :: '(' :: (c ++ ')' :: d :: t)) = .onward ('{' :: '+' :: '(' :: (c ++ [')'])) (d :: t) := by
  rw [passBrace, passInclude, (Text.cutUnescaped_eq_some_iff (d :: t)).2 hc]
  simp

theorem passBrace_plus {d : Char} (hhash : d ≠ '#') (hparen : d ≠ '(') (stem t : Text) :
    passBrace stem ('+' :: d :: t) = .onward ['{', '+'] (d :: t) := by
  rw [passBrace, passInclude]
  · exact hhash
  · exact hparen

theorem passBrace_directive {b : Text} (hb : Text.EndedBy '}' b) (stem t : Text) :
    passBrace stem ('~' :: (b ++ '}' :: t)) = .onward ('{' :: '~' :: (spelled stem b ++ ['}'])) t := by
  rw [passBrace, passTag, (Text.cutUnescaped_eq_some_iff t).2 hb, ← qualify_eq_spelled]

theorem passBrace_macro {s : Text} (hs : ∀ c ∈ s, c = ' ') {c : Char} (hc : c ≠ ' ') (stem t : Text) :
    passBrace stem ('*' :: (s ++ c :: t)) =
      if c = '#' then passMacroName ('*' :: (s ++ stem ++ ['#'])) t else passMacroName ('*' :: s) (c :: t) := by
  rw [passBrace, passMacro_eq hs hc]

theorem passBrace_other {d : Char} (hd : d ∉ ['+', '~', '^', '*']) (stem t : Text) :
    passBrace stem (d :: t) = .onward ['{', d] t := by
  simp only [List.mem_cons, List.not_mem_nil, or_false, not_or] at hd
  simp [passBrace, hd]

theorem passBrace_of_stops {t : Text} (h : Stops t) (stem : Text) : passBrace stem t = .ended ('{' :: t) := by
  cases h with
  | plus => rfl
  | condition h => rw [passBrace, passInclude, Text.cutUnescaped_eq_none_iff.2 h]
  | afterCondition h => rw [passBrace, passInclude, (Text.cutUnescaped_eq_some_iff []).2 h]
  | directive h => rw [passBrace, passTag, Text.cutUnescaped_eq_none_iff.2 h]
  | @blanks s h =>
    have hblanks : s.dropWhile (· == ' ') = [] := List.dropWhile_eq_nil_iff.2 fun c hc => by simp [h c hc]
    rw [passBrace, passMacro, hblanks]

/-- A name goes on to its closing brace, which is no tag. -/
theorem longForm_toBrace {p t before n : Text} (hstem : '{' ∉ stem) (hp : '{' ∉ p) (r : Text)
    (h : passBrace stem t = (passToBrace ('#' :: (n ++ '}' :: r))).after before) (hn : '}' ∉ n) :
    longForm stem (p ++ '{' :: t) = p ++ (before ++ '#' :: n) ++ '}' :: longForm stem r := by
  have hcut : Text.cut ['}'] ('#' :: (n ++ '}' :: r)) = some ('#' :: n, r) :=
    Text.cut_append (c := '}') (s := '#' :: n) (by simp [hn]) r
  have hclosing : longForm stem ('}' :: r) = '}' :: longForm stem r := longForm_append hstem (s := ['}']) (by decide) r
  rw [passToBrace, hcut] at h
  rw [longForm_brace hstem hp h, hclosing]

/-- A name without a closing brace is the last that is written out. -/
theorem longForm_toBrace_open {p t before n : Text} (hstem : '{' ∉ stem) (hp : '{' ∉ p)
    (h : passBrace stem t = (passToBrace ('#' :: n)).after before) (hn : '}' ∉ n) :
    longForm stem (p ++ '{' :: t) = p ++ (before ++ '#' :: n) := by
  rw [passToBrace, Text.cut_eq_none_iff.2 (by simp [hn])] at h
  exact longForm_brace_of_ended hstem hp h

/-- **The long form of a text is that of its tags**, one behind the other. -/
theorem longForm_laws (hstem : '{' ∉ stem) : TagLaws stem (longForm stem) where
  plain p hp := longForm_of_ended hstem (by rw [pass, Text.cut_eq_none_iff.2 hp])
  lastBrace p hp := longForm_brace_of_ended hstem hp rfl
  reference p n r hp hn := by
    simpa using longForm_toBrace hstem hp r (passBrace_reference stem _) hn
  conditional p c n r hp hc hn := by
    simpa using longForm_toBrace hstem hp r (passBrace_conditional hc stem _) hn
  noReference p c d r hp hc hd := by
    simpa using longForm_brace hstem hp (passBrace_noReference hc hd stem r)
  plus p d r hp hhash hparen := by
    simpa using longForm_brace hstem hp (passBrace_plus hhash hparen stem r)
  caret p r hp := by
    have hcaret : pass stem ('{' :: '^' :: r) = pass stem ('{' :: '~' :: '.' :: r) := by
      rw [pass_cons_brace, pass_cons_brace]
      rfl
    rw [List.append_assoc, List.append_assoc, longForm_append hstem hp, longForm_append hstem hp]
    exact congrArg (p ++ ·) (longForm_congr hstem hcaret)
  directive p b r hp hb := by
    simpa using longForm_brace hstem hp (passBrace_directive hb stem r)
  macroReference p s n r hp hs hn := by
    have hpass := passBrace_macro hs (c := '#') (by decide) stem (n ++ '}' :: r)
    rw [if_pos rfl, passMacroName, Text.cut_append hn] at hpass
    simpa using longForm_brace hstem hp hpass
  macroName p s n r hp hs hblank hhash hn := by
    obtain ⟨c, t, hname, hcblank, hchash⟩ : ∃ c t, n ++ '}' :: r = c :: t ∧ c ≠ ' ' ∧ c ≠ '#' := by
      cases n with
      | nil => exact ⟨'}', r, rfl, by decide, by decide⟩
      | cons c n => exact ⟨c, _, rfl, fun h => hblank (congrArg some h), fun h => hhash (congrArg some h)⟩
    have hpass := passBrace_macro hs hcblank stem t
    rw [if_neg hchash, ← hname, passMacroName, Text.cut_append hn] at hpass
    simpa using longForm_brace hstem hp hpass
  noTag p d r hp hd := by
    simpa using longForm_brace hstem hp (passBrace_other hd stem r)
  openReference p n hp hn := by
    simpa using longForm_toBrace_open hstem hp (passBrace_reference stem n) hn
  openConditional p c n hp hc hn := by
    simpa using longForm_toBrace_open hstem hp (passBrace_conditional hc stem n) hn
  openMacroReference p s n hp hs hn := by
    have hcall : OpenCall (p ++ '{' :: '*' :: (s ++ '#' :: n)) p s n := ⟨rfl, hp, hs, hn⟩
    simpa using hcall.longForm_eq hstem
  openMacroName p s d n hp hs hd hn := by
    simp only [List.mem_cons, List.not_mem_nil, or_false, not_or] at hd
    have hpass := passBrace_macro hs hd.1 stem n
    rw [if_neg hd.2, passMacroName, Text.cut_eq_none_iff.2 hn] at hpass
    have hplain : '{' ∉ '*' :: s := by
      simp only [List.mem_cons, not_or]
      exact ⟨by decide, fun hc => by cases hs _ hc⟩
    have hlong := longForm_brace hstem hp hpass
    rw [longForm_append hstem hplain] at hlong
    simpa using hlong
  stop p t hp ht := longForm_brace_of_ended hstem hp (passBrace_of_stops ht stem)

/-- A reference under a condition, a loop behind a caret and a condition without a reference, one behind the other. -/
theorem longForm_laws_mixed :
    '{' ∉ ['p'] ∧ Text.EndedBy ')' "x\\)y".toList ∧ Text.EndedBy '}' ".loop(d,#r)".toList ∧
    longForm ['p'] "a\x7b+(x\\)y)#n\x7d\x7b^loop(d,#r)\x7d\x7b+(c) b".toList =
      "a\x7b~.includeIf(x\\)y).p#n\x7d\x7b~.loop(d,p#r)\x7d\x7b+(c) b".toList := by
  have laws : TagLaws ['p'] (longForm ['p']) := longForm_laws (by decide)
  have hcondition : Text.EndedBy ')' "x\\)y".toList := by decide
  have hloop : Text.EndedBy '}' ".loop(d,#r)".toList := by decide
  have hconditional : longForm ['p'] "a\x7b+(x\\)y)#n\x7d\x7b^loop(d,#r)\x7d\x7b+(c) b".toList =
      "a\x7b~.includeIf(x\\)y).p#n\x7d".toList ++ longForm ['p'] "\x7b^loop(d,#r)\x7d\x7b+(c) b".toList :=
    laws.conditional ['a'] "x\\)y".toList ['n'] "\x7b^loop(d,#r)\x7d\x7b+(c) b".toList (by decide) hcondition (by decide)
  have hcaret : longForm ['p'] "\x7b^loop(d,#r)\x7d\x7b+(c) b".toList =
      longForm ['p'] "\x7b~.loop(d,#r)\x7d\x7b+(c) b".toList :=
    laws.caret [] "loop(d,#r)\x7d\x7b+(c) b".toList (by decide)
  have hdirective : longForm ['p'] "\x7b~.loop(d,#r)\x7d\x7b+(c) b".toList =
      "\x7b~.loop(d,p#r)\x7d".toList ++ longForm ['p'] "\x7b+(c) b".toList :=
    laws.directive [] ".loop(d,#r)".toList "\x7b+(c) b".toList (by decide) hloop
  have hnone : longForm ['p'] "\x7b+(c) b".toList = "\x7b+(c)".toList ++ longForm ['p'] [' ', 'b'] :=
    laws.noReference [] ['c'] ' ' ['b'] (by decide) (by decide) (by decide)
  refine ⟨by decide, hcondition, hloop, ?_⟩
  rw [hconditional, hcaret, hdirective, hnone, laws.plain [' ', 'b'] (by decide)]
  decide

end Tag
end Templates
