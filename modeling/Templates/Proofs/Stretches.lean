import Templates.Proofs.TagLaws
/-!
# A text stretch by stretch

The work on a text takes it stretch by stretch: a character outside of tags, a brace that is passed over with what belongs to
it, a tag with its end.  `Stretch a w r` tells this of a stretch `a` with `r` behind it, and what becomes of it (`w`) with
each stem; `Tail t w` of the text from where the work stops.  Every text is taken apart so, whatever the stem is
(`stretch_induction`), and its long form is that of its stretches one behind the other (`longForm_append_of_stretch`,
`longForm_of_tail`).  `Reaches t u` says that the work on `t` comes to `u`, the stretches before it being over there.
-/
namespace Templates
namespace Text

theorem not_mem_or_first (c : Char) (t : Text) : c ∉ t ∨ ∃ a b, t = a ++ c :: b ∧ c ∉ a := by
  by_cases h : c ∈ t
  · exact .inr (List.eq_append_cons_of_mem h)
  · exact .inl h

theorem escapes_or_endedBy (c : Char) (t : Text) : Escapes c t ∨ ∃ a b, t = a ++ c :: b ∧ EndedBy c a := by
  cases hcut : cutUnescaped [c] t with
  | none => exact .inl (cutUnescaped_eq_none_iff.1 hcut)
  | some parts =>
    obtain ⟨a, b⟩ := parts
    obtain rfl : t = a ++ c :: b := eq_append_of_cutUnescaped hcut
    exact .inr ⟨a, b, rfl, (cutUnescaped_eq_some_iff b).1 hcut⟩

end Text

namespace Tag

/-- What stands between the open brace and the hash sign of a short reference, and what is written for it. -/
inductive ShortHead : Text → Text → Prop where
  | bare : ShortHead ['+'] includeWord
  | conditional {c : Text} (h : Text.EndedBy ')' c) :
      ShortHead ('+' :: '(' :: (c ++ [')'])) (includeIfWord ++ '(' :: (c ++ [')', '.']))

/-- What is passed over behind an open brace, as it is, when `r` comes behind it. -/
inductive Skipped : Text → Text → Prop where
  | noTag {d : Char} {r : Text} (hd : d ∉ ['+', '~', '^', '*']) : Skipped [d] r
  | plus {d : Char} {r : Text} (hhash : d ≠ '#') (hparen : d ≠ '(') : Skipped ['+'] (d :: r)
  | condition {c r : Text} {d : Char} (hc : Text.EndedBy ')' c) (hd : d ≠ '#') :
      Skipped ('+' :: '(' :: (c ++ [')'])) (d :: r)
  | macroName {s n r : Text} (hs : ∀ c ∈ s, c = ' ') (hblank : n.head? ≠ some ' ') (hhash : n.head? ≠ some '#')
      (hn : '}' ∉ n) : Skipped ('*' :: (s ++ n ++ ['}'])) r
  | openMacroName {s n : Text} {d : Char} (hs : ∀ c ∈ s, c = ' ') (hblank : d ≠ ' ') (hhash : d ≠ '#')
      (hn : '}' ∉ d :: n) : Skipped ('*' :: s) (d :: n)

/-- A stretch of text, what becomes of it with each stem, and what comes behind it. -/
inductive Stretch : Text → (Text → Text) → Text → Prop where
  | char {c : Char} {r : Text} (hc : c ≠ '{') : Stretch [c] (fun _ => [c]) r
  | skipped {h r : Text} (hs : Skipped h r) : Stretch ('{' :: h) (fun _ => '{' :: h) r
  | reference {h l n r : Text} (hh : ShortHead h l) (hn : '}' ∉ n) :
      Stretch ('{' :: (h ++ '#' :: (n ++ ['}']))) (fun stem => '{' :: (l ++ stem ++ '#' :: (n ++ ['}']))) r
  | caret {b r : Text} (hb : Text.EndedBy '}' ('.' :: b)) :
      Stretch ('{' :: '^' :: (b ++ ['}'])) (fun stem => '{' :: '~' :: (spelled stem ('.' :: b) ++ ['}'])) r
  | directive {b r : Text} (hb : Text.EndedBy '}' b) :
      Stretch ('{' :: '~' :: (b ++ ['}'])) (fun stem => '{' :: '~' :: (spelled stem b ++ ['}'])) r
  | call {s n r : Text} (hs : ∀ c ∈ s, c = ' ') (hn : '}' ∉ n) :
      Stretch ('{' :: '*' :: (s ++ '#' :: (n ++ ['}']))) (fun stem => '{' :: '*' :: (s ++ stem ++ '#' :: (n ++ ['}']))) r
  | openCall {s n : Text} (hs : ∀ c ∈ s, c = ' ') (hn : '}' ∉ n) :
      Stretch ('{' :: '*' :: (s ++ ['#'])) (fun stem => '{' :: '*' :: (s ++ stem ++ ['#'])) n

/-- The text from where the work stops, and what becomes of it with each stem. -/
inductive Tail : Text → (Text → Text) → Prop where
  | nil : Tail [] fun _ => []
  | brace : Tail ['{'] fun _ => ['{']
  | stopped {t : Text} (ht : Stops t) : Tail ('{' :: t) fun _ => '{' :: t
  | reference {h l n : Text} (hh : ShortHead h l) (hn : '}' ∉ n) :
      Tail ('{' :: (h ++ '#' :: n)) fun stem => '{' :: (l ++ stem ++ '#' :: n)
  | caret {b : Text} (hb : Text.Escapes '}' ('.' :: b)) : Tail ('{' :: '^' :: b) fun _ => '{' :: '~' :: '.' :: b

/-- The work on a text comes to another one, with stretches of the text before it. -/
inductive Reaches : Text → Text → Prop where
  | here (t : Text) : Reaches t t
  | later {a r u : Text} {w : Text → Text} (h : Stretch a w r) (hr : Reaches r u) : Reaches (a ++ r) u

variable {stem a r t u h l n : Text} {w : Text → Text}

/-! ### Every text has its stretches -/

theorem Stretch.ne_nil (h : Stretch a w r) : a ≠ [] := by
  cases h <;> exact List.cons_ne_nil _ _

theorem Stretch.length_lt (h : Stretch a w r) : r.length < (a ++ r).length := by
  have := List.length_pos_iff.2 h.ne_nil
  rw [List.length_append]
  omega

/-- A text is the end of the work, or it starts with a stretch. -/
def Parted (t : Text) : Prop := (∃ w, Tail t w) ∨ ∃ a w r, t = a ++ r ∧ Stretch a w r

theorem parted_of_tail (h : Tail t w) : Parted t := .inl ⟨w, h⟩

theorem parted_of_stretch (h : Stretch a w r) : Parted (a ++ r) := .inr ⟨a, w, r, rfl, h⟩

theorem parted_shortReference (hh : ShortHead h l) (t : Text) : Parted ('{' :: (h ++ '#' :: t)) := by
  rcases Text.not_mem_or_first '}' t with hn | ⟨n, r, rfl, hn⟩
  · exact parted_of_tail (.reference hh hn)
  · simpa using parted_of_stretch (r := r) (.reference hh hn)

theorem parted_condition (t : Text) : Parted ('{' :: '+' :: '(' :: t) := by
  rcases Text.escapes_or_endedBy ')' t with hc | ⟨c, r, rfl, hc⟩
  · exact parted_of_tail (.stopped (.condition hc))
  cases r with
  | nil => exact parted_of_tail (.stopped (.afterCondition hc))
  | cons d r =>
    by_cases hd : d = '#'
    · subst hd
      simpa using parted_shortReference (.conditional hc) r
    · simpa using parted_of_stretch (.skipped (.condition (r := r) hc hd))

theorem parted_directive (t : Text) : Parted ('{' :: '~' :: t) := by
  rcases Text.escapes_or_endedBy '}' t with hb | ⟨b, r, rfl, hb⟩
  · exact parted_of_tail (.stopped (.directive hb))
  · simpa using parted_of_stretch (r := r) (.directive hb)

theorem parted_caret (t : Text) : Parted ('{' :: '^' :: t) := by
  -- The dot belongs to the directive that the caret stands for.
  rcases Text.escapes_or_endedBy '}' ('.' :: t) with hb | ⟨b, r, ht, hb⟩
  · exact parted_of_tail (.caret hb)
  · obtain ⟨b, rfl, rfl⟩ : ∃ b', b = '.' :: b' ∧ t = b' ++ '}' :: r := by
      cases b with
      | nil => simp at ht
      | cons d b => exact ⟨b, by rw [(List.cons.inj ht).1], (List.cons.inj ht).2⟩
    simpa using parted_of_stretch (r := r) (.caret hb)

theorem parted_macro (t : Text) : Parted ('{' :: '*' :: t) := by
  rcases blank_or t with hblank | ⟨s, c, t, rfl, hs, hc⟩
  · exact parted_of_tail (.stopped (.blanks hblank))
  by_cases hhash : c = '#'
  · subst hhash
    rcases Text.not_mem_or_first '}' t with hn | ⟨n, r, rfl, hn⟩
    · simpa using parted_of_stretch (.openCall hs hn)
    · simpa using parted_of_stretch (r := r) (.call hs hn)
  · rcases Text.not_mem_or_first '}' (c :: t) with hn | ⟨n, r, ht, hn⟩
    · exact parted_of_stretch (.skipped (.openMacroName hs hc hhash hn))
    -- The name is empty when the closing brace comes first; else it starts as the text behind the blanks does.
    have hhead : ∀ d, d ≠ '}' → c ≠ d → n.head? ≠ some d := by
      intro d hd hcd
      cases n <;> simp_all
    have hskipped := Skipped.macroName (r := r) hs (hhead ' ' (by decide) hc) (hhead '#' (by decide) hhash) hn
    rw [ht]
    simpa using parted_of_stretch (.skipped hskipped)

theorem parted_plus (t : Text) : Parted ('{' :: '+' :: t) := by
  cases t with
  | nil => exact parted_of_tail (.stopped .plus)
  | cons d t =>
    by_cases hhash : d = '#'
    · subst hhash
      exact parted_shortReference .bare t
    by_cases hparen : d = '('
    · subst hparen
      exact parted_condition t
    exact parted_of_stretch (.skipped (.plus (r := t) hhash hparen))

theorem parted (t : Text) : Parted t := by
  cases t with
  | nil => exact parted_of_tail .nil
  | cons c t =>
    by_cases hc : c = '{'
    · subst hc
      cases t with
      | nil => exact parted_of_tail .brace
      | cons d t =>
        by_cases hd : d ∈ ['+', '~', '^', '*']
        · simp only [List.mem_cons, List.not_mem_nil, or_false] at hd
          rcases hd with rfl | rfl | rfl | rfl
          · exact parted_plus t
          · exact parted_directive t
          · exact parted_caret t
          · exact parted_macro t
        · exact parted_of_stretch (.skipped (.noTag (r := t) hd))
    · exact parted_of_stretch (.char (r := t) hc)

/-- **What holds of the end of the work, and of a text when it holds of the text behind its first stretch, holds of every
text.** -/
theorem stretch_induction {P : Text → Prop} (tail : ∀ {t w}, Tail t w → P t)
    (stretch : ∀ {a w r}, Stretch a w r → P r → P (a ++ r)) (t : Text) : P t := by
  rcases parted t with ⟨w, h⟩ | ⟨a, w, r, ht, h⟩
  · exact tail h
  · have := h.length_lt
    rw [← ht] at this
    rw [ht]
    exact stretch h (stretch_induction tail stretch r)
termination_by t.length

/-! ### The long form of a stretch -/

theorem passBrace_shortReference (hh : ShortHead h l) (stem t : Text) :
    passBrace stem (h ++ '#' :: t) = (passToBrace ('#' :: t)).after ('{' :: (l ++ stem)) := by
  cases hh with
  | bare => exact passBrace_reference stem t
  | conditional hc => simpa using passBrace_conditional hc stem t

theorem longForm_skipped (hstem : '{' ∉ stem) (hs : Skipped h r) :
    longForm stem ('{' :: (h ++ r)) = '{' :: (h ++ longForm stem r) := by
  cases hs with
  | noTag hd => exact longForm_brace hstem List.not_mem_nil (passBrace_other hd stem r)
  | plus hhash hparen => exact longForm_brace hstem List.not_mem_nil (passBrace_plus hhash hparen stem _)
  | condition hc hd => simpa using longForm_brace hstem List.not_mem_nil (passBrace_noReference hc hd stem _)
  | @macroName s n r hs hblank hhash hn =>
    obtain ⟨c, t, hname, hcblank, hchash⟩ : ∃ c t, n ++ '}' :: r = c :: t ∧ c ≠ ' ' ∧ c ≠ '#' := by
      cases n with
      | nil => exact ⟨'}', r, rfl, by decide, by decide⟩
      | cons c n => exact ⟨c, _, rfl, fun h => hblank (congrArg some h), fun h => hhash (congrArg some h)⟩
    have hpass := passBrace_macro hs hcblank stem t
    rw [if_neg hchash, ← hname, passMacroName, Text.cut_append hn] at hpass
    simpa using longForm_brace hstem List.not_mem_nil hpass
  | @openMacroName s n d hs hblank hhash hn =>
    have hpass := passBrace_macro hs hblank stem n
    rw [if_neg hhash, passMacroName, Text.cut_eq_none_iff.2 hn] at hpass
    have hplain : '{' ∉ '*' :: s := by
      simp only [List.mem_cons, not_or]
      exact ⟨by decide, fun hc => by cases hs _ hc⟩
    have hlong := longForm_brace (p := []) hstem List.not_mem_nil hpass
    rw [longForm_append hstem hplain] at hlong
    simpa using hlong

theorem longForm_caret (hstem : '{' ∉ stem) (t : Text) :
    longForm stem ('{' :: '^' :: t) = longForm stem ('{' :: '~' :: '.' :: t) := by
  refine longForm_congr hstem ?_
  rw [pass_cons_brace, pass_cons_brace]
  rfl

theorem longForm_directive (hstem : '{' ∉ stem) {b : Text} (hb : Text.EndedBy '}' b) (r : Text) :
    longForm stem ('{' :: '~' :: (b ++ '}' :: r)) = '{' :: '~' :: (spelled stem b ++ '}' :: longForm stem r) := by
  simpa using longForm_brace hstem List.not_mem_nil (passBrace_directive hb stem r)

/-- **A stretch is written out by itself**, and what is behind it has its own long form. -/
theorem longForm_append_of_stretch (hstem : '{' ∉ stem) (h : Stretch a w r) :
    longForm stem (a ++ r) = w stem ++ longForm stem r := by
  cases h with
  | @char c r hc => exact longForm_append hstem (s := [c]) (by simpa using Ne.symm hc) r
  | skipped hs => exact longForm_skipped hstem hs
  | reference hh hn =>
    simpa using longForm_toBrace hstem List.not_mem_nil r (passBrace_shortReference hh stem _) hn
  | @caret b r hb =>
    simpa using (longForm_caret hstem (b ++ '}' :: r)).trans (longForm_directive hstem hb r)
  | directive hb => simpa using longForm_directive hstem hb r
  | @call s n r hs hn =>
    have hpass := passBrace_macro hs (c := '#') (by decide) stem (n ++ '}' :: r)
    rw [if_pos rfl, passMacroName, Text.cut_append hn] at hpass
    simpa using longForm_brace hstem List.not_mem_nil hpass
  | @openCall s n hs hn =>
    have hcall : OpenCall ('{' :: '*' :: (s ++ '#' :: r)) [] s r := ⟨rfl, List.not_mem_nil, hs, hn⟩
    simpa using hcall.longForm_eq hstem

/-- **The end of the work** has the long form that it tells. -/
theorem longForm_of_tail (hstem : '{' ∉ stem) (h : Tail t w) : longForm stem t = w stem := by
  cases h with
  | nil => exact longForm_of_ended hstem rfl
  | brace => exact longForm_of_ended hstem rfl
  | stopped ht => exact longForm_brace_of_ended (p := []) hstem List.not_mem_nil (passBrace_of_stops ht stem)
  | reference hh hn =>
    simpa using longForm_toBrace_open (p := []) hstem List.not_mem_nil (passBrace_shortReference hh stem _) hn
  | @caret b hb =>
    rw [longForm_caret hstem]
    exact longForm_brace_of_ended (p := []) hstem List.not_mem_nil (passBrace_of_stops (.directive hb) stem)

/-! ### What the work comes to -/

theorem Reaches.suffix (h : Reaches t u) : u <:+ t := by
  induction h with
  | here t => exact List.suffix_refl t
  | later h hr ih => exact ih.trans (List.suffix_append _ _)

end Tag
end Templates
