import Templates.Proofs.InertTexts
/-!
# Writing tags out again

A text with its tags written out has a long form in turn.  With a plain stem each stretch but a reference comes out as it was
the second time (`Stretch.again`).  A reference is read again as a directive, so its name and its condition are searched for
references and for an unescaped closing brace, which they were not the first time.  Where both searches end it alike,
writing tags out again changes nothing exactly when no name and no condition of a reference holds a reference
(`longForm_again_iff`).
-/
namespace Templates
namespace Tag

/-- A short reference from behind its open brace to the end of its name. -/
def IsReference (x : Text) : Prop := ∃ h l n, ShortHead h l ∧ '}' ∉ n ∧ x = h ++ '#' :: n

/-- The work on a text comes to this reference, with its closing brace. -/
def Refers (t x : Text) : Prop := IsReference x ∧ ∃ r, Reaches t ('{' :: (x ++ '}' :: r))

/-- The work on a text comes to this reference, and no closing brace ends it. -/
def RefersOpen (t x : Text) : Prop := IsReference x ∧ Reaches t ('{' :: x)

/-- Each reference that the work on a text comes to would end at the same brace as a directive, or without one. -/
structure EndsAgree (t : Text) : Prop where
  closed : ∀ x, Refers t x → Text.EndedBy '}' x
  unclosed : ∀ x, RefersOpen t x → Text.Escapes '}' x

variable {stem a h l n r t u x : Text} {w : Text → Text}

theorem Refers.later (hs : Stretch a w r) (h : Refers r x) : Refers (a ++ r) x :=
  ⟨h.1, h.2.imp fun _ hr => .later hs hr⟩

theorem EndsAgree.of_stretch (hs : Stretch a w r) (h : EndsAgree (a ++ r)) : EndsAgree r where
  closed x hx := h.closed x (hx.later hs)
  unclosed x hx := h.unclosed x ⟨hx.1, .later hs hx.2⟩

/-! ### References that are read as directives -/

theorem lacks_references_bare (hstem : PlainStem stem) (n : Text) :
    Lacks referenceWords (includeWord.tail ++ stem ++ '#' :: n) ↔ Lacks referenceWords (['+'] ++ '#' :: n) := by
  have hplus : Lacks referenceWords (['+'] ++ '#' :: n) ↔ Lacks referenceWords ('#' :: n) :=
    lacks_references_cons_of_second (by decide) (by decide)
  rw [hplus, ← lacks_references_dot_stem hstem 'e']
  simp [includeWord, lacks_references_cons_of_third]

theorem lacks_references_conditional (hstem : PlainStem stem) (c n : Text) :
    Lacks referenceWords (includeIfWord.tail ++ '(' :: (c ++ [')', '.']) ++ stem ++ '#' :: n) ↔
      Lacks referenceWords ('+' :: '(' :: (c ++ [')']) ++ '#' :: n) := by
  have hword : Lacks referenceWords (includeIfWord.tail ++ '(' :: (c ++ [')', '.']) ++ stem ++ '#' :: n) ↔
      Lacks referenceWords ('(' :: c ++ ')' :: '.' :: (stem ++ '#' :: n)) := by
    simp [includeIfWord, lacks_references_cons_of_second]
  have hplus : Lacks referenceWords ('+' :: '(' :: (c ++ [')']) ++ '#' :: n) ↔
      Lacks referenceWords ('(' :: c ++ ')' :: '#' :: n) := by
    simp [lacks_references_cons_of_second]
  rw [hword, hplus, lacks_references_append, lacks_references_append, lacks_references_dot_stem hstem,
    lacks_references_cons_of_second (by decide) (by decide)]

/-- A short reference as a directive: what is written for its head behind the tilde, the stem and the name. -/
theorem ShortHead.directive (hstem : PlainStem stem) (hh : ShortHead h l) : ∃ k, l = '~' :: k ∧ ∀ n,
    Text.EndsAlike (k ++ stem ++ '#' :: n) (h ++ '#' :: n) ∧
      (Qualified (k ++ stem ++ '#' :: n) ↔ Lacks referenceWords (h ++ '#' :: n)) := by
  have hsmooth := hstem.smooth
  cases hh with
  | bare =>
    refine ⟨includeWord.tail, rfl, fun n => ⟨?_, ?_⟩⟩
    · have hword : Text.Smooth includeWord.tail := by decide
      exact (Text.EndsAlike.of_smooth (hword.append hsmooth) (by decide)).append (.refl _)
    · have hlist : ¬ (loopWord <+: includeWord.tail ++ stem ++ '#' :: n ∨
          gridWord <+: includeWord.tail ++ stem ++ '#' :: n) := by
        simp [loopWord, gridWord, includeWord]
      rw [Qualified, if_neg hlist, lacks_references_bare hstem]
  | @conditional c hc =>
    refine ⟨includeIfWord.tail ++ '(' :: (c ++ [')', '.']), rfl, fun n => ⟨?_, ?_⟩⟩
    · have hword : Text.EndsAlike (includeIfWord.tail ++ ['(']) ['+', '('] := .of_smooth (by decide) (by decide)
      have hdot : Text.Smooth [')', '.'] := by decide
      have hend : Text.EndsAlike ([')', '.'] ++ stem) [')'] := .of_smooth (hdot.append hsmooth) (by decide)
      simpa using ((hword.append (.refl c)).append hend).append (.refl ('#' :: n))
    · have hlist : ¬ (loopWord <+: includeIfWord.tail ++ '(' :: (c ++ [')', '.']) ++ stem ++ '#' :: n ∨
          gridWord <+: includeIfWord.tail ++ '(' :: (c ++ [')', '.']) ++ stem ++ '#' :: n) := by
        simp [loopWord, gridWord, includeIfWord]
      rw [Qualified, if_neg hlist, lacks_references_conditional hstem]

/-! ### Stretches that are written out again -/

theorem Stretch.cons (h : Stretch a w r) (stem : Text) : ∃ c x y, a = c :: x ∧ w stem = c :: y := by
  cases h <;> exact ⟨_, _, _, rfl, rfl⟩

theorem longForm_cons (hstem : '{' ∉ stem) (c : Char) (t : Text) : ∃ u, longForm stem (c :: t) = c :: u := by
  generalize ht : c :: t = v
  rcases parted v with ⟨w, h⟩ | ⟨a, w, r, rfl, h⟩
  · rw [longForm_of_tail hstem h]
    cases h with
    | nil => cases ht
    | brace => exact ⟨_, by cases ht; rfl⟩
    | stopped => exact ⟨_, by cases ht; rfl⟩
    | reference => exact ⟨_, by cases ht; rfl⟩
    | caret => exact ⟨_, by cases ht; rfl⟩
  · obtain ⟨d, y, z, rfl, hw⟩ := h.cons stem
    rw [longForm_append_of_stretch hstem h, hw]
    cases ht
    exact ⟨_, rfl⟩

/-- No closing brace comes about where there was none. -/
theorem closing_not_mem_longForm (hstem : PlainStem stem) (t : Text) (ht : '}' ∉ t) : '}' ∉ longForm stem t := by
  have hclosing : '}' ∉ stem := hstem.smooth.2.2
  induction t using stretch_induction with
  | tail h =>
    rw [longForm_of_tail hstem.brace_not_mem h]
    cases h with
    | nil => exact ht
    | brace => exact ht
    | stopped => exact ht
    | reference hh hn => cases hh <;> simp_all [includeWord, includeIfWord]
    | caret => simp_all
  | stretch h ih =>
    rw [List.mem_append, not_or] at ht
    rw [longForm_append_of_stretch hstem.brace_not_mem h, List.mem_append, not_or]
    refine ⟨?_, ih ht.2⟩
    cases h with
    | char => exact ht.1
    | skipped => exact ht.1
    | reference => simp at ht
    | caret => simp at ht
    | directive => simp at ht
    | call => simp at ht
    | openCall => simp_all

/-- What is passed over is passed over again before the text behind it with its tags written out. -/
theorem Skipped.longForm (hstem : PlainStem stem) (h : Skipped a r) : Skipped a (longForm stem r) := by
  cases h with
  | noTag hd => exact .noTag hd
  | @plus d r hhash hparen =>
    obtain ⟨u, hu⟩ := longForm_cons hstem.brace_not_mem d r
    rw [hu]
    exact .plus hhash hparen
  | @condition c r d hc hd =>
    obtain ⟨u, hu⟩ := longForm_cons hstem.brace_not_mem d r
    rw [hu]
    exact .condition hc hd
  | macroName hs hblank hhash hn => exact .macroName hs hblank hhash hn
  | @openMacroName s n d hs hblank hhash hn =>
    obtain ⟨u, hu⟩ := longForm_cons hstem.brace_not_mem d n
    have hclosing := closing_not_mem_longForm hstem _ hn
    rw [hu] at hclosing ⊢
    exact .openMacroName hs hblank hhash hclosing

/-- A reference that ends alike is read again as a directive. -/
theorem ShortHead.again (hstem : PlainStem stem) (hh : ShortHead h l) (hends : Text.EndedBy '}' (h ++ '#' :: n)) :
    ∃ b, Text.EndedBy '}' b ∧ (Qualified b ↔ Lacks referenceWords (h ++ '#' :: n)) ∧
      ∀ u, l ++ stem ++ '#' :: (n ++ u) = '~' :: (b ++ u) := by
  obtain ⟨k, rfl, hk⟩ := hh.directive hstem
  obtain ⟨halike, hqualified⟩ := hk n
  exact ⟨k ++ stem ++ '#' :: n, halike.endedBy_iff.2 hends, hqualified, fun u => by simp⟩

/-- A macro call with its stem put in is passed over. -/
theorem skipped_call (hstem : PlainStem stem) {s : Text} (hs : ∀ c ∈ s, c = ' ') (hn : '}' ∉ n) (r : Text) :
    Skipped ('*' :: (s ++ (stem ++ '#' :: n) ++ ['}'])) r := by
  have hclosing := hstem.smooth.2.2
  obtain ⟨d, stem, rfl⟩ := List.exists_cons_of_ne_nil hstem.1
  have hblank : d ≠ ' ' := hstem.ne (by simp) (by decide)
  have hhash : d ≠ '#' := hstem.ne (by simp) (by decide)
  exact .macroName hs (by simpa using hblank) (by simpa using hhash) (by simp_all)

/-- A macro call without an end with its stem put in is passed over, and so is the stem. -/
theorem longForm_openCall_again (hstem : PlainStem stem) {s : Text} (hs : ∀ c ∈ s, c = ' ') (hn : '}' ∉ n) :
    longForm stem ('{' :: '*' :: (s ++ (stem ++ '#' :: n))) = '{' :: '*' :: (s ++ (stem ++ '#' :: longForm stem n)) := by
  have hbrace := hstem.brace_not_mem
  have hplain : '{' ∉ stem ++ ['#'] := by simp [hbrace]
  have hrest : longForm stem (stem ++ '#' :: n) = stem ++ '#' :: longForm stem n := by
    simpa using longForm_append hbrace hplain n
  have hskipped : Skipped ('*' :: s) (stem ++ '#' :: n) := by
    have hclosing := hstem.smooth.2.2
    obtain ⟨d, stem, rfl⟩ := List.exists_cons_of_ne_nil hstem.1
    exact .openMacroName hs (hstem.ne (by simp) (by decide)) (hstem.ne (by simp) (by decide)) (by simp_all)
  have hlong := longForm_skipped hbrace hskipped
  rw [hrest] at hlong
  exact hlong

/-- **A stretch that is written out is written out again by itself**, and the second time it stays as it is when it is no
reference with a reference in it. -/
theorem Stretch.again (hstem : PlainStem stem) (h : Stretch a w r)
    (hends : ∀ x, Refers (a ++ r) x → Text.EndedBy '}' x) :
    ∃ y, longForm stem (w stem ++ longForm stem r) = y ++ longForm stem (longForm stem r) ∧
      (w stem).length ≤ y.length ∧ ((∀ x, Refers (a ++ r) x → Lacks referenceWords x) → y = w stem) := by
  have hbrace := hstem.brace_not_mem
  cases h with
  | @char c r hc =>
    exact ⟨[c], longForm_append_of_stretch hbrace (.char (r := longForm stem r) hc), Nat.le_refl _, fun _ => rfl⟩
  | skipped hs => exact ⟨_, longForm_append_of_stretch hbrace (.skipped (hs.longForm hstem)), Nat.le_refl _, fun _ => rfl⟩
  | @reference h l n r hh hn =>
    -- The one stretch that is read in another way the second time: its name and its condition are searched now.
    have href : Refers ('{' :: (h ++ '#' :: (n ++ ['}'])) ++ r) (h ++ '#' :: n) :=
      ⟨⟨h, l, n, hh, hn, rfl⟩, r, by simpa using Reaches.here _⟩
    obtain ⟨b, hb, hqualified, hw⟩ := hh.again hstem (hends _ href)
    simp only [hw]
    refine ⟨_, longForm_append_of_stretch hbrace (.directive hb), ?_, fun hlacks => ?_⟩
    · simpa using length_le_spelled stem b
    · rw [(spelled_eq_self_iff hstem.1).2 (hqualified.2 (hlacks _ href))]
  | @caret b r hb =>
    have hagain := (endsAlike_spelled hstem ('.' :: b)).endedBy_iff.2 hb
    have hlong := longForm_append_of_stretch hbrace (.directive (r := longForm stem r) hagain)
    simp only [spelled_spelled hstem] at hlong
    exact ⟨_, hlong, Nat.le_refl _, fun _ => rfl⟩
  | @directive b r hb =>
    have hagain := (endsAlike_spelled hstem b).endedBy_iff.2 hb
    have hlong := longForm_append_of_stretch hbrace (.directive (r := longForm stem r) hagain)
    simp only [spelled_spelled hstem] at hlong
    exact ⟨_, hlong, Nat.le_refl _, fun _ => rfl⟩
  | @call s n r hs hn =>
    have hlong := longForm_append_of_stretch hbrace (.skipped (skipped_call hstem hs hn (longForm stem r)))
    exact ⟨'{' :: '*' :: (s ++ stem ++ '#' :: (n ++ ['}'])), by simpa using hlong, Nat.le_refl _, fun _ => rfl⟩
  | @openCall s n hs hn =>
    have hlong := longForm_openCall_again hstem hs (closing_not_mem_longForm hstem r hn)
    exact ⟨'{' :: '*' :: (s ++ stem ++ ['#']), by simpa using hlong, Nat.le_refl _, fun _ => rfl⟩

theorem Tail.again (hstem : PlainStem stem) (h : Tail t w) (hends : ∀ x, RefersOpen t x → Text.Escapes '}' x) :
    longForm stem (w stem) = w stem := by
  have hbrace := hstem.brace_not_mem
  cases h with
  | nil => exact longForm_of_tail hbrace .nil
  | brace => exact longForm_of_tail hbrace .brace
  | stopped ht => exact longForm_of_tail hbrace (.stopped ht)
  | @reference h l n hh hn =>
    obtain ⟨k, rfl, hk⟩ := hh.directive hstem
    have hescapes := (hk n).1.escapes_iff.2 (hends _ ⟨⟨h, _, n, hh, hn, rfl⟩, .here _⟩)
    simpa using longForm_of_tail hbrace (.stopped (.directive hescapes))
  | caret hb => exact longForm_of_tail hbrace (.stopped (.directive hb))

/-! ### Whole texts -/

/-- Where a text comes out as it was the second time, so does the text behind each of its stretches. -/
theorem longForm_again_of_reaches (hstem : PlainStem stem) (h : Reaches t u) (hends : EndsAgree t)
    (heq : longForm stem (longForm stem t) = longForm stem t) : longForm stem (longForm stem u) = longForm stem u := by
  induction h with
  | here t => exact heq
  | @later a r u w hs hr ih =>
    obtain ⟨y, hy, hlength, -⟩ := hs.again hstem hends.closed
    rw [longForm_append_of_stretch hstem.brace_not_mem hs, hy] at heq
    have hle := length_le_longForm hstem.brace_not_mem (longForm stem r)
    have hsum := congrArg List.length heq
    rw [List.length_append, List.length_append] at hsum
    -- Neither the stretch nor the text behind it got shorter, so each of them is as long as it was.
    exact ih (hends.of_stretch hs) (List.append_inj heq (by omega)).2

/-- A reference that comes out as it was the second time holds no reference. -/
theorem lacks_references_of_again (hstem : PlainStem stem) (hx : IsReference x) (hends : Text.EndedBy '}' x)
    (heq : longForm stem (longForm stem ('{' :: (x ++ '}' :: r))) = longForm stem ('{' :: (x ++ '}' :: r))) :
    Lacks referenceWords x := by
  obtain ⟨h, l, n, hh, hn, rfl⟩ := hx
  obtain ⟨b, hb, hqualified, hw⟩ := hh.again hstem hends
  have hfirst : longForm stem ('{' :: (h ++ '#' :: n ++ '}' :: r)) = '{' :: '~' :: (b ++ ['}']) ++ longForm stem r := by
    have hlong := longForm_append_of_stretch hstem.brace_not_mem (.reference (r := r) hh hn)
    simp only [hw] at hlong
    simpa using hlong
  rw [hfirst] at heq
  have hkept := ((Stretch.directive hb).kept hstem.brace_not_mem heq).1
  simp only [List.cons.injEq, true_and, List.append_left_inj] at hkept
  exact hqualified.1 ((spelled_eq_self_iff hstem.1).1 hkept)

/-- **A text comes out as it was the second time when no reference in it holds a reference.** -/
theorem longForm_again_of_lacks (hstem : PlainStem stem) (t : Text) (hends : EndsAgree t)
    (hlacks : ∀ x, Refers t x → Lacks referenceWords x) : longForm stem (longForm stem t) = longForm stem t := by
  induction t using stretch_induction with
  | tail h => rw [longForm_of_tail hstem.brace_not_mem h, h.again hstem hends.unclosed]
  | @stretch a w r hs ih =>
    obtain ⟨y, hy, -, hkept⟩ := hs.again hstem hends.closed
    rw [longForm_append_of_stretch hstem.brace_not_mem hs, hy, hkept hlacks,
      ih (hends.of_stretch hs) fun x hx => hlacks x (hx.later hs)]

/-- **Writing tags out again changes nothing exactly when nothing short or left out is come to in the text that was written
out.**  Where references end alike as directives, these are the texts in which no reference holds a reference. -/
theorem longForm_again_iff (hstem : PlainStem stem) (t : Text) :
    (longForm stem (longForm stem t) = longForm stem t ↔ ∀ u, Reaches (longForm stem t) u → ¬ Abbreviated stem u) ∧
      (EndsAgree t →
        (longForm stem (longForm stem t) = longForm stem t ↔ ∀ x, Refers t x → Lacks referenceWords x)) := by
  refine ⟨longForm_eq_self_iff hstem.brace_not_mem, fun hends => ⟨fun heq x hx => ?_, longForm_again_of_lacks hstem t hends⟩⟩
  obtain ⟨r, hr⟩ := hx.2
  exact lacks_references_of_again hstem hx.1 (hends.closed x hx) (longForm_again_of_reaches hstem hr hends heq)

/-- A reference with a reference in its name, and nothing else: the name is not looked at until the second time. -/
theorem longForm_again_iff_within_name :
    PlainStem ['p'] ∧ EndsAgree "\x7b+#a(+#b)\x7d".toList ∧ Refers "\x7b+#a(+#b)\x7d".toList "+#a(+#b)".toList ∧
      longForm ['p'] (longForm ['p'] "\x7b+#a(+#b)\x7d".toList) ≠ longForm ['p'] "\x7b+#a(+#b)\x7d".toList := by
  have hx : IsReference "+#a(+#b)".toList := ⟨['+'], includeWord, "a(+#b)".toList, .bare, by decide, rfl⟩
  have href : Refers "\x7b+#a(+#b)\x7d".toList "+#a(+#b)".toList := ⟨hx, [], .here _⟩
  -- The reference has the one open brace of the text, and the one closing brace behind it.
  have hwhole : ∀ {y}, Reaches "\x7b+#a(+#b)\x7d".toList ('{' :: y) → y = "+#a(+#b)".toList ++ ['}'] := fun hr => by
    simpa [List.suffix_cons_iff] using hr.suffix
  have hends : EndsAgree "\x7b+#a(+#b)\x7d".toList := by
    constructor
    · rintro x ⟨-, r, hr⟩
      have hclosing : '}' ∉ "+#a(+#b)".toList := by decide
      obtain ⟨y, hname, hy⟩ | ⟨y, rfl, hy⟩ := List.append_eq_append_iff.1 (hwhole hr)
      · rcases y with _ | ⟨c, y⟩
        · rw [List.append_nil] at hname
          rw [← hname]
          decide
        · obtain ⟨rfl, -⟩ := List.cons.inj hy
          exact absurd (hname ▸ by simp) hclosing
      · obtain rfl : y = [] := by cases y <;> simp_all
        decide
    · rintro x ⟨⟨h, l, n, hh, hn, rfl⟩, hr⟩
      have heq := hwhole hr
      cases hh with
      | bare => simp_all
      | conditional hc => simp at heq
  refine ⟨by decide, hends, href, fun heq => ?_⟩
  have hlacks := ((longForm_again_iff (by decide) _).2 hends).1 heq _ href
  exact hlacks ['(', '+', '#'] (by decide) ⟨['+', '#', 'a'], "b)".toList, rfl⟩

/-- The reference in the name of a reference stays short for the first time. -/
theorem reference_within_reference_left_short :
    PlainStem "page".toList ∧
      longForm "page".toList (longForm "page".toList "\x7b+#a|nomatch(+#b)\x7d".toList) ≠
        longForm "page".toList "\x7b+#a|nomatch(+#b)\x7d".toList := by
  decide

end Tag
end Templates
