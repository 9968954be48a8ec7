import Templates.Proofs.Stretches
/-!
# Texts that are their own long form

Writing tags out never makes a text shorter (`length_le_longForm`), and a stretch that keeps its length stays as it is.  So
a text is its own long form exactly when the work on it comes to nothing that is short or left out
(`longForm_eq_self_iff`).  Without a closing brace no directive has an end, and it is the short forms alone that count: a
tag without an end is written out, too, when it is short, and behind a macro call without an end the work goes on
(`longForm_unended_iff`).
-/
namespace Templates
namespace Tag

/-- A short form at the start of a text: a reference, a caret, or a macro call that leaves out a stem that is not empty. -/
inductive Short (stem : Text) : Text → Prop where
  | reference {h l t : Text} (hh : ShortHead h l) : Short stem ('{' :: (h ++ '#' :: t))
  | caret {t : Text} : Short stem ('{' :: '^' :: t)
  | call {s t : Text} (hs : ∀ c ∈ s, c = ' ') (hstem : stem ≠ []) : Short stem ('{' :: '*' :: (s ++ '#' :: t))

/-- A short form, or a directive with something left out, at the start of a text. -/
inductive Abbreviated (stem : Text) : Text → Prop where
  | short {t : Text} (h : Short stem t) : Abbreviated stem t
  | directive {b r : Text} (hb : Text.EndedBy '}' b) (h : spelled stem b ≠ b) :
      Abbreviated stem ('{' :: '~' :: (b ++ '}' :: r))

variable {stem a r t u h l : Text} {w : Text → Text}

/-! ### Nothing gets shorter -/

theorem Change.length_result_pos (stem : Text) (c : Char) (k : Change) : 1 ≤ (k.result stem c).length := by
  cases k <;> simp [Change.result, includeWord, includeIfWord]

theorem Plan.length_source_le (stem : Text) : ∀ p : Plan, (source p).length ≤ (result stem p).length
  | [] => Nat.le_refl 0
  | x :: p => by
    have := Change.length_result_pos stem x.1 x.2
    have := Plan.length_source_le stem p
    simp only [source_cons, result_cons, List.length_append, List.length_cons]
    omega

theorem length_le_spelled (stem : Text) : ∀ b : Text, b.length ≤ (spelled stem b).length
  | [] => Nat.zero_le _
  | c :: t => by
    obtain ⟨p, -, rfl, hresult⟩ := exists_plan_qualify c t
    rw [← qualify_eq_spelled, ← hresult]
    exact Plan.length_source_le stem ((c, .kept) :: p)

theorem ShortHead.length_lt (hh : ShortHead h l) : h.length < l.length := by
  cases hh <;> simp [includeWord, includeIfWord]

theorem Stretch.length_le (h : Stretch a w r) (stem : Text) : a.length ≤ (w stem).length := by
  cases h with
  | char => exact Nat.le_refl _
  | skipped => exact Nat.le_refl _
  | reference hh =>
    have := hh.length_lt
    simp
    omega
  | @caret b =>
    have := length_le_spelled stem ('.' :: b)
    simp at this ⊢
    omega
  | @directive b =>
    have := length_le_spelled stem b
    simp
    omega
  | call => simp
  | openCall => simp

theorem Tail.length_le (h : Tail t w) (stem : Text) : t.length ≤ (w stem).length := by
  cases h with
  | nil => exact Nat.le_refl _
  | brace => exact Nat.le_refl _
  | stopped => exact Nat.le_refl _
  | reference hh =>
    have := hh.length_lt
    simp
    omega
  | caret => simp

/-- **Writing tags out makes no text shorter.** -/
theorem length_le_longForm (hstem : '{' ∉ stem) (t : Text) : t.length ≤ (longForm stem t).length := by
  induction t using stretch_induction with
  | tail h =>
    rw [longForm_of_tail hstem h]
    exact h.length_le stem
  | stretch h ih =>
    have := h.length_le stem
    rw [longForm_append_of_stretch hstem h, List.length_append, List.length_append]
    omega

/-- In a text that is its own long form each stretch stays as it is, and so does the text behind it. -/
theorem Stretch.kept (hstem : '{' ∉ stem) (h : Stretch a w r) (heq : longForm stem (a ++ r) = a ++ r) :
    w stem = a ∧ longForm stem r = r := by
  rw [longForm_append_of_stretch hstem h] at heq
  have hstretch := h.length_le stem
  have hrest := length_le_longForm hstem r
  have hlength := congrArg List.length heq
  rw [List.length_append, List.length_append] at hlength
  exact List.append_inj heq (by omega)

/-! ### What is written out -/

theorem longForm_directive_start (hstem : '{' ∉ stem) (t : Text) :
    ∃ u, longForm stem ('{' :: '~' :: t) = '{' :: '~' :: u := by
  rcases Text.escapes_or_endedBy '}' t with hb | ⟨b, r, rfl, hb⟩
  · exact ⟨_, longForm_of_tail hstem (.stopped (.directive hb))⟩
  · exact ⟨_, longForm_directive hstem hb r⟩

theorem longForm_shortReference (hstem : '{' ∉ stem) (hh : ShortHead h l) (t : Text) :
    ∃ u, longForm stem ('{' :: (h ++ '#' :: t)) = '{' :: (l ++ u) := by
  have hpass := passBrace_shortReference hh stem t
  rcases Text.not_mem_or_first '}' t with hn | ⟨n, r, rfl, hn⟩
  · have hlong := longForm_toBrace_open (p := []) hstem List.not_mem_nil hpass hn
    exact ⟨stem ++ '#' :: t, by simpa using hlong⟩
  · have hlong := longForm_toBrace (p := []) hstem List.not_mem_nil r hpass hn
    exact ⟨stem ++ '#' :: (n ++ '}' :: longForm stem r), by simpa using hlong⟩

theorem length_lt_longForm_call (hstem : '{' ∉ stem) {s : Text} (hs : ∀ c ∈ s, c = ' ') (hne : stem ≠ []) (t : Text) :
    ('{' :: '*' :: (s ++ '#' :: t)).length < (longForm stem ('{' :: '*' :: (s ++ '#' :: t))).length := by
  have hpos := List.length_pos_iff.2 hne
  rcases Text.not_mem_or_first '}' t with hn | ⟨n, r, rfl, hn⟩
  · have hlong := longForm_append_of_stretch hstem (.openCall hs hn)
    have hle := length_le_longForm hstem t
    simp only [List.cons_append, List.append_assoc, List.nil_append] at hlong
    rw [hlong]
    simp
    omega
  · have hlong := longForm_append_of_stretch hstem (.call (r := r) hs hn)
    have hle := length_le_longForm hstem r
    simp only [List.cons_append, List.append_assoc, List.nil_append] at hlong
    rw [hlong]
    simp
    omega

theorem Short.longForm_ne (hstem : '{' ∉ stem) (h : Short stem t) : longForm stem t ≠ t := by
  intro heq
  cases h with
  | @reference h l t hh =>
    obtain ⟨u, hu⟩ := longForm_shortReference hstem hh t
    rw [hu] at heq
    cases hh <;> simp [includeWord, includeIfWord] at heq
  | @caret t =>
    obtain ⟨u, hu⟩ := longForm_directive_start hstem ('.' :: t)
    rw [longForm_caret hstem, hu] at heq
    simp at heq
  | @call s t hs hne =>
    have := length_lt_longForm_call hstem hs hne t
    rw [heq] at this
    exact Nat.lt_irrefl _ this

theorem Abbreviated.longForm_ne (hstem : '{' ∉ stem) (h : Abbreviated stem t) : longForm stem t ≠ t := by
  cases h with
  | short h => exact h.longForm_ne hstem
  | @directive b r hb hspelled =>
    intro heq
    have hkept := (Stretch.directive (r := r) hb).kept hstem (by simpa using heq)
    simp only [List.cons.injEq, true_and] at hkept
    exact hspelled (List.append_cancel_right hkept.1)

/-- A stretch stays as it is when nothing in it is short or left out. -/
theorem Stretch.kept_of_not_abbreviated (h : Stretch a w r) (hnot : ¬ Abbreviated stem (a ++ r)) : w stem = a := by
  cases h with
  | char => rfl
  | skipped => rfl
  | @reference h l n r hh hn =>
    have hshort : Short stem ('{' :: (h ++ '#' :: (n ++ '}' :: r))) := .reference hh
    exact absurd (.short (by simpa using hshort)) hnot
  | caret => exact absurd (.short .caret) hnot
  | @directive b r hb =>
    by_contra hne
    have hspelled : spelled stem b ≠ b := fun heq => hne (by simp only [heq])
    have hleft : Abbreviated stem ('{' :: '~' :: (b ++ '}' :: r)) := .directive hb hspelled
    exact hnot (by simpa using hleft)
  | @call s n r hs hn =>
    by_contra hne
    have hshort : Short stem ('{' :: '*' :: (s ++ '#' :: (n ++ '}' :: r))) := .call hs fun heq => hne (by simp [heq])
    exact hnot (.short (by simpa using hshort))
  | @openCall s n hs hn =>
    by_contra hne
    have hshort : Short stem ('{' :: '*' :: (s ++ '#' :: r)) := .call hs fun heq => hne (by simp [heq])
    exact hnot (.short (by simpa using hshort))

/-- **A text is its own long form exactly when nothing short or left out is come to in it.** -/
theorem longForm_eq_self_iff (hstem : '{' ∉ stem) : longForm stem t = t ↔ ∀ u, Reaches t u → ¬ Abbreviated stem u := by
  constructor
  · -- Along the stretches: each stays as it is, and the text behind it is its own long form, too.
    intro heq u hu
    induction hu with
    | here t => exact fun h => h.longForm_ne hstem heq
    | later h hr ih => exact ih (h.kept hstem heq).2
  · intro hnot
    induction t using stretch_induction with
    | tail h =>
      rw [longForm_of_tail hstem h]
      cases h with
      | nil => rfl
      | brace => rfl
      | stopped => rfl
      | reference hh => exact absurd (.short (.reference hh)) (hnot _ (.here _))
      | caret => exact absurd (.short .caret) (hnot _ (.here _))
    | stretch h ih =>
      have hrest := ih fun u hu => hnot u (.later h hu)
      rw [longForm_append_of_stretch hstem h, hrest, h.kept_of_not_abbreviated (hnot _ (.here _))]

/-- **A text without a closing brace stays as it is exactly when the work on it comes to no short form.** -/
theorem longForm_unended_iff {p : Text} (hstem : '{' ∉ stem) (hp : '{' ∉ p) (ht : '}' ∉ t) :
    longForm stem (p ++ t) = p ++ t ↔ ∀ u, Reaches t u → ¬ Short stem u := by
  rw [longForm_append hstem hp, List.append_cancel_left_eq, longForm_eq_self_iff hstem]
  refine forall₂_congr fun u hu => not_congr ⟨fun h => ?_, .short⟩
  cases h with
  | short h => exact h
  | directive hb hspelled => exact absurd (hu.suffix.subset (by simp)) ht

/-- Behind a condition without a reference the work comes to a reference without an end. -/
theorem longForm_unended_iff_behind_condition :
    '{' ∉ ['p'] ∧ '{' ∉ ['a'] ∧ '}' ∉ "\x7b+(c) \x7b+#b".toList ∧
      longForm ['p'] ("a".toList ++ "\x7b+(c) \x7b+#b".toList) ≠ "a".toList ++ "\x7b+(c) \x7b+#b".toList := by
  have hreaches : Reaches "\x7b+(c) \x7b+#b".toList "\x7b+#b".toList :=
    .later (.skipped (.condition (c := ['c']) (by decide) (by decide))) (.later (.char (by decide)) (.here _))
  have hshort : Short ['p'] "\x7b+#b".toList := .reference .bare
  refine ⟨by decide, by decide, by decide, fun heq => ?_⟩
  exact (longForm_unended_iff (by decide) (by decide) (by decide)).1 heq _ hreaches hshort

/-- Neither a macro call nor a reference without an end stops the work before it is changed. -/
theorem unended_call_and_reference_written_out :
    '{' ∉ "page".toList ∧ '}' ∉ "\x7b*a \x7b+#b".toList ∧
      longForm "page".toList "\x7b*a \x7b+#b".toList = "\x7b*a \x7b~.include.page#b".toList := by
  decide

end Tag
end Templates
