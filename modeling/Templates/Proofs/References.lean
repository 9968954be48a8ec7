import Mathlib.Data.List.Infix
import Templates.Proofs.OwnLongForms
/-!
# Directives with nothing left out

A directive keeps its text exactly when no reference, or no argument of a loop or a grid, is without its stem in it
(`spelled_eq_self_iff`).  With a plain stem, that is one of letters, digits, dashes and slashes, nothing is left out once a
directive is written out (`spelled_spelled`), and the directive ends where it did (`endsAlike_spelled`).
-/
namespace Templates
namespace Text

/-- Two texts that may stand for each other before a closing brace: neither escapes it where the other does not. -/
def EndsAlike (s t : Text) : Prop :=
  ∀ e, escapedBehind e s = escapedBehind e t ∧ (EscapesBehind e '}' s ↔ EscapesBehind e '}' t)

variable {s t u v : Text} {c : Char} {e : Bool}

theorem escapesBehind_append : ∀ {e : Bool} {s : Text},
    EscapesBehind e c (s ++ t) ↔ EscapesBehind e c s ∧ EscapesBehind (escapedBehind e s) c t
  | e, [] => by simp [EscapesBehind]
  | e, d :: s => by
    rw [List.cons_append, escapesBehind_cons, escapesBehind_cons, escapesBehind_append, escapedBehind_cons, and_assoc]

theorem escapedBehind_of_not_mem (h : '\\' ∉ t) (hne : t ≠ []) : escapedBehind e t = false := by
  obtain ⟨s, d, rfl⟩ := (List.eq_nil_or_concat t).resolve_left hne
  rw [List.concat_eq_append] at h ⊢
  have hd : d ≠ '\\' := fun hd => h (by simp [hd])
  rw [escapedBehind_append]
  simp [hd]

theorem escapesBehind_of_not_mem (h : c ∉ t) : EscapesBehind e c t := fun a b hab => absurd (by simp [hab]) h

/-- A text in which every character of a kind is escaped is ended by the next one behind other text. -/
theorem Escapes.endedBy_append (h : Escapes c t) (hc : c ∉ u) (hslash : '\\' ∉ u) (hne : u ≠ []) : EndedBy c (t ++ u) := by
  rw [EndedBy, ← escapedBehind_iff, ← escapesBehind_false_iff, escapedBehind_append, escapesBehind_append,
    escapedBehind_of_not_mem hslash hne, escapesBehind_false_iff]
  exact ⟨by simp, h, escapesBehind_of_not_mem hc⟩

theorem EndsAlike.refl (t : Text) : EndsAlike t t := fun _ => ⟨rfl, Iff.rfl⟩

theorem EndsAlike.append (h : EndsAlike s t) (h' : EndsAlike u v) : EndsAlike (s ++ u) (t ++ v) := by
  intro e
  rw [escapedBehind_append, escapedBehind_append, escapesBehind_append, escapesBehind_append, (h e).1, (h e).2,
    (h' (escapedBehind e t)).1, (h' (escapedBehind e t)).2]
  exact ⟨rfl, Iff.rfl⟩

/-- A text without backslashes and closing braces. -/
def Smooth (t : Text) : Prop := t ≠ [] ∧ '\\' ∉ t ∧ '}' ∉ t

instance (t : Text) : Decidable (Smooth t) := inferInstanceAs (Decidable (_ ∧ _))

theorem Smooth.append (hs : Smooth s) (ht : Smooth t) : Smooth (s ++ t) :=
  ⟨by simp [hs.1], by simp [hs.2.1, ht.2.1], by simp [hs.2.2, ht.2.2]⟩

theorem EndsAlike.of_smooth (hs : Smooth s) (ht : Smooth t) : EndsAlike s t := by
  intro e
  rw [escapedBehind_of_not_mem hs.2.1 hs.1, escapedBehind_of_not_mem ht.2.1 ht.1]
  exact ⟨rfl, iff_of_true (escapesBehind_of_not_mem hs.2.2) (escapesBehind_of_not_mem ht.2.2)⟩

theorem EndsAlike.escapes_iff (h : EndsAlike s t) : Escapes '}' s ↔ Escapes '}' t := by
  rw [← escapesBehind_false_iff, ← escapesBehind_false_iff, (h false).2]

theorem EndsAlike.endedBy_iff (h : EndsAlike s t) : EndedBy '}' s ↔ EndedBy '}' t := by
  rw [EndedBy, EndedBy, ← escapedBehind_iff, ← escapedBehind_iff, (h false).1, h.escapes_iff]

end Text

namespace Tag

/-- The references of a directive without their stem, to the hash sign. -/
def referenceWords : List Text := [[',', '+', '#'], [':', '+', '#'], ['(', '+', '#'], [')', '.', '#'], ['e', '.', '#']]

/-- What starts an argument of a loop or a grid without its stem, to the hash sign. -/
def argumentWords : List Text := [['"', '#'], [',', '#'], [' ', '#'], ['(', '#']]

/-- None of these words stands in a text. -/
def Lacks (words : List Text) (t : Text) : Prop := ∀ x ∈ words, ¬ x <:+: t

/-- A directive in which no stem is left out. -/
def Qualified (b : Text) : Prop :=
  Lacks (if loopWord <+: b ∨ gridWord <+: b then argumentWords else referenceWords) b

/-- A stem of letters, digits, dashes, underscores and slashes, and not without any. -/
def PlainStem (stem : Text) : Prop := stem ≠ [] ∧ ∀ c ∈ stem, c.isAlphanum ∨ c ∈ ['-', '_', '/']

instance (words : List Text) (t : Text) : Decidable (Lacks words t) := inferInstanceAs (Decidable (∀ x ∈ words, _))

instance (b : Text) : Decidable (Qualified b) := inferInstanceAs (Decidable (Lacks _ _))

instance (stem : Text) : Decidable (PlainStem stem) := @instDecidableAnd _ _ inferInstance (List.decidableBAll _ stem)

variable {stem b t : Text} {c d e : Char} {words : List Text}

theorem PlainStem.not_mem (h : PlainStem stem) (hc : ¬ (c.isAlphanum ∨ c ∈ ['-', '_', '/'])) : c ∉ stem :=
  fun hmem => hc (h.2 c hmem)

theorem PlainStem.ne (h : PlainStem stem) (hd : d ∈ stem) (hc : ¬ (c.isAlphanum ∨ c ∈ ['-', '_', '/'])) : d ≠ c :=
  ne_of_mem_of_not_mem hd (h.not_mem hc)

theorem PlainStem.brace_not_mem (hstem : PlainStem stem) : '{' ∉ stem := hstem.not_mem (by decide)

theorem PlainStem.smooth (h : PlainStem stem) : Text.Smooth stem :=
  ⟨h.1, h.not_mem (by decide), h.not_mem (by decide)⟩

theorem lacks_cons : Lacks words (c :: t) ↔ (∀ x ∈ words, ¬ x <+: c :: t) ∧ Lacks words t := by
  simp only [Lacks, List.infix_cons_iff, not_or]
  exact ⟨fun h => ⟨fun x hx => (h x hx).1, fun x hx => (h x hx).2⟩, fun h x hx => ⟨h.1 x hx, h.2 x hx⟩⟩

/-! ### References -/

theorem starts_no_reference_iff :
    (∀ x ∈ referenceWords, ¬ x <+: c :: d :: e :: t) ↔
      ¬ (e = '#' ∧ d = '+' ∧ startsBareReference c) ∧ ¬ (e = '#' ∧ d = '.' ∧ endsDirectiveHead c) := by
  simp only [referenceWords, startsBareReference, endsDirectiveHead, List.forall_mem_cons, List.cons_prefix_cons,
    List.nil_prefix, List.not_mem_nil, false_implies, implies_true, and_true, Bool.or_eq_true, beq_iff_eq]
  grind

theorem lacks_references_cons_of_second (hplus : d ≠ '+') (hdot : d ≠ '.') :
    Lacks referenceWords (c :: d :: t) ↔ Lacks referenceWords (d :: t) := by
  rw [lacks_cons, and_iff_right]
  simp [referenceWords, List.cons_prefix_cons, hplus.symm, hdot.symm]

theorem lacks_references_cons_of_third (he : e ≠ '#') :
    Lacks referenceWords (c :: d :: e :: t) ↔ Lacks referenceWords (d :: e :: t) := by
  rw [lacks_cons, starts_no_reference_iff, and_iff_right]
  simp [he]

theorem lacks_references_append : ∀ {s : Text}, Lacks referenceWords (s ++ ')' :: t) ↔
    Lacks referenceWords s ∧ Lacks referenceWords (')' :: t)
  | [] => (and_iff_right (by decide)).symm
  | [c] => by
    rw [List.singleton_append, lacks_references_cons_of_second (by decide) (by decide)]
    simp [Lacks, referenceWords, List.infix_cons_iff]
  | [c, d] => by
    have hpair : Lacks referenceWords [c, d] := by simp [Lacks, referenceWords, List.infix_cons_iff]
    rw [List.cons_append, List.singleton_append, lacks_references_cons_of_third (by decide),
      lacks_references_cons_of_second (by decide) (by decide), and_iff_right hpair]
  | c :: d :: e :: s => by
    have hrest := lacks_references_append (s := d :: e :: s)
    simp only [List.cons_append] at hrest ⊢
    rw [lacks_cons, hrest, lacks_cons (t := d :: e :: s), starts_no_reference_iff, starts_no_reference_iff, ← and_assoc]

theorem length_le_qualifyReferences (stem : Text) (c : Char) (t : Text) :
    (c :: t).length ≤ (qualifyReferences stem (c :: t)).length := by
  obtain ⟨p, -, rfl, hresult⟩ := exists_plan_qualifyReferences c t
  rw [← hresult]
  exact Plan.length_source_le stem ((c, .kept) :: p)

theorem qualifyReferences_eq_self_iff (hstem : stem ≠ []) : ∀ b : Text,
    qualifyReferences stem b = b ↔ Lacks referenceWords b
  | [] => iff_of_true rfl (by decide)
  | [c] => iff_of_true rfl (by simp [Lacks, referenceWords, List.infix_cons_iff])
  | [c, d] => iff_of_true rfl (by simp [Lacks, referenceWords, List.infix_cons_iff])
  | c :: d :: e :: t => by
    rw [lacks_cons, starts_no_reference_iff, qualifyReferences]
    by_cases hbare : e = '#' ∧ d = '+' ∧ startsBareReference c
    · rw [if_pos hbare]
      refine iff_of_false (fun heq => ?_) fun h => h.1.1 hbare
      simp [includeWord, hbare] at heq
    by_cases hhead : e = '#' ∧ d = '.' ∧ endsDirectiveHead c
    · rw [if_neg hbare, if_pos hhead]
      refine iff_of_false (fun heq => ?_) fun h => h.1.2 hhead
      have hlength := congrArg List.length heq
      have hle := length_le_qualifyReferences stem e t
      have hpos := List.length_pos_iff.2 hstem
      simp at hlength hle
      omega
    · rw [if_neg hbare, if_neg hhead, List.cons_inj_right, qualifyReferences_eq_self_iff hstem (d :: e :: t)]
      simp [hbare, hhead]

theorem qualifyReferences_cons (stem : Text) (c : Char) (t : Text) : ∃ y, qualifyReferences stem (c :: t) = c :: y := by
  obtain ⟨p, -, -, hresult⟩ := exists_plan_qualifyReferences c t
  exact ⟨Plan.result stem p, (hresult stem).symm⟩

/-- The second character of a directive stays, or a reference is written for it. -/
theorem qualifyReferences_cons_cons (stem : Text) (c d : Char) (t : Text) :
    ∃ x y, qualifyReferences stem (c :: d :: t) = c :: x :: y ∧ (x = d ∨ x = '~') := by
  cases t with
  | nil => exact ⟨d, [], rfl, .inl rfl⟩
  | cons e t =>
    rw [qualifyReferences]
    split
    · exact ⟨'~', _, rfl, .inr rfl⟩
    · split
      · exact ⟨d, _, rfl, .inl rfl⟩
      · obtain ⟨y, hy⟩ := qualifyReferences_cons stem d (e :: t)
        exact ⟨d, y, by rw [hy], .inl rfl⟩

theorem lacks_references_stem (hstem : PlainStem stem) (t : Text) :
    Lacks referenceWords (stem ++ '#' :: t) ↔ Lacks referenceWords ('#' :: t) := by
  have hplain : ∀ c ∈ stem, c ≠ '+' ∧ c ≠ '.' := fun c hc => ⟨hstem.ne hc (by decide), hstem.ne hc (by decide)⟩
  clear hstem
  induction stem with
  | nil => rfl
  | cons c stem ih =>
    refine Iff.trans ?_ (ih fun d hd => hplain d (List.mem_cons_of_mem c hd))
    cases stem with
    | nil => exact lacks_references_cons_of_second (by decide) (by decide)
    | cons d stem =>
      obtain ⟨hplus, hdot⟩ := hplain d (by simp)
      exact lacks_references_cons_of_second hplus hdot

/-- Where a plain stem stands between a dot and a hash sign, the dot makes no reference. -/
theorem lacks_references_dot_stem (hstem : PlainStem stem) (c : Char) (t : Text) :
    Lacks referenceWords (c :: '.' :: (stem ++ '#' :: t)) ↔ Lacks referenceWords ('#' :: t) := by
  rw [← lacks_references_stem hstem]
  obtain ⟨s, stem, rfl⟩ := List.exists_cons_of_ne_nil hstem.1
  have hne : ∀ {d : Char}, ¬ (d.isAlphanum ∨ d ∈ ['-', '_', '/']) → s ≠ d := hstem.ne (by simp)
  rw [List.cons_append, lacks_references_cons_of_third (hne (by decide)),
    lacks_references_cons_of_second (hne (by decide)) (hne (by decide))]

theorem lacks_references_includeWord (hstem : PlainStem stem) (c : Char) (t : Text) :
    Lacks referenceWords (c :: (includeWord ++ stem ++ '#' :: t)) ↔ Lacks referenceWords ('#' :: t) := by
  rw [← lacks_references_dot_stem hstem 'e']
  simp [includeWord, lacks_references_cons_of_third]

/-- **With a plain stem no reference is left in a directive that is written out.** -/
theorem lacks_qualifyReferences (hstem : PlainStem stem) : ∀ b : Text, Lacks referenceWords (qualifyReferences stem b)
  | [] => (qualifyReferences_eq_self_iff hstem.1 []).1 rfl
  | [c] => (qualifyReferences_eq_self_iff hstem.1 [c]).1 rfl
  | [c, d] => (qualifyReferences_eq_self_iff hstem.1 [c, d]).1 rfl
  | c :: d :: e :: t => by
    have hhash := lacks_qualifyReferences hstem (e :: t)
    have hnext := lacks_qualifyReferences hstem (d :: e :: t)
    obtain ⟨y, hy⟩ := qualifyReferences_cons stem e t
    obtain ⟨x, z, hz, hx⟩ := qualifyReferences_cons_cons stem d e t
    rw [hy] at hhash
    rw [hz] at hnext
    rw [qualifyReferences, hy, hz]
    split
    · next hbare =>
      obtain ⟨rfl, -, -⟩ := hbare
      exact (lacks_references_includeWord hstem c y).2 hhash
    · next hbare =>
      split
      · next hhead =>
        obtain ⟨rfl, rfl, -⟩ := hhead
        exact (lacks_references_dot_stem hstem c y).2 hhash
      · next hhead =>
        rw [lacks_cons, starts_no_reference_iff]
        refine ⟨?_, hnext⟩
        -- The second character is the one that was there, or the tilde of a reference, and the tilde makes none.
        rcases hx with rfl | rfl
        · exact ⟨hbare, hhead⟩
        · simp

/-! ### Arguments -/

theorem starts_no_argument_iff :
    (∀ x ∈ argumentWords, ¬ x <+: c :: d :: t) ↔ ¬ (d = '#' ∧ startsArgument c) := by
  simp only [argumentWords, startsArgument, List.forall_mem_cons, List.cons_prefix_cons, List.nil_prefix,
    List.not_mem_nil, false_implies, implies_true, and_true, Bool.or_eq_true, beq_iff_eq]
  grind

theorem qualifyArguments_cons (stem : Text) (c : Char) (t : Text) : ∃ y, qualifyArguments stem (c :: t) = c :: y := by
  obtain ⟨p, -, -, hresult⟩ := exists_plan_qualifyArguments c t
  exact ⟨Plan.result stem p, (hresult stem).symm⟩

theorem length_le_qualifyArguments (stem : Text) (c : Char) (t : Text) :
    (c :: t).length ≤ (qualifyArguments stem (c :: t)).length := by
  obtain ⟨p, -, rfl, hresult⟩ := exists_plan_qualifyArguments c t
  rw [← hresult]
  exact Plan.length_source_le stem ((c, .kept) :: p)

theorem qualifyArguments_eq_self_iff (hstem : stem ≠ []) : ∀ b : Text,
    qualifyArguments stem b = b ↔ Lacks argumentWords b
  | [] => iff_of_true rfl (by decide)
  | [c] => iff_of_true rfl (by simp [Lacks, argumentWords, List.infix_cons_iff])
  | c :: d :: t => by
    rw [lacks_cons, starts_no_argument_iff, qualifyArguments]
    split
    · next h =>
      refine iff_of_false (fun heq => ?_) fun hlacks => hlacks.1 h
      have hlength := congrArg List.length heq
      have hle := length_le_qualifyArguments stem d t
      have hpos := List.length_pos_iff.2 hstem
      simp at hlength hle
      omega
    · next h => rw [List.cons_inj_right, qualifyArguments_eq_self_iff hstem (d :: t), and_iff_right h]

theorem lacks_arguments_cons (h : ¬ (d = '#' ∧ startsArgument c)) :
    Lacks argumentWords (c :: d :: t) ↔ Lacks argumentWords (d :: t) := by
  rw [lacks_cons, starts_no_argument_iff, and_iff_right h]

theorem lacks_arguments_stem (hstem : PlainStem stem) (c : Char) (t : Text) :
    Lacks argumentWords (c :: (stem ++ '#' :: t)) ↔ Lacks argumentWords ('#' :: t) := by
  have hplain : ∀ d ∈ stem, d ≠ '#' ∧ ¬ startsArgument d := fun d hd => by
    simp [startsArgument, hstem.ne hd]
  obtain ⟨s, stem, rfl⟩ := List.exists_cons_of_ne_nil hstem.1
  rw [List.cons_append, lacks_arguments_cons fun h => (hplain s (by simp)).1 h.1]
  clear hstem
  induction stem generalizing s with
  | nil => exact lacks_arguments_cons fun h => (hplain s (by simp)).2 h.2
  | cons d stem ih =>
    refine Iff.trans ?_ (ih d fun x hx => hplain x (List.mem_cons_of_mem s hx))
    exact lacks_arguments_cons fun h => (hplain d (by simp)).1 h.1

/-- **With a plain stem no argument is left out in a loop or a grid that is written out.** -/
theorem lacks_qualifyArguments (hstem : PlainStem stem) : ∀ b : Text, Lacks argumentWords (qualifyArguments stem b)
  | [] => (qualifyArguments_eq_self_iff hstem.1 []).1 rfl
  | [c] => (qualifyArguments_eq_self_iff hstem.1 [c]).1 rfl
  | c :: d :: t => by
    have hnext := lacks_qualifyArguments hstem (d :: t)
    obtain ⟨y, hy⟩ := qualifyArguments_cons stem d t
    rw [hy] at hnext
    rw [qualifyArguments, hy]
    split
    · next h =>
      obtain ⟨rfl, -⟩ := h
      exact (lacks_arguments_stem hstem c y).2 hnext
    · next h =>
      rw [lacks_cons, starts_no_argument_iff]
      exact ⟨h, hnext⟩

/-! ### Directives -/

/-- A word with no dot behind its first character starts a directive that is written out only if it started it before. -/
theorem prefix_of_prefix_qualifyReferences : ∀ {v b : Text}, '~' ∉ v → '.' ∉ v.tail →
    v <+: qualifyReferences stem b → v <+: b
  | [], b, _, _, _ => List.nil_prefix
  | _ :: _, [], _, _, h => h
  | _ :: _, [_], _, _, h => h
  | _ :: _, [_, _], _, _, h => h
  | x :: v, c :: d :: e :: t, htilde, hdot, h => by
    rw [List.mem_cons, not_or] at htilde
    rw [List.tail_cons] at hdot
    have hsecond : ∀ {y z : Text} {k : Char}, y = k :: z → v <+: y → k ∉ v → v <+: d :: e :: t := by
      rintro y z k rfl hv hk
      cases v with
      | nil => exact List.nil_prefix
      | cons x v =>
        rw [List.cons_prefix_cons] at hv
        exact absurd (by simp [hv.1]) hk
    rw [qualifyReferences] at h
    rw [List.cons_prefix_cons]
    split at h
    · rw [List.cons_prefix_cons] at h
      exact ⟨h.1, hsecond rfl h.2 htilde.2⟩
    · next hbare =>
      split at h
      · next hhead =>
        rw [List.cons_prefix_cons] at h
        exact ⟨h.1, hsecond rfl h.2 (hhead.2.1 ▸ hdot)⟩
      · rw [List.cons_prefix_cons] at h
        exact ⟨h.1, prefix_of_prefix_qualifyReferences htilde.2 (fun hmem => hdot (List.mem_of_mem_tail hmem)) h.2⟩

theorem prefix_qualifyArguments (h : loopWord <+: b ∨ gridWord <+: b) :
    loopWord <+: qualifyArguments stem b ∨ gridWord <+: qualifyArguments stem b := by
  rcases h with ⟨t, rfl⟩ | ⟨t, rfl⟩
  · obtain ⟨y, hy⟩ := qualifyArguments_cons stem 'p' t
    refine .inl ⟨y, ?_⟩
    simp [loopWord, qualifyArguments, hy]
  · obtain ⟨y, hy⟩ := qualifyArguments_cons stem 'd' t
    refine .inr ⟨y, ?_⟩
    simp [gridWord, qualifyArguments, hy]

theorem spelled_of_list (h : loopWord <+: b ∨ gridWord <+: b) (stem : Text) : spelled stem b = qualifyArguments stem b := by
  rw [← qualify_eq_spelled, qualify, if_pos]
  rwa [Bool.or_eq_true, List.isPrefixOf_iff_prefix, List.isPrefixOf_iff_prefix]

theorem spelled_of_not_list (h : ¬ (loopWord <+: b ∨ gridWord <+: b)) (stem : Text) :
    spelled stem b = qualifyReferences stem b := by
  rw [← qualify_eq_spelled, qualify, if_neg]
  rwa [Bool.or_eq_true, List.isPrefixOf_iff_prefix, List.isPrefixOf_iff_prefix]

/-- **A directive is written out as it is exactly when no stem is left out in it**, for every stem that is not empty. -/
theorem spelled_eq_self_iff (hstem : stem ≠ []) : spelled stem b = b ↔ Qualified b := by
  unfold Qualified
  split
  · next h => rw [spelled_of_list h, qualifyArguments_eq_self_iff hstem]
  · next h => rw [spelled_of_not_list h, qualifyReferences_eq_self_iff hstem]

/-- **What is written out with a plain stem leaves out none.** -/
theorem qualified_spelled (hstem : PlainStem stem) (b : Text) : Qualified (spelled stem b) := by
  by_cases h : loopWord <+: b ∨ gridWord <+: b
  · rw [spelled_of_list h, Qualified, if_pos (prefix_qualifyArguments h)]
    exact lacks_qualifyArguments hstem b
  · rw [spelled_of_not_list h, Qualified, if_neg]
    · exact lacks_qualifyReferences hstem b
    · refine fun hlist => h (hlist.imp ?_ ?_)
      · exact prefix_of_prefix_qualifyReferences (by decide) (by decide)
      · exact prefix_of_prefix_qualifyReferences (by decide) (by decide)

theorem spelled_spelled (hstem : PlainStem stem) (b : Text) : spelled stem (spelled stem b) = spelled stem b :=
  (spelled_eq_self_iff hstem.1).2 (qualified_spelled hstem b)

/-! ### Where a directive ends -/

theorem Plan.Sound.changed {p : Plan} (hp : Plan.Sound p) {x : Char × Change} (hx : x ∈ p) :
    x.2 = .kept ∨ x.1 ∈ ['^', '+', '#'] := by
  obtain ⟨before, behind, rfl⟩ := List.append_of_mem hx
  have hfits := hp before x behind rfl
  obtain ⟨c, k⟩ := x
  cases k with
  | kept => exact .inl rfl
  | caret =>
    obtain rfl : c = '^' := hfits.1
    exact .inr (by simp)
  | reference =>
    obtain rfl : c = '+' := hfits.1
    exact .inr (by simp)
  | condition =>
    obtain rfl : c = '+' := hfits.1
    exact .inr (by simp)
  | conditionEnd =>
    obtain rfl : c = '#' := hfits.1
    exact .inr (by simp)
  | qualified =>
    obtain rfl : c = '#' := hfits
    exact .inr (by simp)

theorem Change.endsAlike (hstem : PlainStem stem) {k : Change} (h : k = .kept ∨ c ∈ ['^', '+', '#']) :
    Text.EndsAlike (k.result stem c) [c] := by
  rcases h with rfl | hc
  · exact .refl [c]
  · have hone : Text.Smooth [c] := by
      simp only [List.mem_cons, List.not_mem_nil, or_false] at hc
      rcases hc with rfl | rfl | rfl <;> decide
    refine .of_smooth ?_ hone
    cases k with
    | kept => exact hone
    | caret => exact (by decide : Text.Smooth ['~', '.'])
    | reference => exact .append (by decide) hstem.smooth
    | condition => exact (by decide : Text.Smooth includeIfWord)
    | conditionEnd => exact .append (s := ['.']) (by decide) (.append hstem.smooth hone)
    | qualified => exact .append hstem.smooth hone

theorem Plan.endsAlike (hstem : PlainStem stem) : ∀ {p : Plan}, (∀ x ∈ p, x.2 = .kept ∨ x.1 ∈ ['^', '+', '#']) →
    Text.EndsAlike (result stem p) (source p)
  | [], _ => .refl []
  | x :: p, h => (Change.endsAlike hstem (h x (by simp))).append (Plan.endsAlike hstem fun y hy => h y (by simp [hy]))

/-- **A directive that is written out with a plain stem ends where it did.** -/
theorem endsAlike_spelled (hstem : PlainStem stem) : ∀ b : Text, Text.EndsAlike (spelled stem b) b
  | [] => .refl []
  | c :: t => by
    obtain ⟨p, hp, rfl, hresult⟩ := exists_plan_qualify c t
    rw [← qualify_eq_spelled, ← hresult]
    exact Plan.endsAlike hstem (p := (c, .kept) :: p) fun x hx => hp.changed hx

end Tag
end Templates
