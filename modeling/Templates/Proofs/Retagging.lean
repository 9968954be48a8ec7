import Templates.Proofs.Cuts
import Templates.Tag.Marks
/-!
# Tags between other marks

A text is a row of tags between two marks, with other text before each tag and behind the last one (`Marks.Reads`).  A change of
marks changes the marks of these tags and nothing else (`retag_leftmost`).  It can be undone when the new marks start with
characters that the text has not got, because a new mark is then found only where the change has put it (`retag_undone`).
-/
namespace Templates

namespace Tag

variable {old new : Marks} {t : Text}

theorem retag_of_empty (h : old.opening = [] ∨ old.closing = []) : retag old new t = t := by
  rw [retag, if_pos h]

theorem retag_of_no_opening (h : ¬ old.opening <:+: t) : retag old new t = t := by
  have hcut := Text.cut_eq_none_iff_absent.2 h
  rw [retag]
  split
  · rfl
  · split
    · rfl
    · next hsome => cases hcut.symm.trans hsome

theorem retag_of_unended {before behind : Text} (hopening : old.opening ≠ []) (hclosing : ¬ old.closing <:+: behind)
    (h : Text.FirstBehind old.opening before behind) :
    retag old new (before ++ (old.opening ++ behind)) = before ++ old.opening ++ retag old new behind := by
  have hmarks : ¬ (old.opening = [] ∨ old.closing = []) := by
    rintro (hnil | hnil)
    · exact hopening hnil
    · exact hclosing (hnil ▸ List.nil_infix)
  have hcut := Text.cut_eq_some_iff_firstBehind.2 ⟨rfl, h⟩
  have hend := Text.cut_eq_none_iff_absent.2 hclosing
  rw [retag, if_neg hmarks]
  split
  · next hnone => cases hcut.symm.trans hnone
  · next hsome =>
    cases hcut.symm.trans hsome
    split
    · rfl
    · next hname => cases hend.symm.trans hname

theorem retag_of_tag {before name rest : Text} (hopening : old.opening ≠ []) (hclosing : old.closing ≠ [])
    (h : Text.FirstBehind old.opening before (name ++ (old.closing ++ rest))) (hend : Text.FirstBehind old.closing name rest) :
    retag old new (before ++ (old.opening ++ (name ++ (old.closing ++ rest)))) =
      before ++ new.wrap name ++ retag old new rest := by
  have hcut := Text.cut_eq_some_iff_firstBehind.2 ⟨rfl, h⟩
  have hname := Text.cut_eq_some_iff_firstBehind.2 ⟨rfl, hend⟩
  rw [retag, if_neg (not_or.2 ⟨hopening, hclosing⟩)]
  split
  · next hnone => cases hcut.symm.trans hnone
  · next hsome =>
    cases hcut.symm.trans hsome
    split
    · next hnone => cases hname.symm.trans hnone
    · next hsome =>
      cases hname.symm.trans hsome
      rfl

/-- A text without a closing mark stays, however many opening marks it has. -/
theorem retag_of_no_closing {t : Text} (h : ¬ old.closing <:+: t) : retag old new t = t := by
  by_cases hopening : old.opening = []
  · exact retag_of_empty (.inl hopening)
  · cases hcut : Text.cut old.opening t with
    | none => exact retag_of_no_opening (Text.cut_eq_none_iff_absent.1 hcut)
    | some parts =>
      obtain ⟨before, behind⟩ := parts
      obtain ⟨ht, hfirst⟩ := Text.cut_eq_some_iff_firstBehind.1 hcut
      have hsuffix : behind <:+ t := ⟨before ++ old.opening, by rw [ht, List.append_assoc]⟩
      have hbehind : ¬ old.closing <:+: behind := fun hpiece => h (hpiece.trans hsuffix.isInfix)
      have hlength := Text.length_of_cut hcut
      have hpos := List.length_pos_iff.2 hopening
      rw [ht, retag_of_unended hopening hbehind hfirst, retag_of_no_closing hbehind, List.append_assoc]
termination_by t.length

theorem retag_of_first_unended {before behind : Text} (hclosing : ¬ old.closing <:+: behind)
    (h : Text.FirstBehind old.opening before behind) :
    retag old new (before ++ (old.opening ++ behind)) = before ++ (old.opening ++ behind) := by
  by_cases hopening : old.opening = []
  · exact retag_of_empty (.inl hopening)
  · rw [retag_of_unended hopening hclosing h, retag_of_no_closing hclosing, List.append_assoc]

/-- **The tags of a text**, the leftmost first: it has no opening mark, or no closing mark behind its first opening mark, or
a tag and the tags of the text behind that. -/
inductive Marks.Reads (old : Marks) : Text → Prop where
  | plain {t : Text} : ¬ old.opening <:+: t → Reads old t
  | unended {before behind : Text} : Text.FirstBehind old.opening before behind → ¬ old.closing <:+: behind →
      Reads old (before ++ (old.opening ++ behind))
  | tag {before name rest : Text} : Text.FirstBehind old.opening before (name ++ (old.closing ++ rest)) →
      Text.FirstBehind old.closing name rest → Reads old rest →
      Reads old (before ++ (old.opening ++ (name ++ (old.closing ++ rest))))

theorem Marks.reads (hopening : old.opening ≠ []) (t : Text) : old.Reads t := by
  cases hcut : Text.cut old.opening t with
  | none => exact .plain (Text.cut_eq_none_iff_absent.1 hcut)
  | some parts =>
    obtain ⟨before, behind⟩ := parts
    have hlength := Text.length_of_cut hcut
    have hpos := List.length_pos_iff.2 hopening
    obtain ⟨ht, hfirst⟩ := Text.cut_eq_some_iff_firstBehind.1 hcut
    cases hname : Text.cut old.closing behind with
    | none => exact ht ▸ .unended hfirst (Text.cut_eq_none_iff_absent.1 hname)
    | some parts =>
      obtain ⟨name, rest⟩ := parts
      have hrest := Text.length_of_cut hname
      obtain ⟨hbehind, hend⟩ := Text.cut_eq_some_iff_firstBehind.1 hname
      subst hbehind
      exact ht ▸ .tag hfirst hend (Marks.reads hopening rest)
termination_by t.length

/-- **A change of marks changes the leftmost tags, and nothing else.**  The first tag gets the new marks, its name stays, and the
text behind it is changed for itself, so that neither a name nor a new mark is looked at again.  A text whose first opening mark
has no closing mark behind it stays, as does one without an opening mark, and every text when an old mark is empty. -/
theorem retag_leftmost (old new : Marks) :
    (old.opening ≠ [] → old.closing ≠ [] → ∀ before name rest : Text,
      Text.FirstBehind old.opening before (name ++ (old.closing ++ rest)) → Text.FirstBehind old.closing name rest →
      retag old new (before ++ (old.opening ++ (name ++ (old.closing ++ rest)))) =
        before ++ (new.opening ++ (name ++ (new.closing ++ retag old new rest)))) ∧
    (∀ before behind : Text, Text.FirstBehind old.opening before behind → ¬ old.closing <:+: behind →
      retag old new (before ++ (old.opening ++ behind)) = before ++ (old.opening ++ behind)) ∧
    (∀ t : Text, ¬ old.opening <:+: t → retag old new t = t) ∧
    (old.opening = [] ∨ old.closing = [] → ∀ t : Text, retag old new t = t) := by
  refine ⟨fun hopening hclosing before name rest hfirst hend => ?_,
    fun before behind hfirst hclosing => retag_of_first_unended hclosing hfirst,
    fun t h => retag_of_no_opening h, fun h t => retag_of_empty h⟩
  rw [retag_of_tag hopening hclosing hfirst hend]
  simp [Marks.wrap]

/-- Opening marks that overlap, one within a name, and one behind the last closing mark. -/
theorem retag_leftmost_overlapping :
    let old : Marks := ⟨['<', '<'], ['>', '>']⟩
    let new : Marks := ⟨['>', '>'], ['<']⟩
    (old.opening ≠ [] ∧ old.closing ≠ []) ∧
      Text.FirstBehind old.opening ['a'] ("<b<<c".toList ++ (old.closing ++ "><<<d>".toList)) ∧
      Text.FirstBehind old.closing "<b<<c".toList "><<<d>".toList ∧
      Text.FirstBehind old.opening ['>'] "<d>".toList ∧ ¬ old.closing <:+: "<d>".toList ∧
      retag old new "a<<<b<<c>>><<<d>".toList = "a>><b<<c<><<<d>".toList := by
  intro old new
  have hopening : old.opening ≠ [] := by decide
  have hclosing : old.closing ≠ [] := by decide
  have hfirst : Text.FirstBehind old.opening ['a'] ("<b<<c".toList ++ (old.closing ++ "><<<d>".toList)) :=
    Text.firstBehind_of_cut (t := "a<<<b<<c>>><<<d>".toList) (by decide)
  have hend : Text.FirstBehind old.closing "<b<<c".toList "><<<d>".toList :=
    Text.firstBehind_of_cut (t := "<b<<c>>><<<d>".toList) (by decide)
  have hlast : Text.FirstBehind old.opening ['>'] "<d>".toList := Text.firstBehind_of_cut (t := "><<<d>".toList) (by decide)
  have hunended : ¬ old.closing <:+: "<d>".toList := by decide
  refine ⟨⟨hopening, hclosing⟩, hfirst, hend, hlast, hunended, ?_⟩
  have htag := (retag_leftmost old new).1 hopening hclosing _ _ _ hfirst hend
  rw [show "><<<d>".toList = ['>'] ++ (old.opening ++ "<d>".toList) from rfl,
    (retag_leftmost old new).2.1 _ _ hlast hunended] at htag
  exact htag

theorem retag_self (m : Marks) (t : Text) : retag m m t = t := by
  by_cases hempty : m.opening = [] ∨ m.closing = []
  · exact retag_of_empty hempty
  · obtain ⟨hopening, hclosing⟩ := not_or.1 hempty
    induction Marks.reads hopening t with
    | plain h => exact retag_of_no_opening h
    | unended hfirst hend => exact retag_of_first_unended hend hfirst
    | tag hfirst hend _ ih =>
      rw [retag_of_tag hopening hclosing hfirst hend, ih]
      simp [Marks.wrap]

/-- **A change to marks that the text has not got can be undone.**  The induction is on the tags of the text. -/
theorem retag_retag {c d : Char} (hc : new.opening.head? = some c) (hd : new.closing.head? = some d) {t : Text} (hct : c ∉ t)
    (hdt : d ∉ t) : retag new old (retag old new t) = t := by
  have hstays : retag new old t = t := retag_of_no_opening (Text.absent_of_head_not_mem hc hct)
  by_cases hempty : old.opening = [] ∨ old.closing = []
  · rw [retag_of_empty hempty, hstays]
  · obtain ⟨hopening, hclosing⟩ := not_or.1 hempty
    induction Marks.reads hopening t with
    | plain h => rw [retag_of_no_opening h, hstays]
    | unended hfirst hend => rw [retag_of_first_unended hend hfirst, hstays]
    | @tag before name rest hfirst hend _ ih =>
      simp only [List.mem_append, not_or] at hct hdt
      have hnewOpening : new.opening ≠ [] := by rintro hnil; simp [hnil] at hc
      have hnewClosing : new.closing ≠ [] := by rintro hnil; simp [hnil] at hd
      -- no character of the text starts a new mark, so that the new marks are found where the tag was
      have hrest := ih hct.2.2.2.2 hdt.2.2.2.2 (retag_of_no_opening (Text.absent_of_head_not_mem hc hct.2.2.2.2))
      rw [retag_of_tag hopening hclosing hfirst hend, Marks.wrap]
      simp only [List.append_assoc]
      rw [retag_of_tag hnewOpening hnewClosing (Text.firstBehind_of_head_not_mem hc hct.1 _)
        (Text.firstBehind_of_head_not_mem hd hdt.2.2.1 _), hrest]
      simp [Marks.wrap]

/-- **A change of marks can be undone**: changing to the same marks changes nothing, and changing to marks of which the first
characters are not in the text, and back again, does not either. -/
theorem retag_undone (old new : Marks) (t : Text) : retag old old t = t ∧
    ∀ c d, new.opening.head? = some c → new.closing.head? = some d → c ∉ t → d ∉ t →
      retag new old (retag old new t) = t :=
  ⟨retag_self old t, fun _ _ hc hd hct hdt => retag_retag hc hd hct hdt⟩

/-- New marks that overlap each other, and an old mark that is left behind the last tag. -/
theorem retag_undone_overlapping :
    let old : Marks := ⟨['<', '<'], ['>']⟩
    let new : Marks := ⟨['#', '#', '<'], ['#', '>']⟩
    let t := "<<<a>>b<<c><<".toList
    (new.opening.head? = some '#' ∧ new.closing.head? = some '#' ∧ '#' ∉ t) ∧
      retag old new t = "##<<a#>>b##<c#><<".toList ∧ retag new old (retag old new t) = t := by
  intro old new t
  refine ⟨⟨rfl, rfl, by decide⟩, ?_, (retag_undone old new t).2 '#' '#' rfl rfl (by decide) (by decide)⟩
  decide +kernel

end Tag
end Templates
