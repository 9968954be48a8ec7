import Templates.Proofs.Plan
import Templates.Tag.Passes
/-!
# Long forms by plans

A text has one plan that leads to its long form for every stem without an open brace (`exists_plan_longForm`): the places
where something changes, and what changes there, depend on the text alone, and every other character stays where it is.
The induction is on the passes, each of which settles a part of the text by a plan (`pass_outcome`).
-/
namespace Templates
namespace Tag

open Plan

variable {stem t before blanks name : Text}

theorem Pass.after_after (p : Pass) (s u : Text) : (p.after s).after u = p.after (u ++ s) := by
  cases p <;> simp [Pass.after]

theorem pass_append {s : Text} (hs : '{' ∉ s) (stem t : Text) : pass stem (s ++ t) = (pass stem t).after s := by
  unfold pass
  rw [Text.cut_append_left hs]
  cases Text.cut ['{'] t with
  | none => rfl
  | some parts => exact (Pass.after_after _ _ _).symm

/-- A macro call with a reference and without an end gets its stem, and is looked at again from behind its brace. -/
theorem OpenCall.pass_eq (h : OpenCall t before blanks name) (stem : Text) :
    pass stem t = .onward (before ++ ['{']) ('*' :: (blanks ++ (stem ++ '#' :: name))) := by
  have hcut : Text.cut ['}'] name = none := Text.cut_eq_none_iff.2 h.name
  have hmacro : passMacro stem (blanks ++ '#' :: name) = .onward ['{'] ('*' :: (blanks ++ (stem ++ '#' :: name))) := by
    rw [passMacro_eq h.blanks (by decide)]
    simp [passMacroName, hcut]
  rw [h.source, pass_append h.before, pass, Text.cut_cons_self]
  simp [passBrace, hmacro, Pass.after]

theorem longForm_append {s : Text} (hstem : '{' ∉ stem) (hs : '{' ∉ s) (t : Text) :
    longForm stem (s ++ t) = s ++ longForm stem t := by
  have hpass := pass_append hs stem t
  cases hp : pass stem t with
  | ended u =>
    rw [hp] at hpass
    rw [longForm_of_ended hstem hp, longForm_of_ended hstem hpass]
  | onward settled rest =>
    rw [hp] at hpass
    rw [longForm_of_onward hstem hp, longForm_of_onward hstem hpass, List.append_assoc]

theorem OpenCall.longForm_eq (h : OpenCall t before blanks name) (hstem : '{' ∉ stem) :
    longForm stem t = before ++ '{' :: '*' :: (blanks ++ (stem ++ '#' :: longForm stem name)) := by
  have hplain : '{' ∉ '*' :: (blanks ++ (stem ++ ['#'])) := by
    have hblanks : '{' ∉ blanks := fun hc => by
      have := h.blanks _ hc
      simp at this
    simp [hblanks, hstem]
  have hrest : '*' :: (blanks ++ (stem ++ '#' :: name)) = ('*' :: (blanks ++ (stem ++ ['#']))) ++ name := by simp
  rw [longForm_of_onward hstem (h.pass_eq stem), hrest, longForm_append hstem hplain]
  simp

theorem OpenCall.count_name_lt (h : OpenCall t before blanks name) : name.count '{' < t.count '{' := by
  rw [h.source]
  simp
  omega

/-- **A text has one plan for every stem without an open brace.**  The plan is sound and leads to the long form: each
character of the text keeps its place and stays as it is, unless it is one of those that the plan changes. -/
theorem exists_plan_longForm (t : Text) : ∃ p : Plan, source p = t ∧ Sound p ∧
    ∀ stem, '{' ∉ stem → longForm stem t = result stem p := by
  cases pass_outcome t with
  | ended p sound source eq => exact ⟨p, source, sound, fun stem hstem => longForm_of_ended hstem (eq stem)⟩
  | onward p rest sound source eq =>
    have := count_lt_of_pass List.not_mem_nil (eq [])
    obtain ⟨q, rfl, hq, hresult⟩ := exists_plan_longForm rest
    refine ⟨p ++ q, by rw [source_append, source], sound_append sound hq, fun stem hstem => ?_⟩
    rw [longForm_of_onward hstem (eq stem), hresult stem hstem, result_append]
  | @openCall before blanks name call =>
    have := call.count_name_lt
    obtain ⟨q, rfl, hq, hresult⟩ := exists_plan_longForm name
    refine ⟨keep (before ++ '{' :: '*' :: blanks) ++ ('#', .qualified) :: q, ?_, ?_, fun stem hstem => ?_⟩
    · rw [call.source]
      simp
    · exact sound_append (sound_keep _) (sound_cons_qualified hq)
    · rw [call.longForm_eq hstem, hresult stem hstem]
      simp [Change.result]
termination_by t.count '{'

theorem exists_plan_longForm_two_stems :
    '{' ∉ ['p'] ∧ '{' ∉ ['d', '/', 'q', '}'] ∧ ∃ p : Plan,
      source p = "\x7b^a(+#x)\x7d\x7b+(c)#y\x7d\x7b* #z\x7b+#w".toList ∧ Sound p ∧
      result ['p'] p = "\x7b~.a(~.include.p#x)\x7d\x7b~.includeIf(c).p#y\x7d\x7b* p#z\x7b~.include.p#w".toList ∧
      result ['d', '/', 'q', '}'] p =
        "\x7b~.a(~.include.d/q\x7d#x)\x7d\x7b~.includeIf(c).d/q\x7d#y\x7d\x7b* d/q\x7d#z\x7b~.include.d/q\x7d#w".toList := by
  obtain ⟨p, hsource, hsound, hresult⟩ := exists_plan_longForm "\x7b^a(+#x)\x7d\x7b+(c)#y\x7d\x7b* #z\x7b+#w".toList
  refine ⟨by decide, by decide, p, hsource, hsound, ?_, ?_⟩
  · rw [← hresult ['p'] (by decide)]
    rfl
  · rw [← hresult ['d', '/', 'q', '}'] (by decide)]
    rfl

end Tag
end Templates
