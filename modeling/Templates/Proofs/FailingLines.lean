import Templates.Proofs.DeliveryOrder
/-!
# What is delivered before a failure

A step looks at no more of the lines ahead than it takes, but for whether there are any: with other lines put behind those
ahead it goes on in the same way, or it is the step that comes to the end of those ahead (`settled_step`).  So what is delivered
before a failure is the same whatever stands behind the failure, and stands first in what is delivered when other lines come in
its place (`ofLines_before_failure`).
-/
namespace Templates
namespace Fragment

variable {ε : Type}

/-- The reading with more lines behind those ahead. -/
def Reading.followedBy (r : Reading ε) (later : List (Except ε Text)) : Reading ε := { r with ahead := r.ahead ++ later }

@[simp] theorem Reading.followedBy_nil (r : Reading ε) : r.followedBy [] = r := by simp [followedBy]

/-- **How a step depends on the lines put behind those ahead**: it goes on in the same way whatever they are, or it comes to the
end of those ahead, having delivered the same whatever they are, and fails if a failure is there. -/
inductive Settled (stepBefore : List (Except ε Text) → Step ε) : Prop where
  | onward (delivered : List Fragment) (next : Reading ε) :
      (∀ later, stepBefore later = .onward delivered (next.followedBy later)) → Settled stepBefore
  | runsOut (delivered : List Fragment) :
      (∀ e later, stepBefore (.error e :: later) = .failed delivered e) →
      (∀ later, delivered <+: (stepBefore later).delivery.fragments) → Settled stepBefore

theorem exists_of_firstFailure? {line : Except ε Text} {later : List (Except ε Text)}
    (h : firstFailure? (line :: later) = none) : ∃ t, line = .ok t := by
  cases line with
  | ok t => exact ⟨t, rfl⟩
  | error e => cases h

theorem skipComment_append {t rest : Text} {ahead left : List (Except ε Text)} (h : skipComment t ahead = .closed rest left)
    (later : List (Except ε Text)) : skipComment t (ahead ++ later) = .closed rest (left ++ later) := by
  induction ahead generalizing t with
  | nil =>
    rw [skipComment.eq_def] at h ⊢
    cases hcut : Text.cutUnescaped commentEnd t with
    | none => rw [hcut] at h; cases h
    | some parts => rw [hcut] at h; cases h; rfl
  | cons line ahead ih =>
    rw [skipComment.eq_def] at h ⊢
    cases hcut : Text.cutUnescaped commentEnd t with
    | some parts => rw [hcut] at h; cases h; rfl
    | none =>
      rw [hcut] at h
      cases line with
      | error e => cases h
      | ok t' => exact ih h

theorem skipComment_append_error {t : Text} {ahead : List (Except ε Text)} (h : skipComment t ahead = .unclosed) (e : ε)
    (later : List (Except ε Text)) : skipComment t (ahead ++ .error e :: later) = .failed e := by
  induction ahead generalizing t with
  | nil =>
    rw [skipComment.eq_def] at h ⊢
    cases hcut : Text.cutUnescaped commentEnd t with
    | none => rfl
    | some parts => rw [hcut] at h; cases h
  | cons line ahead ih =>
    rw [skipComment.eq_def] at h ⊢
    cases hcut : Text.cutUnescaped commentEnd t with
    | some parts => rw [hcut] at h; cases h
    | none =>
      rw [hcut] at h
      cases line with
      | error e' => cases h
      | ok t' => exact ih h

theorem settled_nextLine (delivered : List Fragment) (inner : Open) (outer : List Open) {ahead : List (Except ε Text)}
    (h : firstFailure? ahead = none) : Settled fun later => Reading.nextLine delivered inner outer (ahead ++ later) := by
  cases ahead with
  | nil =>
    refine .runsOut delivered (fun e later => rfl) fun later => ?_
    simp only [List.nil_append]
    rw [nextLine_delivery]
    exact List.prefix_append _ _
  | cons line ahead =>
    obtain ⟨t, rfl⟩ := exists_of_firstFailure? h
    exact .onward delivered ⟨inner.leaveLine, outer, t, ahead⟩ fun later => rfl

theorem settled_takeLine {r : Reading ε} (h : firstFailure? r.ahead = none) :
    Settled fun later => (r.followedBy later).takeLine := by
  cases hahead : r.ahead with
  | nil =>
    refine .runsOut [] (fun e later => ?_) fun later => List.nil_prefix
    simp [Reading.takeLine, Reading.followedBy, hahead, Reading.nextLine]
  | cons line ahead =>
    rw [hahead] at h
    obtain ⟨t, rfl⟩ := exists_of_firstFailure? h
    refine .onward [] ⟨((r.inner.write r.line).endLine true).leaveLine, r.outer, t, ahead⟩ fun later => ?_
    simp [Reading.takeLine, Reading.followedBy, hahead, Reading.nextLine]

/-- **A step is settled by the lines ahead**, or comes to their end. -/
theorem settled_step {r : Reading ε} (h : firstFailure? r.ahead = none) : Settled fun later => (r.followedBy later).step := by
  have hmark : ∀ later, Mark.first (r.followedBy later).line = Mark.first r.line := fun _ => rfl
  -- the marks are those of the line in hand, so that the step goes the same way whatever comes behind the lines ahead
  unfold Reading.step
  simp only [hmark]
  split
  · exact settled_takeLine h
  · next before behind _ =>
    have hheeds := heeds_skipComment behind r.ahead
    cases hskip : skipComment behind r.ahead with
    | closed rest ahead =>
      refine .onward [] { r with line := before ++ rest, ahead } fun later => ?_
      simp only [Reading.followedBy, skipComment_append hskip later]
    | unclosed =>
      refine .runsOut [] (fun e later => ?_) fun later => List.nil_prefix
      simp only [Reading.followedBy, skipComment_append_error hskip e later]
    | failed e =>
      rw [hskip] at hheeds
      have hfails : firstFailure? r.ahead = some e := hheeds
      rw [hfails] at h
      cases h
  · next before rest _ =>
    cases houter : r.outer with
    | nil =>
      refine .onward [] { r with inner := r.inner.write (before ++ endMark), line := rest } fun later => ?_
      simp [Reading.endPart, Reading.followedBy, houter]
    | cons parent outer =>
      by_cases hrest : rest = []
      · have hend : ∀ later, (r.followedBy later).endPart before rest =
            Reading.nextLine [(r.inner.write before).close] parent outer (r.ahead ++ later) := fun later => by
          simp [Reading.endPart, Reading.followedBy, houter, hrest]
        simp only [hend]
        exact settled_nextLine _ _ _ h
      · refine .onward [(r.inner.write before).close] ⟨parent, outer, rest, r.ahead⟩ fun later => ?_
        simp [Reading.endPart, Reading.followedBy, houter, hrest]
  · next before behind _ _ =>
    split
    · exact settled_takeLine h
    · next localName rest _ => exact .onward [] (r.startPart before localName rest) fun later => rfl

/-- **What a reading delivers before a failure is final**: it depends on nothing behind the failure, and other lines in the place
of the failure only add to it. -/
theorem run_before_failure (r : Reading ε) (h : firstFailure? r.ahead = none) : ∃ delivered,
    (∀ e later, (r.followedBy (.error e :: later)).run = ⟨delivered, some e⟩) ∧
    ∀ later, delivered <+: (r.followedBy later).run.fragments := by
  cases settled_step h with
  | onward delivered next honward =>
    have hstep : r.step = .onward delivered next := by simpa using honward []
    have hheeds := r.heeds_step
    rw [hstep] at hheeds
    have := Reading.size_lt_of_step hstep
    obtain ⟨more, hfails, hstart⟩ := run_before_failure next (Eq.trans hheeds h)
    refine ⟨delivered ++ more, fun e later => ?_, fun later => ?_⟩
    · rw [Reading.run_eq, honward, Step.delivery, hfails]
      rfl
    · rw [Reading.run_eq, honward]
      exact (List.prefix_append_right_inj delivered).2 (hstart later)
  | runsOut delivered hfails hstart =>
    refine ⟨delivered, fun e later => ?_, fun later => ?_⟩
    · rw [Reading.run_eq, hfails]
      rfl
    · rw [Reading.run_eq]
      exact hstart later
termination_by r.size

theorem ne_stem_of_failure {stem : Text} {lines : List (Except ε Text)} {delivered : List Fragment} {e : ε}
    (h : ofLines stem lines = ⟨delivered, some e⟩) : ∀ f ∈ delivered, f.name ≠ stem := by
  obtain ⟨left, hleft, hclosing⟩ := closes_ofLines stem lines
  rw [h] at hleft hclosing
  exact Nested.ne_stem_of_closing hclosing .whole fun hnil => by simpa using hleft.2 hnil

/-- **Fragments delivered before a failure of the lines are final.**  They are the same whatever the failure is and whatever comes
behind it, the file's own fragment is not among them, and they come first when the lines have others behind them instead. -/
theorem ofLines_before_failure (stem : Text) (lines : List Text) : ∃ delivered : List Fragment,
    (∀ (e : ε) (later : List (Except ε Text)),
      ofLines stem (lines.map .ok ++ .error e :: later) = ⟨delivered, some e⟩ ∧ ∀ f ∈ delivered, f.name ≠ stem) ∧
    ∀ later : List (Except ε Text), delivered <+: (ofLines stem (lines.map .ok ++ later)).fragments := by
  have hruns : ∃ delivered : List Fragment,
      (∀ (e : ε) (later : List (Except ε Text)),
        ofLines stem (lines.map .ok ++ .error e :: later) = ⟨delivered, some e⟩) ∧
      ∀ later : List (Except ε Text), delivered <+: (ofLines stem (lines.map .ok ++ later)).fragments := by
    cases lines with
    | nil => exact ⟨[], fun e later => rfl, fun later => List.nil_prefix⟩
    | cons line lines =>
      simp only [List.map_cons, List.cons_append, ofLines_cons]
      exact run_before_failure (.start stem line (lines.map .ok)) (firstFailure?_map_ok lines)
  obtain ⟨delivered, hfails, hstart⟩ := hruns
  exact ⟨delivered, fun e later => ⟨hfails e later, ne_stem_of_failure (hfails e [])⟩, hstart⟩

/-- A part that ends on a line before the failure, inside one that does not. -/
example : ofLines ['p'] [.ok ['{', '#', 'a', '}', '{', '#', 'b', '}', 'x', '{', '#', '}', 'y'], .error 7, .ok ['z']] =
    ⟨[⟨['p', '.', 'a', '.', 'b'], ['x']⟩], some 7⟩ := by decide +kernel

end Fragment
end Templates
