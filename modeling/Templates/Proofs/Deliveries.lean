import Templates.Proofs.Steps
/-!
# What lines deliver

A reading delivers what its step delivers and then what the reading behind that step does (`Reading.run_eq`).  No step passes
over a failure of the lines that are still ahead (`Reading.heeds_step`), so that lines fail exactly when there is a failure
among them, and with the first one (`failure_ofLines`).
-/
namespace Templates
namespace Fragment

variable {ε : Type}

/-- What is delivered from a step on. -/
def Step.delivery : Step ε → Delivery ε
  | .ended delivered => ⟨delivered, none⟩
  | .failed delivered e => ⟨delivered, some e⟩
  | .onward delivered next => next.run.prepend delivered

theorem Reading.run_eq (r : Reading ε) : r.run = r.step.delivery := by
  rw [run]
  split <;> simp [Step.delivery, *]

theorem ofLines_eq (stem : Text) (lines : List (Except ε Text)) :
    ofLines stem lines = (Reading.nextLine [] (.whole stem) [] lines).delivery := by
  unfold ofLines
  split <;> simp [Step.delivery, *]

theorem ofLines_nil (stem : Text) : ofLines (ε := ε) stem [] = ⟨[⟨stem, []⟩], none⟩ := rfl

/-- A file of which the first line is in hand. -/
def Reading.start (stem line : Text) (ahead : List (Except ε Text)) : Reading ε :=
  ⟨(Open.whole stem).leaveLine, [], line, ahead⟩

theorem ofLines_cons (stem line : Text) (later : List (Except ε Text)) :
    ofLines stem (.ok line :: later) = (Reading.start stem line later).run := by
  rw [ofLines_eq]
  rfl

@[simp] theorem Delivery.prepend_nil (d : Delivery ε) : d.prepend [] = d := rfl

@[simp] theorem Delivery.prepend_prepend (a b : List Fragment) (d : Delivery ε) :
    (d.prepend b).prepend a = d.prepend (a ++ b) := by
  simp [prepend]

theorem nextLine_delivery (delivered : List Fragment) (inner : Open) (outer : List Open)
    (ahead : List (Except ε Text)) : (Reading.nextLine delivered inner outer ahead).delivery =
      (Reading.nextLine [] inner outer ahead).delivery.prepend delivered := by
  match ahead with
  | [] => simp [Reading.nextLine, Step.delivery, Delivery.prepend]
  | .error e :: later => simp [Reading.nextLine, Step.delivery, Delivery.prepend]
  | .ok line :: later => rfl

/-- The first failure among some lines. -/
def firstFailure? (lines : List (Except ε Text)) : Option ε :=
  lines.findSome? fun
    | .error e => some e
    | .ok _ => none

theorem firstFailure?_map_ok (lines : List Text) : firstFailure? (lines.map (Except.ok (ε := ε))) = none := by
  simp [firstFailure?]

theorem exists_firstFailure? {e : ε} {lines : List (Except ε Text)} (h : .error e ∈ lines) :
    ∃ first, firstFailure? lines = some first := by
  rw [← Option.isSome_iff_exists, firstFailure?, List.findSome?_isSome_iff]
  exact ⟨.error e, h, rfl⟩

/-- Whether a step heeds the first failure ahead: it ends only when there is none, fails only with that one, and leaves it
ahead otherwise. -/
def Step.Heeds (ahead : List (Except ε Text)) : Step ε → Prop
  | .ended _ => firstFailure? ahead = none
  | .failed _ e => firstFailure? ahead = some e
  | .onward _ next => firstFailure? next.ahead = firstFailure? ahead

/-- Whether the search for the end of a comment heeds the first failure ahead. -/
def CommentEnd.Heeds (ahead : List (Except ε Text)) : CommentEnd ε → Prop
  | .closed _ later => firstFailure? later = firstFailure? ahead
  | .unclosed => firstFailure? ahead = none
  | .failed e => firstFailure? ahead = some e

theorem heeds_skipComment (t : Text) (ahead : List (Except ε Text)) : (skipComment t ahead).Heeds ahead := by
  induction ahead generalizing t with
  | nil =>
    rw [skipComment.eq_def]
    split
    · exact rfl
    · exact rfl
  | cons line ahead ih =>
    rw [skipComment.eq_def]
    split
    · exact rfl
    · cases line with
      | error e => exact rfl
      | ok t => exact ih t

theorem heeds_nextLine (delivered : List Fragment) (inner : Open) (outer : List Open) (ahead : List (Except ε Text)) :
    (Reading.nextLine delivered inner outer ahead).Heeds ahead := by
  match ahead with
  | [] => exact rfl
  | .error e :: later => exact rfl
  | .ok line :: later => exact rfl

/-- **A step heeds the first failure ahead.** -/
theorem Reading.heeds_step (r : Reading ε) : r.step.Heeds r.ahead := by
  have hdoes := r.does_step
  generalize r.step = s at hdoes ⊢
  cases hdoes with
  | takeLine => exact heeds_nextLine _ _ _ _
  | @skipComment before behind rest ahead hline hskip =>
    have h := heeds_skipComment behind r.ahead
    rw [hskip] at h
    exact h
  | @skipAll before behind hline hskip =>
    have h := heeds_skipComment behind r.ahead
    rw [hskip] at h
    exact h.symm
  | @failInComment before behind e hline hskip =>
    have h := heeds_skipComment behind r.ahead
    rw [hskip] at h
    exact h
  | keepEndMark => exact rfl
  | endPart => exact rfl
  | endPartAndLine => exact heeds_nextLine _ _ _ _
  | startPart => exact rfl

theorem failure_delivery {s : Step ε} {ahead : List (Except ε Text)} (h : s.Heeds ahead)
    (hrun : ∀ delivered next, s = .onward delivered next → next.run.failure = firstFailure? next.ahead) :
    s.delivery.failure = firstFailure? ahead := by
  cases s with
  | ended delivered => exact h.symm
  | failed delivered e => exact h.symm
  | onward delivered next => exact (hrun delivered next rfl).trans h

theorem Reading.failure_run (r : Reading ε) : r.run.failure = firstFailure? r.ahead := by
  rw [run_eq]
  refine failure_delivery r.heeds_step fun delivered next hnext => ?_
  have := size_lt_of_step hnext
  exact next.failure_run
termination_by r.size

/-- **Lines fail with the first failure among them**, and without one they are read to their end. -/
theorem failure_ofLines (stem : Text) (lines : List (Except ε Text)) :
    (ofLines stem lines).failure = firstFailure? lines := by
  rw [ofLines_eq]
  exact failure_delivery (heeds_nextLine _ _ _ _) fun delivered next _ => next.failure_run

end Fragment
end Templates
