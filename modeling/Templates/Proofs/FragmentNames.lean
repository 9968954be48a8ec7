import Templates.Proofs.DeliveryOrder
/-!
# Names of fragments

The stem of a file does nothing but stand before the names of its fragments (`ofLines_named`): where the file is cut, and
what each fragment holds, is the same under every stem.  What stands behind the stem is nothing for the file itself and starts
with a dot for each of its parts (`name_of_mem_ofLines`).
-/
namespace Templates
namespace Fragment

variable {ε : Type}

/-- The fragment with a stem before its name. -/
def named (stem : Text) (f : Fragment) : Fragment := { f with name := stem ++ f.name }

def Open.named (stem : Text) (o : Open) : Open := { o with name := stem ++ o.name }

def Reading.named (stem : Text) (r : Reading ε) : Reading ε :=
  { r with inner := r.inner.named stem, outer := r.outer.map (Open.named stem) }

def Step.named (stem : Text) : Step ε → Step ε
  | .onward delivered next => .onward (delivered.map (Fragment.named stem)) (next.named stem)
  | .ended delivered => .ended (delivered.map (Fragment.named stem))
  | .failed delivered e => .failed (delivered.map (Fragment.named stem)) e

def Delivery.named (stem : Text) (d : Delivery ε) : Delivery ε :=
  { d with fragments := d.fragments.map (Fragment.named stem) }

variable {stem : Text}

theorem Open.close_named (o : Open) : (o.named stem).close = o.close.named stem := rfl

theorem Open.endLine_named (more : Bool) (o : Open) : (o.named stem).endLine more = (o.endLine more).named stem := by
  unfold endLine named
  split <;> rfl

theorem Open.whole_named (name : Text) : Open.whole (stem ++ name) = (Open.whole name).named stem := rfl

theorem Delivery.prepend_named (delivered : List Fragment) (d : Delivery ε) :
    (d.prepend delivered).named stem = (d.named stem).prepend (delivered.map (Fragment.named stem)) := by
  simp [Delivery.named, prepend]

namespace Reading

theorem nextLine_named (delivered : List Fragment) (inner : Open) (outer : List Open) (ahead : List (Except ε Text)) :
    nextLine (delivered.map (Fragment.named stem)) (inner.named stem) (outer.map (Open.named stem)) ahead =
      (nextLine delivered inner outer ahead).named stem := by
  match ahead with
  | [] => simp [nextLine, Step.named, Function.comp_def, Open.close_named]
  | .error e :: later => rfl
  | .ok line :: later => rfl

theorem takeLine_named (r : Reading ε) : (r.named stem).takeLine = r.takeLine.named stem := by
  have hline : (r.named stem).takeLine = nextLine [] (((r.inner.write r.line).named stem).endLine (!r.ahead.isEmpty))
      (r.outer.map (Open.named stem)) r.ahead := rfl
  rw [hline, Open.endLine_named]
  exact nextLine_named [] _ _ _

theorem endPart_named (r : Reading ε) (before rest : Text) :
    (r.named stem).endPart before rest = (r.endPart before rest).named stem := by
  unfold endPart
  cases houter : r.outer with
  | nil => simp [named, houter, Step.named, Open.named, Open.write]
  | cons parent outer =>
    simp only [named, houter, List.map_cons]
    split
    · exact nextLine_named [(r.inner.write before).close] parent outer r.ahead
    · rfl

theorem startPart_named (r : Reading ε) (before localName rest : Text) :
    (r.named stem).startPart before localName rest = (r.startPart before localName rest).named stem := by
  simp [startPart, named, Open.named, Open.start, Open.write]

/-- **A step does the same under every stem.** -/
theorem step_named (r : Reading ε) : (r.named stem).step = r.step.named stem := by
  have hline : (r.named stem).line = r.line := rfl
  have hahead : (r.named stem).ahead = r.ahead := rfl
  unfold step
  rw [hline, hahead]
  split
  · exact takeLine_named r
  · split <;> rfl
  · exact endPart_named r _ _
  · split
    · exact takeLine_named r
    · exact congrArg (Step.onward []) (startPart_named r _ _ _)

theorem run_named (r : Reading ε) : (r.named stem).run = r.run.named stem := by
  rw [run_eq, run_eq, step_named]
  cases hstep : r.step with
  | ended delivered => rfl
  | failed delivered e => rfl
  | onward delivered next =>
    have := size_lt_of_step hstep
    rw [Step.delivery, Delivery.prepend_named, ← run_named next]
    rfl
termination_by r.size

end Reading

theorem Step.delivery_named (s : Step ε) : (s.named stem).delivery = s.delivery.named stem := by
  cases s with
  | ended delivered => rfl
  | failed delivered e => rfl
  | onward delivered next =>
    rw [delivery, Delivery.prepend_named, ← Reading.run_named next]
    rfl

/-- **The stem of a file only stands before the names of its fragments.** -/
theorem ofLines_named (stem name : Text) (lines : List (Except ε Text)) :
    ofLines (stem ++ name) lines = (ofLines name lines).named stem := by
  rw [ofLines_eq, ofLines_eq, Open.whole_named]
  have hnext : Reading.nextLine [] ((Open.whole name).named stem) [] lines =
      (Reading.nextLine [] (Open.whole name) [] lines).named stem := Reading.nextLine_named [] _ [] lines
  rw [hnext, Step.delivery_named]

/-! ### What stands behind the stem -/

/-- What stands behind the stem in the name of a fragment: nothing, or a dot and local names. -/
def IsPartPath (path : Text) : Prop := path = [] ∨ ∃ t, path = '.' :: t

theorem isPartPath_of_mem_ofLines {lines : List (Except ε Text)} {f : Fragment} (hf : f ∈ (ofLines [] lines).fragments) :
    IsPartPath f.name := by
  obtain ⟨left, -, hclosing⟩ := closes_ofLines [] lines
  obtain ⟨localNames, -, hname⟩ := Nested.isPath_of_closing hclosing .whole f hf
  rw [hname]
  cases localNames with
  | nil => exact .inl rfl
  | cons localName localNames => exact .inr ⟨_, rfl⟩

/-- **The name of a fragment is the stem of its file and the path of its part**, which is the same under every stem. -/
theorem name_of_mem_ofLines {stem : Text} {lines : List (Except ε Text)} {f : Fragment}
    (hf : f ∈ (ofLines stem lines).fragments) :
    ∃ g ∈ (ofLines [] lines).fragments, f.name = stem ++ g.name ∧ IsPartPath g.name := by
  have hnamed := ofLines_named stem [] lines
  rw [List.append_nil] at hnamed
  rw [hnamed] at hf
  obtain ⟨g, hg, rfl⟩ := List.mem_map.1 hf
  exact ⟨g, hg, rfl, isPartPath_of_mem_ofLines hg⟩

end Fragment
end Templates
