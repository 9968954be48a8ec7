import Templates.Proofs.Deliveries
/-!
# The order of delivery

The parts that are open at a moment are each inside the next one, and the file itself is the outermost (`Nested`).  A part
opens inside the innermost one, and what ends is the innermost one (`Closing`), whatever marks are missing or stray.  So the
fragment of the file comes last, and behind every other one comes that of the part around it (`inOrder_ofLines`).
-/
namespace Templates
namespace Fragment

variable {ε : Type}

/-- The name of a part directly inside the part of the name `parent`. -/
def IsPartOf (name parent : Text) : Prop :=
  ∃ localName : Text, localName ≠ [] ∧ '}' ∉ localName ∧ name = parent ++ '.' :: localName

/-- The name of a file's part at some depth, or of the file itself. -/
def IsPath (stem name : Text) : Prop :=
  ∃ localNames : List Text, (∀ n ∈ localNames, n ≠ [] ∧ '}' ∉ n) ∧ name = stem ++ localNames.flatMap ('.' :: ·)

theorem IsPath.stem (stem : Text) : IsPath stem stem := ⟨[], by simp, by simp⟩

theorem IsPath.part {stem name parent : Text} (hparent : IsPath stem parent) (h : IsPartOf name parent) :
    IsPath stem name := by
  obtain ⟨localNames, hlocal, rfl⟩ := hparent
  obtain ⟨localName, hne, hbrace, rfl⟩ := h
  refine ⟨localNames ++ [localName], fun n hn => ?_, by simp⟩
  rcases List.mem_append.1 hn with hn | hn
  · exact hlocal n hn
  · rw [List.mem_singleton.1 hn]
    exact ⟨hne, hbrace⟩

/-- A part is never named like the file. -/
theorem IsPath.ne_of_isPartOf {stem name parent : Text} (hparent : IsPath stem parent) (h : IsPartOf name parent) :
    name ≠ stem := by
  obtain ⟨localNames, -, rfl⟩ := hparent
  obtain ⟨localName, -, -, rfl⟩ := h
  intro heq
  have hlen := congrArg List.length heq
  simp at hlen

/-- **How the parts that are open become others** while fragments are delivered; the names are those of the open parts, the
innermost first. -/
inductive Closing : List Text → List Fragment → List Text → Prop where
  | done (names : List Text) : Closing names [] names
  | start {name parent : Text} {names left : List Text} {fragments : List Fragment} :
      IsPartOf name parent → Closing (name :: parent :: names) fragments left → Closing (parent :: names) fragments left
  | close {f : Fragment} {names left : List Text} {fragments : List Fragment} :
      Closing names fragments left → Closing (f.name :: names) (f :: fragments) left

namespace Closing

variable {names left left' : List Text} {fragments fragments' : List Fragment}

theorem trans (h : Closing names fragments left) (h' : Closing left fragments' left') :
    Closing names (fragments ++ fragments') left' := by
  induction h with
  | done => exact h'
  | start hpart _ ih => exact .start hpart (ih h')
  | close _ ih => exact .close (ih h')

theorem all : ∀ opened : List Open, Closing (opened.map Open.name) (opened.map Open.close) []
  | [] => .done []
  | o :: opened => .close (f := o.close) (all opened)

theorem of_nil (h : Closing [] fragments left) : fragments = [] ∧ left = [] := by
  cases h
  exact ⟨rfl, rfl⟩

/-- **Each open part is delivered** or stays open. -/
theorem delivered_or_left (h : Closing names fragments left) :
    ∀ name ∈ names, name ∈ left ∨ ∃ f ∈ fragments, f.name = name := by
  induction h with
  | done names => exact fun name hname => .inl hname
  | start _ _ ih => exact fun name hname => ih name (List.mem_cons_of_mem _ hname)
  | @close f names left fragments _ ih =>
    intro name hname
    rcases List.mem_cons.1 hname with rfl | hname
    · exact .inr ⟨f, List.mem_cons_self, rfl⟩
    · rcases ih name hname with hleft | ⟨g, hg, rfl⟩
      · exact .inl hleft
      · exact .inr ⟨g, List.mem_cons_of_mem f hg, rfl⟩

end Closing

/-! ### What a reading delivers -/

def Reading.names (r : Reading ε) : List Text := (r.inner :: r.outer).map Open.name

theorem Reading.names_of_outer {r : Reading ε} {parent : Open} {outer : List Open} (h : r.outer = parent :: outer) :
    r.names = r.inner.name :: (parent :: outer).map Open.name := by
  rw [names, h]
  rfl

/-- Whether a step closes parts in order; a step that fails leaves the file open. -/
def Step.Closes (names : List Text) : Step ε → Prop
  | .onward delivered next => Closing names delivered next.names
  | .ended delivered => Closing names delivered []
  | .failed delivered _ => ∃ left, left ≠ [] ∧ Closing names delivered left

/-- Whether a delivery closes parts in order, and all of them exactly when nothing failed. -/
def Delivery.Closes (names : List Text) (d : Delivery ε) : Prop :=
  ∃ left, (d.failure = none ↔ left = []) ∧ Closing names d.fragments left

theorem closes_nextLine {names : List Text} {delivered : List Fragment} {inner : Open} {outer : List Open}
    (h : Closing names delivered ((inner :: outer).map Open.name)) (ahead : List (Except ε Text)) :
    (Reading.nextLine delivered inner outer ahead).Closes names := by
  match ahead with
  | [] => exact h.trans (.all (inner :: outer))
  | .error e :: later => exact ⟨_, List.cons_ne_nil _ _, h⟩
  | .ok line :: later => exact h

/-- **A step opens a part inside the innermost one, or ends the innermost ones.** -/
theorem closes_step (r : Reading ε) : r.step.Closes r.names := by
  have hdoes := r.does_step
  generalize r.step = s at hdoes ⊢
  cases hdoes with
  | takeLine =>
    refine closes_nextLine ?_ r.ahead
    have hname : ((r.inner.write r.line).endLine (!r.ahead.isEmpty)).name = r.inner.name := Open.name_endLine _ _
    rw [List.map_cons, hname]
    exact .done r.names
  | skipComment => exact .done r.names
  | skipAll => exact .done r.names
  | failInComment => exact ⟨r.names, List.cons_ne_nil _ _, .done r.names⟩
  | keepEndMark => exact .done r.names
  | @endPart before rest parent outer _ houter _ =>
    rw [Reading.names_of_outer houter]
    exact .close (f := (r.inner.write before).close) (.done _)
  | @endPartAndLine before parent outer _ houter =>
    rw [Reading.names_of_outer houter]
    exact closes_nextLine (.close (f := (r.inner.write before).close) (.done _)) r.ahead
  | @startPart before localName rest _ hne hbrace =>
    exact .start ⟨localName, hne, hbrace, rfl⟩ (.done _)

theorem closes_delivery {names : List Text} {s : Step ε} (h : s.Closes names)
    (hrun : ∀ delivered next, s = .onward delivered next → next.run.Closes next.names) : s.delivery.Closes names := by
  cases s with
  | ended delivered => exact ⟨[], by simp [Step.delivery], h⟩
  | failed delivered e =>
    obtain ⟨left, hleft, hclosing⟩ := h
    exact ⟨left, by simp [Step.delivery, hleft], hclosing⟩
  | onward delivered next =>
    obtain ⟨left, hleft, hclosing⟩ := hrun delivered next rfl
    exact ⟨left, hleft, h.trans hclosing⟩

theorem closes_run (r : Reading ε) : r.run.Closes r.names := by
  rw [Reading.run_eq]
  refine closes_delivery (closes_step r) fun delivered next hnext => ?_
  have := Reading.size_lt_of_step hnext
  exact closes_run next
termination_by r.size

/-- **Each part that is open is delivered** in the end, if the lines do not fail. -/
theorem exists_delivered {r : Reading ε} (h : firstFailure? r.ahead = none) :
    ∀ name ∈ r.names, ∃ f ∈ r.run.fragments, f.name = name := by
  obtain ⟨left, hleft, hclosing⟩ := closes_run r
  obtain rfl : left = [] := hleft.1 (r.failure_run.trans h)
  intro name hname
  rcases hclosing.delivered_or_left name hname with hmem | hdelivered
  · cases hmem
  · exact hdelivered

/-- **The parts of a file are closed in order**, up to the file itself if its lines do not fail. -/
theorem closes_ofLines (stem : Text) (lines : List (Except ε Text)) : (ofLines stem lines).Closes [stem] := by
  rw [ofLines_eq]
  exact closes_delivery (closes_nextLine (.done [stem]) lines) fun delivered next _ => closes_run next

/-! ### The names, in the order of delivery -/

/-- Names of which each is that of a part directly inside the next one, up to the file. -/
inductive Nested (stem : Text) : List Text → Prop where
  | nothing : Nested stem []
  | whole : Nested stem [stem]
  | part {name parent : Text} {names : List Text} :
      IsPartOf name parent → Nested stem (parent :: names) → Nested stem (name :: parent :: names)

namespace Nested

variable {stem : Text} {names left : List Text} {fragments : List Fragment}

theorem tail {name : Text} (h : Nested stem (name :: names)) : Nested stem names := by
  cases h with
  | whole => exact .nothing
  | part _ h => exact h

theorem isPath {name : Text} : ∀ {names : List Text}, Nested stem (name :: names) → IsPath stem name
  | [], .whole => .stem stem
  | _ :: _, .part hpart h => h.isPath.part hpart

theorem isPath_of_closing (h : Closing names fragments left) (hnested : Nested stem names) :
    ∀ f ∈ fragments, IsPath stem f.name := by
  induction h with
  | done => simp
  | start hpart _ ih => exact ih (.part hpart hnested)
  | close _ ih =>
    intro g hg
    rcases List.mem_cons.1 hg with rfl | hg
    · exact hnested.isPath
    · exact ih hnested.tail g hg

/-- As long as the file itself is open, nothing is delivered under its name. -/
theorem ne_stem_of_closing (h : Closing names fragments left) (hnested : Nested stem names) (hleft : left ≠ []) :
    ∀ f ∈ fragments, f.name ≠ stem := by
  induction h with
  | done => simp
  | start hpart _ ih => exact ih (.part hpart hnested) hleft
  | close hclosing ih =>
    intro g hg
    rcases List.mem_cons.1 hg with rfl | hg
    · cases hnested with
      | whole => exact absurd hclosing.of_nil.2 hleft
      | part hpart h => exact h.isPath.ne_of_isPartOf hpart
    · exact ih hnested.tail hleft g hg

theorem last_of_closing (h : Closing names fragments left) (hnested : Nested stem names) (hnames : names ≠ [])
    (hleft : left = []) : ∃ earlier f, fragments = earlier ++ [f] ∧ f.name = stem := by
  induction h with
  | done => exact absurd hleft hnames
  | start hpart _ ih => exact ih (.part hpart hnested) (List.cons_ne_nil _ _) hleft
  | @close f names left fragments hclosing ih =>
    cases hnested with
    | whole =>
      obtain ⟨rfl, -⟩ := hclosing.of_nil
      exact ⟨[], f, rfl, rfl⟩
    | part hpart h =>
      obtain ⟨earlier, last, rfl, hlast⟩ := ih h (List.cons_ne_nil _ _) hleft
      exact ⟨f :: earlier, last, rfl, hlast⟩

theorem parent_of_closing (h : Closing names fragments left) (hnested : Nested stem names) (hleft : left = []) :
    ∀ earlier f later, fragments = earlier ++ f :: later → later ≠ [] → ∃ g ∈ later, IsPartOf f.name g.name := by
  induction h with
  | done => simp
  | start hpart _ ih => exact ih (.part hpart hnested) hleft
  | @close f names left fragments hclosing ih =>
    intro earlier g later heq hlater
    cases earlier with
    | nil =>
      obtain ⟨rfl, rfl⟩ := List.cons.inj heq
      cases hnested with
      | whole => exact absurd hclosing.of_nil.1 hlater
      | @part _ parent _ hpart h =>
        subst hleft
        rcases hclosing.delivered_or_left parent List.mem_cons_self with hmem | ⟨g, hg, rfl⟩
        · cases hmem
        · exact ⟨g, hg, hpart⟩
    | cons e earlier =>
      obtain ⟨-, rfl⟩ := List.cons.inj heq
      exact ih hnested.tail hleft earlier g later rfl hlater

end Nested

/-- **Fragments in the order of a file that is read to its end.** -/
structure InOrder (stem : Text) (fragments : List Fragment) : Prop where
  /-- The fragment of the file comes last. -/
  last : ∃ earlier f, fragments = earlier ++ [f] ∧ f.name = stem
  /-- Behind each other fragment comes that of the part around it. -/
  parent : ∀ earlier f later, fragments = earlier ++ f :: later → later ≠ [] → ∃ g ∈ later, IsPartOf f.name g.name
  /-- Every name is the stem of the file with local names behind it. -/
  path : ∀ f ∈ fragments, IsPath stem f.name

/-- **Whatever marks lines hold, their fragments come in order**: each part before the part around it, and the file last. -/
theorem inOrder_ofLines (stem : Text) (lines : List Text) :
    InOrder stem (ofLines stem (lines.map (Except.ok (ε := ε)))).fragments := by
  obtain ⟨left, hleft, hclosing⟩ := closes_ofLines stem (lines.map (Except.ok (ε := ε)))
  have hall : left = [] := hleft.1 ((failure_ofLines stem _).trans (firstFailure?_map_ok lines))
  exact ⟨Nested.last_of_closing hclosing .whole (List.cons_ne_nil _ _) hall,
    Nested.parent_of_closing hclosing .whole hall, Nested.isPath_of_closing hclosing .whole⟩

end Fragment
end Templates
