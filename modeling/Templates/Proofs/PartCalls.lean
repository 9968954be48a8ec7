import Templates.Proofs.Deliveries
/-!
# Reading part by part

The lines of a file can also be read by calls instead of steps: a part reads its lines, a line reads the parts that start on it, and
comments are taken out of a line before its next mark is looked for.  The calls share the lines that are still ahead, and give back
what is left of a line, with parts of later lines behind it.  `Call.body` says what a call does with the calls that it makes as a
parameter, and `Call.run` refuses every call whose measure is not smaller than that of the call that makes it.  None is ever
refused, and so all calls end; and without a failure no line is left (`Call.run_whole`).
-/
namespace Templates
namespace Fragment

open Document (commentStart)

variable {ε α β : Type}

/-- What a call comes to: a value, with the fragments delivered on the way and the lines left, or the failure of a line. -/
inductive Outcome (ε α : Type) where
  | returned (delivered : List Fragment) (value : α) (ahead : List (Except ε Text))
  | failed (delivered : List Fragment) (failure : ε)

/-- How a line ends for the part that takes its text. -/
inductive LineEnd where
  | reached (o : Open)
  /-- A part that starts on the line took the rest of it. -/
  | takenInside (o : Open)
  /-- The part itself ends on the line, and `rest` stands behind its end mark. -/
  | closed (o : Open) (rest : Text)

/-- The calls by which a file is read, the turns of loops among them, by what they give back.  The lines ahead are those that no
call has taken. -/
inductive Call (ε : Type) : Type → Type where
  /-- Reads a part from the line in hand on, or from the next one, and gives back what is left of its last line. -/
  | readPart (nested : Bool) (o : Open) (line? : Option Text) (ahead : List (Except ε Text)) : Call ε Text
  | readLine (nested : Bool) (o : Open) (line : Text) (ahead : List (Except ε Text)) : Call ε LineEnd
  /-- Takes out the comments that start before any part, and gives back the line without them. -/
  | stripComments (line : Text) (ahead : List (Except ε Text)) : Call ε Text
  /-- Takes out one comment, with the text before its start mark and the text behind it. -/
  | stripComment (before behind : Text) (ahead : List (Except ε Text)) : Call ε Text

namespace Outcome

def prepend (delivered : List Fragment) : Outcome ε α → Outcome ε α
  | returned more value ahead => returned (delivered ++ more) value ahead
  | failed more e => failed (delivered ++ more) e

/-- Goes on with the value of a call and the lines that it leaves. -/
def andThen (x : Option (Outcome ε α)) (next : α → List (Except ε Text) → Option (Outcome ε β)) :
    Option (Outcome ε β) :=
  match x with
  | none => none
  | some (failed delivered e) => some (failed delivered e)
  | some (returned delivered value ahead) => (next value ahead).map (prepend delivered)

/-- What a call for a whole file comes to if its lines deliver `d`: without a failure there is nothing left of any line. -/
def ofDelivery (d : Delivery ε) : Outcome ε Text :=
  match d.failure with
  | none => returned d.fragments [] []
  | some e => failed d.fragments e

end Outcome

namespace Call

/-- What a line without comments before its first mark comes to, where `ask` makes the calls that it needs. -/
def atMark (ask : {β : Type} → Call ε β → Option (Outcome ε β)) (nested : Bool) (o : Open) (line : Text)
    (ahead : List (Except ε Text)) : Option (Outcome ε LineEnd) :=
  match Mark.first line with
  | .part before ('}' :: rest) =>
    if nested then some (.returned [] (.closed (o.write before) rest) ahead)
    else ask (readLine nested (o.write (before ++ endMark)) rest ahead)
  | .part before behind => match Text.cut ['}'] behind with
    | none => some (.returned [] (.reached (o.write line)) ahead)
    | some (localName, rest) =>
      Outcome.andThen (ask (readPart true (.start (o.name ++ '.' :: localName)) (some rest) ahead)) fun rest ahead =>
        if rest = [] then some (.returned [] (.takenInside (o.write before)) ahead)
        else ask (readLine nested (o.write before) rest ahead)
  | _ => some (.returned [] (.reached (o.write line)) ahead)

/-- What a call does, where `ask` makes the calls that it needs. -/
def body (ask : {β : Type} → Call ε β → Option (Outcome ε β)) : {α : Type} → Call ε α → Option (Outcome ε α)
  | _, readPart _ o none [] => some (.returned [o.close] [] [])
  | _, readPart _ _ none (.error e :: _) => some (.failed [] e)
  | _, readPart nested o none (.ok line :: ahead) => ask (readPart nested o.leaveLine (some line) ahead)
  | _, readPart nested o (some line) ahead => Outcome.andThen (ask (readLine nested o line ahead)) fun
    | .reached o, ahead => ask (readPart nested (o.endLine (!ahead.isEmpty)) none ahead)
    | .takenInside o, ahead => ask (readPart nested o none ahead)
    | .closed o rest, ahead => some (.returned [o.close] rest ahead)
  | _, readLine nested o line ahead => Outcome.andThen (ask (stripComments line ahead)) (atMark ask nested o)
  | _, stripComments line ahead => match Mark.first line with
    | .comment before behind =>
      Outcome.andThen (ask (stripComment before behind ahead)) fun line ahead => ask (stripComments line ahead)
    | _ => some (.returned [] line ahead)
  | _, stripComment before behind ahead => match skipComment behind ahead with
    | .closed rest ahead => some (.returned [] (before ++ rest) ahead)
    | .unclosed => some (.returned [] before [])
    | .failed e => some (.failed [] e)

/-- How many bytes there are to read in the line in hand and in the lines ahead, with one more for each line ahead. -/
def size : {α : Type} → Call ε α → Nat
  | _, readPart _ _ none ahead => linesSize ahead
  | _, readPart _ _ (some line) ahead => Text.byteSize line + linesSize ahead
  | _, readLine _ _ line ahead => Text.byteSize line + linesSize ahead
  | _, stripComments line ahead => Text.byteSize line + linesSize ahead
  | _, stripComment before behind ahead => Text.byteSize (before ++ (commentStart ++ behind)) + linesSize ahead

/-- How far a call is from looking at the text itself. -/
def rank : {α : Type} → Call ε α → Nat
  | _, readPart _ _ none _ => 0
  | _, stripComment _ _ _ => 1
  | _, stripComments _ _ => 2
  | _, readLine _ _ _ _ => 3
  | _, readPart _ _ (some _) _ => 4

/-- The one measure of all calls.  What there is to read decides, and among calls with as much to read their rank. -/
def measure (c : Call ε α) : Nat := 5 * c.size + c.rank

/-- Makes a call and all calls that come of it, but for those that do not decrease the measure: these are refused. -/
def run {α : Type} (c : Call ε α) : Option (Outcome ε α) :=
  c.body fun d => if _ : d.measure < c.measure then d.run else none
termination_by c.measure

end Call

/-! ### What calls come to -/

/-- What comes behind a part that leaves `rest` of its last line to the parts around it. -/
def comeBack : List Open → Text → List (Except ε Text) → Delivery ε
  | [], _, _ => ⟨[], none⟩
  | parent :: outer, rest, ahead =>
    if rest = [] then (Reading.nextLine [] parent outer ahead).delivery else Reading.run ⟨parent, outer, rest, ahead⟩

/-- What comes behind a line. -/
def LineEnd.comeBack (outer : List Open) (ahead : List (Except ε Text)) : LineEnd → Delivery ε
  | reached o => (Reading.nextLine [] (o.endLine (!ahead.isEmpty)) outer ahead).delivery
  | takenInside o => (Reading.nextLine [] o outer ahead).delivery
  | closed o rest => (Fragment.comeBack outer rest ahead).prepend [o.close]

def LineEnd.rest : LineEnd → Text
  | closed _ rest => rest
  | _ => []

namespace Outcome

/-- Whether an outcome, with what comes behind it, amounts to a delivery. -/
def Amounts (d : Delivery ε) (behind : α → List (Except ε Text) → Delivery ε) : Outcome ε α → Prop
  | returned delivered value ahead => d = (behind value ahead).prepend delivered
  | failed delivered e => d = ⟨delivered, some e⟩

/-- Whether all that a call returns has a property. -/
def Returns (P : α → List (Except ε Text) → Prop) : Outcome ε α → Prop
  | returned _ value ahead => P value ahead
  | failed _ _ => True

variable {out : Outcome ε α} {d : Delivery ε} {behind : α → List (Except ε Text) → Delivery ε}

theorem Amounts.prepend (h : out.Amounts d behind) (delivered : List Fragment) :
    (out.prepend delivered).Amounts (d.prepend delivered) behind := by
  cases out with
  | returned more value ahead =>
    have hd : d = (behind value ahead).prepend more := h
    rw [hd, Delivery.prepend_prepend]
    rfl
  | failed more e =>
    have hd : d = ⟨more, some e⟩ := h
    rw [hd]
    rfl

theorem Returns.imp {P Q : α → List (Except ε Text) → Prop} (h : out.Returns P)
    (hPQ : ∀ value ahead, P value ahead → Q value ahead) : out.Returns Q := by
  cases out with
  | returned _ value ahead => exact hPQ value ahead h
  | failed => trivial

@[simp] theorem prepend_nil (out : Outcome ε α) : out.prepend [] = out := by
  cases out <;> rfl

theorem returns_prepend {P : α → List (Except ε Text) → Prop} (delivered : List Fragment) :
    (out.prepend delivered).Returns P ↔ out.Returns P := by
  cases out <;> rfl

/-- More calls that are made change nothing where the call already comes to something. -/
theorem andThen_mono {x x' : Option (Outcome ε α)} {next next' : α → List (Except ε Text) → Option (Outcome ε β)}
    (hx : ∀ out, x = some out → x' = some out)
    (hnext : ∀ value ahead more, next value ahead = some more → next' value ahead = some more) {out : Outcome ε β}
    (h : andThen x next = some out) : andThen x' next' = some out := by
  cases x with
  | none => cases h
  | some first =>
    rw [hx first rfl]
    cases first with
    | failed delivered e => exact h
    | returned delivered value ahead =>
      obtain ⟨more, hmore, hout⟩ := Option.map_eq_some_iff.1 h
      rw [andThen, hnext value ahead more hmore, ← hout]
      rfl

/-- **What follows a call comes to something** if it does so behind each value that the call may return. -/
theorem exists_andThen {out : Outcome ε α} {next : α → List (Except ε Text) → Option (Outcome ε β)}
    {Q : Outcome ε β → Prop} (hfailed : ∀ delivered e, out = failed delivered e → Q (failed delivered e))
    (hnext : ∀ delivered value ahead, out = returned delivered value ahead →
      ∃ more, next value ahead = some more ∧ Q (more.prepend delivered)) :
    ∃ more, andThen (some out) next = some more ∧ Q more := by
  cases out with
  | failed delivered e => exact ⟨_, rfl, hfailed delivered e rfl⟩
  | returned delivered value ahead =>
    obtain ⟨more, hmore, hQ⟩ := hnext delivered value ahead rfl
    exact ⟨_, by rw [andThen, hmore]; rfl, hQ⟩

end Outcome

/-- What comes of a part within others, from the line in hand on or from the next one. -/
def enter (o : Open) (outer : List Open) : Option Text → List (Except ε Text) → Delivery ε
  | none, ahead => (Reading.nextLine [] o outer ahead).delivery
  | some line, ahead => Reading.run ⟨o, outer, line, ahead⟩

namespace Call

/-- **What a call has to come to.**  It leaves no more to read than there was, and within any parts around it comes to what the
steps of a reading do from there on. -/
def Settles : {α : Type} → Call ε α → Outcome ε α → Prop
  | _, c@(readPart nested o line? ahead), out =>
    out.Returns (fun rest later => Text.byteSize rest + linesSize later ≤ c.size ∧
      (nested = false → rest = [] ∧ later = [])) ∧
    ∀ outer, nested = !outer.isEmpty → out.Amounts (enter o outer line? ahead) (comeBack outer)
  | _, c@(readLine nested o line ahead), out =>
    out.Returns (fun e later => Text.byteSize e.rest + linesSize later ≤ c.size ∧
      (nested = false → ∀ o rest, e ≠ .closed o rest)) ∧
    ∀ outer, nested = !outer.isEmpty →
      out.Amounts (Reading.run ⟨o, outer, line, ahead⟩) fun e later => e.comeBack outer later
  | _, c@(stripComments line ahead), out =>
    out.Returns (fun rest later => Text.byteSize rest + linesSize later ≤ c.size ∧
      ∀ before behind, Mark.first rest ≠ .comment before behind) ∧
    ∀ o outer, out.Amounts (Reading.run ⟨o, outer, line, ahead⟩) fun rest later => Reading.run ⟨o, outer, rest, later⟩
  | _, c@(stripComment before behind ahead), out =>
    out.Returns (fun rest later => Text.byteSize rest + linesSize later < c.size) ∧
    ∀ o outer line, Mark.first line = .comment before behind →
      out.Amounts (Reading.run ⟨o, outer, line, ahead⟩) fun rest later => Reading.run ⟨o, outer, rest, later⟩

/-- A line comes to what another one does that is read in its place. -/
theorem Settles.readLine_of {nested : Bool} {o o' : Open} {line line' : Text} {ahead ahead' : List (Except ε Text)}
    {out : Outcome ε LineEnd} (h : (readLine nested o' line' ahead').Settles out)
    (hsize : (readLine nested o' line' ahead').size ≤ (readLine nested o line ahead).size) {delivered : List Fragment}
    (hrun : ∀ outer, nested = !outer.isEmpty →
      Reading.run ⟨o, outer, line, ahead⟩ = (Reading.run ⟨o', outer, line', ahead'⟩).prepend delivered) :
    (readLine nested o line ahead).Settles (out.prepend delivered) := by
  obtain ⟨hreturns, hamounts⟩ := h
  refine ⟨?_, fun outer houter => ?_⟩
  · rw [Outcome.returns_prepend]
    exact hreturns.imp fun _ _ h => ⟨Nat.le_trans h.1 hsize, h.2⟩
  · rw [hrun outer houter]
    exact (hamounts outer houter).prepend delivered

/-- A part comes to what comes of it from a later line on. -/
theorem Settles.readPart_of {nested : Bool} {o o' : Open} {line? line?' : Option Text} {ahead ahead' : List (Except ε Text)}
    {out : Outcome ε Text} (h : (readPart nested o' line?' ahead').Settles out)
    (hsize : (readPart nested o' line?' ahead').size ≤ (readPart nested o line? ahead).size) {delivered : List Fragment}
    (henter : ∀ outer, nested = !outer.isEmpty →
      enter o outer line? ahead = (enter o' outer line?' ahead').prepend delivered) :
    (readPart nested o line? ahead).Settles (out.prepend delivered) := by
  obtain ⟨hreturns, hamounts⟩ := h
  refine ⟨?_, fun outer houter => ?_⟩
  · rw [Outcome.returns_prepend]
    exact hreturns.imp fun _ _ h => ⟨Nat.le_trans h.1 hsize, h.2⟩
  · rw [henter outer houter]
    exact (hamounts outer houter).prepend delivered

/-- Whether a call is made, and comes to what it has to. -/
def Answered (x : Option (Outcome ε α)) (c : Call ε α) : Prop := ∃ out, x = some out ∧ c.Settles out

variable {ask : {β : Type} → Call ε β → Option (Outcome ε β)}

theorem answered_stripComment (before behind : Text) (ahead : List (Except ε Text)) :
    Answered ((stripComment before behind ahead).body ask) (stripComment before behind ahead) := by
  have hmarkSize : Text.byteSize commentStart = 4 := rfl
  have hstep : ∀ o outer line, Mark.first line = .comment before behind →
      Reading.run ⟨o, outer, line, ahead⟩ = match skipComment behind ahead with
        | .closed rest later => Reading.run ⟨o, outer, before ++ rest, later⟩
        | .unclosed => Reading.run ⟨o, outer, before, []⟩
        | .failed e => ⟨[], some e⟩ := by
    intro o outer line hmark
    rw [Reading.run_eq, Reading.step]
    simp only [hmark]
    cases skipComment behind ahead <;> rfl
  cases hskip : skipComment behind ahead with
  | closed rest later =>
    have hsize := size_of_skipComment hskip
    refine ⟨.returned [] (before ++ rest) later, by rw [body, hskip], ?_, fun o outer line hmark => ?_⟩
    · simp only [Outcome.Returns, size, Text.byteSize_append]
      omega
    · rw [hstep o outer line hmark, hskip]
      rfl
  | unclosed =>
    refine ⟨.returned [] before [], by rw [body, hskip], ?_, fun o outer line hmark => ?_⟩
    · simp only [Outcome.Returns, size, Text.byteSize_append, linesSize_nil]
      omega
    · rw [hstep o outer line hmark, hskip]
      rfl
  | failed e =>
    refine ⟨.failed [] e, by rw [body, hskip], trivial, fun o outer line hmark => ?_⟩
    rw [hstep o outer line hmark, hskip]
    rfl

theorem size_stripComment {line before behind : Text} (h : Mark.first line = .comment before behind)
    (ahead : List (Except ε Text)) : (stripComment before behind ahead).size = (stripComments line ahead).size := by
  have hstands : (Mark.first line).StandsOn line := Mark.standsOn_first line
  rw [h] at hstands
  rw [size, size, show line = before ++ (commentStart ++ behind) from hstands]

theorem answered_stripComments {line : Text} {ahead : List (Except ε Text)}
    (hask : ∀ {β : Type} (d : Call ε β), d.measure < (stripComments line ahead).measure → Answered (ask d) d) :
    Answered ((stripComments line ahead).body ask) (stripComments line ahead) := by
  by_cases hcomment : ∃ before behind, Mark.first line = .comment before behind
  · obtain ⟨before, behind, hmark⟩ := hcomment
    have hsame := size_stripComment hmark ahead
    obtain ⟨out, hout, hsize, hamounts⟩ := hask (stripComment before behind ahead) (by simp [measure, rank, hsame])
    rw [body, hmark]
    simp only [hout]
    refine Outcome.exists_andThen (fun delivered e he => ?_) fun delivered rest later hreturned => ?_
    · subst he
      exact ⟨trivial, fun o outer => hamounts o outer line hmark⟩
    · subst hreturned
      have hless : (stripComments rest later).size < (stripComments line ahead).size := hsame ▸ hsize
      obtain ⟨more, hmore, hleft, hmoreAmounts⟩ := hask (stripComments rest later) (by simp only [measure, rank]; omega)
      refine ⟨more, hmore, ?_, fun o outer => ?_⟩
      · rw [Outcome.returns_prepend]
        exact hleft.imp fun _ _ h => ⟨Nat.le_trans h.1 (Nat.le_of_lt hless), h.2⟩
      · have hrun : Reading.run ⟨o, outer, line, ahead⟩ = (Reading.run ⟨o, outer, rest, later⟩).prepend delivered :=
          hamounts o outer line hmark
        rw [hrun]
        exact (hmoreAmounts o outer).prepend delivered
  · refine ⟨.returned [] line ahead, ?_, ⟨Nat.le_refl _, fun before behind h => hcomment ⟨before, behind, h⟩⟩,
      fun o outer => rfl⟩
    rw [body]
    split
    · next h => exact absurd ⟨_, _, h⟩ hcomment
    · rfl

/-- **The ways of a line without comments before its first mark**, for the calls and for the steps. -/
theorem atMark_cases {line : Text} (h : ∀ before behind, Mark.first line ≠ .comment before behind) (nested : Bool) (o : Open)
    (ahead : List (Except ε Text)) :
    (atMark ask nested o line ahead = some (.returned [] (.reached (o.write line)) ahead) ∧
      ∀ outer, (⟨o, outer, line, ahead⟩ : Reading ε).step = Reading.takeLine ⟨o, outer, line, ahead⟩) ∨
    (∃ before rest, Text.byteSize rest < Text.byteSize line ∧
      atMark ask nested o line ahead = (if nested then some (.returned [] (.closed (o.write before) rest) ahead)
        else ask (readLine nested (o.write (before ++ endMark)) rest ahead)) ∧
      ∀ outer, (⟨o, outer, line, ahead⟩ : Reading ε).step = Reading.endPart ⟨o, outer, line, ahead⟩ before rest) ∨
    ∃ before localName rest, Text.byteSize rest < Text.byteSize line ∧
      atMark ask nested o line ahead =
        (Outcome.andThen (ask (readPart true (.start (o.name ++ '.' :: localName)) (some rest) ahead)) fun rest ahead =>
          if rest = [] then some (.returned [] (.takenInside (o.write before)) ahead)
          else ask (readLine nested (o.write before) rest ahead)) ∧
      ∀ outer, (⟨o, outer, line, ahead⟩ : Reading ε).step =
        .onward [] (Reading.startPart ⟨o, outer, line, ahead⟩ before localName rest) := by
  unfold atMark
  split
  · next before rest hmark =>
    have hsize := byteSize_of_first_part hmark
    refine .inr (.inl ⟨before, rest, by simp at hsize; omega, rfl, fun outer => ?_⟩)
    simp only [Reading.step, hmark]
  · next before behind hnotEnd hmark =>
    have hsize := byteSize_of_first_part hmark
    split
    · next hcut =>
      refine .inl ⟨rfl, fun outer => ?_⟩
      simp only [Reading.step, hmark, hcut]
    · next localName rest hcut =>
      have hcutSize := Text.byteSize_of_cut hcut
      refine .inr (.inr ⟨before, localName, rest, by omega, rfl, fun outer => ?_⟩)
      simp only [Reading.step, hmark, hcut]
  · next hnotPart =>
    have hmark : Mark.first line = .nothing := by
      cases hm : Mark.first line with
      | nothing => rfl
      | comment before behind => exact absurd hm (h before behind)
      | part before behind => exact absurd hm (hnotPart before behind)
    refine .inl ⟨rfl, fun outer => ?_⟩
    simp only [Reading.step, hmark]

theorem delivery_endPart (o parent : Open) (outer : List Open) (line before rest : Text) (ahead : List (Except ε Text)) :
    (Reading.endPart ⟨o, parent :: outer, line, ahead⟩ before rest).delivery =
      (comeBack (parent :: outer) rest ahead).prepend [(o.write before).close] := by
  simp only [Reading.endPart, comeBack]
  split
  · exact nextLine_delivery _ _ _ _
  · rfl

theorem answered_atMark {nested : Bool} {o : Open} {line : Text} {ahead : List (Except ε Text)}
    (hcomment : ∀ before behind, Mark.first line ≠ .comment before behind)
    (hask : ∀ {β : Type} (d : Call ε β), d.measure < (readLine nested o line ahead).measure → Answered (ask d) d) :
    Answered (atMark ask nested o line ahead) (readLine nested o line ahead) := by
  rcases atMark_cases hcomment nested o ahead with ⟨hway, hstep⟩ | ⟨before, rest, hsize, hway, hstep⟩ |
    ⟨before, localName, rest, hsize, hway, hstep⟩
  · -- the line is text
    refine ⟨_, hway, ⟨by simp [LineEnd.rest, size], by simp⟩, fun outer _ => ?_⟩
    rw [Reading.run_eq, hstep]
    rfl
  · -- a part ends, or the end mark is text
    cases nested with
    | true =>
      refine ⟨_, hway, ⟨?_, by simp⟩, fun outer houter => ?_⟩
      · simp only [LineEnd.rest, size]
        omega
      · obtain ⟨parent, outer, rfl⟩ := List.exists_cons_of_ne_nil (by simpa using houter.symm)
        rw [Reading.run_eq, hstep, delivery_endPart]
        rfl
    | false =>
      obtain ⟨out, hout, hsettles⟩ := hask (readLine false (o.write (before ++ endMark)) rest ahead) (by
        simp only [measure, size, rank]
        omega)
      have hend : (readLine false o line ahead).Settles (out.prepend []) := by
        refine hsettles.readLine_of ?_ fun outer houter => ?_
        · simp only [size]
          omega
        · obtain rfl : outer = [] := by simpa using houter.symm
          rw [Reading.run_eq, hstep]
          rfl
      exact ⟨out, hway.trans hout, by simpa using hend⟩
  · -- a part starts
    have hrun : ∀ outer, Reading.run ⟨o, outer, line, ahead⟩ =
        enter (.start (o.name ++ '.' :: localName)) (o.write before :: outer) (some rest) ahead := fun outer => by
      rw [Reading.run_eq, hstep]
      rfl
    obtain ⟨out, hout, hreturns, hamounts⟩ :=
      hask (readPart true (.start (o.name ++ '.' :: localName)) (some rest) ahead) (by
        simp only [measure, size, rank]
        omega)
    rw [hway, hout]
    refine Outcome.exists_andThen (fun delivered e he => ?_) fun delivered rest' later hreturned => ?_
    · subst he
      refine ⟨trivial, fun outer _ => ?_⟩
      rw [hrun]
      exact hamounts (o.write before :: outer) rfl
    · subst hreturned
      have hless : Text.byteSize rest' + linesSize later ≤ Text.byteSize rest + linesSize ahead := hreturns.1
      have hback : ∀ outer, Reading.run ⟨o, outer, line, ahead⟩ =
          (comeBack (o.write before :: outer) rest' later).prepend delivered := fun outer => by
        rw [hrun]
        exact hamounts (o.write before :: outer) rfl
      by_cases hrest : rest' = []
      · refine ⟨_, if_pos hrest, ⟨?_, by simp⟩, fun outer _ => ?_⟩
        · simp only [LineEnd.rest, size, Text.byteSize_nil]
          omega
        · rw [hback, comeBack, if_pos hrest]
          simp [Outcome.prepend, Outcome.Amounts, LineEnd.comeBack]
      · obtain ⟨more, hmore, hsettles⟩ := hask (readLine nested (o.write before) rest' later) (by
          simp only [measure, size, rank]
          omega)
        refine ⟨more, (if_neg hrest).trans hmore, hsettles.readLine_of ?_ fun outer _ => ?_⟩
        · simp only [size]
          omega
        · rw [hback, comeBack, if_neg hrest]

theorem answered_readLine {nested : Bool} {o : Open} {line : Text} {ahead : List (Except ε Text)}
    (hask : ∀ {β : Type} (d : Call ε β), d.measure < (readLine nested o line ahead).measure → Answered (ask d) d) :
    Answered ((readLine nested o line ahead).body ask) (readLine nested o line ahead) := by
  obtain ⟨out, hout, hreturns, hamounts⟩ := hask (stripComments line ahead) (by
    simp only [measure, size, rank]
    omega)
  rw [body, hout]
  refine Outcome.exists_andThen (fun delivered e he => ?_) fun delivered rest later hreturned => ?_
  · subst he
    exact ⟨trivial, fun outer _ => hamounts o outer⟩
  · subst hreturned
    obtain ⟨hsize, hcomment⟩ := hreturns
    have hle : (readLine nested o rest later).measure ≤ (readLine nested o line ahead).measure := by
      simp only [measure, size, rank] at hsize ⊢
      omega
    obtain ⟨more, hmore, hsettles⟩ := answered_atMark hcomment fun d hd => hask d (Nat.lt_of_lt_of_le hd hle)
    have hleft : (readLine nested o rest later).size ≤ (readLine nested o line ahead).size := hsize
    exact ⟨more, hmore, hsettles.readLine_of hleft fun outer _ => hamounts o outer⟩

theorem answered_readPart_some {nested : Bool} {o : Open} {line : Text} {ahead : List (Except ε Text)}
    (hask : ∀ {β : Type} (d : Call ε β), d.measure < (readPart nested o (some line) ahead).measure → Answered (ask d) d) :
    Answered ((readPart nested o (some line) ahead).body ask) (readPart nested o (some line) ahead) := by
  obtain ⟨out, hout, hreturns, hamounts⟩ := hask (readLine nested o line ahead) (by
    simp only [measure, size, rank]
    omega)
  rw [body, hout]
  refine Outcome.exists_andThen (fun delivered e he => ?_) fun delivered e later hreturned => ?_
  · subst he
    exact ⟨trivial, fun outer houter => hamounts outer houter⟩
  · subst hreturned
    obtain ⟨hsize, hclosed⟩ := hreturns
    -- behind a line that is used up the next one is read
    have hnext : ∀ o', (∀ outer, e.comeBack outer later = (Reading.nextLine [] o' outer later).delivery) →
        ∃ more, ask (readPart nested o' none later) = some more ∧
          (readPart nested o (some line) ahead).Settles (more.prepend delivered) := by
      intro o' hback
      obtain ⟨more, hmore, hsettles⟩ := hask (readPart nested o' none later) (by
        simp only [measure, size, rank] at hsize ⊢
        omega)
      refine ⟨more, hmore, hsettles.readPart_of ?_ fun outer houter => ?_⟩
      · simp only [size] at hsize ⊢
        omega
      · have henter : enter o outer (some line) ahead = (e.comeBack outer later).prepend delivered := hamounts outer houter
        rw [henter, hback]
        rfl
    cases e with
    | reached o' => exact hnext _ fun outer => rfl
    | takenInside o' => exact hnext _ fun outer => rfl
    | closed o' rest =>
      refine ⟨_, rfl, ⟨hsize, fun hnested => absurd rfl (hclosed hnested o' rest)⟩, fun outer houter => ?_⟩
      have hrun : Reading.run ⟨o, outer, line, ahead⟩ =
          ((comeBack outer rest later).prepend [o'.close]).prepend delivered := hamounts outer houter
      rw [enter, hrun, Delivery.prepend_prepend]
      rfl

theorem answered_readPart_none {nested : Bool} {o : Open} {ahead : List (Except ε Text)}
    (hask : ∀ {β : Type} (d : Call ε β), d.measure < (readPart nested o none ahead).measure → Answered (ask d) d) :
    Answered ((readPart nested o none ahead).body ask) (readPart nested o none ahead) := by
  match ahead with
  | [] =>
    refine ⟨_, rfl, ⟨by simp [size], fun _ => ⟨rfl, rfl⟩⟩, fun outer _ => ?_⟩
    cases outer <;> rfl
  | .error e :: later => exact ⟨_, rfl, trivial, fun outer _ => rfl⟩
  | .ok line :: later =>
    obtain ⟨out, hout, hsettles⟩ := hask (readPart nested o.leaveLine (some line) later) (by
      simp only [measure, size, rank, linesSize_cons, lineSize]
      omega)
    have hnext : (readPart nested o none (.ok line :: later)).Settles (out.prepend []) := by
      refine hsettles.readPart_of ?_ fun outer _ => ?_
      · simp only [size, linesSize_cons, lineSize]
        omega
      · rw [Delivery.prepend_nil]
        rfl
    exact ⟨out, hout, by simpa using hnext⟩

/-- **No call is refused**, and each comes to what it has to. -/
theorem answered_run {α : Type} (c : Call ε α) : Answered c.run c := by
  have hask : ∀ {β : Type} (d : Call ε β), d.measure < c.measure →
      Answered (if _ : d.measure < c.measure then d.run else none) d := fun d hd => by
    rw [dif_pos hd]
    exact answered_run d
  rw [run]
  match c with
  | readPart _ _ none _ => exact answered_readPart_none hask
  | readPart _ _ (some _) _ => exact answered_readPart_some hask
  | readLine _ _ _ _ => exact answered_readLine hask
  | stripComments _ _ => exact answered_stripComments hask
  | stripComment before behind ahead => exact answered_stripComment before behind ahead
termination_by c.measure

/-! ### Calls that are refused -/

section Mono

variable {ask ask' : {β : Type} → Call ε β → Option (Outcome ε β)}
  (hask : ∀ {β : Type} (d : Call ε β) (out : Outcome ε β), ask d = some out → ask' d = some out)

include hask

theorem atMark_mono {nested : Bool} {o : Open} {line : Text} {ahead : List (Except ε Text)} {out : Outcome ε LineEnd}
    (h : atMark ask nested o line ahead = some out) : atMark ask' nested o line ahead = some out := by
  unfold atMark at h ⊢
  split at h
  · split at h
    · next hnested => rw [if_pos hnested]; exact h
    · next hnested => rw [if_neg hnested]; exact hask _ _ h
  · split at h
    · exact h
    · refine Outcome.andThen_mono (hask _) (fun rest later more hmore => ?_) h
      split at hmore
      · next hrest => rw [if_pos hrest]; exact hmore
      · next hrest => rw [if_neg hrest]; exact hask _ _ hmore
  · exact h

theorem body_mono : ∀ {α : Type} {c : Call ε α} {out : Outcome ε α}, c.body ask = some out → c.body ask' = some out
  | _, readPart _ _ none [], _, h => h
  | _, readPart _ _ none (.error _ :: _), _, h => h
  | _, readPart _ _ none (.ok _ :: _), _, h => hask _ _ h
  | _, readPart _ _ (some _) _, _, h => by
    refine Outcome.andThen_mono (hask _) (fun e later more hmore => ?_) h
    cases e with
    | reached o => exact hask _ _ hmore
    | takenInside o => exact hask _ _ hmore
    | closed o rest => exact hmore
  | _, readLine _ _ _ _, _, h => Outcome.andThen_mono (hask _) (fun _ _ _ hmore => atMark_mono hask hmore) h
  | _, stripComments _ _, _, h => by
    rw [body] at h ⊢
    split at h
    · exact Outcome.andThen_mono (hask _) (fun _ _ _ hmore => hask _ _ hmore) h
    · exact h
  | _, stripComment _ _ _, _, h => h

end Mono

/-- **Refusing calls makes no difference**: a call comes to what it does when every call that it needs is made. -/
theorem body_run {c : Call ε α} {out : Outcome ε α} (h : c.run = some out) : c.body run = some out := by
  rw [run] at h
  refine body_mono (fun d more hd => ?_) h
  split at hd
  · exact hd
  · cases hd

/-- **Reading by calls ends and leaves nothing unread**, whatever marks lines hold.  Each call comes to something although it is
refused all calls that do not decrease the measure, and it comes to the same if they are all made.  The call for a whole file
delivers what the steps of a reading do, and fails if they fail, and otherwise nothing is left of the line in hand nor of the lines
ahead. -/
theorem run_whole (stem : Text) (lines : List (Except ε Text)) :
    (∀ {α : Type} (c : Call ε α), ∃ out, c.run = some out ∧ c.body run = some out) ∧
    (readPart false (.whole stem) none lines).run = some (.ofDelivery (ofLines stem lines)) := by
  refine ⟨fun c => ?_, ?_⟩
  · obtain ⟨out, hout, -⟩ := answered_run c
    exact ⟨out, hout, body_run hout⟩
  · obtain ⟨out, hout, hreturns, hamounts⟩ := answered_run (readPart false (.whole stem) none lines)
    have hdelivery := hamounts [] rfl
    rw [enter, ← ofLines_eq] at hdelivery
    rw [hout]
    cases out with
    | returned delivered rest later =>
      obtain ⟨-, hread⟩ := hreturns
      obtain ⟨rfl, rfl⟩ := hread rfl
      have hfragments : ofLines stem lines = ⟨delivered, none⟩ := by
        simpa [Outcome.Amounts, comeBack, Delivery.prepend] using hdelivery
      rw [hfragments]
      rfl
    | failed delivered e =>
      have hfailed : ofLines stem lines = ⟨delivered, some e⟩ := hdelivery
      rw [hfailed]
      rfl

end Call

end Fragment
end Templates
