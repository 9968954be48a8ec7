import Templates.Proofs.PartCalls
import Templates.Proofs.Ranges
/-!
# Lines at offsets

The calls by which a file is read find their marks by offsets: a line is sliced before and behind a mark, an end mark that is text
is cut off the line in place, and a comment comes first only if its offset is below that of the first part.  An access that is not
allowed comes to nothing.  The first mark of a line is the first of two cuts (`Mark.first_eq_ofCuts`), and so each call at offsets
does what the call does (`bodyAt?_eq`) and comes to the same (`runAt?_eq_run`).  For a whole file that is what the steps of a
reading deliver (`runAt?_whole`).
-/
namespace Templates
namespace Fragment

open Document (commentStart)
open Text (byteSize slice? replaceRange? dropBytes? firstOffset? firstUnescaped?)

variable {ε α : Type}

/-! ### Calls at offsets -/

namespace Call

/-- Looks for the end of a comment on the lines ahead. -/
def endCommentAt? (before : Text) : List (Except ε Text) → Option (Outcome ε Text)
  | [] => some (.returned [] before [])
  | .error e :: _ => some (.failed [] e)
  | .ok line :: ahead => do
    match ← firstUnescaped? commentEnd 0 line with
    | none => endCommentAt? before ahead
    | some place =>
      let rest ← dropBytes? (place + 3) line
      return .returned [] (before ++ rest) ahead

/-- Takes out the comment at an offset of a line. -/
def stripCommentAt? (line : Text) (start : Nat) (ahead : List (Except ε Text)) : Option (Outcome ε Text) := do
  let before ← slice? 0 start line
  match ← firstUnescaped? commentEnd (start + 4) line with
  | none => endCommentAt? before ahead
  | some place =>
    let rest ← dropBytes? (place + 3) line
    return .returned [] (before ++ rest) ahead

/-- What a line comes to whose first mark is looked for as the start of a part. -/
def lineAt? (ask : {β : Type} → Call ε β → Option (Outcome ε β)) (nested : Bool) (o : Open) (line : Text)
    (ahead : List (Except ε Text)) : Option (Outcome ε LineEnd) := do
  match ← firstOffset? ['{', '#'] 0 line with
  | none => return .returned [] (.reached (o.write line)) ahead
  | some marker =>
    let marked ← dropBytes? marker line
    if endMark.isPrefixOf marked then
      if nested then
        let before ← slice? 0 marker line
        let rest ← dropBytes? (marker + 3) line
        return .returned [] (.closed (o.write before) rest) ahead
      else
        let text ← slice? 0 (marker + 3) line
        let rest ← replaceRange? 0 (marker + 3) [] line
        ask (readLine nested (o.write text) rest ahead)
    else match ← firstOffset? ['}'] (marker + 2) line with
      | none => return .returned [] (.reached (o.write line)) ahead
      | some nameEnd =>
        let before ← slice? 0 marker line
        let localName ← slice? (marker + 2) nameEnd line
        let rest ← dropBytes? (nameEnd + 1) line
        Outcome.andThen (ask (readPart true (.start (o.name ++ '.' :: localName)) (some rest) ahead)) fun rest ahead =>
          if rest = [] then some (.returned [] (.takenInside (o.write before)) ahead)
          else ask (readLine nested (o.write before) rest ahead)

/-- What a call does if all that it looks at in a line is found by its offset. -/
def bodyAt? (ask : {β : Type} → Call ε β → Option (Outcome ε β)) : {α : Type} → Call ε α → Option (Outcome ε α)
  | _, readPart nested o line? ahead => (readPart nested o line? ahead).body ask
  | _, readLine nested o line ahead => Outcome.andThen (ask (stripComments line ahead)) (lineAt? ask nested o)
  | _, stripComments line ahead => do
    match ← firstOffset? commentStart 0 line with
    | none => return .returned [] line ahead
    | some start =>
      let part ← firstOffset? ['{', '#'] 0 line
      if part.any (· < start) then return .returned [] line ahead
      else Outcome.andThen (stripCommentAt? line start ahead) fun line ahead => ask (stripComments line ahead)
  | _, stripComment before behind ahead => stripCommentAt? (before ++ (commentStart ++ behind)) (byteSize before) ahead

/-- Makes a call at offsets, and the calls that come of it as `Call.run` does. -/
def runAt? {α : Type} (c : Call ε α) : Option (Outcome ε α) :=
  c.bodyAt? fun d => if _ : d.measure < c.measure then d.runAt? else none
termination_by c.measure

end Call

/-! ### Marks and cuts -/

/-- The first mark of a line from its cuts at the start of a comment and at the start of a part. -/
def Mark.ofCuts : Option (Text × Text) → Option (Text × Text) → Mark
  | none, none => .nothing
  | none, some (before, behind) => .part before behind
  | some (before, behind), none => .comment before behind
  | some (before, behind), some (before', behind') =>
    if byteSize before' < byteSize before then .part before' behind' else .comment before behind

theorem Mark.push_ofCuts (c : Char) (comment part : Option (Text × Text)) :
    (Mark.ofCuts comment part).push c = .ofCuts (comment.map fun parts => (c :: parts.1, parts.2))
      (part.map fun parts => (c :: parts.1, parts.2)) := by
  rcases comment with - | ⟨before, behind⟩ <;> rcases part with - | ⟨before', behind'⟩
  · rfl
  · rfl
  · rfl
  · simp only [ofCuts, Option.map_some, Text.byteSize_cons, Nat.add_lt_add_iff_left]
    split <;> rfl

/-- **The first mark of a line is the first of the two cuts.** -/
theorem Mark.first_eq_ofCuts (t : Text) : Mark.first t = .ofCuts (Text.cut commentStart t) (Text.cut ['{', '#'] t) := by
  induction t using first.induct with
  | case1 => rfl
  | case2 t =>
    have hpart : Text.cut ['{', '#'] ('{' :: '#' :: t) = some ([], t) := by simp [Text.cut]
    -- a comment can only start further on, so the part comes first
    have hcomment : Text.cut commentStart ('{' :: '#' :: t) =
        (Text.cut commentStart ('#' :: t)).map fun parts => ('{' :: parts.1, parts.2) := by
      simp [Text.cut, commentStart]
    rw [first, hpart, hcomment]
    cases Text.cut commentStart ('#' :: t) with
    | none => rfl
    | some parts => simp [ofCuts, Nat.add_pos_left (Char.utf8Size_pos _)]
  | case3 t =>
    have hcomment : Text.cut commentStart ('{' :: '!' :: '-' :: '-' :: t) = some ([], t) := by simp [Text.cut, commentStart]
    rw [first, hcomment]
    cases Text.cut ['{', '#'] ('{' :: '!' :: '-' :: '-' :: t) with
    | none => rfl
    | some parts => simp [ofCuts]
  | case4 c t hpart hcomment ih =>
    have hnoPart : ¬ ['{', '#'] <+: c :: t := by
      rintro ⟨u, hu⟩
      cases hu
      exact hpart u rfl rfl
    have hnoComment : ¬ commentStart <+: c :: t := by
      rintro ⟨u, hu⟩
      cases hu
      exact hcomment u rfl rfl
    rw [Text.cut_cons_of_not_prefix hnoPart, Text.cut_cons_of_not_prefix hnoComment, ← push_ofCuts, ← ih, first]
    · exact hpart
    · exact hcomment

theorem Mark.ofCuts_of_no_comment {comment part : Option (Text × Text)}
    (h : ∀ before behind, Mark.ofCuts comment part ≠ .comment before behind) :
    Mark.ofCuts comment part = .ofCuts none part := by
  rcases comment with - | ⟨before, behind⟩
  · rfl
  · rcases part with - | ⟨before', behind'⟩
    · exact absurd rfl (h before behind)
    · by_cases hless : byteSize before' < byteSize before
      · exact if_pos hless
      · exact absurd (if_neg hless) (h before behind)

theorem Mark.first_eq_of_no_comment {t : Text} (h : ∀ before behind, Mark.first t ≠ .comment before behind) :
    Mark.first t = .ofCuts none (Text.cut ['{', '#'] t) := by
  rw [first_eq_ofCuts] at h ⊢
  exact ofCuts_of_no_comment h

theorem Outcome.andThen_congr {β : Type} {x : Option (Outcome ε α)}
    {next next' : α → List (Except ε Text) → Option (Outcome ε β)}
    (h : ∀ delivered value ahead, x = some (.returned delivered value ahead) → next value ahead = next' value ahead) :
    andThen x next = andThen x next' := by
  match x with
  | none => rfl
  | some (.failed _ _) => rfl
  | some (.returned delivered value ahead) => rw [andThen, andThen, h delivered value ahead rfl]

/-! ### Calls and calls at offsets -/

namespace Call

variable {ask : {β : Type} → Call ε β → Option (Outcome ε β)} {before behind line : Text} {ahead : List (Except ε Text)}

theorem endCommentAt?_eq (hbehind : Text.cutUnescaped commentEnd behind = none) (before : Text) (ahead : List (Except ε Text)) :
    endCommentAt? before ahead = (stripComment before behind ahead).body ask := by
  induction ahead generalizing behind with
  | nil => rw [endCommentAt?, body, skipComment.eq_def, hbehind]
  | cons next ahead ih =>
    cases next with
    | error e => rw [endCommentAt?, body, skipComment.eq_def, hbehind]
    | ok line =>
      have hskip : skipComment behind (.ok line :: ahead) = skipComment line ahead := by
        rw [skipComment.eq_def, hbehind]
      rw [endCommentAt?, body, hskip, Text.firstUnescaped?_zero]
      cases hcut : Text.cutUnescaped commentEnd line with
      | none => exact ih hcut
      | some parts =>
        obtain ⟨within, rest⟩ := parts
        obtain rfl := Text.eq_append_of_cutUnescaped hcut
        have hrest : dropBytes? (byteSize within + 3) (within ++ (commentEnd ++ rest)) = some rest :=
          Text.dropBytes?_eq_of (within ++ commentEnd) (by simp) (by rw [Text.byteSize_append]; rfl)
        rw [skipComment.eq_def, hcut]
        simp only [hrest, Option.map_some, Option.bind_eq_bind, Option.bind_some, Option.pure_def]

theorem stripCommentAt?_eq (before behind : Text) (ahead : List (Except ε Text)) :
    stripCommentAt? (before ++ (commentStart ++ behind)) (byteSize before) ahead =
      (stripComment before behind ahead).body ask := by
  have hmark : byteSize (before ++ commentStart) = byteSize before + 4 := by rw [Text.byteSize_append]; rfl
  have hsearch := Text.firstUnescaped?_eq_of commentEnd _ _ (List.append_assoc before commentStart behind).symm hmark
  rw [stripCommentAt?, Text.slice?_zero, hsearch]
  cases hcut : Text.cutUnescaped commentEnd behind with
  | none => exact endCommentAt?_eq hcut before ahead
  | some parts =>
    obtain ⟨within, rest⟩ := parts
    obtain rfl := Text.eq_append_of_cutUnescaped hcut
    have hrest : dropBytes? (byteSize before + 4 + byteSize within + 3)
        (before ++ (commentStart ++ (within ++ (commentEnd ++ rest)))) = some rest :=
      Text.dropBytes?_eq_of (before ++ commentStart ++ within ++ commentEnd) (by simp)
        (by rw [Text.byteSize_append, Text.byteSize_append, hmark]; rfl)
    rw [body, skipComment.eq_def, hcut]
    simp only [hrest, Option.map_some, Option.bind_eq_bind, Option.bind_some, Option.pure_def]

/-- Comments before the first part are found by comparing two offsets. -/
theorem bodyAt?_stripComments (hask : ∀ before behind, line = before ++ (commentStart ++ behind) →
      ask (stripComment before behind ahead) = (stripComment before behind ahead).body ask) :
    (stripComments line ahead).bodyAt? ask = (stripComments line ahead).body ask := by
  rw [bodyAt?, body, Mark.first_eq_ofCuts, Text.firstOffset?_zero, Text.firstOffset?_zero]
  cases hcut : Text.cut commentStart line with
  | none => cases Text.cut ['{', '#'] line <;> rfl
  | some parts =>
    obtain ⟨before, behind⟩ := parts
    obtain rfl := Text.eq_append_of_cut hcut
    have hstrip := (stripCommentAt?_eq before behind ahead).trans (hask before behind rfl).symm
    simp only [Option.map_some, Option.bind_eq_bind, Option.bind_some, hstrip]
    cases Text.cut ['{', '#'] (before ++ (commentStart ++ behind)) with
    | none => rfl
    | some parts =>
      by_cases hless : byteSize parts.1 < byteSize before <;> simp [Mark.ofCuts, hless]

/-- An end mark ends the part that is read, or else is text. -/
theorem lineAt?_of_end {before rest : Text}
    (hcut : Text.cut ['{', '#'] (before ++ (endMark ++ rest)) = some (before, '}' :: rest)) (nested : Bool) (o : Open)
    (ahead : List (Except ε Text)) :
    lineAt? ask nested o (before ++ (endMark ++ rest)) ahead =
      if nested then some (.returned [] (.closed (o.write before) rest) ahead)
      else ask (readLine nested (o.write (before ++ endMark)) rest ahead) := by
  have hend : byteSize (before ++ endMark) = byteSize before + 3 := by rw [Text.byteSize_append]; rfl
  have hmarked : endMark.isPrefixOf (endMark ++ rest) := List.isPrefixOf_iff_prefix.2 (List.prefix_append _ _)
  have hrest : dropBytes? (byteSize before + 3) (before ++ (endMark ++ rest)) = some rest :=
    Text.dropBytes?_eq_of (before ++ endMark) (List.append_assoc ..).symm hend
  have htext : slice? 0 (byteSize before + 3) (before ++ (endMark ++ rest)) = some (before ++ endMark) :=
    Text.slice?_eq_of [] rest (List.append_assoc ..).symm rfl ((Nat.zero_add _).trans hend)
  have hreplaced : replaceRange? 0 (byteSize before + 3) [] (before ++ (endMark ++ rest)) = some rest :=
    Text.replaceRange?_eq_of [] (before ++ endMark) rest (List.append_assoc ..).symm rfl ((Nat.zero_add _).trans hend) []
  rw [lineAt?, Text.firstOffset?_zero, hcut]
  simp only [Option.map_some, Option.bind_eq_bind, Option.bind_some, Text.dropBytes?_byteSize_append, Text.slice?_zero, hmarked,
    hrest, htext, hreplaced, if_true, Option.pure_def]

/-- A start mark starts a part where the name of the part ends. -/
theorem lineAt?_of_start {before behind : Text}
    (hcut : Text.cut ['{', '#'] (before ++ (['{', '#'] ++ behind)) = some (before, behind))
    (hclosing : ∀ rest, behind ≠ '}' :: rest) (nested : Bool) (o : Open) (ahead : List (Except ε Text)) :
    lineAt? ask nested o (before ++ (['{', '#'] ++ behind)) ahead = match Text.cut ['}'] behind with
      | none => some (.returned [] (.reached (o.write (before ++ (['{', '#'] ++ behind)))) ahead)
      | some (localName, rest) =>
        Outcome.andThen (ask (readPart true (.start (o.name ++ '.' :: localName)) (some rest) ahead)) fun rest ahead =>
          if rest = [] then some (.returned [] (.takenInside (o.write before)) ahead)
          else ask (readLine nested (o.write before) rest ahead) := by
  have hstart : byteSize (before ++ ['{', '#']) = byteSize before + 2 := by rw [Text.byteSize_append]; rfl
  have hmarked : ¬ endMark.isPrefixOf (['{', '#'] ++ behind) := by
    rw [List.isPrefixOf_iff_prefix]
    rintro ⟨rest, hrest⟩
    exact hclosing rest (by simpa [endMark, eq_comm] using hrest)
  rw [lineAt?, Text.firstOffset?_zero, hcut]
  simp only [Option.map_some, Option.bind_eq_bind, Option.bind_some, Text.dropBytes?_byteSize_append, Text.slice?_zero]
  rw [if_neg hmarked, Text.firstOffset?_eq_of ['}'] (before ++ ['{', '#']) behind (by simp) hstart]
  cases hname : Text.cut ['}'] behind with
  | none => rfl
  | some parts =>
    obtain ⟨localName, rest⟩ := parts
    obtain rfl := Text.eq_append_of_cut hname
    have hlocal : slice? (byteSize before + 2) (byteSize before + 2 + byteSize localName)
        (before ++ (['{', '#'] ++ (localName ++ (['}'] ++ rest)))) = some localName :=
      Text.slice?_eq_of (before ++ ['{', '#']) (['}'] ++ rest) (by simp) hstart rfl
    have hrest : dropBytes? (byteSize before + 2 + byteSize localName + 1)
        (before ++ (['{', '#'] ++ (localName ++ (['}'] ++ rest)))) = some rest :=
      Text.dropBytes?_eq_of (before ++ ['{', '#'] ++ localName ++ ['}']) (by simp)
        (by rw [Text.byteSize_append, Text.byteSize_append, hstart]; rfl)
    simp only [hlocal, hrest, Option.map_some, Option.bind_some]

/-- **A line without comments before its first mark comes to the same at offsets.** -/
theorem lineAt?_eq_atMark (hcomment : ∀ before behind, Mark.first line ≠ .comment before behind) (nested : Bool) (o : Open)
    (ahead : List (Except ε Text)) : lineAt? ask nested o line ahead = atMark ask nested o line ahead := by
  have hfirst := Mark.first_eq_of_no_comment hcomment
  cases hcut : Text.cut ['{', '#'] line with
  | none =>
    rw [hcut] at hfirst
    rw [lineAt?, Text.firstOffset?_zero, hcut, atMark, hfirst]
    rfl
  | some parts =>
    obtain ⟨before, behind⟩ := parts
    rw [hcut] at hfirst
    obtain rfl := Text.eq_append_of_cut hcut
    rw [atMark, hfirst, Mark.ofCuts]
    split
    · next h =>
      obtain ⟨rfl, rfl⟩ := Mark.part.inj h
      exact lineAt?_of_end hcut nested o ahead
    · next hclosing h =>
      obtain ⟨rfl, rfl⟩ := Mark.part.inj h
      exact lineAt?_of_start hcut hclosing nested o ahead
    · next h => exact absurd rfl (h before behind)

/-- **What a call does at offsets** is what it does, as long as comments that are taken out leave none before the first part. -/
theorem bodyAt?_eq
    (hcomments : ∀ line ahead delivered rest later, ask (stripComments line ahead) = some (.returned delivered rest later) →
      ∀ before behind, Mark.first rest ≠ .comment before behind)
    {α : Type} (c : Call ε α) (hcomment : ∀ before behind ahead, (stripComment before behind ahead).measure < c.measure →
      ask (stripComment before behind ahead) = (stripComment before behind ahead).body ask) : c.bodyAt? ask = c.body ask :=
  match α, c with
  | _, readPart _ _ _ _ => rfl
  | _, readLine nested o line ahead => by
    rw [bodyAt?, body]
    exact Outcome.andThen_congr fun delivered rest later h =>
      lineAt?_eq_atMark (hcomments line ahead delivered rest later h) nested o later
  | _, stripComments line ahead => bodyAt?_stripComments fun before behind hline =>
    hcomment before behind ahead (by simp [measure, size, rank, hline])
  | _, stripComment before behind ahead => stripCommentAt?_eq before behind ahead

/-- **Every call at offsets comes to what the call comes to.** -/
theorem runAt?_eq_run {α : Type} (c : Call ε α) : c.runAt? = c.run := by
  have hask : (fun {β : Type} (d : Call ε β) => if _ : d.measure < c.measure then d.runAt? else none) =
      fun {β : Type} (d : Call ε β) => if _ : d.measure < c.measure then d.run else none := by
    funext β d
    split
    · exact runAt?_eq_run d
    · rfl
  -- what the calls on the right side are known to leave also holds of those at offsets
  rw [runAt?, run, hask]
  refine bodyAt?_eq (fun line ahead delivered rest later h => ?_) c fun before behind ahead hless => ?_
  · split at h
    · obtain ⟨out, hout, hreturns, -⟩ := answered_run (stripComments line ahead)
      cases hout.symm.trans h
      exact hreturns.2
    · cases h
  · rw [dif_pos hless, run]
    rfl
termination_by c.measure

/-- What a call for a part within no others comes to. -/
theorem eq_ofDelivery_of_settles {o : Open} {line? : Option Text} {ahead : List (Except ε Text)} {out : Outcome ε Text}
    (h : (readPart false o line? ahead).Settles out) : out = .ofDelivery (enter o [] line? ahead) := by
  obtain ⟨hreturns, hamounts⟩ := h
  have hdelivery := hamounts [] rfl
  cases out with
  | returned delivered rest later =>
    obtain ⟨-, hread⟩ := hreturns
    obtain ⟨rfl, rfl⟩ := hread rfl
    have hfragments : enter o [] line? ahead = ⟨delivered, none⟩ := by
      simpa [Outcome.Amounts, comeBack, Delivery.prepend] using hdelivery
    rw [hfragments]
    rfl
  | failed delivered e =>
    have hfailed : enter o [] line? ahead = ⟨delivered, some e⟩ := hdelivery
    rw [hfailed]
    rfl

/-- **A whole file is read at offsets as it is read by steps.** -/
theorem runAt?_whole (stem : Text) (lines : List (Except ε Text)) :
    (readPart false (.whole stem) none lines).runAt? = some (.ofDelivery (ofLines stem lines)) := by
  obtain ⟨out, hout, hsettles⟩ := answered_run (readPart false (.whole stem) none lines)
  rw [runAt?_eq_run, hout, eq_ofDelivery_of_settles hsettles, enter, ← ofLines_eq]

end Call

end Fragment
end Templates
