import Templates.Proofs.DocumentReading
/-!
# Comments put into a document

Comments on one line are put between the items of a document (`Document.Commented`), and both documents are read row by row
(`Fragment.ofRows`), a row for each line feed and one more.  A comment takes nothing away, and it adds a line feed where it
comes between a part and the line feed that is left out for standing directly behind the part.  So the same fragments are read
exactly when there are as many such line feeds as before (`Document.ofRows_commented_iff`).
-/
namespace Templates

namespace Text

/-- The lines of a text, with the one behind its last line feed even when that is empty. -/
def rows (t : Text) : List Text := pieces (· == '\n') t

theorem length_rows (t : Text) : (rows t).length = t.count '\n' + 1 := by
  induction t with
  | nil => rfl
  | cons c t ih =>
    unfold rows at ih ⊢
    rw [pieces]
    by_cases hc : c = '\n'
    · subst hc
      simp [ih]
    · obtain ⟨p, ps, hp⟩ := List.exists_cons_of_ne_nil (pieces_ne_nil (· == '\n') t)
      rw [hp] at ih ⊢
      simpa [hc] using ih

theorem lines_append_newline : ∀ {t : Text}, '\r' ∉ t → lines (t ++ ['\n']) = rows t
  | [], _ => rfl
  | c :: t, h => by
    simp only [List.mem_cons, not_or] at h
    have ih : linesBy '\n' '\r' (t ++ ['\n']) = pieces (· == '\n') t := lines_append_newline h.2
    rw [lines, rows, List.cons_append, linesBy, pieces, ih]
    by_cases hc : c = '\n'
    · simp [hc]
    · obtain ⟨p, ps, hp⟩ := List.exists_cons_of_ne_nil (pieces_ne_nil (· == '\n') t)
      rw [hp]
      simp [hc, Ne.symm h.1]

end Text

namespace Fragment

/-- The fragments of a text that is read row by row. -/
def ofRows (stem source : Text) : List Fragment :=
  (ofLines stem ((Text.rows source).map (Except.ok (ε := Empty)))).fragments

/-- How many line feeds there are in some fragments. -/
def lineFeeds (fragments : List Fragment) : Nat := (fragments.flatMap Fragment.body).count '\n'

@[simp] theorem lineFeeds_nil : lineFeeds [] = 0 := rfl

@[simp] theorem lineFeeds_cons (f : Fragment) (fragments : List Fragment) :
    lineFeeds (f :: fragments) = f.body.count '\n' + lineFeeds fragments := by
  simp [lineFeeds]

@[simp] theorem lineFeeds_append (as bs : List Fragment) : lineFeeds (as ++ bs) = lineFeeds as + lineFeeds bs := by
  simp [lineFeeds]

end Fragment

namespace Document

open Fragment

/-- The characters of the node of a file that is read row by row: no line feed ends the file. -/
def rowBody (d : Document) : Text := d.bodyFrom true false false

/-- **The fragments of a readable document** that is read row by row. -/
theorem ofRows_render (stem : Text) {d : Document} (hd : d.Readable) :
    ofRows stem d.render = d.partFragments stem ++ [⟨stem, d.rowBody⟩] := by
  have hdelivery : ofLines (ε := Empty) stem ((Text.rows d.render).map .ok) =
      resume false (.whole stem) [] [] (d.render ++ ['\n']) := by
    rw [← Text.lines_append_newline hd.cr_not_mem_render]
    exact ofLines_lines stem _
  obtain ⟨inner, held, b, h, hname, hbody, hrun⟩ :=
    delivers_legible (ε := Empty) hd.legible (.whole stem) [] ['\n'] (.nothing false d)
  rw [resume_last_newline h.nothingHeld, resume_nil h.calm h.nothingHeld, hname, hbody] at hrun
  rw [ofRows, hdelivery, hrun]
  rfl

/-- **Documents of which the second is the first with comments put between its items**, each comment on one line. -/
inductive Commented : Document → Document → Prop where
  | done : Commented done done
  | char (c : Char) {d d' : Document} : Commented d d' → Commented (char c d) (char c d')
  | comment (content : Text) {d d' : Document} : Commented d d' → Commented (comment content d) (comment content d')
  | part (name : Text) {inner inner' d d' : Document} :
      Commented inner inner' → Commented d d' → Commented (part name inner d) (part name inner' d')
  | inserted {content : Text} {d d' : Document} :
      IsComment content → '\n' ∉ content → Commented d d' → Commented d (comment content d')

variable {d d' : Document}

/-- A text without an end mark is a comment, unless it escapes the end mark behind it. -/
theorem isComment_of_not_infix {content : Text} (hr : '\r' ∉ content) (hend : ¬ commentEnd <:+: content)
    (hescaping : ¬ Text.Escaping content) : IsComment content :=
  ⟨hr, isSkipped_of_not_infix hend hescaping⟩

theorem Commented.noMarkNext (h : Commented d d') : d.NoMarkNext → d'.NoMarkNext := by
  induction h with
  | done => exact id
  | char c _ _ => exact id
  | comment content _ ih => exact ih
  | part name _ _ _ _ => exact id
  | inserted _ _ _ ih => exact ih

theorem Commented.readable (h : Commented d d') (hd : d.Readable) : d'.Readable := by
  induction h with
  | done => exact hd
  | char c hd' ih => exact ⟨hd.1, fun hc => hd'.noMarkNext (hd.2.1 hc), ih hd.2.2⟩
  | comment content _ ih => exact ⟨hd.1, ih hd.2⟩
  | part name _ _ ihi ih => exact ⟨hd.1, ihi hd.2.1, ih hd.2.2⟩
  | inserted hcontent _ _ ih => exact ⟨hcontent, ih hd⟩

theorem Commented.count_newline (h : Commented d d') : d'.render.count '\n' = d.render.count '\n' := by
  induction h with
  | done => rfl
  | char c _ ih => simp [render, List.count_cons, ih]
  | comment content _ ih => simp [render, ih]
  | part name _ _ ihi ih => simp [render, ihi, ih]
  | inserted _ hnl _ ih => simp [render, commentStart, commentEnd, List.count_eq_zero_of_not_mem hnl, ih]

/-- How many line feeds are left out for standing directly behind a part.  Those that would be left out anyway, as nothing of
the part around has been written, do not count. -/
def lineEndsBehindParts (fresh behindPart : Bool) : Document → Nat
  | done => 0
  | char c rest =>
    (if c = '\n' ∧ behindPart = true ∧ fresh = false then 1 else 0) + rest.lineEndsBehindParts false false
  | comment _ rest => rest.lineEndsBehindParts fresh false
  | part _ inner rest => inner.lineEndsBehindParts true false + rest.lineEndsBehindParts fresh true

theorem count_bodyFrom_newline (fresh b : Bool) (d : Document) :
    ((char '\n' d).bodyFrom true fresh b).count '\n' + (if b = true ∧ fresh = false then 1 else 0) =
      (if fresh then 0 else 1) + (d.bodyFrom true false false).count '\n' := by
  rw [bodyFrom]
  cases fresh <;> cases b <;> simp [Nat.add_comm]

/-- **No line feed is lost or won** but those that are left out behind parts. -/
theorem Commented.lineFeeds_add (h : Commented d d') : ∀ (name : Text) (fresh b b' : Bool),
    lineFeeds (d'.partFragments name) + (d'.bodyFrom true fresh b').count '\n' + d'.lineEndsBehindParts fresh b' =
      lineFeeds (d.partFragments name) + (d.bodyFrom true fresh b).count '\n' + d.lineEndsBehindParts fresh b := by
  induction h with
  | done => intros; rfl
  | @char c d d' _ ih =>
    intro name fresh b b'
    have ih := ih name false false false
    simp only [partFragments, lineEndsBehindParts]
    by_cases hc : c = '\n'
    · subst hc
      have hb := count_bodyFrom_newline fresh b d
      have hb' := count_bodyFrom_newline fresh b' d'
      simp only [true_and]
      omega
    · simp only [bodyFrom, hc, false_and, if_false, List.count_cons_of_ne hc]
      omega
  | comment content _ ih =>
    intro name fresh b b'
    exact ih name fresh false false
  | part localName _ _ ihi ih =>
    intro name fresh b b'
    have ihi := ihi (name ++ '.' :: localName) true false false
    have ih := ih name fresh true true
    simp only [partFragments, bodyFrom, lineEndsBehindParts, lineFeeds_append, lineFeeds_cons, partBody]
    omega
  | inserted _ _ _ ih =>
    intro name fresh b b'
    exact ih name fresh b false

/-- Comments put between the items leave out no more line feeds, and if they leave out as many then nothing changes. -/
theorem Commented.lineEndsBehindParts_le (h : Commented d d') : ∀ fresh b b' : Bool, (b' = true → b = true) →
    d'.lineEndsBehindParts fresh b' ≤ d.lineEndsBehindParts fresh b ∧
      (d'.lineEndsBehindParts fresh b' = d.lineEndsBehindParts fresh b →
        d'.bodyFrom true fresh b' = d.bodyFrom true fresh b ∧ ∀ name, d'.partFragments name = d.partFragments name) := by
  induction h with
  | done => exact fun fresh b b' _ => ⟨Nat.le_refl _, fun _ => ⟨rfl, fun _ => rfl⟩⟩
  | char c _ ih =>
    intro fresh b b' hb
    obtain ⟨hle, heq⟩ := ih false false false id
    simp only [lineEndsBehindParts, bodyFrom, partFragments]
    by_cases hseparated : c = '\n' ∧ fresh = false ∧ b = true ∧ b' = false
    · -- A comment comes between a part and this line feed.
      obtain ⟨rfl, rfl, rfl, rfl⟩ := hseparated
      simp only [true_and, and_true, if_true, Bool.false_eq_true, if_false]
      exact ⟨by omega, fun h => by omega⟩
    · have hcount : (c = '\n' ∧ b' = true ∧ fresh = false) ↔ (c = '\n' ∧ b = true ∧ fresh = false) := by grind
      have hleft : (c = '\n' ∧ (fresh = true ∨ b' = true)) ↔ (c = '\n' ∧ (fresh = true ∨ b = true)) := by grind
      simp only [hcount, hleft, not_true_eq_false, false_and, or_false]
      refine ⟨by omega, fun h => ?_⟩
      obtain ⟨hbody, hparts⟩ := heq (by omega)
      exact ⟨by rw [hbody], hparts⟩
  | comment content _ ih => exact fun fresh b b' _ => ih fresh false false id
  | part localName _ _ ihi ih =>
    intro fresh b b' _
    obtain ⟨hlei, heqi⟩ := ihi true false false id
    obtain ⟨hle, heq⟩ := ih fresh true true id
    simp only [lineEndsBehindParts, bodyFrom, partFragments, partBody]
    refine ⟨by omega, fun h => ?_⟩
    obtain ⟨hbodyi, hpartsi⟩ := heqi (by omega)
    obtain ⟨hbody, hparts⟩ := heq (by omega)
    exact ⟨hbody, fun name => by rw [hbodyi, hpartsi, hparts]⟩
  | inserted _ _ _ ih =>
    intro fresh b b' _
    exact ih fresh b false fun h => absurd h Bool.false_ne_true

/-- **Comments vanish unless they come between a part and the line feed directly behind it.**  Putting comments into a balanced
document keeps the number of its rows and wins the line feeds that are not left out behind parts any more; the fragments are the
same exactly when there is none of these. -/
theorem ofRows_commented_iff (stem : Text) (hd : d.WellFormed) (h : Commented d d') :
    (Text.rows d'.render).length = (Text.rows d.render).length ∧
    lineFeeds (ofRows stem d'.render) + d'.lineEndsBehindParts false false =
      lineFeeds (ofRows stem d.render) + d.lineEndsBehindParts false false ∧
    (ofRows stem d'.render = ofRows stem d.render ↔
      d'.lineEndsBehindParts false false = d.lineEndsBehindParts false false) := by
  have hrows : (Text.rows d'.render).length = (Text.rows d.render).length := by
    rw [Text.length_rows, Text.length_rows, h.count_newline]
  have hfeeds : lineFeeds (ofRows stem d'.render) + d'.lineEndsBehindParts false false =
      lineFeeds (ofRows stem d.render) + d.lineEndsBehindParts false false := by
    rw [ofRows_render stem hd.readable, ofRows_render stem (h.readable hd.readable)]
    simp only [lineFeeds_append, lineFeeds_cons, lineFeeds_nil, Nat.add_zero]
    exact h.lineFeeds_add stem false false false
  refine ⟨hrows, hfeeds, fun heq => ?_, fun heq => ?_⟩
  · rw [heq] at hfeeds
    omega
  · obtain ⟨hbody, hparts⟩ := (h.lineEndsBehindParts_le false false false id).2 heq
    rw [ofRows_render stem hd.readable, ofRows_render stem (h.readable hd.readable), hparts, rowBody, hbody]
    rfl

/-- Comments behind a brace, behind a part that starts another one, and at the end of a part: none of them is seen. -/
theorem ofRows_commented_iff_unseen :
    let d := char '{' (char 'a' (part ['x'] (part ['y'] done (char '\n' (char 'b' done))) (char '!' done)))
    let d' := char '{' (comment ['c'] (char 'a' (part ['x'] (part ['y'] done (comment ['c'] (char '\n' (char 'b'
      (comment ['c'] done))))) (comment ['c'] (char '!' done)))))
    d.WellFormed ∧ Commented d d' ∧ d'.lineEndsBehindParts false false = d.lineEndsBehindParts false false ∧
      ofRows ['p'] d'.render = ofRows ['p'] d.render := by
  intro d d'
  have hd : d.WellFormed := by simp [d, WellFormed, PlainNext, IsLocalName]
  have hcomment : IsComment ['c'] := isComment_of_not_infix (by decide) (by decide) (by decide)
  have h : Commented d d' :=
    .char _ (.inserted hcomment (by decide) (.char _ (.part _ (.part _ .done (.inserted hcomment (by decide)
      (.char _ (.char _ (.inserted hcomment (by decide) .done))))) (.inserted hcomment (by decide) (.char _ .done)))))
  exact ⟨hd, h, by decide, (ofRows_commented_iff ['p'] hd h).2.2.2 (by decide)⟩

/-- **A comment behind a part adds an empty line**, which is not there without the comment. -/
theorem comment_behind_part_adds_line :
    let d := part ['a'] done (char '\n' (char 'y' done))
    let d' := part ['a'] done (comment ['c'] (char '\n' (char 'y' done)))
    d.WellFormed ∧ Commented d d' ∧
      ofRows ['p'] d.render = [⟨['p', '.', 'a'], []⟩, ⟨['p'], ['y']⟩] ∧
      ofRows ['p'] d'.render = [⟨['p', '.', 'a'], []⟩, ⟨['p'], ['\n', 'y']⟩] := by
  intro d d'
  have hcomment : IsComment ['c'] := isComment_of_not_infix (by decide) (by decide) (by decide)
  exact ⟨by simp [d, WellFormed, PlainNext, IsLocalName],
    .part _ .done (.inserted hcomment (by decide) (.char _ (.char _ .done))), by decide +kernel, by decide +kernel⟩

end Document
end Templates
