import Templates.Proofs.Deliveries
import Templates.Proofs.Document
/-!
# Reading a rendered document

Reading the rendering of a well-formed document delivers the fragments of the document (`Document.ofText_render`).  A reading
is followed by the text that is left (`Fragment.resume`): behind a part that just ended, or behind a piece of a line that is
held back because it has no mark.  Each item moves it on by one lemma (`resume_char`, `resume_comment`, `resume_startPart`
and so on), and the induction is on the document, whatever text stands behind it (`Fragment.delivers_legible`).
-/
namespace Templates

namespace Text

/-- What is left of the line in hand when a text is left to read; a carriage return directly before the line feed belongs to the
line end. -/
def lineInHand : Text → Text
  | [] => []
  | c :: t => if c = '\n' ∨ (c = '\r' ∧ t.head? = some '\n') then [] else c :: lineInHand t

/-- The lines behind the line in hand when a text is left to read. -/
def linesAhead : Text → List Text
  | [] => []
  | c :: t => if c = '\n' then lines t else linesAhead t

@[simp] theorem lineInHand_nil : lineInHand [] = [] := rfl

@[simp] theorem linesAhead_nil : linesAhead [] = [] := rfl

@[simp] theorem lineInHand_newline (t : Text) : lineInHand ('\n' :: t) = [] := rfl

@[simp] theorem linesAhead_newline (t : Text) : linesAhead ('\n' :: t) = lines t := rfl

theorem lineInHand_cons {c : Char} {t : Text} (hc : c ≠ '\n') (hr : c = '\r' → t.head? ≠ some '\n') :
    lineInHand (c :: t) = c :: lineInHand t := if_neg fun h => h.elim hc fun h => hr h.1 h.2

theorem linesAhead_cons {c : Char} (hc : c ≠ '\n') (t : Text) : linesAhead (c :: t) = linesAhead t := if_neg hc

theorem lineInHand_append : ∀ {s : Text}, '\n' ∉ s → s.getLast? ≠ some '\r' → ∀ t : Text,
    lineInHand (s ++ t) = s ++ lineInHand t
  | [], _, _, t => rfl
  | [c], h, hlast, t => by
    rw [List.mem_singleton] at h
    exact lineInHand_cons (Ne.symm h) fun hc => absurd (by rw [hc]; rfl) hlast
  | c :: d :: s, h, hlast, t => by
    simp only [List.mem_cons, not_or] at h
    have hnext : (d :: s ++ t).head? ≠ some '\n' := by simpa using Ne.symm h.2.1
    have ih := lineInHand_append (s := d :: s) (by simp [h.2]) (by simpa using hlast) t
    rw [List.cons_append, lineInHand_cons (Ne.symm h.1) fun _ => hnext, ih]
    rfl

theorem linesAhead_append : ∀ {s : Text}, '\n' ∉ s → ∀ t : Text, linesAhead (s ++ t) = linesAhead t
  | [], _, t => rfl
  | c :: s, h, t => by
    simp only [List.mem_cons, not_or] at h
    rw [List.cons_append, linesAhead_cons (Ne.symm h.1), linesAhead_append h.2]

theorem lineInHand_isPrefix : ∀ t : Text, lineInHand t <+: t
  | [] => List.prefix_refl []
  | c :: t => by
    rw [lineInHand]
    split
    · exact List.nil_prefix
    · exact (List.prefix_cons_inj c).2 (lineInHand_isPrefix t)

theorem lines_eq_cons : ∀ {t : Text}, t ≠ [] → lines t = lineInHand t :: linesAhead t
  | [], h => absurd rfl h
  | [c], _ => by
    by_cases hc : c = '\n'
    · subst hc
      rfl
    · simp [lines, linesBy, lineInHand, linesAhead, hc]
  | c :: d :: t, _ => by
    by_cases hc : c = '\n'
    · subst hc
      rfl
    · have ih : linesBy '\n' '\r' (d :: t) = lineInHand (d :: t) :: linesAhead (d :: t) :=
        lines_eq_cons (List.cons_ne_nil d t)
      rw [linesAhead_cons hc, lines, linesBy, if_neg hc, ih]
      by_cases hend : c = '\r' ∧ (d :: t).head? = some '\n'
      · obtain rfl : d = '\n' := by simpa using hend.2
        simp [lineInHand, hend.1]
      · rw [lineInHand_cons hc fun hr hnext => hend ⟨hr, hnext⟩]
        exact if_neg hend

end Text

namespace Fragment

open Text (lineInHand linesAhead)

/-- A piece of a line that holds no mark: each of its open braces is its last character or has one behind it that makes no
mark. -/
def Calm : Text → Prop
  | [] => True
  | [_] => True
  | c :: d :: t => (c = '{' → d ≠ '#' ∧ d ≠ '!') ∧ Calm (d :: t)

theorem calm_append_singleton {c : Char} :
    ∀ {s : Text}, Calm s → (s.getLast? = some '{' → c ≠ '#' ∧ c ≠ '!') → Calm (s ++ [c])
  | [], _, _ => trivial
  | [d], _, h => ⟨fun hd => h (by rw [hd]; rfl), trivial⟩
  | d :: e :: s, hs, h => ⟨hs.1, calm_append_singleton (s := e :: s) hs.2 (by simpa using h)⟩

theorem first_cons {c : Char} {t : Text} (h : c = '{' → ∀ d u, t = d :: u → d ≠ '#' ∧ d ≠ '!') :
    Mark.first (c :: t) = (Mark.first t).push c := by
  rw [Mark.first]
  · intro u hc ht
    exact (h hc '#' u ht).1 rfl
  · intro u hc ht
    exact (h hc '!' ('-' :: '-' :: u) ht).2 rfl

/-- A calm piece of a line hides no mark behind it, nor does its last brace make one. -/
theorem first_append {t : Text} (ht : ∀ d u, t = d :: u → d ≠ '#' ∧ d ≠ '!') : ∀ {s : Text}, Calm s →
    Mark.first (s ++ t) = s.foldr Mark.push (Mark.first t)
  | [], _ => rfl
  | [c], _ => first_cons fun _ => ht
  | c :: d :: s, hs => by
    have ih := first_append ht (s := d :: s) hs.2
    rw [List.cons_append, first_cons, ih]
    · rfl
    · rintro hc e u heq
      cases heq
      exact hs.1 hc

theorem foldr_push_comment (behind : Text) : ∀ s before : Text,
    s.foldr Mark.push (.comment before behind) = .comment (s ++ before) behind
  | [], _ => rfl
  | c :: s, before => by rw [List.foldr_cons, foldr_push_comment behind s before]; rfl

theorem foldr_push_part (behind : Text) : ∀ s before : Text,
    s.foldr Mark.push (.part before behind) = .part (s ++ before) behind
  | [], _ => rfl
  | c :: s, before => by rw [List.foldr_cons, foldr_push_part behind s before]; rfl

theorem first_of_calm : ∀ {s : Text}, Calm s → Mark.first s = .nothing
  | [], _ => rfl
  | [c], _ => by rw [first_cons fun _ _ _ h => by cases h]; rfl
  | c :: d :: s, hs => by
    have ih := first_of_calm (s := d :: s) hs.2
    rw [first_cons, ih]
    · rfl
    · rintro hc e u heq
      cases heq
      exact hs.1 hc

section Comments

variable {ε : Type}

/-- The end of a comment of which `line` is left in hand, where `escaped` tells whether the start of it is escaped. -/
def skipCommentFrom (escaped : Bool) (line : Text) (ahead : List (Except ε Text)) : CommentEnd ε :=
  match Text.cutUnescapedAfter commentEnd escaped line with
  | some (_, rest) => .closed rest ahead
  | none => match ahead with
    | [] => .unclosed
    | .error e :: _ => .failed e
    | .ok next :: later => skipComment next later

theorem skipComment_eq (line : Text) (ahead : List (Except ε Text)) :
    skipComment line ahead = skipCommentFrom false line ahead := by
  rw [skipComment.eq_def]
  rfl

/-- The end mark of a comment starts no earlier than behind its content, unless the content has one itself. -/
theorem exists_of_commentEnd_isPrefix {content t : Text} (hne : content ≠ [])
    (h : commentEnd <+: content ++ (commentEnd ++ t)) : ∃ b, content = commentEnd ++ b := by
  obtain ⟨u, hu⟩ := h
  match content, hne with
  | [c], _ => simp [commentEnd] at hu
  | [c, d], _ => simp [commentEnd] at hu
  | c :: d :: e :: b, _ =>
    simp only [commentEnd, List.cons_append, List.nil_append, List.cons.injEq] at hu
    exact ⟨b, by rw [← hu.1, ← hu.2.1, ← hu.2.2.1]; rfl⟩

theorem cutUnescapedAfter_cons {mark : Text} {e : Bool} {c : Char} {t : Text}
    (h : e = false → ¬ mark <+: c :: t) :
    Text.cutUnescapedAfter mark e (c :: t) =
      (Text.cutUnescapedAfter mark (c == '\\' && !e) t).map fun parts => (c :: parts.1, parts.2) := by
  rw [Text.cutUnescapedAfter, if_neg]
  rw [Bool.and_eq_true, Bool.not_eq_true', List.isPrefixOf_iff_prefix]
  exact fun hp => h hp.1 hp.2

/-- The end of a comment when a text is left to read. -/
def skipText (escaped : Bool) (t : Text) : CommentEnd ε :=
  skipCommentFrom escaped (lineInHand t) ((linesAhead t).map .ok)

/-- **Text of which each end mark is escaped is skipped**, over the ends of its lines. -/
theorem skipText_append : ∀ {content : Text} {e : Bool} (t : Text),
    (∀ a b, content = a ++ b → b ≠ [] → commentEnd <+: b ++ t → Text.escapedBehind e a = true) →
    skipText (ε := ε) e (content ++ t) = skipText (Text.escapedBehind e content) t
  | [], _, _, _ => rfl
  | c :: content, e, t, h => by
    have ih : skipText (ε := ε) (c == '\\' && !e) (content ++ t) = skipText (Text.escapedBehind e (c :: content)) t :=
      skipText_append t fun a b hab => h (c :: a) b (by rw [hab]; rfl)
    rw [List.cons_append, ← ih]
    by_cases hc : c = '\n'
    · subst hc
      by_cases hnil : content ++ t = []
      · rw [hnil]
        rfl
      · -- the next line starts unescaped, as the search starts anew there
        rw [skipText, Text.lineInHand_newline, Text.linesAhead_newline, Text.lines_eq_cons hnil]
        exact skipComment_eq _ _
    · rw [skipText, skipText, Text.linesAhead_cons hc]
      by_cases hend : c = '\r' ∧ (content ++ t).head? = some '\n'
      · obtain ⟨u, hu⟩ : ∃ u, content ++ t = '\n' :: u := List.head?_eq_some_iff.1 hend.2
        rw [hu, hend.1]
        rfl
      · have hmark : e = false → ¬ commentEnd <+: c :: lineInHand (content ++ t) := by
          rintro rfl hp
          have hwhole : c :: lineInHand (content ++ t) <+: (c :: content) ++ t :=
            (List.prefix_cons_inj c).2 (Text.lineInHand_isPrefix _)
          have := h [] (c :: content) rfl (List.cons_ne_nil c content) (hp.trans hwhole)
          simp at this
        rw [Text.lineInHand_cons hc fun hr hnext => hend ⟨hr, hnext⟩]
        unfold skipCommentFrom
        rw [cutUnescapedAfter_cons hmark]
        cases Text.cutUnescapedAfter commentEnd (c == '\\' && !e) (lineInHand (content ++ t)) <;> rfl

/-- **A comment ends at its own end mark**, on whatever line that is: each end mark inside it is escaped. -/
theorem skipComment_content {content : Text} (h : Document.IsSkipped content) (t : Text) :
    skipComment (ε := ε) (lineInHand (content ++ (commentEnd ++ t)))
      ((linesAhead (content ++ (commentEnd ++ t))).map .ok) = .closed (lineInHand t) ((linesAhead t).map .ok) := by
  have hcontent : Text.escapedBehind false content = false := by
    rw [← Bool.not_eq_true, Text.escapedBehind_iff]
    exact h.1
  have hskip : skipText (ε := ε) false (content ++ (commentEnd ++ t)) = skipText false (commentEnd ++ t) := by
    rw [skipText_append (commentEnd ++ t), hcontent]
    intro a b hab hb hp
    obtain ⟨b', rfl⟩ := exists_of_commentEnd_isPrefix hb hp
    exact (Text.escapedBehind_iff a).2 (h.2 a b' hab)
  rw [skipComment_eq]
  refine hskip.trans ?_
  rw [skipText, Text.lineInHand_append (by decide) (by decide), Text.linesAhead_append (by decide)]
  rfl

/-- A comment without its end mark takes all that is left. -/
theorem skipComment_unclosed {content : Text} (h : ∀ a b, content = a ++ (commentEnd ++ b) → Text.Escaping a) :
    skipComment (ε := ε) (lineInHand content) ((linesAhead content).map .ok) = .unclosed := by
  have hskip : skipText (ε := ε) false (content ++ []) = skipText (Text.escapedBehind false content) [] := by
    refine skipText_append [] fun a b hab _ hp => (Text.escapedBehind_iff a).2 ?_
    obtain ⟨b', hb⟩ := hp
    exact h a b' (by rw [hab, hb, List.append_nil])
  rw [List.append_nil] at hskip
  rw [skipComment_eq]
  exact hskip

end Comments

section Resume

variable {ε : Type}

/-- A reading with the text `t` left, of which the line in hand has the piece `held` before it. -/
def readingOf (inner : Open) (outer : List Open) (held t : Text) : Reading ε :=
  ⟨inner, outer, held ++ lineInHand t, (linesAhead t).map .ok⟩

/-- **What is delivered while the text `t` is left**: directly behind a part that ended, or behind a piece of the line in
hand that is held back. -/
def resume (behindPart : Bool) (inner : Open) (outer : List Open) (held t : Text) : Delivery ε :=
  if behindPart ∧ lineInHand t = [] then (Reading.nextLine [] inner outer ((linesAhead t).map .ok)).delivery
  else (readingOf inner outer held t).run

/-- Whether nothing of a part has been read but parts inside it. -/
def Open.isFresh (o : Open) (held : Text) : Bool := o.starting && !(o.written || !held.isEmpty)

variable {inner : Open} {outer : List Open} {held t : Text} {b : Bool}

theorem resume_of_ne (hne : lineInHand t ≠ []) :
    resume (ε := ε) b inner outer held t = (readingOf inner outer held t).run := if_neg fun hb => hne hb.2

theorem resume_false : resume (ε := ε) false inner outer held t = (readingOf inner outer held t).run :=
  if_neg fun h => by simp at h

theorem resume_char {c : Char} (hc : c ≠ '\n') (hr : c ≠ '\r') :
    resume (ε := ε) b inner outer held (c :: t) = resume false inner outer (held ++ [c]) t := by
  have hline : lineInHand (c :: t) = c :: lineInHand t := Text.lineInHand_cons hc fun h => absurd h hr
  rw [resume_of_ne (by simp [hline]), resume_false, readingOf, readingOf, hline, Text.linesAhead_cons hc, List.append_assoc,
    List.singleton_append]

/-- A line that is not the last one ends, with the line feed if it counts. -/
theorem resume_newline (hheld : Calm held) (ht : t ≠ []) :
    resume (ε := ε) false inner outer held ('\n' :: t) =
      resume false ((inner.write held).endLine true).leaveLine outer [] t := by
  have hmark : Mark.first held = .nothing := first_of_calm hheld
  rw [resume_false, Reading.run_eq, resume_false]
  simp only [readingOf, Reading.step, Text.lineInHand_newline, Text.linesAhead_newline, List.append_nil, hmark,
    Reading.takeLine, Text.lines_eq_cons ht, List.map_cons, Reading.nextLine, Step.delivery, List.isEmpty_cons,
    Bool.not_false, List.nil_append]
  rfl

theorem resume_nil (hheld : Calm held) (hb : b = true → held = []) :
    resume (ε := ε) b inner outer held [] =
      ⟨⟨inner.name, inner.body ++ held⟩ :: outer.map Open.close, none⟩ := by
  have hmark : Mark.first held = .nothing := first_of_calm hheld
  cases b with
  | true =>
    rw [hb rfl]
    simp [resume, Reading.nextLine, Step.delivery, Open.close]
  | false =>
    rw [resume_false, Reading.run_eq]
    simp [readingOf, Reading.step, hmark, Reading.takeLine, Reading.nextLine, Step.delivery, Open.close, Open.endLine]
    rfl

theorem resume_last_newline (hb : b = true → held = []) :
    resume (ε := ε) b inner outer held ['\n'] = resume b inner outer held [] := by
  cases b with
  | true =>
    rw [hb rfl]
    rfl
  | false => rfl

theorem resume_newline_behindPart (ht : t ≠ []) :
    resume (ε := ε) true inner outer [] ('\n' :: t) = resume false inner.leaveLine outer [] t := by
  rw [resume, if_pos ⟨rfl, rfl⟩, Text.linesAhead_newline, Text.lines_eq_cons ht, resume_false]
  rfl

/-- The mark that starts a comment is the first one of the line in hand. -/
theorem first_commentStart (hheld : Calm held) (t : Text) :
    Mark.first (held ++ lineInHand (Document.commentStart ++ t)) = .comment held (lineInHand t) := by
  rw [Text.lineInHand_append (by decide) (by decide), first_append (by rintro d u ⟨⟩; decide) hheld]
  exact (foldr_push_comment _ held []).trans (by rw [List.append_nil]; rfl)

theorem resume_commentStart : resume (ε := ε) b inner outer held (Document.commentStart ++ t) =
    (readingOf inner outer held (Document.commentStart ++ t)).run :=
  resume_of_ne (by rw [Text.lineInHand_append (by decide) (by decide)]; simp [Document.commentStart])

theorem resume_comment {content : Text} (hheld : Calm held) (hc : Document.IsSkipped content) :
    resume (ε := ε) b inner outer held (Document.commentStart ++ (content ++ (commentEnd ++ t))) =
      resume false inner outer held t := by
  have hstart : '\n' ∉ Document.commentStart := by decide
  rw [resume_commentStart, Reading.run_eq, resume_false]
  simp only [readingOf, Reading.step, first_commentStart hheld, Text.linesAhead_append hstart, skipComment_content hc]
  rfl

/-- A comment that never ends takes all that is left. -/
theorem resume_unclosedComment {content : Text} (hheld : Calm held)
    (hc : ∀ a b, content = a ++ (commentEnd ++ b) → Text.Escaping a) :
    resume (ε := ε) b inner outer held (Document.commentStart ++ content) = resume false inner outer held [] := by
  have hstart : '\n' ∉ Document.commentStart := by decide
  rw [resume_commentStart, Reading.run_eq, resume_false]
  simp only [readingOf, Reading.step, first_commentStart hheld, Text.linesAhead_append hstart, skipComment_unclosed hc,
    Text.lineInHand_nil, List.append_nil]
  rfl

/-- A part starts where the mark for it has a name behind it. -/
theorem Reading.step_of_localName {r : Reading ε} {before behind localName rest : Text}
    (hmark : Mark.first r.line = .part before behind) (hcut : Text.cut ['}'] behind = some (localName, rest))
    (hne : localName ≠ []) : r.step = .onward [] (r.startPart before localName rest) := by
  unfold step
  split
  · next h => rw [hmark] at h; cases h
  · next h => rw [hmark] at h; cases h
  · next h =>
    rw [hmark] at h
    cases h
    rw [Text.cut_cons_self] at hcut
    cases hcut
    exact absurd rfl hne
  · next h =>
    rw [hmark] at h
    cases h
    rw [hcut]

theorem resume_startPart {name : Text} (hheld : Calm held) (hn : name ≠ [] ∧ '}' ∉ name ∧ '\n' ∉ name) :
    resume (ε := ε) b inner outer held ('{' :: '#' :: (name ++ '}' :: t)) =
      resume false (.start (inner.name ++ '.' :: name)) (inner.write held :: outer) [] t := by
  obtain ⟨hne, hbrace, hnl⟩ := hn
  have hfree : '\n' ∉ '{' :: '#' :: (name ++ ['}']) := by simp [hnl]
  have hsplit : '{' :: '#' :: (name ++ '}' :: t) = ('{' :: '#' :: (name ++ ['}'])) ++ t := by simp
  have hline : lineInHand ('{' :: '#' :: (name ++ '}' :: t)) = '{' :: '#' :: (name ++ '}' :: lineInHand t) := by
    rw [hsplit, Text.lineInHand_append hfree (by simp [List.getLast?_cons])]
    simp
  have hmark : Mark.first (held ++ lineInHand ('{' :: '#' :: (name ++ '}' :: t))) =
      .part held (name ++ '}' :: lineInHand t) := by
    rw [hline, first_append (by rintro d u ⟨⟩; decide) hheld]
    exact (foldr_push_part _ held []).trans (by rw [List.append_nil])
  have hstep : (readingOf (ε := ε) inner outer held ('{' :: '#' :: (name ++ '}' :: t))).step =
      .onward [] (readingOf (.start (inner.name ++ '.' :: name)) (inner.write held :: outer) [] t) := by
    rw [Reading.step_of_localName hmark (Text.cut_append hbrace _) hne, Reading.startPart, readingOf, readingOf, hsplit,
      Text.linesAhead_append hfree]
    rfl
  rw [resume_of_ne (by rw [hline]; simp), Reading.run_eq, hstep, resume_false]
  rfl

/-- The end mark of a part delivers it, and the part around it goes on behind it. -/
theorem resume_endPart {parent : Open} (hheld : Calm held) :
    resume (ε := ε) b inner (parent :: outer) held (endMark ++ t) =
      (resume true parent outer [] t).prepend [⟨inner.name, inner.body ++ held⟩] := by
  have hend : '\n' ∉ endMark := by decide
  have hline : lineInHand (endMark ++ t) = endMark ++ lineInHand t := Text.lineInHand_append hend (by decide) t
  have hmark : Mark.first (held ++ lineInHand (endMark ++ t)) = .part held ('}' :: lineInHand t) := by
    rw [hline, first_append (by rintro d u ⟨⟩; decide) hheld]
    exact (foldr_push_part _ held []).trans (by rw [List.append_nil]; rfl)
  have hclose : (inner.write held).close = ⟨inner.name, inner.body ++ held⟩ := by
    rw [Open.close, Open.body_write]
    rfl
  rw [resume_of_ne (by rw [hline]; simp [endMark]), Reading.run_eq]
  simp only [readingOf, Reading.step, hmark, Text.linesAhead_append hend, Reading.endPart, hclose]
  by_cases hrest : lineInHand t = []
  · rw [if_pos hrest, nextLine_delivery, resume, if_pos ⟨rfl, hrest⟩]
  · rw [if_neg hrest, resume_of_ne hrest]
    rfl

/-- What a reading has to keep so that a document can be read on from it. -/
structure Ready (behindPart : Bool) (held : Text) (d : Document) : Prop where
  calm : Calm held
  noMark : held.getLast? = some '{' → d.NoMarkNext
  nothingHeld : behindPart = true → held = []

theorem Ready.nothing (b : Bool) (d : Document) : Ready b [] d := ⟨trivial, fun h => (by cases h), fun _ => rfl⟩

theorem isFresh_append_singleton (inner : Open) (held : Text) (c : Char) : inner.isFresh (held ++ [c]) = false := by
  simp [Open.isFresh]

theorem isFresh_leaveLine (o : Open) (held : Text) : o.leaveLine.isFresh held = false := rfl

theorem isFresh_write (o : Open) (held : Text) : (o.write held).isFresh [] = o.isFresh held := by
  simp [Open.isFresh, Open.write]

theorem name_of_newline (inner : Open) (held : Text) : ((inner.write held).endLine true).leaveLine.name = inner.name :=
  Open.name_endLine true (inner.write held)

theorem body_of_newline (inner : Open) (held : Text) : ((inner.write held).endLine true).leaveLine.body =
    inner.body ++ (held ++ if inner.isFresh held then [] else ['\n']) := by
  rw [Open.body_leaveLine, Open.body_endLine, Open.body_write, Bool.true_and]
  have hfresh : ((inner.write held).written || !(inner.write held).starting) = !inner.isFresh held := by
    simp [Open.write, Open.isFresh, Bool.or_comm]
  rw [hfresh]
  cases inner.isFresh held <;> simp

/-- Whether reading the rendering of a document, with `rest` behind it, delivers the fragments of its parts and puts the
characters of its own node into the part that is open. -/
def Delivers (ε : Type) (b : Bool) (inner : Open) (outer : List Open) (held : Text) (d : Document) (rest : Text) : Prop :=
  ∃ inner' held' b', Ready b' held' .done ∧ inner'.name = inner.name ∧
    inner'.body ++ held' = inner.body ++ (held ++ d.bodyFrom (decide (rest ≠ [])) (inner.isFresh held) b) ∧
    resume (ε := ε) b inner outer held (d.render ++ rest) =
      (resume b' inner' outer held' rest).prepend (d.partFragments inner.name)

/-- A line feed that ends the file: what is held back is written with it. -/
theorem delivers_last_newline (inner : Open) (outer : List Open) (h : Ready b held (.char '\n' .done)) :
    Delivers ε b inner outer held (.char '\n' .done) [] := by
  refine ⟨inner.write held, [], false, .nothing _ _, rfl, by simp [Document.bodyFrom], ?_⟩
  have hend : resume (ε := ε) b inner outer held ['\n'] = resume false (inner.write held) outer [] [] := by
    rw [resume_last_newline h.nothingHeld, resume_nil h.calm h.nothingHeld, resume_nil (Ready.nothing false .done).calm
      fun _ => rfl]
    simp [Open.write, Open.body]
  exact hend

/-- A line feed that does not end the file: the document is read on from the start of a line. -/
theorem delivers_newline {d : Document} {rest : Text} (inner : Open) (outer : List Open) (h : Ready b held (.char '\n' d))
    (ht : d.render ++ rest ≠ []) (ih : ∀ inner, Delivers ε false inner outer [] d rest) :
    Delivers ε b inner outer held (.char '\n' d) rest := by
  cases b with
  | true =>
    obtain rfl := h.nothingHeld rfl
    obtain ⟨inner', held', b', h', hname, hbody, hrun⟩ := ih inner.leaveLine
    refine ⟨inner', held', b', h', hname, ?_, ?_⟩
    · simpa [Document.bodyFrom, isFresh_leaveLine] using hbody
    · exact (resume_newline_behindPart ht).trans hrun
  | false =>
    obtain ⟨inner', held', b', h', hname, hbody, hrun⟩ := ih ((inner.write held).endLine true).leaveLine
    rw [name_of_newline] at hname hrun
    refine ⟨inner', held', b', h', hname, ?_, ?_⟩
    · have hlast : rest = [] → d ≠ .done := fun hrest hd => ht (by rw [hrest, hd]; rfl)
      rw [hbody, body_of_newline, isFresh_leaveLine, Document.bodyFrom]
      cases inner.isFresh held with
      | true => simp
      | false => simpa using hlast
    · exact (resume_newline h.calm ht).trans hrun

/-- **Reading the rendering of a document** delivers the fragments of its parts. -/
theorem delivers_legible : ∀ {d : Document}, d.Legible → ∀ (inner : Open) (outer : List Open) {held : Text} {b : Bool}
    (rest : Text), Ready b held d → Delivers ε b inner outer held d rest
  | .done, _, inner, outer, held, b, rest, h => ⟨inner, held, b, h, rfl, by simp [Document.bodyFrom], rfl⟩
  | .char c d, hd, inner, outer, held, b, rest, h => by
    by_cases hc : c = '\n'
    · subst hc
      by_cases ht : d.render ++ rest = []
      · obtain ⟨hdone, rfl⟩ := List.append_eq_nil_iff.1 ht
        rw [Document.render_eq_nil] at hdone
        subst hdone
        exact delivers_last_newline inner outer h
      · exact delivers_newline inner outer h ht fun inner => delivers_legible hd.2.2 inner outer rest (.nothing false d)
    · have hready : Ready false (held ++ [c]) d :=
        ⟨calm_append_singleton h.calm h.noMark, fun hlast => hd.2.1 (by simpa using hlast), fun hb => by cases hb⟩
      obtain ⟨inner', held', b', h', hname, hbody, hrun⟩ := delivers_legible hd.2.2 inner outer rest hready
      refine ⟨inner', held', b', h', hname, ?_, ?_⟩
      · simpa [Document.bodyFrom, hc, isFresh_append_singleton] using hbody
      · exact (resume_char hc hd.1).trans hrun
  | .comment content d, hd, inner, outer, held, b, rest, h => by
    have hready : Ready false held d := ⟨h.calm, h.noMark, fun hb => by cases hb⟩
    obtain ⟨inner', held', b', h', hname, hbody, hrun⟩ := delivers_legible hd.2 inner outer rest hready
    refine ⟨inner', held', b', h', hname, by simpa [Document.bodyFrom] using hbody, ?_⟩
    rw [Document.render, List.append_assoc, List.append_assoc, List.append_assoc, resume_comment h.calm hd.1]
    exact hrun
  | .part name d d', hd, inner, outer, held, b, rest, h => by
    obtain ⟨inner₁, held₁, b₁, h₁, hname₁, hbody₁, hrun₁⟩ :=
      delivers_legible hd.2.1 (.start (inner.name ++ '.' :: name)) (inner.write held :: outer)
        (endMark ++ (d'.render ++ rest)) (.nothing false d)
    obtain ⟨inner₂, held₂, b₂, h₂, hname₂, hbody₂, hrun₂⟩ :=
      delivers_legible hd.2.2 (inner.write held) outer rest (.nothing true d')
    refine ⟨inner₂, held₂, b₂, h₂, hname₂, ?_, ?_⟩
    · rw [hbody₂, Open.body_write, isFresh_write, Document.bodyFrom, List.nil_append, List.append_assoc]
    · have hinner : inner₁.body ++ held₁ = d.partBody := by
        rw [hbody₁]
        rfl
      have hname : inner₁.name = inner.name ++ '.' :: name := hname₁
      have hrender : (Document.part name d d').render ++ rest =
          '{' :: '#' :: (name ++ '}' :: (d.render ++ (endMark ++ (d'.render ++ rest)))) := by
        simp [Document.render]
      rw [hrender, resume_startPart h.calm hd.1, hrun₁, resume_endPart h₁.calm, hinner, hname, hrun₂,
        Delivery.prepend_prepend, Delivery.prepend_prepend, Document.partFragments, List.append_assoc]
      rfl

/-- A text is read from the start of its first line. -/
theorem ofLines_lines (stem t : Text) :
    ofLines (ε := ε) stem (t.lines.map .ok) = resume false (.whole stem) [] [] t := by
  rw [ofLines_eq]
  by_cases ht : t = []
  · rw [ht, resume_nil (Ready.nothing false .done).calm fun _ => rfl]
    rfl
  · rw [Text.lines_eq_cons ht, resume_false]
    rfl

end Resume

end Fragment

namespace Document

open Fragment

/-- **Splitting undoes rendering**: the fragments read from the rendering of a well-formed document are the fragments of the
document, in their order and with their names and texts. -/
theorem ofText_render (stem : Text) {d : Document} (hd : d.WellFormed) : ofText stem d.render = d.fragments stem := by
  have hdelivery : ofLines (ε := Empty) stem (d.render.lines.map .ok) = resume false (.whole stem) [] [] d.render :=
    ofLines_lines stem d.render
  obtain ⟨inner, held, b, h, hname, hbody, hrun⟩ :=
    delivers_legible (ε := Empty) hd.readable.legible (.whole stem) [] [] (.nothing false d)
  rw [List.append_nil, resume_nil h.calm h.nothingHeld, hname, hbody] at hrun
  rw [ofText, hdelivery, hrun]
  rfl

theorem ofText_render_nested :
    (char 'a' (char '\n' (part ['x'] (char '\n' (comment ['c', '\n', '\\', '-', '-', '}'] (part ['y'] done
      (char '\n' (char 'b' done))))) (char '{' (char '\n' done))))).WellFormed ∧
    ofText ['p'] "a\n\x7b#x\x7d\n\x7b!--c\n\\--\x7d--\x7d\x7b#y\x7d\x7b#\x7d\nb\x7b#\x7d\x7b\n".toList =
      [⟨"p.x.y".toList, []⟩, ⟨"p.x".toList, ['b']⟩, ⟨['p'], "a\n\x7b".toList⟩] := by
  have hcomment : IsComment ['c', '\n', '\\', '-', '-', '}'] := by
    refine ⟨by decide, by decide, fun a b hab => ?_⟩
    rcases a with _ | ⟨_, _ | ⟨_, _ | ⟨_, _ | ⟨_, a⟩⟩⟩⟩ <;> simp [commentEnd] at hab
    · obtain ⟨rfl, rfl, rfl, rfl⟩ := hab
      decide
    · have hlen := congrArg List.length hab.2.2.2.2
      simp at hlen
      omega
  have hd : (char 'a' (char '\n' (part ['x'] (char '\n' (comment ['c', '\n', '\\', '-', '-', '}'] (part ['y'] done
      (char '\n' (char 'b' done))))) (char '{' (char '\n' done))))).WellFormed := by
    simp [WellFormed, PlainNext, IsLocalName, hcomment]
  exact ⟨hd, ofText_render ['p'] hd⟩

end Document
end Templates
