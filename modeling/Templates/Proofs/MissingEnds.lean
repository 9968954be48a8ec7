import Templates.Proofs.DocumentReading
/-!
# Missing end marks

The end of a file ends every part that is open, so the end marks at the very end of a document can be left out, and the one of a
comment before them (`Document.ofText_unclosed`).  A document with such marks is some items and then a part
(`exists_lastPart`), so the proof goes down the last parts: a text stands for a document (`StandsFor`) if it stands for the
inner one of the last part and has the items and the start mark before that (`standsFor_lastPart`).
-/
namespace Templates
namespace Document

open Fragment

/-- The items of one document, and then those of another. -/
def append : Document → Document → Document
  | done, e => e
  | char c rest, e => char c (rest.append e)
  | comment content rest, e => comment content (rest.append e)
  | part name inner rest, e => part name inner (rest.append e)

/-- How many end marks of parts there are at the very end. -/
def closingMarks : Document → Nat
  | done => 0
  | char _ rest => rest.closingMarks
  | comment _ rest => rest.closingMarks
  | part _ inner rest => if rest = done then inner.closingMarks + 1 else rest.closingMarks

/-- Whether the last thing before the end marks at the very end is a comment. -/
def ClosesComment : Document → Prop
  | done => False
  | char _ rest => rest.ClosesComment
  | comment _ rest => rest = done ∨ rest.ClosesComment
  | part _ inner rest => if rest = done then inner.ClosesComment else rest.ClosesComment

/-- That many end marks of parts, one behind the other. -/
def endMarks (n : Nat) : Text := (List.replicate n endMark).flatten

@[simp] theorem endMarks_zero : endMarks 0 = [] := rfl

theorem endMarks_succ (n : Nat) : endMarks (n + 1) = endMarks n ++ endMark := by
  rw [endMarks, List.replicate_succ', List.flatten_append]
  simp [endMarks]

theorem render_append : ∀ d e : Document, (d.append e).render = d.render ++ e.render
  | done, e => rfl
  | char c d, e => by simp [append, render, render_append d e]
  | comment content d, e => by simp [append, render, render_append d e]
  | part name inner d, e => by simp [append, render, render_append d e]

theorem partFragments_append (name : Text) : ∀ d e : Document,
    (d.append e).partFragments name = d.partFragments name ++ e.partFragments name
  | done, e => rfl
  | char c d, e => partFragments_append name d e
  | comment content d, e => partFragments_append name d e
  | part localName inner d, e => by simp [append, partFragments, partFragments_append name d e]

/-- Items without characters of their own add nothing to the node's text. -/
theorem bodyFrom_append {e : Document} (he : ∀ fresh b, e.bodyFrom true fresh b = []) : ∀ (d : Document) (fresh b : Bool),
    (d.append e).bodyFrom true fresh b = d.bodyFrom true fresh b
  | done, fresh, b => he fresh b
  | char c d, fresh, b => by simp [append, bodyFrom, bodyFrom_append he d]
  | comment content d, fresh, b => bodyFrom_append he d fresh false
  | part name inner d, fresh, b => bodyFrom_append he d fresh true

theorem NoMarkNext.of_append : ∀ {d e : Document}, (d.append e).NoMarkNext → d.NoMarkNext
  | done, _, _ => trivial
  | char _ _, _, h => h
  | comment _ d, _, h => NoMarkNext.of_append (d := d) h
  | part _ _ _, _, _ => trivial

theorem Legible.of_append : ∀ {d e : Document}, (d.append e).Legible → d.Legible ∧ e.Legible
  | done, _, h => ⟨trivial, h⟩
  | char _ _, _, h => ⟨⟨h.1, fun hc => (h.2.1 hc).of_append, (of_append h.2.2).1⟩, (of_append h.2.2).2⟩
  | comment _ _, _, h => ⟨⟨h.1, (of_append h.2).1⟩, (of_append h.2).2⟩
  | part _ _ _, _, h => ⟨⟨h.1, h.2.1, (of_append h.2.2).1⟩, (of_append h.2.2).2⟩

/-- **A document with end marks at its very end is some items and then a part.** -/
theorem exists_lastPart {n : Nat} : ∀ {d : Document}, d.closingMarks = n + 1 →
    ∃ (before : Document) (name : Text) (inner : Document), d = before.append (part name inner done) ∧
      inner.closingMarks = n ∧ (d.ClosesComment → inner.ClosesComment)
  | char c d, h => by
    obtain ⟨before, name, inner, rfl, hinner⟩ := exists_lastPart (d := d) h
    exact ⟨char c before, name, inner, rfl, hinner⟩
  | comment content d, h => by
    obtain ⟨before, name, inner, rfl, hn, hcomment⟩ := exists_lastPart (d := d) h
    refine ⟨comment content before, name, inner, rfl, hn, fun hclose => hcomment (hclose.resolve_left fun hdone => ?_)⟩
    rw [hdone] at h
    cases h
  | part name inner d, h => by
    rw [closingMarks] at h
    rw [ClosesComment]
    split at h
    · next hd =>
      subst hd
      exact ⟨done, name, inner, rfl, Nat.succ.inj h, by rw [if_pos rfl]; exact id⟩
    · next hd =>
      obtain ⟨before, name', inner', heq, hinner⟩ := exists_lastPart h
      refine ⟨part name inner before, name', inner', by rw [heq]; rfl, ?_⟩
      rw [if_neg hd]
      exact hinner

theorem exists_lastComment : ∀ {d : Document}, d.closingMarks = 0 → d.ClosesComment →
    ∃ (before : Document) (content : Text), d = before.append (comment content done)
  | char c d, h, hclose => by
    obtain ⟨before, content, rfl⟩ := exists_lastComment (d := d) h hclose
    exact ⟨char c before, content, rfl⟩
  | comment content d, h, hclose => by
    rcases hclose with rfl | hclose
    · exact ⟨done, content, rfl⟩
    · obtain ⟨before, content', rfl⟩ := exists_lastComment (d := d) h hclose
      exact ⟨comment content before, content', rfl⟩
  | part name inner d, h, hclose => by
    rw [closingMarks] at h
    rw [ClosesComment] at hclose
    split at h
    · cases h
    · next hd =>
      rw [if_neg hd] at hclose
      obtain ⟨before, content, heq⟩ := exists_lastComment h hclose
      exact ⟨part name inner before, content, by rw [heq]; rfl⟩

/-- **Whether reading a text to the end of the file delivers what a document does**, and then the parts around it. -/
def StandsFor (ε : Type) (t : Text) (d : Document) : Prop :=
  ∀ (inner : Open) (outer : List Open) (held : Text) (b : Bool), Ready b held d →
    resume (ε := ε) b inner outer held t = ⟨d.partFragments inner.name ++
      ⟨inner.name, inner.body ++ (held ++ d.bodyFrom true (inner.isFresh held) b)⟩ :: outer.map Open.close, none⟩

variable {ε : Type}

theorem getLast?_ne_of_append {c : Char} {s t : Text} (h : (s ++ t).getLast? ≠ some c) : t.getLast? ≠ some c := by
  rw [List.getLast?_append] at h
  cases ht : t.getLast? with
  | none => simp
  | some d =>
    rw [ht] at h
    exact h

/-- Only a line feed at its very end makes a difference between a document that ends the file and one that does not. -/
theorem bodyFrom_of_last : ∀ {d : Document}, d.render.getLast? ≠ some '\n' → ∀ fresh b : Bool,
    d.bodyFrom false fresh b = d.bodyFrom true fresh b
  | done, _, fresh, b => rfl
  | char c d, h, fresh, b => by
    have hrest : d.render.getLast? ≠ some '\n' := getLast?_ne_of_append (s := [c]) h
    rw [bodyFrom, bodyFrom, bodyFrom_of_last hrest]
    by_cases hc : c = '\n'
    · have hdone : d ≠ done := by
        rintro rfl
        exact h (by rw [hc]; rfl)
      simp [hc, hdone]
    · simp [hc]
  | comment content d, h, fresh, b => by
    refine bodyFrom_of_last (d := d) ?_ fresh false
    rw [render, ← List.append_assoc, ← List.append_assoc] at h
    exact getLast?_ne_of_append h
  | part name inner d, h, fresh, b => by
    refine bodyFrom_of_last (d := d) ?_ fresh true
    have hsplit : (part name inner d).render =
        ('{' :: '#' :: (name ++ '}' :: (inner.render ++ endMark))) ++ d.render := by simp [render]
    rw [hsplit] at h
    exact getLast?_ne_of_append h

/-- A document's rendering stands for it, unless a line feed ends it. -/
theorem standsFor_render {d : Document} (hd : d.Legible) (h : d.render.getLast? ≠ some '\n') : StandsFor ε d.render d := by
  intro inner outer held b hready
  obtain ⟨inner', held', b', h', hname, hbody, hrun⟩ := delivers_legible (ε := ε) hd inner outer [] hready
  rw [List.append_nil, resume_nil h'.calm h'.nothingHeld, hname, hbody] at hrun
  rw [hrun, decide_eq_false (by simp), bodyFrom_of_last h]
  simp [Delivery.prepend]

/-- What is delivered by items before a text that is not empty. -/
theorem exists_delivers_before {before e : Document} (h : (before.append e).Legible) (inner : Open) (outer : List Open)
    {held : Text} {b : Bool} (hready : Ready b held (before.append e)) {rest : Text} (hrest : rest ≠ []) :
    ∃ inner' held' b', Ready b' held' .done ∧ inner'.name = inner.name ∧
      inner'.body ++ held' = inner.body ++ (held ++ before.bodyFrom true (inner.isFresh held) b) ∧
      resume (ε := ε) b inner outer held (before.render ++ rest) =
        (resume b' inner' outer held' rest).prepend (before.partFragments inner.name) := by
  have hbefore : Ready b held before := ⟨hready.calm, fun hlast => (hready.noMark hlast).of_append, hready.nothingHeld⟩
  have hdelivers := delivers_legible (ε := ε) h.of_append.1 inner outer rest hbefore
  rw [Delivers, decide_eq_true hrest] at hdelivers
  exact hdelivers

/-- **A last part without its end mark**: its items and its start mark, and a text that stands for what is in it. -/
theorem standsFor_lastPart {before inner : Document} {name t : Text} (h : (before.append (part name inner done)).Legible)
    (ht : StandsFor ε t inner) :
    StandsFor ε (before.render ++ '{' :: '#' :: (name ++ '}' :: t)) (before.append (part name inner done)) := by
  intro opened outer held b hready
  obtain ⟨opened', held', b', h', hname, hbody, hrun⟩ :=
    exists_delivers_before (ε := ε) h opened outer hready (List.cons_ne_nil '{' ('#' :: (name ++ '}' :: t)))
  have hpart := ht (.start (opened'.name ++ '.' :: name)) (opened'.write held' :: outer) [] false (.nothing false inner)
  have hclose : (opened'.write held').close = ⟨opened'.name, opened'.body ++ held'⟩ := by
    rw [Open.close, Open.body_write]
    rfl
  rw [hrun, resume_startPart h'.calm h.of_append.2.1, hpart, List.map_cons, hclose, hname, hbody,
    bodyFrom_append (fun _ _ => rfl), partFragments_append]
  simp [Delivery.prepend, partFragments, partBody, Open.isFresh, Open.start, Open.body]

/-- **A last comment without its end mark.** -/
theorem standsFor_lastComment {before : Document} {content : Text} (h : (before.append (comment content done)).Legible) :
    StandsFor ε (before.render ++ (commentStart ++ content)) (before.append (comment content done)) := by
  intro opened outer held b hready
  have hrest : commentStart ++ content ≠ [] := by simp [commentStart]
  obtain ⟨opened', held', b', h', hname, hbody, hrun⟩ := exists_delivers_before (ε := ε) h opened outer hready hrest
  rw [hrun, resume_unclosedComment h'.calm h.of_append.2.1.2, resume_nil h'.calm (fun hb => by cases hb), hname, hbody,
    bodyFrom_append (fun _ _ => rfl), partFragments_append]
  simp [Delivery.prepend, partFragments]

/-- A document without some of the end marks at its very end, and a text that stands for it. -/
theorem exists_standsFor_unclosed : ∀ {n : Nat} {d : Document}, d.Legible → n ≤ d.closingMarks →
    ∃ t, d.render = t ++ endMarks n ∧ (t.getLast? ≠ some '\n' → StandsFor ε t d)
  | 0, d, hd, _ => ⟨d.render, by simp, standsFor_render hd⟩
  | n + 1, d, hd, hn => by
    obtain ⟨m, hm⟩ : ∃ m, d.closingMarks = m + 1 := ⟨d.closingMarks - 1, by omega⟩
    obtain ⟨before, name, inner, rfl, hinner, -⟩ := exists_lastPart hm
    obtain ⟨t, ht, hstands⟩ := exists_standsFor_unclosed (n := n) (d := inner) hd.of_append.2.2.1 (by omega)
    refine ⟨before.render ++ '{' :: '#' :: (name ++ '}' :: t), ?_, fun hlast => standsFor_lastPart hd (hstands ?_)⟩
    · simp [render_append, render, ht, endMarks_succ]
    · refine getLast?_ne_of_append (s := before.render ++ '{' :: '#' :: (name ++ ['}'])) ?_
      simpa using hlast

theorem exists_standsFor_unclosed_comment : ∀ {n : Nat} {d : Document}, d.Legible → d.closingMarks = n → d.ClosesComment →
    ∃ t, d.render = t ++ (commentEnd ++ endMarks n) ∧ StandsFor ε t d
  | 0, d, hd, hn, hclose => by
    obtain ⟨before, content, rfl⟩ := exists_lastComment hn hclose
    exact ⟨_, by simp [render_append, render], standsFor_lastComment hd⟩
  | n + 1, d, hd, hn, hclose => by
    obtain ⟨before, name, inner, rfl, hinner, hcomment⟩ := exists_lastPart hn
    obtain ⟨t, ht, hstands⟩ := exists_standsFor_unclosed_comment (d := inner) hd.of_append.2.2.1 hinner (hcomment hclose)
    exact ⟨_, by simp [render_append, render, ht, endMarks_succ], standsFor_lastPart hd hstands⟩

theorem ofText_of_standsFor {t : Text} {d : Document} (h : StandsFor Empty t d) (stem : Text) :
    ofText stem t = d.partFragments stem ++ [⟨stem, d.bodyFrom true false false⟩] := by
  rw [ofText, ofLines_lines, h (.whole stem) [] [] false (.nothing false d)]
  rfl

/-- A text that stands for a document is read like the document's rendering. -/
theorem ofText_eq_of_standsFor {t : Text} {d : Document} (h : StandsFor Empty t d) (hd : d.Legible)
    (hlast : d.render.getLast? = some '}') (stem : Text) : ofText stem t = ofText stem d.render := by
  have hwhole : StandsFor Empty d.render d := standsFor_render hd (by rw [hlast]; decide)
  rw [ofText_of_standsFor h, ofText_of_standsFor hwhole]

theorem getLast?_endMarks (t : Text) (n : Nat) : (t ++ endMarks (n + 1)).getLast? = some '}' := by
  simp [endMarks_succ, endMark, List.getLast?_append]

/-- **End marks that are missing at the end of a file are supplied.**  A document's rendering without the last ones of the end
marks at its very end, or without all of them and the end mark of the comment before them, is read like the whole rendering;
only a line feed must not become the last character, as that would end the last line. -/
theorem ofText_unclosed (stem : Text) {d : Document} (hd : d.Legible) :
    (∀ n ≤ d.closingMarks, ∃ t, d.render = t ++ endMarks n ∧
      (t.getLast? ≠ some '\n' → ofText stem t = ofText stem d.render)) ∧
    (d.ClosesComment → ∃ t, d.render = t ++ (commentEnd ++ endMarks d.closingMarks) ∧
      ofText stem t = ofText stem d.render) := by
  refine ⟨fun n hn => ?_, fun hclose => ?_⟩
  · obtain ⟨t, ht, hstands⟩ := exists_standsFor_unclosed (ε := Empty) hd hn
    refine ⟨t, ht, fun hlast => ?_⟩
    cases n with
    | zero => rw [ht, endMarks_zero, List.append_nil]
    | succ n => exact ofText_eq_of_standsFor (hstands hlast) hd (by rw [ht]; exact getLast?_endMarks t n) stem
  · obtain ⟨t, ht, hstands⟩ := exists_standsFor_unclosed_comment (ε := Empty) hd rfl hclose
    refine ⟨t, ht, ofText_eq_of_standsFor hstands hd ?_ stem⟩
    rw [ht]
    cases d.closingMarks with
    | zero => simp [commentEnd, List.getLast?_append]
    | succ n =>
      rw [← List.append_assoc]
      exact getLast?_endMarks _ n

/-- Carriage returns in a name and before a line feed in a comment: without the last end mark, and without both of them and the
comment's. -/
theorem ofText_unclosed_nested :
    let d := char 'a' (part ['x', '\r'] (char '\n' (part ['y'] (char 'b' (comment ['c', '\r', '\n'] done)) done)) done)
    d.Legible ∧ 1 ≤ d.closingMarks ∧ d.ClosesComment ∧
      ofText ['p'] ['a', '{', '#', 'x', '\r', '}', '\n', '{', '#', 'y', '}', 'b', '{', '!', '-', '-', 'c', '\r', '\n', '-',
        '-', '}', '{', '#', '}'] = ofText ['p'] d.render ∧
      ofText ['p'] ['a', '{', '#', 'x', '\r', '}', '\n', '{', '#', 'y', '}', 'b', '{', '!', '-', '-', 'c', '\r', '\n'] =
        ofText ['p'] d.render := by
  intro d
  have hcomment : IsSkipped ['c', '\r', '\n'] := isSkipped_of_not_infix (by decide) (by decide)
  have hd : d.Legible := by simp [d, Legible, hcomment]
  have hmarks : 1 ≤ d.closingMarks := by decide
  have hclose : d.ClosesComment := by simp [d, ClosesComment]
  obtain ⟨hsome, hall⟩ := ofText_unclosed ['p'] hd
  obtain ⟨t, ht, hsame⟩ := hsome 1 hmarks
  obtain ⟨u, hu, hsame'⟩ := hall hclose
  obtain rfl := List.append_cancel_right (ht.symm.trans (by rfl : d.render = ['a', '{', '#', 'x', '\r', '}', '\n', '{', '#', 'y',
    '}', 'b', '{', '!', '-', '-', 'c', '\r', '\n', '-', '-', '}', '{', '#', '}'] ++ endMarks 1))
  obtain rfl := List.append_cancel_right (hu.symm.trans (by rfl : d.render = ['a', '{', '#', 'x', '\r', '}', '\n', '{', '#', 'y',
    '}', 'b', '{', '!', '-', '-', 'c', '\r', '\n'] ++ (commentEnd ++ endMarks 2)))
  exact ⟨hd, hmarks, hclose, hsame (by decide), hsame'⟩

end Document
end Templates
