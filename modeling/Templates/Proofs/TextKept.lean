import Templates.Proofs.DeliveryOrder
/-!
# What becomes of the text

A reading holds text in the parts that are open, in the line in hand and in the lines ahead, each of these with the line feed
before it.  No step adds to that (`amount_step_le`), so no character is delivered more often than it is in the lines.  Where no
comment starts, a step takes away nothing but marks and local names (`amount_step_eq`), and as each local name ends up in the
name of a fragment, every character that is in no mark and no name is delivered as often as it is in the lines
(`occurrences_ofLines`).
-/
namespace Templates
namespace Fragment

open Document (commentStart)

variable {ε : Type}

/-- How often a character stands in the texts of some fragments. -/
def occurrences (c : Char) (fragments : List Fragment) : Nat := (fragments.flatMap Fragment.body).count c

@[simp] theorem occurrences_nil (c : Char) : occurrences c [] = 0 := rfl

@[simp] theorem occurrences_cons (c : Char) (f : Fragment) (fragments : List Fragment) :
    occurrences c (f :: fragments) = f.body.count c + occurrences c fragments := by
  simp [occurrences]

@[simp] theorem occurrences_append (c : Char) (as bs : List Fragment) :
    occurrences c (as ++ bs) = occurrences c as + occurrences c bs := by
  simp [occurrences]

/-- What is to come with the lines ahead: a line feed, and the line. -/
def textAhead (ahead : List (Except ε Text)) : Text :=
  ahead.flatMap fun
    | .ok line => '\n' :: line
    | .error _ => ['\n']

@[simp] theorem textAhead_nil : textAhead ([] : List (Except ε Text)) = [] := rfl

@[simp] theorem textAhead_ok (line : Text) (ahead : List (Except ε Text)) :
    textAhead (.ok line :: ahead) = '\n' :: (line ++ textAhead ahead) := rfl

@[simp] theorem textAhead_error (e : ε) (ahead : List (Except ε Text)) :
    textAhead (.error e :: ahead) = '\n' :: textAhead ahead := rfl

/-- How often a character is in what a reading holds and has ahead. -/
def Reading.amount (c : Char) (r : Reading ε) : Nat :=
  r.inner.body.count c + occurrences c (r.outer.map Open.close) + r.line.count c + (textAhead r.ahead).count c

/-- How often a character is in what a step delivers and leaves. -/
def Step.amount (c : Char) : Step ε → Nat
  | .onward delivered next => occurrences c delivered + next.amount c
  | .ended delivered => occurrences c delivered
  | .failed delivered _ => occurrences c delivered

/-- How often a character is in the line feed that ends a line with more lines behind it. -/
def lineFeed (c : Char) (more : Bool) : Nat := if c = '\n' ∧ more = true then 1 else 0

theorem lineFeed_of_ne {c : Char} (hc : c ≠ '\n') (more : Bool) : lineFeed c more = 0 := if_neg fun h => hc h.1

theorem count_newline_cons (c : Char) (t : Text) : ('\n' :: t).count c = t.count c + lineFeed c true := by
  rw [List.count_cons]
  by_cases hc : c = '\n'
  · simp [hc, lineFeed]
  · simp [hc, Ne.symm hc, lineFeed]

@[simp] theorem close_body (o : Open) : o.close.body = o.body := rfl

theorem count_endLine_le (c : Char) (more : Bool) (o : Open) :
    (o.endLine more).body.count c ≤ o.body.count c + lineFeed c more := by
  rw [Open.body_endLine]
  split
  · next h =>
    obtain ⟨rfl, -⟩ := Bool.and_eq_true_iff.1 h
    rw [List.count_append, count_newline_cons]
    simp
  · omega

theorem count_le_endLine (c : Char) (more : Bool) (o : Open) : o.body.count c ≤ (o.endLine more).body.count c := by
  rw [Open.body_endLine]
  split
  · simp
  · exact Nat.le_refl _

theorem amount_nextLine_le (c : Char) (delivered : List Fragment) (inner : Open) (outer : List Open)
    (ahead : List (Except ε Text)) :
    (Reading.nextLine delivered inner outer ahead).amount c + lineFeed c (!ahead.isEmpty) ≤
      occurrences c delivered + inner.body.count c + occurrences c (outer.map Open.close) + (textAhead ahead).count c := by
  match ahead with
  | [] => simp [Reading.nextLine, Step.amount, lineFeed, Nat.add_assoc]
  | .error e :: later =>
    simp only [Reading.nextLine, Step.amount, textAhead_error, count_newline_cons, List.isEmpty_cons, Bool.not_false]
    omega
  | .ok line :: later =>
    simp only [Reading.nextLine, Step.amount, Reading.amount, textAhead_ok, count_newline_cons, List.count_append,
      List.isEmpty_cons, Bool.not_false, Open.body_leaveLine]
    omega

/-- A comment only takes text away. -/
theorem count_skipComment_le {c : Char} {t rest : Text} {ahead later : List (Except ε Text)}
    (h : skipComment t ahead = .closed rest later) :
    rest.count c + (textAhead later).count c ≤ t.count c + (textAhead ahead).count c := by
  induction ahead generalizing t with
  | nil =>
    rw [skipComment.eq_def] at h
    split at h
    · next hcut =>
      cases h
      rw [Text.count_of_cutUnescaped c hcut]
      omega
    · cases h
  | cons line ahead ih =>
    rw [skipComment.eq_def] at h
    split at h
    · next hcut =>
      cases h
      rw [Text.count_of_cutUnescaped c hcut]
      omega
    · cases line with
      | error e => cases h
      | ok t' =>
        have := ih h
        simp only [textAhead_ok, count_newline_cons, List.count_append]
        omega

/-- **No step adds to the text.** -/
theorem amount_step_le (c : Char) (r : Reading ε) : r.step.amount c ≤ r.amount c := by
  have hdoes := r.does_step
  generalize r.step = s at hdoes ⊢
  cases hdoes with
  | takeLine =>
    have hnext := amount_nextLine_le c [] ((r.inner.write r.line).endLine (!r.ahead.isEmpty)) r.outer r.ahead
    have hline := count_endLine_le c (!r.ahead.isEmpty) (r.inner.write r.line)
    rw [Open.body_write, List.count_append] at hline
    rw [occurrences_nil] at hnext
    rw [Reading.takeLine, Reading.amount]
    omega
  | skipComment hline hskip =>
    have hcount := count_skipComment_le (c := c) hskip
    simp only [Step.amount, Reading.amount, occurrences_nil, hline, List.count_append]
    omega
  | skipAll hline hskip =>
    simp only [Step.amount, Reading.amount, occurrences_nil, hline, List.count_append, textAhead_nil, List.count_nil]
    omega
  | failInComment hline hskip => exact Nat.zero_le _
  | keepEndMark hline houter =>
    simp only [Step.amount, Reading.amount, occurrences_nil, hline, List.count_append, Open.body_write]
    omega
  | endPart hline houter hrest =>
    simp only [Step.amount, Reading.amount, occurrences_nil, hline, houter, List.count_append, List.map_cons,
      occurrences_cons, close_body, Open.body_write]
    omega
  | @endPartAndLine before parent outer hline houter =>
    have hnext := amount_nextLine_le c [(r.inner.write before).close] parent outer r.ahead
    simp only [occurrences_nil, occurrences_cons, close_body, Open.body_write, List.count_append] at hnext
    simp only [Reading.amount, hline, houter, List.count_append, List.map_cons, occurrences_cons, close_body]
    omega
  | @startPart before localName rest hline hne hbrace =>
    simp only [Step.amount, Reading.startPart, Reading.amount, occurrences_nil, hline, List.count_append, List.count_cons,
      List.map_cons, occurrences_cons, close_body, Open.body_write, Open.body_start, List.count_nil]
    omega

theorem occurrences_run_le (c : Char) (r : Reading ε) : occurrences c r.run.fragments ≤ r.amount c := by
  have hle := amount_step_le c r
  rw [Reading.run_eq]
  cases hstep : r.step with
  | ended delivered =>
    rw [hstep] at hle
    exact hle
  | failed delivered e =>
    rw [hstep] at hle
    exact hle
  | onward delivered next =>
    have := Reading.size_lt_of_step hstep
    have ih := occurrences_run_le c next
    rw [hstep] at hle
    simp only [Step.amount] at hle
    simp only [Step.delivery, Delivery.prepend, occurrences_append]
    omega
termination_by r.size

/-! ### Lines in which no comment starts -/

/-- Whether no comment starts in the line in hand or in a line ahead. -/
def Reading.NoComment (r : Reading ε) : Prop :=
  ¬ commentStart <:+: r.line ∧ ∀ line, .ok line ∈ r.ahead → ¬ commentStart <:+: line

/-- Whether a step keeps an amount of a character, but for a local name that it starts a part with. -/
def Step.Keeps (c : Char) (n : Nat) : Step ε → Prop
  | .onward delivered next =>
    next.NoComment ∧ (c ∉ next.inner.name → occurrences c delivered + next.amount c = n)
  | .ended delivered => occurrences c delivered = n
  | .failed _ _ => True

variable {c : Char}

theorem keeps_nextLine (hc : c ≠ '\n') (delivered : List Fragment) (inner : Open) (outer : List Open)
    {ahead : List (Except ε Text)} (hcomment : ∀ line, .ok line ∈ ahead → ¬ commentStart <:+: line) :
    (Reading.nextLine delivered inner outer ahead).Keeps c
      (occurrences c delivered + inner.body.count c + occurrences c (outer.map Open.close) + (textAhead ahead).count c) := by
  match ahead with
  | [] => simp [Reading.nextLine, Step.Keeps, Nat.add_assoc]
  | .error e :: later => trivial
  | .ok line :: later =>
    refine ⟨⟨hcomment line List.mem_cons_self, fun t ht => hcomment t (List.mem_cons_of_mem _ ht)⟩, fun _ => ?_⟩
    simp only [Reading.amount, textAhead_ok, List.count_cons_of_ne (Ne.symm hc), List.count_append, Open.body_leaveLine]
    omega

theorem count_endLine (hc : c ≠ '\n') (more : Bool) (o : Open) : (o.endLine more).body.count c = o.body.count c := by
  have hle := count_endLine_le c more o
  rw [lineFeed_of_ne hc] at hle
  exact Nat.le_antisymm hle (count_le_endLine c more o)

/-- **A step in which no comment starts takes away nothing but marks and a local name.** -/
theorem keeps_step (hc : c ∉ ['\n', '{', '#', '}']) (r : Reading ε) (h : r.NoComment) : r.step.Keeps c (r.amount c) := by
  simp only [List.mem_cons, List.not_mem_nil, or_false, not_or] at hc
  obtain ⟨hfeed, hopen, hhash, hclose⟩ := hc
  have hend : endMark.count c = 0 := by simp [endMark, Ne.symm hopen, Ne.symm hhash, Ne.symm hclose]
  have hrest : ∀ (before : Text) {rest : Text}, r.line = before ++ rest → ¬ commentStart <:+: rest :=
    fun before rest hline hstart => h.1 (hstart.trans ⟨before, [], by rw [hline, List.append_nil]⟩)
  have hdoes := r.does_step
  generalize r.step = s at hdoes ⊢
  cases hdoes with
  | takeLine =>
    have hnext := keeps_nextLine hfeed [] ((r.inner.write r.line).endLine (!r.ahead.isEmpty)) r.outer h.2
    rw [count_endLine hfeed, Open.body_write, List.count_append, occurrences_nil] at hnext
    have hamount : r.amount c = 0 + (r.inner.body.count c + r.line.count c) + occurrences c (r.outer.map Open.close) +
        (textAhead r.ahead).count c := by
      rw [Reading.amount]
      omega
    rw [hamount]
    exact hnext
  | @skipComment before behind rest ahead hline hskip => exact absurd ⟨before, behind, by rw [hline, List.append_assoc]⟩ h.1
  | @skipAll before behind hline hskip => exact absurd ⟨before, behind, by rw [hline, List.append_assoc]⟩ h.1
  | failInComment => trivial
  | @keepEndMark before rest hline houter =>
    refine ⟨⟨hrest (before ++ endMark) (by rw [hline, List.append_assoc]), h.2⟩, fun _ => ?_⟩
    simp only [Reading.amount, occurrences_nil, hline, List.count_append, Open.body_write]
    omega
  | @endPart before rest parent outer hline houter hne =>
    refine ⟨⟨hrest (before ++ endMark) (by rw [hline, List.append_assoc]), h.2⟩, fun _ => ?_⟩
    simp only [Reading.amount, occurrences_nil, hline, houter, List.count_append, List.map_cons, occurrences_cons,
      close_body, Open.body_write, hend]
    omega
  | @endPartAndLine before parent outer hline houter =>
    have hnext := keeps_nextLine hfeed [(r.inner.write before).close] parent outer h.2
    have hamount : r.amount c = occurrences c [(r.inner.write before).close] + parent.body.count c +
        occurrences c (outer.map Open.close) + (textAhead r.ahead).count c := by
      simp only [Reading.amount, hline, houter, List.count_append, List.map_cons, occurrences_cons, occurrences_nil,
        close_body, Open.body_write, hend]
      omega
    rw [hamount]
    exact hnext
  | @startPart before localName rest hline hne hbrace =>
    have hafter : r.line = (before ++ '{' :: '#' :: (localName ++ ['}'])) ++ rest := by simp [hline]
    refine ⟨⟨hrest _ hafter, h.2⟩, fun hname => ?_⟩
    have hlocal : localName.count c = 0 := List.count_eq_zero_of_not_mem fun hmem =>
      hname (List.mem_append_right _ (List.mem_cons_of_mem _ hmem))
    simp only [Reading.startPart, Reading.amount, occurrences_nil, hline, List.count_append,
      List.count_cons_of_ne (Ne.symm hopen), List.count_cons_of_ne (Ne.symm hhash), List.count_cons_of_ne (Ne.symm hclose),
      List.map_cons, occurrences_cons, close_body, Open.body_write, Open.body_start, List.count_nil, hlocal]
    omega

theorem occurrences_run (hc : c ∉ ['\n', '{', '#', '}']) (r : Reading ε) (h : r.NoComment)
    (hfailure : firstFailure? r.ahead = none) (hnames : ∀ f ∈ r.run.fragments, c ∉ f.name) :
    occurrences c r.run.fragments = r.amount c := by
  have hkeeps := keeps_step hc r h
  have hheeds := r.heeds_step
  rw [Reading.run_eq] at hnames ⊢
  cases hstep : r.step with
  | ended delivered =>
    rw [hstep] at hkeeps
    exact hkeeps
  | failed delivered e =>
    rw [hstep] at hheeds
    have hfails : firstFailure? r.ahead = some e := hheeds
    rw [hfails] at hfailure
    cases hfailure
  | onward delivered next =>
    rw [hstep] at hkeeps hheeds hnames
    obtain ⟨hnext, hamount⟩ := hkeeps
    have hrest : firstFailure? next.ahead = none := Eq.trans hheeds hfailure
    have hlater : ∀ f ∈ next.run.fragments, c ∉ f.name := fun f hf => hnames f (List.mem_append_right delivered hf)
    -- the innermost part is delivered later, so its name is one of those without the character
    obtain ⟨f, hf, hname⟩ := exists_delivered hrest next.inner.name List.mem_cons_self
    have := Reading.size_lt_of_step hstep
    have ih := occurrences_run hc next hnext hrest hlater
    have hlack : c ∉ next.inner.name := hname ▸ hlater f hf
    rw [Step.delivery, Delivery.prepend, occurrences_append, ih]
    exact hamount hlack
termination_by r.size

/-! ### Whole files -/

theorem count_textAhead (c : Char) (lines : List Text) : (textAhead (lines.map (Except.ok (ε := ε)))).count c =
    (if c = '\n' then lines.length else 0) + lines.flatten.count c := by
  induction lines with
  | nil => simp
  | cons line lines ih =>
    rw [List.map_cons, textAhead_ok, List.count_cons, List.count_append, ih, List.flatten_cons, List.count_append,
      List.length_cons]
    by_cases hc : c = '\n'
    · simp [hc]
      omega
    · simp [hc, Ne.symm hc]

theorem amount_start (c : Char) (stem line : Text) (later : List Text) :
    (Reading.start (ε := ε) stem line (later.map .ok)).amount c =
      (if c = '\n' then later.length else 0) + (line :: later).flatten.count c := by
  simp only [Reading.amount, Reading.start, Open.body_leaveLine, Open.body_whole, count_textAhead, List.map_nil,
    occurrences_nil, List.count_nil, List.flatten_cons, List.count_append]
  omega

/-- **No text is lost or doubled, whatever marks the lines hold.**  No character is delivered more often than it is in the lines,
and no more line feeds than there are lines behind the first one; where no comment starts, each character that is in no mark and
no name is delivered as often as it is in the lines. -/
theorem occurrences_ofLines (stem : Text) {lines : List Text} (hlines : ∀ line ∈ lines, '\n' ∉ line) :
    let fragments := (ofLines stem (lines.map (Except.ok (ε := ε)))).fragments
    (∀ c, c ≠ '\n' → occurrences c fragments ≤ lines.flatten.count c) ∧
    occurrences '\n' fragments ≤ lines.length - 1 ∧
    ((∀ line ∈ lines, ¬ commentStart <:+: line) → ∀ c, c ∉ ['\n', '{', '#', '}'] → (∀ f ∈ fragments, c ∉ f.name) →
      occurrences c fragments = lines.flatten.count c) := by
  cases lines with
  | nil => simp [ofLines_nil]
  | cons line later =>
    rw [List.map_cons, ofLines_cons]
    refine ⟨fun c hc => ?_, ?_, fun hcomment c hc hnames => ?_⟩
    · have hle := occurrences_run_le c (Reading.start (ε := ε) stem line (later.map .ok))
      rwa [amount_start, if_neg hc, Nat.zero_add] at hle
    · have hle := occurrences_run_le '\n' (Reading.start (ε := ε) stem line (later.map .ok))
      have hfeeds : (line :: later).flatten.count '\n' = 0 := List.count_eq_zero_of_not_mem fun hmem => by
        obtain ⟨t, ht, hfeed⟩ := List.mem_flatten.1 hmem
        exact hlines t ht hfeed
      rwa [amount_start, if_pos rfl, hfeeds] at hle
    · have hnocomment : (Reading.start (ε := ε) stem line (later.map .ok)).NoComment :=
        ⟨hcomment line List.mem_cons_self, fun t ht =>
          hcomment t (List.mem_cons_of_mem line (by simpa [Reading.start] using ht))⟩
      have hfeed : c ≠ '\n' := fun h => hc (by simp [h])
      rw [occurrences_run hc _ hnocomment (firstFailure?_map_ok later) hnames, amount_start, if_neg hfeed, Nat.zero_add]

/-- An end mark outside all parts, a start mark without the end of its name, and a part that never ends. -/
theorem occurrences_ofLines_stray :
    let lines := [['a', '{', '#', '}', '{', '#', 'x', '}', 'b'], ['{', '#', 'y'], ['d', '{', '#', '}', '{', '#', 'z', '}']]
    let fragments := (ofLines (ε := Empty) ['p'] (lines.map .ok)).fragments
    (∀ line ∈ lines, '\n' ∉ line) ∧ (∀ line ∈ lines, ¬ commentStart <:+: line) ∧ (∀ f ∈ fragments, 'd' ∉ f.name) ∧
      occurrences 'y' fragments ≤ 1 ∧ occurrences '\n' fragments ≤ 2 ∧ occurrences 'd' fragments = 1 := by
  intro lines fragments
  have hlines : ∀ line ∈ lines, '\n' ∉ line := by decide
  have hcomment : ∀ line ∈ lines, ¬ commentStart <:+: line := by decide
  have hnames : ∀ f ∈ fragments, 'd' ∉ f.name := by decide +kernel
  obtain ⟨hle, hfeeds, hkept⟩ := occurrences_ofLines (ε := Empty) ['p'] hlines
  exact ⟨hlines, hcomment, hnames, hle 'y' (by decide), hfeeds, hkept hcomment 'd' (by decide) hnames⟩

end Fragment
end Templates
