import Mathlib.Data.List.DropRight
import Templates.Proofs.References
/-!
# Texts that hide nothing behind them

A text is inert when it stays as it is for every stem and whatever comes behind it, and that comes out as if it stood alone
(`inert_iff`).  A reference, or a macro call, ends at the first closing brace of its name, be it escaped or not; so it ends
where the search for an unescaped brace ends it exactly when the name has no closing brace, or an inert text comes behind
the first one (`name_ends_unescaped_iff`).  Before a reference, text without short and long forms is inert exactly when an
even number of open braces stands at its end (`reference_behind_plain_iff`).
-/
namespace Templates
namespace Tag

/-- A text whose stretches stay as they are, for every stem and whatever comes behind them. -/
inductive Inert : Text → Prop where
  | nil : Inert []
  | stretch {a v : Text} {w : Text → Text} (h : ∀ r, Stretch a w (v ++ r)) (kept : ∀ stem, '{' ∉ stem → w stem = a)
      (rest : Inert v) : Inert (a ++ v)

variable {stem a b n p r t v : Text} {w : Text → Text}

theorem Inert.longForm_append (h : Inert v) (hstem : '{' ∉ stem) (r : Text) :
    longForm stem (v ++ r) = v ++ longForm stem r := by
  induction h with
  | nil => rfl
  | stretch hs kept rest ih =>
    rw [List.append_assoc, longForm_append_of_stretch hstem (hs r), kept stem hstem, ih, List.append_assoc]

/-! ### Texts that are left alone are inert -/

/-- A text that stays as it is, for every stem and whatever comes behind it, and does not change what becomes of that. -/
def LeftAlone (v : Text) : Prop := ∀ stem r, '{' ∉ stem → longForm stem (v ++ r) = v ++ longForm stem r

theorem longForm_nil (hstem : '{' ∉ stem) : longForm stem [] = [] := longForm_of_tail hstem .nil

theorem longForm_plain (hstem : '{' ∉ stem) (ht : '{' ∉ t) : longForm stem t = t := by
  have h := longForm_append hstem ht []
  rwa [longForm_nil hstem, List.append_nil] at h

theorem LeftAlone.own (h : LeftAlone v) (hstem : '{' ∉ stem) : longForm stem v = v := by
  have := h stem [] hstem
  rwa [longForm_nil hstem, List.append_nil] at this

/-- A text that comes to a short reference with more text behind it is not left alone before that text. -/
theorem not_leftAlone_of_shortReference {h l u : Text} {c d : Char} (hh : ShortHead h l)
    (heq : c :: d :: v ++ r = '{' :: (h ++ '#' :: u)) : ¬ LeftAlone (c :: d :: v) := by
  intro halone
  obtain ⟨x, hx⟩ : ∃ x, longForm [] ('{' :: (h ++ '#' :: u)) = '{' :: (l ++ x) :=
    longForm_shortReference List.not_mem_nil hh u
  have hlong := halone [] r List.not_mem_nil
  rw [heq, hx] at hlong
  cases hh <;> simp_all [includeWord, includeIfWord]

/-- A directive without an end is written out once it has one. -/
theorem not_leftAlone_of_directive {b : Text} (hb : Text.Escapes '}' b) : ¬ LeftAlone ('{' :: '~' :: b) := by
  intro h
  -- A reference and an argument without a stem: one of them is written out, whether the directive is a list or not.
  have hended : Text.EndedBy '}' (b ++ ['(', '+', '#', ' ', '#']) := hb.endedBy_append (by decide) (by decide) (by decide)
  have hlong := h ['x'] ['(', '+', '#', ' ', '#', '}'] (by decide)
  have hstem : '{' ∉ ['x'] := by decide
  have hdirective := longForm_directive hstem hended []
  have hplain : longForm ['x'] ['(', '+', '#', ' ', '#', '}'] = ['(', '+', '#', ' ', '#', '}'] :=
    longForm_plain (by decide) (by decide)
  rw [hplain] at hlong
  rw [longForm_nil (by decide)] at hdirective
  have hspelled : spelled ['x'] (b ++ ['(', '+', '#', ' ', '#']) = b ++ ['(', '+', '#', ' ', '#'] := by
    simp only [List.append_assoc, List.cons_append, List.nil_append] at hdirective hlong
    rw [hdirective] at hlong
    rw [← List.append_left_inj ['}']]
    simpa using hlong
  have hqualified := (spelled_eq_self_iff (by decide)).1 hspelled
  unfold Qualified at hqualified
  split at hqualified
  · exact hqualified [' ', '#'] (by decide) ⟨b ++ ['(', '+', '#'], [], by simp⟩
  · exact hqualified ['(', '+', '#'] (by decide) ⟨b, [' ', '#'], by simp⟩

theorem not_leftAlone_of_blanks {s : Text} (hs : ∀ c ∈ s, c = ' ') : ¬ LeftAlone ('{' :: '*' :: s) := by
  intro h
  have hlong := h ['x'] ['#', '}'] (by decide)
  have hstem : '{' ∉ ['x'] := by decide
  have hlength := length_lt_longForm_call hstem hs (by decide) ['}']
  have hplain : longForm ['x'] ['#', '}'] = ['#', '}'] := longForm_plain (by decide) (by decide)
  rw [hplain] at hlong
  simp only [List.cons_append] at hlong
  rw [hlong] at hlength
  exact Nat.lt_irrefl _ hlength

theorem not_leftAlone_of_stops (ht : Stops t) : ¬ LeftAlone ('{' :: t) := by
  cases ht with
  | plus => exact not_leftAlone_of_shortReference (r := ['#']) (u := []) .bare rfl
  | @condition c hc =>
    have hended : Text.EndedBy ')' (c ++ ['a']) := hc.endedBy_append (by decide) (by decide) (by decide)
    exact not_leftAlone_of_shortReference (r := ['a', ')', '#']) (u := []) (.conditional hended) (by simp)
  | afterCondition hc => exact not_leftAlone_of_shortReference (r := ['#']) (u := []) (.conditional hc) (by simp)
  | directive hb => exact not_leftAlone_of_directive hb
  | blanks hs => exact not_leftAlone_of_blanks hs

/-- A macro call without an end takes the next closing brace for its own. -/
theorem not_leftAlone_of_openMacroName {s : Text} {d : Char} (hs : ∀ c ∈ s, c = ' ') (hblank : d ≠ ' ')
    (hhash : d ≠ '#') (hn : '}' ∉ d :: n) : ¬ LeftAlone ('{' :: '*' :: (s ++ d :: n)) := by
  intro h
  have hlong := h [] ['{', '^', '}'] List.not_mem_nil
  have hname : Skipped ('*' :: (s ++ (d :: n ++ ['{', '^']) ++ ['}'])) [] :=
    .macroName hs (by simpa using hblank) (by simpa using hhash) (by simp_all)
  have hstem : '{' ∉ ([] : Text) := List.not_mem_nil
  have hskipped := longForm_skipped hstem hname
  rw [longForm_nil hstem] at hskipped
  have hcaret : longForm [] ['{', '^', '}'] = ['{', '~', '.', '}'] := by decide
  rw [hcaret] at hlong
  simp_all

/-- A stretch that stays as it is stays a stretch with more text behind it, when that is no end of a name. -/
theorem Stretch.append_right (h : Stretch a w r) (kept : ∀ stem, '{' ∉ stem → w stem = a) (halone : LeftAlone (a ++ r))
    (u : Text) : Stretch a w (r ++ u) := by
  cases h with
  | char hc => exact .char hc
  | skipped hs =>
    cases hs with
    | noTag hd => exact .skipped (.noTag hd)
    | plus hhash hparen => exact .skipped (.plus hhash hparen)
    | condition hc hd => exact .skipped (.condition hc hd)
    | macroName hs hblank hhash hn => exact .skipped (.macroName hs hblank hhash hn)
    | openMacroName hs hblank hhash hn => exact absurd halone (not_leftAlone_of_openMacroName hs hblank hhash hn)
  | reference hh hn => exact .reference hh hn
  | caret hb => exact .caret hb
  | directive hb => exact .directive hb
  | call hs hn => exact .call hs hn
  | openCall hs hn =>
    have := kept ['x'] (by decide)
    simp at this

theorem inert_of_leftAlone (v : Text) (h : LeftAlone v) : Inert v := by
  induction v using stretch_induction with
  | tail ht =>
    cases ht with
    | nil => exact .nil
    | brace => exact absurd (h [] ['+', '#'] (by decide)) (by decide)
    | stopped hs => exact absurd h (not_leftAlone_of_stops hs)
    | reference hh => exact absurd (h.own List.not_mem_nil) (Short.longForm_ne List.not_mem_nil (.reference hh))
    | caret => exact absurd (h.own List.not_mem_nil) (Short.longForm_ne List.not_mem_nil .caret)
  | @stretch a w r hs ih =>
    have kept : ∀ stem, '{' ∉ stem → w stem = a := fun _ hstem => (hs.kept hstem (h.own hstem)).1
    have stable := hs.append_right kept h
    refine .stretch stable kept (ih fun _ u hstem => ?_)
    have hlong := h _ u hstem
    rw [List.append_assoc, longForm_append_of_stretch hstem (stable u), kept _ hstem, List.append_assoc] at hlong
    exact List.append_cancel_left hlong

/-- **The inert texts are those that are left alone, and that leave alone what is behind them.** -/
theorem inert_iff : LeftAlone v ↔ Inert v := ⟨inert_of_leftAlone v, fun h _ r hstem => h.longForm_append hstem r⟩

/-! ### Where a name ends -/

theorem longForm_reference (hstem : '{' ∉ stem) (hn : '}' ∉ n) (r : Text) :
    longForm stem (['{', '+', '#'] ++ n ++ ['}'] ++ r) =
      ['{'] ++ includeWord ++ stem ++ ['#'] ++ n ++ ['}'] ++ longForm stem r := by
  simpa using longForm_append_of_stretch hstem (.reference (r := r) .bare hn)

theorem longForm_call (hstem : '{' ∉ stem) (hn : '}' ∉ n) (r : Text) :
    longForm stem (['{', '*', '#'] ++ n ++ ['}'] ++ r) = ['{', '*'] ++ stem ++ ['#'] ++ n ++ ['}'] ++ longForm stem r := by
  simpa using longForm_append_of_stretch hstem (.call (s := []) (r := r) (by simp) hn)

/-- **The name of a reference, or of a macro call, goes to its last closing brace exactly when it has no other, or an inert
text comes behind the first one.** -/
theorem name_ends_unescaped_iff {n : Text} :
    (∀ stem r, '{' ∉ stem →
        longForm stem (['{', '+', '#'] ++ n ++ ['}'] ++ r) =
            ['{'] ++ includeWord ++ stem ++ ['#'] ++ n ++ ['}'] ++ longForm stem r ∧
          longForm stem (['{', '*', '#'] ++ n ++ ['}'] ++ r) =
            ['{', '*'] ++ stem ++ ['#'] ++ n ++ ['}'] ++ longForm stem r) ↔
      ∀ a b, n = a ++ '}' :: b → '}' ∉ a → Inert (b ++ ['}']) := by
  constructor
  · -- The whole name ends the reference, and so does its first part: what is behind that is left alone.
    rintro h a b rfl ha
    refine inert_iff.1 fun stem r hstem => ?_
    have hwhole := (h stem r hstem).1
    have hfirst := longForm_reference hstem ha (b ++ '}' :: r)
    simp_all
  · intro h stem r hstem
    rcases Text.not_mem_or_first '}' n with hn | ⟨a, b, rfl, ha⟩
    · exact ⟨longForm_reference hstem hn r, longForm_call hstem hn r⟩
    · have hbehind := (h a b rfl ha).longForm_append hstem r
      have hreference := longForm_reference hstem ha (b ++ '}' :: r)
      have hcall := longForm_call hstem ha (b ++ '}' :: r)
      simp_all

/-- A name that goes to its last brace for the search of an unescaped one, and that both tags leave at the first one. -/
theorem name_ends_at_escaped_brace :
    Text.EndedBy '}' "\\\x7d\x7b+#x".toList ∧
      longForm "page".toList "\x7b+#\\\x7d\x7b+#x\x7d".toList =
        "\x7b~.include.page#\\\x7d\x7b~.include.page#x\x7d".toList ∧
      longForm "page".toList "\x7b*#\\\x7d\x7b+#x\x7d".toList = "\x7b*page#\\\x7d\x7b~.include.page#x\x7d".toList := by
  decide

/-! ### Braces that start no tag -/

/-- How many open braces stand at the end of a text. -/
def bracesAtEnd (p : Text) : Nat := (p.rtakeWhile (· == '{')).length

theorem bracesAtEnd_append_cons {d : Char} (hd : d ≠ '{') (s t : Text) : bracesAtEnd (s ++ d :: t) = bracesAtEnd t := by
  have hstop : List.takeWhile (· == '{') (d :: s.reverse) = [] := by simp [hd]
  have hreverse : (s ++ d :: t).reverse = t.reverse ++ d :: s.reverse := by simp
  simp only [bracesAtEnd, List.rtakeWhile, List.length_reverse, hreverse, List.takeWhile_append, hstop, List.append_nil]
  split
  · next h => rw [h, List.length_reverse]
  · rfl

theorem bracesAtEnd_of_braces (h : ∀ c ∈ p, c = '{') : bracesAtEnd p = p.length := by
  have hall : List.takeWhile (· == '{') p.reverse = p.reverse := List.takeWhile_eq_self_iff.2 fun c hc => by
    simp [h c (List.mem_reverse.1 hc)]
  simp [bracesAtEnd, List.rtakeWhile, hall]

theorem bracesAtEnd_cons_cons (p : Text) : bracesAtEnd ('{' :: '{' :: p) % 2 = bracesAtEnd p % 2 := by
  by_cases h : ∀ c ∈ p, c = '{'
  · rw [bracesAtEnd_of_braces h, bracesAtEnd_of_braces (by simpa using h), List.length_cons, List.length_cons]
    omega
  · simp only [not_forall] at h
    obtain ⟨d, hmem, hd⟩ := h
    obtain ⟨s, t, rfl⟩ := List.append_of_mem hmem
    have hcons : '{' :: '{' :: (s ++ d :: t) = ('{' :: '{' :: s) ++ d :: t := rfl
    rw [hcons, bracesAtEnd_append_cons hd, bracesAtEnd_append_cons hd]

theorem bracesAtEnd_concat (p : Text) : bracesAtEnd (p ++ ['{']) = bracesAtEnd p + 1 := by
  simp [bracesAtEnd, List.rtakeWhile]

/-- In a text no open brace stands before a character that makes a tag of it. -/
def StartsNoTag (p : Text) : Prop := ∀ c ∈ ['+', '~', '^', '*'], ¬ ['{', c] <:+: p

instance (p : Text) : Decidable (StartsNoTag p) := List.decidableBAll _ ['+', '~', '^', '*']

theorem StartsNoTag.of_append {s : Text} (h : StartsNoTag (s ++ p)) : StartsNoTag p := fun c hc hin =>
  h c hc (hin.trans (List.suffix_append s p).isInfix)

theorem StartsNoTag.concat (h : StartsNoTag p) : StartsNoTag (p ++ ['{']) := by
  rintro c hc ⟨s, t, heq⟩
  rcases List.eq_nil_or_concat t with rfl | ⟨t, x, rfl⟩
  · have hlast : s ++ ['{'] ++ [c] = p ++ ['{'] := by simpa using heq
    obtain rfl : c = '{' := by simpa using (List.append_inj' hlast rfl).2
    exact absurd hc (by decide)
  · rw [List.concat_eq_append, ← List.append_assoc] at heq
    exact h c hc ⟨s, t, (List.append_inj' heq rfl).1⟩

/-- Braces that start no tag take each other, or the character behind them, with them. -/
theorem inert_of_bracesAtEnd : ∀ {p : Text}, StartsNoTag p → bracesAtEnd p % 2 = 0 → Inert p
  | [], _, _ => .nil
  | c :: p, hp, heven => by
    by_cases hc : c = '{'
    · subst hc
      cases p with
      | nil => exact absurd heven (by decide)
      | cons d p =>
        have hd : d ∉ ['+', '~', '^', '*'] := fun hmem => hp d hmem ⟨[], p, rfl⟩
        have hrest : bracesAtEnd p % 2 = 0 := by
          by_cases hbrace : d = '{'
          · subst hbrace
            rwa [← bracesAtEnd_cons_cons]
          · rwa [← bracesAtEnd_append_cons hbrace ['{'] p]
        exact .stretch (fun _ => .skipped (.noTag hd)) (fun _ _ => rfl)
          (inert_of_bracesAtEnd (hp.of_append (s := ['{', d])) hrest)
    · rw [← List.nil_append (c :: p), bracesAtEnd_append_cons hc] at heven
      exact .stretch (fun _ => .char hc) (fun _ _ => rfl) (inert_of_bracesAtEnd (hp.of_append (s := [c])) heven)

/-- **Behind text that starts no tag, a reference is written out exactly when an even number of open braces stands at the end
of the text.** -/
theorem reference_behind_plain_iff (hstem : '{' ∉ stem) (hp : StartsNoTag p) (hn : '}' ∉ n) (r : Text) :
    longForm stem (p ++ ['{', '+', '#'] ++ n ++ ['}'] ++ r) =
        p ++ ['{'] ++ includeWord ++ stem ++ ['#'] ++ n ++ ['}'] ++ longForm stem r ↔
      bracesAtEnd p % 2 = 0 := by
  constructor
  · intro h
    by_contra hodd
    -- The last brace is passed over with the brace before it, and the plus sign stays.
    have hinert : Inert (p ++ ['{']) := inert_of_bracesAtEnd hp.concat (by rw [bracesAtEnd_concat]; omega)
    have hhidden := hinert.longForm_append hstem ('+' :: '#' :: (n ++ '}' :: r))
    have hplus : longForm stem ('+' :: '#' :: (n ++ '}' :: r)) = '+' :: longForm stem ('#' :: (n ++ '}' :: r)) :=
      longForm_append hstem (s := ['+']) (by decide) _
    rw [hplus] at hhidden
    simp_all [includeWord]
  · intro heven
    have hbehind := (inert_of_bracesAtEnd hp heven).longForm_append hstem (['{', '+', '#'] ++ n ++ ['}'] ++ r)
    rw [longForm_reference hstem hn r] at hbehind
    simpa using hbehind

/-- Two braces that take each other, one that takes a letter, and two more. -/
theorem reference_behind_plain_iff_five_braces :
    '{' ∉ ['p'] ∧ StartsNoTag ['{', '{', ' ', '{', 'é', '{', '{'] ∧ '}' ∉ ['x'] ∧
      longForm ['p'] (['{', '{', ' ', '{', 'é', '{', '{'] ++ ['{', '+', '#'] ++ ['x'] ++ ['}'] ++ ['{', '^', 'y', '}']) =
        ['{', '{', ' ', '{', 'é', '{', '{'] ++ ['{'] ++ includeWord ++ ['p'] ++ ['#'] ++ ['x'] ++ ['}'] ++
          longForm ['p'] ['{', '^', 'y', '}'] := by
  have hstarts : StartsNoTag ['{', '{', ' ', '{', 'é', '{', '{'] := by decide
  exact ⟨by decide, hstarts, by decide, (reference_behind_plain_iff (by decide) hstarts (by decide) _).2 (by decide)⟩

/-- One brace before a reference takes the brace of the reference with it. -/
theorem reference_hidden_behind_brace :
    StartsNoTag ['{'] ∧ longForm "page".toList "\x7b\x7b+#x\x7d".toList = "\x7b\x7b+#x\x7d".toList := by
  decide

end Tag
end Templates
