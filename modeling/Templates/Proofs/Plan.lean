import Mathlib.Data.List.TakeWhile
import Templates.Proofs.Cuts
import Templates.Tag.LongForm
/-!
# Plans for writing tags out

A plan gives each character of a text what becomes of it when its tags are written out (`Change`), whatever the stem is.  It
is sound when every change stands where it may (`Plan.Sound`): `Plan.sound_append` puts sound plans together.  Directives
have sound plans (`exists_plan_qualify`), and so does what one pass settles: a pass ends the work, or settles a part by a
plan and leaves the rest, or comes to a macro call without an end, and which of these it is depends on the text alone
(`pass_outcome`).
-/
namespace Templates
namespace Tag

/-- What becomes of one character. -/
inductive Change where
  /-- It stays. -/
  | kept
  /-- A caret is the short form of `~.`. -/
  | caret
  /-- A plus sign becomes the word for a reference, and the stem. -/
  | reference
  /-- A plus sign becomes the word for a reference under a condition. -/
  | condition
  /-- A dot and the stem come before the hash sign behind the condition. -/
  | conditionEnd
  /-- The stem comes before a hash sign. -/
  | qualified
  deriving DecidableEq

def Change.result (stem : Text) (c : Char) : Change → Text
  | kept => [c]
  | caret => ['~', '.']
  | reference => includeWord ++ stem
  | condition => includeIfWord
  | conditionEnd => '.' :: (stem ++ [c])
  | qualified => stem ++ [c]

/-- A text with what becomes of each of its characters. -/
abbrev Plan := List (Char × Change)

def Plan.keep (t : Text) : Plan := t.map fun c => (c, .kept)

/-- A condition behind its plus sign, with the parentheses around it. -/
def Plan.condition (t : Text) : Plan := Plan.keep ('(' :: (t ++ [')']))

/-- Whether a character may change so, between the plans of what is before it and behind it. -/
def Change.Fits (before : Plan) (c : Char) (behind : Plan) : Change → Prop
  | kept => True
  | caret => c = '^' ∧ [('{', kept)] <:+ before
  | reference => c = '+' ∧ (∃ d ∈ ['{', ',', ':', '('], [(d, kept)] <:+ before) ∧ ∃ k, [('#', k)] <+: behind
  | condition => c = '+' ∧ [('{', kept)] <:+ before ∧ ∃ t, Plan.condition t ++ [('#', conditionEnd)] <+: behind
  | conditionEnd => c = '#' ∧ ∃ t, [('{', kept), ('+', condition)] ++ Plan.condition t <:+ before
  | qualified => c = '#'

namespace Plan

def source (p : Plan) : Text := p.map Prod.fst

def result (stem : Text) (p : Plan) : Text := p.flatMap fun x => x.2.result stem x.1

/-- **Every change of the plan stands where it may.** -/
def Sound (p : Plan) : Prop := ∀ before x behind, p = before ++ x :: behind → x.2.Fits before x.1 behind

variable {stem : Text} {p q : Plan} {t : Text} {c : Char}

@[simp] theorem source_nil : source [] = [] := rfl

@[simp] theorem source_cons (x : Char × Change) (p : Plan) : source (x :: p) = x.1 :: source p := rfl

@[simp] theorem source_append (p q : Plan) : source (p ++ q) = source p ++ source q := List.map_append

@[simp] theorem source_keep (t : Text) : source (keep t) = t := by
  simp [source, keep, Function.comp_def]

@[simp] theorem result_nil (stem : Text) : result stem [] = [] := rfl

@[simp] theorem result_cons (stem : Text) (x : Char × Change) (p : Plan) :
    result stem (x :: p) = x.2.result stem x.1 ++ result stem p := rfl

@[simp] theorem result_append (stem : Text) (p q : Plan) : result stem (p ++ q) = result stem p ++ result stem q :=
  List.flatMap_append

@[simp] theorem result_keep (stem t : Text) : result stem (keep t) = t := by
  induction t with
  | nil => rfl
  | cons c t ih => exact congrArg (c :: ·) ih

@[simp] theorem keep_nil : keep [] = [] := rfl

@[simp] theorem keep_cons (c : Char) (t : Text) : keep (c :: t) = (c, .kept) :: keep t := rfl

@[simp] theorem keep_append (s t : Text) : keep (s ++ t) = keep s ++ keep t := List.map_append

end Plan

/-- A change that may stand somewhere still may when more comes before it and behind it. -/
theorem Change.Fits.mono {before behind : Plan} {c : Char} {change : Change} (h : change.Fits before c behind)
    (p q : Plan) : change.Fits (p ++ before) c (behind ++ q) := by
  have hpre : ∀ {s : Plan}, s <:+ before → s <:+ p ++ before := fun hs => hs.trans (List.suffix_append p before)
  have hpost : ∀ {s : Plan}, s <+: behind → s <+: behind ++ q := fun hs => hs.trans (List.prefix_append behind q)
  cases change with
  | kept => trivial
  | caret => exact ⟨h.1, hpre h.2⟩
  | reference =>
    obtain ⟨hc, ⟨d, hd, hbefore⟩, k, hbehind⟩ := h
    exact ⟨hc, ⟨d, hd, hpre hbefore⟩, k, hpost hbehind⟩
  | condition =>
    obtain ⟨hc, hbefore, t, hbehind⟩ := h
    exact ⟨hc, hpre hbefore, t, hpost hbehind⟩
  | conditionEnd =>
    obtain ⟨hc, t, hbefore⟩ := h
    exact ⟨hc, t, hpre hbefore⟩
  | qualified => exact h

namespace Plan

variable {stem : Text} {p q : Plan} {t : Text} {c : Char}

/-- A plan before a sound one, each of whose changes may stand there. -/
theorem sound_append_of (hp : ∀ before x behind, p = before ++ x :: behind → x.2.Fits before x.1 (behind ++ q))
    (hq : Sound q) : Sound (p ++ q) := by
  intro before x behind h
  rcases List.append_eq_append_iff.1 h with ⟨r, rfl, hr⟩ | ⟨r, rfl, hr⟩
  · have := (hq r x behind hr).mono p []
    rwa [List.append_nil] at this
  · cases r with
    | nil =>
      have := (hq [] x behind (by simpa using hr.symm)).mono before []
      simpa using this
    | cons y r =>
      simp only [List.cons_append, List.cons.injEq] at hr
      obtain ⟨rfl, rfl⟩ := hr
      exact hp before x r rfl

/-- **Sound plans come together to a sound plan.** -/
theorem sound_append (hp : Sound p) (hq : Sound q) : Sound (p ++ q) :=
  sound_append_of (fun before x behind h => by simpa using (hp before x behind h).mono [] q) hq

theorem sound_nil : Sound [] := fun before x behind h => by simp at h

theorem sound_keep (t : Text) : Sound (keep t) := by
  intro before x behind h
  have hx : x ∈ keep t := by rw [h]; simp
  obtain ⟨c, -, rfl⟩ := List.mem_map.1 hx
  trivial

theorem sound_cons_kept (c : Char) (hp : Sound p) : Sound ((c, .kept) :: p) := sound_append (sound_keep [c]) hp

theorem sound_cons_qualified (hp : Sound p) : Sound (('#', .qualified) :: p) := by
  refine sound_append_of (p := [('#', .qualified)]) (fun before x behind heq => ?_) hp
  rcases before with _ | ⟨y, before⟩
  · cases heq
    rfl
  · simp at heq

theorem sound_cons_cons {d : Char} {change : Change} (h : change.Fits [(c, .kept)] d p) (hp : Sound p) :
    Sound ((c, .kept) :: (d, change) :: p) := by
  refine sound_append_of (p := [(c, .kept), (d, change)]) (fun before x behind heq => ?_) hp
  rcases before with _ | ⟨y, _ | ⟨z, before⟩⟩
  · cases heq
    trivial
  · cases heq
    exact h
  · simp at heq

/-- The two changes of a reference under a condition. -/
theorem sound_condition (t : Text) (hp : Sound p) :
    Sound (('{', .kept) :: ('+', .condition) :: (condition t ++ ('#', .conditionEnd) :: p)) := by
  have hsplit : ('{', .kept) :: ('+', .condition) :: (condition t ++ ('#', .conditionEnd) :: p) =
      (('{', .kept) :: ('+', .condition) :: (condition t ++ [('#', .conditionEnd)])) ++ p := by simp
  rw [hsplit]
  refine sound_append_of (fun before x behind heq => ?_) hp
  rcases before with _ | ⟨y, _ | ⟨z, before⟩⟩
  · cases heq
    trivial
  · cases heq
    exact ⟨rfl, List.suffix_refl _, t, List.prefix_append _ _⟩
  · simp only [List.cons_append, List.cons.injEq] at heq
    obtain ⟨rfl, rfl, heq⟩ := heq
    rcases List.append_eq_append_iff.1 heq with ⟨r, rfl, hr⟩ | ⟨r, hr, hx⟩
    · cases r with
      | nil =>
        cases hr
        exact ⟨rfl, t, by rw [List.append_nil]; exact List.suffix_refl _⟩
      | cons y r => simp at hr
    · cases r with
      | nil =>
        cases hx
        exact ⟨rfl, t, by rw [hr, List.append_nil]; exact List.suffix_refl _⟩
      | cons y r =>
        cases hx
        have hmem : x ∈ keep ('(' :: (t ++ [')'])) := by
          change x ∈ condition t
          rw [hr]
          simp
        obtain ⟨c, -, rfl⟩ := List.mem_map.1 hmem
        trivial

/-- What comes behind a character that no reference starts with is sound without it. -/
theorem sound_of_cons_kept (hc : c ∉ ['{', ',', ':', '(']) (h : Sound ((c, .kept) :: p)) : Sound p := by
  intro before x behind hp
  have hfits := h ((c, .kept) :: before) x behind (by rw [hp]; rfl)
  have hone : ∀ d ∈ ['{', ',', ':', '('], [(d, Change.kept)] <:+ (c, .kept) :: before → [(d, Change.kept)] <:+ before := by
    intro d hd hs
    rcases List.suffix_cons_iff.1 hs with heq | hs
    · cases heq
      exact absurd hd hc
    · exact hs
  generalize hk : x.2 = change at hfits ⊢
  cases change with
  | kept => trivial
  | caret => exact ⟨hfits.1, hone _ (by simp) hfits.2⟩
  | reference =>
    obtain ⟨hx, ⟨d, hd, hbefore⟩, hbehind⟩ := hfits
    exact ⟨hx, ⟨d, hd, hone d hd hbefore⟩, hbehind⟩
  | condition => exact ⟨hfits.1, hone _ (by simp) hfits.2.1, hfits.2.2⟩
  | conditionEnd =>
    obtain ⟨hx, t, hbefore⟩ := hfits
    rcases List.suffix_cons_iff.1 hbefore with heq | hs
    · cases heq
      exact absurd (by simp) hc
    · exact ⟨hx, t, hs⟩
  | qualified => exact hfits

end Plan

open Plan

theorem startsBareReference_iff {c : Char} : startsBareReference c = true ↔ c ∈ [',', ':', '('] := by
  simp [startsBareReference, or_assoc]

theorem exists_plan_qualifyArguments : ∀ (c : Char) (t : Text), ∃ p : Plan, Sound ((c, .kept) :: p) ∧ source p = t ∧
    ∀ stem, result stem ((c, .kept) :: p) = qualifyArguments stem (c :: t)
  | c, [] => ⟨[], sound_keep [c], rfl, fun _ => rfl⟩
  | c, d :: t => by
    obtain ⟨p, hp, rfl, hresult⟩ := exists_plan_qualifyArguments d t
    by_cases h : d = '#' ∧ startsArgument c
    · obtain ⟨rfl, hc⟩ := h
      refine ⟨('#', .qualified) :: p, ?_, rfl, fun stem => ?_⟩
      · exact sound_cons_kept c (sound_cons_qualified (sound_of_cons_kept (by simp) hp))
      · rw [qualifyArguments, if_pos ⟨rfl, hc⟩, ← hresult]
        simp [Change.result]
    · refine ⟨(d, .kept) :: p, sound_cons_kept c hp, rfl, fun stem => ?_⟩
      rw [qualifyArguments, if_neg h, ← hresult]
      rfl

theorem exists_plan_qualifyReferences : ∀ (c : Char) (t : Text), ∃ p : Plan, Sound ((c, .kept) :: p) ∧ source p = t ∧
    ∀ stem, result stem ((c, .kept) :: p) = qualifyReferences stem (c :: t)
  | c, [] => ⟨[], sound_keep [c], rfl, fun _ => rfl⟩
  | c, [d] => ⟨[(d, .kept)], sound_keep [c, d], rfl, fun _ => rfl⟩
  | c, d :: e :: t => by
    by_cases hbare : e = '#' ∧ d = '+' ∧ startsBareReference c
    · obtain ⟨rfl, rfl, hc⟩ := hbare
      obtain ⟨p, hp, rfl, hresult⟩ := exists_plan_qualifyReferences '#' t
      refine ⟨('+', .reference) :: ('#', .kept) :: p, ?_, rfl, fun stem => ?_⟩
      · have hmem : c ∈ ['{', ',', ':', '('] := List.mem_cons_of_mem _ (startsBareReference_iff.1 hc)
        exact sound_cons_cons ⟨rfl, ⟨c, hmem, List.suffix_refl _⟩, .kept, List.prefix_append [_] p⟩ hp
      · rw [qualifyReferences, if_pos ⟨rfl, rfl, hc⟩, ← hresult]
        simp [Change.result]
    · by_cases hhead : e = '#' ∧ d = '.' ∧ endsDirectiveHead c
      · obtain ⟨rfl, rfl, hc⟩ := hhead
        obtain ⟨p, hp, rfl, hresult⟩ := exists_plan_qualifyReferences '#' t
        refine ⟨('.', .kept) :: ('#', .qualified) :: p, ?_, rfl, fun stem => ?_⟩
        · exact sound_cons_kept c (sound_cons_kept '.' (sound_cons_qualified (sound_of_cons_kept (by simp) hp)))
        · rw [qualifyReferences, if_neg hbare, if_pos ⟨rfl, rfl, hc⟩, ← hresult]
          simp [Change.result]
      · obtain ⟨p, hp, hsource, hresult⟩ := exists_plan_qualifyReferences d (e :: t)
        refine ⟨(d, .kept) :: p, sound_cons_kept c hp, by rw [source_cons, hsource], fun stem => ?_⟩
        rw [qualifyReferences, if_neg hbare, if_neg hhead, ← hresult]
        rfl

/-- **A directive has a sound plan**, which keeps its first character. -/
theorem exists_plan_qualify (c : Char) (t : Text) : ∃ p : Plan, Sound ((c, .kept) :: p) ∧ source p = t ∧
    ∀ stem, result stem ((c, .kept) :: p) = qualify stem (c :: t) := by
  unfold qualify
  by_cases h : (loopWord.isPrefixOf (c :: t) || gridWord.isPrefixOf (c :: t)) = true
  · simp only [h, if_true]
    exact exists_plan_qualifyArguments c t
  · simp only [h]
    exact exists_plan_qualifyReferences c t

/-- A macro call with a reference and without an end, at the first open brace of a text. -/
structure OpenCall (t before blanks name : Text) : Prop where
  source : t = before ++ '{' :: '*' :: (blanks ++ '#' :: name)
  before : '{' ∉ before
  blanks : ∀ c ∈ blanks, c = ' '
  name : '}' ∉ name

/-- How a pass over a text comes out, for every stem. -/
inductive Outcome (t : Text) (pass : Text → Pass) : Prop
  | ended (p : Plan) (sound : Sound p) (source : source p = t) (eq : ∀ stem, pass stem = .ended (result stem p))
  | onward (p : Plan) (rest : Text) (sound : Sound p) (source : source p ++ rest = t)
    (eq : ∀ stem, pass stem = .onward (result stem p) rest)
  | openCall {before blanks name : Text} (call : OpenCall t before blanks name)

theorem Outcome.after {t before : Text} {pass : Text → Pass} (h : Outcome t pass) (hbefore : '{' ∉ before) :
    Outcome (before ++ t) fun stem => (pass stem).after before := by
  cases h with
  | ended p sound source eq =>
    exact .ended (keep before ++ p) (sound_append (sound_keep before) sound) (by simp [source]) fun stem => by
      simp [eq, Pass.after]
  | onward p rest sound source eq =>
    exact .onward (keep before ++ p) rest (sound_append (sound_keep before) sound) (by simp [source]) fun stem => by
      simp [eq, Pass.after]
  | openCall call =>
    exact .openCall ⟨by rw [call.source, List.append_assoc], by simp [hbefore, call.before], call.blanks, call.name⟩

/-- From a hash sign on, the work goes on at the next `}`, or it is over. -/
theorem outcome_passToBrace {p : Plan} (before : Text → Text) (hp : Sound p)
    (hresult : ∀ stem, result stem p = before stem ++ ['#']) (t : Text) :
    Outcome (source p ++ t) fun stem => (passToBrace ('#' :: t)).after (before stem) := by
  have hhash : Text.cut ['}'] ('#' :: t) = (Text.cut ['}'] t).map fun parts => ('#' :: parts.1, parts.2) :=
    Text.cut_cons_of_ne (by decide) t
  cases hcut : Text.cut ['}'] t with
  | none =>
    refine .ended (p ++ keep t) (sound_append hp (sound_keep t)) (by simp) fun stem => ?_
    simp [passToBrace, hhash, hcut, Pass.after, hresult]
  | some parts =>
    obtain ⟨name, rest⟩ := parts
    refine .onward (p ++ keep name) ('}' :: rest) (sound_append hp (sound_keep name)) ?_ fun stem => ?_
    · rw [Text.eq_append_of_cut hcut]
      simp
    · simp [passToBrace, hhash, hcut, Pass.after, hresult]

/-- Behind a condition the work goes on, or the reference under it is written out. -/
theorem outcome_passInclude_condition (t : Text) : Outcome ('{' :: '+' :: '(' :: t) fun stem => passInclude stem ('(' :: t) := by
  have hkeep : ∀ stem, '{' :: '+' :: '(' :: t = result stem (keep ('{' :: '+' :: '(' :: t)) := fun stem =>
    (result_keep stem _).symm
  cases hcut : Text.cutUnescaped [')'] t with
  | none =>
    refine .ended (keep ('{' :: '+' :: '(' :: t)) (sound_keep _) (source_keep _) fun stem => ?_
    rw [← hkeep, passInclude, hcut]
  | some parts =>
    obtain ⟨condition, behind⟩ := parts
    have ht : t = condition ++ (')' :: behind) := Text.eq_append_of_cutUnescaped hcut
    cases behind with
    | nil =>
      refine .ended (keep ('{' :: '+' :: '(' :: t)) (sound_keep _) (source_keep _) fun stem => ?_
      rw [← hkeep, passInclude, hcut]
    | cons c rest =>
      by_cases hc : c = '#'
      · subst hc
        have hafter := outcome_passToBrace (fun stem => '{' :: (includeIfWord ++ '(' :: (condition ++ ')' :: '.' :: stem)))
          (sound_condition condition sound_nil) (fun stem => by simp [Change.result, Plan.condition]) rest
        subst ht
        simpa [passInclude, hcut, Plan.condition] using hafter
      · refine .onward (keep ('{' :: '+' :: '(' :: (condition ++ [')']))) (c :: rest) (sound_keep _) ?_ fun stem => ?_
        · rw [ht]
          simp
        · simp [passInclude, hcut, Change.result]

theorem outcome_passInclude (t : Text) : Outcome ('{' :: '+' :: t) fun stem => passInclude stem t := by
  cases t with
  | nil => exact .ended (keep ['{', '+']) (sound_keep _) rfl fun _ => rfl
  | cons c t =>
    by_cases hhash : c = '#'
    · subst hhash
      have hp : Sound [('{', .kept), ('+', .reference), ('#', .kept)] :=
        sound_cons_cons ⟨rfl, ⟨'{', by simp, List.suffix_refl _⟩, .kept, List.prefix_refl _⟩ (sound_keep ['#'])
      exact outcome_passToBrace (fun stem => '{' :: (includeWord ++ stem)) hp (fun stem => by simp [Change.result]) t
    · by_cases hparen : c = '('
      · subst hparen
        exact outcome_passInclude_condition t
      · refine .onward (keep ['{', '+']) (c :: t) (sound_keep _) rfl fun stem => ?_
        simp [passInclude, Change.result]

theorem outcome_passTag (t : Text) : Outcome ('{' :: '~' :: t) fun stem => passTag stem t := by
  unfold passTag
  cases hcut : Text.cutUnescaped ['}'] t with
  | none =>
    refine .ended (keep ('{' :: '~' :: t)) (sound_keep _) (source_keep _) fun stem => ?_
    rw [result_keep]
  | some parts =>
    obtain ⟨directive, rest⟩ := parts
    have ht : t = directive ++ ('}' :: rest) := Text.eq_append_of_cutUnescaped hcut
    cases directive with
    | nil =>
      refine .onward (keep ['{', '~', '}']) rest (sound_keep _) (by rw [ht]; rfl) fun stem => ?_
      rfl
    | cons c directive =>
      obtain ⟨p, hp, rfl, hresult⟩ := exists_plan_qualify c directive
      refine .onward (keep ['{', '~'] ++ ((c, .kept) :: p) ++ keep ['}']) rest
        (sound_append (sound_append (sound_keep _) hp) (sound_keep _)) ?_ fun stem => ?_
      · rw [ht]
        simp
      · rw [result_append, result_append, hresult, result_keep, result_keep]
        rfl

theorem outcome_passTag_caret (t : Text) : Outcome ('{' :: '^' :: t) fun stem => passTag stem ('.' :: t) := by
  have hcaret : ∀ {p : Plan}, Sound p → Sound (('{', .kept) :: ('^', .caret) :: p) := fun hp =>
    sound_cons_cons ⟨rfl, List.suffix_refl _⟩ hp
  have hdot : Text.cutUnescaped ['}'] ('.' :: t) =
      (Text.cutUnescaped ['}'] t).map fun parts => ('.' :: parts.1, parts.2) := by
    simp [Text.cutUnescaped, Text.cutUnescapedAfter]
  unfold passTag
  rw [hdot]
  cases hcut : Text.cutUnescaped ['}'] t with
  | none =>
    refine .ended (('{', .kept) :: ('^', .caret) :: keep t) (hcaret (sound_keep t)) (by simp) fun stem => ?_
    simp [Change.result]
  | some parts =>
    obtain ⟨directive, rest⟩ := parts
    have ht : t = directive ++ ('}' :: rest) := Text.eq_append_of_cutUnescaped hcut
    obtain ⟨p, hp, rfl, hresult⟩ := exists_plan_qualify '.' directive
    refine .onward (('{', .kept) :: ('^', .caret) :: (p ++ keep ['}'])) rest
      (hcaret (sound_append (sound_of_cons_kept (by simp) hp) (sound_keep _))) ?_ fun stem => ?_
    · rw [ht]
      simp
    · have hq : qualify stem ('.' :: source p) = '.' :: result stem p := (hresult stem).symm
      simp [hq, Change.result]

/-- A text is blank, or blanks stand before some other character of it. -/
theorem blank_or : ∀ t : Text, (∀ c ∈ t, c = ' ') ∨
    ∃ blanks c rest, t = blanks ++ c :: rest ∧ (∀ d ∈ blanks, d = ' ') ∧ c ≠ ' '
  | [] => .inl (by simp)
  | d :: t => by
    by_cases hd : d = ' '
    · subst hd
      rcases blank_or t with ht | ⟨blanks, c, rest, rfl, hblanks, hc⟩
      · exact .inl (by simpa using ht)
      · exact .inr ⟨' ' :: blanks, c, rest, rfl, by simpa using hblanks, hc⟩
    · exact .inr ⟨[], d, t, rfl, by simp, hd⟩

theorem passMacro_of_blank {t : Text} (h : ∀ c ∈ t, c = ' ') (stem : Text) : passMacro stem t = .ended ('{' :: '*' :: t) := by
  have hdrop : t.dropWhile (· == ' ') = [] := List.dropWhile_eq_nil_iff.2 fun c hc => by simp [h c hc]
  rw [passMacro, hdrop]

theorem passMacro_eq {blanks : Text} (h : ∀ d ∈ blanks, d = ' ') {c : Char} (hc : c ≠ ' ') (stem t : Text) :
    passMacro stem (blanks ++ c :: t) =
      if c = '#' then passMacroName ('*' :: (blanks ++ stem ++ ['#'])) t else passMacroName ('*' :: blanks) (c :: t) := by
  have htake : (blanks ++ c :: t).takeWhile (· == ' ') = blanks := by
    rw [List.takeWhile_append_of_pos fun d hd => by simp [h d hd]]
    simp [hc]
  have hdrop : (blanks ++ c :: t).dropWhile (· == ' ') = c :: t := by
    rw [List.dropWhile_append_of_pos fun d hd => by simp [h d hd]]
    simp [hc]
  unfold passMacro
  rw [hdrop, htake]
  by_cases hhash : c = '#'
  · subst hhash
    rfl
  · simp [hhash]

theorem outcome_passMacro (t : Text) : Outcome ('{' :: '*' :: t) fun stem => passMacro stem t := by
  rcases blank_or t with hblank | ⟨blanks, c, name, rfl, hblanks, hc⟩
  · refine .ended (keep ('{' :: '*' :: t)) (sound_keep _) (source_keep _) fun stem => ?_
    rw [result_keep, passMacro_of_blank hblank]
  · by_cases hhash : c = '#'
    · subst hhash
      cases hcut : Text.cut ['}'] name with
      | none => exact .openCall ⟨(List.nil_append _).symm, List.not_mem_nil, hblanks, Text.cut_eq_none_iff.1 hcut⟩
      | some parts =>
        obtain ⟨before, rest⟩ := parts
        refine .onward (keep ('{' :: '*' :: blanks) ++ ('#', .qualified) :: keep (before ++ ['}'])) rest
          (sound_append (sound_keep _) (sound_cons_qualified (sound_keep _))) ?_ fun stem => ?_
        · rw [(Text.cut_eq_some_iff.1 hcut).1]
          simp
        · rw [passMacro_eq hblanks hc]
          simp [passMacroName, hcut, Change.result]
    · cases hcut : Text.cut ['}'] (c :: name) with
      | none =>
        refine .onward (keep ['{']) ('*' :: (blanks ++ c :: name)) (sound_keep _) rfl fun stem => ?_
        rw [passMacro_eq hblanks hc, if_neg hhash]
        simp [passMacroName, hcut, Change.result]
      | some parts =>
        obtain ⟨before, rest⟩ := parts
        refine .onward (keep ('{' :: '*' :: (blanks ++ (before ++ ['}'])))) rest (sound_keep _) ?_ fun stem => ?_
        · rw [(Text.cut_eq_some_iff.1 hcut).1]
          simp
        · rw [passMacro_eq hblanks hc, if_neg hhash]
          simp [passMacroName, hcut, Change.result]

theorem outcome_passBrace (t : Text) : Outcome ('{' :: t) fun stem => passBrace stem t := by
  cases t with
  | nil => exact .ended (keep ['{']) (sound_keep _) rfl fun _ => rfl
  | cons c t =>
    by_cases hplus : c = '+'
    · subst hplus
      exact outcome_passInclude t
    by_cases htilde : c = '~'
    · subst htilde
      exact outcome_passTag t
    by_cases hcaret : c = '^'
    · subst hcaret
      exact outcome_passTag_caret t
    by_cases hstar : c = '*'
    · subst hstar
      exact outcome_passMacro t
    · refine .onward (keep ['{', c]) t (sound_keep _) rfl fun stem => ?_
      simp [passBrace, Change.result]

/-- **A pass has one of three outcomes**, and the text alone tells which. -/
theorem pass_outcome (t : Text) : Outcome t fun stem => pass stem t := by
  unfold pass
  cases hcut : Text.cut ['{'] t with
  | none => exact .ended (keep t) (sound_keep t) (source_keep t) fun stem => by rw [result_keep]
  | some parts =>
    obtain ⟨before, after⟩ := parts
    obtain ⟨rfl, hbefore⟩ := Text.cut_eq_some_iff.1 hcut
    exact (outcome_passBrace after).after hbefore

end Tag
end Templates
