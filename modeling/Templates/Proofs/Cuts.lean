import Mathlib.Data.List.Induction
import Templates.Text.Cut
/-!
# Where a text is cut

A cut at one character falls at its first occurrence (`cut_append`), and there is none where the character is not
(`cut_eq_none_iff`).  A cut at a longer mark falls at the first place where the mark stands (`Text.FirstBehind`), however the
mark overlaps itself.  More text behind moves no cut (`cut_append_right`, `cutUnescapedAfter_append`).  What stands behind an
odd run of backslashes is escaped (`Text.Escaping`): the search for an unescaped mark carries this from character to
character (`Text.escapedBehind`), and the two agree (`escapedBehind_iff`).
-/
namespace Templates
namespace Text

theorem cut_cons_self (c : Char) (t : Text) : cut [c] (c :: t) = some ([], t) := by simp [cut]

theorem cut_cons_of_ne {c d : Char} (h : c ≠ d) (t : Text) :
    cut [c] (d :: t) = (cut [c] t).map fun parts => (d :: parts.1, parts.2) := by simp [cut, h]

theorem cut_append_left {c : Char} : ∀ {s : Text}, c ∉ s → ∀ t : Text,
    cut [c] (s ++ t) = (cut [c] t).map fun parts => (s ++ parts.1, parts.2)
  | [], _, t => by simp
  | d :: s, h, t => by
    simp only [List.mem_cons, not_or] at h
    rw [List.cons_append, cut_cons_of_ne h.1, cut_append_left h.2, Option.map_map]
    rfl

theorem cut_append {c : Char} {s : Text} (h : c ∉ s) (t : Text) : cut [c] (s ++ c :: t) = some (s, t) := by
  rw [cut_append_left h, cut_cons_self]
  simp

theorem cut_eq_none_iff {c : Char} : ∀ {t : Text}, cut [c] t = none ↔ c ∉ t
  | [] => by simp [cut]
  | d :: t => by
    by_cases h : c = d
    · subst h
      simp [cut_cons_self]
    · rw [cut_cons_of_ne h, Option.map_eq_none_iff, cut_eq_none_iff, List.mem_cons]
      simp [h]

theorem cut_eq_some_iff {c : Char} {t before after : Text} :
    cut [c] t = some (before, after) ↔ t = before ++ c :: after ∧ c ∉ before := by
  constructor
  · intro h
    refine ⟨eq_append_of_cut h, ?_⟩
    induction t generalizing before with
    | nil => simp [cut] at h
    | cons d t ih =>
      by_cases hd : c = d
      · subst hd
        rw [cut_cons_self] at h
        cases h
        simp
      · rw [cut_cons_of_ne hd] at h
        obtain ⟨parts, hparts, heq⟩ := Option.map_eq_some_iff.1 h
        cases heq
        rw [List.mem_cons, not_or]
        exact ⟨hd, ih hparts⟩
  · rintro ⟨rfl, hc⟩
    exact cut_append hc after

theorem cut_append_right {c : Char} {t before after : Text} (h : cut [c] t = some (before, after)) (u : Text) :
    cut [c] (t ++ u) = some (before, after ++ u) := by
  obtain ⟨rfl, hc⟩ := cut_eq_some_iff.1 h
  rw [List.append_assoc]
  exact cut_append hc (after ++ u)

/-- Whether the first place in `before ++ (mark ++ after)` where `mark` stands is the one right behind `before`. -/
def FirstBehind (mark before after : Text) : Prop :=
  ∀ p r, before ++ (mark ++ after) = p ++ (mark ++ r) → before.length ≤ p.length

theorem firstBehind_of_cut {mark t before after : Text} (h : cut mark t = some (before, after)) :
    FirstBehind mark before after := by
  have ht := eq_append_of_cut h
  intro p r hp
  rw [← ht] at hp
  clear ht
  induction t generalizing before p with
  | nil =>
    rw [cut] at h
    split at h
    · cases h
      exact Nat.zero_le _
    · cases h
  | cons c t ih =>
    rw [cut] at h
    split at h
    · cases h
      exact Nat.zero_le _
    · next hprefix =>
      obtain ⟨⟨b, a⟩, hparts, heq⟩ := Option.map_eq_some_iff.1 h
      cases heq
      cases p with
      | nil => exact absurd (List.isPrefixOf_iff_prefix.2 ⟨r, hp.symm⟩) hprefix
      | cons d p =>
        cases hp
        exact Nat.succ_le_succ (ih hparts p rfl)

theorem cut_eq_none_iff_absent {mark t : Text} : cut mark t = none ↔ ¬ mark <:+: t := by
  induction t with
  | nil =>
    rw [cut, List.infix_nil]
    split <;> simp_all
  | cons c t ih =>
    rw [cut, List.infix_cons_iff, ← List.isPrefixOf_iff_prefix]
    split
    · next h => simp [h]
    · next h => simp [h, ih]

/-- **A cut falls at the first place of the mark**, however the mark overlaps itself or the text around it. -/
theorem cut_eq_some_iff_firstBehind {mark t before after : Text} :
    cut mark t = some (before, after) ↔ t = before ++ (mark ++ after) ∧ FirstBehind mark before after := by
  constructor
  · exact fun h => ⟨eq_append_of_cut h, firstBehind_of_cut h⟩
  · rintro ⟨rfl, hfirst⟩
    cases hcut : cut mark (before ++ (mark ++ after)) with
    | none => exact absurd ⟨before, after, List.append_assoc _ _ _⟩ (cut_eq_none_iff_absent.1 hcut)
    | some parts =>
      obtain ⟨p, r⟩ := parts
      have heq := eq_append_of_cut hcut
      have hle : before.length ≤ p.length := hfirst p r heq
      have hge : p.length ≤ before.length := firstBehind_of_cut hcut before after heq.symm
      obtain ⟨rfl, hrest⟩ := List.append_inj heq (Nat.le_antisymm hle hge)
      rw [List.append_cancel_left hrest]

theorem firstBehind_of_head_not_mem {mark before : Text} {c : Char} (hc : mark.head? = some c) (h : c ∉ before) (after : Text) :
    FirstBehind mark before after := by
  obtain ⟨m, rfl⟩ := List.head?_eq_some_iff.1 hc
  intro p r heq
  by_contra hlt
  -- then the place behind `p` is within `before`, which has no such character
  obtain ⟨s, rfl⟩ := List.prefix_of_prefix_length_le ⟨_, heq.symm⟩ ⟨_, rfl⟩ (Nat.le_of_not_le hlt)
  rw [List.append_assoc, List.append_cancel_left_eq] at heq
  cases s with
  | nil => simp at hlt
  | cons d s =>
    simp only [List.cons_append, List.cons.injEq] at heq
    exact h (by simp [heq.1])

theorem absent_of_head_not_mem {mark t : Text} {c : Char} (hc : mark.head? = some c) (h : c ∉ t) : ¬ mark <:+: t :=
  fun hpiece => h (hpiece.subset (List.mem_of_mem_head? hc))

theorem cutUnescapedAfter_cons_self (c : Char) (t : Text) : cutUnescapedAfter [c] false (c :: t) = some ([], t) := by
  simp [cutUnescapedAfter]

theorem cutUnescapedAfter_cons_of {c d : Char} {e : Bool} (h : e = true ∨ c ≠ d) (t : Text) :
    cutUnescapedAfter [c] e (d :: t) =
      (cutUnescapedAfter [c] (d == '\\' && !e) t).map fun parts => (d :: parts.1, parts.2) := by
  rw [cutUnescapedAfter, if_neg]
  rintro hcut
  obtain ⟨he, hd⟩ := Bool.and_eq_true_iff.1 hcut
  rcases h with rfl | hne
  · simp at he
  · simp [hne] at hd

theorem cutUnescapedAfter_append {c : Char} (u : Text) : ∀ {t before after : Text} {e : Bool},
    cutUnescapedAfter [c] e t = some (before, after) → cutUnescapedAfter [c] e (t ++ u) = some (before, after ++ u)
  | [], _, _, _, h => by simp [cutUnescapedAfter] at h
  | d :: t, before, after, e, h => by
    by_cases hd : e = true ∨ c ≠ d
    · rw [cutUnescapedAfter_cons_of hd] at h
      obtain ⟨parts, hparts, heq⟩ := Option.map_eq_some_iff.1 h
      cases heq
      rw [List.cons_append, cutUnescapedAfter_cons_of hd, cutUnescapedAfter_append u hparts]
      rfl
    · rw [not_or, Bool.not_eq_true, not_not] at hd
      obtain ⟨rfl, rfl⟩ := hd
      rw [cutUnescapedAfter_cons_self] at h
      cases h
      exact cutUnescapedAfter_cons_self c (t ++ u)

/-- A cut that falls only with more text behind falls in that text. -/
theorem mem_of_cutUnescapedAfter_append {c : Char} {u : Text} : ∀ {t before after : Text} {e : Bool},
    cutUnescapedAfter [c] e t = none → cutUnescapedAfter [c] e (t ++ u) = some (before, after) →
    c ∈ u ∧ after.length < u.length
  | [], before, after, e, _, h => by
    have hu : u = before ++ ([c] ++ after) := eq_append_of_cutUnescapedAfter h
    rw [hu]
    simp
    omega
  | d :: t, before, after, e, hnone, h => by
    by_cases hd : e = true ∨ c ≠ d
    · rw [cutUnescapedAfter_cons_of hd, Option.map_eq_none_iff] at hnone
      rw [List.cons_append, cutUnescapedAfter_cons_of hd] at h
      obtain ⟨parts, hparts, heq⟩ := Option.map_eq_some_iff.1 h
      cases heq
      exact mem_of_cutUnescapedAfter_append hnone hparts
    · rw [not_or, Bool.not_eq_true, not_not] at hd
      obtain ⟨rfl, rfl⟩ := hd
      rw [cutUnescapedAfter_cons_self] at hnone
      cases hnone

theorem cutUnescaped_singleton (c : Char) (t : Text) : cutUnescaped [c] t = cutUnescapedAfter [c] false t :=
  if_neg (List.cons_ne_nil c [])

/-- A text that ends in an odd run of backslashes, so that it escapes what comes behind it. -/
def Escaping (t : Text) : Prop := (t.reverse.takeWhile (· == '\\')).length % 2 = 1

instance (t : Text) : Decidable (Escaping t) := inferInstanceAs (Decidable (_ = _))

/-- Whether what comes behind a text is escaped, where `escaped` tells it of the start of the text. -/
def escapedBehind (escaped : Bool) (t : Text) : Bool := t.foldl (fun e c => c == '\\' && !e) escaped

@[simp] theorem escapedBehind_nil (e : Bool) : escapedBehind e [] = e := rfl

@[simp] theorem escapedBehind_cons (e : Bool) (c : Char) (t : Text) :
    escapedBehind e (c :: t) = escapedBehind (c == '\\' && !e) t := rfl

theorem escapedBehind_append (e : Bool) (s t : Text) : escapedBehind e (s ++ t) = escapedBehind (escapedBehind e s) t :=
  List.foldl_append

/-- **The flag that a search carries tells whether the text behind it is escaped.** -/
theorem escapedBehind_iff (t : Text) : escapedBehind false t = true ↔ Escaping t := by
  induction t using List.reverseRecOn with
  | nil => simp [Escaping]
  | append_singleton t c ih =>
    have hstep : escapedBehind false (t ++ [c]) = (c == '\\' && !escapedBehind false t) := escapedBehind_append false t [c]
    rw [hstep]
    unfold Escaping at ih ⊢
    by_cases hc : c = '\\'
    · subst hc
      simp only [List.reverse_append, List.reverse_singleton, List.singleton_append, List.takeWhile_cons, beq_self_eq_true,
        if_true, List.length_cons, Bool.true_and, Bool.not_eq_true', ← Bool.not_eq_true, ih]
      omega
    · simp [hc]

end Text
end Templates
