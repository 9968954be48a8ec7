import Mathlib.Order.Bounds.Basic
import Templates.Proofs.Cuts
/-!
# Offsets of unescaped marks

A search for an unescaped mark goes from character to character, whatever the mark is, and so it passes over no place at which the
mark stands: not over one that overlaps an escaped one, nor over one whose own characters are backslashes.  A plain search that
goes on behind the first character of each escaped mark comes to the same (`unescapedOffset?_eq_searchOn`).  What is found is the
least offset at which the mark stands behind an even number of backslashes, as far as these are behind the start
(`unescapedOffset?_finds`).
-/
namespace Templates
namespace Text

variable {mark t : Text} {start : Nat}

/-! ### What a cut passes over -/

/-- **No unescaped mark is passed over**: without a cut, each place of the mark is escaped. -/
theorem cutUnescapedAfter_eq_none_iff_escaped (hmark : mark ≠ []) : ∀ {e : Bool} {t : Text},
    cutUnescapedAfter mark e t = none ↔ ∀ before after, t = before ++ (mark ++ after) → escapedBehind e before = true
  | e, [] => by
    refine iff_of_true rfl fun before after h => ?_
    simp [hmark] at h
  | e, c :: t => by
    rw [cutUnescapedAfter]
    split
    · next hcut =>
      obtain ⟨he, hstands⟩ := Bool.and_eq_true_iff.1 hcut
      refine iff_of_false (by simp) fun h => ?_
      have hescaped : e = true := h [] _ (eq_append_drop_of_isPrefixOf hstands)
      simp [hescaped] at he
    · next hcut =>
      rw [Option.map_eq_none_iff, cutUnescapedAfter_eq_none_iff_escaped hmark]
      constructor
      · intro h before after heq
        cases before with
        | nil =>
          have hstands : mark.isPrefixOf (c :: t) = true := List.isPrefixOf_iff_prefix.2 ⟨after, heq.symm⟩
          simpa [hstands] using hcut
        | cons d before =>
          cases heq
          exact h before after rfl
      · intro h before after heq
        exact h (c :: before) after (by rw [heq]; rfl)

/-- **A cut falls at the first unescaped place of its mark.** -/
theorem length_le_of_cutUnescapedAfter {after : Text} : ∀ {e : Bool} {t before : Text},
    cutUnescapedAfter mark e t = some (before, after) → escapedBehind e before = false ∧
      ∀ p r, t = p ++ (mark ++ r) → escapedBehind e p = false → before.length ≤ p.length
  | e, [], before, h => by cases h
  | e, c :: t, before, h => by
    rw [cutUnescapedAfter] at h
    split at h
    · next hcut =>
      cases h
      exact ⟨by simpa using (Bool.and_eq_true_iff.1 hcut).1, fun p r _ _ => Nat.zero_le _⟩
    · next hcut =>
      obtain ⟨⟨b, a⟩, hparts, heq⟩ := Option.map_eq_some_iff.1 h
      cases heq
      obtain ⟨hescaped, hfirst⟩ := length_le_of_cutUnescapedAfter hparts
      refine ⟨hescaped, fun p r hp hpe => ?_⟩
      cases p with
      | nil =>
        have hstands : mark.isPrefixOf (c :: t) = true := List.isPrefixOf_iff_prefix.2 ⟨r, hp.symm⟩
        have he : e = false := hpe
        simp [hstands, he] at hcut
      | cons d p =>
        cases hp
        exact Nat.succ_le_succ (hfirst p r rfl hpe)

/-- Without backslashes nothing is escaped. -/
theorem cutUnescapedAfter_of_no_backslash (hmark : mark ≠ []) : ∀ {t : Text}, '\\' ∉ t →
    cutUnescapedAfter mark false t = cut mark t
  | [], _ => by rw [cut, if_neg hmark, cutUnescapedAfter]
  | c :: t, h => by
    obtain ⟨hc, ht⟩ := not_or.1 (List.mem_cons.not.1 h)
    have hflag : (c == '\\' && !false) = false := by simpa using Ne.symm hc
    rw [cutUnescapedAfter, cut, hflag, cutUnescapedAfter_of_no_backslash hmark ht]
    simp

/-! ### Searching on behind an escaped mark -/

/-- A search that looks for the mark as it stands, and where it is escaped looks again behind its first character.  The text
`passed` lies between the start and the search, and the mark is `m :: mark`. -/
def searchOn (m : Char) (mark passed t : Text) : Option (Text × Text) :=
  match _ : cut (m :: mark) t with
  | none => none
  | some (before, after) =>
    if Escaping (passed ++ before) then searchOn m mark (passed ++ (before ++ [m])) (mark ++ after)
    else some (passed ++ before, after)
termination_by t.length
decreasing_by
  have := length_of_cut ‹_›
  simp at this ⊢
  omega

/-- Up to the first place of the mark there is no cut. -/
theorem cutUnescapedAfter_append_firstBehind {after : Text} : ∀ {e : Bool} {before : Text}, FirstBehind mark before after →
    cutUnescapedAfter mark e (before ++ (mark ++ after)) =
      (cutUnescapedAfter mark (escapedBehind e before) (mark ++ after)).map fun parts => (before ++ parts.1, parts.2)
  | e, [], _ => by simp
  | e, c :: before, h => by
    have hnot : mark.isPrefixOf (c :: (before ++ (mark ++ after))) = false := by
      rw [Bool.eq_false_iff]
      intro hstands
      obtain ⟨r, hr⟩ := List.isPrefixOf_iff_prefix.1 hstands
      exact absurd (h [] r hr.symm) (by simp)
    have hrest : FirstBehind mark before after := fun p r heq =>
      Nat.le_of_succ_le_succ (h (c :: p) r (congrArg (c :: ·) heq))
    rw [List.cons_append, cutUnescapedAfter, hnot, Bool.and_false, if_neg Bool.false_ne_true,
      cutUnescapedAfter_append_firstBehind hrest, Option.map_map]
    rfl

/-- **Searching on finds the same place**, although it starts again inside a mark that is escaped. -/
theorem searchOn_eq (m : Char) (mark passed t : Text) : searchOn m mark passed t =
    (cutUnescapedAfter (m :: mark) (escapedBehind false passed) t).map fun parts => (passed ++ parts.1, parts.2) := by
  fun_induction searchOn m mark passed t with
  | case1 passed t hcut =>
    have hnone : cutUnescapedAfter (m :: mark) (escapedBehind false passed) t = none := by
      rw [cutUnescapedAfter_eq_none_iff_escaped (List.cons_ne_nil m mark)]
      rintro before after rfl
      exact absurd ⟨before, after, List.append_assoc _ _ _⟩ (cut_eq_none_iff_absent.1 hcut)
    rw [hnone]
    rfl
  | case2 passed t before after hcut hescaping ih =>
    obtain ⟨rfl, hfirst⟩ := cut_eq_some_iff_firstBehind.1 hcut
    have hflag : escapedBehind false (passed ++ before) = true := (escapedBehind_iff _).2 hescaping
    -- the first character of an escaped mark escapes nothing, a backslash or not
    have hbehind : escapedBehind false (passed ++ (before ++ [m])) = (m == '\\' && !true) := by
      rw [← List.append_assoc, escapedBehind_append, hflag]
      rfl
    rw [ih, hbehind, cutUnescapedAfter_append_firstBehind hfirst, ← escapedBehind_append, hflag, List.cons_append,
      cutUnescapedAfter, Option.map_map, if_neg (by simp), Option.map_map]
    simp [Function.comp_def]
  | case3 passed t before after hcut hescaping =>
    obtain ⟨rfl, hfirst⟩ := cut_eq_some_iff_firstBehind.1 hcut
    have hflag : escapedBehind false (passed ++ before) = false := by
      rwa [← Bool.not_eq_true, escapedBehind_iff]
    rw [cutUnescapedAfter_append_firstBehind hfirst, ← escapedBehind_append, hflag, List.cons_append, cutUnescapedAfter]
    simp

theorem unescapedOffset?_eq_searchOn (m : Char) (mark t : Text) (start : Nat) : unescapedOffset? (m :: mark) start t = do
    let rest ← dropBytes? start t
    let parts ← searchOn m mark [] rest
    return start + byteSize parts.1 := by
  have hsearch : ∀ rest, searchOn m mark [] rest = cutUnescaped (m :: mark) rest := fun rest => by
    rw [searchOn_eq, cutUnescaped, if_neg (List.cons_ne_nil m mark)]
    simp
  simp only [unescapedOffset?, hsearch]

/-! ### Offsets -/

/-- Whether an offset falls between two characters of a text, or on one of its ends. -/
def IsBoundary (t : Text) (n : Nat) : Prop := ∃ before after, t = before ++ after ∧ byteSize before = n

theorem isBoundary_iff {n : Nat} : IsBoundary t n ↔ ∃ rest, dropBytes? n t = some rest := by
  constructor
  · rintro ⟨before, after, rfl, rfl⟩
    exact ⟨after, dropBytes?_byteSize_append before after⟩
  · rintro ⟨rest, h⟩
    obtain ⟨before, rfl, hsize⟩ := exists_of_dropBytes? h
    exact ⟨before, rest, rfl, hsize⟩

theorem IsBoundary.le {n : Nat} (h : IsBoundary t n) : n ≤ byteSize t := by
  obtain ⟨before, after, rfl, rfl⟩ := h
  rw [byteSize_append]
  exact Nat.le_add_right _ _

/-- Whether `mark` stands at the offset `p` behind an even number of backslashes, not counting those before the offset
`start`. -/
def StandsUnescaped (mark t : Text) (start p : Nat) : Prop :=
  ∃ skipped between behind, t = skipped ++ (between ++ (mark ++ behind)) ∧ byteSize skipped = start ∧
    start + byteSize between = p ∧ ¬ Escaping between

theorem StandsUnescaped.isBoundary {p : Nat} (h : StandsUnescaped mark t start p) : IsBoundary t start := by
  obtain ⟨skipped, between, behind, ht, hstart, -, -⟩ := h
  exact ⟨skipped, between ++ (mark ++ behind), ht, hstart⟩

theorem standsUnescaped_iff {rest : Text} (hrest : dropBytes? start t = some rest) {p : Nat} :
    StandsUnescaped mark t start p ↔
      ∃ between behind, rest = between ++ (mark ++ behind) ∧ start + byteSize between = p ∧ ¬ Escaping between := by
  constructor
  · rintro ⟨skipped, between, behind, rfl, rfl, hp, heven⟩
    rw [dropBytes?_byteSize_append, Option.some.injEq] at hrest
    exact ⟨between, behind, hrest.symm, hp, heven⟩
  · rintro ⟨between, behind, rfl, hp, heven⟩
    obtain ⟨skipped, ht, hstart⟩ := exists_of_dropBytes? hrest
    exact ⟨skipped, between, behind, ht, hstart, hp, heven⟩

theorem byteSize_le_of_length_le {s u : Text} (hs : s <+: t) (hu : u <+: t) (h : s.length ≤ u.length) :
    byteSize s ≤ byteSize u := by
  obtain ⟨v, rfl⟩ := List.prefix_of_prefix_length_le hs hu h
  rw [byteSize_append]
  exact Nat.le_add_right _ _

theorem isLeast_of_cutUnescaped {rest before after : Text} (hmark : mark ≠ []) (hrest : dropBytes? start t = some rest)
    (h : cutUnescaped mark rest = some (before, after)) :
    IsLeast {p | StandsUnescaped mark t start p} (start + byteSize before) := by
  have hsplit := eq_append_of_cutUnescaped h
  rw [cutUnescaped, if_neg hmark] at h
  obtain ⟨hescaped, hfirst⟩ := length_le_of_cutUnescapedAfter h
  refine ⟨(standsUnescaped_iff hrest).2 ⟨before, after, hsplit, rfl, ?_⟩, fun p hp => ?_⟩
  · rw [← escapedBehind_iff, hescaped]
    exact Bool.false_ne_true
  · obtain ⟨between, behind, hbetween, rfl, heven⟩ := (standsUnescaped_iff hrest).1 hp
    have hle : before.length ≤ between.length :=
      hfirst between behind hbetween (by rwa [← Bool.not_eq_true, escapedBehind_iff])
    exact Nat.add_le_add_left (byteSize_le_of_length_le ⟨_, hsplit.symm⟩ ⟨_, hbetween.symm⟩ hle) start

theorem not_standsUnescaped_of_cutUnescaped {rest : Text} (hmark : mark ≠ []) (hrest : dropBytes? start t = some rest)
    (h : cutUnescaped mark rest = none) (p : Nat) : ¬ StandsUnescaped mark t start p := by
  intro hp
  obtain ⟨between, behind, hbetween, -, heven⟩ := (standsUnescaped_iff hrest).1 hp
  rw [cutUnescaped, if_neg hmark, cutUnescapedAfter_eq_none_iff_escaped hmark] at h
  exact heven ((escapedBehind_iff between).1 (h between behind hbetween))

/-- The byte offset of the first `mark` at or after the byte offset `start`, escaped or not. -/
def offset? (mark : Text) (start : Nat) (t : Text) : Option Nat := do
  let rest ← dropBytes? start t
  let parts ← cut mark rest
  return start + byteSize parts.1

theorem unescapedOffset?_of_no_backslash (hmark : mark ≠ []) (h : '\\' ∉ t) :
    unescapedOffset? mark start t = offset? mark start t := by
  unfold unescapedOffset? offset?
  cases hrest : dropBytes? start t with
  | none => rfl
  | some rest =>
    obtain ⟨skipped, rfl, -⟩ := exists_of_dropBytes? hrest
    have hplain : '\\' ∉ rest := fun hmem => h (List.mem_append_right _ hmem)
    have hcut : cutUnescaped mark rest = cut mark rest := by
      rw [cutUnescaped, if_neg hmark, cutUnescapedAfter_of_no_backslash hmark hplain]
    simp only [Option.bind_eq_bind, Option.bind_some, hcut]

/-- A search finds the least offset of an unescaped mark, or there is none. -/
theorem unescapedOffset?_cases (mark t : Text) (start : Nat) :
    (unescapedOffset? mark start t = none ∧ (mark = [] ∨ ∀ p, ¬ StandsUnescaped mark t start p)) ∨
      ∃ p, unescapedOffset? mark start t = some p ∧ mark ≠ [] ∧ IsLeast {q | StandsUnescaped mark t start q} p := by
  unfold unescapedOffset?
  cases hrest : dropBytes? start t with
  | none =>
    refine .inl ⟨rfl, .inr fun p hp => ?_⟩
    obtain ⟨rest, hsome⟩ := isBoundary_iff.1 hp.isBoundary
    rw [hrest] at hsome
    cases hsome
  | some rest =>
    by_cases hmark : mark = []
    · refine .inl ⟨?_, .inl hmark⟩
      simp [cutUnescaped, hmark]
    · cases hcut : cutUnescaped mark rest with
      | none =>
        refine .inl ⟨?_, .inr (not_standsUnescaped_of_cutUnescaped hmark hrest hcut)⟩
        simp [hcut]
      | some parts =>
        refine .inr ⟨start + byteSize parts.1, ?_, hmark, isLeast_of_cutUnescaped hmark hrest hcut⟩
        simp [hcut]

/-- **A search finds exactly the first unescaped mark**: the least offset, at or after the start, at which the mark stands behind
an even number of backslashes.  It finds nothing where there is no such offset, for the empty mark, and from a start that is past
the end or inside a character; and in a text without backslashes it finds what a plain search does. -/
theorem unescapedOffset?_finds (mark t : Text) (start : Nat) :
    (∀ p, unescapedOffset? mark start t = some p ↔
      mark ≠ [] ∧ IsBoundary t start ∧ IsLeast {q | StandsUnescaped mark t start q} p) ∧
    (unescapedOffset? mark start t = none ↔
      mark = [] ∨ byteSize t < start ∨ ¬ IsBoundary t start ∨ ∀ p, ¬ StandsUnescaped mark t start p) ∧
    (mark ≠ [] → '\\' ∉ t → unescapedOffset? mark start t = offset? mark start t) := by
  refine ⟨fun p => ?_, ?_, unescapedOffset?_of_no_backslash⟩
  · rcases unescapedOffset?_cases mark t start with ⟨hnone, hmark | habsent⟩ | ⟨q, hsome, hmark, hleast⟩
    · rw [hnone]
      exact iff_of_false (by simp) fun h => h.1 hmark
    · rw [hnone]
      exact iff_of_false (by simp) fun h => habsent p h.2.2.1
    · rw [hsome, Option.some.injEq]
      constructor
      · rintro rfl
        exact ⟨hmark, hleast.1.isBoundary, hleast⟩
      · exact fun h => hleast.unique h.2.2
  · rcases unescapedOffset?_cases mark t start with ⟨hnone, hmark | habsent⟩ | ⟨q, hsome, hmark, hleast⟩
    · exact iff_of_true hnone (.inl hmark)
    · exact iff_of_true hnone (.inr (.inr (.inr habsent)))
    · refine iff_of_false (by simp [hsome]) ?_
      rintro (hnil | hlt | hinside | habsent)
      · exact hmark hnil
      · exact Nat.not_lt.2 hleast.1.isBoundary.le hlt
      · exact hinside hleast.1.isBoundary
      · exact habsent q hleast.1

/-- A mark behind a character of two bytes, in a text without backslashes. -/
theorem unescapedOffset?_finds_behind_two_bytes :
    ['}'] ≠ [] ∧ '\\' ∉ ['é', '}'] ∧ unescapedOffset? ['}'] 0 ['é', '}'] = offset? ['}'] 0 ['é', '}'] ∧
      offset? ['}'] 0 ['é', '}'] = some 2 :=
  ⟨by decide, by decide, (unescapedOffset?_finds ['}'] ['é', '}'] 0).2.2 (by decide) (by decide), by decide⟩

/-- A mark that overlaps an escaped one. -/
example : unescapedOffset? ['-', '-'] 0 ['\\', '-', '-', '-'] = some 2 := by decide

end Text
end Templates
