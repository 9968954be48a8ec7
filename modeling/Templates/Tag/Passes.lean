import Templates.Tag.LongForm
/-!
# Passes come to an end

With no open brace in the stem a pass leaves fewer open braces than it found (`count_lt_of_pass`), so a text has as many
passes as it has braces, and one more.  From then on further passes change nothing (`passes_eq_some_of_le`), and the long form
of a text is what one pass settles and the long form of what it leaves (`longForm_of_onward`, `longForm_of_ended`).
-/
namespace Templates
namespace Tag

theorem after_eq_onward {p : Pass} {before settled rest : Text} (h : p.after before = .onward settled rest) :
    ∃ s, p = .onward s rest ∧ settled = before ++ s := by
  cases p with
  | ended t => cases h
  | onward s r => cases h; exact ⟨s, rfl, rfl⟩

theorem count_le_of_passToBrace {t settled rest : Text} (h : passToBrace t = .onward settled rest) :
    rest.count '{' ≤ t.count '{' := by
  unfold passToBrace at h
  split at h
  · cases h
  · next before after hc =>
    cases h
    rw [Text.count_of_cut '{' hc]
    simp

theorem count_le_of_after_passToBrace {t before settled rest : Text} (h : (passToBrace t).after before = .onward settled rest) :
    rest.count '{' ≤ t.count '{' := by
  obtain ⟨s, hs, -⟩ := after_eq_onward h
  exact count_le_of_passToBrace hs

theorem count_le_of_condition {stem t condition behind settled rest : Text}
    (hcut : Text.cutUnescaped [')'] t = some (condition, behind))
    (h : passInclude stem ('(' :: t) = .onward settled rest) : rest.count '{' ≤ behind.count '{' := by
  rw [passInclude, hcut] at h
  split at h
  · next heq => cases heq
  · cases h
  · next heq =>
    cases heq
    exact count_le_of_after_passToBrace h
  · next heq =>
    cases heq
    cases h
    exact Nat.le_refl _

theorem count_le_of_passInclude {stem t settled rest : Text} (h : passInclude stem t = .onward settled rest) :
    rest.count '{' ≤ t.count '{' := by
  unfold passInclude at h
  split at h
  · cases h
  · exact count_le_of_after_passToBrace h
  · next t =>
    cases hcut : Text.cutUnescaped [')'] t with
    | none =>
      rw [hcut] at h
      cases h
    | some parts =>
      have := Text.count_of_cutUnescaped '{' hcut
      have hpass : passInclude stem ('(' :: t) = .onward settled rest := by
        rw [passInclude]
        exact h
      have := count_le_of_condition hcut hpass
      simp
      omega
  · cases h
    exact Nat.le_refl _

theorem count_le_of_passTag {stem t settled rest : Text} (h : passTag stem t = .onward settled rest) :
    rest.count '{' ≤ t.count '{' := by
  unfold passTag at h
  split at h
  · cases h
  · next hc =>
    cases h
    have := Text.count_of_cutUnescaped '{' hc
    omega

theorem count_le_of_passMacroName {lead name settled rest : Text} (hlead : '{' ∉ lead)
    (h : passMacroName lead name = .onward settled rest) : rest.count '{' ≤ name.count '{' := by
  unfold passMacroName at h
  split at h
  · next hc =>
    cases h
    have := Text.count_of_cut '{' hc
    omega
  · cases h
    rw [List.count_append, List.count_eq_zero_of_not_mem hlead]
    omega

theorem brace_not_mem_blanks (t : Text) : '{' ∉ t.takeWhile (· == ' ') := fun h => by
  have := List.all_takeWhile (p := (· == ' ')) (l := t)
  have := List.all_eq_true.1 this _ h
  simp at this

theorem count_le_of_passMacro {stem t settled rest : Text} (hstem : '{' ∉ stem)
    (h : passMacro stem t = .onward settled rest) : rest.count '{' ≤ t.count '{' := by
  have hsub : (t.dropWhile (· == ' ')).count '{' ≤ t.count '{' := (List.dropWhile_sublist _).count_le _
  have hblank := brace_not_mem_blanks t
  unfold passMacro at h
  split at h
  · cases h
  · next name hd =>
    rw [hd] at hsub
    have := count_le_of_passMacroName (by simp_all) h
    simp at hsub
    omega
  · exact Nat.le_trans (count_le_of_passMacroName (by simp_all) h) hsub

theorem count_le_of_passBrace {stem t settled rest : Text} (hstem : '{' ∉ stem)
    (h : passBrace stem t = .onward settled rest) : rest.count '{' ≤ t.count '{' := by
  unfold passBrace at h
  split at h
  · cases h
  · next t => exact Nat.le_trans (count_le_of_passInclude h) (List.count_le_count_cons ..)
  · next t => exact Nat.le_trans (count_le_of_passTag h) (List.count_le_count_cons ..)
  · next t => exact Nat.le_trans (count_le_of_passTag h) (by simp)
  · next t => exact Nat.le_trans (count_le_of_passMacro hstem h) (List.count_le_count_cons ..)
  · cases h
    exact List.count_le_count_cons ..

/-- **With no open brace in the stem, a pass leaves fewer open braces than it found.** -/
theorem count_lt_of_pass {stem t settled rest : Text} (hstem : '{' ∉ stem) (h : pass stem t = .onward settled rest) :
    rest.count '{' < t.count '{' := by
  unfold pass at h
  split at h
  · cases h
  · next hc =>
    obtain ⟨s, hs, -⟩ := after_eq_onward h
    have h1 := count_le_of_passBrace hstem hs
    have h2 := Text.count_of_cut '{' hc
    simp at h2
    omega

/-- With no open brace in the stem, one pass more than there are open braces is enough. -/
theorem exists_passes {stem : Text} (hstem : '{' ∉ stem) :
    ∀ (n : Nat) (t : Text), t.count '{' < n → ∃ u, passes stem n t = some u
  | 0, t, h => absurd h (Nat.not_lt_zero _)
  | n + 1, t, h => by
    rw [passes]
    split
    · exact ⟨_, rfl⟩
    · next settled rest hp =>
      have := count_lt_of_pass hstem hp
      obtain ⟨u, hu⟩ := exists_passes hstem n rest (by omega)
      exact ⟨settled ++ u, by rw [hu]; rfl⟩

theorem passes_eq_some_of_le {stem : Text} :
    ∀ {n m : Nat} {t u : Text}, n ≤ m → passes stem n t = some u → passes stem m t = some u
  | 0, _, _, _, _, h => by cases h
  | n + 1, 0, _, _, hle, _ => absurd hle (Nat.not_succ_le_zero n)
  | n + 1, m + 1, t, u, hle, h => by
    rw [passes] at h ⊢
    split
    · next hp => rw [hp] at h; exact h
    · next hp =>
      rw [hp] at h
      obtain ⟨v, hv, rfl⟩ := Option.map_eq_some_iff.1 h
      rw [passes_eq_some_of_le (Nat.le_of_succ_le_succ hle) hv]
      rfl

theorem count_lt_enoughPasses (stem t : Text) : t.count '{' < enoughPasses stem t := by
  have h1 : t.count '{' ≤ t.length := List.count_le_length
  have h2 : (t.length + 1) * 1 ≤ (t.length + 1) * (stem.length + 1) := Nat.mul_le_mul_left _ (by omega)
  unfold enoughPasses
  omega

/-- The passes that end give the long form, however many they are. -/
theorem longForm_of_passes {stem t u : Text} {n : Nat} (hstem : '{' ∉ stem) (h : passes stem n t = some u) :
    longForm stem t = u := by
  obtain ⟨v, hv⟩ := exists_passes hstem _ t (count_lt_enoughPasses stem t)
  have h1 := passes_eq_some_of_le (Nat.le_max_left n (enoughPasses stem t)) h
  have h2 := passes_eq_some_of_le (Nat.le_max_right n (enoughPasses stem t)) hv
  unfold longForm longForm?
  rw [hv, Option.getD_some]
  exact Option.some.inj (h2.symm.trans h1)

theorem longForm_of_ended {stem t u : Text} (hstem : '{' ∉ stem) (h : pass stem t = .ended u) : longForm stem t = u :=
  longForm_of_passes (n := 1) hstem (by rw [passes, h])

/-- **The long form is what one pass settles and the long form of what it leaves.** -/
theorem longForm_of_onward {stem t settled rest : Text} (hstem : '{' ∉ stem) (h : pass stem t = .onward settled rest) :
    longForm stem t = settled ++ longForm stem rest := by
  obtain ⟨u, hu⟩ := exists_passes hstem _ rest (Nat.lt_succ_self (rest.count '{'))
  rw [longForm_of_passes hstem hu]
  exact longForm_of_passes (n := rest.count '{' + 2) hstem (by rw [passes, h]; simp [hu])

end Tag
end Templates
