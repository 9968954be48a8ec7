import Templates.Proofs.PlannedText
/-!
# Passes that never come to an end

A macro call without an end gets its stem, and the next pass looks at that stem.  When the stem leads to such a call itself,
each of its copies puts in the next one.  So the passes over a text come to an end unless both the text and the stem with a
hash sign behind it come to a macro call without an end (`passes_end_iff`), and then `enoughPasses` are enough
(`longForm?_eq_some_iff`).
-/
namespace Templates
namespace Tag

variable {stem t u rest settled name : Text}

/-- The passes over a text come to a macro call without an end, whatever the stem is, and this is the name in it. -/
inductive ComesTo : Text → Text → Prop
  | here {t before blanks name : Text} (call : OpenCall t before blanks name) : ComesTo t name
  | later {t rest name : Text} (onward : ∀ stem, ∃ settled, pass stem t = .onward settled rest) (tail : ComesTo rest name) :
      ComesTo t name

theorem suffix_of_pass (h : pass [] t = .onward settled rest) : rest <:+ t := by
  cases pass_outcome t with
  | ended p sound source eq =>
    rw [eq] at h
    cases h
  | onward p r sound source eq =>
    rw [eq] at h
    cases h
    exact ⟨_, source⟩
  | @openCall before blanks name call =>
    rw [call.pass_eq] at h
    cases h
    exact ⟨before ++ ['{'], by rw [call.source]; simp⟩

theorem ComesTo.suffix (h : ComesTo t name) : '#' :: name <:+ t := by
  induction h with
  | @here t before blanks name call => exact ⟨before ++ '{' :: '*' :: blanks, by rw [call.source]; simp⟩
  | later onward tail ih =>
    obtain ⟨settled, hpass⟩ := onward []
    exact ih.trans (suffix_of_pass hpass)

theorem ComesTo.not_mem (h : ComesTo t name) : '}' ∉ name := by
  induction h with
  | here call => exact call.name
  | later onward tail ih => exact ih

theorem ComesTo.count_lt (h : ComesTo t name) : name.count '{' < t.count '{' := by
  induction h with
  | here call => exact call.count_name_lt
  | later onward tail ih =>
    obtain ⟨settled, hpass⟩ := onward []
    exact Nat.lt_trans ih (count_lt_of_pass List.not_mem_nil hpass)

/-- Passes that do not come to a macro call without an end come to their own end. -/
theorem passes_or_comesTo (stem : Text) : ∀ (n : Nat) (t : Text), t.count '{' < n →
    (∃ u, passes stem n t = some u) ∨ ∃ name, ComesTo t name
  | 0, t, h => absurd h (Nat.not_lt_zero _)
  | n + 1, t, h => by
    cases pass_outcome t with
    | ended p sound source eq => exact .inl ⟨_, by rw [passes, eq stem]⟩
    | onward p rest sound source eq =>
      have := count_lt_of_pass List.not_mem_nil (eq [])
      rcases passes_or_comesTo stem n rest (by omega) with ⟨u, hu⟩ | ⟨name, hname⟩
      · exact .inl ⟨_, by rw [passes, eq stem]; simp only [hu]; rfl⟩
      · exact .inr ⟨name, .later (fun stem => ⟨_, eq stem⟩) hname⟩
    | openCall call => exact .inr ⟨_, .here call⟩

theorem passes_append {s : Text} (hs : '{' ∉ s) (stem t : Text) (n : Nat) :
    passes stem n (s ++ t) = (passes stem n t).map (s ++ ·) := by
  cases n with
  | zero => rfl
  | succ n =>
    rw [passes, passes, pass_append hs]
    cases pass stem t with
    | ended u => rfl
    | onward settled rest =>
      simp only [Pass.after, Option.map_map]
      congr 1
      funext u
      simp

theorem OpenCall.passes_eq {before blanks : Text} (h : OpenCall t before blanks name) (stem : Text) (n : Nat) :
    passes stem (n + 1) t = (passes stem n (stem ++ '#' :: name)).map (before ++ '{' :: '*' :: blanks ++ ·) := by
  have hplain : '{' ∉ '*' :: blanks := by
    intro hc
    simpa using h.blanks _ ((List.mem_cons.1 hc).resolve_left (by decide))
  have hrest : passes stem n ('*' :: (blanks ++ (stem ++ '#' :: name))) = _ :=
    passes_append hplain stem (stem ++ '#' :: name) n
  rw [passes, h.pass_eq]
  simp only [hrest, Option.map_map]
  congr 1
  funext u
  simp

/-- **From the call on, the passes over a text are those over the stem and the name.** -/
theorem ComesTo.passes_eq (h : ComesTo t name) : ∃ k, k + 1 + name.count '{' ≤ t.count '{' ∧ ∀ stem n, ∃ settled : Text,
    passes stem (n + (k + 1)) t = (passes stem n (stem ++ '#' :: name)).map (settled ++ ·) := by
  induction h with
  | here call =>
    have := call.count_name_lt
    exact ⟨0, by omega, fun stem n => ⟨_, call.passes_eq stem n⟩⟩
  | @later t rest name onward tail ih =>
    obtain ⟨k, hk, hpasses⟩ := ih
    obtain ⟨s, hs⟩ := onward []
    have := count_lt_of_pass List.not_mem_nil hs
    refine ⟨k + 1, by omega, fun stem n => ?_⟩
    obtain ⟨settled, hpass⟩ := onward stem
    obtain ⟨tail, htail⟩ := hpasses stem n
    refine ⟨settled ++ tail, ?_⟩
    rw [← Nat.add_assoc n (k + 1) 1, passes, hpass]
    simp only [htail, Option.map_map]
    congr 1
    funext u
    simp

/-! ### More text behind -/

theorem passToBrace_append (h : passToBrace t = .onward settled rest) (u : Text) :
    passToBrace (t ++ u) = .onward settled (rest ++ u) := by
  unfold passToBrace at h ⊢
  split at h
  · cases h
  · next before after hcut =>
    cases h
    rw [Text.cut_append_right hcut]
    rfl

theorem after_passToBrace_append {s : Text} (h : (passToBrace t).after s = .onward settled rest) (u : Text) :
    (passToBrace (t ++ u)).after s = .onward settled (rest ++ u) := by
  obtain ⟨settled, hs, rfl⟩ := after_eq_onward h
  rw [passToBrace_append hs]
  rfl

theorem passInclude_append (h : passInclude stem t = .onward settled rest) (u : Text) :
    passInclude stem (t ++ u) = .onward settled (rest ++ u) := by
  unfold passInclude at h
  split at h
  · cases h
  · exact after_passToBrace_append h u
  · next t =>
    rw [List.cons_append, passInclude]
    split at h
    · cases h
    · cases h
    · next hcut =>
      rw [Text.cutUnescaped_singleton] at hcut ⊢
      rw [Text.cutUnescapedAfter_append u hcut]
      exact after_passToBrace_append h u
    · next hc hcut =>
      cases h
      rw [Text.cutUnescaped_singleton] at hcut ⊢
      rw [Text.cutUnescapedAfter_append u hcut]
      simp
  · next c t hhash hparen =>
    cases h
    rw [List.cons_append]
    rw [passInclude]
    · exact hhash
    · exact hparen

theorem passTag_append (h : passTag stem t = .onward settled rest) (u : Text) :
    passTag stem (t ++ u) = .onward settled (rest ++ u) := by
  unfold passTag at h ⊢
  rw [Text.cutUnescaped_singleton] at h ⊢
  split at h
  · cases h
  · next hcut =>
    cases h
    rw [Text.cutUnescapedAfter_append u hcut]

theorem passMacroName_append {lead : Text} (h : passMacroName lead name = .onward settled rest) (hu : '}' ∉ u) :
    passMacroName lead (name ++ u) = .onward settled (rest ++ u) := by
  unfold passMacroName at h ⊢
  split at h
  · next hcut =>
    cases h
    rw [Text.cut_append_right hcut]
  · next hcut =>
    cases h
    have hnone : Text.cut ['}'] (name ++ u) = none :=
      Text.cut_eq_none_iff.2 fun hc => (List.mem_append.1 hc).elim (Text.cut_eq_none_iff.1 hcut) hu
    rw [hnone, List.append_assoc]

theorem passMacro_append (h : passMacro stem t = .onward settled rest) (hu : '}' ∉ u) :
    passMacro stem (t ++ u) = .onward settled (rest ++ u) := by
  rcases blank_or t with hblank | ⟨blanks, c, name, rfl, hblanks, hc⟩
  · rw [passMacro_of_blank hblank] at h
    cases h
  · rw [passMacro_eq hblanks hc] at h
    rw [List.append_assoc, List.cons_append, passMacro_eq hblanks hc]
    by_cases hhash : c = '#'
    · rw [if_pos hhash] at h ⊢
      exact passMacroName_append h hu
    · rw [if_neg hhash] at h ⊢
      exact passMacroName_append h hu

theorem passBrace_append (h : passBrace stem t = .onward settled rest) (hu : '}' ∉ u) :
    passBrace stem (t ++ u) = .onward settled (rest ++ u) := by
  unfold passBrace at h
  split at h
  · cases h
  · exact passInclude_append h u
  · exact passTag_append h u
  · exact passTag_append h u
  · exact passMacro_append h hu
  · next hplus htilde hcaret hstar =>
    cases h
    rw [List.cons_append, passBrace]
    · exact hplus
    · exact htilde
    · exact hcaret
    · exact hstar

/-- What a pass settles it settles with more text behind, too, when no tag ends in that text. -/
theorem pass_append_right (h : pass stem t = .onward settled rest) (hu : '}' ∉ u) :
    pass stem (t ++ u) = .onward settled (rest ++ u) := by
  unfold pass at h ⊢
  split at h
  · cases h
  · next hcut =>
    obtain ⟨settled, hbrace, rfl⟩ := after_eq_onward h
    rw [Text.cut_append_right hcut]
    simp only [passBrace_append hbrace hu]
    rfl

theorem OpenCall.append {before blanks : Text} (h : OpenCall t before blanks name) (hu : '}' ∉ u) :
    OpenCall (t ++ u) before blanks (name ++ u) where
  source := by rw [h.source]; simp
  before := h.before
  blanks := h.blanks
  name := by simp [h.name, hu]

theorem ComesTo.append (h : ComesTo t name) (hu : '}' ∉ u) : ComesTo (t ++ u) (name ++ u) := by
  induction h with
  | here call => exact .here (call.append hu)
  | later onward tail ih =>
    refine .later (fun stem => ?_) ih
    obtain ⟨settled, hpass⟩ := onward stem
    exact ⟨settled, pass_append_right hpass hu⟩

theorem passMacroName_ne_ended (lead name v : Text) : passMacroName lead name ≠ .ended v := by
  unfold passMacroName
  split <;> simp

theorem passToBrace_append_ne_onward {s v : Text} (hended : (passToBrace t).after s = .ended v) (hu : '}' ∉ u) :
    (passToBrace (t ++ u)).after s ≠ .onward settled rest := by
  intro h
  have ht : '}' ∉ t := by
    unfold passToBrace at hended
    split at hended
    · next hcut => exact Text.cut_eq_none_iff.1 hcut
    · cases hended
  have htu : '}' ∉ t ++ u := fun hc => (List.mem_append.1 hc).elim ht hu
  rw [passToBrace, Text.cut_eq_none_iff.2 htu] at h
  cases h

theorem suffix_of_cutUnescaped {c : Char} {before after : Text} (hnone : Text.cutUnescaped [c] t = none)
    (h : Text.cutUnescaped [c] (t ++ u) = some (before, after)) : after <:+ u := by
  have hsuffix : after <:+ t ++ u := ⟨before ++ [c], by rw [Text.eq_append_of_cutUnescaped h]; simp⟩
  rw [Text.cutUnescaped_singleton] at hnone h
  have hlength := (Text.mem_of_cutUnescapedAfter_append hnone h).2
  exact List.suffix_of_suffix_length_le hsuffix (List.suffix_append t u) (Nat.le_of_lt hlength)

theorem count_le_of_passInclude_append {v : Text} (hended : passInclude stem t = .ended v) (hu : '}' ∉ u)
    (h : passInclude stem (t ++ u) = .onward settled rest) : rest.count '{' ≤ u.count '{' := by
  unfold passInclude at hended
  split at hended
  · exact count_le_of_passInclude h
  · exact absurd h (passToBrace_append_ne_onward hended hu)
  · next t =>
    split at hended
    · next hnone =>
      cases hcut : Text.cutUnescaped [')'] (t ++ u) with
      | none =>
        rw [List.cons_append, passInclude, hcut] at h
        cases h
      | some parts =>
        exact Nat.le_trans (count_le_of_condition hcut h) ((suffix_of_cutUnescaped hnone hcut).sublist.count_le _)
    · next hcut =>
      rw [Text.cutUnescaped_singleton] at hcut
      have hcut := Text.cutUnescapedAfter_append u hcut
      rw [← Text.cutUnescaped_singleton] at hcut
      exact count_le_of_condition hcut h
    · next hcut =>
      rw [Text.cutUnescaped_singleton] at hcut
      rw [List.cons_append, passInclude, Text.cutUnescaped_singleton, Text.cutUnescapedAfter_append u hcut] at h
      exact absurd h (passToBrace_append_ne_onward hended hu)
    · cases hended
  · cases hended

theorem passTag_append_ended {v : Text} (hended : passTag stem t = .ended v) (hu : '}' ∉ u) :
    passTag stem (t ++ u) = .ended ('{' :: '~' :: (t ++ u)) := by
  unfold passTag at hended ⊢
  split at hended
  · next hnone =>
    cases hcut : Text.cutUnescaped ['}'] (t ++ u) with
    | none => rfl
    | some parts =>
      rw [Text.cutUnescaped_singleton] at hnone hcut
      exact absurd (Text.mem_of_cutUnescapedAfter_append hnone hcut).1 hu
  · cases hended

theorem count_le_of_passMacro_append {v : Text} (hstem : '{' ∉ stem) (hended : passMacro stem t = .ended v)
    (h : passMacro stem (t ++ u) = .onward settled rest) : rest.count '{' ≤ u.count '{' := by
  rcases blank_or t with hblank | ⟨blanks, c, name, rfl, hblanks, hc⟩
  · have hmem : '{' ∉ t := fun hc => by simpa using hblank _ hc
    have := count_le_of_passMacro hstem h
    rwa [List.count_append, List.count_eq_zero_of_not_mem hmem, Nat.zero_add] at this
  · rw [passMacro_eq hblanks hc] at hended
    split at hended
    · exact absurd hended (passMacroName_ne_ended _ _ _)
    · exact absurd hended (passMacroName_ne_ended _ _ _)

theorem count_le_of_passBrace_append {v : Text} (hstem : '{' ∉ stem) (hended : passBrace stem t = .ended v) (hu : '}' ∉ u)
    (h : passBrace stem (t ++ u) = .onward settled rest) : rest.count '{' ≤ u.count '{' := by
  unfold passBrace at hended
  split at hended
  · exact count_le_of_passBrace hstem h
  · exact count_le_of_passInclude_append hended hu h
  · next t =>
    rw [List.cons_append, passBrace, passTag_append_ended hended hu] at h
    cases h
  · next t =>
    rw [List.cons_append, passBrace, ← List.cons_append, passTag_append_ended hended hu] at h
    cases h
  · exact count_le_of_passMacro_append hstem hended h
  · cases hended

/-- A pass that ends the work on a text goes on, with more text behind, in that text only. -/
theorem count_le_of_pass_append {v : Text} (hstem : '{' ∉ stem) (hended : pass stem t = .ended v) (hu : '}' ∉ u)
    (h : pass stem (t ++ u) = .onward settled rest) : rest.count '{' ≤ u.count '{' := by
  unfold pass at hended
  split at hended
  · next hcut =>
    have := count_lt_of_pass hstem h
    rw [List.count_append, List.count_eq_zero_of_not_mem (Text.cut_eq_none_iff.1 hcut)] at this
    omega
  · next before after hcut =>
    rw [pass, Text.cut_append_right hcut] at h
    obtain ⟨settled, hbrace, -⟩ := after_eq_onward h
    cases hp : passBrace stem after with
    | ended v => exact count_le_of_passBrace_append hstem hp hu hbrace
    | onward settled rest =>
      rw [hp] at hended
      cases hended

/-- A call that is come to with more text behind, and not within that text, is come to without it. -/
theorem ComesTo.of_append (h : ComesTo (t ++ u) name) (hu : '}' ∉ u) (hlength : u.length ≤ name.length) :
    ∃ name, ComesTo t name := by
  generalize hx : t ++ u = x at h
  induction h generalizing t with
  | @here x before blanks name call =>
    have hname : name <:+ t ++ u := hx ▸ (List.suffix_cons '#' name).trans (ComesTo.here call).suffix
    obtain ⟨r, rfl⟩ := List.suffix_of_suffix_length_le (List.suffix_append t u) hname hlength
    refine ⟨r, .here ⟨(List.append_left_inj u).1 ?_, call.before, call.blanks, fun hr => ?_⟩⟩
    · rw [hx, call.source]
      simp
    · exact call.name (List.mem_append_left u hr)
  | @later x rest name onward tail ih =>
    subst hx
    obtain ⟨settled, hpass⟩ := onward []
    cases pass_outcome t with
    | openCall call => exact ⟨_, .here call⟩
    | onward p r sound source eq =>
      have happend := pass_append_right (eq []) hu
      rw [hpass] at happend
      cases happend
      obtain ⟨name, hname⟩ := ih hlength rfl
      exact ⟨name, .later (fun stem => ⟨_, eq stem⟩) hname⟩
    | ended p sound source eq =>
      have hcount := count_le_of_pass_append List.not_mem_nil (eq []) hu hpass
      have hrest : u.length ≤ rest.length := by
        have := tail.suffix.length_le
        simp at this
        omega
      obtain ⟨r, rfl⟩ := List.suffix_of_suffix_length_le (List.suffix_append t u) (suffix_of_pass hpass) hrest
      obtain ⟨name, hname⟩ := ih hlength rfl
      have := hname.count_lt
      rw [List.count_append] at hcount
      omega

/-! ### The end of the passes -/

theorem ComesTo.exists_passes (h : ComesTo t name) {n m : Nat} (hu : passes stem n (stem ++ '#' :: name) = some u)
    (hnm : n + t.count '{' ≤ m + name.count '{') : ∃ v, passes stem m t = some v := by
  obtain ⟨k, hk, hpasses⟩ := h.passes_eq
  obtain ⟨settled, heq⟩ := hpasses stem n
  rw [hu] at heq
  exact ⟨_, passes_eq_some_of_le (by omega) heq⟩

/-- A stem that comes to a macro call without an end puts in one copy of itself after the other. -/
theorem passes_stem_eq_none (h : ComesTo (stem ++ ['#']) u) : ∀ (n : Nat) (name : Text), '}' ∉ name →
    passes stem n (stem ++ '#' :: name) = none := by
  intro n
  induction n using Nat.strongRecOn with
  | ind n ih =>
    intro name hname
    have hcall : ComesTo (stem ++ '#' :: name) (u ++ name) := by
      have := h.append hname
      rwa [List.append_assoc] at this
    obtain ⟨k, -, hpasses⟩ := hcall.passes_eq
    rw [Option.eq_none_iff_forall_ne_some]
    intro v hv
    by_cases hn : n ≤ 0 + (k + 1)
    · obtain ⟨settled, heq⟩ := hpasses stem 0
      rw [passes_eq_some_of_le hn hv] at heq
      cases heq
    · obtain ⟨settled, heq⟩ := hpasses stem (n - (k + 1))
      rw [ih (n - (k + 1)) (by omega) (u ++ name) hcall.not_mem, Nat.sub_add_cancel (by omega), hv] at heq
      cases heq

theorem passes_eq_none (h : ComesTo t name) (hstem : ComesTo (stem ++ ['#']) u) (n : Nat) : passes stem n t = none := by
  rw [Option.eq_none_iff_forall_ne_some]
  intro v hv
  obtain ⟨k, -, hpasses⟩ := h.passes_eq
  obtain ⟨settled, heq⟩ := hpasses stem n
  rw [passes_stem_eq_none hstem n name h.not_mem, passes_eq_some_of_le (Nat.le_add_right n (k + 1)) hv] at heq
  cases heq

/-- A stem that comes to no macro call without an end can only come to one within the name, which is shorter each time. -/
theorem exists_passes_stem (h : ¬ ∃ u, ComesTo (stem ++ ['#']) u) (name : Text) (hname : '}' ∉ name) :
    ∃ u, passes stem (name.count '{' + (name.length + 1) * stem.count '{' + 1) (stem ++ '#' :: name) = some u := by
  have hcount : (stem ++ '#' :: name).count '{' = stem.count '{' + name.count '{' := by simp
  rcases passes_or_comesTo stem _ (stem ++ '#' :: name) (Nat.lt_succ_self _) with ⟨u, hu⟩ | ⟨inner, hinner⟩
  · refine ⟨u, passes_eq_some_of_le ?_ hu⟩
    rw [Nat.succ_mul]
    omega
  · have hlength : inner.length < name.length := by
      by_contra hle
      have hsplit : stem ++ '#' :: name = (stem ++ ['#']) ++ name := by simp
      exact h ((hsplit ▸ hinner).of_append hname (Nat.not_lt.1 hle))
    obtain ⟨u, hu⟩ := exists_passes_stem h inner hinner.not_mem
    refine hinner.exists_passes hu ?_
    have hmul : (inner.length + 1 + 1) * stem.count '{' ≤ (name.length + 1) * stem.count '{' :=
      Nat.mul_le_mul_right _ (by omega)
    rw [Nat.succ_mul] at hmul
    omega
termination_by name.length

theorem exists_passes_enough (h : ¬ ((∃ name, ComesTo t name) ∧ ∃ name, ComesTo (stem ++ ['#']) name)) :
    ∃ u, passes stem (enoughPasses stem t) t = some u := by
  rcases passes_or_comesTo stem _ t (count_lt_enoughPasses stem t) with ⟨u, hu⟩ | ⟨name, hname⟩
  · exact ⟨u, hu⟩
  · obtain ⟨u, hu⟩ := exists_passes_stem (fun hstem => h ⟨⟨name, hname⟩, hstem⟩) name hname.not_mem
    refine hname.exists_passes hu ?_
    have hlength : name.length + 1 ≤ t.length := hname.suffix.length_le
    have hmul : (name.length + 1) * stem.count '{' ≤ t.length * stem.length := Nat.mul_le_mul hlength List.count_le_length
    have hcount : t.count '{' ≤ t.length := List.count_le_length
    have henough : enoughPasses stem t = t.length * stem.length + t.length + (stem.length + 1) + 1 := by
      rw [enoughPasses, Nat.succ_mul, Nat.mul_succ]
    omega

/-- **The budget of the long form is enough**: it is the text that the passes come to, however many they are. -/
theorem longForm?_eq_some_iff : longForm? stem t = some u ↔ ∃ n, passes stem n t = some u := by
  refine ⟨fun h => ⟨_, h⟩, fun ⟨n, hn⟩ => ?_⟩
  have hend : ¬ ((∃ name, ComesTo t name) ∧ ∃ name, ComesTo (stem ++ ['#']) name) := by
    rintro ⟨⟨name, hname⟩, inner, hinner⟩
    rw [passes_eq_none hname hinner] at hn
    cases hn
  obtain ⟨v, hv⟩ := exists_passes_enough hend
  have h1 := passes_eq_some_of_le (Nat.le_max_left n (enoughPasses stem t)) hn
  have h2 := passes_eq_some_of_le (Nat.le_max_right n (enoughPasses stem t)) hv
  rw [longForm?, hv, ← h2, h1]

/-- **The passes over a text come to an end unless the text and the stem with a hash sign behind it both come to a macro call
without an end.** -/
theorem passes_end_iff : (∃ n u, passes stem n t = some u) ↔
    ¬ ((∃ name, ComesTo t name) ∧ ∃ name, ComesTo (stem ++ ['#']) name) := by
  constructor
  · rintro ⟨n, u, hu⟩ ⟨⟨name, hname⟩, inner, hinner⟩
    rw [passes_eq_none hname hinner] at hu
    cases hu
  · intro h
    exact ⟨_, exists_passes_enough h⟩

theorem passes_open_call_endless :
    ¬ ∃ n u, passes ['{', '*'] n (['{', '*', '#'] ++ List.replicate 900 'x') = some u := by
  have hcall : OpenCall ['{', '*', '#'] [] [] [] := ⟨rfl, by simp, by simp, by simp⟩
  have hmem : ∀ n, '}' ∉ List.replicate n 'x' := fun n h => absurd (List.eq_of_mem_replicate h) (by decide)
  have htext := ComesTo.here (hcall.append (hmem 900))
  rintro ⟨n, u, hu⟩
  rw [passes_eq_none htext (.here hcall)] at hu
  cases hu

end Tag
end Templates
