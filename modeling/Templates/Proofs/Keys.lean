import Templates.Proofs.Parses
/-!
# Keys of fragments

A key is an extension and a name with a dot between them, and both may hold dots of their own, so that two requests can share
a key without sharing an extension (`Name.fragmentKey_eq_iff`).  Two extensions are kept apart for all names exactly when
neither is the other with a dot and more behind it (`Library.extensions_apart_iff`).
-/
namespace Templates
namespace Name

theorem append_cons_eq_append_cons_iff {c : Char} {a b x y : Text} : a ++ c :: x = b ++ c :: y ↔
    a = b ∧ x = y ∨ (∃ s, b = a ++ c :: s ∧ x = s ++ c :: y) ∨ ∃ s, a = b ++ c :: s ∧ y = s ++ c :: x := by
  constructor
  · intro h
    rcases List.append_eq_append_iff.1 h with ⟨s, hb, hx⟩ | ⟨s, ha, hy⟩
    · cases s with
      | nil =>
        cases hx
        exact .inl ⟨by simpa using hb.symm, rfl⟩
      | cons d s =>
        cases hx
        exact .inr (.inl ⟨s, hb, rfl⟩)
    · cases s with
      | nil =>
        cases hy
        exact .inl ⟨by simpa using ha, rfl⟩
      | cons d s =>
        cases hy
        exact .inr (.inr ⟨s, ha, rfl⟩)
  · rintro (⟨rfl, rfl⟩ | ⟨s, rfl, rfl⟩ | ⟨s, rfl, rfl⟩)
    · rfl
    · simp
    · simp

@[simp] theorem dotted_append (s t : Text) : dotted (s ++ t) = dotted s ++ dotted t := List.map_append

theorem hash_not_mem_dotted (t : Text) : '#' ∉ dotted t := by
  intro h
  obtain ⟨c, -, hc⟩ := List.mem_map.1 h
  split at hc
  · cases hc
  · next hne => exact hne hc

theorem dotted_of_hash_not_mem {t : Text} (h : '#' ∉ t) : dotted t = t := by
  have hsame : ∀ c ∈ t, (if c = '#' then '.' else c) = c := fun c hc => if_neg (ne_of_mem_of_not_mem hc h)
  exact (List.map_congr_left hsame).trans (List.map_id' t)

/-- With one extension a key tells the name, but for hash signs and dots. -/
theorem fragmentKey_eq_iff_dotted {extension m n : Text} :
    fragmentKey extension m = fragmentKey extension n ↔ dotted m = dotted n := by
  rw [fragmentKey, fragmentKey, List.append_cancel_left_eq, List.cons.injEq]
  exact and_iff_right rfl

/-- **Two requests share a key** when they are the same but for hash signs and dots, or when the longer extension goes on
with a dot and what the name under the shorter one starts with. -/
theorem fragmentKey_eq_iff {e₁ n₁ e₂ n₂ : Text} : fragmentKey e₁ n₁ = fragmentKey e₂ n₂ ↔
    e₁ = e₂ ∧ dotted n₁ = dotted n₂ ∨ (∃ s, e₂ = e₁ ++ '.' :: s ∧ dotted n₁ = s ++ '.' :: dotted n₂) ∨
      ∃ s, e₁ = e₂ ++ '.' :: s ∧ dotted n₂ = s ++ '.' :: dotted n₁ :=
  append_cons_eq_append_cons_iff

/-- **Keys tell two extensions apart** for all names exactly when neither goes on from the other with a dot. -/
theorem fragmentKey_ne_iff {e₁ e₂ : Text} : (∀ n₁ n₂, fragmentKey e₁ n₁ ≠ fragmentKey e₂ n₂) ↔
    e₁ ≠ e₂ ∧ ∀ s, '#' ∉ s → e₂ ≠ e₁ ++ '.' :: s ∧ e₁ ≠ e₂ ++ '.' :: s := by
  constructor
  · intro h
    refine ⟨fun he => h [] [] (by rw [he]), fun s hs => ⟨?_, ?_⟩⟩
    · rintro rfl
      exact h (s ++ ['.']) [] (by rw [fragmentKey, dotted_append, dotted_of_hash_not_mem hs]; simp [fragmentKey, dotted])
    · rintro rfl
      exact h [] (s ++ ['.']) (by rw [fragmentKey, fragmentKey, dotted_append, dotted_of_hash_not_mem hs]; simp [dotted])
  · rintro ⟨hne, hs⟩ n₁ n₂ h
    rcases fragmentKey_eq_iff.1 h with ⟨he, -⟩ | ⟨s, he, hn⟩ | ⟨s, he, hn⟩
    · exact hne he
    · have hhash : '#' ∉ s := fun hc => hash_not_mem_dotted n₁ (by rw [hn]; simp [hc])
      exact (hs s hhash).1 he
    · have hhash : '#' ∉ s := fun hc => hash_not_mem_dotted n₂ (by rw [hn]; simp [hc])
      exact (hs s hhash).2 he

end Name

namespace Library

/-- Whether requests with one extension leave those with another alone: they have keys of their own, so that neither storing
nor loading the one changes what is found of the other. -/
structure Apart (e₁ n₁ e₂ n₂ : Text) : Prop where
  key_ne : Name.fragmentKey e₁ n₁ ≠ Name.fragmentKey e₂ n₂
  get?_put : ∀ (c : Cache) (t : Text), (c.put e₁ n₁ t).get? e₂ n₂ = c.get? e₂ n₂
  get?_load : ∀ l : Library, (l.load n₁ e₁).2.cache.get? e₂ n₂ = l.cache.get? e₂ n₂

theorem get?_load_of_ne {e₁ e₂ : Text} (h : ∀ n₁ n₂, Name.fragmentKey e₁ n₁ ≠ Name.fragmentKey e₂ n₂) (l : Library)
    (n₁ n₂ : Text) : (l.load n₁ e₁).2.cache.get? e₂ n₂ = l.cache.get? e₂ n₂ := by
  cases hparse : l.parse? n₁ e₁ with
  | none => rw [load_of_parse_none hparse]
  | some p =>
    obtain ⟨-, bytes, -, rfl⟩ := parse?_eq_some_iff.1 hparse
    rw [load_of_parse hparse, get?_store, Parse.last?_eq_none_iff.2 fun ⟨f, _, hf⟩ => h f.name n₂ hf]

/-- **Extensions are kept apart** for all names exactly when neither goes on from the other with a dot. -/
theorem extensions_apart_iff {e₁ e₂ : Text} : (∀ n₁ n₂, Apart e₁ n₁ e₂ n₂) ↔
    e₁ ≠ e₂ ∧ ∀ s, '#' ∉ s → e₂ ≠ e₁ ++ '.' :: s ∧ e₁ ≠ e₂ ++ '.' :: s := by
  rw [← Name.fragmentKey_ne_iff]
  refine ⟨fun h n₁ n₂ => (h n₁ n₂).key_ne, fun h n₁ n₂ => ⟨h n₁ n₂, fun c t => ?_, fun l => get?_load_of_ne h l n₁ n₂⟩⟩
  rw [Cache.put, Cache.get?, Table.get?_insert, if_neg (h n₁ n₂)]
  rfl

/-- **A dotted extension is answered from another file**: once the part `x` of `page.html` is loaded, the text of the file
`x.html.page` is not found any more. -/
theorem load_dotted_extension_answered_elsewhere :
    let l := ofSettings .standard ((Files.Tree.empty.write "page.html".toList (.file "\x7b#x\x7dA\x7b#\x7d".toUTF8.toList)).write
      "x.html.page".toList (.file "B".toUTF8.toList)) .clockStart
    "html".toList ≠ "html.page".toList ∧
    Name.fragmentKey "html".toList "page.x".toList = Name.fragmentKey "html.page".toList "x".toList ∧
    (l.load "x".toList "html.page".toList).1 = .ok ['B'] ∧
    ((l.load "page.x".toList "html".toList).2.load "x".toList "html.page".toList).1 = .ok ['A'] := by
  decide +kernel

end Library
end Templates
