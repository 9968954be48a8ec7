import Templates.Proofs.Cuts
import Templates.Proofs.FragmentNames
import Templates.Proofs.Keys
/-!
# Plain names

A name is plain when it can be read off its key: behind the last separator stands a base, up to the first dot or hash sign, and
no hash sign comes before that (`Name.IsPlain`).  The stem of the file is then all up to there, and a key with an extension
without a dot tells both (`Name.requestStem_eq_of_fragmentKey_eq`).
-/
namespace Templates
namespace Name

/-- A folder is empty or ends with a separator. -/
def IsFolder (folder : Text) : Prop := folder = [] ∨ ∃ above c, isSeparator c = true ∧ folder = above ++ [c]

/-- A base goes on for as long as it can: it has no dot, no hash sign and no separator. -/
def IsBase (base : Text) : Prop := base ≠ [] ∧ ∀ c ∈ base, c ≠ '.' ∧ c ≠ '#' ∧ isSeparator c = false

/-- What may stand behind a base: nothing, or a dot or a hash sign and more, and no separator. -/
def IsRest (rest : Text) : Prop :=
  (rest = [] ∨ ∃ t, rest = '.' :: t ∨ rest = '#' :: t) ∧ ∀ c ∈ rest, isSeparator c = false

/-- **A plain name** is a folder without hash signs, a base and what may stand behind it. -/
def IsPlain (name : Text) : Prop :=
  ∃ folder base rest, name = folder ++ (base ++ rest) ∧ (IsFolder folder ∧ '#' ∉ folder) ∧ IsBase base ∧ IsRest rest

variable {folder base rest name : Text}

theorem splitFolder_of_no_separator : ∀ {t : Text}, (∀ c ∈ t, isSeparator c = false) → splitFolder t = ([], t)
  | [], _ => rfl
  | c :: t, h => by
    rw [splitFolder, splitFolder_of_no_separator fun d hd => h d (List.mem_cons_of_mem _ hd)]
    simp [h c List.mem_cons_self]

theorem splitFolder_append {c : Char} (hc : isSeparator c = true) {t : Text} (ht : ∀ c ∈ t, isSeparator c = false) :
    ∀ above : Text, splitFolder (above ++ c :: t) = (above ++ [c], t)
  | [] => by
    rw [List.nil_append, splitFolder, splitFolder_of_no_separator ht]
    simp [hc]
  | d :: above => by
    rw [List.cons_append, splitFolder, splitFolder_append hc ht above]
    simp

/-- **A folder is split off** from what has no separator. -/
theorem splitFolder_eq (hfolder : IsFolder folder) {t : Text} (ht : ∀ c ∈ t, isSeparator c = false) :
    splitFolder (folder ++ t) = (folder, t) := by
  rcases hfolder with rfl | ⟨above, c, hc, rfl⟩
  · exact splitFolder_of_no_separator ht
  · rw [List.append_assoc]
    exact splitFolder_append hc ht above

theorem fileStem_eq (hfolder : IsFolder folder) (hbase : IsBase base) (hpath : Fragment.IsPartPath rest)
    (hrest : ∀ c ∈ rest, isSeparator c = false) : fileStem (folder ++ (base ++ rest)) = folder ++ base := by
  have hplain : ∀ c ∈ base ++ rest, isSeparator c = false := by
    intro c hc
    rcases List.mem_append.1 hc with hc | hc
    · exact (hbase.2 c hc).2.2
    · exact hrest c hc
  have hdot : '.' ∉ base := fun hc => (hbase.2 '.' hc).1 rfl
  unfold fileStem
  rw [splitFolder_eq hfolder hplain]
  rcases hpath with rfl | ⟨t, rfl⟩
  · rw [List.append_nil, Text.cut_eq_none_iff.2 hdot]
  · rw [Text.cut_append hdot]
    have hne : folder ++ base ≠ [] := fun h => hbase.1 (List.append_eq_nil_iff.1 h).2
    exact if_neg hne

theorem hash_not_mem_base (hbase : IsBase base) : '#' ∉ base := fun hc => (hbase.2 '#' hc).2.1 rfl

theorem requestStem_eq (hfolder : IsFolder folder) (hhash : '#' ∉ folder) (hbase : IsBase base) (hrest : IsRest rest) :
    requestStem (folder ++ (base ++ rest)) = folder ++ base := by
  have htake : (folder ++ (base ++ rest)).takeWhile (· ≠ '#') = folder ++ (base ++ rest.takeWhile (· ≠ '#')) := by
    have hnone : '#' ∉ folder ++ base := fun hc => (List.mem_append.1 hc).elim hhash (hash_not_mem_base hbase)
    rw [← List.append_assoc, List.takeWhile_append_of_pos, List.append_assoc]
    exact fun c hc => decide_eq_true (ne_of_mem_of_not_mem hc hnone)
  have hpath : Fragment.IsPartPath (rest.takeWhile (· ≠ '#')) := by
    rcases hrest.1 with rfl | ⟨t, rfl | rfl⟩
    · exact .inl rfl
    · exact .inr ⟨t.takeWhile (· ≠ '#'), by simp⟩
    · exact .inl (by simp)
  rw [requestStem, htake]
  exact fileStem_eq hfolder hbase hpath fun c hc => hrest.2 c (List.takeWhile_subset _ hc)

theorem not_isSeparator_dotted {t : Text} (h : ∀ c ∈ t, isSeparator c = false) :
    ∀ c ∈ dotted t, isSeparator c = false := by
  intro c hc
  obtain ⟨d, hd, rfl⟩ := List.mem_map.1 hc
  split
  · rfl
  · exact h d hd

/-- **The stem of a plain name can be read off the name with dots for its hash signs.** -/
theorem fileStem_dotted (h : IsPlain name) : fileStem (dotted name) = requestStem name := by
  obtain ⟨folder, base, rest, rfl, ⟨hfolder, hhash⟩, hbase, hrest⟩ := h
  have hpath : Fragment.IsPartPath (dotted rest) := by
    rcases hrest.1 with rfl | ⟨t, rfl | rfl⟩
    · exact .inl rfl
    · exact .inr ⟨dotted t, by simp [dotted]⟩
    · exact .inr ⟨dotted t, by simp [dotted]⟩
  rw [requestStem_eq hfolder hhash hbase hrest, dotted_append, dotted_append, dotted_of_hash_not_mem hhash,
    dotted_of_hash_not_mem (hash_not_mem_base hbase), fileStem_eq hfolder hbase hpath (not_isSeparator_dotted hrest.2)]

/-- **A key with an extension without a dot** tells the extension and, of a plain name, the stem of the file. -/
theorem requestStem_eq_of_fragmentKey_eq {e₁ e₂ n₁ n₂ : Text} (he₁ : '.' ∉ e₁) (he₂ : '.' ∉ e₂) (hn₁ : IsPlain n₁)
    (hn₂ : IsPlain n₂) (h : fragmentKey e₁ n₁ = fragmentKey e₂ n₂) : e₁ = e₂ ∧ requestStem n₁ = requestStem n₂ := by
  rcases fragmentKey_eq_iff.1 h with ⟨he, hn⟩ | ⟨s, rfl, -⟩ | ⟨s, rfl, -⟩
  · rw [← fileStem_dotted hn₁, ← fileStem_dotted hn₂, hn]
    exact ⟨he, rfl⟩
  · exact absurd (by simp) he₂
  · exact absurd (by simp) he₁

/-- A part of the file that a plain name goes to has a plain name of the same stem. -/
theorem isPlain_requestStem_append (h : IsPlain name) {path : Text} (hpath : Fragment.IsPartPath path)
    (hplain : ∀ c ∈ path, isSeparator c = false) :
    IsPlain (requestStem name ++ path) ∧ requestStem (requestStem name ++ path) = requestStem name := by
  obtain ⟨folder, base, rest, rfl, ⟨hfolder, hhash⟩, hbase, hrest⟩ := h
  have hparts : IsRest path := ⟨hpath.imp id fun ⟨t, ht⟩ => ⟨t, .inl ht⟩, hplain⟩
  rw [requestStem_eq hfolder hhash hbase hrest, List.append_assoc]
  exact ⟨⟨folder, base, path, rfl, ⟨hfolder, hhash⟩, hbase, hparts⟩, requestStem_eq hfolder hhash hbase hparts⟩

end Name
end Templates
