import Templates.Path
/-!
# Paths of files

The segments of a stem hold all of its characters but the separators (`flatten_segments`), and the path of a file goes through
the folders that its first segments name (`under_append`).  `count_locate` tells how often a character stands in the path of a
request, which is enough to tell paths apart.
-/
namespace Templates
namespace Path

variable {c : Char} {folder extension : Text}

/-! ### Segments -/

theorem segments_append_cons (hc : Name.isSeparator c = true) (s t : Text) :
    segments (s ++ c :: t) = segments s ++ segments t := by
  unfold segments
  rw [Text.pieces_append_cons hc, List.filter_append]

theorem segments_append_separators : ∀ {t : Text}, (∀ c ∈ t, Name.isSeparator c = true) → ∀ s : Text,
    segments (s ++ t) = segments s
  | [], _, s => by rw [List.append_nil]
  | c :: t, h, s => by
    obtain ⟨hc, ht⟩ := List.forall_mem_cons.1 h
    have hnone : segments t = [] := segments_append_separators ht []
    rw [segments_append_cons hc, hnone, List.append_nil]

theorem flatten_pieces (isSeparator : Char → Bool) : ∀ s : Text,
    (Text.pieces isSeparator s).flatten = s.filter fun c => !isSeparator c
  | [] => rfl
  | c :: s => by
    have ih := flatten_pieces isSeparator s
    obtain ⟨p, ps, hp⟩ := List.exists_cons_of_ne_nil (Text.pieces_ne_nil isSeparator s)
    rw [Text.pieces, List.filter_cons, ← ih, hp]
    cases isSeparator c <;> rfl

/-- **The segments of a stem hold all of it but its separators.** -/
theorem flatten_segments (s : Text) : (segments s).flatten = s.filter fun c => !Name.isSeparator c := by
  unfold segments
  rw [List.flatten_filter_ne_nil, flatten_pieces]

theorem segments_eq_nil_iff {s : Text} : segments s = [] ↔ ∀ c ∈ s, Name.isSeparator c = true := by
  constructor
  · intro h
    have hflat := flatten_segments s
    rw [h] at hflat
    simpa using hflat.symm
  · intro h
    exact segments_append_separators h []

/-! ### Files in folders -/

/-- The folder that a context names, below another one. -/
def below (folder context : Text) : Text := (segments context).foldl join folder

theorem under_cons {pieces : List Text} (h : pieces ≠ []) (piece : Text) :
    under folder extension (piece :: pieces) = under (join folder piece) extension pieces := by
  obtain ⟨p, ps, rfl⟩ := List.exists_cons_of_ne_nil h
  rfl

/-- **A path goes through the folders that its first pieces name.** -/
theorem under_append {last : List Text} (h : last ≠ []) : ∀ (first : List Text) (folder : Text),
    under folder extension (first ++ last) = under (first.foldl join folder) extension last
  | [], _ => rfl
  | piece :: first, folder => by
    have hrest : first ++ last ≠ [] := fun hnil => h (List.append_eq_nil_iff.1 hnil).2
    rw [List.cons_append, under_cons hrest, under_append h first]
    rfl

/-! ### What stands in a path -/

theorem count_join (hc : c ≠ '/') (path piece : Text) : (join path piece).count c = path.count c + piece.count c := by
  unfold join
  split
  · exact List.count_append
  · rw [List.count_append, List.count_cons_of_ne hc.symm]

theorem count_foldl_join (hc : c ≠ '/') : ∀ (pieces : List Text) (folder : Text),
    (pieces.foldl join folder).count c = folder.count c + pieces.flatten.count c
  | [], folder => rfl
  | piece :: pieces, folder => by
    rw [List.foldl_cons, count_foldl_join hc pieces, count_join hc, List.flatten_cons, List.count_append, Nat.add_assoc]

theorem count_under (hc : c ≠ '/') : ∀ (pieces : List Text) (folder : Text), (under folder extension pieces).count c =
    folder.count c + pieces.flatten.count c + if pieces = [] then 0 else ('.' :: extension).count c
  | [], folder => rfl
  | [piece], folder => by simp [under, count_join hc, Nat.add_assoc]
  | piece :: next :: pieces, folder => by
    rw [under_cons (List.cons_ne_nil next pieces), count_under hc (next :: pieces), count_join hc]
    simp [Nat.add_assoc]

theorem count_flatten_segments (hc : Name.isSeparator c = false) (s : Text) :
    (segments s).flatten.count c = s.count c := by
  rw [flatten_segments, List.count_filter]
  simp [hc]

theorem ne_slash (hc : Name.isSeparator c = false) : c ≠ '/' := by
  rintro rfl
  cases hc

theorem count_below (hc : Name.isSeparator c = false) (folder context : Text) :
    (below folder context).count c = folder.count c + context.count c := by
  rw [below, count_foldl_join (ne_slash hc), count_flatten_segments hc]

/-- **What stands in the path of a request** but for slashes: the folder, the stem and, if there is a file, its extension. -/
theorem count_locate (hc : Name.isSeparator c = false) (folder extension name : Text) :
    (locate folder extension name).count c = folder.count c + (Name.requestStem name).count c +
      if segments (Name.requestStem name) = [] then 0 else ('.' :: extension).count c := by
  rw [locate, count_under (ne_slash hc), count_flatten_segments hc]

end Path
end Templates
