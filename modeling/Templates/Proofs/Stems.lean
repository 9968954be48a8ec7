import Mathlib.Data.List.TakeWhile
import Templates.Proofs.PlainNames
/-!
# Stems

The stem of a name is its folder and its base up to the first dot (`fileStem_append`).  Only a dot file, which has no folder and
starts with its dot, is a stem of its own (`fileStem_of_isDotFile`).  A stem is the stem of itself (`fileStem_fileStem`), so that
a reference which starts with a stem goes to the file of that stem (`requestStem_reference`).
-/
namespace Templates
namespace Name

/-- A name without a folder that starts with a dot. -/
def IsDotFile (name : Text) : Prop := (∃ t, name = '.' :: t) ∧ ∀ c ∈ name, isSeparator c = false

variable {folder base name : Text}

theorem takeWhile_ne_of_not_mem {c : Char} {s : Text} (h : c ∉ s) : s.takeWhile (· ≠ c) = s :=
  List.takeWhile_eq_self_iff.2 fun _ hd => decide_eq_true (ne_of_mem_of_not_mem hd h)

theorem takeWhile_ne_append_cons (c : Char) (t : Text) : ∀ s : Text,
    (s ++ c :: t).takeWhile (· ≠ c) = s.takeWhile (· ≠ c)
  | [] => by simp
  | d :: s => by
    rw [List.cons_append, List.takeWhile_cons, List.takeWhile_cons, takeWhile_ne_append_cons c t s]

theorem not_mem_takeWhile_ne (c : Char) (s : Text) : c ∉ s.takeWhile (· ≠ c) := by
  intro h
  simpa using List.mem_takeWhile_imp h

theorem exists_folder_base : ∀ name : Text,
    ∃ folder base, name = folder ++ base ∧ IsFolder folder ∧ ∀ c ∈ base, isSeparator c = false
  | [] => ⟨[], [], rfl, .inl rfl, by simp⟩
  | c :: t => by
    obtain ⟨folder, base, rfl, hfolder, hbase⟩ := exists_folder_base t
    rcases hfolder with rfl | ⟨above, d, hd, rfl⟩
    · cases hc : isSeparator c with
      | true => exact ⟨[c], base, rfl, .inr ⟨[], c, hc, rfl⟩, hbase⟩
      | false => exact ⟨[], c :: base, rfl, .inl rfl, by simpa [hc] using hbase⟩
    · exact ⟨c :: (above ++ [d]), base, rfl, .inr ⟨c :: above, d, hd, rfl⟩, hbase⟩

theorem not_isDotFile_of_mem {c : Char} (hc : isSeparator c = true) (h : c ∈ name) : ¬ IsDotFile name := by
  intro hdot
  rw [hdot.2 c h] at hc
  cases hc

theorem fileStem_of_isDotFile (h : IsDotFile name) : fileStem name = name := by
  obtain ⟨⟨t, rfl⟩, hplain⟩ := h
  unfold fileStem
  rw [splitFolder_of_no_separator hplain, Text.cut_cons_self]
  rfl

/-- **The stem of a name that is no dot file** is its folder and its base up to the first dot. -/
theorem fileStem_append (hfolder : IsFolder folder) (hbase : ∀ c ∈ base, isSeparator c = false)
    (h : ¬ IsDotFile (folder ++ base)) : fileStem (folder ++ base) = folder ++ base.takeWhile (· ≠ '.') := by
  unfold fileStem
  rw [splitFolder_eq hfolder hbase]
  cases hcut : Text.cut ['.'] base with
  | none => rw [takeWhile_ne_of_not_mem (Text.cut_eq_none_iff.1 hcut)]
  | some parts =>
    obtain ⟨before, after⟩ := parts
    obtain ⟨rfl, hdot⟩ := Text.cut_eq_some_iff.1 hcut
    rw [takeWhile_ne_append_cons, takeWhile_ne_of_not_mem hdot]
    refine if_neg fun hnil => h ?_
    obtain ⟨rfl, rfl⟩ := List.append_eq_nil_iff.1 hnil
    exact ⟨⟨after, rfl⟩, hbase⟩

theorem fileStem_subset (name : Text) : fileStem name ⊆ name := by
  intro c hc
  by_cases h : IsDotFile name
  · rwa [fileStem_of_isDotFile h] at hc
  · obtain ⟨folder, base, rfl, hfolder, hbase⟩ := exists_folder_base name
    rw [fileStem_append hfolder hbase h] at hc
    rcases List.mem_append.1 hc with hc | hc
    · exact List.mem_append_left _ hc
    · exact List.mem_append_right _ (List.takeWhile_subset _ hc)

/-- **A stem is its own stem.** -/
theorem fileStem_fileStem (name : Text) : fileStem (fileStem name) = fileStem name := by
  by_cases h : IsDotFile name
  · rw [fileStem_of_isDotFile h, fileStem_of_isDotFile h]
  · obtain ⟨folder, base, rfl, hfolder, hbase⟩ := exists_folder_base name
    have hplain : ∀ c ∈ base.takeWhile (· ≠ '.'), isSeparator c = false :=
      fun c hc => hbase c (List.takeWhile_subset _ hc)
    have hstem : ¬ IsDotFile (folder ++ base.takeWhile (· ≠ '.')) := by
      rcases hfolder with rfl | ⟨above, c, hc, rfl⟩
      · rintro ⟨⟨t, ht⟩, -⟩
        rw [List.nil_append] at ht
        exact not_mem_takeWhile_ne '.' base (ht ▸ List.mem_cons_self)
      · exact not_isDotFile_of_mem hc (by simp)
    rw [fileStem_append hfolder hbase h, fileStem_append hfolder hplain hstem, List.takeWhile_takeWhile]
    simp

/-! ### Names put together -/

/-- **Below a folder** a name keeps its stem, unless it is a dot file. -/
theorem fileStem_append_cons {c : Char} (hc : isSeparator c = true) (above : Text) (h : ¬ IsDotFile name) :
    fileStem (above ++ c :: name) = above ++ c :: fileStem name := by
  obtain ⟨folder, base, rfl, hfolder, hbase⟩ := exists_folder_base name
  have hbelow : IsFolder (above ++ c :: folder) := by
    rcases hfolder with rfl | ⟨inner, d, hd, rfl⟩
    · exact .inr ⟨above, c, hc, rfl⟩
    · exact .inr ⟨above ++ c :: inner, d, hd, by simp⟩
  have hsame : above ++ c :: (folder ++ base) = (above ++ c :: folder) ++ base := by simp
  rw [hsame, fileStem_append hbelow hbase (not_isDotFile_of_mem hc (by simp)), fileStem_append hfolder hbase h]
  simp

/-- A dot file below a folder has nothing but the folder for its stem. -/
theorem fileStem_append_dotFile {c : Char} (hc : isSeparator c = true) (above : Text) (h : IsDotFile name) :
    fileStem (above ++ c :: name) = above ++ [c] := by
  obtain ⟨⟨t, rfl⟩, hplain⟩ := h
  have hsame : above ++ c :: '.' :: t = (above ++ [c]) ++ '.' :: t := by simp
  rw [hsame, fileStem_append (.inr ⟨above, c, hc, rfl⟩) hplain (not_isDotFile_of_mem hc (by simp))]
  simp

theorem isDotFile_append_iff {rest : Text} (hname : name ≠ []) (hrest : ∀ c ∈ rest, isSeparator c = false) :
    IsDotFile (name ++ rest) ↔ IsDotFile name := by
  obtain ⟨d, t, rfl⟩ := List.exists_cons_of_ne_nil hname
  constructor
  · rintro ⟨⟨u, hu⟩, hplain⟩
    obtain ⟨rfl, -⟩ := List.cons_eq_cons.1 hu
    exact ⟨⟨t, rfl⟩, fun c hc => hplain c (List.mem_append_left _ hc)⟩
  · rintro ⟨⟨u, hu⟩, hplain⟩
    obtain ⟨rfl, -⟩ := List.cons_eq_cons.1 hu
    exact ⟨⟨t ++ rest, rfl⟩, fun c hc => (List.mem_append.1 hc).elim (hplain c) (hrest c)⟩

/-- **What stands behind a dot leaves the stem as it is**, unless the name is a dot file. -/
theorem fileStem_append_dot {rest : Text} (hrest : ∀ c ∈ rest, isSeparator c = false) (hname : name ≠ [])
    (h : ¬ IsDotFile name) : fileStem (name ++ '.' :: rest) = fileStem name := by
  have hparts : ∀ c ∈ '.' :: rest, isSeparator c = false := List.forall_mem_cons.2 ⟨rfl, hrest⟩
  have hlong : ¬ IsDotFile (name ++ '.' :: rest) := fun hdot => h ((isDotFile_append_iff hname hparts).1 hdot)
  obtain ⟨folder, base, rfl, hfolder, hbase⟩ := exists_folder_base name
  have hlongBase : ∀ c ∈ base ++ '.' :: rest, isSeparator c = false :=
    fun c hc => (List.mem_append.1 hc).elim (hbase c) (hparts c)
  rw [List.append_assoc] at hlong ⊢
  rw [fileStem_append hfolder hlongBase hlong, fileStem_append hfolder hbase h, takeWhile_ne_append_cons]

/-! ### Requests -/

theorem takeWhile_hash_append_cons {c : Char} (hc : isSeparator c = true) {above : Text} (h : '#' ∉ above) (name : Text) :
    (above ++ c :: name).takeWhile (· ≠ '#') = above ++ c :: name.takeWhile (· ≠ '#') := by
  have hne : c ≠ '#' := by
    rintro rfl
    cases hc
  rw [List.takeWhile_append_of_pos fun d hd => decide_eq_true (ne_of_mem_of_not_mem hd h)]
  simp [hne]

theorem hash_not_mem_requestStem (name : Text) : '#' ∉ requestStem name := by
  intro h
  exact not_mem_takeWhile_ne '#' name (fileStem_subset _ h)

theorem requestStem_append_hash {file : Text} (h : '#' ∉ file) (parts : Text) :
    requestStem (file ++ '#' :: parts) = fileStem file := by
  rw [requestStem, takeWhile_ne_append_cons, takeWhile_ne_of_not_mem h]

/-- **A reference goes to the file whose stem it starts with**, whatever stands behind its hash sign. -/
theorem requestStem_reference (name parts : Text) :
    requestStem (requestStem name ++ '#' :: parts) = requestStem name := by
  rw [requestStem_append_hash (hash_not_mem_requestStem name)]
  exact fileStem_fileStem _

end Name
end Templates
