import Templates.Proofs.Parses
/-!
# Written files are read

A walk along names fails at a file, at a name that is too long and at a name that is not there, and otherwise leads to where the
names lead (`Tree.walk_eq_ok_iff`).  A file that is written at a path is read there, whether the path starts at the root or at the
working folder, and wherever it climbs (`Tree.read?_write`).  So a request finds what was written at its path, whatever folder its
library has (`Library.parse?_writeFile`).
-/
namespace Templates
namespace Files
namespace Tree

open Place (follow step way)
open Text (byteSize)

variable {t : Tree} {p q : Place} {node : Node} {path : Text} {bytes : List UInt8}

/-- **A walk leads to where the names lead** if no name is too long, there is no file before the end and every place is there. -/
theorem walk_eq_ok_iff {names : List Text} : t.walk p names = .ok q ↔
    q = follow p names ∧ (∀ name ∈ names, byteSize name ≤ longestName) ∧
      (∀ r ∈ (p :: way p names).dropLast, t.isFile r = false) ∧ ∀ r ∈ way p names, (t.node? r).isSome := by
  induction names generalizing p with
  | nil =>
    constructor
    · rintro ⟨⟩
      exact ⟨rfl, by simp, by simp [way], by simp [way]⟩
    · rintro ⟨rfl, -⟩
      rfl
  | cons name names ih =>
    have hfollow : follow p (name :: names) = follow (step p name) names := rfl
    have hway : way p (name :: names) = step p name :: way (step p name) names := rfl
    rw [walk, hfollow, hway, List.dropLast_cons_cons]
    by_cases hfile : t.isFile p = true
    · simp [hfile]
    by_cases hlong : longestName < byteSize name
    · simp [hfile, hlong, Nat.not_le.2 hlong]
    by_cases hthere : (t.node? (step p name)).isSome
    · simp [hfile, hlong, hthere, Nat.not_lt.1 hlong, ih]
    · simp [hfile, hlong, hthere]

theorem exists_node?_of_find (h : t.find path = .ok node) : ∃ place, t.node? place = some node := by
  unfold find at h
  repeat' split at h
  all_goals cases h
  next hnode => exact ⟨_, hnode⟩

/-- Every file that can be read is in the tree. -/
theorem file_mem_values_of_read? (h : t.read? path = .ok bytes) : .file bytes ∈ t.nodes.values := by
  have hfind : t.find path = .ok (.file bytes) := by
    unfold read? at h
    split at h
    · cases h
    · cases h
    · next hfind =>
      cases h
      exact hfind
  obtain ⟨place, hplace⟩ := exists_node?_of_find hfind
  unfold node? at hplace
  split at hplace
  · cases hplace
  · exact Table.mem_values_of_get? hplace

/-! ### Writing -/

/-- Anything can be put at a place that is not on the way to the working folder. -/
theorem node?_insert (h : ¬ p <+: t.workingFolder) (node : Node) (q : Place) :
    node? { t with nodes := t.nodes.insert p node } q = if p = q then some node else t.node? q := by
  unfold node?
  simp only [Table.get?_insert, List.isPrefixOf_iff_prefix]
  by_cases hq : q <+: t.workingFolder
  · have hne : p ≠ q := fun heq => h (heq ▸ hq)
    simp [hq, hne]
  · simp [hq]

theorem node?_addFolder (t : Tree) (p q : Place) :
    (t.addFolder p).node? q = (t.node? q).or (if q = p then some .folder else none) := by
  unfold addFolder
  split
  · next hthere =>
    by_cases hq : q = p
    · subst hq
      obtain ⟨node, hnode⟩ := Option.isSome_iff_exists.1 hthere
      simp [hnode]
    · simp [hq]
  · next hmissing =>
    have hmissing : t.node? p = none := by simpa using hmissing
    have hoff : ¬ p <+: t.workingFolder := fun hin => by simp [node?, hin] at hmissing
    rw [node?_insert hoff]
    by_cases hq : q = p
    · subst hq
      simp [hmissing]
    · simp [hq, ne_comm.1 hq]

/-- **Folders are made where there is nothing**, and nowhere else. -/
theorem node?_addFolders (t : Tree) (places : List Place) (q : Place) :
    (t.addFolders places).node? q = (t.node? q).or (if q ∈ places then some .folder else none) := by
  unfold addFolders
  induction places generalizing t with
  | nil => simp
  | cons p places ih =>
    rw [List.foldl_cons, ih, node?_addFolder, Option.or_assoc]
    by_cases hq : q = p
    · simp [hq]
    · simp [hq]

theorem workingFolder_addFolders (t : Tree) (places : List Place) :
    (t.addFolders places).workingFolder = t.workingFolder := by
  unfold addFolders
  induction places generalizing t with
  | nil => rfl
  | cons p places ih =>
    rw [List.foldl_cons, ih, addFolder]
    split <;> rfl

/-- Whether a file can be put at a path: no file is on the way to its end, which is no place on the way and no folder that is
always there. -/
structure IsWritable (t : Tree) (path : Text) : Prop where
  no_nul : Char.ofNat 0 ∉ path
  nonempty : path ≠ []
  size_le : byteSize path ≤ longestPath
  names_le : ∀ name ∈ names path, byteSize name ≤ longestName
  no_file : ∀ r ∈ (t.start path :: way (t.start path) (names path)).dropLast, t.isFile r = false ∧ r ≠ t.place path
  free : ¬ t.place path <+: t.workingFolder

/-- **What a tree has after something was written**: it, folders on the way to it, and what was there. -/
theorem node?_write (h : t.IsWritable path) (node : Node) (q : Place) : (t.write path node).node? q =
    if t.place path = q then some node
    else (t.node? q).or (if q ∈ way (t.start path) (names path) then some .folder else none) := by
  have hfree : ¬ t.place path <+: (t.addFolders (way (t.start path) (names path))).workingFolder := by
    rw [workingFolder_addFolders]
    exact h.free
  exact (node?_insert hfree node q).trans (by rw [node?_addFolders])

/-- **A file that is written at a path is read there.** -/
theorem read?_write (h : t.IsWritable path) (bytes : List UInt8) : (t.write path (.file bytes)).read? path = .ok bytes := by
  have hstart : (t.write path (.file bytes)).start path = t.start path := by
    unfold start write
    rw [workingFolder_addFolders]
  have hwalk : (t.write path (.file bytes)).walk (t.start path) (names path) = .ok (t.place path) := by
    refine walk_eq_ok_iff.2 ⟨rfl, h.names_le, fun r hr => ?_, fun r hr => ?_⟩
    · obtain ⟨hfile, hne⟩ := h.no_file r hr
      unfold isFile at hfile ⊢
      rw [node?_write h, if_neg (ne_comm.1 hne)]
      cases hnode : t.node? r with
      | some node => simpa [hnode] using hfile
      | none => by_cases hin : r ∈ way (t.start path) (names path) <;> simp [hin]
    · rw [node?_write h, if_pos hr]
      split
      · rfl
      · cases t.node? r <;> rfl
  have hfind : (t.write path (.file bytes)).find path = .ok (.file bytes) := by
    rw [find, if_neg h.no_nul, if_neg h.nonempty, if_neg (Nat.not_lt.2 h.size_le), hstart, hwalk]
    simp only [node?_write h, if_true]
  rw [read?, hfind]

/-- A path from the root, and one that climbs out of the working folder to the same file. -/
example : ((empty.write "/srv/t/p.html".toList (.file [0x70])).read? "../srv//./t/p.html".toList).toOption = some [0x70] := by
  decide +kernel

end Tree
end Files

/-- **A request reads the file that was written at its path**, unless the cache answers it. -/
theorem Library.parse?_writeFile {l : Library} {name extension : Text} (h : l.files.IsWritable (l.locate name extension))
    (hmiss : l.cache.get? extension name = none) (bytes : List UInt8) :
    (l.writeFile (l.locate name extension) (.file bytes)).parse? name extension =
      some ⟨l.cache.now, Name.requestStem name, extension, bytes⟩ :=
  parse?_eq_some_iff.2 ⟨hmiss, bytes, Files.Tree.read?_write h bytes, rfl⟩

end Templates
