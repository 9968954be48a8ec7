import Mathlib.Data.List.DropRight
import Templates.Proofs.Paths
import Templates.Proofs.Runs
import Templates.Proofs.Stems
/-!
# Names in folders

A source that stands for a folder puts its context before a name, and the library takes the whole text apart again.  The name
keeps its own stem behind the context (`Name.requestStem_append_cons`), but the stem is another one when the context has a hash
sign, when the name is a dot file, and when the name has no file at all.  Outside these cases, and only there, the file that the
source reads is the one that the name has below the folder (`Library.staysBelow_iff`).
-/
namespace Templates

/-- The path of the file that a lookup goes to. -/
def Lookup.path? (l : Library) (lookup : Lookup) : Option Text :=
  (lookup.request? l).map fun request => l.locate request.1 request.2

theorem Lookup.read?_of_parse? {l : Library} {lookup : Lookup} {p : Parse} (h : lookup.parse? l = some p) :
    ∃ path, lookup.path? l = some path ∧ l.files.read? path = .ok p.bytes := by
  obtain ⟨request, hrequest, hparse⟩ := Option.bind_eq_some_iff.1 h
  obtain ⟨-, bytes, hread, rfl⟩ := Library.parse?_eq_some_iff.1 hparse
  exact ⟨_, by rw [path?, hrequest]; rfl, hread⟩

variable {context name : Text}

theorem exists_trimContext (context : Text) :
    ∃ tail, context = trimContext context ++ tail ∧ ∀ c ∈ tail, Name.isSeparator c = true :=
  ⟨context.rtakeWhile Name.isSeparator, List.rdropWhile_append_rtakeWhile.symm, fun _ hc => List.mem_rtakeWhile_imp hc⟩

theorem segments_trimContext (context : Text) : Path.segments (trimContext context) = Path.segments context := by
  obtain ⟨tail, htrim, htail⟩ := exists_trimContext context
  rw [htrim, Path.segments_append_separators htail, ← htrim]

theorem trimContext_eq_nil_iff : trimContext context = [] ↔ Path.segments context = [] := by
  rw [Path.segments_eq_nil_iff]
  exact List.rdropWhile_eq_nil_iff

theorem hash_mem_trimContext : '#' ∈ trimContext context ↔ '#' ∈ context := by
  obtain ⟨tail, htrim, htail⟩ := exists_trimContext context
  constructor
  · intro h
    rw [htrim]
    exact List.mem_append_left _ h
  · intro h
    rw [htrim] at h
    refine (List.mem_append.1 h).resolve_right fun hc => ?_
    cases htail '#' hc

namespace Name

/-- **Behind a context without a hash sign** a name keeps its stem, unless it asks for a dot file. -/
theorem requestStem_append_cons (h : '#' ∉ context) (hname : ¬ IsDotFile (name.takeWhile (· ≠ '#'))) :
    requestStem (context ++ '/' :: name) = context ++ '/' :: requestStem name := by
  rw [requestStem, takeWhile_hash_append_cons rfl h, fileStem_append_cons rfl context hname]
  rfl

theorem requestStem_append_dotFile (h : '#' ∉ context) (hname : IsDotFile (name.takeWhile (· ≠ '#'))) :
    requestStem (context ++ '/' :: name) = context ++ ['/'] := by
  rw [requestStem, takeWhile_hash_append_cons rfl h, fileStem_append_dotFile rfl context hname]

end Name

namespace Path

variable {folder extension : Text}

/-- A name that has a file, and asks for no dot file, has the same file behind a context as below its folder. -/
theorem locate_append_cons (h : '#' ∉ context) (hname : ¬ Name.IsDotFile (name.takeWhile (· ≠ '#')))
    (hfile : segments (Name.requestStem name) ≠ []) :
    locate folder extension (context ++ '/' :: name) = locate (below folder context) extension name := by
  rw [locate, Name.requestStem_append_cons h hname, segments_append_cons rfl, under_append hfile]
  rfl

/-! Where the paths differ, some character stands in one of them more often than in the other. -/

theorem locate_ne_of_hash_mem (h : '#' ∈ context) :
    locate folder [] (context ++ '/' :: name) ≠ locate (below folder context) [] name := by
  intro heq
  -- The request is cut off at the hash sign, which the path below the folder has.
  have hcount := congrArg (List.count '#') heq
  have hpos : 0 < context.count '#' := List.count_pos_iff.2 h
  rw [count_locate rfl, count_locate rfl, count_below rfl,
    List.count_eq_zero.2 (Name.hash_not_mem_requestStem (context ++ '/' :: name))] at hcount
  simp at hcount
  omega

theorem locate_ne_of_isDotFile (h : '#' ∉ context) (hname : Name.IsDotFile (name.takeWhile (· ≠ '#'))) :
    locate folder extension (context ++ '/' :: name) ≠ locate (below folder context) extension name := by
  intro heq
  -- Behind the context the stem is that of the folder: the dots of the file are missing.
  have hcount := congrArg (List.count '.') heq
  have hdot : 0 < (Name.requestStem name).count '.' := by
    rw [Name.requestStem, Name.fileStem_of_isDotFile hname]
    obtain ⟨t, ht⟩ := hname.1
    exact List.count_pos_iff.2 (ht ▸ List.mem_cons_self)
  have hsegments : segments (Name.requestStem name) ≠ [] := by
    intro hnil
    cases segments_eq_nil_iff.1 hnil '.' (List.count_pos_iff.1 hdot)
  rw [count_locate rfl, count_locate rfl, count_below rfl, Name.requestStem_append_dotFile h hname,
    if_neg hsegments, List.count_append] at hcount
  simp at hcount
  split at hcount <;> omega

theorem locate_ne_of_segments_eq_nil (h : '#' ∉ context) (hname : ¬ Name.IsDotFile (name.takeWhile (· ≠ '#')))
    (hcontext : segments context ≠ []) (hfile : segments (Name.requestStem name) = []) :
    locate folder extension (context ++ '/' :: name) ≠ locate (below folder context) extension name := by
  intro heq
  -- The folder itself is taken for a file and gets the extension, with a dot before it.
  have hcount := congrArg (List.count '.') heq
  have hsegments : segments (context ++ '/' :: Name.requestStem name) ≠ [] := by
    rw [segments_append_cons rfl, hfile, List.append_nil]
    exact hcontext
  rw [count_locate rfl, count_locate rfl, count_below rfl, Name.requestStem_append_cons h hname,
    if_neg hsegments, if_pos hfile, List.count_append] at hcount
  simp at hcount
  omega

/-- **A name has the same file behind a context as below its folder** exactly when the context has no hash sign and the name
asks for a file that is no dot file. -/
theorem locate_append_cons_iff (hcontext : segments context ≠ []) :
    (∀ extension, locate folder extension (context ++ '/' :: name) = locate (below folder context) extension name) ↔
      '#' ∉ context ∧ ¬ Name.IsDotFile (name.takeWhile (· ≠ '#')) ∧ segments (Name.requestStem name) ≠ [] := by
  constructor
  · intro h
    have hhash : '#' ∉ context := fun hc => locate_ne_of_hash_mem hc (h [])
    have hname : ¬ Name.IsDotFile (name.takeWhile (· ≠ '#')) := fun hdot => locate_ne_of_isDotFile hhash hdot (h [])
    exact ⟨hhash, hname, fun hfile => locate_ne_of_segments_eq_nil hhash hname hcontext hfile (h [])⟩
  · rintro ⟨hhash, hname, hfile⟩ extension
    exact locate_append_cons hhash hname hfile

end Path

namespace Library

/-- Whether a name in a folder goes to the file that it has below that folder, both to be fetched and to be provided, for
every extension. -/
def StaysBelow (l : Library) (context name : Text) : Prop := ∀ extension,
  (Lookup.fetchFrom (.folder context) name).path? (l.setExtension extension) =
      some (Path.locate (Path.below l.folder context) extension name) ∧
    (Lookup.providedBy (.folder context) name).path? (l.setExtension extension) =
      some (Path.locate (Path.below l.folder context) extension name)

theorem staysBelow_iff_locate {l : Library} : l.StaysBelow context name ↔
    ∀ extension, Path.locate l.folder extension (qualifyName context name) =
      Path.locate (Path.below l.folder context) extension name := by
  constructor
  · intro h extension
    exact Option.some.inj (h extension).1
  · intro h extension
    exact ⟨congrArg some (h extension), congrArg some (h extension)⟩

/-- **A folder keeps its names to itself** exactly when it has no context at all, or when its context has no hash sign and the
name asks for a file that is no dot file. -/
theorem staysBelow_iff {l : Library} : l.StaysBelow context name ↔ trimContext context = [] ∨
    '#' ∉ context ∧ ¬ Name.IsDotFile (name.takeWhile (· ≠ '#')) ∧ Path.segments (Name.requestStem name) ≠ [] := by
  rw [staysBelow_iff_locate, qualifyName]
  by_cases hempty : trimContext context = []
  · simp [hempty, Path.below, trimContext_eq_nil_iff.1 hempty]
  · have hbelow : Path.below l.folder context = Path.below l.folder (trimContext context) := by
      rw [Path.below, Path.below, segments_trimContext]
    have hsegments : Path.segments (trimContext context) ≠ [] := by
      rw [segments_trimContext]
      exact fun hnil => hempty (trimContext_eq_nil_iff.2 hnil)
    rw [if_neg hempty, hbelow, Path.locate_append_cons_iff hsegments, hash_mem_trimContext]
    exact (or_iff_right hempty).symm

/-- **A dot file in a folder is answered from beside the folder**: it goes to the file of the folder's own name, and what a
part of that file holds stands for it. -/
theorem folder_answers_dotFile_from_beside :
    let l := ofSettings { Settings.standard with folder := some ['t'] } ((Files.Tree.empty.write "t/d.html".toList
      (.file "\x7b#x\x7dA\x7b#\x7d".toUTF8.toList)).write "t/d/.x.html".toList (.file "B".toUTF8.toList)) .clockStart
    trimContext ['d'] ≠ [] ∧ ¬ l.StaysBelow ['d'] ['.', 'x'] ∧
      (Lookup.fetchFrom (.folder ['d']) ['.', 'x']).path? l = some "t/d.html".toList ∧
      Path.locate (Path.below l.folder ['d']) l.extension ['.', 'x'] = "t/d/.x.html".toList ∧
      ((Source.folder ['d']).fetch l ['.', 'x']).1 = some ['A'] := by
  intro l
  have hpath : (Lookup.fetchFrom (.folder ['d']) ['.', 'x']).path? l = some "t/d.html".toList := by decide +kernel
  have hbelow : Path.locate (Path.below l.folder ['d']) l.extension ['.', 'x'] = "t/d/.x.html".toList := by decide +kernel
  refine ⟨by decide, fun h => ?_, hpath, hbelow, by decide +kernel⟩
  have hsame : some "t/d.html".toList = some "t/d/.x.html".toList :=
    hpath.symm.trans ((h l.extension).1.trans (congrArg some hbelow))
  revert hsame
  decide

end Library
end Templates
