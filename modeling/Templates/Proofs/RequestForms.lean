import Templates.Proofs.Parses
import Templates.Proofs.Stems
import Templates.Tag.Passes
/-!
# Forms of a request

A part of a file has several names.  With a dot for every hash sign a request keeps its key, and it keeps its file as well
unless that is a dot file (`Library.interchangeable_dotted_iff`).  A name that starts with a stem and a hash sign, as references
in written-out tags do, leads back to the file of that stem and finds there what the file holds last under its key
(`Library.reference_leads_back`).
-/
namespace Templates

theorem Tag.longForm?_eq_longForm {stem : Text} (hstem : '{' ∉ stem) (t : Text) :
    longForm? stem t = some (longForm stem t) := by
  obtain ⟨u, hu⟩ := exists_passes hstem _ t (count_lt_enoughPasses stem t)
  have hlong : longForm? stem t = some u := hu
  rw [longForm, hlong, Option.getD_some]

namespace Name

theorem dotted_append_hash {file : Text} (h : '#' ∉ file) (parts : Text) :
    dotted (file ++ '#' :: parts) = file ++ '.' :: dotted parts := by
  rw [dotted_append, dotted_of_hash_not_mem h]
  rfl

/-- **A dot for the first hash sign** leads to the same file unless that is a dot file. -/
theorem requestStem_dotted_iff {file parts : Text} (hfile : file ≠ []) (hhash : '#' ∉ file)
    (hparts : ∀ c ∈ parts, isSeparator c = false) :
    requestStem (dotted (file ++ '#' :: parts)) = requestStem (file ++ '#' :: parts) ↔ ¬ IsDotFile file := by
  have hplain := not_isSeparator_dotted hparts
  have hstem : requestStem (dotted (file ++ '#' :: parts)) = fileStem (file ++ '.' :: dotted parts) := by
    rw [requestStem, takeWhile_ne_of_not_mem (hash_not_mem_dotted _), dotted_append_hash hhash]
  rw [hstem, requestStem_append_hash hhash]
  constructor
  · intro heq hdot
    have hlong : IsDotFile (file ++ '.' :: dotted parts) :=
      (isDotFile_append_iff hfile (List.forall_mem_cons.2 ⟨rfl, hplain⟩)).2 hdot
    rw [fileStem_of_isDotFile hlong, fileStem_of_isDotFile hdot] at heq
    simp at heq
  · intro hdot
    exact fileStem_append_dot hplain hfile hdot

end Name

namespace Library

variable {l : Library} {name m n extension : Text}

theorem get?_congr (h : Name.fragmentKey extension m = Name.fragmentKey extension n) (c : Cache) :
    c.get? extension m = c.get? extension n := by
  unfold Cache.get?
  rw [h]

/-- **Requests with one key and one stem** get the same text or both none, and leave the same library. -/
theorem load_congr (hkey : Name.fragmentKey extension m = Name.fragmentKey extension n)
    (hstem : Name.requestStem m = Name.requestStem n) (l : Library) :
    (l.load m extension).1.toOption = (l.load n extension).1.toOption ∧ (l.load m extension).2 = (l.load n extension).2 := by
  have hpath : l.locate m extension = l.locate n extension := by
    unfold locate Path.locate
    rw [hstem]
  rcases l.load_cases n extension with ⟨t, ht⟩ | ⟨p, hp⟩ | ⟨hmiss, fault, hread⟩
  · rw [load_of_fresh ht, load_of_fresh ((get?_congr hkey _).trans ht)]
    exact ⟨rfl, rfl⟩
  · have hp' : l.parse? m extension = some p := by
      rw [parse?_eq_some_iff] at hp ⊢
      rwa [get?_congr hkey, hpath, hstem]
    rw [load_of_parse hp, load_of_parse hp', get?_congr hkey]
    refine ⟨?_, rfl⟩
    cases (store l.cache p.stem p.extension p.fragments).get? extension n <;> rfl
  · rw [load_of_fault hmiss hread, load_of_fault ((get?_congr hkey _).trans hmiss) (hpath ▸ hread)]
    exact ⟨rfl, rfl⟩

/-- Whether two names are forms of one request: they have the same key, stem and path, and every library answers both with the
same text or neither. -/
structure Interchangeable (m n : Text) : Prop where
  fragmentKey_eq : ∀ extension, Name.fragmentKey extension m = Name.fragmentKey extension n
  requestStem_eq : Name.requestStem m = Name.requestStem n
  locate_eq : ∀ folder extension, Path.locate folder extension m = Path.locate folder extension n
  load_eq : ∀ (l : Library) (extension : Text), (l.load m extension).1.toOption = (l.load n extension).1.toOption ∧
    (l.load m extension).2 = (l.load n extension).2

theorem fragmentKey_dotted (extension name : Text) :
    Name.fragmentKey extension (Name.dotted name) = Name.fragmentKey extension name := by
  rw [Name.fragmentKey, Name.fragmentKey, Name.dotted_of_hash_not_mem (Name.hash_not_mem_dotted name)]

theorem interchangeable_of_requestStem_eq (h : Name.requestStem (Name.dotted name) = Name.requestStem name) :
    Interchangeable (Name.dotted name) name where
  fragmentKey_eq extension := fragmentKey_dotted extension name
  requestStem_eq := h
  locate_eq folder extension := by rw [Path.locate, Path.locate, h]
  load_eq l extension := load_congr (fragmentKey_dotted extension name) h l

/-- **Dots and hash signs are interchangeable in a request** exactly when it has no hash sign or does not ask for a part of a
dot file. -/
theorem interchangeable_dotted_iff (hfile : name.takeWhile (· ≠ '#') ≠ [])
    (hparts : ∀ c ∈ name.dropWhile (· ≠ '#'), Name.isSeparator c = false) :
    Interchangeable (Name.dotted name) name ↔ ('#' ∈ name → ¬ Name.IsDotFile (name.takeWhile (· ≠ '#'))) := by
  by_cases hname : '#' ∈ name
  · obtain ⟨file, parts, rfl, hhash⟩ := List.eq_append_cons_of_mem hname
    have htake : (file ++ '#' :: parts).takeWhile (· ≠ '#') = file := by
      rw [Name.takeWhile_ne_append_cons, Name.takeWhile_ne_of_not_mem hhash]
    have hdrop : (file ++ '#' :: parts).dropWhile (· ≠ '#') = '#' :: parts := by
      rw [List.dropWhile_append_of_pos fun c hc => decide_eq_true (ne_of_mem_of_not_mem hc hhash)]
      simp
    rw [htake] at hfile ⊢
    rw [hdrop] at hparts
    have hstem := Name.requestStem_dotted_iff hfile hhash fun c hc => hparts c (List.mem_cons_of_mem _ hc)
    constructor
    · intro h _
      exact hstem.1 h.requestStem_eq
    · intro h
      exact interchangeable_of_requestStem_eq (hstem.2 (h hname))
  · have hsame : Name.dotted name = name := Name.dotted_of_hash_not_mem hname
    constructor
    · intro _ h
      exact absurd h hname
    · intro _
      exact interchangeable_of_requestStem_eq (by rw [hsame])

theorem interchangeable_dotted_below_folder :
    "d/.a#b#c".toList.takeWhile (· ≠ '#') ≠ [] ∧
    (∀ c ∈ "d/.a#b#c".toList.dropWhile (· ≠ '#'), Name.isSeparator c = false) ∧
    Interchangeable "d/.a.b.c".toList "d/.a#b#c".toList := by
  have hfile : "d/.a#b#c".toList.takeWhile (· ≠ '#') ≠ [] := by decide
  have hparts : ∀ c ∈ "d/.a#b#c".toList.dropWhile (· ≠ '#'), Name.isSeparator c = false := by
    simp [Name.isSeparator]
  refine ⟨hfile, hparts, (interchangeable_dotted_iff hfile hparts).2 fun _ => ?_⟩
  exact Name.not_isDotFile_of_mem (c := '/') rfl (by decide)

/-- **The part of a dot file is another one with a dot for its hash sign**: the two forms share a key, but not the file, and
which file answers depends on what was asked before. -/
theorem dotFile_part_not_interchangeable :
    let l := ofSettings .standard ((Files.Tree.empty.write ".a.html".toList (.file "\x7b#b\x7dX\x7b#\x7d".toUTF8.toList)).write
      ".a.b.html".toList (.file "Y".toUTF8.toList)) .clockStart
    Name.dotted ".a#b".toList = ".a.b".toList ∧
    Name.fragmentKey "html".toList ".a#b".toList = Name.fragmentKey "html".toList ".a.b".toList ∧
    Name.requestStem ".a#b".toList = ".a".toList ∧ Name.requestStem ".a.b".toList = ".a.b".toList ∧
    (l.load ".a#b".toList "html".toList).1 = .ok ['X'] ∧ (l.load ".a.b".toList "html".toList).1 = .ok ['Y'] ∧
    ((l.load ".a.b".toList "html".toList).2.load ".a#b".toList "html".toList).1 = .ok ['Y'] := by
  decide +kernel

/-! ### References -/

/-- The fragments of a file that is read under a stem. -/
def fragmentsOf (stem : Text) (bytes : List UInt8) : List Fragment :=
  (Fragment.ofLines (ε := Fault) stem ((Files.Tree.lines bytes).map .ok)).fragments

/-- The last fragment with a name, where hash signs count as dots. -/
def lastNamed? (name : Text) (fragments : List Fragment) : Option Fragment :=
  (fragments.filter fun f => Name.dotted f.name = Name.dotted name).getLast?

theorem exists_lastNamed? {fragments : List Fragment} {f : Fragment} (hf : f ∈ fragments) :
    ∃ g, lastNamed? f.name fragments = some g := by
  have hmem : f ∈ fragments.filter fun g => Name.dotted g.name = Name.dotted f.name :=
    List.mem_filter.2 ⟨hf, decide_eq_true rfl⟩
  exact ⟨_, List.getLast?_eq_some_getLast (List.ne_nil_of_mem hmem)⟩

theorem lastUnder?_fragmentKey (extension name : Text) (fragments : List Fragment) :
    lastUnder? extension (Name.fragmentKey extension name) fragments = lastNamed? name fragments := by
  simp only [lastUnder?, lastNamed?, Name.fragmentKey_eq_iff_dotted]

theorem last?_reference (time : Instant) (stem extension parts : Text) (bytes : List UInt8) :
    Parse.last? ⟨time, stem, extension, bytes⟩ (Name.fragmentKey extension (stem ++ '#' :: parts)) =
      lastNamed? (stem ++ '.' :: parts) (fragmentsOf stem bytes) := by
  have hkey : Name.fragmentKey extension (stem ++ '#' :: parts) = Name.fragmentKey extension (stem ++ '.' :: parts) := by
    rw [Name.fragmentKey_eq_iff_dotted, Name.dotted_append, Name.dotted_append]
    rfl
  rw [hkey, ← lastUnder?_fragmentKey extension]
  rfl

theorem parse?_reference {bytes : List UInt8} {parts : Text} (hread : l.files.read? (l.locate name extension) = .ok bytes)
    (hmiss : l.cache.get? extension (Name.requestStem name ++ '#' :: parts) = none) :
    l.parse? (Name.requestStem name ++ '#' :: parts) extension =
      some ⟨l.cache.now, Name.requestStem name, extension, bytes⟩ := by
  have hpath : l.locate (Name.requestStem name ++ '#' :: parts) extension = l.locate name extension := by
    rw [locate, Path.locate, Name.requestStem_reference]
    rfl
  rw [parse?_eq_some_iff, hpath, Name.requestStem_reference]
  exact ⟨hmiss, bytes, hread, rfl⟩

/-- **A reference leads back to its own file.**  What starts with the stem of a name and a hash sign goes to the file of that
name, and if the cache does not answer it, every part of that file is found in this way: the text is the long form, which there
is, of the last fragment with the name of the part. -/
theorem reference_leads_back (name extension : Text) :
    (∀ parts, Name.requestStem (Name.requestStem name ++ '#' :: parts) = Name.requestStem name ∧
      ∀ folder, Path.locate folder extension (Name.requestStem name ++ '#' :: parts) =
        Path.locate folder extension name) ∧
    ∀ (l : Library) (bytes : List UInt8) (parts : Text), '{' ∉ Name.requestStem name →
      l.files.read? (l.locate name extension) = .ok bytes →
      l.cache.get? extension (Name.requestStem name ++ '#' :: parts) = none →
      (∃ f ∈ fragmentsOf (Name.requestStem name) bytes, f.name = Name.requestStem name ++ '.' :: parts) →
      ∃ g t, lastNamed? (Name.requestStem name ++ '.' :: parts) (fragmentsOf (Name.requestStem name) bytes) = some g ∧
        Tag.longForm? (Name.requestStem name) g.body = some t ∧
        (l.load (Name.requestStem name ++ '#' :: parts) extension).1 = .ok t := by
  refine ⟨fun parts => ⟨Name.requestStem_reference name parts, fun folder => ?_⟩, ?_⟩
  · rw [Path.locate, Path.locate, Name.requestStem_reference]
  · rintro l bytes parts hstem hread hmiss ⟨f, hf, hname⟩
    obtain ⟨g, hg⟩ := exists_lastNamed? hf
    rw [hname] at hg
    refine ⟨g, Tag.longForm (Name.requestStem name) g.body, hg, Tag.longForm?_eq_longForm hstem g.body, ?_⟩
    rw [load_of_parse (parse?_reference hread hmiss), get?_store, last?_reference, hg]

/-- Of two parts whose names differ in a hash sign only the last one is found, also in the file that a dot file below a folder
goes to. -/
theorem reference_leads_back_duplicates :
    let bytes := "\x7b#a#b\x7dX\x7b#\x7d\x7b#a.b\x7d\x7b+#c\x7d\x7b#\x7d".toUTF8.toList
    let l := ofSettings { Settings.standard with folder := some "/srv".toList }
      (Files.Tree.empty.write "/srv/d.html".toList (.file bytes)) .clockStart
    let stem := Name.requestStem "d/.x".toList
    '{' ∉ stem ∧ l.files.read? (l.locate "d/.x".toList "html".toList) = .ok bytes ∧
    l.cache.get? "html".toList (stem ++ '#' :: "a#b".toList) = none ∧
    (∃ f ∈ fragmentsOf stem bytes, f.name = stem ++ '.' :: "a#b".toList) ∧
    (l.load (stem ++ '#' :: "a#b".toList) "html".toList).1 = .ok "\x7b~.include.d/#c\x7d".toList ∧
    ∃ g, lastNamed? (stem ++ '.' :: "a#b".toList) (fragmentsOf stem bytes) = some g ∧
      Tag.longForm? stem g.body = some "\x7b~.include.d/#c\x7d".toList := by
  intro bytes l stem
  have hstem : '{' ∉ stem := by decide +kernel
  have hread : l.files.read? (l.locate "d/.x".toList "html".toList) = .ok bytes := by decide +kernel
  have hmiss : l.cache.get? "html".toList (stem ++ '#' :: "a#b".toList) = none := by decide +kernel
  have hpart : ∃ f ∈ fragmentsOf stem bytes, f.name = stem ++ '.' :: "a#b".toList := by decide +kernel
  have hload : (l.load (stem ++ '#' :: "a#b".toList) "html".toList).1 = .ok "\x7b~.include.d/#c\x7d".toList := by
    decide +kernel
  obtain ⟨g, t, hg, ht, hsame⟩ := (reference_leads_back "d/.x".toList "html".toList).2 l bytes _ hstem hread hmiss hpart
  obtain rfl : t = "\x7b~.include.d/#c\x7d".toList := Except.ok.inj (hsame.symm.trans hload)
  exact ⟨hstem, hread, hmiss, hpart, hload, g, hg, ht⟩

end Library
end Templates
