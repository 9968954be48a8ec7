import Templates.Proofs.PlainNames
import Templates.Proofs.Provenance
import Templates.Proofs.Trees
/-!
# The cache cannot be seen

While the files stay as they are, a library answers every request as if it read the file for it (`Library.answer`), whatever it
was asked before and however much time has passed (`Library.load_run_eq_load`).  What is in the cache was read from some file
earlier in the run.  Requests for plain names with extensions without dots tell by their keys which file that was, and so it is
the file that the request goes to.
-/
namespace Templates

/-- Whether no part of a file has a separator in its local name.  Without a stem the names of its fragments are those of its
parts alone. -/
def Files.Node.HasPlainParts : Files.Node → Prop
  | .file bytes => ∀ f ∈ (Fragment.ofLines (ε := Fault) [] ((Files.Tree.lines bytes).map .ok)).fragments,
      ∀ c ∈ f.name, Name.isSeparator c = false
  | .folder => True

-- Not by instances for `∀ c`, which may go through every character that there is.
instance : DecidablePred Files.Node.HasPlainParts
  | .file bytes => decidable_of_iff ((Fragment.ofLines (ε := Fault) [] ((Files.Tree.lines bytes).map .ok)).fragments.all
      fun f => f.name.all fun c => !Name.isSeparator c) (by simp [Files.Node.HasPlainParts])
  | .folder => isTrue trivial

namespace Files.Tree

def HasPlainParts (files : Tree) : Prop := ∀ node ∈ files.nodes.values, node.HasPlainParts

instance : DecidablePred HasPlainParts := fun files =>
  inferInstanceAs (Decidable (∀ node ∈ files.nodes.values, node.HasPlainParts))

end Files.Tree

/-- A request that its key tells: for a plain name, with an extension without a dot. -/
structure PlainRequest (name extension : Text) : Prop where
  name : Name.IsPlain name
  extension : '.' ∉ extension

/-- **A file that was read for a request that its key tells** has fragments only under keys of requests that go to it. -/
theorem PlainRequest.of_last? {p : Parse} {n name extension : Text} {f : Fragment} (hp : p.stem = Name.requestStem n)
    (hn : PlainRequest n p.extension) (hparts : Files.Node.HasPlainParts (.file p.bytes))
    (hrequest : PlainRequest name extension) (hf : p.last? (Name.fragmentKey extension name) = some f) :
    p.extension = extension ∧ p.stem = Name.requestStem name := by
  obtain ⟨hmem, hkey⟩ := List.mem_filter.1 (List.mem_of_getLast? hf)
  obtain ⟨g, hg, hname, hpath⟩ := Fragment.name_of_mem_ofLines hmem
  rw [hp] at hname
  obtain ⟨hplain, hstem⟩ := Name.isPlain_requestStem_append hn.name hpath (hparts g hg)
  rw [← hname] at hplain hstem
  obtain ⟨hextension, hsame⟩ := Name.requestStem_eq_of_fragmentKey_eq hn.extension hrequest.extension hplain hrequest.name
    (of_decide_eq_true hkey)
  exact ⟨hextension, hp.trans (hstem.symm.trans hsame)⟩

namespace Library

variable {l : Library} {a : Action} {actions : List Action} {name extension t : Text}

/-- What a request finds when its file is read for it. -/
def answer (l : Library) (name extension : Text) : Except LoadError Text :=
  match l.files.read? (l.locate name extension) with
  | .error fault => .error (if fault = .missing then .notFound name extension (l.locate name extension)
      else .unreadable name extension (l.locate name extension) fault)
  | .ok bytes =>
    match Parse.last? ⟨l.cache.now, Name.requestStem name, extension, bytes⟩ (Name.fragmentKey extension name) with
    | some f => .ok (Tag.longForm (Name.requestStem name) f.body)
    | none => .error (.notFound name extension (l.locate name extension))

theorem answer_congr {m : Library} (hfolder : m.folder = l.folder) (hfiles : m.files = l.files) (name extension : Text) :
    m.answer name extension = l.answer name extension := by
  unfold answer locate
  rw [hfolder, hfiles]
  rfl

theorem read?_of_parse? {p : Parse} (h : l.parse? name extension = some p) :
    p.stem = Name.requestStem name ∧ p.extension = extension ∧
      l.files.read? (Path.under l.folder p.extension (Path.segments p.stem)) = .ok p.bytes := by
  obtain ⟨-, bytes, hread, rfl⟩ := parse?_eq_some_iff.1 h
  exact ⟨rfl, rfl, hread⟩

/-- A request is answered with the last fragment under its key in its file, at whatever time that was read. -/
theorem answer_eq_ok {p : Parse} {f : Fragment}
    (hread : l.files.read? (Path.under l.folder p.extension (Path.segments p.stem)) = .ok p.bytes)
    (hstem : p.stem = Name.requestStem name) (hextension : p.extension = extension)
    (hf : p.last? (Name.fragmentKey extension name) = some f) : l.answer name extension = .ok (p.entry f).text := by
  have hpath : l.locate name extension = Path.under l.folder p.extension (Path.segments p.stem) := by
    rw [locate, Path.locate, hstem, hextension]
  have hlast : Parse.last? ⟨l.cache.now, Name.requestStem name, extension, p.bytes⟩ (Name.fragmentKey extension name) =
      some f := by
    rw [← hf, ← hstem, ← hextension]
    rfl
  rw [answer, hpath, hread]
  simp only [hlast]
  rw [← hstem]
  rfl

/-- **A request is answered from its file**, if what the cache finds for it is what the file holds. -/
theorem load_eq_answer (h : ∀ t, l.cache.get? extension name = some t → l.answer name extension = .ok t) :
    (l.load name extension).1 = l.answer name extension := by
  rcases l.load_cases name extension with ⟨t, ht⟩ | ⟨p, hp⟩ | ⟨hmiss, fault, hread⟩
  · rw [load_of_fresh ht, h t ht]
  · obtain ⟨hmiss, bytes, hread, rfl⟩ := parse?_eq_some_iff.1 hp
    rw [load_of_parse hp, answer, hread, get?_store, hmiss]
    simp only
    cases Parse.last? ⟨l.cache.now, Name.requestStem name, extension, bytes⟩ (Name.fragmentKey extension name) with
    | none => rfl
    | some f => rfl
  · rw [load_of_fault hmiss hread, answer, hread]

theorem load_of_empty (h : l.cache.entries = .empty) : (l.load name extension).1 = l.answer name extension := by
  refine load_eq_answer fun t ht => ?_
  rw [Cache.get?, h] at ht
  cases ht

/-! ### Runs that leave the files alone -/

/-- Whether an action leaves the files alone and asks for nothing but what its key tells. -/
def IsPlainAction (l : Library) : Action → Prop
  | .look lookup => ∀ name extension, lookup.request? l = some (name, extension) → PlainRequest name extension
  | .writeFile _ _ => False
  | .removeFile _ => False
  | _ => True

/-- A run of such actions. -/
def RunsPlainly : Library → List Action → Prop
  | _, [] => True
  | l, a :: later => l.IsPlainAction a ∧ RunsPlainly (l.perform a) later

theorem perform_advance (l : Library) (span : Span) : l.perform (.advance span) =
    { l with cache := (l.cache.advance? span).getD l.cache } := by
  rw [perform, advance?]
  cases l.cache.advance? span <;> rfl

theorem perform_look (l : Library) (lookup : Lookup) :
    l.perform (.look lookup) = { l with cache := (l.perform (.look lookup)).cache } := by
  cases hparse : lookup.parse? l with
  | none =>
    have hafter : l.perform (.look lookup) = l := Lookup.after_of_parse_none hparse
    rw [hafter]
  | some p =>
    have hafter : l.perform (.look lookup) = _ := Lookup.after_of_parse hparse
    rw [hafter]

theorem folder_perform (l : Library) (a : Action) : (l.perform a).folder = l.folder := by
  cases a with
  | look lookup => rw [perform_look]
  | advance span => rw [perform_advance]
  | setRefreshMinutes minutes => rw [perform, setRefreshMinutes]
  | _ => rfl

theorem files_perform (h : l.IsPlainAction a) : (l.perform a).files = l.files := by
  cases a with
  | look lookup => rw [perform_look]
  | advance span => rw [perform_advance]
  | setRefreshMinutes minutes => rw [perform, setRefreshMinutes]
  | writeFile path node => exact h.elim
  | removeFile path => exact h.elim
  | _ => rfl

theorem runsPlainly_append : ∀ {l : Library} {past later : List Action},
    RunsPlainly l (past ++ later) ↔ RunsPlainly l past ∧ RunsPlainly (l.run past) later
  | _, [], _ => by simp [RunsPlainly]
  | l, a :: past, later => by
    rw [List.cons_append, RunsPlainly, RunsPlainly, runsPlainly_append, and_assoc]
    rfl

theorem folder_run (l : Library) (actions : List Action) : (l.run actions).folder = l.folder := by
  induction actions using List.reverseRecOn with
  | nil => rfl
  | append_singleton actions a ih => rw [run_append_singleton, folder_perform, ih]

theorem files_run (h : RunsPlainly l actions) : (l.run actions).files = l.files := by
  induction actions using List.reverseRecOn with
  | nil => rfl
  | append_singleton actions a ih =>
    obtain ⟨hactions, ha, -⟩ := runsPlainly_append.1 h
    rw [run_append_singleton, files_perform ha, ih hactions]

/-- **What is in the cache after a run is what its file holds.** -/
theorem answer_of_get?_run (hempty : l.cache.entries = .empty) (hparts : l.files.HasPlainParts)
    (hactions : RunsPlainly l actions) (hrequest : PlainRequest name extension)
    (h : (l.run actions).cache.get? extension name = some t) : l.answer name extension = .ok t := by
  obtain ⟨e, he, -, rfl⟩ := Cache.get?_eq_some_iff.1 h
  obtain ⟨o, rfl⟩ := exists_origin hempty he
  -- The file of the entry was read for a plain request earlier in the run, and it is still there.
  rw [o.actions_eq] at hactions
  obtain ⟨hpast, hlook, -⟩ := runsPlainly_append.1 hactions
  obtain ⟨⟨n, x⟩, hlookup, hparse⟩ := Option.bind_eq_some_iff.1 o.parse_eq
  obtain ⟨hstem, hextension, hread⟩ := read?_of_parse? hparse
  rw [folder_run, files_run hpast] at hread
  have hn : PlainRequest n o.parse.extension := hextension ▸ hlook n x hlookup
  have hfile := hparts _ (Files.Tree.file_mem_values_of_read? hread)
  -- By its key it is the file that the request goes to.
  obtain ⟨hsame, hsameStem⟩ := PlainRequest.of_last? hstem hn hfile hrequest o.fragment_eq
  exact answer_eq_ok hread hsameStem hsame o.fragment_eq

/-- **The cache cannot be seen.**  After a run that leaves the files alone and asks for nothing but what its key tells, such a
request is answered as it is by a library with the same files and an empty cache. -/
theorem load_run_eq_load {fresh : Library} (hempty : l.cache.entries = .empty) (hparts : l.files.HasPlainParts)
    (hactions : RunsPlainly l actions) (hrequest : PlainRequest name extension) (hfresh : fresh.cache.entries = .empty)
    (hfolder : fresh.folder = l.folder) (hfiles : fresh.files = l.files) :
    ((l.run actions).load name extension).1 = (fresh.load name extension).1 := by
  have hrun : (l.run actions).answer name extension = l.answer name extension :=
    answer_congr (folder_run l actions) (files_run hactions) name extension
  rw [load_eq_answer fun t ht => hrun.trans (answer_of_get?_run hempty hparts hactions hrequest ht), hrun,
    load_of_empty hfresh, answer_congr hfolder hfiles]

/-- A part that an earlier request stored is found again under another of its names, as its file has it. -/
theorem load_run_eq_load_nested :
    let l := ofSettings { Settings.standard with folder := some "/srv".toList } (Files.Tree.empty.write "/srv/d.x/p.html".toList
      (.file "u\x7b#a\x7dv\x7b#b\x7d\x7b^\x7d\x7b#\x7d\x7b#\x7d".toUTF8.toList)) .clockStart
    let actions := [.look (.get "d.x/p#a".toList), .advance (.ofSeconds 899), .setRefreshMinutes 0, .setRefreshMinutes 20]
    l.cache.entries = .empty ∧ l.files.HasPlainParts ∧ RunsPlainly l actions ∧
      PlainRequest "d.x/p.a#b".toList "html".toList ∧
      (l.run actions).cache.get? "html".toList "d.x/p.a#b".toList = some "\x7b~.\x7d".toList ∧
      ((l.run actions).load "d.x/p.a#b".toList "html".toList).1 = (l.load "d.x/p.a#b".toList "html".toList).1 := by
  intro l actions
  have hparts : l.files.HasPlainParts := by decide +kernel
  have hplain : ∀ rest : Text, Name.IsRest rest → Name.IsPlain ("d.x/p".toList ++ rest) := fun rest hrest =>
    ⟨"d.x/".toList, ['p'], rest, rfl, ⟨.inr ⟨"d.x".toList, '/', rfl, rfl⟩, by decide⟩,
      ⟨by decide, by simp [Name.isSeparator]⟩, hrest⟩
  have hactions : RunsPlainly l actions := by
    refine ⟨?_, trivial, trivial, trivial, trivial⟩
    rintro name extension ⟨rfl, rfl⟩
    exact ⟨hplain ['#', 'a'] ⟨.inr ⟨['a'], .inr rfl⟩, by simp [Name.isSeparator]⟩, by decide⟩
  have hrequest : PlainRequest "d.x/p.a#b".toList "html".toList :=
    ⟨hplain ['.', 'a', '#', 'b'] ⟨.inr ⟨['a', '#', 'b'], .inl rfl⟩, by simp [Name.isSeparator]⟩, by decide⟩
  refine ⟨rfl, hparts, hactions, hrequest, by decide +kernel, ?_⟩
  exact load_run_eq_load rfl hparts hactions hrequest rfl rfl rfl

end Library
end Templates
