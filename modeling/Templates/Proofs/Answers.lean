import Templates.Proofs.RequestForms
/-!
# What a request finds

While the entry under its key is fresh, a request gets the text of that entry, whatever the files hold.  Otherwise it gets what
is found for it in its file (`Library.found`), whatever else there is in the cache: storing all fragments of the file and
looking the key up again comes to the last fragment with the name that was asked for (`Library.load_answers`).
-/
namespace Templates
namespace Library

variable {l : Library} {openFile : Text → Except Fault (List (Except Fault Text))} {name extension : Text}

/-- **What is found for a request in its file**, by what opening the file gives.  Nothing is when the tags of the fragment can
never all be written out. -/
def found (name extension path : Text) : Except Fault (List (Except Fault Text)) → Option (Except LoadError Text)
  | .error .missing => some (.error (.notFound name extension path))
  | .error fault => some (.error (.unreadable name extension path fault))
  | .ok lines => match Fragment.firstFailure? lines with
    | some fault => some (.error (.unreadable name extension path fault))
    | none => match lastNamed? name (Fragment.ofLines (Name.requestStem name) lines).fragments with
      | some f => (Tag.longForm? (Name.requestStem name) f.body).map .ok
      | none => some (.error (.notFound name extension path))

theorem found_of_unopened (name extension path : Text) (fault : Fault) : found name extension path (.error fault) =
    some (.error (if fault = .missing then .notFound name extension path else .unreadable name extension path fault)) := by
  cases fault <;> rfl

theorem found_eq_loadBy (hstem : '{' ∉ Name.requestStem name) (hmiss : l.cache.get? extension name = none) :
    found name extension (l.locate name extension) (openFile (l.locate name extension)) =
      some (l.loadBy openFile name extension).1 := by
  cases hopen : openFile (l.locate name extension) with
  | error fault => rw [found_of_unopened, loadBy_of_unopened hmiss hopen]
  | ok lines =>
    cases hread : Fragment.firstFailure? lines with
    | some fault =>
      rw [loadBy_of_unread hmiss hopen hread]
      simp only [found, hread]
    | none =>
      -- Stale entries are out: the key had no fresh one before, and what has been stored is fresh.
      rw [loadBy_of_read hmiss hopen hread, get?_store_fragments, lastUnder?_fragmentKey, hmiss]
      simp only [found, hread]
      cases lastNamed? name (Fragment.ofLines (Name.requestStem name) lines).fragments with
      | none => rfl
      | some f => simp only [Tag.longForm?_eq_longForm hstem, Option.map_some]

/-- **What a request finds**, whatever the cache holds and however files are opened, in the library's own tree or elsewhere.  An
entry whose window has not passed answers it and nothing changes.  Without such an entry, and with a stem without a brace, the
answer is what opening the file at its path gives. -/
theorem load_answers (l : Library) (openFile : Text → Except Fault (List (Except Fault Text))) (name extension : Text) :
    (∀ e, l.cache.entries.get? (Name.fragmentKey extension name) = some e →
      l.cache.now.nanos < e.stored.nanos + l.cache.window.nanos →
      l.loadBy openFile name extension = (.ok e.text, l)) ∧
    ('{' ∉ Name.requestStem name →
      (∀ e, l.cache.entries.get? (Name.fragmentKey extension name) = some e →
        e.stored.nanos + l.cache.window.nanos ≤ l.cache.now.nanos) →
      found name extension (l.locate name extension) (openFile (l.locate name extension)) =
        some (l.loadBy openFile name extension).1) := by
  refine ⟨fun e he hfresh => ?_, fun hstem hstale => ?_⟩
  · exact loadBy_of_fresh (Cache.get?_eq_some_iff.2 ⟨e, he, hfresh, rfl⟩)
  · exact found_eq_loadBy hstem (Cache.get?_eq_none_iff.2 hstale)

/-- A fresh entry answers for the file, and a stale one does not answer for a part that the file has twice by now. -/
theorem load_answers_fresh_stale :
    let files := Files.Tree.empty.write "page.html".toList
      (.file "new\x7b#b\x7dX\x7b#\x7d\x7b#b\x7d\x7b+#c\x7d\x7b#\x7d".toUTF8.toList)
    let l : Library := { ofSettings .standard files .clockStart with
      cache := ⟨.ofList [("html.page".toList, ⟨"kept".toList, .clockStart⟩),
        ("html.page.b".toList, ⟨"old".toList, ⟨0, by decide, by decide⟩⟩)], 900, .clockStart⟩ }
    (l.load "page".toList "html".toList).1 = .ok "kept".toList ∧
      '{' ∉ Name.requestStem "page#b".toList ∧
      (∀ e, l.cache.entries.get? (Name.fragmentKey "html".toList "page#b".toList) = some e →
        e.stored.nanos + l.cache.window.nanos ≤ l.cache.now.nanos) ∧
      (l.load "page#b".toList "html".toList).1 = .ok "\x7b~.include.page#c\x7d".toList := by
  intro files l
  have hfresh := (load_answers l l.files.open? "page".toList "html".toList).1 ⟨"kept".toList, .clockStart⟩
    (by decide +kernel) (by decide +kernel)
  have hstem : '{' ∉ Name.requestStem "page#b".toList := by decide +kernel
  have hstored : l.cache.entries.get? (Name.fragmentKey "html".toList "page#b".toList) =
      some ⟨"old".toList, ⟨0, by decide, by decide⟩⟩ := by decide +kernel
  have hstale : ∀ e, l.cache.entries.get? (Name.fragmentKey "html".toList "page#b".toList) = some e →
      e.stored.nanos + l.cache.window.nanos ≤ l.cache.now.nanos := by
    intro e he
    obtain rfl := Option.some.inj (hstored.symm.trans he)
    decide +kernel
  have hanswer := (load_answers l l.files.open? "page#b".toList "html".toList).2 hstem hstale
  refine ⟨congrArg Prod.fst hfresh, hstem, hstale, Option.some.inj (hanswer.symm.trans ?_)⟩
  decide +kernel

end Library
end Templates
