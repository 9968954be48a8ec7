import Templates.Proofs.FragmentNames
import Templates.Proofs.RequestForms
/-!
# What a request leaves

A request changes nothing but the entries of its library's cache, and these only when its file is read to its end
(`Library.load_effect`).  Then the entries under the keys of the file's fragments are new (`Cache.Refills`).  Such a key is that
of the file's stem, or goes on from it with a dot, so that every other entry stays.
-/
namespace Templates

/-- The key of a fragment is that of its file, or goes on from it with a dot. -/
theorem Fragment.fragmentKey_of_mem_ofLines {ε : Type} {stem : Text} {lines : List (Except ε Text)} {f : Fragment}
    (hf : f ∈ (ofLines stem lines).fragments) (extension : Text) :
    Name.fragmentKey extension f.name = Name.fragmentKey extension stem ∨
      ∃ t, Name.fragmentKey extension f.name = Name.fragmentKey extension stem ++ '.' :: t := by
  obtain ⟨g, -, hname, hpath⟩ := name_of_mem_ofLines hf
  rw [hname]
  rcases hpath with hnil | ⟨t, ht⟩
  · exact .inl (by rw [hnil, List.append_nil])
  · refine .inr ⟨Name.dotted t, ?_⟩
    rw [ht, Name.fragmentKey, Name.dotted_append, Name.fragmentKey, List.append_assoc]
    rfl

/-- **What a file that is read does to a cache**: under the key of a fragment the only entry is the last such fragment, written
out and stored now, and no entry changes unless its key is that of the file or goes on from it with a dot. -/
structure Cache.Refills (stem extension : Text) (fragments : List Fragment) (before after : Cache) : Prop where
  now_eq : after.now = before.now
  refresh_eq : after.refresh = before.refresh
  untouched : ∀ key, key ≠ Name.fragmentKey extension stem → (∀ t, key ≠ Name.fragmentKey extension stem ++ '.' :: t) →
    after.entries.get? key = before.entries.get? key
  stored : ∀ f ∈ fragments, ∃ last text,
    Library.lastUnder? extension (Name.fragmentKey extension f.name) fragments = some last ∧
    Tag.longForm? stem last.body = some text ∧
    after.entries.pairs.filter (fun p => p.1 = Name.fragmentKey extension f.name) =
      [(Name.fragmentKey extension f.name, ⟨text, before.now⟩)]

namespace Library

theorem exists_lastUnder? {fragments : List Fragment} {f : Fragment} (hf : f ∈ fragments) (extension : Text) :
    ∃ last, lastUnder? extension (Name.fragmentKey extension f.name) fragments = some last := by
  rw [lastUnder?_fragmentKey]
  exact exists_lastNamed? hf

theorem refills_store {stem : Text} (hstem : '{' ∉ stem) (cache : Cache) (extension : Text) (lines : List (Except Fault Text)) :
    cache.Refills stem extension (Fragment.ofLines stem lines).fragments
      (store cache stem extension (Fragment.ofLines stem lines).fragments) := by
  refine ⟨by rw [store_eq], by rw [store_eq], fun key hself hbelow => ?_, fun f hf => ?_⟩
  · -- No fragment has a key that is neither that of the file nor below it, whatever the parts are called.
    have hnone : lastUnder? extension key (Fragment.ofLines stem lines).fragments = none := by
      rw [lastUnder?_eq_none_iff]
      rintro f hf rfl
      rcases Fragment.fragmentKey_of_mem_ofLines hf extension with h | ⟨t, h⟩
      · exact hself h
      · exact hbelow t h
    rw [entries_store, hnone]
    rfl
  · obtain ⟨last, hlast⟩ := exists_lastUnder? hf extension
    refine ⟨last, Tag.longForm stem last.body, hlast, Tag.longForm?_eq_longForm hstem last.body, Table.filter_of_get? ?_⟩
    rw [entries_store, hlast]
    rfl

/-- **What a request leaves**, with a stem without a brace.  A library stays as it was when a fresh entry answers, when the file
cannot be opened, and when there is a fault anywhere in its lines, of which nothing is stored under any stem.  When the file is
read to its end, its fragments refill the cache, whether one of them answers or not, and the rest of the library stays. -/
theorem load_effect (l : Library) (openFile : Text → Except Fault (List (Except Fault Text))) (name extension : Text)
    (hstem : '{' ∉ Name.requestStem name) :
    (∀ t, l.cache.get? extension name = some t → (l.loadBy openFile name extension).2 = l) ∧
    (∀ fault, openFile (l.locate name extension) = .error fault → (l.loadBy openFile name extension).2 = l) ∧
    (∀ lines fault, openFile (l.locate name extension) = .ok lines → .error fault ∈ lines →
      (l.loadBy openFile name extension).2 = l) ∧
    (∀ stem lines fault, .error fault ∈ lines → ∃ first, absorb l.cache stem extension lines = .error first) ∧
    (∀ lines : List Text, l.cache.get? extension name = none → openFile (l.locate name extension) = .ok (lines.map .ok) →
      ∃ after, (l.loadBy openFile name extension).2 = { l with cache := after } ∧
        l.cache.Refills (Name.requestStem name) extension
          (Fragment.ofLines (ε := Fault) (Name.requestStem name) (lines.map .ok)).fragments after) := by
  have hfresh : ∀ t, l.cache.get? extension name = some t → (l.loadBy openFile name extension).2 = l :=
    fun t ht => congrArg Prod.snd (loadBy_of_fresh ht)
  refine ⟨hfresh, fun fault hopen => ?_, fun lines fault hopen hfault => ?_, fun stem lines fault hfault => ?_,
    fun lines hmiss hopen => ?_⟩
  · cases hmiss : l.cache.get? extension name with
    | some t => exact hfresh t hmiss
    | none => rw [loadBy_of_unopened hmiss hopen]
  · obtain ⟨first, hfirst⟩ := Fragment.exists_firstFailure? hfault
    cases hmiss : l.cache.get? extension name with
    | some t => exact hfresh t hmiss
    | none => rw [loadBy_of_unread hmiss hopen hfirst]
  · obtain ⟨first, hfirst⟩ := Fragment.exists_firstFailure? hfault
    exact ⟨first, absorb_of_failure hfirst l.cache stem extension⟩
  · rw [loadBy_of_read hmiss hopen (Fragment.firstFailure?_map_ok lines)]
    exact ⟨_, rfl, refills_store hstem l.cache extension _⟩

/-- A request for a part that its file has not got refills the cache, and a fault behind the last line keeps it as it was. -/
theorem load_effect_not_found_fault :
    let lines := ["\x7b#b\x7dX\x7b#\x7d".toList, "\x7b#b\x7d\x7b+#c\x7d\x7b#\x7d".toList]
    let l : Library := { ofSettings .standard .empty .clockStart with
      cache := ⟨.ofList [("html.page.b".toList, ⟨"old".toList, ⟨0, by decide, by decide⟩⟩),
        ("html.pages".toList, ⟨"kept".toList, ⟨0, by decide, by decide⟩⟩)], 900, .clockStart⟩ }
    let read := l.loadBy (fun _ => .ok (lines.map .ok)) "page#z".toList "html".toList
    let broken := l.loadBy (fun _ => .ok (lines.map .ok ++ [.error .isFolder])) "page#z".toList "html".toList
    '{' ∉ Name.requestStem "page#z".toList ∧ broken.2 = l ∧
      read.1 = .error (.notFound "page#z".toList "html".toList "page.html".toList) ∧
      read.2.cache.entries.get? "html.pages".toList = some ⟨"kept".toList, ⟨0, by decide, by decide⟩⟩ ∧
      read.2.cache.entries.pairs.filter (fun p => p.1 = "html.page.b".toList) =
        [("html.page.b".toList, ⟨"\x7b~.include.page#c\x7d".toList, .clockStart⟩)] := by
  intro lines l read broken
  have hstem : '{' ∉ Name.requestStem "page#z".toList := by decide +kernel
  have hbroken : broken.2 = l :=
    (load_effect l (fun _ => .ok (lines.map .ok ++ [.error .isFolder])) "page#z".toList "html".toList hstem).2.2.1
      _ .isFolder rfl (by simp)
  obtain ⟨after, hafter, hrefills⟩ :=
    (load_effect l (fun _ => .ok (lines.map .ok)) "page#z".toList "html".toList hstem).2.2.2.2 lines (by decide +kernel) rfl
  have hcache : read.2.cache = after := congrArg cache hafter
  have hkey : Name.fragmentKey "html".toList (Name.requestStem "page#z".toList) = "html.page".toList := by decide +kernel
  have huntouched := hrefills.untouched "html.pages".toList (by decide +kernel) fun t ht => by
    rw [hkey] at ht
    have hbelow : "html.page".toList ++ ['.'] <+: "html.pages".toList := ⟨t, by rw [ht, List.append_assoc]; rfl⟩
    exact absurd hbelow (by decide)
  obtain ⟨last, text, hlast, htext, hstored⟩ := hrefills.stored ⟨"page.b".toList, ['X']⟩ (by decide +kernel)
  obtain rfl : last = ⟨"page.b".toList, "\x7b+#c\x7d".toList⟩ := Option.some.inj (hlast.symm.trans (by decide +kernel))
  obtain rfl : text = "\x7b~.include.page#c\x7d".toList := Option.some.inj (htext.symm.trans (by decide +kernel))
  rw [hcache]
  exact ⟨hstem, hbroken, by decide +kernel, huntouched.trans (by decide +kernel), hstored⟩

end Library
end Templates
