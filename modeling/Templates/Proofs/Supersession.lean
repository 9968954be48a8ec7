import Templates.Proofs.Provenance
/-!
# What a later reading supersedes

A file that is read anew stores the fragments that it has by then, each under its key, and leaves every other entry where it is.
An entry is therefore older than some action of a run exactly when nothing has disturbed its key from that action on
(`Library.Origin.length_past_lt_iff`), and a text of an earlier reading is served after a later one of the same file exactly when
the file had lost that fragment by then and nothing has cleared or stored its key since
(`Library.servedFromEarlier_iff`).
-/
namespace Templates
namespace Library

variable {l : Library} {past later actions : List Action} {key name extension t : Text} {lookup : Lookup} {p : Parse}

theorem entry_run_of_undisturbed : ∀ {l : Library} {actions : List Action}, Undisturbed key l actions →
    (l.run actions).cache.entries.get? key = l.cache.entries.get? key
  | _, [], _ => rfl
  | _, _ :: _, h => (entry_run_of_undisturbed h.2).trans (entry_perform_of_keeps h.1)

theorem keeps_look_iff (h : lookup.parse? l = some p) : Action.Keeps l key (.look lookup) ↔ ¬ p.Stores key := by
  constructor
  · intro hkeeps
    exact hkeeps.2 p h
  · intro hstores
    refine ⟨nofun, fun q hq => ?_⟩
    obtain rfl : p = q := Option.some.inj (h.symm.trans hq)
    exact hstores

theorem keeps_of_parse?_eq_none {a : Action} (hclear : a ≠ .clearCache) (h : a.parse? l = none) : a.Keeps l key := by
  refine ⟨hclear, fun p hp => ?_⟩
  rw [h] at hp
  cases hp

namespace Origin

theorem stores (o : Origin l actions key) : o.parse.Stores key := by
  by_contra hnone
  have hlast := o.fragment_eq
  rw [Parse.last?_eq_none_iff.2 hnone] at hlast
  cases hlast

/-- **An origin tells the entry** that the run leaves. -/
theorem entry_eq (o : Origin l actions key) :
    (l.run actions).cache.entries.get? key = some (o.parse.entry o.fragment) := by
  have hparse : Action.parse? (l.run o.past) (.look o.lookup) = some o.parse := o.parse_eq
  rw [← o.run_eq, entry_run_of_undisturbed o.undisturbed, run_append_singleton, entry_perform_of_parse hparse,
    o.fragment_eq]
  rfl

/-- The origin is the same after actions that leave the entry alone. -/
def append (o : Origin l past key) (h : Undisturbed key (l.run past) later) : Origin l (past ++ later) key where
  past := o.past
  lookup := o.lookup
  later := o.later ++ later
  parse := o.parse
  fragment := o.fragment
  actions_eq := (congrArg (· ++ later) o.actions_eq).trans (by simp)
  parse_eq := o.parse_eq
  fragment_eq := o.fragment_eq
  undisturbed := undisturbed_append.2 ⟨o.undisturbed, o.run_eq.symm ▸ h⟩

theorem length_past_lt (o : Origin l actions key) : o.past.length < actions.length := by
  have hlength := congrArg List.length o.actions_eq
  simp only [List.length_append, List.length_cons] at hlength
  omega

theorem before_or_behind (o : Origin l (past ++ later) key) :
    (∃ s, past = o.past ++ .look o.lookup :: s ∧ o.later = s ++ later) ∨
      ∃ s, o.past = past ++ s ∧ later = s ++ .look o.lookup :: o.later := by
  rcases List.append_eq_append_iff.1 o.actions_eq with ⟨s, hpast, hlater⟩ | ⟨s, hpast, hlater⟩
  · exact .inr ⟨s, hpast, hlater⟩
  · cases s with
    | nil => exact .inr ⟨[], by simpa using hpast.symm, hlater.symm⟩
    | cons b s =>
      obtain ⟨rfl, hs⟩ := List.cons_eq_cons.1 hlater
      exact .inl ⟨s, hpast, hs⟩

theorem undisturbed_of_before (o : Origin l (past ++ later) key) {s : List Action}
    (hpast : past = o.past ++ .look o.lookup :: s) (hlater : o.later = s ++ later) :
    Undisturbed key (l.run (o.past ++ [.look o.lookup])) s ∧ Undisturbed key (l.run past) later := by
  have hundisturbed := o.undisturbed
  rwa [hlater, undisturbed_append, ← run_append, List.append_assoc, List.singleton_append, ← hpast] at hundisturbed

/-- **An entry is older than an action** exactly when nothing has disturbed its key from that action on. -/
theorem length_past_lt_iff (o : Origin l (past ++ later) key) :
    o.past.length < past.length ↔ Undisturbed key (l.run past) later := by
  rcases o.before_or_behind with ⟨s, hpast, hlater⟩ | ⟨s, hpast, hlater⟩
  · have hlength := congrArg List.length hpast
    simp only [List.length_append, List.length_cons] at hlength
    exact iff_of_true (by omega) (o.undisturbed_of_before hpast hlater).2
  · have hlength := congrArg List.length hpast
    rw [List.length_append] at hlength
    refine iff_of_false (by omega) fun h => ?_
    -- Behind the division the origin is itself a lookup that stores the key.
    rw [hlater, undisturbed_append, ← run_append, ← hpast] at h
    exact (keeps_look_iff o.parse_eq).1 h.2.1 o.stores

theorem exists_of_length_past_lt (o : Origin l (past ++ later) key) (h : o.past.length < past.length) :
    ∃ o' : Origin l past key, o'.parse = o.parse := by
  rcases o.before_or_behind with ⟨s, hpast, hlater⟩ | ⟨s, hpast, -⟩
  · exact ⟨⟨o.past, o.lookup, s, o.parse, o.fragment, hpast, o.parse_eq, o.fragment_eq,
      (o.undisturbed_of_before hpast hlater).1⟩, rfl⟩
  · have hlength := congrArg List.length hpast
    rw [List.length_append] at hlength
    omega

end Origin

/-- Whether a text was read from the same file as `p`, and before the action that comes after `past`. -/
def ServedFromEarlier (l : Library) (past actions : List Action) (p : Parse) (key t : Text) : Prop :=
  ∃ o : Origin l actions key, o.past.length < past.length ∧ o.parse.stem = p.stem ∧ o.parse.extension = p.extension ∧
    t = Tag.longForm o.parse.stem o.fragment.body

/-- **A text of an earlier reading is served after a later one of its file** exactly when the later one did not find that
fragment any more, and since then neither the cache was cleared nor the key stored. -/
theorem servedFromEarlier_iff (hparse : lookup.parse? (l.run past) = some p)
    (hload : ((l.run (past ++ .look lookup :: later)).load name extension).1 = .ok t) :
    ServedFromEarlier l past (past ++ .look lookup :: (later ++ [.look (.load name extension)])) p
        (Name.fragmentKey extension name) t ↔
      (∃ o : Origin l past (Name.fragmentKey extension name), o.parse.stem = p.stem ∧ o.parse.extension = p.extension) ∧
      ¬ p.Stores (Name.fragmentKey extension name) ∧
      Undisturbed (Name.fragmentKey extension name) (l.run (past ++ [.look lookup]))
        (later ++ [.look (.load name extension)]) := by
  have hsplit : Undisturbed (Name.fragmentKey extension name) (l.run past)
      (.look lookup :: (later ++ [.look (.load name extension)])) ↔ ¬ p.Stores (Name.fragmentKey extension name) ∧
        Undisturbed (Name.fragmentKey extension name) (l.run (past ++ [.look lookup]))
          (later ++ [.look (.load name extension)]) := by
    rw [Undisturbed, keeps_look_iff hparse, run_append_singleton]
  rw [← hsplit]
  constructor
  · rintro ⟨o, hlt, hstem, hextension, -⟩
    obtain ⟨o', ho'⟩ := o.exists_of_length_past_lt hlt
    exact ⟨⟨o', ho' ▸ hstem, ho' ▸ hextension⟩, o.length_past_lt_iff.1 hlt⟩
  · rintro ⟨⟨o, hstem, hextension⟩, hundisturbed⟩
    refine ⟨o.append hundisturbed, o.length_past_lt, hstem, hextension, ?_⟩
    have hrun : l.run (past ++ .look lookup :: (later ++ [.look (.load name extension)])) =
        (l.run (past ++ .look lookup :: later)).perform (.look (.load name extension)) := by
      rw [← run_append_singleton, List.append_assoc, List.cons_append]
    have hget : (l.run (past ++ .look lookup :: (later ++ [.look (.load name extension)]))).cache.get? extension name =
        some t := by
      rw [hrun]
      exact get?_of_load hload
    obtain ⟨e, he, -, rfl⟩ := Cache.get?_eq_some_iff.1 hget
    rw [(o.append hundisturbed).entry_eq] at he
    cases he
    rfl

instance (p : Parse) (key : Text) : Decidable (p.Stores key) :=
  inferInstanceAs (Decidable (∃ f ∈ p.fragments, Name.fragmentKey p.extension f.name = key))

/-- A part that the file still has is served from the later reading. -/
theorem servedFromEarlier_iff_kept_part :
    let l := ofSettings .standard .empty .clockStart
    let read := Lookup.load "page".toList "html".toList
    let key := Name.fragmentKey "html".toList "page#b".toList
    let past := [.writeFile "page.html".toList (.file "\x7b#b\x7dB\x7b#\x7d".toUTF8.toList), .look read,
      .writeFile "page.html".toList (.file "\x7b#b\x7dC\x7b#\x7d".toUTF8.toList), .advance (.ofSeconds 900)]
    let later := [.setRefreshMinutes 60]
    ∃ p, read.parse? (l.run past) = some p ∧
      ((l.run (past ++ .look read :: later)).load "page#b".toList "html".toList).1 = .ok ['C'] ∧
      ¬ ServedFromEarlier l past (past ++ .look read :: (later ++ [.look (.load "page#b".toList "html".toList)]))
        p key ['C'] := by
  intro l read key past later
  have hload : ((l.run (past ++ .look read :: later)).load "page#b".toList "html".toList).1 = .ok ['C'] := by
    decide +kernel
  obtain ⟨p, hp, hstores⟩ : ∃ p ∈ read.parse? (l.run past), p.Stores key := by decide +kernel
  exact ⟨p, hp, hload, fun h => ((servedFromEarlier_iff hp hload).1 h).2.1 hstores⟩

/-- **A part that a file has lost is served again**: once the window has passed the file is read anew and the part is not
there any more, but a longer window makes its old entry fresh. -/
theorem lost_part_served_from_earlier :
    let l := ofSettings .standard .empty .clockStart
    let read := Lookup.load "page".toList "html".toList
    let key := Name.fragmentKey "html".toList "page#b".toList
    let first := [.writeFile "page.html".toList (.file "old\x7b#b\x7dB\x7b#\x7d".toUTF8.toList)]
    let between := [.writeFile "page.html".toList (.file "new".toUTF8.toList), .advance (.ofSeconds 900)]
    let past := first ++ .look read :: between
    let later := [.setRefreshMinutes 60]
    ∃ p, read.parse? (l.run past) = some p ∧ p.stem = Name.requestStem "page#b".toList ∧ p.extension = "html".toList ∧
      ((l.run (past ++ [.look read])).load "page#b".toList "html".toList).1 =
        .error (.notFound "page#b".toList "html".toList "page.html".toList) ∧
      ((l.run (past ++ .look read :: later)).load "page#b".toList "html".toList).1 = .ok ['B'] ∧
      ServedFromEarlier l past (past ++ .look read :: (later ++ [.look (.load "page#b".toList "html".toList)]))
        p key ['B'] := by
  intro l read key first between past later
  obtain ⟨p₁, hp₁, hstem₁, hextension₁, hlast₁⟩ : ∃ p ∈ read.parse? (l.run first),
      p.stem = Name.requestStem "page#b".toList ∧ p.extension = "html".toList ∧
        p.last? key = some ⟨"page.b".toList, ['B']⟩ := by
    decide +kernel
  obtain ⟨p, hp, hstem, hextension, hlost⟩ : ∃ p ∈ read.parse? (l.run past),
      p.stem = Name.requestStem "page#b".toList ∧ p.extension = "html".toList ∧ ¬ p.Stores key := by
    decide +kernel
  have hfresh : (Action.parse? (l.run (past ++ .look read :: later))
      (.look (.load "page#b".toList "html".toList))).isNone = true := by
    decide +kernel
  -- The first reading is where the entry comes from, and no action after it touches the key.
  let o : Origin l past key :=
    ⟨first, read, between, p₁, ⟨"page.b".toList, ['B']⟩, rfl, hp₁, hlast₁,
      keeps_of_parse?_eq_none nofun rfl, keeps_of_parse?_eq_none nofun rfl, trivial⟩
  have hundisturbed : Undisturbed key (l.run past)
      (.look read :: (later ++ [.look (.load "page#b".toList "html".toList)])) :=
    ⟨(keeps_look_iff hp).2 hlost, keeps_of_parse?_eq_none nofun rfl,
      keeps_of_parse?_eq_none nofun (Option.isNone_iff_eq_none.1 hfresh), trivial⟩
  have hlong : ['B'] = Tag.longForm p₁.stem ['B'] := by
    rw [hstem₁]
    decide +kernel
  exact ⟨p, hp, hstem, hextension, by decide +kernel, by decide +kernel, o.append hundisturbed, o.length_past_lt,
    hstem₁.trans hstem.symm, hextension₁.trans hextension.symm, hlong⟩

end Library
end Templates
