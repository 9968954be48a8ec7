import Templates.Proofs.Runs
/-!
# Where loaded texts come from

Every entry of the cache comes from one file that was read earlier in the run, and nothing has touched the entry since
(`Library.Origin`).  A library that starts with an empty cache therefore loads only what it read less than a window ago
(`exists_origin_of_load`), whatever became of the files, the clock and the settings in between.  The induction is on the run:
an action either keeps the entry of a key, with its origin, or makes it anew.
-/
namespace Templates
namespace Library

variable {l : Library} {a : Action} {actions : List Action} {key : Text} {e : Entry}

/-- Whether every action of a run leaves the entry of a key alone. -/
def Undisturbed (key : Text) : Library → List Action → Prop
  | _, [] => True
  | l, a :: later => a.Keeps l key ∧ Undisturbed key (l.perform a) later

theorem undisturbed_append : ∀ {l : Library} {past later : List Action},
    Undisturbed key l (past ++ later) ↔ Undisturbed key l past ∧ Undisturbed key (l.run past) later
  | _, [], _ => by simp [Undisturbed]
  | l, a :: past, later => by
    rw [List.cons_append, Undisturbed, Undisturbed, undisturbed_append, and_assoc]
    rfl

theorem undisturbed_append_singleton (h : Undisturbed key l actions) (ha : a.Keeps (l.run actions) key) :
    Undisturbed key l (actions ++ [a]) :=
  undisturbed_append.2 ⟨h, ha, trivial⟩

/-- **Where the entry of a key comes from in a run**: a lookup that read a file, and the last fragment of that file under
the key, which nothing has cleared or stored anew since. -/
structure Origin (l : Library) (actions : List Action) (key : Text) where
  past : List Action
  lookup : Lookup
  later : List Action
  parse : Parse
  fragment : Fragment
  actions_eq : actions = past ++ .look lookup :: later
  parse_eq : lookup.parse? (l.run past) = some parse
  fragment_eq : parse.last? key = some fragment
  undisturbed : Undisturbed key (l.run (past ++ [.look lookup])) later

namespace Origin

theorem run_eq (o : Origin l actions key) : (l.run (o.past ++ [.look o.lookup])).run o.later = l.run actions := by
  rw [← run_append, List.append_assoc]
  exact (congrArg l.run o.actions_eq).symm

/-- The origin is the same after an action that keeps the entry. -/
def extend (o : Origin l actions key) (h : a.Keeps (l.run actions) key) : Origin l (actions ++ [a]) key where
  past := o.past
  lookup := o.lookup
  later := o.later ++ [a]
  parse := o.parse
  fragment := o.fragment
  actions_eq := (congrArg (· ++ [a]) o.actions_eq).trans (by simp)
  parse_eq := o.parse_eq
  fragment_eq := o.fragment_eq
  undisturbed := undisturbed_append_singleton o.undisturbed (o.run_eq ▸ h)

theorem time_le (o : Origin l actions key) : o.parse.time.nanos ≤ (l.run actions).cache.now.nanos := by
  rw [Lookup.time_of_parse o.parse_eq, ← o.run_eq, run_append_singleton]
  exact now_le_run (l.run o.past) (.look o.lookup :: o.later)

end Origin

/-- An action that does not keep the entry of a key clears the cache or reads a file with a fragment under the key. -/
theorem cases_of_not_keeps (h : ¬ a.Keeps l key) :
    a = .clearCache ∨ ∃ lookup p f, a = .look lookup ∧ lookup.parse? l = some p ∧ p.last? key = some f := by
  by_cases hclear : a = .clearCache
  · exact .inl hclear
  · right
    have hparse : ∃ p, a.parse? l = some p ∧ p.Stores key := by
      by_contra hnone
      exact h ⟨hclear, fun p hp hstores => hnone ⟨p, hp, hstores⟩⟩
    obtain ⟨p, hp, hstores⟩ := hparse
    obtain ⟨f, hf⟩ := Option.ne_none_iff_exists'.1 fun hnone => Parse.last?_eq_none_iff.1 hnone hstores
    cases a with
    | look lookup => exact ⟨lookup, p, f, rfl, hp, hf⟩
    | _ => cases hp

/-- **Every entry that a run leaves has an origin in the run.** -/
theorem exists_origin (hempty : l.cache.entries = .empty) (he : (l.run actions).cache.entries.get? key = some e) :
    ∃ o : Origin l actions key, o.parse.entry o.fragment = e := by
  induction actions using List.reverseRecOn generalizing e with
  | nil =>
    rw [run_nil, hempty] at he
    cases he
  | append_singleton actions a ih =>
    rw [run_append_singleton] at he
    by_cases hkeeps : a.Keeps (l.run actions) key
    · rw [entry_perform_of_keeps hkeeps] at he
      obtain ⟨o, ho⟩ := ih he
      exact ⟨o.extend hkeeps, ho⟩
    · rcases cases_of_not_keeps hkeeps with rfl | ⟨lookup, p, f, rfl, hp, hf⟩
      · cases he
      · have hparse : Action.parse? (l.run actions) (.look lookup) = some p := hp
        rw [entry_perform_of_parse hparse, hf] at he
        cases he
        exact ⟨⟨actions, lookup, [], p, f, rfl, hp, hf, trivial⟩, rfl⟩

/-- **A text that is loaded was read less than a window ago.**  In every run from an empty cache it is the long form of the
last fragment under its key in a file that some lookup read, this one or an earlier one; the cache was not cleared and the
key not stored anew since, and the window that is in force now has not passed. -/
theorem exists_origin_of_load {name extension t : Text} (hempty : l.cache.entries = .empty)
    (h : ((l.run actions).load name extension).1 = .ok t) :
    ∃ o : Origin l (actions ++ [.look (.load name extension)]) (Name.fragmentKey extension name),
      t = Tag.longForm o.parse.stem o.fragment.body ∧
      o.parse.time.nanos ≤ (l.run actions).cache.now.nanos ∧
      (l.run actions).cache.now.nanos < o.parse.time.nanos + (l.run actions).cache.window.nanos := by
  have hlook : l.run (actions ++ [.look (.load name extension)]) = (l.run actions).perform (.look (.load name extension)) :=
    run_append_singleton l actions _
  have hget : ((l.run actions).perform (.look (.load name extension))).cache.get? extension name = some t := get?_of_load h
  obtain ⟨e, he, hfresh, rfl⟩ := Cache.get?_eq_some_iff.1 hget
  rw [now_look, window_look] at hfresh
  rw [← hlook] at he
  obtain ⟨o, rfl⟩ := exists_origin hempty he
  have htime := o.time_le
  rw [hlook, now_look] at htime
  exact ⟨o, rfl, htime, hfresh⟩

/-- A part of a file below an absolute folder is still loaded after the file was overwritten. -/
theorem exists_origin_of_load_overwritten :
    let l := ofSettings { Settings.standard with folder := some "/srv".toList } .empty .clockStart
    let actions := [.writeFile "/srv/p.html".toList (.file "a\x7b#r\x7db\x7b#\x7d".toUTF8.toList), .look (.get ['p']),
      .writeFile "/srv/p.html".toList (.file "c".toUTF8.toList), .advance (.ofSeconds 899)]
    l.cache.entries = .empty ∧ ((l.run actions).load "p#r".toList "html".toList).1 = .ok ['b'] ∧
      ∃ o : Origin l (actions ++ [.look (.load "p#r".toList "html".toList)]) (Name.fragmentKey "html".toList "p#r".toList),
        ['b'] = Tag.longForm o.parse.stem o.fragment.body := by
  intro l actions
  have hload : ((l.run actions).load "p#r".toList "html".toList).1 = .ok ['b'] := by decide +kernel
  obtain ⟨o, ht, -⟩ := exists_origin_of_load rfl hload
  exact ⟨rfl, hload, o, ht⟩

end Library
end Templates
