import Templates.Draft
import Templates.Proofs.Parses
/-!
# Runs of a library

A run is a list of actions on a library whose folder stays where it is (`Library.run`).  Every lookup is the load of one
fragment (`Lookup.after_eq`), so that an action reads one file at most (`Action.parse?`), and the entry of a key changes only
when the cache is cleared or a file is read that stores the key (`Library.entry_perform_of_keeps`).
-/
namespace Templates

/-- The ways in which a library is asked for a fragment. -/
inductive Lookup where
  | load (name extension : Text)
  | fetchWith (name extension : Text) (onMiss : OnMiss)
  | getWith (name extension : Text)
  | get (name : Text)
  | provides (name : Text)
  | draftWith (name extension : Text)
  | draft (name : Text)
  | fetchFrom (source : Source) (name : Text)
  | providedBy (source : Source) (name : Text)
  | fetchInto (draft : Draft) (protocol name : Text)

/-- What can be done with a library besides moving it to another folder. -/
inductive Action where
  | look (lookup : Lookup)
  | clearCache
  | advance (span : Span)
  | setRefresh (refresh : Span)
  | setRefreshMinutes (minutes : Nat)
  | setExtension (extension : Text)
  | setMarks (marks : Tag.Marks)
  | setOnMiss (onMiss : OnMiss)
  | addSource (source : Source)
  | writeFile (path : Text) (node : Files.Node)
  | removeFile (path : Text)

/-- The fragment that a source asks its library for, with its extension. -/
def Source.request? (l : Library) (name : Text) : Source → Option (Text × Text)
  | library => some (name, l.extension)
  | folder context => some (qualifyName context name, l.extension)
  | snippets _ _ => none
  | echo _ => none
  | foreign _ _ _ => none

namespace Lookup

variable {l : Library} {lookup : Lookup} {p : Parse}

/-- The fragment that a lookup goes to, with its extension. -/
def request? (l : Library) : Lookup → Option (Text × Text)
  | load name extension => some (name, extension)
  | fetchWith name extension _ => some (name, extension)
  | getWith name extension => some (name, extension)
  | get name => some (name, l.extension)
  | provides name => some (name, l.extension)
  | draftWith name extension => some (name, extension)
  | draft name => some (name, l.extension)
  | fetchFrom source name => source.request? l name
  | providedBy source name => source.request? l name
  | fetchInto d protocol name => (d.sourceFor protocol).bind fun source => source.request? l name

/-- The library after a lookup. -/
def after (l : Library) : Lookup → Library
  | load name extension => (l.load name extension).2
  | fetchWith name extension onMiss => (l.fetchWith name extension onMiss).2
  | getWith name extension => (l.getWith name extension).2
  | get name => (l.get name).2
  | provides name => (l.provides name).2
  | draftWith name extension => (l.draftWith name extension).2
  | draft name => (l.draft name).2
  | fetchFrom source name => (source.fetch l name).2
  | providedBy source name => (source.provides l name).2
  | fetchInto d protocol name => (d.fetchFrom l protocol name).2

/-- The file that a lookup reads. -/
def parse? (l : Library) (lookup : Lookup) : Option Parse :=
  (lookup.request? l).bind fun request => l.parse? request.1 request.2

theorem draftWith_snd (name extension : Text) : (l.draftWith name extension).2 = (l.load name extension).2 := by
  have hload : (l.getWith name extension).2 = (l.load name extension).2 := rfl
  unfold Library.draftWith
  split
  · next h =>
    rw [h] at hload
    exact hload
  · next h =>
    rw [h] at hload
    exact hload

theorem fetch_snd (source : Source) (name : Text) : (source.fetch l name).2 =
    match source.request? l name with
    | some request => (l.load request.1 request.2).2
    | none => l := by
  cases source <;> rfl

/-- **Every lookup is the load of one fragment**, or leaves the library alone. -/
theorem after_eq (l : Library) (lookup : Lookup) : lookup.after l =
    match lookup.request? l with
    | some request => (l.load request.1 request.2).2
    | none => l := by
  cases lookup with
  | load name extension => rfl
  | fetchWith name extension onMiss => rfl
  | getWith name extension => rfl
  | get name => rfl
  | provides name => rfl
  | draftWith name extension => exact draftWith_snd name extension
  | draft name => exact draftWith_snd name l.extension
  | fetchFrom source name => exact fetch_snd source name
  | providedBy source name => cases source <;> rfl
  | fetchInto d protocol name =>
    rw [after, request?, Draft.fetchFrom]
    cases d.sourceFor protocol with
    | none => rfl
    | some source => exact fetch_snd source name

theorem after_of_parse (h : lookup.parse? l = some p) :
    lookup.after l = { l with cache := Library.store l.cache p.stem p.extension p.fragments } := by
  obtain ⟨request, hrequest, hparse⟩ := Option.bind_eq_some_iff.1 h
  rw [after_eq, hrequest]
  simp only [Library.load_of_parse hparse]

theorem after_of_parse_none (h : lookup.parse? l = none) : lookup.after l = l := by
  rw [after_eq]
  cases hrequest : lookup.request? l with
  | none => rfl
  | some request =>
    rw [parse?, hrequest] at h
    exact Library.load_of_parse_none h

theorem time_of_parse (h : lookup.parse? l = some p) : p.time = l.cache.now := by
  obtain ⟨request, -, hparse⟩ := Option.bind_eq_some_iff.1 h
  obtain ⟨-, bytes, -, rfl⟩ := Library.parse?_eq_some_iff.1 hparse
  rfl

end Lookup

/-- The file that an action reads. -/
def Action.parse? (l : Library) : Action → Option Parse
  | look lookup => lookup.parse? l
  | _ => none

/-- Whether an action leaves the entry of a key alone: it neither clears the cache nor reads a file that stores the key. -/
def Action.Keeps (l : Library) (key : Text) (a : Action) : Prop :=
  a ≠ .clearCache ∧ ∀ p, a.parse? l = some p → ¬ p.Stores key

namespace Library

variable {l : Library} {a : Action} {p : Parse} {key : Text}

/-- The library after an action.  A clock that cannot be moved on stays. -/
def perform (l : Library) : Action → Library
  | .look lookup => lookup.after l
  | .clearCache => l.clearCache
  | .advance span => (l.advance? span).getD l
  | .setRefresh refresh => { l with cache := l.cache.setRefresh refresh }
  | .setRefreshMinutes minutes => l.setRefreshMinutes minutes
  | .setExtension extension => l.setExtension extension
  | .setMarks marks => l.setMarks marks
  | .setOnMiss onMiss => l.setOnMiss onMiss
  | .addSource source => l.addSource source
  | .writeFile path node => l.writeFile path node
  | .removeFile path => l.removeFile path

/-- The library after a run. -/
def run (l : Library) (actions : List Action) : Library := actions.foldl perform l

@[simp] theorem run_nil (l : Library) : l.run [] = l := rfl

theorem run_append (l : Library) (as bs : List Action) : l.run (as ++ bs) = (l.run as).run bs := List.foldl_append

theorem run_append_singleton (l : Library) (as : List Action) (a : Action) : l.run (as ++ [a]) = (l.run as).perform a :=
  run_append l as [a]

/-- An action that reads a file stores its fragments. -/
theorem entry_perform_of_parse (h : a.parse? l = some p) (key : Text) :
    (l.perform a).cache.entries.get? key = ((p.last? key).map p.entry).or (l.cache.entries.get? key) := by
  cases a with
  | look lookup =>
    have hafter : l.perform (.look lookup) = _ := Lookup.after_of_parse h
    rw [hafter, entries_store, ← Lookup.time_of_parse h]
    rfl
  | _ => cases h

theorem entries_perform_of_parse_none (hclear : a ≠ .clearCache) (h : a.parse? l = none) :
    (l.perform a).cache.entries = l.cache.entries := by
  cases a with
  | look lookup =>
    have hafter : l.perform (.look lookup) = l := Lookup.after_of_parse_none h
    rw [hafter]
  | clearCache => exact absurd rfl hclear
  | advance span =>
    rw [perform, advance?, Cache.advance?]
    cases l.cache.now.after? span <;> rfl
  | setRefreshMinutes minutes => exact Cache.entries_setRefresh l.cache _
  | _ => rfl

/-- **The entry of a key changes only when the cache is cleared or a file is read that stores the key.** -/
theorem entry_perform_of_keeps (h : a.Keeps l key) :
    (l.perform a).cache.entries.get? key = l.cache.entries.get? key := by
  cases hparse : a.parse? l with
  | none => rw [entries_perform_of_parse_none h.1 hparse]
  | some p =>
    rw [entry_perform_of_parse hparse, Parse.last?_eq_none_iff.2 (h.2 p hparse)]
    rfl

theorem cache_look (l : Library) (lookup : Lookup) :
    (l.perform (.look lookup)).cache = { l.cache with entries := (l.perform (.look lookup)).cache.entries } := by
  cases hparse : lookup.parse? l with
  | none =>
    have hafter : l.perform (.look lookup) = l := Lookup.after_of_parse_none hparse
    rw [hafter]
  | some p =>
    have hafter : l.perform (.look lookup) = _ := Lookup.after_of_parse hparse
    rw [hafter]
    exact store_eq _ _ _ _

theorem now_look (l : Library) (lookup : Lookup) : (l.perform (.look lookup)).cache.now = l.cache.now := by
  rw [cache_look]

theorem window_look (l : Library) (lookup : Lookup) : (l.perform (.look lookup)).cache.window = l.cache.window := by
  rw [cache_look]
  rfl

theorem now_le_perform (l : Library) (a : Action) : l.cache.now.nanos ≤ (l.perform a).cache.now.nanos := by
  cases a with
  | look lookup => exact Int.le_of_eq (congrArg Instant.nanos (now_look l lookup).symm)
  | advance span =>
    rw [perform, advance?, Cache.advance?]
    cases hafter : l.cache.now.after? span with
    | none => exact Int.le_refl _
    | some now =>
      have hnow : now.nanos = l.cache.now.nanos + span.nanos := Instant.ofNanos?_eq_some.1 hafter
      change l.cache.now.nanos ≤ now.nanos
      omega
  | setRefreshMinutes minutes =>
    have hnow : (l.setRefreshMinutes minutes).cache.now = l.cache.now := Cache.now_setRefresh l.cache _
    exact Int.le_of_eq (congrArg Instant.nanos hnow.symm)
  | _ => exact Int.le_refl _

theorem now_le_run (l : Library) (actions : List Action) : l.cache.now.nanos ≤ (l.run actions).cache.now.nanos := by
  induction actions using List.reverseRecOn with
  | nil => exact Int.le_refl _
  | append_singleton actions a ih =>
    rw [run_append_singleton]
    exact Int.le_trans ih (now_le_perform _ a)

end Library
end Templates
