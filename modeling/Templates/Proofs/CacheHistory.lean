import Mathlib.Data.Finset.Card
import Templates.Proofs.Parses
/-!
# A cache and its history

A cache is told commands (`Cache.obey`), and what it answers depends on its past commands alone: a text is found when it was
the last one put under its key since the last clearing (`LastPut`) and the window of the interval set last has not passed by
the clock (`Cache.answersFrom_run`).  The clock and the interval are read off the past without any cache, in unbounded
integers.  The induction is on the past, one command at its end.
-/
namespace Templates

/-- What a cache is told. -/
inductive Command where
  | put (extension name text : Text)
  | clear
  | setRefresh (refresh : Span)
  | advance (span : Span)
  | get (extension name : Text)
  | containsFresh (extension name : Text)
  | size
  | isEmpty

inductive Answer where
  | done
  /-- There is no such instant. -/
  | failed
  | text (found : Option Text)
  | truth (holds : Bool)
  | number (n : Nat)
  deriving DecidableEq

namespace Command

/-- The time in nanoseconds after a command.  Only an advance moves it, unless it leads beyond the last instant. -/
def timeAfter (time : Int) : Command → Int
  | advance span =>
    if time + span.nanos < 0x8000000000000000 * (nanosPerSecond : Int) then time + span.nanos else time
  | _ => time

/-- The whole seconds of the refresh interval after a command. -/
def secondsAfter (seconds : Nat) : Command → Nat
  | setRefresh refresh => refresh.seconds
  | _ => seconds

/-- The keys that are in use after a command, where those before it are given. -/
def keysAfter (keys : List Text) : Command → List Text
  | put extension name _ => keys ++ [Name.fragmentKey extension name]
  | clear => []
  | _ => keys

/-- Whether a command leaves what is kept under a key alone. -/
def Spares (key : Text) : Command → Prop
  | put extension name _ => Name.fragmentKey extension name ≠ key
  | clear => False
  | _ => True

end Command

open Command (timeAfter secondsAfter keysAfter)

/-- The time in nanoseconds after some commands from a start on. -/
def clockAt (start : Instant) (past : List Command) : Int := past.foldl timeAfter start.nanos

/-- The whole seconds of the refresh interval set last. -/
def refreshAt (refresh : Span) (past : List Command) : Nat := past.foldl secondsAfter refresh.seconds

/-- The keys of what was put since the last clearing. -/
def keysAt (past : List Command) : List Text := past.foldl keysAfter []

/-- **The last text put under a key since the last clearing**, and the time of it. -/
def LastPut (start : Instant) (past : List Command) (key text : Text) (time : Int) : Prop :=
  ∃ before extension name later, past = before ++ .put extension name text :: later ∧
    Name.fragmentKey extension name = key ∧ (∀ a ∈ later, a.Spares key) ∧ time = clockAt start before

variable {start : Instant} {refresh : Span} {past : List Command} {a : Command} {key text : Text} {time : Int}

theorem clockAt_append_singleton : clockAt start (past ++ [a]) = a.timeAfter (clockAt start past) := by
  simp [clockAt]

theorem refreshAt_append_singleton : refreshAt refresh (past ++ [a]) = a.secondsAfter (refreshAt refresh past) := by
  simp [refreshAt]

theorem keysAt_append_singleton : keysAt (past ++ [a]) = a.keysAfter (keysAt past) := by
  simp [keysAt]

theorem not_lastPut_nil : ¬ LastPut start [] key text time := by
  rintro ⟨before, extension, name, later, h, -⟩
  simp at h

theorem lastPut_append_singleton : LastPut start (past ++ [a]) key text time ↔
    (∃ extension name, a = .put extension name text ∧ Name.fragmentKey extension name = key ∧ time = clockAt start past) ∨
      a.Spares key ∧ LastPut start past key text time := by
  constructor
  · rintro ⟨before, extension, name, later, hpast, hkey, hlater, htime⟩
    rcases List.eq_nil_or_concat later with rfl | ⟨later, b, rfl⟩
    · obtain ⟨rfl, ha⟩ := List.append_inj' hpast rfl
      cases ha
      exact .inl ⟨extension, name, rfl, hkey, htime⟩
    · rw [List.concat_eq_append] at hpast hlater
      rw [← List.cons_append, ← List.append_assoc] at hpast
      obtain ⟨rfl, ha⟩ := List.append_inj' hpast rfl
      cases ha
      exact .inr ⟨hlater a (by simp), before, extension, name, later, rfl, hkey, fun c hc => hlater c (by simp [hc]), htime⟩
  · rintro (⟨extension, name, rfl, hkey, htime⟩ | ⟨ha, before, extension, name, later, rfl, hkey, hlater, htime⟩)
    · exact ⟨past, extension, name, [], rfl, hkey, by simp, htime⟩
    · refine ⟨before, extension, name, later ++ [a], by simp, hkey, fun c hc => ?_, htime⟩
      rcases List.mem_append.1 hc with hc | hc
      · exact hlater c hc
      · rw [List.mem_singleton.1 hc]
        exact ha

namespace Cache

/-- What a cache answers to a command, and the cache afterwards.  A clock that cannot be moved on stays. -/
def obey (c : Cache) : Command → Answer × Cache
  | .put extension name text => (.done, c.put extension name text)
  | .clear => (.done, c.clear)
  | .setRefresh refresh => (.done, c.setRefresh refresh)
  | .advance span => match c.advance? span with
    | some after => (.done, after)
    | none => (.failed, c)
  | .get extension name => (.text (c.get? extension name), c)
  | .containsFresh extension name => (.truth (c.containsFresh extension name), c)
  | .size => (.number c.size, c)
  | .isEmpty => (.truth c.isEmpty, c)

/-- The cache after some commands. -/
def run (c : Cache) (commands : List Command) : Cache := commands.foldl (fun c a => (c.obey a).2) c

/-- What is kept under a key, with the time at which it was put there. -/
def kept? (c : Cache) (key : Text) : Option (Text × Int) := (c.entries.get? key).map fun e => (e.text, e.stored.nanos)

/-- **What a cache knows of its past**: the clock, the interval, and for each key the text that was put last. -/
structure Knows (c : Cache) (refresh : Span) (start : Instant) (past : List Command) : Prop where
  now : c.now.nanos = clockAt start past
  refresh : c.refresh = refreshAt refresh past
  kept : ∀ key text time, c.kept? key = some (text, time) ↔ LastPut start past key text time
  keys : ∀ key, key ∈ c.entries.keys ↔ key ∈ keysAt past

theorem run_append_singleton (c : Cache) (past : List Command) (a : Command) :
    c.run (past ++ [a]) = ((c.run past).obey a).2 := by
  simp [run]

theorem now_obey (c : Cache) (a : Command) : (c.obey a).2.now.nanos = a.timeAfter c.now.nanos := by
  cases a with
  | advance span =>
    rw [obey, advance?, Command.timeAfter]
    cases hafter : c.now.after? span with
    | none =>
      have hlate := Instant.after?_eq_none.1 hafter
      rw [if_neg (by omega)]
      rfl
    | some after =>
      have hnanos : after.nanos = c.now.nanos + span.nanos := Instant.ofNanos?_eq_some.1 hafter
      have hupper := after.upper
      rw [if_pos (by omega), ← hnanos]
      rfl
  | _ => rfl

theorem refresh_obey (c : Cache) (a : Command) : (c.obey a).2.refresh = a.secondsAfter c.refresh := by
  cases a with
  | advance span =>
    rw [obey, advance?]
    cases c.now.after? span <;> rfl
  | _ => rfl

/-- **Under a key is kept what a command puts there now**, or what was if the command leaves the key alone. -/
theorem kept?_obey (c : Cache) (a : Command) (key text : Text) (time : Int) :
    (c.obey a).2.kept? key = some (text, time) ↔
      (∃ extension name, a = .put extension name text ∧ Name.fragmentKey extension name = key ∧ time = c.now.nanos) ∨
        a.Spares key ∧ c.kept? key = some (text, time) := by
  cases a with
  | put extension name t =>
    rw [obey, Cache.put, kept?, Table.get?_insert]
    by_cases hkey : Name.fragmentKey extension name = key
    · simp [hkey, Command.Spares, eq_comm]
    · simp [hkey, Command.Spares, kept?]
  | clear => simp [obey, Cache.clear, kept?, Command.Spares]
  | advance span =>
    rw [obey, advance?]
    cases c.now.after? span <;> simp [kept?, Command.Spares]
  | _ => simp [obey, setRefresh, kept?, Command.Spares]

theorem mem_keys_obey (c : Cache) (a : Command) {keys : List Text} (h : ∀ key, key ∈ c.entries.keys ↔ key ∈ keys)
    (key : Text) : key ∈ (c.obey a).2.entries.keys ↔ key ∈ a.keysAfter keys := by
  cases a with
  | put extension name text =>
    rw [obey, Cache.put, Table.keys_insert, Command.keysAfter, List.mem_append, ← h, List.mem_singleton]
    split
    · next hin =>
      constructor
      · exact .inl
      · rintro (hkey | rfl)
        · exact hkey
        · exact hin
    · rw [List.mem_append, List.mem_singleton]
  | clear => simp [obey, Cache.clear, Command.keysAfter, Table.keys, Table.empty]
  | advance span =>
    rw [obey, advance?]
    cases c.now.after? span <;> exact h key
  | _ => exact h key

/-- **A run from an empty cache knows its past.** -/
theorem knows_run (refresh : Span) (start : Instant) (past : List Command) :
    ((empty refresh start).run past).Knows refresh start past := by
  induction past using List.reverseRecOn with
  | nil => exact ⟨rfl, rfl, fun key t time => iff_of_false (fun h => by cases h) not_lastPut_nil, fun key => Iff.rfl⟩
  | append_singleton past a ih =>
    rw [run_append_singleton]
    refine ⟨?_, ?_, fun key t time => ?_, fun key => ?_⟩
    · rw [now_obey, ih.now, clockAt_append_singleton]
    · rw [refresh_obey, ih.refresh, refreshAt_append_singleton]
    · rw [kept?_obey, ih.kept, ih.now, lastPut_append_singleton]
    · rw [mem_keys_obey _ a ih.keys, keysAt_append_singleton]

/-- **What a cache answers**, told from its past alone. -/
structure AnswersFrom (c : Cache) (refresh : Span) (start : Instant) (past : List Command) : Prop where
  get : ∀ extension name t, c.obey (.get extension name) = (.text (some t), c) ↔
    ∃ time, LastPut start past (Name.fragmentKey extension name) t time ∧
      clockAt start past < time + max (refreshAt refresh past) 5 * (nanosPerSecond : Int)
  containsFresh : ∀ extension name, ∃ found, c.obey (.get extension name) = (.text found, c) ∧
    c.obey (.containsFresh extension name) = (.truth found.isSome, c)
  size : c.obey .size = (.number (keysAt past).toFinset.card, c)
  isEmpty : c.obey .isEmpty = (.truth (decide ((keysAt past).toFinset.card = 0)), c)
  advance : ∀ span, c.obey (.advance span) = (.failed, c) ↔
    0x8000000000000000 * (nanosPerSecond : Int) ≤ clockAt start past + span.nanos

theorem Knows.size_eq {c : Cache} (h : c.Knows refresh start past) : c.size = (keysAt past).toFinset.card := by
  have hkeys : c.entries.keys.toFinset = (keysAt past).toFinset := by
    ext key
    rw [List.mem_toFinset, List.mem_toFinset, h.keys]
  have hnodup : c.entries.keys.Nodup := c.entries.nodup
  rw [← hkeys, List.toFinset_card_of_nodup hnodup]
  exact (List.length_map Prod.fst).symm

theorem isEmpty_eq (c : Cache) : c.isEmpty = decide (c.size = 0) := by
  rw [isEmpty, size, Table.size]
  cases c.entries.pairs <;> rfl

theorem get?_eq_some_iff_kept {c : Cache} {extension name t : Text} : c.get? extension name = some t ↔
    ∃ time, c.kept? (Name.fragmentKey extension name) = some (t, time) ∧ c.now.nanos < time + c.window.nanos := by
  simp only [get?_eq_some_iff, kept?, Option.map_eq_some_iff, Prod.mk.injEq]
  constructor
  · rintro ⟨e, he, hfresh, ht⟩
    exact ⟨e.stored.nanos, ⟨e, he, ht, rfl⟩, hfresh⟩
  · rintro ⟨time, ⟨e, he, ht, rfl⟩, hfresh⟩
    exact ⟨e, he, hfresh, ht⟩

/-- **The cache is what its past makes of it.**  In every run from an empty cache a text is found exactly when it was the last
one put under its key since the last clearing and its window has not passed. -/
theorem answersFrom_run (refresh : Span) (start : Instant) (past : List Command) :
    ((empty refresh start).run past).AnswersFrom refresh start past := by
  have hknows := knows_run refresh start past
  generalize (empty refresh start).run past = c at hknows ⊢
  have hwindow : (c.window.nanos : Int) = max (refreshAt refresh past) 5 * (nanosPerSecond : Int) := by
    rw [← hknows.refresh]
    rfl
  refine ⟨fun extension name t => ?_, fun extension name => ⟨_, rfl, ?_⟩, ?_, ?_, fun span => ?_⟩
  · have hget : c.obey (.get extension name) = (.text (some t), c) ↔ c.get? extension name = some t := by
      simp [obey]
    simp only [hget, get?_eq_some_iff_kept, hknows.kept, hwindow, hknows.now]
  · rw [obey, containsFresh_eq]
  · rw [obey, hknows.size_eq]
  · rw [obey, isEmpty_eq, hknows.size_eq]
  · rw [obey, advance?, ← hknows.now, ← Instant.after?_eq_none]
    cases c.now.after? span <;> simp

end Cache
end Templates
