import Templates.Instant
import Templates.Name
import Templates.Table
/-!
# The fragment cache

The cache keeps the written-out text of fragments under their keys, with the instant at which each was stored.  An entry is
fresh for the window of the cache, which is its refresh interval but never less than five seconds, and only fresh entries
are found.  A stale entry stays until it is stored anew or everything is cleared.  The cache has a clock of its own, which
moves by `advance?`.
-/
namespace Templates

structure Entry where
  text : Text
  stored : Instant
  deriving DecidableEq

/-- Whether an entry still counts at an instant, for a window.  One that would expire after the last instant always does. -/
def Entry.isFresh (e : Entry) (now : Instant) (window : Span) : Bool :=
  match e.stored.after? window with
  | some expiry => decide (now.nanos < expiry.nanos)
  | none => true

/-- The texts of fragments, the refresh interval in seconds and the present instant. -/
structure Cache where
  entries : Table Text Entry
  refresh : Nat
  now : Instant

namespace Cache

/-- The least number of seconds for which an entry is fresh, so that a burst of requests to one file reads it once. -/
def leastSeconds : Nat := 5

/-- The cache with no entry.  Of the interval only whole seconds count. -/
def empty (refresh : Span) (now : Instant) : Cache := ⟨.empty, refresh.seconds, now⟩

def window (c : Cache) : Span := .ofSeconds (max c.refresh leastSeconds)

def get? (c : Cache) (extension name : Text) : Option Text :=
  match c.entries.get? (Name.fragmentKey extension name) with
  | some e => if e.isFresh c.now c.window then some e.text else none
  | none => none

def containsFresh (c : Cache) (extension name : Text) : Bool :=
  (c.entries.get? (Name.fragmentKey extension name)).any fun e => e.isFresh c.now c.window

def put (c : Cache) (extension name text : Text) : Cache :=
  { c with entries := c.entries.insert (Name.fragmentKey extension name) ⟨text, c.now⟩ }

def clear (c : Cache) : Cache := { c with entries := .empty }

/-- The cache with another refresh interval, for the entries that it has as well. -/
def setRefresh (c : Cache) (refresh : Span) : Cache := { c with refresh := refresh.seconds }

theorem entries_setRefresh (c : Cache) (refresh : Span) : (c.setRefresh refresh).entries = c.entries := rfl

theorem now_setRefresh (c : Cache) (refresh : Span) : (c.setRefresh refresh).now = c.now := rfl

def size (c : Cache) : Nat := c.entries.size

def isEmpty (c : Cache) : Bool := c.entries.pairs.isEmpty

/-- The cache with its clock moved on; nothing when there is no such instant. -/
def advance? (c : Cache) (span : Span) : Option Cache := (c.now.after? span).map fun now => { c with now }

/-- A refresh interval in words: whole seconds, and none of them as no nanoseconds. -/
def intervalText (seconds : Nat) : Text :=
  if seconds = 0 then "0ns".toList else (toString seconds ++ "s").toList

def summary (c : Cache) : Text :=
  "FragmentCache \x7b entries: ".toList ++ (toString c.size).toList ++ ", refresh: ".toList ++
    intervalText c.refresh ++ ", clock: SystemClock \x7d".toList

end Cache
end Templates
