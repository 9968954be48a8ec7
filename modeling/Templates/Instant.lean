/-!
# Instants

An instant counts nanoseconds from an epoch, before it or after it.  Its whole seconds fit a signed word of 64 bits, so the
sum of an instant and a span may be no instant any more (`Instant.after?`).
-/
namespace Templates

def nanosPerSecond : Nat := 1000000000

structure Span where
  nanos : Nat
  deriving DecidableEq, Repr

namespace Span

def ofSeconds (seconds : Nat) : Span := ⟨seconds * nanosPerSecond⟩

def seconds (s : Span) : Nat := s.nanos / nanosPerSecond

end Span

/-- A point of time whose whole seconds from the epoch fit a signed word of 64 bits. -/
structure Instant where
  nanos : Int
  lower : -0x8000000000000000 * (nanosPerSecond : Int) ≤ nanos
  upper : nanos < 0x8000000000000000 * (nanosPerSecond : Int)
  deriving DecidableEq

namespace Instant

def ofNanos? (nanos : Int) : Option Instant :=
  if h : -0x8000000000000000 * (nanosPerSecond : Int) ≤ nanos ∧ nanos < 0x8000000000000000 * (nanosPerSecond : Int) then
    some ⟨nanos, h.1, h.2⟩
  else none

/-- Where a clock starts that nobody has set: a billion seconds after the epoch. -/
def clockStart : Instant := ⟨1000000000 * (nanosPerSecond : Int), by decide, by decide⟩

def after? (i : Instant) (s : Span) : Option Instant := ofNanos? (i.nanos + s.nanos)

/-- The whole seconds and the nanoseconds from the epoch; nothing for an instant before it. -/
def sinceEpoch? (i : Instant) : Option (Nat × Nat) :=
  if 0 ≤ i.nanos then some (i.nanos.toNat / nanosPerSecond, i.nanos.toNat % nanosPerSecond) else none

theorem ofNanos?_eq_some {n : Int} {i : Instant} : ofNanos? n = some i ↔ i.nanos = n := by
  unfold ofNanos?
  constructor
  · intro h
    split at h
    · cases h; rfl
    · cases h
  · rintro rfl
    rw [dif_pos ⟨i.lower, i.upper⟩]

/-- A span leads out of the instants only at their late end. -/
theorem after?_eq_none {i : Instant} {s : Span} :
    i.after? s = none ↔ 0x8000000000000000 * (nanosPerSecond : Int) ≤ i.nanos + s.nanos := by
  have := i.lower
  unfold after? ofNanos?
  split
  · simp; omega
  · simp; omega

end Instant
end Templates
