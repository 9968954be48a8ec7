import Templates.Proofs.Runs
/-!
# How long entries are fresh

A clock gives its instants in words: signed seconds and the nanoseconds within a second, and spans have unsigned seconds.  Adding
a span to an instant carries nanoseconds over and can go beyond the words, which is found out by comparing words
(`Word.addUnsigned?`).  In words and in nanoseconds that is the same (`Instant.Words.after?_toInstant`), and so is freshness
(`Instant.Words.isFresh_eq`).  Minutes become seconds without wrapping around (`Word.toNat_saturatingMul`), and the window that
comes of them (`Settings.window`) stays until another interval is set (`Library.window_run`).
-/
namespace Templates

namespace Word

/-- The sum of a signed word and an unsigned one, unless it goes beyond the signed words: then the sum wraps around and is less
than the signed word. -/
def addUnsigned? (a : Int64) (b : UInt64) : Option Int64 :=
  if a + b.toInt64 < a then none else some (a + b.toInt64)

/-- The product of two words, or the greatest word where it does not fit one. -/
def saturatingMul (a b : UInt64) : UInt64 :=
  if 0 < b ∧ 0xFFFFFFFFFFFFFFFF / b < a then 0xFFFFFFFFFFFFFFFF else a * b

theorem toInt_add_toInt64 (a : Int64) (b : UInt64) :
    (a + b.toInt64).toInt =
      if a.toInt + b.toNat < 0x8000000000000000 then a.toInt + b.toNat
      else a.toInt + b.toNat - 0x10000000000000000 := by
  have hlower := a.le_toInt
  have hupper := a.toInt_lt
  have hb := b.toNat_lt
  have hword : b.toInt64.toInt = (b.toNat : Int).bmod (2 ^ 64) := by
    rw [← Int64.toInt_toBitVec, UInt64.toBitVec_toInt64, BitVec.toInt_eq_toNat_bmod, UInt64.toNat_toBitVec]
  rw [Int64.toInt_add, hword, Int.add_bmod_bmod]
  -- the sum wraps around once at most
  split
  · exact Int.bmod_eq_of_le (by omega) (by omega)
  · rw [← Int.sub_bmod_right]
    exact Int.bmod_eq_of_le (by omega) (by omega)

theorem addUnsigned?_eq_none_iff {a : Int64} {b : UInt64} :
    addUnsigned? a b = none ↔ 0x8000000000000000 ≤ a.toInt + b.toNat := by
  have hsum := toInt_add_toInt64 a b
  have hb := b.toNat_lt
  have hless : a + b.toInt64 < a ↔ 0x8000000000000000 ≤ a.toInt + b.toNat := by
    rw [Int64.lt_iff_toInt_lt, hsum]
    split <;> omega
  simp [addUnsigned?, hless]

/-- **The sum is exact**, or else goes beyond the signed words. -/
theorem toInt_of_addUnsigned? {a c : Int64} {b : UInt64} (h : addUnsigned? a b = some c) : c.toInt = a.toInt + b.toNat := by
  have hfits : ¬ 0x8000000000000000 ≤ a.toInt + b.toNat := by
    rw [← addUnsigned?_eq_none_iff, h]
    exact Option.some_ne_none c
  unfold addUnsigned? at h
  split at h
  · cases h
  · cases h
    rw [toInt_add_toInt64, if_pos (Int.not_le.1 hfits)]

theorem toNat_saturatingMul (a b : UInt64) : (saturatingMul a b).toNat = min (a.toNat * b.toNat) 0xFFFFFFFFFFFFFFFF := by
  have hmost : (0xFFFFFFFFFFFFFFFF : UInt64).toNat = 0xFFFFFFFFFFFFFFFF := rfl
  have hover : 0 < b ∧ 0xFFFFFFFFFFFFFFFF / b < a ↔ 0xFFFFFFFFFFFFFFFF < a.toNat * b.toNat := by
    simp only [UInt64.lt_iff_toNat_lt, UInt64.toNat_div, hmost, UInt64.toNat_zero]
    constructor
    · rintro ⟨hb, hless⟩
      exact (Nat.div_lt_iff_lt_mul hb).1 hless
    · intro h
      have hb : 0 < b.toNat := Nat.pos_of_ne_zero fun hzero => by simp [hzero] at h
      exact ⟨hb, (Nat.div_lt_iff_lt_mul hb).2 h⟩
  unfold saturatingMul
  split
  · next h => rw [hmost, Nat.min_eq_right (Nat.le_of_lt (hover.1 h))]
  · next h =>
    have hle := Nat.not_lt.1 (mt hover.2 h)
    rw [UInt64.toNat_mul, Nat.mod_eq_of_lt (by omega), Nat.min_eq_left hle]

theorem toNat_max (a b : UInt64) : (max a b).toNat = max a.toNat b.toNat := by
  have hmax : max a b = if a ≤ b then b else a := rfl
  rw [hmax, Nat.max_def]
  simp only [UInt64.le_iff_toNat_le]
  split <;> rfl

end Word

/-! ### Instants and spans in words -/

open Word

/-- An instant as the clock gives it: whole seconds from the epoch, and nanoseconds from there on. -/
structure Instant.Words where
  seconds : Int64
  nanos : Fin nanosPerSecond
  deriving DecidableEq

/-- A span as whole seconds and nanoseconds. -/
structure Span.Words where
  seconds : UInt64
  nanos : Fin nanosPerSecond
  deriving DecidableEq

namespace Span.Words

def toNanos (s : Words) : Nat := s.seconds.toNat * nanosPerSecond + s.nanos

def toSpan (s : Words) : Span := ⟨s.toNanos⟩

/-- A span of some minutes, or the longest one of whole seconds, and never less than five seconds. -/
def window (minutes : UInt64) : Words := ⟨max (saturatingMul minutes 60) 5, 0, by decide⟩

end Span.Words

namespace Instant.Words

variable {w v : Words}

def toNanos (w : Words) : Int := w.seconds.toInt * nanosPerSecond + w.nanos

def toInstant (w : Words) : Instant where
  nanos := w.toNanos
  lower := by
    have hlower := w.seconds.le_toInt
    simp only [toNanos, nanosPerSecond]
    omega
  upper := by
    have hupper := w.seconds.toInt_lt
    have hnanos := w.nanos.isLt
    simp only [toNanos, nanosPerSecond] at hnanos ⊢
    omega

/-- Whether an instant comes before another one: by its seconds, or within the same second by its nanoseconds. -/
def isBefore (w v : Words) : Bool := w.seconds < v.seconds || (w.seconds == v.seconds && w.nanos < v.nanos)

/-- The instant a span later.  Nanoseconds that make up a second are carried over, and both sums of seconds can go beyond the
words. -/
def after? (w : Words) (s : Span.Words) : Option Words := do
  let seconds ← addUnsigned? w.seconds s.seconds
  if h : w.nanos.val + s.nanos.val < nanosPerSecond then return ⟨seconds, w.nanos.val + s.nanos.val, h⟩
  else
    let seconds ← addUnsigned? seconds 1
    return ⟨seconds, w.nanos.val + s.nanos.val - nanosPerSecond, by omega⟩

/-- Whether what was stored at an instant is fresh at another one.  It is if the window ends at no instant. -/
def isFresh (stored now : Words) (window : Span.Words) : Bool :=
  match stored.after? window with
  | some expiry => now.isBefore expiry
  | none => true

theorem isBefore_iff : w.isBefore v = true ↔ w.toNanos < v.toNanos := by
  have hw := w.nanos.isLt
  have hv := v.nanos.isLt
  simp only [isBefore, Bool.or_eq_true, Bool.and_eq_true, decide_eq_true_eq, beq_iff_eq, Int64.lt_iff_toInt_lt,
    ← Int64.toInt_inj, Fin.lt_def, toNanos]
  simp only [nanosPerSecond] at hw hv ⊢
  omega

/-- What is carried over is not lost. -/
theorem toNanos_of_after? {s : Span.Words} (h : w.after? s = some v) : v.toNanos = w.toNanos + s.toNanos := by
  obtain ⟨seconds, hseconds, h⟩ := Option.bind_eq_some_iff.1 h
  have hsum := toInt_of_addUnsigned? hseconds
  simp only [toNanos, Span.Words.toNanos]
  split at h
  · cases h
    simp only [nanosPerSecond]
    omega
  · next hcarry =>
    obtain ⟨carried, hcarried, h⟩ := Option.bind_eq_some_iff.1 h
    have hone := toInt_of_addUnsigned? hcarried
    have hword : (1 : UInt64).toNat = 1 := rfl
    cases h
    simp only [nanosPerSecond] at hcarry ⊢
    omega

theorem after?_eq_none_iff {s : Span.Words} :
    w.after? s = none ↔ 0x8000000000000000 * (nanosPerSecond : Int) ≤ w.toNanos + s.toNanos := by
  have hw := w.nanos.isLt
  have hs := s.nanos.isLt
  constructor
  · intro h
    simp only [toNanos, Span.Words.toNanos]
    cases hseconds : addUnsigned? w.seconds s.seconds with
    | none =>
      have hlate := addUnsigned?_eq_none_iff.1 hseconds
      simp only [nanosPerSecond]
      omega
    | some seconds =>
      have hsum := toInt_of_addUnsigned? hseconds
      simp only [after?, hseconds, Option.bind_eq_bind, Option.bind_some] at h
      split at h
      · cases h
      · -- the seconds fit, and the second that is carried over does not
        next hcarry =>
        cases hcarried : addUnsigned? seconds 1 with
        | none =>
          have hlate := addUnsigned?_eq_none_iff.1 hcarried
          have hword : (1 : UInt64).toNat = 1 := rfl
          simp only [nanosPerSecond] at hcarry ⊢
          omega
        | some carried =>
          rw [hcarried] at h
          cases h
  · intro hlate
    by_contra hsome
    obtain ⟨v, hv⟩ := Option.ne_none_iff_exists'.1 hsome
    have hupper : v.toNanos < 0x8000000000000000 * (nanosPerSecond : Int) := v.toInstant.upper
    rw [toNanos_of_after? hv] at hupper
    omega

/-- **Adding words is adding nanoseconds.** -/
theorem after?_toInstant (w : Words) (s : Span.Words) : (w.after? s).map toInstant = w.toInstant.after? s.toSpan := by
  cases h : w.after? s with
  | none => exact (Instant.after?_eq_none.2 (after?_eq_none_iff.1 h)).symm
  | some v => exact (Instant.ofNanos?_eq_some.2 (toNanos_of_after? h)).symm

/-- **Freshness in words is freshness in nanoseconds**, also where the window ends beyond the words. -/
theorem isFresh_eq (text : Text) (stored now : Words) (window : Span.Words) :
    stored.isFresh now window = Entry.isFresh ⟨text, stored.toInstant⟩ now.toInstant window.toSpan := by
  rw [isFresh, Entry.isFresh, ← after?_toInstant]
  cases stored.after? window with
  | none => rfl
  | some expiry => exact Bool.eq_iff_iff.2 (isBefore_iff.trans decide_eq_true_iff.symm)

/-- Every instant has words. -/
theorem exists_words (i : Instant) : ∃ w : Words, w.toInstant = i := by
  have hlower := i.lower
  have hupper := i.upper
  have hnanos : (i.nanos % nanosPerSecond).toNat < nanosPerSecond := by
    simp only [nanosPerSecond]
    omega
  have hseconds : (Int64.ofInt (i.nanos / nanosPerSecond)).toInt = i.nanos / nanosPerSecond := by
    simp only [nanosPerSecond] at hlower hupper ⊢
    exact Int64.toInt_ofInt_of_le (by omega) (by omega)
  have hsame : toNanos ⟨.ofInt (i.nanos / nanosPerSecond), (i.nanos % nanosPerSecond).toNat, hnanos⟩ = i.nanos := by
    rw [toNanos, hseconds]
    simp only [nanosPerSecond]
    omega
  exact ⟨_, (Instant.mk.injEq ..).mpr hsame⟩

end Instant.Words

/-! ### Windows -/

/-- How long an entry is fresh if it is kept for some minutes. -/
def Settings.window (minutes : Nat) : Span := .ofSeconds (max (min (60 * minutes) 0xFFFFFFFFFFFFFFFF) 5)

theorem Settings.window_mono {m m' : Nat} (h : m ≤ m') : (window m).nanos ≤ (window m').nanos :=
  Nat.mul_le_mul_right _ (by omega)

theorem Span.Words.toSpan_window (minutes : UInt64) : (window minutes).toSpan = Settings.window minutes.toNat := by
  have hseconds : (max (saturatingMul minutes 60) 5).toNat = max (min (60 * minutes.toNat) 0xFFFFFFFFFFFFFFFF) 5 := by
    rw [toNat_max, toNat_saturatingMul, Nat.mul_comm]
    rfl
  rw [toSpan, toNanos, window, hseconds, Settings.window, Span.ofSeconds]
  simp only [Nat.add_zero]

/-- Whether an action sets the refresh interval. -/
def Action.SetsInterval : Action → Prop
  | .setRefresh _ => True
  | .setRefreshMinutes _ => True
  | _ => False

namespace Library

theorem window_setRefreshMinutes (l : Library) (m : Nat) : (l.setRefreshMinutes m).cache.window = Settings.window m := by
  have hseconds : (Span.ofSeconds (Settings.minutesInSeconds m)).seconds = Settings.minutesInSeconds m :=
    Nat.mul_div_cancel _ (by decide)
  rw [setRefreshMinutes, Cache.setRefresh, Cache.window, hseconds, Settings.minutesInSeconds, Nat.mul_comm]
  rfl

theorem window_ofSettings (s : Settings) (files : Files.Tree) (now : Instant) :
    (ofSettings s files now).cache.window = Settings.window s.refreshMinutes :=
  window_setRefreshMinutes (ofSettings s files now) s.refreshMinutes

theorem window_perform {a : Action} (h : ¬ a.SetsInterval) (l : Library) :
    (l.perform a).cache.window = l.cache.window := by
  cases a with
  | look lookup => exact window_look l lookup
  | advance span =>
    rw [perform, advance?, Cache.advance?]
    cases l.cache.now.after? span <;> rfl
  | setRefresh refresh => exact absurd trivial h
  | setRefreshMinutes minutes => exact absurd trivial h
  | _ => rfl

/-- **The window stays** until another interval is set. -/
theorem window_run {actions : List Action} (h : ∀ a ∈ actions, ¬ a.SetsInterval) (l : Library) :
    (l.run actions).cache.window = l.cache.window := by
  induction actions using List.reverseRecOn with
  | nil => rfl
  | append_singleton actions a ih =>
    rw [run_append_singleton, window_perform (h a (by simp)), ih fun b hb => h b (by simp [hb])]

/-- A longer interval loses no answer. -/
theorem get?_setRefreshMinutes_mono {m m' : Nat} (h : m ≤ m') {l : Library} {extension name t : Text}
    (hfresh : (l.setRefreshMinutes m).cache.get? extension name = some t) :
    (l.setRefreshMinutes m').cache.get? extension name = some t := by
  have hentries : ∀ minutes, (l.setRefreshMinutes minutes).cache.entries = l.cache.entries := fun minutes =>
    Cache.entries_setRefresh l.cache _
  have hnow : ∀ minutes, (l.setRefreshMinutes minutes).cache.now = l.cache.now := fun minutes => Cache.now_setRefresh l.cache _
  have hwindow := Settings.window_mono h
  rw [Cache.get?_eq_some_iff, hentries, hnow, window_setRefreshMinutes] at hfresh ⊢
  obtain ⟨e, he, hbefore, htext⟩ := hfresh
  exact ⟨e, he, by omega, htext⟩

/-- **Freshness is exact to the end of the clock.**  An entry is fresh at an instant that comes before the end of its window as
a whole number of nanoseconds.  That is so in words as well, for every instant that there is: the words are compared and added
with a carry, and a sum beyond the words means that the entry is fresh.  The window of a library whose interval is set to some
minutes, or which is made with such settings, is that many seconds as long as they fit a word, and never less than five, for as
long as no other interval is set, and in words nothing is lost.  An answer for one interval is the answer for every longer one. -/
theorem freshness_exact :
    (∀ (e : Entry) (now : Instant) (window : Span),
      e.isFresh now window = true ↔ now.nanos < e.stored.nanos + window.nanos) ∧
    (∀ (stored now : Instant.Words) (window : Span.Words),
      (stored.isFresh now window = true ↔ now.toNanos < stored.toNanos + window.toNanos) ∧
      ∀ text, Entry.isFresh ⟨text, stored.toInstant⟩ now.toInstant window.toSpan = stored.isFresh now window) ∧
    (∀ i : Instant, ∃ w : Instant.Words, w.toInstant = i) ∧
    (∀ m : UInt64, (Span.Words.window m).toSpan = Settings.window m.toNat) ∧
    (∀ (l : Library) (m : Nat) (actions : List Action), (∀ a ∈ actions, ¬ a.SetsInterval) →
      ((l.setRefreshMinutes m).run actions).cache.window = .ofSeconds (max (min (60 * m) 0xFFFFFFFFFFFFFFFF) 5)) ∧
    (∀ (s : Settings) (files : Files.Tree) (now : Instant) (actions : List Action), (∀ a ∈ actions, ¬ a.SetsInterval) →
      ((ofSettings s files now).run actions).cache.window =
        .ofSeconds (max (min (60 * s.refreshMinutes) 0xFFFFFFFFFFFFFFFF) 5)) ∧
    ∀ (l : Library) (m m' : Nat), m ≤ m' → ∀ extension name t,
      (l.setRefreshMinutes m).cache.get? extension name = some t →
        (l.setRefreshMinutes m').cache.get? extension name = some t := by
  refine ⟨fun e now window => Entry.isFresh_iff, fun stored now window => ?_, Instant.Words.exists_words,
    Span.Words.toSpan_window, fun l m actions h => ?_, fun s files now actions h => ?_,
    fun l m m' h extension name t hfresh => get?_setRefreshMinutes_mono h hfresh⟩
  · have hsame := fun text => Instant.Words.isFresh_eq text stored now window
    exact ⟨by rw [hsame []]; exact Entry.isFresh_iff, fun text => (hsame text).symm⟩
  · rw [window_run h, window_setRefreshMinutes, Settings.window]
  · rw [window_run h, window_ofSettings, Settings.window]

/-- At the ends of the clock: an entry as old as the clock allows is just not fresh any more for the longest interval, and one
that was stored at the last instant is fresh, as its window ends at no instant. -/
theorem freshness_of_longest_interval :
    let earliest : Instant.Words := ⟨Int64.minValue, 0, by decide⟩
    let latest : Instant.Words := ⟨Int64.maxValue, 999999999, by decide⟩
    let l : Library := { ofSettings .standard .empty latest.toInstant with
      cache := ⟨.ofList [("html.page".toList, ⟨['x'], latest.toInstant⟩)], 900, latest.toInstant⟩ }
    let actions := [Action.advance (.ofSeconds 5)]
    (∀ a ∈ actions, ¬ a.SetsInterval) ∧
      ((l.setRefreshMinutes 0xFFFFFFFFFFFFFFFF).run actions).cache.window = .ofSeconds 0xFFFFFFFFFFFFFFFF ∧
      earliest.isFresh latest (.window 0xFFFFFFFFFFFFFFFF) = false ∧
      latest.isFresh latest (.window 0) = true ∧
      (l.setRefreshMinutes 0).cache.get? "html".toList "page".toList = some ['x'] ∧
      (l.setRefreshMinutes 0xFFFFFFFFFFFFFFFF).cache.get? "html".toList "page".toList = some ['x'] := by
  intro earliest latest l actions
  obtain ⟨-, hwords, -, -, hset, -, hmono⟩ := freshness_exact
  have hactions : ∀ a ∈ actions, ¬ a.SetsInterval := by simp [actions, Action.SetsInterval]
  have hshort : (l.setRefreshMinutes 0).cache.get? "html".toList "page".toList = some ['x'] := by decide +kernel
  refine ⟨hactions, ?_, ?_, ?_, hshort, hmono l 0 0xFFFFFFFFFFFFFFFF (Nat.zero_le _) _ _ _ hshort⟩
  · rw [hset l _ actions hactions]
    decide +kernel
  · rw [← Bool.not_eq_true, (hwords earliest latest _).1]
    decide +kernel
  · rw [(hwords latest latest _).1]
    decide +kernel

end Library

end Templates
