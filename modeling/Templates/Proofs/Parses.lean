import Mathlib.Data.List.Induction
import Templates.Library.Basic
import Templates.Proofs.Deliveries
/-!
# What a request reads

A request is answered by the cache, or its file cannot be opened, or cannot be read to its end, or is read (`loadBy_of_fresh`,
`loadBy_of_unopened`, `loadBy_of_unread`, `loadBy_of_read`, however files are opened).  A file that is read (`Library.parse?`) has
every fragment stored, the last one for each key (`Library.entries_store`).  A request that reads no file leaves the library as it
was (`Library.load_of_parse_none`), and a text that is loaded is fresh in the cache afterwards (`Library.get?_of_load`).
-/
namespace Templates

/-- **An entry is fresh before the end of its window**, which may lie behind the last instant. -/
theorem Entry.isFresh_iff {e : Entry} {now : Instant} {window : Span} :
    e.isFresh now window = true ↔ now.nanos < e.stored.nanos + window.nanos := by
  unfold isFresh
  cases h : e.stored.after? window with
  | none =>
    have hlate := Instant.after?_eq_none.1 h
    have hnow := now.upper
    simp only [true_iff]
    omega
  | some expiry =>
    have hexpiry : expiry.nanos = e.stored.nanos + window.nanos := Instant.ofNanos?_eq_some.1 h
    rw [← hexpiry]
    exact decide_eq_true_iff

theorem Cache.get?_eq_some_iff {c : Cache} {extension name t : Text} :
    c.get? extension name = some t ↔ ∃ e, c.entries.get? (Name.fragmentKey extension name) = some e ∧
      c.now.nanos < e.stored.nanos + c.window.nanos ∧ e.text = t := by
  unfold get?
  cases c.entries.get? (Name.fragmentKey extension name) with
  | none => simp
  | some e =>
    simp only [Option.some.injEq, exists_eq_left', ← Entry.isFresh_iff]
    split
    · next h => simp [h]
    · next h => simp [h]

theorem Cache.get?_eq_none_iff {c : Cache} {extension name : Text} :
    c.get? extension name = none ↔ ∀ e, c.entries.get? (Name.fragmentKey extension name) = some e →
      e.stored.nanos + c.window.nanos ≤ c.now.nanos := by
  rw [Option.eq_none_iff_forall_ne_some]
  constructor
  · intro h e he
    exact Int.not_lt.1 fun hfresh => h e.text (get?_eq_some_iff.2 ⟨e, he, hfresh, rfl⟩)
  · intro h t ht
    obtain ⟨e, he, hfresh, -⟩ := get?_eq_some_iff.1 ht
    exact Int.not_lt.2 (h e he) hfresh

/-- A fresh entry is there exactly when one is found. -/
theorem Cache.containsFresh_eq (c : Cache) (extension name : Text) :
    c.containsFresh extension name = (c.get? extension name).isSome := by
  unfold containsFresh get?
  cases c.entries.get? (Name.fragmentKey extension name) with
  | none => rfl
  | some e => cases hfresh : e.isFresh c.now c.window <;> simp [hfresh]

theorem Cache.isFresh_now (c : Cache) (t : Text) : Entry.isFresh ⟨t, c.now⟩ c.now c.window = true := by
  have hleast : 5 ≤ max c.refresh leastSeconds := Nat.le_max_right _ _
  have hwindow : c.window.nanos = max c.refresh leastSeconds * 1000000000 := rfl
  rw [Entry.isFresh_iff]
  simp only
  omega

theorem Files.Tree.open?_of_read? {files : Files.Tree} {path : Text} {bytes : List UInt8} (h : files.read? path = .ok bytes) :
    files.open? path = .ok ((lines bytes).map .ok) := by
  unfold read? at h
  unfold open?
  split at h
  · cases h
  · cases h
  · cases h
    rfl

/-- A folder can be opened, but its first line is the fault that reading it is. -/
theorem Files.Tree.open?_of_read?_error {files : Files.Tree} {path : Text} {fault : Fault}
    (h : files.read? path = .error fault) :
    files.open? path = .error fault ∨ fault = .isFolder ∧ files.open? path = .ok [.error .isFolder] := by
  unfold read? at h
  unfold open?
  split at h
  · cases h
    exact .inl rfl
  · cases h
    exact .inr ⟨rfl, rfl⟩
  · cases h

/-- A file that was read for a request. -/
structure Parse where
  time : Instant
  stem : Text
  extension : Text
  bytes : List UInt8

namespace Parse

def fragments (p : Parse) : List Fragment :=
  (Fragment.ofLines (ε := Fault) p.stem ((Files.Tree.lines p.bytes).map .ok)).fragments

/-- Whether a fragment of the file is kept under a key. -/
def Stores (p : Parse) (key : Text) : Prop := ∃ f ∈ p.fragments, Name.fragmentKey p.extension f.name = key

/-- The last fragment of the file that is kept under a key. -/
def last? (p : Parse) (key : Text) : Option Fragment :=
  (p.fragments.filter fun f => Name.fragmentKey p.extension f.name = key).getLast?

/-- What is kept of a fragment of the file. -/
def entry (p : Parse) (f : Fragment) : Entry := ⟨Tag.longForm p.stem f.body, p.time⟩

theorem last?_eq_none_iff {p : Parse} {key : Text} : p.last? key = none ↔ ¬ p.Stores key := by
  simp [last?, Stores]

end Parse

namespace Library

/-- The file that is read for a request, unless the cache answers it or there is none. -/
def parse? (l : Library) (name extension : Text) : Option Parse :=
  if l.cache.containsFresh extension name then none
  else match l.files.read? (l.locate name extension) with
    | .ok bytes => some ⟨l.cache.now, Name.requestStem name, extension, bytes⟩
    | .error _ => none

theorem store_append_singleton (cache : Cache) (stem extension : Text) (fragments : List Fragment) (f : Fragment) :
    store cache stem extension (fragments ++ [f]) =
      (store cache stem extension fragments).put extension f.name (Tag.longForm stem f.body) := by
  simp [store]

theorem store_eq (cache : Cache) (stem extension : Text) (fragments : List Fragment) :
    store cache stem extension fragments =
      { cache with entries := (store cache stem extension fragments).entries } := by
  induction fragments using List.reverseRecOn with
  | nil => rfl
  | append_singleton fragments f ih =>
    rw [store_append_singleton, ih]
    rfl

/-- The last of some fragments that is kept under a key. -/
def lastUnder? (extension key : Text) (fragments : List Fragment) : Option Fragment :=
  (fragments.filter fun f => Name.fragmentKey extension f.name = key).getLast?

theorem lastUnder?_eq_none_iff {extension key : Text} {fragments : List Fragment} :
    lastUnder? extension key fragments = none ↔ ∀ f ∈ fragments, Name.fragmentKey extension f.name ≠ key := by
  simp [lastUnder?]

/-- **Of the fragments that are stored the last one under a key counts**, and every other key keeps its entry. -/
theorem entries_store (cache : Cache) (stem extension : Text) (fragments : List Fragment) (key : Text) :
    (store cache stem extension fragments).entries.get? key =
      ((lastUnder? extension key fragments).map fun f => ⟨Tag.longForm stem f.body, cache.now⟩).or
        (cache.entries.get? key) := by
  unfold lastUnder?
  induction fragments using List.reverseRecOn with
  | nil => rfl
  | append_singleton fragments f ih =>
    have hnow : (store cache stem extension fragments).now = cache.now := by rw [store_eq]
    rw [store_append_singleton, Cache.put, Table.get?_insert, ih, hnow, List.filter_append]
    by_cases h : Name.fragmentKey extension f.name = key
    · simp [h]
    · simp [h]

/-- **What is found after fragments are stored** is the last one under the key, and else what was found before. -/
theorem get?_store_fragments (cache : Cache) (stem storedFor : Text) (fragments : List Fragment) (extension name : Text) :
    (store cache stem storedFor fragments).get? extension name =
      match lastUnder? storedFor (Name.fragmentKey extension name) fragments with
      | some f => some (Tag.longForm stem f.body)
      | none => cache.get? extension name := by
  have hentries := entries_store cache stem storedFor fragments (Name.fragmentKey extension name)
  rw [store_eq]
  unfold Cache.get?
  rw [hentries]
  cases lastUnder? storedFor (Name.fragmentKey extension name) fragments with
  | none => rfl
  | some f => exact if_pos (Cache.isFresh_now cache (Tag.longForm stem f.body))

theorem get?_store (cache : Cache) (p : Parse) (extension name : Text) :
    (store cache p.stem p.extension p.fragments).get? extension name =
      match p.last? (Name.fragmentKey extension name) with
      | some f => some (Tag.longForm p.stem f.body)
      | none => cache.get? extension name :=
  get?_store_fragments cache p.stem p.extension p.fragments extension name

theorem parse?_eq_some_iff {l : Library} {name extension : Text} {p : Parse} : l.parse? name extension = some p ↔
    l.cache.get? extension name = none ∧ ∃ bytes, l.files.read? (l.locate name extension) = .ok bytes ∧
      p = ⟨l.cache.now, Name.requestStem name, extension, bytes⟩ := by
  rw [parse?, Cache.containsFresh_eq]
  cases l.cache.get? extension name with
  | some t => simp
  | none =>
    cases l.files.read? (l.locate name extension) with
    | error fault => simp
    | ok bytes => simp [eq_comm]

/-! ### What a request comes to -/

section loadBy

variable {l : Library} {openFile : Text → Except Fault (List (Except Fault Text))} {name extension : Text} {fault : Fault}
  {lines : List (Except Fault Text)}

theorem absorb_of_failure (h : Fragment.firstFailure? lines = some fault) (cache : Cache) (stem extension : Text) :
    absorb cache stem extension lines = .error fault := by
  simp only [absorb, Fragment.failure_ofLines, h]

theorem absorb_of_no_failure (h : Fragment.firstFailure? lines = none) (cache : Cache) (stem extension : Text) :
    absorb cache stem extension lines = .ok (store cache stem extension (Fragment.ofLines stem lines).fragments) := by
  simp only [absorb, Fragment.failure_ofLines, h]

theorem loadBy_of_fresh {t : Text} (h : l.cache.get? extension name = some t) :
    l.loadBy openFile name extension = (.ok t, l) := by
  unfold loadBy
  rw [h]

theorem loadBy_of_unopened (hmiss : l.cache.get? extension name = none)
    (hopen : openFile (l.locate name extension) = .error fault) :
    l.loadBy openFile name extension = (.error (if fault = .missing then .notFound name extension (l.locate name extension)
      else .unreadable name extension (l.locate name extension) fault), l) := by
  unfold loadBy
  rw [hmiss]
  simp only [hopen]
  cases fault <;> rfl

theorem loadBy_of_unread (hmiss : l.cache.get? extension name = none)
    (hopen : openFile (l.locate name extension) = .ok lines) (hfault : Fragment.firstFailure? lines = some fault) :
    l.loadBy openFile name extension = (.error (.unreadable name extension (l.locate name extension) fault), l) := by
  unfold loadBy
  rw [hmiss]
  simp only [hopen, absorb_of_failure hfault]

/-- A request whose file is read to its end stores all its fragments and answers from them. -/
theorem loadBy_of_read (hmiss : l.cache.get? extension name = none)
    (hopen : openFile (l.locate name extension) = .ok lines) (hread : Fragment.firstFailure? lines = none) :
    l.loadBy openFile name extension =
      (match (store l.cache (Name.requestStem name) extension
          (Fragment.ofLines (Name.requestStem name) lines).fragments).get? extension name with
        | some t => .ok t
        | none => .error (.notFound name extension (l.locate name extension)),
      { l with
        cache := store l.cache (Name.requestStem name) extension
          (Fragment.ofLines (Name.requestStem name) lines).fragments }) := by
  unfold loadBy
  rw [hmiss]
  simp only [hopen, absorb_of_no_failure hread]
  generalize store l.cache (Name.requestStem name) extension (Fragment.ofLines (Name.requestStem name) lines).fragments = cache
  cases cache.get? extension name with
  | some t => rfl
  | none => rfl

end loadBy

theorem load_of_fresh {l : Library} {name extension t : Text} (h : l.cache.get? extension name = some t) :
    l.load name extension = (.ok t, l) := loadBy_of_fresh h

theorem load_of_parse {l : Library} {name extension : Text} {p : Parse} (h : l.parse? name extension = some p) :
    l.load name extension =
      (match (store l.cache p.stem p.extension p.fragments).get? extension name with
        | some t => .ok t
        | none => .error (.notFound name extension (l.locate name extension)),
      { l with cache := store l.cache p.stem p.extension p.fragments }) := by
  obtain ⟨hmiss, bytes, hread, rfl⟩ := parse?_eq_some_iff.1 h
  exact loadBy_of_read hmiss (Files.Tree.open?_of_read? hread) (Fragment.firstFailure?_map_ok _)

theorem load_of_fault {l : Library} {name extension : Text} {fault : Fault} (hmiss : l.cache.get? extension name = none)
    (hread : l.files.read? (l.locate name extension) = .error fault) :
    l.load name extension = (.error (if fault = .missing then .notFound name extension (l.locate name extension)
      else .unreadable name extension (l.locate name extension) fault), l) := by
  rcases Files.Tree.open?_of_read?_error hread with hopen | ⟨rfl, hopen⟩
  · exact loadBy_of_unopened hmiss hopen
  · exact loadBy_of_unread hmiss hopen rfl

/-- **The cache answers a request, or a file is read for it, or its file cannot be read.** -/
theorem load_cases (l : Library) (name extension : Text) :
    (∃ t, l.cache.get? extension name = some t) ∨ (∃ p, l.parse? name extension = some p) ∨
      l.cache.get? extension name = none ∧ ∃ fault, l.files.read? (l.locate name extension) = .error fault := by
  cases hmiss : l.cache.get? extension name with
  | some t => exact .inl ⟨t, rfl⟩
  | none =>
    cases hread : l.files.read? (l.locate name extension) with
    | error fault => exact .inr (.inr ⟨rfl, fault, rfl⟩)
    | ok bytes => exact .inr (.inl ⟨_, parse?_eq_some_iff.2 ⟨hmiss, bytes, hread, rfl⟩⟩)

/-- A request that reads no file leaves the library as it was. -/
theorem load_of_parse_none {l : Library} {name extension : Text} (h : l.parse? name extension = none) :
    (l.load name extension).2 = l := by
  rcases l.load_cases name extension with ⟨t, ht⟩ | ⟨p, hp⟩ | ⟨hmiss, fault, hread⟩
  · rw [load_of_fresh ht]
  · rw [h] at hp
    cases hp
  · rw [load_of_fault hmiss hread]

/-- **A text that is loaded is fresh in the cache afterwards.** -/
theorem get?_of_load {l : Library} {name extension t : Text} (h : (l.load name extension).1 = .ok t) :
    (l.load name extension).2.cache.get? extension name = some t := by
  rcases l.load_cases name extension with ⟨u, hu⟩ | ⟨p, hp⟩ | ⟨hmiss, fault, hread⟩
  · rw [load_of_fresh hu] at h ⊢
    cases h
    exact hu
  · rw [load_of_parse hp] at h ⊢
    simp only at h ⊢
    split at h
    · next hget =>
      cases h
      exact hget
    · cases h
  · rw [load_of_fault hmiss hread] at h
    cases h

end Library
end Templates
