import Templates.Proofs.ShownMisses
/-!
# Sessions

In a session drafts are put together with a library, from its fragments and from sources.  Two sessions that take the same tasks
but for the modes for misses stay alike (`Session.run_alike`): a miss is shown in a reply or in the text of a draft, and no task
reads either.  So the modes decide what a miss shows, and nothing else (`Session.misses_only_shown`).
-/
namespace Templates

/-- Whether two drafts differ in their texts only. -/
structure Draft.Alike (d e : Draft) : Prop where
  marks : e.marks = d.marks
  sources : e.sources = d.sources

theorem Library.draftWith_alike (l : Library) (m : OnMiss) (name extension : Text) :
    (l.draftWith name extension).1.Alike ((l.setOnMiss m).draftWith name extension).1 := by
  refine ⟨?_, by rw [sources_draftWith, sources_draftWith]; rfl⟩
  rw [marks_draftWith, marks_draftWith]
  rfl

/-- A library and the drafts that are being put together with it, under names of their own. -/
structure Session where
  library : Library
  drafts : Table Text Draft

inductive Task where
  | act (action : Action)
  | setFolder (folder : Text)
  | startDraft (id : Text) (marks : Tag.Marks) (sources : List Source)
  | blankDraft (id : Text)
  | draft (id name : Text)
  | draftWith (id name extension : Text)
  | append (id text : Text)
  | fetchFrom (id protocol name : Text)
  | providedBy (id protocol name : Text)

namespace Task

/-- What the library is asked for in a task. -/
def lookup? (s : Session) : Task → Option Lookup
  | act (.look k) => some k
  | draft _ name => some (.draft name)
  | draftWith _ name extension => some (.draftWith name extension)
  | fetchFrom id protocol name => (s.drafts.get? id).map fun d => .fetchInto d protocol name
  | providedBy id protocol name =>
    ((s.drafts.get? id).bind fun d => d.sourceFor protocol).map fun source => .providedBy source name
  | _ => none

/-- Whether two tasks are the same but for the mode that they set or pass. -/
inductive Alike : Task → Task → Prop where
  | same (a : Task) : Alike a a
  | setOnMiss (m n : OnMiss) : Alike (.act (.setOnMiss m)) (.act (.setOnMiss n))
  | fetchWith (name extension : Text) (m n : OnMiss) :
      Alike (.act (.look (.fetchWith name extension m))) (.act (.look (.fetchWith name extension n)))

end Task

theorem cases_of_rel {α β : Type} {r : α → β → Prop} {x : Option α} {y : Option β} (h : Option.Rel r x y) :
    (x = none ∧ y = none) ∨ ∃ a b, x = some a ∧ y = some b ∧ r a b := by
  cases h with
  | none => exact .inl ⟨rfl, rfl⟩
  | some hab => exact .inr ⟨_, _, rfl, rfl, hab⟩

namespace Session

variable {s t : Session} {a b : Task}

def libraryAfter (s : Session) (a : Task) : Library :=
  match a.lookup? s with
  | some k => k.after s.library
  | none => match a with
    | .act action => s.library.perform action
    | .setFolder folder => s.library.setFolder folder
    | _ => s.library

def draftsAfter (s : Session) : Task → Table Text Draft
  | .startDraft id marks sources => s.drafts.insert id (.new marks sources)
  | .blankDraft id => s.drafts.insert id s.library.blankDraft
  | .draft id name => s.drafts.insert id (s.library.draft name).1
  | .draftWith id name extension => s.drafts.insert id (s.library.draftWith name extension).1
  | .append id text => match s.drafts.get? id with
    | some d => s.drafts.insert id (d.append text)
    | none => s.drafts
  | _ => s.drafts

def perform (s : Session) (a : Task) : Session := ⟨s.libraryAfter a, s.draftsAfter a⟩

def reply (s : Session) (a : Task) : Reply :=
  match a.lookup? s with
  | some k => k.reply s.library
  | none => .done

def run (s : Session) (tasks : List Task) : Session := tasks.foldl perform s

/-- **Whether two sessions differ only in how misses are shown**: in the mode of their libraries and in the texts of their
drafts. -/
structure Alike (s t : Session) : Prop where
  library : ∃ m, t.library = s.library.setOnMiss m
  drafts : ∀ id, Option.Rel Draft.Alike (s.drafts.get? id) (t.drafts.get? id)

theorem Alike.cache_eq (h : s.Alike t) : s.library.cache = t.library.cache := by
  obtain ⟨m, hm⟩ := h.library
  rw [hm]
  rfl

theorem lookup?_alike (h : s.Alike t) (hab : a.Alike b) : Option.Rel Lookup.Alike (a.lookup? s) (b.lookup? t) := by
  have hsame : ∀ x : Option Lookup, Option.Rel Lookup.Alike x x := by
    rintro (_ | k)
    · exact .none
    · exact .some (.same k)
  cases hab with
  | setOnMiss m n => exact .none
  | fetchWith name extension m n => exact .some (.fetchWith name extension m n)
  | same =>
    cases a with
    | fetchFrom id protocol name =>
      rcases cases_of_rel (h.drafts id) with ⟨hs, ht⟩ | ⟨d, e, hs, ht, hde⟩
      · simp only [Task.lookup?, hs, ht]
        exact .none
      · simp only [Task.lookup?, hs, ht]
        exact .some (.fetchInto hde.sources protocol name)
    | providedBy id protocol name =>
      rcases cases_of_rel (h.drafts id) with ⟨hs, ht⟩ | ⟨d, e, hs, ht, hde⟩
      · simp only [Task.lookup?, hs, ht]
        exact .none
      · simp only [Task.lookup?, hs, ht, Option.bind_some, Lookup.sourceFor_congr hde.sources]
        exact hsame _
    | act action => cases action <;> exact hsame _
    | _ => exact hsame _

theorem libraryAfter_alike (h : s.Alike t) (hab : a.Alike b) : ∃ m, t.libraryAfter b = (s.libraryAfter a).setOnMiss m := by
  obtain ⟨m, hm⟩ := h.library
  unfold libraryAfter
  rcases cases_of_rel (lookup?_alike h hab) with ⟨hs, ht⟩ | ⟨k, k', hs, ht, hk⟩
  · rw [hs, ht, hm]
    cases hab with
    | setOnMiss n n' => exact ⟨n', rfl⟩
    | fetchWith name extension n n' => cases hs
    | same =>
      cases a with
      | act action => exact Library.perform_setOnMiss s.library m action
      | _ => exact ⟨m, rfl⟩
  · rw [hs, ht, hm]
    exact ⟨m, hk.after_eq s.library m⟩

theorem draftsAfter_alike (h : s.Alike t) (hab : a.Alike b) (id : Text) :
    Option.Rel Draft.Alike ((s.draftsAfter a).get? id) ((t.draftsAfter b).get? id) := by
  obtain ⟨m, hm⟩ := h.library
  have hinsert : ∀ {d e : Draft} (i : Text), d.Alike e →
      Option.Rel Draft.Alike ((s.drafts.insert i d).get? id) ((t.drafts.insert i e).get? id) := fun i hde => by
    rw [Table.get?_insert, Table.get?_insert]
    split
    · exact .some hde
    · exact h.drafts id
  cases hab with
  | setOnMiss | fetchWith => exact h.drafts id
  | same =>
    cases a with
    -- a draft may get another text, but never other marks or sources
    | startDraft i marks sources => exact hinsert i ⟨rfl, rfl⟩
    | blankDraft i => exact hinsert i ⟨by rw [hm]; rfl, by rw [hm]; rfl⟩
    | draft i name => exact hinsert i (hm ▸ Library.draftWith_alike s.library m name s.library.extension)
    | draftWith i name extension => exact hinsert i (hm ▸ Library.draftWith_alike s.library m name extension)
    | append i text =>
      rcases cases_of_rel (h.drafts i) with ⟨hs, ht⟩ | ⟨d, e, hs, ht, hde⟩
      · simp only [draftsAfter, hs, ht]
        exact h.drafts id
      · simp only [draftsAfter, hs, ht]
        exact hinsert i ⟨hde.marks, hde.sources⟩
    | _ => exact h.drafts id

theorem perform_alike (h : s.Alike t) (hab : a.Alike b) : (s.perform a).Alike (t.perform b) :=
  ⟨libraryAfter_alike h hab, draftsAfter_alike h hab⟩

theorem run_alike (h : s.Alike t) {as bs : List Task} (hab : List.Forall₂ Task.Alike as bs) : (s.run as).Alike (t.run bs) := by
  induction hab generalizing s t with
  | nil => exact h
  | cons hab _ ih => exact ih (perform_alike h hab)

/-- The fragment that a task loads, with its extension. -/
def request? (s : Session) (a : Task) : Option (Text × Text) := (a.lookup? s).bind fun k => k.request? s.library

/-- The mode by which a task shows a miss. -/
def onMiss (s : Session) (a : Task) : OnMiss :=
  match a.lookup? s with
  | some k => k.onMiss s.library
  | none => s.library.onMiss

/-- **How one task compares between two sessions**: it loads the same fragment in both, with the same result, and only a text whose
load fails is shown by the mode of each; or it loads nothing and the reply is the same. -/
structure Compare (s t : Session) (a b : Task) : Prop where
  request?_eq : t.request? b = s.request? a
  load_eq : ∀ name extension, s.request? a = some (name, extension) →
    (t.library.load name extension).1 = (s.library.load name extension).1
  loads : ∀ name extension, s.request? a = some (name, extension) →
    Reply.Compare (s.onMiss a) (t.onMiss b) (s.library.load name extension).1 (s.reply a) (t.reply b)
  loads_nothing : s.request? a = none → t.reply b = s.reply a

theorem compare (h : s.Alike t) (hab : a.Alike b) : s.Compare t a b := by
  obtain ⟨m, hm⟩ := h.library
  have hload : ∀ name extension, (t.library.load name extension).1 = (s.library.load name extension).1 :=
    fun name extension => by rw [hm, Library.load_setOnMiss]
  rcases cases_of_rel (lookup?_alike h hab) with ⟨hs, ht⟩ | ⟨k, k', hs, ht, hk⟩
  · have hrequest : s.request? a = none := by rw [request?, hs]; rfl
    refine ⟨?_, fun name extension _ => hload name extension, fun name extension hsome => ?_, fun _ => ?_⟩
    · rw [request?, ht, hrequest]
      rfl
    · cases hrequest.symm.trans hsome
    · rw [reply, reply, hs, ht]
  · have hrequest : s.request? a = k.request? s.library := by rw [request?, hs]; rfl
    have hrequest' : t.request? b = k'.request? t.library := by rw [request?, ht]; rfl
    refine ⟨?_, fun name extension _ => hload name extension, fun name extension hsome => ?_, fun hnone => ?_⟩
    · rw [hrequest, hrequest', hm, hk.request?_eq]
    · simp only [onMiss, reply, hs, ht, hm]
      exact hk.compare m (hrequest.symm.trans hsome)
    · simp only [reply, hs, ht, hm]
      exact hk.reply_eq m (hrequest.symm.trans hnone)

/-- **The mode for misses decides what a miss shows, and nothing else.**  Two runs of the same tasks but for the modes that are
set and passed have the same cache and stay alike, and each next task compares. -/
theorem misses_only_shown (l : Library) (m n : OnMiss) {as bs : List Task} (hab : List.Forall₂ Task.Alike as bs) :
    let s := run ⟨l.setOnMiss m, .empty⟩ as
    let t := run ⟨l.setOnMiss n, .empty⟩ bs
    s.library.cache = t.library.cache ∧ s.Alike t ∧ ∀ a b, a.Alike b → s.Compare t a b := by
  intro s t
  have hstart : Alike ⟨l.setOnMiss m, .empty⟩ ⟨l.setOnMiss n, .empty⟩ := ⟨⟨n, rfl⟩, fun _ => .none⟩
  have halike : s.Alike t := run_alike hstart hab
  exact ⟨halike.cache_eq, halike, fun a b h => compare halike h⟩

/-- A draft that holds what stands for a miss is asked for a part that is there, and for one that is not. -/
theorem misses_only_shown_draft :
    let files := Files.Tree.empty.write "page.html".toList (.file "top\x7b#b\x7dX\x7b#\x7d".toUTF8.toList)
    let l := Library.ofSettings .standard files .clockStart
    let as : List Task := [.act (.look (.get "gone".toList)), .draft "d".toList "page#z".toList,
      .act (.look (.fetchWith "page".toList "txt".toList .nothing)), .append "d".toList "!".toList]
    let bs : List Task := [.act (.look (.get "gone".toList)), .draft "d".toList "page#z".toList,
      .act (.look (.fetchWith "page".toList "txt".toList .placeholder)), .append "d".toList "!".toList]
    let s := run ⟨l.setOnMiss .placeholder, .empty⟩ as
    let t := run ⟨l.setOnMiss .nothing, .empty⟩ bs
    let found := Task.fetchFrom "d".toList includeProtocol "page#b".toList
    let missed := Task.fetchFrom "d".toList includeProtocol "page#z".toList
    let shown := "[html template 'page#z' not found]<!-- looked in [page.html] -->".toList
    List.Forall₂ Task.Alike as bs ∧ s.library.cache = t.library.cache ∧
      (s.Compare t found found ∧ s.reply found = .text (some ['X']) ∧ t.reply found = .text (some ['X'])) ∧
      (s.Compare t missed missed ∧ s.reply missed = .text (some shown) ∧ t.reply missed = .text none) ∧
      (s.drafts.get? "d".toList).map Draft.text = some (shown ++ ['!']) ∧
      (t.drafts.get? "d".toList).map Draft.text = some ['!'] := by
  intro files l as bs s t found missed shown
  have hab : List.Forall₂ Task.Alike as bs :=
    .cons (.same _) (.cons (.same _) (.cons (.fetchWith _ _ _ _) (.cons (.same _) .nil)))
  obtain ⟨hcache, -, hcompare⟩ := misses_only_shown l .placeholder .nothing hab
  refine ⟨hab, hcache, ⟨hcompare _ _ (.same _), ?_, ?_⟩, ⟨hcompare _ _ (.same _), ?_, ?_⟩, ?_, ?_⟩
  all_goals decide +kernel

end Session
end Templates
