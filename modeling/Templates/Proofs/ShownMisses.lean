import Templates.Proofs.Routing
/-!
# What a miss shows

Every lookup makes its reply of the result of its load (`Lookup.reply_eq_told`), and the mode for misses has no part in the load.
So lookups that differ only in a mode, in libraries that differ only in theirs, leave the same library and reply alike, but for
a text whose load fails (`Lookup.Alike.compare`).
-/
namespace Templates

/-- What stands in the place of a text that cannot be loaded. -/
def OnMiss.instead : OnMiss → LoadError → Option Text
  | placeholder, e => some e.placeholder
  | nothing, _ => none

inductive Reply where
  | done
  | loaded (result : Except LoadError Text)
  | whether (there : Bool)
  | text (shown : Option Text)
  | drafted (text : Text)
  deriving DecidableEq

/-- **How the replies to one lookup compare** when its load comes to `result` and misses are shown by the modes `m` and `n`. -/
inductive Reply.Compare (m n : OnMiss) (result : Except LoadError Text) : Reply → Reply → Prop where
  | loaded : Compare m n result (.loaded result) (.loaded result)
  | whether : Compare m n result (.whether result.isOk) (.whether result.isOk)
  | text (t : Text) : result = .ok t → Compare m n result (.text (some t)) (.text (some t))
  | noText (e : LoadError) : result = .error e → Compare m n result (.text (m.instead e)) (.text (n.instead e))
  | drafted (t : Text) : result = .ok t → Compare m n result (.drafted t) (.drafted t)
  | notDrafted (e : LoadError) : result = .error e →
      Compare m n result (.drafted ((m.instead e).getD [])) (.drafted ((n.instead e).getD []))

namespace Library

theorem load_setOnMiss (l : Library) (m : OnMiss) (name extension : Text) : (l.setOnMiss m).load name extension =
    ((l.load name extension).1, (l.load name extension).2.setOnMiss m) := by
  rcases l.load_cases name extension with ⟨t, ht⟩ | ⟨p, hp⟩ | ⟨hmiss, fault, hread⟩
  · have ht' : (l.setOnMiss m).cache.get? extension name = some t := ht
    rw [load_of_fresh ht, load_of_fresh ht']
  · have hp' : (l.setOnMiss m).parse? name extension = some p := hp
    rw [load_of_parse hp, load_of_parse hp']
    rfl
  · have hread' : (l.setOnMiss m).files.read? ((l.setOnMiss m).locate name extension) = .error fault := hread
    rw [load_of_fault hmiss hread, load_of_fault (l := l.setOnMiss m) hmiss hread']
    rfl

theorem text_draftWith (l : Library) (name extension : Text) : (l.draftWith name extension).1.text =
    (shown l.onMiss (l.load name extension).1).getD [] := by
  have hgetWith : l.getWith name extension = (shown l.onMiss (l.load name extension).1, (l.load name extension).2) := rfl
  unfold draftWith
  rw [hgetWith]
  cases shown l.onMiss (l.load name extension).1 <;> rfl

theorem marks_draftWith (l : Library) (name extension : Text) : (l.draftWith name extension).1.marks = l.marks := by
  unfold draftWith
  split <;> rfl

theorem shown_error (m : OnMiss) (e : LoadError) : shown m (.error e) = m.instead e := by cases m <;> rfl

end Library

namespace Lookup

variable {l : Library} {k k' : Lookup} {name extension : Text}

def reply (l : Library) : Lookup → Reply
  | load name extension => .loaded (l.load name extension).1
  | fetchWith name extension onMiss => .text (l.fetchWith name extension onMiss).1
  | getWith name extension => .text (l.getWith name extension).1
  | get name => .text (l.get name).1
  | provides name => .whether (l.provides name).1
  | draftWith name extension => .drafted (l.draftWith name extension).1.text
  | draft name => .drafted (l.draft name).1.text
  | fetchFrom source name => .text (source.fetch l name).1
  | providedBy source name => .whether (source.provides l name).1
  | fetchInto d protocol name => .text (d.fetchFrom l protocol name).1

/-- The mode by which a lookup shows a miss. -/
def onMiss (l : Library) : Lookup → OnMiss
  | fetchWith _ _ onMiss => onMiss
  | _ => l.onMiss

/-- What a lookup makes of the result of its load. -/
def told (onMiss : OnMiss) (result : Except LoadError Text) : Lookup → Reply
  | load _ _ => .loaded result
  | provides _ => .whether result.isOk
  | providedBy _ _ => .whether result.isOk
  | draftWith _ _ => .drafted ((Library.shown onMiss result).getD [])
  | draft _ => .drafted ((Library.shown onMiss result).getD [])
  | _ => .text (Library.shown onMiss result)

theorem compare_told (m n : OnMiss) (result : Except LoadError Text) (k : Lookup) :
    Reply.Compare m n result (k.told m result) (k.told n result) := by
  have htext : Reply.Compare m n result (.text (Library.shown m result)) (.text (Library.shown n result)) := by
    cases result with
    | ok t => exact .text t rfl
    | error e =>
      rw [Library.shown_error, Library.shown_error]
      exact .noText e rfl
  have hdraft : Reply.Compare m n result (.drafted ((Library.shown m result).getD []))
      (.drafted ((Library.shown n result).getD [])) := by
    cases result with
    | ok t => exact .drafted t rfl
    | error e =>
      rw [Library.shown_error, Library.shown_error]
      exact .notDrafted e rfl
  cases k with
  | load _ _ => exact .loaded
  | provides _ => exact .whether
  | providedBy _ _ => exact .whether
  | draftWith _ _ => exact hdraft
  | draft _ => exact hdraft
  | _ => exact htext

theorem isSome_shown_nothing (result : Except LoadError Text) : (Library.shown .nothing result).isSome = result.isOk := by
  cases result <;> rfl

/-- **Every lookup replies with what it makes of its load**, and the library takes part in that with its mode alone. -/
theorem reply_eq_told (h : k.request? l = some (name, extension)) :
    k.reply l = k.told (k.onMiss l) (l.load name extension).1 := by
  -- whether there is a text is asked with misses shown as nothing, whatever the mode of the library
  have hprovides : ∀ name, (l.provides name).1 = (l.load name l.extension).1.isOk := fun name => isSome_shown_nothing _
  have hfetch : ∀ source n, Source.request? l n source = some (name, extension) →
      (source.fetch l n).1 = Library.shown l.onMiss (l.load name extension).1 := by
    rintro source n hsource
    cases source <;> cases hsource <;> rfl
  cases k with
  | load n x => cases h; rfl
  | fetchWith n x m => cases h; rfl
  | getWith n x => cases h; rfl
  | get n => cases h; rfl
  | provides n => cases h; exact congrArg Reply.whether (hprovides _)
  | draftWith n x => cases h; exact congrArg Reply.drafted (l.text_draftWith _ _)
  | draft n => cases h; exact congrArg Reply.drafted (l.text_draftWith _ _)
  | fetchFrom source n => exact congrArg Reply.text (hfetch source n h)
  | providedBy source n =>
    cases source <;> cases h <;> exact congrArg Reply.whether (hprovides _)
  | fetchInto d protocol n =>
    obtain ⟨source, hsource, hrequest⟩ := Option.bind_eq_some_iff.1 h
    have hfetchFrom : (d.fetchFrom l protocol n).1 = (source.fetch l n).1 := by rw [Draft.fetchFrom, hsource]
    exact congrArg Reply.text (hfetchFrom.trans (hfetch source n hrequest))

/-- Whether two lookups are the same but for the mode that they pass and the text of the draft that they fetch for. -/
inductive Alike : Lookup → Lookup → Prop where
  | same (k : Lookup) : Alike k k
  | fetchWith (name extension : Text) (m n : OnMiss) : Alike (.fetchWith name extension m) (.fetchWith name extension n)
  | fetchInto {d e : Draft} (h : e.sources = d.sources) (protocol name : Text) :
      Alike (.fetchInto d protocol name) (.fetchInto e protocol name)

theorem sourceFor_congr {d e : Draft} (h : e.sources = d.sources) (protocol : Text) :
    e.sourceFor protocol = d.sourceFor protocol := by
  rw [Draft.sourceFor, h]
  rfl

theorem Alike.request?_eq (h : k.Alike k') (l : Library) (m : OnMiss) : k'.request? (l.setOnMiss m) = k.request? l := by
  have hsource : ∀ source n, Source.request? (l.setOnMiss m) n source = Source.request? l n source := fun source n => by
    cases source <;> rfl
  cases h with
  | same =>
    cases k with
    | fetchFrom source n => exact hsource source n
    | providedBy source n => exact hsource source n
    | fetchInto d protocol n => simp only [request?, hsource]
    | _ => rfl
  | fetchWith => rfl
  | fetchInto hsources protocol n => simp only [request?, hsource, sourceFor_congr hsources]

theorem Alike.after_eq (h : k.Alike k') (l : Library) (m : OnMiss) : k'.after (l.setOnMiss m) = (k.after l).setOnMiss m := by
  rw [Lookup.after_eq, Lookup.after_eq, h.request?_eq]
  cases k.request? l with
  | none => rfl
  | some request => exact congrArg Prod.snd (l.load_setOnMiss m request.1 request.2)

theorem Alike.told_eq (h : k.Alike k') (m : OnMiss) (result : Except LoadError Text) : k'.told m result = k.told m result := by
  cases h <;> rfl

/-- **Two lookups that are alike compare**, whatever the modes of their libraries. -/
theorem Alike.compare (h : k.Alike k') (m : OnMiss) (hrequest : k.request? l = some (name, extension)) :
    Reply.Compare (k.onMiss l) (k'.onMiss (l.setOnMiss m)) (l.load name extension).1 (k.reply l)
      (k'.reply (l.setOnMiss m)) := by
  rw [reply_eq_told hrequest, reply_eq_told ((h.request?_eq l m).trans hrequest), l.load_setOnMiss, h.told_eq]
  exact compare_told _ _ _ k

theorem Alike.reply_eq (h : k.Alike k') (m : OnMiss) (hrequest : k.request? l = none) :
    k'.reply (l.setOnMiss m) = k.reply l := by
  have hfetch : ∀ source n, Source.request? l n source = none → (source.fetch (l.setOnMiss m) n).1 = (source.fetch l n).1 := by
    intro source n hsource
    cases source <;> first | rfl | cases hsource
  have hfetchInto : ∀ (d : Draft) protocol n, (Lookup.fetchInto d protocol n).request? l = none →
      (d.fetchFrom (l.setOnMiss m) protocol n).1 = (d.fetchFrom l protocol n).1 := by
    intro d protocol n hrequest
    unfold Draft.fetchFrom
    cases hsource : d.sourceFor protocol with
    | none => rfl
    | some source =>
      rw [request?, hsource] at hrequest
      exact hfetch source n hrequest
  cases h with
  | same =>
    cases k with
    | fetchFrom source n => exact congrArg Reply.text (hfetch source n hrequest)
    | providedBy source n => cases source <;> first | rfl | cases hrequest
    | fetchInto d protocol n => exact congrArg Reply.text (hfetchInto d protocol n hrequest)
    | _ => cases hrequest
  | fetchWith => cases hrequest
  | @fetchInto d e hsources protocol n =>
    have hdraft : e.fetchFrom (l.setOnMiss m) protocol n = d.fetchFrom (l.setOnMiss m) protocol n := by
      rw [Draft.fetchFrom, sourceFor_congr hsources]
      rfl
    exact congrArg Reply.text ((congrArg Prod.fst hdraft).trans (hfetchInto d protocol n hrequest))

end Lookup

theorem Library.perform_setOnMiss (l : Library) (m : OnMiss) (action : Action) :
    ∃ n, (l.setOnMiss m).perform action = (l.perform action).setOnMiss n := by
  cases action with
  | look k => exact ⟨m, (Lookup.Alike.same k).after_eq l m⟩
  | setOnMiss n => exact ⟨n, rfl⟩
  | advance span =>
    refine ⟨m, ?_⟩
    rw [perform_advance, perform_advance]
    rfl
  | setRefreshMinutes minutes =>
    refine ⟨m, ?_⟩
    unfold perform setRefreshMinutes
    rfl
  | _ => exact ⟨m, rfl⟩

end Templates
