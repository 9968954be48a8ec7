import Templates.Proofs.HiddenCache
/-!
# Where drafts turn to

A library keeps one source for each protocol, the one that was registered last under it (`Library.keepsLast_run`).  A draft
turns to the library for its own protocol, and for every other one to the source that is kept (`Library.sourceFor_madeBy`).  So
all registered sources are reached exactly when none of them answers to the protocol of the library
(`Library.reaches_registered_iff`).
-/
namespace Templates

/-- The source that comes last under a protocol. -/
def Source.lastUnder (protocol : Text) (sources : List Source) : Option Source :=
  (sources.filter fun s => s.protocol = protocol).getLast?

theorem Source.lastUnder_eq_none_iff {protocol : Text} {sources : List Source} :
    lastUnder protocol sources = none ↔ ∀ s ∈ sources, s.protocol ≠ protocol := by
  simp [lastUnder]

theorem Source.lastUnder_append_singleton (protocol : Text) (sources : List Source) (s : Source) :
    lastUnder protocol (sources ++ [s]) = if s.protocol = protocol then some s else lastUnder protocol sources := by
  rw [lastUnder, List.filter_append]
  split
  · next h => simp [h]
  · next h => simp [h, lastUnder]

def Action.registered? : Action → Option Source
  | addSource source => some source
  | _ => none

/-- The sources that a run registers, in their order. -/
def registered (actions : List Action) : List Source := actions.filterMap Action.registered?

namespace Library

variable {l : Library} {sources : List Source} {d : Draft}

theorem sources_perform (l : Library) (a : Action) : (l.perform a).sources =
    match a.registered? with
    | some source => l.sources.insert source.protocol source
    | none => l.sources := by
  cases a with
  | look lookup => rw [perform_look]; rfl
  | advance span => rw [perform_advance]; rfl
  | setRefreshMinutes minutes => rw [perform, setRefreshMinutes]; rfl
  | _ => rfl

/-- **Whether a library keeps of some sources the last one under each protocol**, and no other. -/
structure KeepsLast (l : Library) (sources : List Source) : Prop where
  keyed : l.sources.KeyedBy Source.protocol
  get? : ∀ protocol, l.sources.get? protocol = Source.lastUnder protocol sources

theorem keepsLast_insert (h : l.KeepsLast sources) (s : Source) : (l.addSource s).KeepsLast (sources ++ [s]) := by
  refine ⟨Table.keyedBy_insert h.keyed s, fun protocol => ?_⟩
  rw [Source.lastUnder_append_singleton, ← h.get?]
  exact Table.get?_insert l.sources s.protocol s protocol

/-- The last action of a run registers one source more, or leaves the sources as they are. -/
theorem registered_append_singleton (l : Library) (actions : List Action) (a : Action) :
    (registered (actions ++ [a]) = registered actions ∧ (l.run (actions ++ [a])).sources = (l.run actions).sources) ∨
      ∃ s, registered (actions ++ [a]) = registered actions ++ [s] ∧
        (l.run (actions ++ [a])).sources = ((l.run actions).addSource s).sources := by
  have hsources := sources_perform (l.run actions) a
  rw [run_append_singleton, registered, List.filterMap_append]
  cases ha : a.registered? with
  | none =>
    rw [ha] at hsources
    rw [List.filterMap_cons_none ha, List.filterMap_nil, List.append_nil]
    exact .inl ⟨rfl, hsources⟩
  | some s =>
    rw [ha] at hsources
    rw [List.filterMap_cons_some ha, List.filterMap_nil]
    exact .inr ⟨s, rfl, hsources⟩

theorem keepsLast_run (hempty : l.sources = .empty) (actions : List Action) :
    (l.run actions).KeepsLast (registered actions) := by
  induction actions using List.reverseRecOn with
  | nil =>
    rw [run_nil]
    exact ⟨fun p hp => (by rw [hempty] at hp; cases hp), fun protocol => by rw [hempty]; rfl⟩
  | append_singleton actions a ih =>
    rcases registered_append_singleton l actions a with ⟨hregistered, hsources⟩ | ⟨s, hregistered, hsources⟩
    · rw [hregistered]
      exact ⟨hsources ▸ ih.keyed, hsources ▸ ih.get?⟩
    · have hkeeps := keepsLast_insert ih s
      rw [hregistered]
      exact ⟨hsources ▸ hkeeps.keyed, hsources ▸ hkeeps.get?⟩

theorem mem_keys_iff (h : l.KeepsLast sources) (protocol : Text) :
    protocol ∈ l.sources.keys ↔ ∃ s ∈ sources, s.protocol = protocol := by
  rw [← not_iff_not, ← Table.get?_eq_none_iff, h.get?, Source.lastUnder_eq_none_iff]
  simp

/-- The drafts that a library makes. -/
inductive MadeBy (l : Library) : Draft → Prop where
  | blank : MadeBy l l.blankDraft
  | named (name : Text) : MadeBy l (l.draft name).1
  | namedWith (name extension : Text) : MadeBy l (l.draftWith name extension).1

theorem sources_draftWith (l : Library) (name extension : Text) :
    (l.draftWith name extension).1.sources = .library :: l.sources.values := by
  unfold draftWith
  split <;> rfl

/-- **A draft asks the library first**, and then the sources that the library keeps. -/
theorem sources_madeBy (hd : l.MadeBy d) : d.sources = .library :: l.sources.values := by
  cases hd with
  | blank => rfl
  | named name => exact sources_draftWith l name l.extension
  | namedWith name extension => exact sources_draftWith l name extension

theorem protocols_madeBy (h : l.KeepsLast sources) (hd : l.MadeBy d) : d.protocols = includeProtocol :: l.sources.keys := by
  rw [Draft.protocols, sources_madeBy hd, List.map_cons, Table.map_values h.keyed]
  rfl

theorem sourceFor_madeBy (h : l.KeepsLast sources) (hd : l.MadeBy d) (protocol : Text) :
    d.sourceFor protocol = if protocol = includeProtocol then some .library else Source.lastUnder protocol sources := by
  rw [Draft.sourceFor, sources_madeBy hd, List.find?_cons]
  by_cases hp : protocol = includeProtocol
  · simp [Source.protocol, hp]
  · have hne : includeProtocol ≠ protocol := fun e => hp e.symm
    simp only [Source.protocol, hne, decide_false, hp, if_false, ← h.get?]
    exact Table.find?_values h.keyed protocol

end Library

/-- **Whether a draft reaches all of some registered sources**: its protocols are different from each other, and for each of
theirs it answers with the source registered last under it. -/
structure Draft.Reaches (d : Draft) (sources : List Source) : Prop where
  nodup : d.protocols.Nodup
  fetchFrom : ∀ protocol source, Source.lastUnder protocol sources = some source →
    ∀ (l : Library) (name : Text), d.fetchFrom l protocol name = source.fetch l name

namespace Library

/-- **Every registered source is reached** by all new drafts exactly when none of them answers to the protocol of the library
itself. -/
theorem reaches_registered_iff (s : Settings) (files : Files.Tree) (now : Instant) (actions : List Action) :
    (∀ d, ((ofSettings s files now).run actions).MadeBy d → d.Reaches (registered actions)) ↔
      ∀ source ∈ registered actions, source.protocol ≠ includeProtocol := by
  have hkeeps := keepsLast_run (l := ofSettings s files now) rfl actions
  generalize (ofSettings s files now).run actions = l at hkeeps ⊢
  constructor
  · intro h source hsource hprotocol
    have hnodup := (h _ .blank).nodup
    rw [protocols_madeBy hkeeps .blank, List.nodup_cons, mem_keys_iff hkeeps] at hnodup
    exact hnodup.1 ⟨source, hsource, hprotocol⟩
  · intro h d hd
    refine ⟨?_, fun protocol source hlast m name => ?_⟩
    · rw [protocols_madeBy hkeeps hd, List.nodup_cons, mem_keys_iff hkeeps]
      exact ⟨fun ⟨source, hsource, hprotocol⟩ => h source hsource hprotocol, l.sources.nodup⟩
    · have hne : protocol ≠ includeProtocol := by
        rintro rfl
        rw [Source.lastUnder_eq_none_iff.2 h] at hlast
        cases hlast
      rw [Draft.fetchFrom, sourceFor_madeBy hkeeps hd, if_neg hne, hlast]

/-- **A registered folder is never reached**: it answers to the protocol of the library, which stands before it. -/
theorem registered_folder_not_reached :
    let l := (ofSettings .standard ((Files.Tree.empty.write "page.html".toList (.file "top".toUTF8.toList)).write
      "themes/page.html".toList (.file "theme".toUTF8.toList)) .clockStart).run [.addSource (.folder "themes".toList)]
    Source.lastUnder includeProtocol (registered [.addSource (.folder "themes".toList)]) =
        some (.folder "themes".toList) ∧
      l.blankDraft.protocols = [includeProtocol, includeProtocol] ∧
      (l.blankDraft.fetchFrom l includeProtocol "page".toList).1 = some "top".toList ∧
      ((Source.folder "themes".toList).fetch l "page".toList).1 = some "theme".toList ∧
      ¬ l.blankDraft.Reaches (registered [.addSource (.folder "themes".toList)]) := by
  intro l
  have hprotocols : l.blankDraft.protocols = [includeProtocol, includeProtocol] := by decide +kernel
  refine ⟨rfl, hprotocols, by decide +kernel, by decide +kernel, fun h => ?_⟩
  have hnodup := h.nodup
  rw [hprotocols] at hnodup
  exact absurd hnodup (by decide)

end Library
end Templates
