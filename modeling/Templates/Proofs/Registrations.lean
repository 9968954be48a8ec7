import Mathlib.Data.List.Basic
import Templates.Proofs.Routing
/-!
# Registered sources

A library lists its sources in the order in which their protocols were registered first (`InFirstOrder`): a protocol that is
registered again keeps its place, and only its source is another one.  So the sources that are listed after a run are the last
ones under each protocol of those that the run registers (`Library.lists_registered`).
-/
namespace Templates

/-- Whether keys stand in the order in which they come first among others. -/
def InFirstOrder (came keys : List Text) : Prop := keys.Pairwise fun j k => came.idxOf j < came.idxOf k

variable {came keys : List Text}

theorem InFirstOrder.nodup (h : InFirstOrder came keys) : keys.Nodup := h.imp fun hlt heq => by simp [heq] at hlt

/-- What comes later does not change which of the keys came first. -/
theorem InFirstOrder.append_right (h : InFirstOrder came keys) (hcame : ∀ k ∈ keys, k ∈ came) (later : List Text) :
    InFirstOrder (came ++ later) keys := by
  refine h.imp_of_mem fun {j k} hj hk hlt => ?_
  rwa [List.idxOf_append_of_mem (hcame j hj), List.idxOf_append_of_mem (hcame k hk)]

theorem InFirstOrder.append_new {key : Text} (h : InFirstOrder came keys) (hcame : ∀ k ∈ keys, k ∈ came)
    (hnew : key ∉ came) : InFirstOrder (came ++ [key]) (keys ++ [key]) := by
  refine List.pairwise_append.2 ⟨h.append_right hcame [key], List.pairwise_singleton _ _, fun k hk j hj => ?_⟩
  obtain rfl := List.mem_singleton.1 hj
  calc (came ++ [j]).idxOf k = came.idxOf k := List.idxOf_append_of_mem (hcame k hk)
    _ < came.length := List.idxOf_lt_length_of_mem (hcame k hk)
    _ ≤ came.length + [j].idxOf j := Nat.le_add_right _ _
    _ = (came ++ [j]).idxOf j := (List.idxOf_append_of_notMem hnew).symm

/-- **Whether some sources are those that count among others**, which were registered one after the other. -/
structure Source.Listed (registered listed : List Source) : Prop where
  /-- There is one source at most for a protocol. -/
  nodup : (listed.map protocol).Nodup
  /-- There is one for every protocol that was registered, and for no other. -/
  mem_iff : ∀ key, key ∈ listed.map protocol ↔ key ∈ registered.map protocol
  /-- It is the one that was registered last. -/
  last : ∀ source ∈ listed, lastUnder source.protocol registered = some source
  order : InFirstOrder (registered.map protocol) (listed.map protocol)

namespace Library

variable {l : Library} {sources : List Source}

theorem mem_keys_iff_registered (h : l.KeepsLast sources) (key : Text) :
    key ∈ l.sources.keys ↔ key ∈ sources.map Source.protocol := by
  rw [mem_keys_iff h, List.mem_map]

/-- **A registration keeps the order**: a known protocol keeps its place, and a new one comes last. -/
theorem inFirstOrder_addSource (h : l.KeepsLast sources)
    (horder : InFirstOrder (sources.map Source.protocol) l.sources.keys) (s : Source) :
    InFirstOrder ((sources ++ [s]).map Source.protocol) (l.addSource s).sources.keys := by
  have hcame : ∀ k ∈ l.sources.keys, k ∈ sources.map Source.protocol :=
    fun k hk => (mem_keys_iff_registered h k).1 hk
  rw [addSource, Table.keys_insert, List.map_append]
  split
  · exact horder.append_right hcame _
  · next hnew => exact horder.append_new hcame fun hmem => hnew ((mem_keys_iff_registered h _).2 hmem)

theorem inFirstOrder_run (hempty : l.sources = .empty) (actions : List Action) :
    InFirstOrder ((registered actions).map Source.protocol) (l.run actions).sources.keys := by
  induction actions using List.reverseRecOn with
  | nil =>
    rw [run_nil, hempty]
    exact List.Pairwise.nil
  | append_singleton actions a ih =>
    rcases registered_append_singleton l actions a with ⟨hregistered, hsources⟩ | ⟨s, hregistered, hsources⟩
    · rw [hregistered, hsources]
      exact ih
    · rw [hregistered, hsources]
      exact inFirstOrder_addSource (keepsLast_run hempty actions) ih s

/-- **A library lists its sources as an ordered map**: after any run, one source for each protocol that was registered, the last
one under it, in the order in which the protocols were registered first. -/
theorem lists_registered (s : Settings) (files : Files.Tree) (now : Instant) (actions : List Action) :
    Source.Listed (registered actions) ((ofSettings s files now).run actions).sources.values := by
  have hkeeps := keepsLast_run (l := ofSettings s files now) rfl actions
  have horder := inFirstOrder_run (l := ofSettings s files now) rfl actions
  generalize (ofSettings s files now).run actions = l at hkeeps horder ⊢
  have hkeys : l.sources.values.map Source.protocol = l.sources.keys := Table.map_values hkeeps.keyed
  refine ⟨?_, fun key => ?_, fun source hsource => ?_, ?_⟩
  · rw [hkeys]
    exact horder.nodup
  · rw [hkeys]
    exact mem_keys_iff_registered hkeeps key
  · obtain ⟨⟨key, _⟩, hpair, rfl⟩ := List.mem_map.1 hsource
    rw [← hkeeps.get?, hkeeps.keyed _ hpair]
    exact Table.get?_of_mem hpair
  · rw [hkeys]
    exact horder

/-- A protocol that is registered again stays before one that came between. -/
example : ((ofSettings .standard .empty .clockStart).run [.addSource (.echo ['a']), .addSource (.echo ['b']),
    .addSource (.snippets ['a'] .empty)]).protocols = [['a'], ['b']] := by decide +kernel

end Library
end Templates
