import Mathlib.Logic.Relation
import Templates.Proofs.Paths
import Templates.Proofs.Stems
/-!
# Spellings of a path

The path of a request depends on the segments of its stem only, so that it does not matter which separators stand in a name and
how often (`Name.Respelled`, `segments_requestStem_of_respelled`).  A segment holds no separator, and so the path stays under its
folder: no piece of it is a path of its own (`under_eq_foldl_push`), and behind the folder stand the segments with single slashes
between them (`under_eq`).
-/
namespace Templates
namespace Path

variable {folder extension : Text}

/-! ### Segments of a stem -/

theorem mem_segments {s piece : Text} (h : piece ∈ segments s) :
    piece ≠ [] ∧ ∀ c ∈ piece, Name.isSeparator c = false := by
  refine ⟨by simpa using (List.mem_filter.1 h).2, fun c hc => ?_⟩
  have hflat : c ∈ (segments s).flatten := List.mem_flatten.2 ⟨piece, h, hc⟩
  rw [flatten_segments] at hflat
  simpa using (List.mem_filter.1 hflat).2

/-- The segments of a stem behind a separator do not depend on that separator. -/
theorem segments_fileStem_congr {above above' below : Text} {c d : Char} (hc : Name.isSeparator c = true)
    (hd : Name.isSeparator d = true) (h : segments above = segments above') :
    segments (Name.fileStem (above ++ c :: below)) = segments (Name.fileStem (above' ++ d :: below)) := by
  by_cases hdot : Name.IsDotFile below
  · rw [Name.fileStem_append_dotFile hc above hdot, Name.fileStem_append_dotFile hd above' hdot,
      segments_append_separators (by simpa using hc), segments_append_separators (by simpa using hd), h]
  · rw [Name.fileStem_append_cons hc above hdot, Name.fileStem_append_cons hd above' hdot, segments_append_cons hc,
      segments_append_cons hd, h]

end Path

namespace Name

/-- A name in which one separator is written as another one, or written twice. -/
inductive Respelled : Text → Text → Prop where
  | replaced {c d : Char} (above below : Text) : isSeparator c = true → isSeparator d = true →
      Respelled (above ++ c :: below) (above ++ d :: below)
  | doubled {c : Char} (above below : Text) : isSeparator c = true →
      Respelled (above ++ c :: below) (above ++ c :: c :: below)

/-- What stands behind a hash sign has no part in the stem. -/
theorem requestStem_append_of_hash_mem {above : Text} (h : '#' ∈ above) (below : Text) :
    requestStem (above ++ below) = requestStem above := by
  obtain ⟨file, parts, rfl⟩ := List.append_of_mem h
  rw [requestStem, requestStem, List.append_assoc, List.cons_append, takeWhile_ne_append_cons, takeWhile_ne_append_cons]

theorem segments_requestStem_of_step {name other : Text} (h : Respelled name other) :
    Path.segments (requestStem other) = Path.segments (requestStem name) := by
  cases h with
  | replaced above below hc hd =>
    by_cases hhash : '#' ∈ above
    · rw [requestStem_append_of_hash_mem hhash, requestStem_append_of_hash_mem hhash]
    · rw [requestStem, requestStem, takeWhile_hash_append_cons hd hhash, takeWhile_hash_append_cons hc hhash]
      exact Path.segments_fileStem_congr hd hc rfl
  | @doubled c above below hc =>
    by_cases hhash : '#' ∈ above
    · rw [requestStem_append_of_hash_mem hhash, requestStem_append_of_hash_mem hhash]
    · have htwice : '#' ∉ above ++ [c] := by
        rw [List.mem_append, not_or]
        refine ⟨hhash, fun hmem => ?_⟩
        obtain rfl := List.mem_singleton.1 hmem
        cases hc
      have hsame : above ++ c :: c :: below = (above ++ [c]) ++ c :: below := by simp
      rw [hsame, requestStem, requestStem, takeWhile_hash_append_cons hc htwice, takeWhile_hash_append_cons hc hhash]
      exact Path.segments_fileStem_congr hc hc (Path.segments_append_separators (by simpa using hc) above)

theorem segments_requestStem_of_respelled {name other : Text} (h : Relation.EqvGen Respelled name other) :
    Path.segments (requestStem other) = Path.segments (requestStem name) := by
  induction h with
  | rel name other h => exact segments_requestStem_of_step h
  | refl name => rfl
  | symm name other _ ih => exact ih.symm
  | trans name between other _ _ ih ih' => exact ih'.trans ih

end Name

namespace Path

variable {folder extension : Text}

/-! ### What stands behind the folder -/

/-- What a path needs behind it before the next piece. -/
def gap (path : Text) : Text := if path = [] ∨ path.getLast? = some '/' then [] else ['/']

theorem join_eq (path piece : Text) : join path piece = path ++ (gap path ++ piece) := by
  unfold join gap
  split <;> simp

theorem gap_append {piece : Text} (hne : piece ≠ []) (h : '/' ∉ piece) (path : Text) : gap (path ++ piece) = ['/'] := by
  refine if_neg ?_
  rintro (hnil | hlast)
  · exact hne (List.append_eq_nil_iff.1 hnil).2
  · rw [List.getLast?_append, Option.or_of_isSome (by simpa using hne)] at hlast
    exact h (List.mem_of_getLast? hlast)

/-- **The pieces of a path stand behind its folder** with single slashes between them. -/
theorem under_eq : ∀ {pieces : List Text} (folder : Text), pieces ≠ [] → (∀ piece ∈ pieces, piece ≠ [] ∧ '/' ∉ piece) →
    under folder extension pieces = folder ++ (gap folder ++ (['/'].intercalate pieces ++ '.' :: extension))
  | [piece], folder, _, _ => by simp [under, join_eq]
  | piece :: next :: pieces, folder, _, h => by
    obtain ⟨⟨hne, hslash⟩, hrest⟩ := List.forall_mem_cons.1 h
    have hgap : gap (join folder piece) = ['/'] := by
      rw [join_eq, ← List.append_assoc]
      exact gap_append hne hslash _
    rw [under_cons (List.cons_ne_nil next pieces), under_eq _ (List.cons_ne_nil next pieces) hrest, hgap, join_eq,
      List.intercalate_cons_of_ne_nil (List.cons_ne_nil next pieces)]
    simp

/-- A path with a piece put behind it, unless that piece is a path from the root, which takes its place. -/
def push (path piece : Text) : Text := if piece.head? = some '/' then piece else join path piece

/-- The pieces of a file's path: its segments, the last one with the extension behind it. -/
def filePieces (extension : Text) : List Text → List Text
  | [] => []
  | [piece] => [piece ++ '.' :: extension]
  | piece :: pieces => piece :: filePieces extension pieces

theorem push_eq_join {piece : Text} (h : '/' ∉ piece) (hne : piece ≠ []) (path rest : Text) :
    push path (piece ++ rest) = join path (piece ++ rest) := by
  obtain ⟨c, t, rfl⟩ := List.exists_cons_of_ne_nil hne
  have hc : c ≠ '/' := fun heq => h (heq ▸ List.mem_cons_self)
  exact if_neg (by simpa using hc)

/-- **No piece of a path takes the place of its folder.** -/
theorem under_eq_foldl_push : ∀ {pieces : List Text} (folder : Text), (∀ piece ∈ pieces, piece ≠ [] ∧ '/' ∉ piece) →
    under folder extension pieces = (filePieces extension pieces).foldl push folder
  | [], _, _ => rfl
  | [piece], folder, h => by
    obtain ⟨hne, hslash⟩ := h piece List.mem_cons_self
    exact (push_eq_join hslash hne folder _).symm
  | piece :: next :: pieces, folder, h => by
    obtain ⟨⟨hne, hslash⟩, hrest⟩ := List.forall_mem_cons.1 h
    have hpush : push folder piece = join folder piece := by simpa using push_eq_join hslash hne folder []
    rw [under_cons (List.cons_ne_nil next pieces), under_eq_foldl_push _ hrest, ← hpush]
    rfl

/-- **The path of a request** is the same however the separators of the name are written.  It starts with the text of the folder,
behind which stand the segments of the stem with single slashes between them and the extension behind the last; and it is what
comes of pushing these pieces one after the other. -/
theorem locate_spelled (folder extension name : Text) :
    (∀ other, Relation.EqvGen Name.Respelled name other → locate folder extension other = locate folder extension name) ∧
    folder <+: locate folder extension name ∧
    locate folder extension name = folder ++ (if segments (Name.requestStem name) = [] then []
      else gap folder ++ (['/'].intercalate (segments (Name.requestStem name)) ++ '.' :: extension)) ∧
    locate folder extension name = (filePieces extension (segments (Name.requestStem name))).foldl push folder := by
  have hpieces : ∀ piece ∈ segments (Name.requestStem name), piece ≠ [] ∧ '/' ∉ piece := by
    intro piece hpiece
    obtain ⟨hne, hplain⟩ := mem_segments hpiece
    exact ⟨hne, fun hslash => by cases hplain '/' hslash⟩
  have hpath : locate folder extension name = folder ++ (if segments (Name.requestStem name) = [] then []
      else gap folder ++ (['/'].intercalate (segments (Name.requestStem name)) ++ '.' :: extension)) := by
    unfold locate
    split
    · next hnil => rw [hnil, under, List.append_nil]
    · next hne => exact under_eq folder hne hpieces
  refine ⟨fun other hother => ?_, ?_, hpath, under_eq_foldl_push folder hpieces⟩
  · rw [locate, locate, Name.segments_requestStem_of_respelled hother]
  · rw [hpath]
    exact List.prefix_append _ _

/-- A slash that is written as two backslashes. -/
theorem locate_spelled_backslashes :
    Relation.EqvGen Name.Respelled ['a', '/', 'b', '.', 'c'] ['a', '\\', '\\', 'b', '.', 'c'] ∧
      locate ['t'] ['x'] ['a', '\\', '\\', 'b', '.', 'c'] = ['t', '/', 'a', '/', 'b', '.', 'x'] := by
  have hreplaced : Name.Respelled ['a', '/', 'b', '.', 'c'] ['a', '\\', 'b', '.', 'c'] :=
    .replaced ['a'] ['b', '.', 'c'] rfl rfl
  have hdoubled : Name.Respelled ['a', '\\', 'b', '.', 'c'] ['a', '\\', '\\', 'b', '.', 'c'] :=
    .doubled ['a'] ['b', '.', 'c'] rfl
  have hspelled := Relation.EqvGen.trans _ _ _ (.rel _ _ hreplaced) (.rel _ _ hdoubled)
  refine ⟨hspelled, ?_⟩
  rw [(locate_spelled ['t'] ['x'] ['a', '/', 'b', '.', 'c']).1 _ hspelled]
  decide +kernel

end Path
end Templates
