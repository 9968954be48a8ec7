/-!
# Tables

A table keeps values under keys, in the order in which the keys first came.  Its view is `Table.get?`, with one small lemma
for each operation: `get?_insert` and `get?_erase` say what a look-up finds, `keys_insert` that a known key keeps its place.
-/
namespace Templates

/-- Values under keys, each key once. -/
structure Table (κ ν : Type) where
  pairs : List (κ × ν)
  nodup : (pairs.map Prod.fst).Nodup

namespace Table

variable {κ ν : Type} [DecidableEq κ]

def empty : Table κ ν := ⟨[], List.nodup_nil⟩

def keys (t : Table κ ν) : List κ := t.pairs.map Prod.fst

def values (t : Table κ ν) : List ν := t.pairs.map Prod.snd

def size (t : Table κ ν) : Nat := t.pairs.length

def find? (k : κ) : List (κ × ν) → Option ν
  | [] => none
  | (j, v) :: rest => if j = k then some v else find? k rest

def get? (t : Table κ ν) (k : κ) : Option ν := find? k t.pairs

/-- A list of pairs with a new value for a key, in place if the key is there and at the end if not. -/
def put (k : κ) (v : ν) : List (κ × ν) → List (κ × ν)
  | [] => [(k, v)]
  | (j, w) :: rest => if j = k then (k, v) :: rest else (j, w) :: put k v rest

theorem keys_put (k : κ) (v : ν) (pairs : List (κ × ν)) :
    (put k v pairs).map Prod.fst =
      if k ∈ pairs.map Prod.fst then pairs.map Prod.fst else pairs.map Prod.fst ++ [k] := by
  induction pairs with
  | nil => simp [put]
  | cons p rest ih =>
    obtain ⟨j, w⟩ := p
    by_cases h : j = k
    · simp [put, h]
    · have h' : k ≠ j := fun e => h e.symm
      simp only [put, if_neg h, List.map_cons, ih, List.mem_cons, h', false_or]
      split <;> simp

def insert (t : Table κ ν) (k : κ) (v : ν) : Table κ ν where
  pairs := put k v t.pairs
  nodup := by
    rw [keys_put]
    split
    · exact t.nodup
    · next h =>
      rw [List.nodup_append]
      exact ⟨t.nodup, by simp, fun a ha b hb => by
        rw [List.mem_singleton] at hb
        exact fun e => h (hb ▸ e ▸ ha)⟩

def erase (t : Table κ ν) (k : κ) : Table κ ν where
  pairs := t.pairs.filter (·.1 ≠ k)
  nodup := (List.filter_sublist.map Prod.fst).nodup t.nodup

/-- The table of some pairs, of which the last counts for each key. -/
def ofList (pairs : List (κ × ν)) : Table κ ν := pairs.foldl (fun t p => t.insert p.1 p.2) empty

@[simp] theorem get?_empty (k : κ) : (empty : Table κ ν).get? k = none := rfl

theorem find?_put (k : κ) (v : ν) (j : κ) (pairs : List (κ × ν)) :
    find? j (put k v pairs) = if k = j then some v else find? j pairs := by
  induction pairs with
  | nil => rfl
  | cons p rest ih =>
    obtain ⟨i, w⟩ := p
    by_cases h : i = k
    · by_cases h' : k = j <;> simp [put, find?, h, h']
    · rw [put, if_neg h, find?, find?, ih]
      by_cases h' : i = j
      · rw [if_pos h', if_pos h', if_neg fun e => h (h'.trans e.symm)]
      · rw [if_neg h', if_neg h']

theorem find?_filter (k j : κ) (pairs : List (κ × ν)) :
    find? j (pairs.filter (·.1 ≠ k)) = if k = j then none else find? j pairs := by
  induction pairs with
  | nil => simp [find?]
  | cons p rest ih =>
    obtain ⟨i, w⟩ := p
    by_cases h : i = k
    · rw [List.filter_cons_of_neg (by simp [h]), ih, find?]
      by_cases h' : k = j
      · rw [if_pos h', if_pos h']
      · rw [if_neg h', if_neg h', if_neg fun e => h' (h.symm.trans e)]
    · rw [List.filter_cons_of_pos (by simp [h]), find?, find?, ih]
      by_cases h' : i = j
      · rw [if_pos h', if_pos h', if_neg fun e => h (h'.trans e.symm)]
      · rw [if_neg h', if_neg h']

theorem get?_insert (t : Table κ ν) (k : κ) (v : ν) (j : κ) :
    (t.insert k v).get? j = if k = j then some v else t.get? j := find?_put k v j t.pairs

theorem get?_erase (t : Table κ ν) (k j : κ) : (t.erase k).get? j = if k = j then none else t.get? j :=
  find?_filter k j t.pairs

theorem mem_of_find?_eq_some {k : κ} {v : ν} {pairs : List (κ × ν)} (h : find? k pairs = some v) : (k, v) ∈ pairs := by
  induction pairs with
  | nil => cases h
  | cons p rest ih =>
    obtain ⟨j, w⟩ := p
    rw [find?] at h
    split at h
    · next hj =>
      cases h
      exact hj ▸ List.mem_cons_self
    · exact List.mem_cons_of_mem _ (ih h)

theorem find?_eq_some_of_mem {k : κ} {v : ν} : ∀ {pairs : List (κ × ν)}, (pairs.map Prod.fst).Nodup → (k, v) ∈ pairs →
    find? k pairs = some v
  | (j, w) :: rest, hnodup, h => by
    obtain ⟨hj, hrest⟩ := List.nodup_cons.1 hnodup
    rw [find?]
    rcases List.mem_cons.1 h with heq | h
    · cases heq
      exact if_pos rfl
    · have hne : j ≠ k := fun heq => hj (List.mem_map.2 ⟨(k, v), h, heq.symm⟩)
      rw [if_neg hne]
      exact find?_eq_some_of_mem hrest h

/-- Each pair of a table is found under its key. -/
theorem get?_of_mem {t : Table κ ν} {k : κ} {v : ν} (h : (k, v) ∈ t.pairs) : t.get? k = some v :=
  find?_eq_some_of_mem t.nodup h

theorem find?_eq_none_iff {k : κ} : ∀ {pairs : List (κ × ν)}, find? k pairs = none ↔ k ∉ pairs.map Prod.fst
  | [] => by simp [find?]
  | (j, v) :: rest => by
    rw [find?, List.map_cons, List.mem_cons, not_or]
    split
    · next h => simp [h]
    · next h => rw [find?_eq_none_iff, and_iff_right fun e => h e.symm]

theorem get?_eq_none_iff {t : Table κ ν} {k : κ} : t.get? k = none ↔ k ∉ t.keys := find?_eq_none_iff

theorem mem_put {k : κ} {v : ν} {p : κ × ν} : ∀ {pairs : List (κ × ν)}, p ∈ put k v pairs → p = (k, v) ∨ p ∈ pairs
  | [], h => .inl (List.mem_singleton.1 h)
  | (j, w) :: rest, h => by
    rw [put] at h
    split at h
    · exact (List.mem_cons.1 h).imp_right (List.mem_cons_of_mem _)
    · rcases List.mem_cons.1 h with rfl | h
      · exact .inr List.mem_cons_self
      · exact (mem_put h).imp_right (List.mem_cons_of_mem _)

theorem filter_of_find? {k : κ} {v : ν} : ∀ {pairs : List (κ × ν)}, (pairs.map Prod.fst).Nodup → find? k pairs = some v →
    pairs.filter (fun p => p.1 = k) = [(k, v)]
  | [], _, h => by cases h
  | (j, w) :: rest, hnodup, h => by
    obtain ⟨hj, hrest⟩ := List.nodup_cons.1 hnodup
    rw [find?] at h
    by_cases hk : j = k
    · rw [if_pos hk] at h
      cases h
      have hnone : rest.filter (fun p => p.1 = k) = [] :=
        List.filter_eq_nil_iff.2 fun p hp hpk => hj (List.mem_map.2 ⟨p, hp, (of_decide_eq_true hpk).trans hk.symm⟩)
      rw [List.filter_cons_of_pos (by simp [hk]), hnone, hk]
    · rw [if_neg hk] at h
      rw [List.filter_cons_of_neg (by simp [hk])]
      exact filter_of_find? hrest h

theorem filter_of_get? {t : Table κ ν} {k : κ} {v : ν} (h : t.get? k = some v) :
    t.pairs.filter (fun p => p.1 = k) = [(k, v)] := filter_of_find? t.nodup h

theorem mem_values_of_get? {t : Table κ ν} {k : κ} {v : ν} (h : t.get? k = some v) : v ∈ t.values :=
  List.mem_map.2 ⟨(k, v), mem_of_find?_eq_some h, rfl⟩

theorem keys_insert (t : Table κ ν) (k : κ) (v : ν) :
    (t.insert k v).keys = if k ∈ t.keys then t.keys else t.keys ++ [k] := keys_put k v t.pairs

/-! ### Tables whose values tell their keys -/

/-- Whether each value of a table tells its key. -/
def KeyedBy (f : ν → κ) (t : Table κ ν) : Prop := ∀ p ∈ t.pairs, f p.2 = p.1

theorem keyedBy_insert {f : ν → κ} {t : Table κ ν} (h : t.KeyedBy f) (v : ν) : (t.insert (f v) v).KeyedBy f := by
  intro p hp
  rcases mem_put hp with rfl | hp
  · rfl
  · exact h p hp

omit [DecidableEq κ] in
theorem map_values {f : ν → κ} {t : Table κ ν} (h : t.KeyedBy f) : t.values.map f = t.keys := by
  rw [values, keys, List.map_map]
  exact List.map_congr_left h

theorem find?_map_snd {f : ν → κ} (k : κ) : ∀ {pairs : List (κ × ν)}, (∀ p ∈ pairs, f p.2 = p.1) →
    (pairs.map Prod.snd).find? (fun v => f v = k) = find? k pairs
  | [], _ => rfl
  | (j, v) :: rest, h => by
    have hv : f v = j := h (j, v) List.mem_cons_self
    have ih := find?_map_snd k fun p hp => h p (List.mem_cons_of_mem _ hp)
    rw [List.map_cons, List.find?_cons, find?, hv, ih]
    by_cases hj : j = k <;> simp [hj]

/-- The first value that tells a key is the one under the key. -/
theorem find?_values {f : ν → κ} {t : Table κ ν} (h : t.KeyedBy f) (k : κ) :
    t.values.find? (fun v => f v = k) = t.get? k := find?_map_snd k h

end Table
end Templates
