import Automata.Sorted.Set

/-!
# Sorted/Map — finite maps kept as lists of entries with strictly ascending keys

The row of a state and the table of all rows are maps of this kind.  `find?_update_self` and
`find?_update_of_ne` say what changing one entry does to every look-up, and `ext_find?` that the
look-ups determine the map, so two maps are equal exactly when they hold the same entries,
whatever the order in which these were made.
-/

namespace Automata

open Ranked (rank rank_inj)

variable {κ ν : Type} [Ranked κ]

/-- The value a list of entries holds for `k`, the first one if there are several. -/
def lookupKey (k : κ) : List (κ × ν) → Option ν
  | [] => none
  | (j, v) :: l => if rank j = rank k then some v else lookupKey k l

/-- Puts `f` of the value held for `k` in its place, keeping the keys ascending. -/
def updateKey (k : κ) (f : Option ν → ν) : List (κ × ν) → List (κ × ν)
  | [] => [(k, f none)]
  | (j, v) :: l =>
    if rank k < rank j then (k, f none) :: (j, v) :: l
    else if rank j = rank k then (j, f (some v)) :: l
    else (j, v) :: updateKey k f l

theorem mem_updateKey_fst {k : κ} {f : Option ν → ν} {e : κ × ν} :
    ∀ {l : List (κ × ν)}, e ∈ updateKey k f l → e.1 = k ∨ e ∈ l
  | [], h => by simp_all [updateKey]
  | (j, v) :: l, h => by
      rw [updateKey] at h
      split at h
      · rcases List.mem_cons.mp h with rfl | h
        · exact .inl rfl
        · exact .inr h
      · split at h
        · rename_i hj
          rcases List.mem_cons.mp h with rfl | h
          · exact .inl (rank_inj hj)
          · exact .inr (List.mem_cons_of_mem _ h)
        · rcases List.mem_cons.mp h with rfl | h
          · exact .inr (by simp)
          · exact (mem_updateKey_fst h).imp id (List.mem_cons_of_mem _)

theorem pairwise_updateKey (k : κ) (f : Option ν → ν) : ∀ {l : List (κ × ν)},
    l.Pairwise (fun d e => rank d.1 < rank e.1) →
    (updateKey k f l).Pairwise (fun d e => rank d.1 < rank e.1)
  | [], _ => by simp [updateKey]
  | (j, v) :: l, h => by
      obtain ⟨hj, hl⟩ := List.pairwise_cons.mp h
      rw [updateKey]
      split
      · rename_i hkj
        refine List.pairwise_cons.mpr ⟨fun e he => ?_, h⟩
        rcases List.mem_cons.mp he with rfl | he
        · exact hkj
        · exact Nat.lt_trans hkj (hj e he)
      · split
        · exact List.pairwise_cons.mpr ⟨hj, hl⟩
        · refine List.pairwise_cons.mpr ⟨fun e he => ?_, pairwise_updateKey k f hl⟩
          rcases mem_updateKey_fst he with hk | he
          · simp only [hk]
            omega
          · exact hj e he

/-- A finite map, as the list of its entries with strictly ascending keys. -/
structure SortedMap (κ ν : Type) [Ranked κ] where
  entries : List (κ × ν)
  ascending : entries.Pairwise (fun d e => rank d.1 < rank e.1)
deriving DecidableEq

namespace SortedMap

instance : EmptyCollection (SortedMap κ ν) := ⟨⟨[], List.Pairwise.nil⟩⟩

instance : Inhabited (SortedMap κ ν) := ⟨∅⟩

/-- Whether there is no entry. -/
def isEmpty (m : SortedMap κ ν) : Bool := m.entries.isEmpty

/-- The value held for a key. -/
def find? (m : SortedMap κ ν) (k : κ) : Option ν := lookupKey k m.entries

/-- Makes or changes the entry of one key, given the value held for it so far. -/
def update (m : SortedMap κ ν) (k : κ) (f : Option ν → ν) : SortedMap κ ν :=
  ⟨updateKey k f m.entries, pairwise_updateKey k f m.ascending⟩

/-- Makes or replaces the entry of one key. -/
def insert (m : SortedMap κ ν) (k : κ) (v : ν) : SortedMap κ ν := m.update k fun _ => v

/-- The map of a list of entries; of several with one key the last counts. -/
def ofEntries (l : List (κ × ν)) : SortedMap κ ν := l.foldl (fun m e => m.insert e.1 e.2) ∅

/-- The map that holds `f k` for each member `k` of a set where `f` is defined. -/
def collect (s : SortedSet κ) (f : κ → Option ν) : SortedMap κ ν :=
  ⟨s.toList.filterMap fun k => (f k).map (k, ·), by
    refine s.ascending.filterMap _ fun a b hab d hd e he => ?_
    obtain ⟨_, _, rfl⟩ := Option.map_eq_some_iff.mp hd
    obtain ⟨_, _, rfl⟩ := Option.map_eq_some_iff.mp he
    exact hab⟩

@[simp] theorem find?_empty (k : κ) : (∅ : SortedMap κ ν).find? k = none := rfl

/-- **The changed entry reads back** — whatever was held for the key before. -/
@[simp] theorem find?_update_self (m : SortedMap κ ν) (k : κ) (f : Option ν → ν) :
    (m.update k f).find? k = some (f (m.find? k)) := by
  have key : ∀ {l : List (κ × ν)}, l.Pairwise (fun d e => rank d.1 < rank e.1) →
      lookupKey k (updateKey k f l) = some (f (lookupKey k l)) := by
    intro l
    induction l with
    | nil => simp [updateKey, lookupKey]
    | cons e l ih =>
        intro h
        obtain ⟨j, v⟩ := e
        obtain ⟨hj, hl⟩ := List.pairwise_cons.mp h
        rw [updateKey]
        split
        · rename_i hkj
          have hne : ∀ {m : List (κ × ν)}, (∀ e ∈ m, rank k < rank e.1) → lookupKey k m = none := by
            intro m
            induction m with
            | nil => intro _; rfl
            | cons e m ih =>
                intro hm
                have := hm e (by simp)
                rw [lookupKey, if_neg (by omega)]
                exact ih fun d hd => hm d (List.mem_cons_of_mem _ hd)
          rw [lookupKey, if_pos rfl, lookupKey, if_neg (by omega),
            hne fun e he => Nat.lt_trans hkj (hj e he)]
        · split
          · rename_i hk
            simp [lookupKey, hk]
          · rename_i hk
            rw [lookupKey, if_neg hk, lookupKey, if_neg hk, ih hl]
  exact key m.ascending

/-- **No other entry changes.** -/
theorem find?_update_of_ne (m : SortedMap κ ν) {j k : κ} (f : Option ν → ν) (h : j ≠ k) :
    (m.update k f).find? j = m.find? j := by
  have hr : ¬ rank k = rank j := fun e => h (rank_inj e).symm
  have key : ∀ (l : List (κ × ν)), lookupKey j (updateKey k f l) = lookupKey j l := by
    intro l
    induction l with
    | nil => simp [updateKey, lookupKey, hr]
    | cons e l ih =>
        obtain ⟨i, v⟩ := e
        rw [updateKey]
        split
        · simp [lookupKey, hr]
        · split
          · rename_i hi
            rw [lookupKey, if_neg (by omega), lookupKey, if_neg (by omega)]
          · simp only [lookupKey, ih]
  exact key m.entries

/-- An entry is on the list exactly when a look-up of its key finds its value. -/
theorem mem_entries_iff {m : SortedMap κ ν} {k : κ} {v : ν} :
    (k, v) ∈ m.entries ↔ m.find? k = some v := by
  have key : ∀ {l : List (κ × ν)}, l.Pairwise (fun d e => rank d.1 < rank e.1) →
      ((k, v) ∈ l ↔ lookupKey k l = some v) := by
    intro l
    induction l with
    | nil => simp [lookupKey]
    | cons e l ih =>
        intro h
        obtain ⟨j, w⟩ := e
        obtain ⟨hj, hl⟩ := List.pairwise_cons.mp h
        rw [lookupKey]
        split
        · rename_i hjk
          obtain rfl := rank_inj hjk
          refine ⟨fun hm => ?_, fun hw => by simp_all⟩
          rcases List.mem_cons.mp hm with hm | hm
          · exact congrArg some (Prod.mk.inj hm).2.symm
          · exact absurd (hj _ hm) (Nat.lt_irrefl _)
        · rename_i hjk
          rw [List.mem_cons, ih hl]
          exact ⟨fun h => h.elim (fun e => absurd (congrArg rank (Prod.mk.inj e).1.symm) hjk) id,
            .inr⟩
  exact key m.ascending

@[simp] theorem find?_collect {s : SortedSet κ} {f : κ → Option ν} {k : κ} (h : k ∈ s) :
    (collect s f).find? k = f k := by
  refine Option.ext fun v => ?_
  rw [← mem_entries_iff, collect, List.mem_filterMap]
  constructor
  · rintro ⟨j, _, hj⟩
    obtain ⟨w, hw, e⟩ := Option.map_eq_some_iff.mp hj
    obtain ⟨rfl, rfl⟩ := Prod.mk.inj e
    exact hw
  · exact fun hv => ⟨k, h, by rw [hv]; rfl⟩

theorem find?_collect_of_not_mem {s : SortedSet κ} {f : κ → Option ν} {k : κ} (h : k ∉ s) :
    (collect s f).find? k = none := by
  refine Option.eq_none_iff_forall_ne_some.mpr fun v hv => h ?_
  rw [← mem_entries_iff, collect, List.mem_filterMap] at hv
  obtain ⟨j, hj, hv⟩ := hv
  obtain ⟨w, _, e⟩ := Option.map_eq_some_iff.mp hv
  obtain ⟨rfl, _⟩ := Prod.mk.inj e
  exact hj

/-- **Maps with the same look-ups are equal.** -/
theorem ext_find? {m n : SortedMap κ ν} (h : ∀ k, m.find? k = n.find? k) : m = n := by
  have hmem : ∀ e, e ∈ m.entries ↔ e ∈ n.entries := fun ⟨k, v⟩ => by
    rw [mem_entries_iff, mem_entries_iff, h k]
  obtain ⟨l, hl⟩ := m
  obtain ⟨l', hl'⟩ := n
  obtain rfl := eq_of_ascending hl hl' hmem
  rfl

end SortedMap

end Automata
