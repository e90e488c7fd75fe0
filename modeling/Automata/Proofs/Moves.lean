import Automata.Proofs.Loaded
import Mathlib.Algebra.Order.BigOperators.Group.List
import Mathlib.Algebra.Order.Group.Nat
import Mathlib.Data.List.Nodup

/-!
# Proofs/Moves — tables as lists of moves

A table is its look-ups (`Table.ext_entry?`) as long as it stores no empty row, and recording moves
stores none (`Table.full_ofMoves`).  So a table that leads from each state and symbol to what
recording its targets makes is recorded again from the list of its moves
(`Machine.ofMoves_moves`), which has as many entries as moves are stored
(`Machine.length_moves`).
-/

namespace Automata

/-- One move: a state, a symbol and one of the states they lead to. -/
abbrev Move := StateId × Symbol × StateId

/-! ## Lists, sets and maps -/

/-- On a list without repetition a single place answers a question about equality. -/
theorem flatMap_ite_eq {α β : Type} [DecidableEq α] {f : α → List β} {y : α} :
    ∀ {l : List α}, l.Nodup → (l.flatMap fun x => if x = y then f x else []) =
      if y ∈ l then f y else []
  | [], _ => rfl
  | x :: l, h => by
      obtain ⟨hx, hl⟩ := List.nodup_cons.mp h
      rw [List.flatMap_cons, flatMap_ite_eq hl]
      by_cases hxy : x = y
      · subst hxy
        simp [hx]
      · simp [hxy, Ne.symm hxy]

/-- **A map is listed by any set that holds its keys.** -/
theorem SortedMap.entries_eq_filterMap {κ ν : Type} [Ranked κ] {m : SortedMap κ ν} {s : SortedSet κ}
    (h : ∀ k v, m.find? k = some v → k ∈ s) :
    m.entries = s.toList.filterMap fun k => (m.find? k).map (k, ·) := by
  have : m = SortedMap.collect s m.find? := by
    refine SortedMap.ext_find? fun k => ?_
    by_cases hk : k ∈ s
    · rw [SortedMap.find?_collect hk]
    · rw [SortedMap.find?_collect_of_not_mem hk]
      exact Option.eq_none_iff_forall_ne_some.mpr fun v hv => hk (h k v hv)
  exact congrArg SortedMap.entries this

/-- A strictly ascending list has no more members than there are numbers to order them by. -/
theorem SortedSet.size_le {α : Type} [Ranked α] {s : SortedSet α} {n : Nat}
    (h : ∀ a ∈ s, Ranked.rank a < n) : s.size ≤ n := by
  have hnodup : (s.toList.map Ranked.rank).Nodup :=
    s.nodup.map fun _ _ => Ranked.rank_inj
  have hsub : s.toList.map Ranked.rank ⊆ List.range n := by
    intro k hk
    obtain ⟨a, ha, rfl⟩ := List.mem_map.mp hk
    exact List.mem_range.mpr (h a ha)
  simpa [size] using (List.subperm_of_subset hnodup hsub).length_le

theorem Alphabet.size_le (A : Alphabet) : A.size ≤ 0x110000 :=
  SortedSet.size_le fun a _ => by
    change a.toNat < _
    rcases a.valid with h | ⟨-, h⟩
    · exact Nat.lt_trans h (by decide)
    · exact h

variable {τ : Type}

/-! ## Recorded targets -/

section

variable [Target τ]

/-- What results when more states are recorded. -/
def recordAll (t : Option τ) (qs : List StateId) : Option τ :=
  qs.foldl (fun t q => some (Target.record t q)) t

/-- **What recording its states, in stored order, makes.** -/
def Recorded (t : τ) : Prop := recordAll none (Target.states t) = some t

/-- The states a state and a symbol lead to, on a list of moves. -/
def targetsOf (ms : List Move) (p : StateId) (a : Symbol) : List StateId :=
  ms.filterMap fun s => if s.1 = p ∧ s.2.1 = a then some s.2.2 else none

theorem targetsOf_flatMap {α : Type} {f : α → List Move} (l : List α) (p : StateId) (a : Symbol) :
    targetsOf (l.flatMap f) p a = l.flatMap fun x => targetsOf (f x) p a :=
  List.filterMap_flatMap

theorem mem_targetsOf {ms : List Move} {p q : StateId} {a : Symbol} :
    q ∈ targetsOf ms p a ↔ (p, a, q) ∈ ms := by
  rw [targetsOf, List.mem_filterMap]
  constructor
  · rintro ⟨s, hs, h⟩
    split at h
    · rename_i e
      obtain ⟨rfl, rfl⟩ := e
      obtain rfl := Option.some.inj h
      exact hs
    · exact nomatch h
  · exact fun h => ⟨_, h, if_pos ⟨rfl, rfl⟩⟩

/-- Nothing is led to but what was recorded. -/
theorem mem_states_recordAll [LawfulTarget τ] {r : StateId} {u : τ} {qs : List StateId}
    {t : Option τ} (h : recordAll t qs = some u) (hr : r ∈ Target.states u) :
    r ∈ qs ∨ ∃ v, t = some v ∧ r ∈ Target.states v := by
  induction qs generalizing t with
  | nil => exact .inr ⟨u, h, hr⟩
  | cons q qs ih =>
      rcases ih h with hmem | ⟨v, hv, hmem⟩
      · exact .inl (List.mem_cons_of_mem q hmem)
      · obtain rfl := Option.some.inj hv
        rcases LawfulTarget.mem_states_record hmem with rfl | hold
        · exact .inl List.mem_cons_self
        · exact .inr hold

end

/-- A target that leads to each state once, and is recorded again from these states if it was
recorded at all. -/
class FaithfulTarget (τ : Type) [Target τ] : Prop extends LawfulTarget τ where
  recorded_of_recordAll : ∀ {qs : List StateId} {t : τ}, recordAll none qs = some t → Recorded t
  nodup_states : ∀ {t : τ}, Recorded t → (Target.states t).Nodup
  length_states_le : ∀ {t : τ}, Target.branching τ = false → (Target.states t).length ≤ 1

instance : FaithfulTarget StateId where
  recorded_of_recordAll _ := rfl
  nodup_states _ := List.nodup_singleton _
  length_states_le _ := Nat.le_refl 1

/-! ## Tables -/

namespace Table

/-- What a table stores for a state and a symbol. -/
def entry? (T : Table τ) (p : StateId) (a : Symbol) : Option τ := (T.find? p).bind (·.find? a)

/-- **No empty row is stored.** -/
def Full (T : Table τ) : Prop := ∀ p row, T.find? p = some row → row ≠ ∅

theorem full_iff {T : Table τ} : T.Full ↔ ∀ r ∈ T.entries, r.2 ≠ ∅ :=
  ⟨fun h r hr => h r.1 r.2 (SortedMap.mem_entries_iff.mp hr),
    fun h p row hrow => h (p, row) (SortedMap.mem_entries_iff.mpr hrow)⟩

theorem exists_find?_of_ne_empty {row : Row τ} (h : row ≠ ∅) : ∃ a t, row.find? a = some t := by
  by_contra hnone
  refine h (SortedMap.ext_find? fun a => ?_)
  rw [SortedMap.find?_empty]
  exact Option.eq_none_iff_forall_ne_some.mpr fun t ht => hnone ⟨a, t, ht⟩

/-- **Full tables with the same look-ups are equal.** -/
theorem ext_entry? {T U : Table τ} (hT : T.Full) (hU : U.Full)
    (h : ∀ p a, T.entry? p a = U.entry? p a) : T = U := by
  -- a row of one table is found in the other, as some look-up in it succeeds
  have key : ∀ {T U : Table τ}, T.Full → (∀ p a, T.entry? p a = U.entry? p a) →
      ∀ p row, T.find? p = some row → U.find? p = some row := by
    intro T U hT h p row hrow
    have hentry : ∀ a, row.find? a = U.entry? p a := fun a => by
      rw [← h, entry?, hrow, Option.bind_some]
    obtain ⟨a, t, ht⟩ := exists_find?_of_ne_empty (hT p row hrow)
    obtain ⟨row', hrow', -⟩ := Option.bind_eq_some_iff.mp ((hentry a).symm.trans ht)
    have hrows : row = row' := SortedMap.ext_find? fun b => by
      rw [hentry, entry?, hrow', Option.bind_some]
    rw [hrow', hrows]
  refine SortedMap.ext_find? fun p => Option.ext fun row => ⟨key hT h p row, ?_⟩
  exact key hU (fun p a => (h p a).symm) p row

/-- A row that is not stored holds nothing. -/
theorem find?_getD (T : Table τ) (p : StateId) (a : Symbol) :
    ((T.find? p).getD ∅).find? a = T.entry? p a := by
  unfold entry?
  cases T.find? p <;> rfl

variable [Target τ]

/-- **Recording a move changes one look-up.** -/
theorem entry?_record (T : Table τ) (p r : StateId) (a b : Symbol) (q : StateId) :
    entry? (Draft.record T p a q) r b =
      if p = r ∧ a = b then some (Target.record (T.entry? r b) q) else T.entry? r b := by
  rw [Draft.record, entry?]
  by_cases hp : r = p
  case neg =>
    rw [SortedMap.find?_update_of_ne _ _ hp, if_neg fun h => hp h.1.symm]
    rfl
  subst hp
  rw [SortedMap.find?_update_self, Option.bind_some]
  by_cases ha : b = a
  case neg => rw [SortedMap.find?_update_of_ne _ _ ha, if_neg fun h => ha h.2.symm, find?_getD]
  subst ha
  rw [SortedMap.find?_update_self, if_pos ⟨rfl, rfl⟩, find?_getD]

theorem Full.record {T : Table τ} (h : T.Full) (p : StateId) (a : Symbol) (q : StateId) :
    Full (Draft.record T p a q) := by
  intro r row hrow
  by_cases hr : r = p
  · subst hr
    rw [Draft.record, SortedMap.find?_update_self] at hrow
    rintro rfl
    have := congrArg (SortedMap.find? · a) (Option.some.inj hrow)
    simp at this
  · rw [Draft.record, SortedMap.find?_update_of_ne _ _ hr] at hrow
    exact h r row hrow

/-- The table of a list of moves. -/
def ofMoves (ms : List Move) : Table τ :=
  ms.foldl (fun T s => Draft.record T s.1 s.2.1 s.2.2) ∅

/-- **A state and a symbol lead to what recording their targets makes.** -/
theorem entry?_ofMoves (ms : List Move) (p : StateId) (a : Symbol) :
    entry? (ofMoves ms : Table τ) p a = recordAll none (targetsOf ms p a) := by
  have key : ∀ (ms : List Move) (T : Table τ),
      entry? (ms.foldl (fun T s => Draft.record T s.1 s.2.1 s.2.2) T) p a =
        recordAll (T.entry? p a) (targetsOf ms p a) := by
    intro ms
    induction ms with
    | nil => exact fun _ => rfl
    | cons s ms ih =>
        intro T
        rw [List.foldl_cons, ih, entry?_record, targetsOf, targetsOf, List.filterMap_cons]
        split <;> rfl
  exact key ms ∅

theorem full_ofMoves (ms : List Move) : Full (ofMoves ms : Table τ) := by
  have key : ∀ (ms : List Move) (T : Table τ), T.Full →
      Full (ms.foldl (fun T s => Draft.record T s.1 s.2.1 s.2.2) T) := by
    intro ms
    induction ms with
    | nil => exact fun _ h => h
    | cons s ms ih => exact fun T h => ih _ (h.record _ _ _)
  exact key ms ∅ fun _ _ h => nomatch h

end Table

/-! ## Machines -/

namespace Machine

variable [Target τ] {m : Machine τ}

/-- The moves, by state and then by symbol, those of one entry in stored order. -/
def moves (m : Machine τ) : List Move :=
  m.transitions.flatMap fun s => (Target.states s.2.2).map fun q => (s.1, s.2.1, q)

/-- The moves are those of all states on all symbols. -/
theorem moves_eq : m.moves = m.states.flatMap fun p => m.alphabet.toList.flatMap fun a =>
    (m.targets p a).map fun q => (p, a, q) := by
  rw [moves, transitions, List.flatMap_assoc]
  congr 1
  funext p
  rw [List.filterMap_eq_flatMap_toList, List.flatMap_assoc]
  congr 1
  funext a
  rw [targets]
  cases m.entry? p a with
  | none => rfl
  | some t =>
      rw [Option.filter_some]
      split
      · simp
      · rename_i ht
        have : Target.states t = [] := by simpa using ht
        simp [this]

theorem mem_moves_iff {p q : StateId} {a : Symbol} :
    (p, a, q) ∈ m.moves ↔ p < m.numStates ∧ a ∈ m.alphabet ∧ q ∈ m.targets p a := by
  rw [moves_eq]
  simp only [List.mem_flatMap, List.mem_map, Prod.mk.injEq, mem_states]
  constructor
  · rintro ⟨p, hp, a, ha, q, hq, rfl, rfl, rfl⟩
    exact ⟨hp, ha, hq⟩
  · rintro ⟨hp, ha, hq⟩
    exact ⟨p, hp, a, ha, q, hq, rfl, rfl, rfl⟩

theorem targetsOf_moves (h : m.WellFormed) (p : StateId) (a : Symbol) :
    targetsOf m.moves p a = m.targets p a := by
  have hplace : ∀ r b, targetsOf ((m.targets r b).map fun q => (r, b, q)) p a =
      if r = p then (if b = a then m.targets r b else []) else [] := by
    intro r b
    rw [targetsOf, List.filterMap_map]
    by_cases hr : r = p <;> by_cases hb : b = a <;> simp [hr, hb]
  have hsymbols : ∀ r, (m.alphabet.toList.flatMap fun b =>
      targetsOf ((m.targets r b).map fun q => (r, b, q)) p a) =
        if r = p then (if a ∈ m.alphabet.toList then m.targets r a else []) else [] := by
    intro r
    simp only [hplace]
    split
    · rw [flatMap_ite_eq m.alphabet.nodup]
    · simp
  simp only [moves_eq, targetsOf_flatMap, hsymbols]
  rw [states, flatMap_ite_eq List.nodup_range]
  cases ht : m.entry? p a with
  | none => simp [targets, ht]
  | some t =>
      obtain ⟨hp, ha, -⟩ := h.of_entry? ht
      rw [if_pos (List.mem_range.mpr hp), if_pos (SortedSet.mem_toList.mpr ha)]

/-- **As many moves are stored as there are.** -/
theorem length_moves (h : m.WellFormed) : m.moves.length = m.transitionCount := by
  have hrow : ∀ p row, m.table.find? p = some row →
      (row.entries.flatMap fun e => Target.states e.2) =
        m.alphabet.toList.flatMap fun a => m.targets p a := by
    intro p row hrow
    have hkeys : ∀ a t, row.find? a = some t → a ∈ m.alphabet := fun a t ht =>
      (h.of_entry? (Option.bind_eq_some_iff.mpr ⟨row, hrow, ht⟩)).2.1
    rw [SortedMap.entries_eq_filterMap hkeys, List.filterMap_eq_flatMap_toList, List.flatMap_assoc]
    congr 1
    funext a
    rw [targets, entry?, hrow, Option.bind_some]
    cases row.find? a <;> simp
  have hkeys : ∀ p row, m.table.find? p = some row → p ∈ SortedSet.range m.numStates :=
    fun p row hrow => SortedSet.mem_range.mpr (h.table_ok _ (SortedMap.mem_entries_iff.mpr hrow)).1
  rw [transitionCount, SortedMap.entries_eq_filterMap hkeys, List.filterMap_eq_flatMap_toList,
    List.flatMap_assoc, moves_eq]
  simp only [List.length_flatMap, List.length_map]
  congr 1
  refine List.map_congr_left fun p _ => ?_
  cases hp : m.table.find? p with
  | none => simp [targets, entry?, hp]
  | some row =>
    have := congrArg List.length (hrow p row hp)
    simpa [List.length_flatMap] using this.symm

/-- **A table without empty rows whose entries are what recording them makes is recorded again.** -/
theorem ofMoves_moves (h : m.WellFormed) (hfull : m.table.Full)
    (hrecorded : ∀ p a t, m.entry? p a = some t → Recorded t) :
    Table.ofMoves m.moves = m.table := by
  refine Table.ext_entry? (Table.full_ofMoves _) hfull fun p a => ?_
  rw [Table.entry?_ofMoves, targetsOf_moves h, targets]
  change _ = m.entry? p a
  cases ht : m.entry? p a with
  | none => rfl
  | some t => exact hrecorded p a t ht

/-- **A machine without empty rows is judged by what its entries lead to.** -/
theorem WellFormed.of_full (hfull : m.table.Full)
    (hinitial : m.initial < m.numStates) (hfinals : ∀ q ∈ m.finals, q < m.numStates)
    (hentry : ∀ p a t, m.entry? p a = some t →
      p < m.numStates ∧ a ∈ m.alphabet ∧ ∀ q ∈ Target.states t, q < m.numStates) :
    m.WellFormed := by
  refine .of_find? hinitial hfinals (fun p row hrow => ?_) fun p row a t hrow ht => ?_
  · obtain ⟨a, t, ht⟩ := Table.exists_find?_of_ne_empty (hfull p row hrow)
    exact (hentry p a t (Option.bind_eq_some_iff.mpr ⟨row, hrow, ht⟩)).1
  · exact (hentry p a t (Option.bind_eq_some_iff.mpr ⟨row, hrow, ht⟩)).2

/-! ## Order and number -/

theorem entry?_of_mem_transitions {s : StateId × Symbol × τ} (h : s ∈ m.transitions) :
    m.entry? s.1 s.2.1 = some s.2.2 := by
  obtain ⟨p, -, h⟩ := List.mem_flatMap.mp h
  obtain ⟨a, -, h⟩ := List.mem_filterMap.mp h
  obtain ⟨t, ht, rfl⟩ := Option.map_eq_some_iff.mp h
  exact Option.eq_some_of_filter_eq_some ht

/-- **The moves stand by state and then by symbol**, each state and symbol once. -/
theorem pairwise_transitions : m.transitions.Pairwise fun s t =>
    s.1 < t.1 ∨ s.1 = t.1 ∧ s.2.1.toNat < t.2.1.toNat := by
  have hfst : ∀ p, ∀ s ∈ m.alphabet.toList.filterMap (fun a =>
      ((m.entry? p a).filter fun t => !(Target.states t).isEmpty).map fun t => (p, a, t)),
      s.1 = p := by
    intro p s hs
    obtain ⟨a, -, hs⟩ := List.mem_filterMap.mp hs
    obtain ⟨t, -, rfl⟩ := Option.map_eq_some_iff.mp hs
    rfl
  rw [transitions, List.pairwise_flatMap]
  refine ⟨fun p _ => ?_, List.pairwise_lt_range.imp fun hpq s hs t ht => .inl ?_⟩
  · refine m.alphabet.ascending.filterMap _ fun a b hab s hs t ht => .inr ?_
    obtain ⟨_, _, rfl⟩ := Option.map_eq_some_iff.mp hs
    obtain ⟨_, _, rfl⟩ := Option.map_eq_some_iff.mp ht
    exact ⟨rfl, hab⟩
  · rwa [hfst _ s hs, hfst _ t ht]

/-- **A relation between moves holds throughout** if it holds between those of one entry, and
between those of different ones. -/
theorem pairwise_moves {R : Move → Move → Prop}
    (hentry : ∀ p a t, m.entry? p a = some t →
      (Target.states t).Pairwise fun q r => R (p, a, q) (p, a, r))
    (hlt : ∀ s t : Move, (s.1 < t.1 ∨ s.1 = t.1 ∧ s.2.1.toNat < t.2.1.toNat) → R s t) :
    m.moves.Pairwise R := by
  rw [moves, List.pairwise_flatMap]
  refine ⟨fun s hs => List.pairwise_map.mpr ?_, m.pairwise_transitions.imp fun hst x hx y hy => ?_⟩
  · exact hentry _ _ _ (entry?_of_mem_transitions hs)
  · obtain ⟨q, -, rfl⟩ := List.mem_map.mp hx
    obtain ⟨r, -, rfl⟩ := List.mem_map.mp hy
    exact hlt _ _ hst

/-- The moves of recorded targets are told apart. -/
theorem nodup_moves [FaithfulTarget τ] (h : ∀ p a t, m.entry? p a = some t → Recorded t) :
    m.moves.Nodup := by
  refine pairwise_moves (fun p a t ht => ?_) fun s t hst => ?_
  · refine (FaithfulTarget.nodup_states (h p a t ht)).imp fun hne e => hne ?_
    exact (Prod.mk.inj (Prod.mk.inj e).2).2
  · rintro rfl
    rcases hst with hst | ⟨-, hst⟩ <;> exact Nat.lt_irrefl _ hst

/-- **Without branching a state and a symbol have one move.** -/
theorem nodup_keys_moves [FaithfulTarget τ] (h : Target.branching τ = false) :
    (m.moves.map fun s => (s.1, s.2.1)).Nodup := by
  refine List.pairwise_map.mpr (pairwise_moves (fun p a t _ => ?_) fun s t hst e => ?_)
  · have hlength := FaithfulTarget.length_states_le (t := t) h
    match Target.states t, hlength with
    | [], _ => exact List.Pairwise.nil
    | [q], _ => exact List.pairwise_singleton _ q
  · obtain ⟨hp, ha⟩ := Prod.mk.inj e
    rw [hp, ha] at hst
    rcases hst with hst | ⟨-, hst⟩ <;> exact Nat.lt_irrefl _ hst

/-- No more moves are stored than any list of them has. -/
theorem transitionCount_le [FaithfulTarget τ] (h : m.WellFormed)
    (hrecorded : ∀ p a t, m.entry? p a = some t → Recorded t) {ms : List Move}
    (hms : m.moves ⊆ ms) : m.transitionCount ≤ ms.length := by
  rw [← length_moves h]
  exact (List.subperm_of_subset (nodup_moves hrecorded) hms).length_le

theorem length_transitions_le : m.transitions.length ≤ m.numStates * m.alphabet.size := by
  rw [transitions, List.length_flatMap]
  refine (List.sum_le_card_nsmul _ m.alphabet.size fun k hk => ?_).trans_eq ?_
  · obtain ⟨p, -, rfl⟩ := List.mem_map.mp hk
    exact List.length_filterMap_le _ _
  · simp [states]

end Machine

/-! ## Drafts -/

namespace Draft

variable [Target τ] {b : Draft τ}

/-- The moves the transitions of a draft declare. -/
def moves (b : Draft τ) : List Move :=
  b.transitions.map fun t => (b.stateId t.source, t.symbol, b.stateId t.target)

theorem table_eq_ofMoves : b.table = Table.ofMoves b.moves := by
  rw [table, Table.ofMoves, moves, List.foldl_map]

theorem full_machine : b.machine.table.Full := by
  rw [machine, table_eq_ofMoves]
  exact Table.full_ofMoves _

theorem entry?_machine (p : StateId) (a : Symbol) :
    b.machine.entry? p a = recordAll none (targetsOf b.moves p a) := by
  rw [← Table.entry?_ofMoves, ← table_eq_ofMoves]
  rfl

theorem recorded_of_entry?_machine [FaithfulTarget τ] {p : StateId} {a : Symbol} {t : τ}
    (h : b.machine.entry? p a = some t) : Recorded t := by
  rw [entry?_machine] at h
  exact FaithfulTarget.recorded_of_recordAll h

/-- **A machine has no moves but those declared.** -/
theorem moves_machine_subset [LawfulTarget τ] : b.machine.moves ⊆ b.moves := by
  rintro ⟨p, a, q⟩ hs
  obtain ⟨-, -, hq⟩ := Machine.mem_moves_iff.mp hs
  obtain ⟨t, ht, hq⟩ := Machine.mem_targets_iff.mp hq
  rw [entry?_machine] at ht
  rcases mem_states_recordAll ht hq with hq | ⟨_, h, -⟩
  · exact mem_targetsOf.mp hq
  · exact nomatch h

/-- A machine stores no more moves than there are transitions. -/
theorem transitionCount_machine_le [FaithfulTarget τ] (h : b.machine.WellFormed) :
    b.machine.transitionCount ≤ b.transitions.length :=
  (Machine.transitionCount_le h (fun _ _ _ => recorded_of_entry?_machine)
    moves_machine_subset).trans_eq (List.length_map _)

end Draft

namespace Dfa

/-- A move of a deterministic automaton is a stored entry. -/
theorem moves_eq_transitions (d : Dfa) : d.moves = d.transitions := by
  rw [Machine.moves]
  simp

variable {labels : List String} {alphabet : Alphabet} {initial : StateId}
  {isFinal : StateId → Bool} {next : StateId → Symbol → Option StateId}

/-- **The transitions are those of the function**, by state and then by symbol. -/
theorem transitions_tabulate : (tabulate labels alphabet initial isFinal next).transitions =
    (List.range labels.length).flatMap fun p =>
      alphabet.toList.filterMap fun a => (next p a).map (p, a, ·) := by
  refine List.flatMap_congr fun p hp => List.filterMap_congr fun a ha => ?_
  have hentry : Machine.entry? (tabulate labels alphabet initial isFinal next) p a = next p a :=
    next?_tabulate (List.mem_range.mp hp) ha
  rw [hentry]
  cases next p a <;> rfl

/-- **The table of a function is recorded from its transitions.** -/
theorem ofMoves_transitions_tabulate
    (h : (tabulate labels alphabet initial isFinal next).WellFormed) :
    Table.ofMoves (tabulate labels alphabet initial isFinal next).transitions =
      (tabulate labels alphabet initial isFinal next).table := by
  rw [← moves_eq_transitions]
  exact Machine.ofMoves_moves h (fun _ _ => ne_empty_of_find?_tabulate) fun _ _ _ _ => rfl

end Dfa

end Automata
