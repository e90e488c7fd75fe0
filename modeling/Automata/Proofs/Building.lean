import Automata.Proofs.Indexed.Calls
import Automata.Proofs.Listing.Groups

/-!
# Proofs/Building — what is built is what was declared

A draft that verifies has resolved all its labels, so no move is left out when it is built.  The
labels stand in the order they were first declared, and a state and a symbol lead to the target that
was declared first for them, or, with branching, to all of them in the order they were declared
first (`build_ofCalls`).  A deterministic draft records no second move for a state and a symbol, so
it does not matter that a register stores each move over what was stored before
(`Register.overwritten_eq`).
-/

namespace Automata

/-! ## First occurrences -/

section

variable {α β : Type} [DecidableEq α] [DecidableEq β]

theorem eraseDups_concat (l : List α) (x : α) :
    (l ++ [x]).eraseDups = if x ∈ l then l.eraseDups else l.eraseDups ++ [x] := by
  rw [List.eraseDups_append, List.removeAll]
  by_cases hx : x ∈ l <;> simp [hx, List.eraseDups_cons]

/-- **Values appended unless they are there** are the first occurrences. -/
theorem foldl_appendFresh_id (l : List α) : l.foldl (appendFresh id) [] = l.eraseDups := by
  induction l using List.reverseRecOn with
  | nil => rfl
  | append_singleton l x ih =>
      rw [List.foldl_append, ih, List.foldl_cons, List.foldl_nil, appendFresh, eraseDups_concat]
      simp

theorem nodup_eraseDups (l : List α) : l.eraseDups.Nodup := by
  rw [← foldl_appendFresh_id]
  simpa using nodup_foldl_appendFresh id l (l := []) (by simp)

/-- Renaming values apart keeps which occurrence is the first. -/
theorem eraseDups_map {f : α → β} {l : List α} (hf : ∀ x ∈ l, ∀ y ∈ l, f x = f y → x = y) :
    (l.map f).eraseDups = l.eraseDups.map f := by
  induction l using List.reverseRecOn with
  | nil => rfl
  | append_singleton l x ih =>
      have hl : ∀ y ∈ l, y ∈ l ++ [x] := fun y hy => List.mem_append_left _ hy
      have hx : f x ∈ l.map f ↔ x ∈ l := by
        refine ⟨fun h => ?_, List.mem_map_of_mem⟩
        obtain ⟨y, hy, hyx⟩ := List.mem_map.mp h
        exact hf y (hl y hy) x (by simp) hyx ▸ hy
      rw [List.map_append, List.map_singleton, eraseDups_concat, eraseDups_concat,
        ih fun y hy z hz => hf y (hl y hy) z (hl z hz)]
      simp only [hx]
      split <;> simp

end

/-! ## Recorded targets -/

/-- Without branching the first state recorded stays. -/
theorem recordAll_stateId (qs : List StateId) : recordAll (none : Option StateId) qs = qs.head? := by
  have hstays : ∀ (qs : List StateId) (q : StateId), recordAll (some q) qs = some q := by
    intro qs
    induction qs with
    | nil => exact fun _ => rfl
    | cons r qs ih => exact fun q => ih q
  cases qs with
  | nil => rfl
  | cons q qs => exact hstays qs q

/-- With branching each state is recorded where it occurs first. -/
theorem getD_recordAll_list (qs : List StateId) :
    (recordAll (none : Option (List StateId)) qs).getD [] = qs.eraseDups := by
  rw [← foldl_appendFresh_id]
  cases qs with
  | nil => rfl
  | cons q qs => exact congrArg (Option.getD · []) (recordAll_some_list qs [q])

/-! ## Labels and states -/

/-- **A machine has the states, the symbols, the initial and the final states that were declared** —
its labels in the order they were declared first, and the last initial state. -/
structure Machine.Declared {τ : Type} [Target τ] (m : Machine τ) (l : List Declaration) : Prop where
  wellFormed : m.WellFormed
  nodup_labels : m.labels.Nodup
  labels_eq : m.labels = (l.filterMap Declaration.state?).eraseDups
  mem_alphabet_iff : ∀ a, a ∈ m.alphabet ↔ .symbol a ∈ l
  initial_eq : (l.filterMap Declaration.initial?).getLast? = some (m.label m.initial)
  mem_finals_iff : ∀ k, .final k ∈ l ↔ ∃ s ∈ m.finals, m.label s = k

theorem Machine.label_idxOf {τ : Type} {m : Machine τ} {k : String} (h : k ∈ m.labels) :
    m.label (m.labels.idxOf k) = k := by
  rw [label, label?, getElem?_idxOf h]
  rfl

namespace Draft

section

variable {τ : Type} [Target τ] {b : Draft τ} {p : StateId}

theorem label_stateId {k : String} (h : k ∈ b.states) : b.machine.label (b.stateId k) = k :=
  Machine.label_idxOf (m := b.machine) h

theorem declared_machine [LawfulTarget τ] {l : List Declaration}
    (h : (ofDeclarations l : Draft τ).defects = []) :
    (ofDeclarations l : Draft τ).machine.Declared l := by
  have hl : (ofDeclarations l : Draft τ).Remembers l := remembers_ofDeclarations l
  obtain ⟨⟨i, hi, hknown⟩, hfinals, -⟩ := defects_eq_nil_iff.mp h
  refine ⟨wellFormed_of_build (build_eq_ok_iff.mpr ⟨h, rfl⟩), nodup_states_ofDeclarations l,
    ?labels, hl.mem_alphabet_iff, ?initial, fun k => ?finals⟩
  case labels =>
    rw [machine, ofDeclarations, states_declareAll, appendNew_eq]
    exact foldl_appendFresh_id _
  case initial =>
    rw [← hl.initial_eq, hi, machine, hi, Option.getD_some]
    exact congrArg some (label_stateId hknown).symm
  case finals =>
    rw [← hl.mem_finals_iff]
    have hmem : ∀ s, s ∈ (ofDeclarations l : Draft τ).machine.finals ↔
        ∃ j ∈ (ofDeclarations l : Draft τ).finals, (ofDeclarations l : Draft τ).stateId j = s :=
      fun s => by rw [machine, SortedSet.mem_ofList, List.mem_map]
    simp only [hmem]
    constructor
    · exact fun hk => ⟨_, ⟨k, hk, rfl⟩, label_stateId (hfinals k hk)⟩
    · rintro ⟨s, ⟨j, hj, rfl⟩, rfl⟩
      rwa [label_stateId (hfinals j hj)]

/-! ## Moves -/

/-- The targets of a state on a symbol are those declared for its label. -/
theorem targetsOf_moves_eq (h : b.defects = []) (hb : b.states.Nodup)
    (hp : p < b.machine.numStates) (a : Symbol) : targetsOf b.moves p a =
      (b.transitions.filter (·.key = (b.machine.label p, a))).map (b.stateId ·.target) := by
  obtain ⟨-, -, htransitions⟩ := defects_eq_nil_iff.mp h
  rw [targetsOf, moves, List.filterMap_map, ← List.filterMap_eq_map, List.filterMap_filter]
  refine List.filterMap_congr fun t ht => ?_
  have hsource : b.stateId t.source = p ↔ t.source = b.machine.label p := by
    constructor
    · rintro rfl
      exact (label_stateId (htransitions t ht).1).symm
    · intro hlabel
      rw [stateId, hlabel]
      exact Machine.idxOf_label (m := b.machine) hb hp
  simp [Transition.key, hsource]

theorem map_label_targetsOf (h : b.defects = []) (hb : b.states.Nodup)
    (hp : p < b.machine.numStates) (a : Symbol) :
    (targetsOf b.moves p a).map b.machine.label =
      (b.transitions.filter (·.key = (b.machine.label p, a))).map Transition.target := by
  obtain ⟨-, -, htransitions⟩ := defects_eq_nil_iff.mp h
  rw [targetsOf_moves_eq h hb hp, List.map_map]
  exact List.map_congr_left fun t ht =>
    label_stateId (htransitions t (List.mem_of_mem_filter ht)).2.2

theorem lt_of_mem_targetsOf (h : b.defects = []) {a : Symbol} {q : StateId}
    (hq : q ∈ targetsOf b.moves p a) : q < b.machine.numStates := by
  obtain ⟨-, -, htransitions⟩ := defects_eq_nil_iff.mp h
  obtain ⟨t, ht, hmove⟩ := List.mem_map.mp (mem_targetsOf.mp hq)
  obtain ⟨-, hmove⟩ := Prod.mk.inj hmove
  obtain ⟨-, rfl⟩ := Prod.mk.inj hmove
  exact List.idxOf_lt_length_of_mem (htransitions t ht).2.2

end

/-- Labels that are known have different numbers, so moves keep apart what transitions do. -/
theorem nodup_keys_moves {τ : Type} {b : Draft τ} (h : b.defects = [])
    (hkeys : (b.transitions.map Transition.key).Nodup) :
    (b.moves.map fun s => (s.1, s.2.1)).Nodup := by
  obtain ⟨-, -, htransitions⟩ := defects_eq_nil_iff.mp h
  have hids : (b.moves.map fun s => (s.1, s.2.1)) =
      (b.transitions.map Transition.key).map fun k => (b.stateId k.1, k.2) := by
    rw [moves, List.map_map, List.map_map]
    rfl
  rw [hids]
  refine List.Nodup.map_on (fun k hk k' _ heq => ?_) hkeys
  obtain ⟨t, ht, rfl⟩ := List.mem_map.mp hk
  obtain ⟨hsource, hsymbol⟩ := Prod.mk.inj heq
  exact Prod.ext ((List.idxOf_inj (htransitions t ht).1).mp hsource) hsymbol

/-- **The first transition for a state and a symbol counts** where they lead to one state only. -/
theorem map_label_next?_machine {b : Draft StateId} {p : StateId} (h : b.defects = [])
    (hb : b.states.Nodup) (hp : p < b.machine.numStates) (a : Symbol) :
    (Dfa.next? b.machine p a).map b.machine.label =
      (b.transitions.find? (·.key = (b.machine.label p, a))).map Transition.target := by
  rw [Dfa.next?, entry?_machine, recordAll_stateId, ← List.head?_map, map_label_targetsOf h hb hp,
    List.head?_map, List.head?_filter]

theorem successors_machine {b : Draft (List StateId)} (p : StateId) (a : Symbol) :
    Nfa.successors b.machine p a = (targetsOf b.moves p a).eraseDups := by
  rw [← getD_recordAll_list, ← entry?_machine, Nfa.successors, Machine.targets]
  cases Machine.entry? b.machine p a <;> rfl

/-- **Each target counts where it was declared first** where a state and a symbol may branch. -/
theorem map_label_successors_machine {b : Draft (List StateId)} {p : StateId} (h : b.defects = [])
    (hb : b.states.Nodup) (hp : p < b.machine.numStates) (a : Symbol) :
    (Nfa.successors b.machine p a).map b.machine.label =
      ((b.transitions.filter (·.key = (b.machine.label p, a))).map Transition.target).eraseDups := by
  rw [successors_machine, ← map_label_targetsOf h hb hp]
  refine (eraseDups_map fun q hq r hr => ?_).symm
  exact Machine.label_inj hb (lt_of_mem_targetsOf h hq) (lt_of_mem_targetsOf h hr)

/-- **Without branching every recorded transition is a move**, as none is recorded beside another
for its state and symbol. -/
theorem mem_targets_machine_stateId {b : Draft StateId} (h : b.defects = []) (hb : b.states.Nodup)
    (hkeys : (b.transitions.map Transition.key).Nodup) {t : Transition} (ht : t ∈ b.transitions) :
    b.stateId t.target ∈ b.machine.targets (b.stateId t.source) t.symbol := by
  obtain ⟨-, -, htransitions⟩ := defects_eq_nil_iff.mp h
  have hsource : b.stateId t.source < b.machine.numStates :=
    List.idxOf_lt_length_of_mem (htransitions t ht).1
  have hnext := map_label_next?_machine h hb hsource t.symbol
  rw [label_stateId (htransitions t ht).1, ← Transition.key, find?_eq_some_of_nodup _ hkeys ht] at hnext
  obtain ⟨q, hq, hlabel⟩ := Option.map_eq_some_iff.mp hnext
  have hwf : b.machine.WellFormed := wellFormed_of_build (build_eq_ok_iff.mpr ⟨h, rfl⟩)
  have htarget : b.stateId t.target = q := by
    rw [← hlabel]
    exact Machine.idxOf_label (m := b.machine) hb (Dfa.next?_lt hwf hq)
  exact Machine.mem_targets_iff.mpr ⟨q, hq, List.mem_singleton.mpr htarget⟩

/-- **With branching every recorded transition is a move.** -/
theorem mem_targets_machine_list {b : Draft (List StateId)} {t : Transition}
    (ht : t ∈ b.transitions) :
    b.stateId t.target ∈ b.machine.targets (b.stateId t.source) t.symbol := by
  rw [← Nfa.successors, successors_machine, List.mem_eraseDups, mem_targetsOf]
  exact List.mem_map_of_mem ht

end Draft

/-! ## Moves stored one over the other -/

/-- Stores a move, whatever was stored for its state and symbol before. -/
def Table.overwrite (T : Table StateId) (p : StateId) (a : Symbol) (q : StateId) : Table StateId :=
  T.update p fun row => (row.getD ∅).insert a q

theorem SortedMap.update_congr {κ ν : Type} [Ranked κ] {m : SortedMap κ ν} {k : κ}
    {f g : Option ν → ν} (h : f (m.find? k) = g (m.find? k)) : m.update k f = m.update k g := by
  refine SortedMap.ext_find? fun j => ?_
  by_cases hj : j = k
  · subst hj
    rw [SortedMap.find?_update_self, SortedMap.find?_update_self, h]
  · rw [SortedMap.find?_update_of_ne _ _ hj, SortedMap.find?_update_of_ne _ _ hj]

/-- Where nothing is stored, it does not matter whether the first move stays or the last. -/
theorem Table.overwrite_eq_record {T : Table StateId} {p : StateId} {a : Symbol}
    (h : T.entry? p a = none) (q : StateId) : T.overwrite p a q = Draft.record T p a q := by
  refine SortedMap.update_congr (SortedMap.update_congr ?_)
  rw [find?_getD, h]
  rfl

/-- **Moves of different states or symbols do not meet**, so each finds nothing stored. -/
theorem Table.foldl_overwrite_eq : ∀ {ms : List Move} {T : Table StateId},
    (ms.map fun s => (s.1, s.2.1)).Nodup → (∀ s ∈ ms, T.entry? s.1 s.2.1 = none) →
      ms.foldl (fun T s => T.overwrite s.1 s.2.1 s.2.2) T =
        ms.foldl (fun T s => Draft.record T s.1 s.2.1 s.2.2) T
  | [], _, _, _ => rfl
  | s :: ms, T, hkeys, hnone => by
      obtain ⟨hs, hms⟩ := List.nodup_cons.mp hkeys
      rw [List.foldl_cons, List.foldl_cons, overwrite_eq_record (hnone s List.mem_cons_self)]
      refine foldl_overwrite_eq hms fun t ht => ?_
      have hne : ¬ (s.1 = t.1 ∧ s.2.1 = t.2.1) := fun h =>
        hs (List.mem_map.mpr ⟨t, ht, Prod.ext h.1.symm h.2.symm⟩)
      rw [entry?_record, if_neg hne, hnone t (List.mem_cons_of_mem s ht)]

namespace Register

variable {τ : Type} [Target τ] {b : Draft τ}

/-- Every recorded transition is found by its labels, and is a move of a machine. -/
def Keeps (r : Register τ) (m : Machine τ) : Prop :=
  ∀ t ∈ r.transitions, ∃ p q, r.id? t.source = some p ∧ r.id? t.target = some q ∧
    q ∈ m.targets p t.symbol

theorem Mirrors.keeps {r : Register τ} (hr : r.Mirrors b) (h : b.defects = [])
    (hmoves : ∀ t ∈ b.transitions,
      b.stateId t.target ∈ b.machine.targets (b.stateId t.source) t.symbol) :
    r.Keeps b.machine := by
  obtain ⟨-, -, htransitions⟩ := Draft.defects_eq_nil_iff.mp h
  intro t ht
  rw [hr.transitions_eq] at ht
  obtain ⟨hsource, -, htarget⟩ := htransitions t ht
  exact ⟨_, _, (hr.id?_eq _).trans (idxOf?_of_mem hsource),
    (hr.id?_eq _).trans (idxOf?_of_mem htarget), hmoves t ht⟩

/-- Stores a move over what was stored before, if its ends are found. -/
def overwriteMove (r : Register StateId) (T : Table StateId) (t : Transition) : Table StateId :=
  match r.id? t.source, r.id? t.target with
  | some p, some q => T.overwrite p t.symbol q
  | _, _ => T

/-- The table of the moves, each stored over what was stored before. -/
def overwritten (r : Register StateId) : Table StateId := r.transitions.foldl r.overwriteMove ∅

/-- **No move is stored over another**, so storing them makes the table of the draft. -/
theorem overwritten_eq {r : Register StateId} {b : Draft StateId} (hr : r.Mirrors b)
    (h : b.defects = []) (hkeys : (b.transitions.map Transition.key).Nodup) :
    r.overwritten = b.table := by
  obtain ⟨-, -, htransitions⟩ := Draft.defects_eq_nil_iff.mp h
  have hfound : r.overwritten = b.moves.foldl (fun T s => T.overwrite s.1 s.2.1 s.2.2) ∅ := by
    rw [overwritten, hr.transitions_eq, Draft.moves, List.foldl_map]
    refine List.foldl_ext _ _ _ fun T t ht => ?_
    obtain ⟨hsource, -, htarget⟩ := htransitions t ht
    rw [overwriteMove, hr.id?_eq, hr.id?_eq, idxOf?_of_mem hsource, idxOf?_of_mem htarget]
    rfl
  have hmoves := Draft.nodup_keys_moves h hkeys
  rw [hfound, Table.foldl_overwrite_eq hmoves fun _ _ => rfl, Draft.table_eq_ofMoves]
  rfl

end Register

/-! ## What is built -/

section

variable {τ : Type} [Target τ] (l : List Declaration)

/-- Of the transitions from a state on a symbol the first declared is recorded. -/
theorem Draft.find?_transitions_ofDeclarations (h : Target.branching τ = false)
    (k : String × Symbol) : (ofDeclarations l : Draft τ).transitions.find? (·.key = k) =
      (l.filterMap Declaration.transition?).find? (·.key = k) := by
  rw [ofDeclarations, transitions_declareAll, foldl_recordTransition, h, if_neg Bool.false_ne_true,
    find?_foldl_appendFresh]
  rfl

/-- With branching all transitions are recorded. -/
theorem Draft.transitions_ofDeclarations (h : Target.branching τ = true) :
    (ofDeclarations l : Draft τ).transitions = l.filterMap Declaration.transition? := by
  rw [ofDeclarations, transitions_declareAll, foldl_recordTransition, if_pos h]
  rfl

/-- A draft that verifies is built, by its register too, and has what was declared. -/
theorem Draft.build_ofDeclarations_of_verify [LawfulTarget τ]
    (h : (ofDeclarations l : Draft τ).verify = .ok ()) :
    (ofDeclarations l : Draft τ).defects = [] ∧
    (ofDeclarations l : Draft τ).build = .ok (ofDeclarations l : Draft τ).machine ∧
    (Register.ofDeclarations l : Register τ).build = .ok (ofDeclarations l : Draft τ).machine ∧
    (ofDeclarations l : Draft τ).machine.Declared l := by
  obtain ⟨m, hm⟩ := exists_build_eq_ok_iff.mpr h
  obtain ⟨hdefects, rfl⟩ := build_eq_ok_iff.mp hm
  have hregister := Register.build_eq (Register.mirrors_ofDeclarations (τ := τ) l)
  exact ⟨hdefects, hm, hregister.trans hm, declared_machine hdefects⟩

end

/-- **What is built is what was declared** — for all calls that leave a draft without defects.
Without branching a state and a symbol lead to the target declared first for them, with branching to
all targets declared for them, in the order they were declared first.  No recorded transition is
left out, and none is stored over another. -/
theorem build_ofCalls (cs : List Call) :
    let l := Call.allDeclarations cs
    ((Draft.ofCalls cs : Draft StateId).verify = .ok () → ∃ d : Dfa,
      (Draft.ofCalls cs).build = .ok d ∧ (Register.ofCalls cs).build = .ok d ∧ d.Declared l ∧
      (∀ p < d.numStates, ∀ a, (d.next? p a).map d.label =
        ((l.filterMap Declaration.transition?).find? (·.key = (d.label p, a))).map
          Transition.target) ∧
      (Register.ofCalls cs).Keeps d ∧
      (Register.ofCalls cs).overwritten = d.table) ∧
    ((Draft.ofCalls cs : Draft (List StateId)).verify = .ok () → ∃ n : Nfa,
      (Draft.ofCalls cs).build = .ok n ∧ (Register.ofCalls cs).build = .ok n ∧ n.Declared l ∧
      (∀ p < n.numStates, ∀ a, (n.successors p a).map n.label =
        (((l.filterMap Declaration.transition?).filter (·.key = (n.label p, a))).map
          Transition.target).eraseDups) ∧
      (Register.ofCalls cs).Keeps n) := by
  intro l
  have hmirrors := @Register.mirrors_ofDeclarations
  simp only [Draft.ofCalls_eq, Register.ofCalls_eq]
  refine ⟨fun h => ?deterministic, fun h => ?branching⟩
  case deterministic =>
    obtain ⟨hdefects, hbuild, hregister, hdeclared⟩ := Draft.build_ofDeclarations_of_verify l h
    have hkeys := Draft.nodup_keys_ofDeclarations (τ := StateId) rfl l
    refine ⟨_, hbuild, hregister, hdeclared, fun p hp a => ?_,
      (hmirrors l).keeps hdefects fun t ht => ?_,
      Register.overwritten_eq (hmirrors l) hdefects hkeys⟩
    · rw [Draft.map_label_next?_machine hdefects hdeclared.nodup_labels hp,
        Draft.find?_transitions_ofDeclarations l rfl]
    · exact Draft.mem_targets_machine_stateId hdefects hdeclared.nodup_labels hkeys ht
  case branching =>
    obtain ⟨hdefects, hbuild, hregister, hdeclared⟩ := Draft.build_ofDeclarations_of_verify l h
    refine ⟨_, hbuild, hregister, hdeclared, fun p hp a => ?_,
      (hmirrors l).keeps hdefects fun t ht => Draft.mem_targets_machine_list ht⟩
    rw [Draft.map_label_successors_machine hdefects hdeclared.nodup_labels hp,
      Draft.transitions_ofDeclarations l rfl]

/-- Calls that refer to states before they are declared, and repeat what they declare. -/
def hasty : List Call :=
  [.one (.transition ⟨"B", 'a', "A"⟩), .one (.transition ⟨"B", 'a', "B"⟩),
    .one (.transition ⟨"B", 'a', "A"⟩), .finals ["B", "B"], .one (.initial "A"), .symbols ['b', 'a'],
    .one (.initial "B"), .states ["A", "B", "A"]]

/-- Of the targets of `B` the first is kept, or both, each once. -/
theorem build_ofCalls_hasty :
    (∃ d : Dfa, (Draft.ofCalls hasty).build = .ok d ∧ d.labels = ["A", "B"] ∧
      (d.next? 1 'a').map d.label = some "A" ∧ d.next? 0 'a' = none) ∧
    ∃ n : Nfa, (Draft.ofCalls hasty).build = .ok n ∧ n.labels = ["A", "B"] ∧
      (n.successors 1 'a').map n.label = ["A", "B"] := by
  obtain ⟨d, hd, -, hdeclared, hnext, -⟩ := (build_ofCalls hasty).1 (by decide)
  obtain ⟨n, hn, -, hndeclared, hsuccessors, -⟩ := (build_ofCalls hasty).2 (by decide)
  have hlabels : d.labels = ["A", "B"] := hdeclared.labels_eq
  have hnlabels : n.labels = ["A", "B"] := hndeclared.labels_eq
  have hlabel : ∀ s, d.label s = (["A", "B"][s]?).getD "" := fun s => by
    rw [Machine.label, Machine.label?, hlabels]
  have hnlabel : ∀ s, n.label s = (["A", "B"][s]?).getD "" := fun s => by
    rw [Machine.label, Machine.label?, hnlabels]
  have hstates : d.numStates = 2 := congrArg List.length hlabels
  refine ⟨⟨d, hd, hlabels, ?_, ?_⟩, n, hn, hnlabels, ?_⟩
  · rw [hnext 1 (by omega), hlabel]
    decide
  · have hnone := hnext 0 (by omega) 'a'
    rw [hlabel] at hnone
    exact Option.map_eq_none_iff.mp (hnone.trans (by decide))
  · rw [hsuccessors 1 (by rw [Machine.numStates, hnlabels]; decide), hnlabel]
    decide

end Automata
