import Automata.Error
import Automata.Proofs.Declarations
import Automata.Proofs.Lines
import Automata.Proofs.Moves

/-!
# Proofs/Listing/Contents — what a listing says, and the machine it makes

The contents of a listing are its labels, symbols and transitions, without layout and counts.
`Contents.draft` is the draft they declare.  The contents of a machine make that machine
(`Machine.build_draft_contents`) if it is `Buildable` — no label stands for two states, and the
table is one that drafts make — and whatever is built is so (`Machine.buildable_of_build`).  It is
`Listable` if labels and symbols are tokens too, and what is built from contents made of tokens
always is (`Machine.listable_of_build`).
-/

namespace Automata.Listing

/-- What a listing says. -/
structure Contents where
  states : List String
  symbols : List Symbol
  transitions : List Transition
  initial : String
  finals : List String

/-- Listing a transition declares it, and at most its symbol beside it. -/
class LawfulLayout (τ : Type) [Layout τ] : Prop where
  declarations_eq : ∀ t, Layout.declarations τ t = [.transition t] ∨
    Layout.declarations τ t = [.symbol t.symbol, .transition t]

instance : LawfulLayout StateId where
  declarations_eq _ := .inr rfl

namespace Contents

variable (τ : Type) [Layout τ] (c : Contents)

/-- The declarations of a listing with these contents. -/
def declarations : List Declaration :=
  c.states.map .state ++ c.symbols.map .symbol ++ c.transitions.flatMap (Layout.declarations τ) ++
    .initial c.initial :: c.finals.map .final

/-- The draft that a listing with these contents declares. -/
def draft [Target τ] : Draft τ := Draft.ofDeclarations (c.declarations τ)

variable [LawfulLayout τ]

theorem declarations_layout (t : Transition) : Layout.declarations τ t = [.transition t] ∨
    Layout.declarations τ t = [.symbol t.symbol, .transition t] :=
  LawfulLayout.declarations_eq t

/-- **The declarations of a kind other than symbols**, part by part. -/
theorem filterMap_declarations {α : Type} {pick : Declaration → Option α}
    (h : ∀ a, pick (.symbol a) = none) : (c.declarations τ).filterMap pick =
      c.states.filterMap (fun l => pick (.state l)) ++
      c.transitions.filterMap (fun t => pick (.transition t)) ++
      ((pick (.initial c.initial)).toList ++ c.finals.filterMap fun l => pick (.final l)) := by
  have htransition : ∀ t, (Layout.declarations τ t).filterMap pick =
      (pick (.transition t)).toList := by
    intro t
    rcases declarations_layout τ t with ht | ht <;> rw [ht]
    · cases hp : pick (.transition t) <;> simp [hp]
    · cases hp : pick (.transition t) <;> simp [h, hp]
  rw [declarations, List.filterMap_append, List.filterMap_append, List.filterMap_append,
    List.filterMap_map, List.filterMap_map, List.filterMap_flatMap, List.filterMap_cons]
  simp only [htransition, ← List.filterMap_eq_flatMap_toList]
  cases pick (.initial c.initial) <;> simp [h]

variable [Target τ]

theorem states_draft : (c.draft τ).states = c.states.foldl appendNew [] := by
  rw [draft, Draft.ofDeclarations, Draft.states_declareAll, filterMap_declarations τ c fun _ => rfl]
  congr 1
  simp [Declaration.state?]

omit [Target τ] in
/-- The only symbol declared is that of the transition. -/
theorem symbol_of_mem_declarations {a : Symbol} {t : Transition}
    (h : .symbol a ∈ Layout.declarations τ t) : a = t.symbol := by
  rcases declarations_layout τ t with ht | ht <;> rw [ht] at h
  · exact absurd h (by simp)
  · simpa using h

omit [LawfulLayout τ] in
theorem mem_alphabet_draft {a : Symbol} : a ∈ (c.draft τ).alphabet ↔
    a ∈ c.symbols ∨ ∃ t ∈ c.transitions, .symbol a ∈ Layout.declarations τ t := by
  have hsymbol : ∀ x : Declaration, x.symbol? = some a ↔ x = .symbol a := fun x => by
    cases x <;> simp [Declaration.symbol?]
  rw [draft, Draft.ofDeclarations, Draft.alphabet_declareAll, SortedSet.mem_insertAll,
    List.mem_filterMap]
  simp [hsymbol, declarations]

theorem initial_draft : (c.draft τ).initial = some c.initial := by
  rw [draft, Draft.ofDeclarations, Draft.initial_declareAll,
    filterMap_declarations τ c fun _ => rfl]
  simp [Declaration.initial?]

theorem finals_draft : (c.draft τ).finals = c.finals.foldl appendNew [] := by
  rw [draft, Draft.ofDeclarations, Draft.finals_declareAll,
    filterMap_declarations τ c fun _ => rfl]
  congr 1
  simp [Declaration.final?]

theorem transitions_draft : (c.draft τ).transitions =
    c.transitions.foldl (Draft.recordTransition τ) [] := by
  rw [draft, Draft.ofDeclarations, Draft.transitions_declareAll,
    filterMap_declarations τ c fun _ => rfl]
  congr 1
  simp [Declaration.transition?]

end Contents

end Automata.Listing

namespace Automata.Machine

open Listing Text

variable {τ : Type} {m : Machine τ}

/-! ## Labels -/

theorem nodup_finalLabels (h : m.labels.Nodup) : m.finalLabels.Nodup := by
  refine List.Nodup.map_on (fun p hp q hq => ?_) (List.nodup_range.filter _)
  exact label_inj h (m.mem_states.mp (List.mem_of_mem_filter hp))
    (m.mem_states.mp (List.mem_of_mem_filter hq))

/-- The final states are those whose labels are listed. -/
theorem ofList_idxOf_finalLabels (h : m.labels.Nodup)
    (hfinals : ∀ q ∈ m.finals.toList, q < m.numStates) :
    SortedSet.ofList (m.finalLabels.map m.labels.idxOf) = m.finals := by
  refine SortedSet.ext_mem fun q => ?_
  simp only [SortedSet.mem_ofList, finalLabels, List.mem_map, List.mem_filter, mem_states,
    isFinal_iff]
  constructor
  · rintro ⟨l, ⟨p, ⟨hp, hfinal⟩, rfl⟩, rfl⟩
    rwa [idxOf_label h hp]
  · exact fun hq => ⟨m.label q, ⟨q, ⟨hfinals q hq, hq⟩, rfl⟩, idxOf_label h (hfinals q hq)⟩

variable [Target τ]

/-! ## The contents of a machine -/

/-- A move between states, by their labels. -/
def transitionOf (m : Machine τ) (s : Move) : Transition := ⟨m.label s.1, s.2.1, m.label s.2.2⟩

/-- What the listing of a machine says. -/
def contents (m : Machine τ) : Contents where
  states := m.labels
  symbols := m.alphabet.toList
  transitions := m.moves.map m.transitionOf
  initial := m.label m.initial
  finals := m.finalLabels

/-- **What declarations can make a machine of** — its labels tell its states apart, and its table
holds nothing but what moves record. -/
structure Buildable (m : Machine τ) : Prop where
  nodup_labels : m.labels.Nodup
  full : m.table.Full
  recorded : ∀ p a t, m.entry? p a = some t → Recorded t

/-- **What a listing can say of a machine** — its labels are tokens and tell its states apart, its
symbols are tokens, and its table holds nothing but what moves record. -/
structure Listable (m : Machine τ) : Prop where
  nodup_labels : m.labels.Nodup
  isToken_labels : ∀ l ∈ m.labels, IsToken l
  isBlank_alphabet : ∀ a ∈ m.alphabet, isBlank a = false
  full : m.table.Full
  recorded : ∀ p a t, m.entry? p a = some t → Recorded t

theorem Listable.buildable (h : m.Listable) : m.Buildable := ⟨h.nodup_labels, h.full, h.recorded⟩

/-! ## Transitions -/

theorem WellFormed.of_mem_moves (h : m.WellFormed) {s : Move} (hs : s ∈ m.moves) :
    s.1 < m.numStates ∧ s.2.1 ∈ m.alphabet ∧ s.2.2 < m.numStates := by
  obtain ⟨-, -, hq⟩ := mem_moves_iff.mp hs
  obtain ⟨t, ht, hq⟩ := mem_targets_iff.mp hq
  obtain ⟨hp, ha, hstates⟩ := h.of_entry? ht
  exact ⟨hp, ha, hstates _ hq⟩

/-- Labels without repetition tell sources apart. -/
theorem nodup_keys_transitions [FaithfulTarget τ] (h : m.labels.Nodup)
    (hb : Target.branching τ = false) :
    ((m.moves.map m.transitionOf).map Transition.key).Nodup := by
  have hkeys : (m.moves.map m.transitionOf).map Transition.key =
      (m.moves.map fun s => (s.1, s.2.1)).map fun k => (m.label k.1, k.2) := by
    rw [List.map_map, List.map_map]
    rfl
  rw [hkeys]
  refine (nodup_keys_moves hb).map_on fun k hk k' hk' e => ?_
  obtain ⟨s, hs, rfl⟩ := List.mem_map.mp hk
  obtain ⟨s', hs', rfl⟩ := List.mem_map.mp hk'
  obtain ⟨hlabel, hsymbol⟩ := Prod.mk.inj e
  exact Prod.ext (label_inj h (mem_moves_iff.mp hs).1 (mem_moves_iff.mp hs').1 hlabel) hsymbol

/-- Labels that tell states apart lose no move. -/
theorem map_idxOf_transitionOf (h : m.WellFormed) (hl : m.labels.Nodup) :
    (m.moves.map m.transitionOf).map
      (fun t => (m.labels.idxOf t.source, t.symbol, m.labels.idxOf t.target)) = m.moves := by
  rw [List.map_map]
  refine (List.map_congr_left fun s hs => ?_).trans (List.map_id _)
  obtain ⟨hp, -, hq⟩ := h.of_mem_moves hs
  change (m.labels.idxOf (m.label s.1), s.2.1, m.labels.idxOf (m.label s.2.2)) = s
  rw [idxOf_label hl hp, idxOf_label hl hq]

/-! ## Building -/

section

variable [Layout τ] [LawfulLayout τ]

theorem states_draft_contents (h : m.labels.Nodup) : (m.contents.draft τ).states = m.labels := by
  rw [Contents.states_draft, appendNew_eq, foldl_appendFresh_of_nodup]
  · rfl
  · rwa [List.nil_append, List.map_id]

theorem alphabet_draft_contents : (m.contents.draft τ).alphabet = m.alphabet := by
  refine SortedSet.ext_mem fun a => (Contents.mem_alphabet_draft τ m.contents).trans ?_
  refine or_iff_left_of_imp ?_
  rintro ⟨t, ht, ha⟩
  obtain ⟨s, hs, rfl⟩ := List.mem_map.mp ht
  obtain rfl := Contents.symbol_of_mem_declarations τ ha
  exact (mem_moves_iff.mp hs).2.1

theorem finals_draft_contents (h : m.labels.Nodup) :
    (m.contents.draft τ).finals = m.finalLabels := by
  rw [Contents.finals_draft, appendNew_eq, foldl_appendFresh_of_nodup]
  · rfl
  · rw [List.nil_append, List.map_id]
    exact nodup_finalLabels h

variable [FaithfulTarget τ]

theorem transitions_draft_contents (h : m.labels.Nodup) :
    (m.contents.draft τ).transitions = m.moves.map m.transitionOf := by
  rw [Contents.transitions_draft]
  exact Draft.foldl_recordTransition_eq (nodup_keys_transitions h)

/-- A well-formed machine resolves all that its contents refer to. -/
theorem defects_draft_contents (h : m.WellFormed) (hl : m.labels.Nodup) :
    (m.contents.draft τ).defects = [] := by
  rw [Draft.defects_eq_nil_iff, states_draft_contents hl, alphabet_draft_contents,
    finals_draft_contents hl, transitions_draft_contents hl, Contents.initial_draft]
  refine ⟨⟨_, rfl, label_mem h.initial_lt⟩, fun l hfinal => ?_, fun t ht => ?_⟩
  · obtain ⟨q, hq, rfl⟩ := List.mem_map.mp hfinal
    exact label_mem (m.mem_states.mp (List.mem_of_mem_filter hq))
  · obtain ⟨s, hs, rfl⟩ := List.mem_map.mp ht
    obtain ⟨hp, ha, hq⟩ := h.of_mem_moves hs
    exact ⟨label_mem hp, ha, label_mem hq⟩

/-- **What declarations can make is built again from its contents.** -/
theorem build_draft_contents (h : m.WellFormed) (hl : m.Buildable) :
    (m.contents.draft τ).build = .ok m := by
  have hnodup := hl.nodup_labels
  have hid : (m.contents.draft τ).stateId = m.labels.idxOf := by
    funext l
    rw [Draft.stateId, states_draft_contents hnodup]
  have hmoves : (m.contents.draft τ).moves = m.moves := by
    rw [Draft.moves, transitions_draft_contents hnodup, hid]
    exact map_idxOf_transitionOf h hnodup
  have hinitial : m.labels.idxOf (m.label m.initial) = m.initial := idxOf_label hnodup h.initial_lt
  refine Draft.build_eq_ok_iff.mpr ⟨defects_draft_contents h hnodup, ?_⟩
  rw [Draft.machine, Draft.table_eq_ofMoves, hmoves, ofMoves_moves h hl.full hl.recorded, hid,
    Contents.initial_draft, finals_draft_contents hnodup, alphabet_draft_contents,
    states_draft_contents hnodup, ofList_idxOf_finalLabels hnodup h.finals_lt, Option.getD_some]
  exact congrArg (fun i => (⟨m.labels, m.alphabet, i, m.finals, m.table⟩ : Machine τ)) hinitial.symm

end

/-! ## What is built -/

theorem buildable_of_build [FaithfulTarget τ] {l : List Declaration}
    (h : (Draft.ofDeclarations l : Draft τ).build = .ok m) : m.Buildable := by
  obtain ⟨-, rfl⟩ := Draft.build_eq_ok_iff.mp h
  exact ⟨Draft.nodup_states_ofDeclarations l, Draft.full_machine,
    fun _ _ _ => Draft.recorded_of_entry?_machine⟩

/-- **What is built from contents made of tokens is listable.** -/
theorem listable_of_build [FaithfulTarget τ] [Layout τ] [LawfulLayout τ] {c : Contents}
    (hstates : ∀ l ∈ c.states, IsToken l) (hsymbols : ∀ a ∈ c.symbols, isBlank a = false)
    (htransitions : ∀ t ∈ c.transitions, isBlank t.symbol = false)
    (h : (c.draft τ).build = .ok m) :
    m.Listable ∧ m.numStates ≤ c.states.length ∧ m.transitionCount ≤ c.transitions.length := by
  have hwf : m.WellFormed := Draft.wellFormed_of_build h
  have hbuildable : m.Buildable := buildable_of_build h
  obtain ⟨-, rfl⟩ := Draft.build_eq_ok_iff.mp h
  have hlabels : (c.draft τ).machine.labels = c.states.foldl (appendFresh id) [] := by
    rw [← appendNew_eq, ← Contents.states_draft τ]
    rfl
  have hsub : (c.draft τ).machine.labels.Sublist c.states := by
    rw [hlabels]
    exact sublist_foldl_appendFresh id c.states []
  have hrecorded : (c.draft τ).transitions.Sublist c.transitions := by
    rw [Contents.transitions_draft]
    exact Draft.sublist_foldl_recordTransition [] c.transitions
  refine ⟨⟨hbuildable.nodup_labels, fun l hl => hstates l (hsub.subset hl), fun a ha => ?_,
    hbuildable.full, hbuildable.recorded⟩, hsub.length_le,
    (Draft.transitionCount_machine_le hwf).trans hrecorded.length_le⟩
  rcases (Contents.mem_alphabet_draft τ c).mp ha with ha | ⟨t, ht, ha⟩
  · exact hsymbols a ha
  · rw [Contents.symbol_of_mem_declarations τ ha]
    exact htransitions t ht

end Automata.Machine
