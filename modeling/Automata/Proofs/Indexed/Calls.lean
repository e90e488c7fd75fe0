import Automata.Call
import Automata.Proofs.Validation

/-!
# Proofs/Indexed/Calls — the indexes of a register never drift from its lists

A register finds a label, and tells whether a move is taken, in an index that it keeps beside its
lists.  Every declaration adds to an index what it adds to the list (`Register.Indexed.declare`), so
after any calls, and after reading a listing, the index of the labels numbers them as they stand and
the index of the moves holds those that are recorded (`Register.coherent_ofCalls`).
-/

namespace Automata

attribute [ext] Register

namespace Register

variable {τ : Type}

/-! ## Calls on a register -/

/-- Whether a move from a state on a symbol was recorded. -/
def hasTransition (r : Register τ) (source : String) (a : Symbol) : Bool :=
  r.taken.contains (source, a)

variable [Target τ]

def call (r : Register τ) : Call → Register τ
  | .one x => r.declare x
  | .states ls => ls.foldl insertState r
  | .symbols l => l.foldl insertSymbol r
  | .finals ls => ls.foldl insertFinal r

def callAll (r : Register τ) (cs : List Call) : Register τ := cs.foldl call r

/-- The register that some calls make. -/
def ofCalls (cs : List Call) : Register τ := callAll {} cs

/-- The register of what a text lists. -/
def ofText [Listing.Layout τ] (t : String) : Listing.Outcome (Register τ) :=
  (Listing.readLines τ (Text.Lines.ofText t)).map ofDeclarations

theorem call_eq (r : Register τ) (c : Call) : r.call c = c.declarations.foldl declare r := by
  cases c with
  | one x => rfl
  | states ls | symbols l | finals ls =>
      rw [Call.declarations, List.foldl_map]
      rfl

theorem callAll_eq (r : Register τ) (cs : List Call) :
    r.callAll cs = (Call.allDeclarations cs).foldl declare r := by
  rw [callAll, Call.allDeclarations, List.foldl_flatMap]
  exact List.foldl_ext _ _ _ fun r c _ => call_eq r c

theorem callAll_ofDeclarations (l : List Declaration) (cs : List Call) :
    (ofDeclarations l : Register τ).callAll cs = ofDeclarations (l ++ Call.allDeclarations cs) := by
  rw [callAll_eq, ofDeclarations, ofDeclarations, List.foldl_append]

theorem ofCalls_eq (cs : List Call) :
    (ofCalls cs : Register τ) = ofDeclarations (Call.allDeclarations cs) := callAll_eq {} cs

/-! ## The indexes follow the lists -/

/-- **An index holds what stands on its list, the last on top** — a label with its position, and the
source and the symbol of a move that can be taken once. -/
structure Indexed (r : Register τ) : Prop where
  ids_eq : r.ids = r.states.zipIdx.reverse
  taken_eq : r.taken =
    if Target.branching τ then [] else (r.transitions.map Transition.key).reverse

theorem indexed_empty : ({} : Register τ).Indexed := ⟨rfl, by split <;> rfl⟩

variable {r s : Register τ} {b : Draft τ}

/-- **Every declaration adds to an index what it adds to the list.** -/
theorem Indexed.declare (h : r.Indexed) (x : Declaration) : (r.declare x).Indexed := by
  cases x with
  | state k =>
      rw [Register.declare, insertState]
      split
      · exact h
      · exact ⟨by simp [h.ids_eq, List.zipIdx_append], h.taken_eq⟩
  | symbol a =>
      rw [Register.declare, insertSymbol]
      split
      · exact h
      · exact ⟨h.ids_eq, h.taken_eq⟩
  | initial k => exact ⟨h.ids_eq, h.taken_eq⟩
  | final k =>
      rw [Register.declare, insertFinal]
      split
      · exact h
      · exact ⟨h.ids_eq, h.taken_eq⟩
  | transition t =>
      have htaken := h.taken_eq
      rw [Register.declare, insertTransition]
      cases hb : Target.branching τ with
      | true => exact ⟨h.ids_eq, by simpa [hb] using htaken⟩
      | false =>
          rw [if_neg Bool.false_ne_true]
          split
          · exact h
          · exact ⟨h.ids_eq, by simp [hb, htaken]⟩

theorem Indexed.declareAll (l : List Declaration) : ∀ {r : Register τ}, r.Indexed →
    (l.foldl Register.declare r).Indexed := by
  induction l with
  | nil => exact id
  | cons x l ih => exact fun h => ih (h.declare x)

theorem indexed_ofDeclarations (l : List Declaration) : (ofDeclarations l : Register τ).Indexed :=
  indexed_empty.declareAll l

/-- **What a draft declared leaves one register only.** -/
theorem eq_of_mirrors (hr : r.Mirrors b) (hs : s.Mirrors b) (ir : r.Indexed) (is : s.Indexed) :
    r = s := by
  have hstates := hr.states_eq.trans hs.states_eq.symm
  have htransitions := hr.transitions_eq.trans hs.transitions_eq.symm
  have hids : r.ids = s.ids := by rw [ir.ids_eq, is.ids_eq, hstates]
  have htaken : r.taken = s.taken := by rw [ir.taken_eq, is.taken_eq, htransitions]
  exact Register.ext hstates hids (hr.symbols_eq.trans hs.symbols_eq.symm)
    (hr.initial_eq.trans hs.initial_eq.symm) (hr.finals_eq.trans hs.finals_eq.symm) htransitions
    htaken

/-! ## What a caller can rely on -/

/-- **The indexes and the lists of a register say the same** — no label, final state or move is on
its list twice, the symbols ascend, a label is found at its position and nowhere else, and a move is
taken exactly when it is recorded. -/
structure Coherent (r : Register τ) : Prop where
  indexed : r.Indexed
  nodup_states : r.states.Nodup
  id?_eq_some_iff : ∀ k i, r.id? k = some i ↔ r.states[i]? = some k
  nodup_finals : r.finals.Nodup
  ascending_symbols : r.symbols.Pairwise fun a b => a.toNat < b.toNat
  nodup_keys : Target.branching τ = false → (r.transitions.map Transition.key).Nodup
  hasTransition_iff : Target.branching τ = false → ∀ p a,
    r.hasTransition p a = true ↔ ∃ t ∈ r.transitions, t.source = p ∧ t.symbol = a

theorem coherent_ofDeclarations (l : List Declaration) :
    (ofDeclarations l : Register τ).Coherent := by
  have h : (ofDeclarations l : Register τ).Mirrors (.ofDeclarations l) := mirrors_ofDeclarations l
  have hnodup : (Draft.ofDeclarations l : Draft τ).states.Nodup :=
    Draft.nodup_states_ofDeclarations l
  refine ⟨indexed_ofDeclarations l, h.states_eq ▸ hnodup, fun k i => ?ids, ?finals, ?symbols,
    fun hb => ?keys, fun hb p a => ?taken⟩
  case ids =>
    rw [h.id?_eq, h.states_eq]
    refine ⟨getElem?_of_idxOf?_eq_some, fun hi => ?_⟩
    obtain ⟨hlt, rfl⟩ := List.getElem?_eq_some_iff.mp hi
    rw [idxOf?_of_mem (List.getElem_mem hlt), hnodup.idxOf_getElem]
  case finals => exact h.finals_eq ▸ (Draft.remembers_ofDeclarations l).nodup_finals
  case symbols => exact h.symbols_eq ▸ (Draft.ofDeclarations l : Draft τ).alphabet.ascending
  case keys => exact h.transitions_eq ▸ Draft.nodup_keys_ofDeclarations hb l
  case taken =>
    rw [hasTransition, List.contains_iff_mem, h.mem_taken_iff hb, h.transitions_eq, List.mem_map]
    simp only [Transition.key, Prod.mk.injEq]

/-- **Whatever the calls, the indexes say what the lists say** — on a fresh register, and on one
that was read from a listing. -/
theorem coherent_ofCalls [Listing.Layout τ] :
    (∀ cs : List Call, (ofCalls cs : Register τ).Coherent ∧
      (ofCalls cs : Register τ).Mirrors (.ofCalls cs)) ∧
    ∀ (t : String) (b : Draft τ), Listing.readDraft τ t = .ok b →
      ∃ r : Register τ, ofText t = .ok r ∧
        ∀ cs, (r.callAll cs).Coherent ∧ (r.callAll cs).Mirrors (b.callAll cs) := by
  have hcalls : ∀ (l : List Declaration) (cs : List Call),
      ((ofDeclarations l : Register τ).callAll cs).Coherent ∧
        ((ofDeclarations l : Register τ).callAll cs).Mirrors
          ((Draft.ofDeclarations l).callAll cs) := fun l cs => by
    rw [callAll_ofDeclarations, Draft.callAll_eq, ← Draft.ofDeclarations_append]
    exact ⟨coherent_ofDeclarations _, mirrors_ofDeclarations _⟩
  refine ⟨hcalls [], fun t b hb => ?_⟩
  obtain ⟨l, hl, rfl⟩ := map_eq_ok_iff.mp hb
  exact ⟨ofDeclarations l, map_eq_ok_iff.mpr ⟨l, hl, rfl⟩, hcalls l⟩

/-- A listing that names a state twice, and gives it two moves on one symbol. -/
def repetitive : String := "2 A A 0 2 A a A A a B A 0"

/-- The state has one number and one move, and a state declared later gets the next number. -/
theorem coherent_ofCalls_repetitive : ∃ r : Register StateId, ofText repetitive = .ok r ∧
    r.id? "A" = some 0 ∧ r.hasTransition "A" 'a' = true ∧ r.transitions = [⟨"A", 'a', "A"⟩] ∧
    (r.callAll [.states ["A", "B"]]).id? "B" = some 1 := by
  have hread : Listing.readDraft StateId repetitive = .ok (.ofDeclarations [.state "A", .symbol 'a',
    .transition ⟨"A", 'a', "A"⟩, .initial "A"]) := by decide
  obtain ⟨r, hr, hcoherent⟩ := coherent_ofCalls.2 _ _ hread
  obtain ⟨hfirst, hmirrors⟩ := hcoherent []
  obtain ⟨hlater, hgrown⟩ := hcoherent [.states ["A", "B"]]
  have htransitions : r.transitions = [⟨"A", 'a', "A"⟩] := hmirrors.transitions_eq
  refine ⟨r, hr, (hfirst.id?_eq_some_iff _ _).mpr ?_, (hfirst.hasTransition_iff rfl _ _).mpr ?_,
    htransitions, (hlater.id?_eq_some_iff _ _).mpr ?_⟩
  · rw [hmirrors.states_eq]
    rfl
  · exact ⟨_, htransitions ▸ List.mem_singleton_self _, rfl, rfl⟩
  · rw [hgrown.states_eq]
    rfl

end Register

end Automata
