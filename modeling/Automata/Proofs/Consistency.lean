import Automata.Proofs.Minimization

/-!
# Proofs/Consistency — every automaton that can be had fits together

`Payload.WellFormed` lists what the parts of an automaton must satisfy.  The check of a payload
finds nothing exactly when they do (`Payload.inconsistencies_eq_nil_iff`), so decoded bytes make an
automaton exactly when they are the parts of a well-formed one (`Payload.machine?_eq_ok_iff`).
What drafts and algorithms make satisfies the same conditions (`wellFormed_of_origin`), so a
foreign symbol freezes every automaton.
-/

namespace Automata

namespace Payload

variable {τ : Type} {v : Payload τ} {m : Machine τ}

/-- **What the parts of an automaton must satisfy.** -/
structure WellFormed [Target τ] (v : Payload τ) : Prop where
  alphabet_ascending : v.alphabet.Pairwise fun a b => a.toNat < b.toNat
  initial_lt : v.initial < v.labels.length
  finals_lt : ∀ q ∈ v.finals.toList, q < v.labels.length
  table_ok : ∀ r ∈ v.table.entries, r.1 < v.labels.length ∧ ∀ e ∈ r.2.entries,
    e.1 ∈ v.alphabet ∧ ∀ q ∈ Target.states e.2, q < v.labels.length

@[simp] theorem machine_ofMachine (m : Machine τ) : (ofMachine m).machine = m := by
  have halphabet : SortedSet.ofList m.alphabet.toList = m.alphabet :=
    SortedSet.ext_mem fun _ => SortedSet.mem_ofList
  rw [machine, ofMachine, halphabet]

/-! ## The check -/

/-- Neighbours ascend exactly when all symbols do. -/
theorem isAscending_iff {l : List Symbol} :
    isAscending l = true ↔ l.Pairwise fun a b => a.toNat < b.toNat := by
  rw [← List.isChain_iff_pairwise]
  induction l with
  | nil => simp [isAscending]
  | cons a l ih =>
      cases l with
      | nil => simp [isAscending]
      | cons b l =>
          rw [List.isChain_cons_cons, ← ih]
          simp [isAscending]

variable [Target τ]

/-- **The check finds nothing exactly when everything fits.** -/
theorem inconsistencies_eq_nil_iff : v.inconsistencies = [] ↔ v.WellFormed := by
  have halphabet : (if isAscending v.alphabet then [] else [Inconsistency.unsortedAlphabet]) = [] ↔
      v.alphabet.Pairwise fun a b => a.toNat < b.toNat := by
    rw [← isAscending_iff]
    split <;> simp_all
  simp only [inconsistencies, List.append_eq_nil_iff, halphabet, checkState_eq_nil_iff,
    List.flatMap_eq_nil_iff, checkRow_eq_nil_iff]
  constructor
  · rintro ⟨⟨⟨h₁, h₂⟩, h₃⟩, h₄⟩
    exact ⟨h₁, h₂, h₃, h₄⟩
  · rintro ⟨h₁, h₂, h₃, h₄⟩
    exact ⟨⟨⟨h₁, h₂⟩, h₃⟩, h₄⟩

/-! ## Payloads and machines -/

/-- A machine keeps its alphabet ascending, so its parts fit if the rest of it does. -/
theorem wellFormed_ofMachine_iff : (ofMachine m).WellFormed ↔ m.WellFormed :=
  ⟨fun h => ⟨h.initial_lt, h.finals_lt, h.table_ok⟩,
    fun h => ⟨m.alphabet.ascending, h.initial_lt, h.finals_lt, h.table_ok⟩⟩

/-- **No part of a well-formed payload is lost.** -/
theorem ofMachine_machine (h : v.WellFormed) : ofMachine v.machine = v := by
  have halphabet : (SortedSet.ofList v.alphabet).toList = v.alphabet :=
    eq_of_ascending (SortedSet.ofList v.alphabet).ascending h.alphabet_ascending
      fun _ => SortedSet.mem_ofList
  rw [ofMachine, machine, halphabet]

/-- **A payload makes a machine exactly when it is the parts of a well-formed one.** -/
theorem machine?_eq_ok_iff : v.machine? = .ok m ↔ v.WellFormed ∧ ofMachine m = v := by
  rw [← inconsistencies_eq_nil_iff, machine?]
  cases hv : v.inconsistencies with
  | nil =>
      have h := inconsistencies_eq_nil_iff.mp hv
      constructor
      · intro hm
        exact ⟨rfl, by rw [← Except.ok.inj hm, ofMachine_machine h]⟩
      · rintro ⟨-, hm⟩
        rw [← hm, machine_ofMachine]
  | cons e l => exact iff_of_false (by simp) (by simp)

/-- What does not fit is reported. -/
theorem exists_machine?_eq_error (h : ¬ v.WellFormed) : ∃ e, v.machine? = .error e := by
  rw [← inconsistencies_eq_nil_iff] at h
  obtain ⟨e, l, hv⟩ := List.exists_cons_of_ne_nil h
  exact ⟨e, by rw [machine?, hv]⟩

end Payload

/-! ## Automata from bytes -/

namespace Machine

variable {τ : Type} [Target τ] [Coded τ] {bs rest : List UInt8} {v : Payload τ}

theorem ofBytes_of_decode (h : Payload.codec.decode bs = .ok (v, rest)) :
    ofBytes bs = v.machine?.mapError Error.inconsistency := by
  rw [ofBytes, h]
  rfl

/-- **Of the payloads that decode, exactly the well-formed ones are accepted.** -/
theorem exists_ofBytes_eq_ok_iff (h : Payload.codec.decode bs = .ok (v, rest)) :
    (∃ m : Machine τ, ofBytes bs = .ok m ∧ Payload.ofMachine m = v) ↔ v.WellFormed := by
  simp only [ofBytes_of_decode h, mapError_eq_ok_iff, Payload.machine?_eq_ok_iff]
  refine ⟨fun ⟨_, ⟨hv, _⟩, _⟩ => hv, fun hv => ⟨v.machine, ⟨hv, ?_⟩, ?_⟩⟩ <;>
    exact Payload.ofMachine_machine hv

/-- The others are reported inconsistent. -/
theorem exists_ofBytes_eq_error (h : Payload.codec.decode bs = .ok (v, rest))
    (hv : ¬ v.WellFormed) :
    ∃ e, (ofBytes bs : Except Error (Machine τ)) = .error (.inconsistency e) := by
  obtain ⟨e, he⟩ := Payload.exists_machine?_eq_error hv
  exact ⟨e, by rw [ofBytes_of_decode h, he]; rfl⟩

end Machine

/-! ## All origins -/

/-- No branch reads a foreign symbol. -/
theorem Nfa.evaluate_eq_frozen {n : Nfa} (h : n.WellFormed) {w : List Symbol}
    (hw : ∃ a ∈ w, a ∉ n.alphabet) : n.evaluate w = .frozen := by
  obtain ⟨a, ha, hmem⟩ := hw
  obtain ⟨u, v, rfl⟩ := List.append_of_mem ha
  have hread : n.read (u ++ a :: v) = ∅ := by
    rw [read, readFrom, List.foldl_append, List.foldl_cons, nextStates_eq_empty h hmem]
    exact readFrom_empty v
  rw [evaluate, hread]
  rfl

/-- **What drafts and algorithms make fits together, and so does what is decoded** — a payload is
accepted as it is when it fits together, and reported inconsistent when it does not.  Hence a
foreign symbol freezes every automaton that can be had. -/
theorem wellFormed_of_origin :
    (∀ (b : Draft StateId) (d : Dfa), b.build = .ok d → (Payload.ofMachine d).WellFormed) ∧
    (∀ (b : Draft (List StateId)) (n : Nfa), b.build = .ok n →
      (Payload.ofMachine n).WellFormed) ∧
    (∀ n : Nfa, (Payload.ofMachine n).WellFormed → (Payload.ofMachine n.determinize).WellFormed) ∧
    (∀ d : Dfa, (Payload.ofMachine d).WellFormed → (Payload.ofMachine d.minimize).WellFormed) ∧
    (∀ bs (v : Payload StateId) rest, Payload.codec.decode bs = .ok (v, rest) →
      ((∃ d : Dfa, Machine.ofBytes bs = .ok d ∧ Payload.ofMachine d = v) ↔ v.WellFormed) ∧
      (¬ v.WellFormed → ∃ e, (Machine.ofBytes bs : Except Error Dfa) =
        .error (.inconsistency e))) ∧
    (∀ bs (v : Payload (List StateId)) rest, Payload.codec.decode bs = .ok (v, rest) →
      ((∃ n : Nfa, Machine.ofBytes bs = .ok n ∧ Payload.ofMachine n = v) ↔ v.WellFormed) ∧
      (¬ v.WellFormed → ∃ e, (Machine.ofBytes bs : Except Error Nfa) =
        .error (.inconsistency e))) ∧
    (∀ d : Dfa, d.Obtainable → (Payload.ofMachine d).WellFormed ∧
      ∀ w, (∃ a ∈ w, a ∉ d.alphabet) → d.evaluate w = .frozen) ∧
    (∀ n : Nfa, n.Loaded → (Payload.ofMachine n).WellFormed ∧
      ∀ w, (∃ a ∈ w, a ∉ n.alphabet) → n.evaluate w = .frozen) := by
  simp only [Payload.wellFormed_ofMachine_iff]
  exact ⟨fun _ _ => Draft.wellFormed_of_build, fun _ _ => Draft.wellFormed_of_build,
    fun n _ => Nfa.wellFormed_determinize n, fun _ h => (Dfa.minimal_minimize h).wellFormed,
    fun _ _ _ h => ⟨Machine.exists_ofBytes_eq_ok_iff h, Machine.exists_ofBytes_eq_error h⟩,
    fun _ _ _ h => ⟨Machine.exists_ofBytes_eq_ok_iff h, Machine.exists_ofBytes_eq_error h⟩,
    fun _ hd => ⟨hd.wellFormed, fun _ => Dfa.evaluate_eq_frozen hd.wellFormed⟩,
    fun _ hn => ⟨hn.wellFormed, fun _ => Nfa.evaluate_eq_frozen hn.wellFormed⟩⟩

/-- One state `A`, the symbol `a`, and the initial state with a position given. -/
def oneState (initial : UInt8) : List UInt8 := [1, 1, 65, 1, 97, initial, 0, 0]

/-- The first state can be initial, the second is not there. -/
theorem wellFormed_of_origin_oneState :
    (∃ d : Dfa, Machine.ofBytes (oneState 0) = .ok d) ∧
    ∃ e, (Machine.ofBytes (oneState 1) : Except Error Dfa) = .error (.inconsistency e) := by
  have hfirst : Payload.codec.decode (oneState 0) =
      .ok ((⟨["A"], ['a'], 0, ∅, ∅⟩ : Payload StateId), []) := by decide
  have hsecond : Payload.codec.decode (oneState 1) =
      .ok ((⟨["A"], ['a'], 1, ∅, ∅⟩ : Payload StateId), []) := by decide
  have hpayload := wellFormed_of_origin.2.2.2.2.1
  refine ⟨?_, (hpayload _ _ _ hsecond).2 fun h => absurd h.initial_lt (by decide)⟩
  obtain ⟨d, hd, -⟩ := (hpayload _ _ _ hfirst).1.mpr
    ⟨by decide, by decide, by decide, by decide⟩
  exact ⟨d, hd⟩

end Automata
