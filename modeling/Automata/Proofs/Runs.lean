import Automata.Evaluation

/-!
# Proofs/Runs — which words an automaton reads, and where they lead

A run is read one symbol at a time (`runFrom_cons`) or one part of a word at a time
(`runFrom_append`).  In a well-formed automaton it stays among the states (`runFrom_lt`) and uses
symbols of the alphabet only (`mem_alphabet_of_runFrom`); if the automaton is total nothing else
stops it (`exists_runFrom`).

`runFrom_map` is how two automata are compared: a map of states that carries moves to moves carries
runs to runs.
-/

namespace Automata

@[simp] theorem Evaluation.ofFinal_eq_accept_iff {b : Bool} :
    Evaluation.ofFinal b = .accept ↔ b = true := by
  cases b <;> simp [ofFinal]

namespace Dfa

variable {d e : Dfa} {p q : StateId} {a : Symbol} {v w : List Symbol}

/-! ## Reading a word in parts -/

theorem runFrom_cons : d.runFrom p (a :: w) = (d.next? p a).bind fun q => d.runFrom q w := by
  rw [runFrom]
  cases d.next? p a <;> rfl

/-- **A word is read part by part.** -/
theorem runFrom_append : ∀ {p : StateId} {v : List Symbol},
    d.runFrom p (v ++ w) = (d.runFrom p v).bind fun q => d.runFrom q w
  | _, [] => rfl
  | p, a :: v => by
      rw [List.cons_append, runFrom_cons, runFrom_cons, Option.bind_assoc]
      exact congrArg _ (funext fun q => runFrom_append)

theorem run_append : d.run (v ++ w) = (d.run v).bind fun q => d.runFrom q w := runFrom_append

/-- The last symbol of a word is one more move. -/
theorem run_concat : d.run (w ++ [a]) = (d.run w).bind fun q => d.next? q a := by
  rw [run_append]
  refine congrArg _ (funext fun q => ?_)
  rw [runFrom_cons]
  exact Option.bind_fun_some _

/-! ## Runs of well-formed automata -/

theorem next?_lt (h : d.WellFormed) (hq : d.next? p a = some q) : q < d.numStates :=
  (h.of_entry? hq).2.2 q (by simp)

theorem mem_alphabet_of_next? (h : d.WellFormed) (hq : d.next? p a = some q) : a ∈ d.alphabet :=
  (h.of_entry? hq).2.1

theorem next?_eq_none_of_not_mem (h : d.WellFormed) (ha : a ∉ d.alphabet) : d.next? p a = none :=
  Option.eq_none_iff_forall_ne_some.mpr fun _ hq => ha (mem_alphabet_of_next? h hq)

/-- What is not a state of a well-formed automaton has no move. -/
theorem next?_eq_none (h : d.WellFormed) (hp : d.numStates ≤ p) : d.next? p a = none :=
  Option.eq_none_iff_forall_ne_some.mpr fun _ hq =>
    absurd (h.of_entry? hq).1 (Nat.not_lt.mpr hp)

/-- **No run leaves the states.** -/
theorem runFrom_lt (h : d.WellFormed) : ∀ {p : StateId} {w : List Symbol}, p < d.numStates →
    d.runFrom p w = some q → q < d.numStates
  | p, [], hp, hq => Option.some.inj hq ▸ hp
  | p, a :: w, _, hq => by
      rw [runFrom_cons] at hq
      obtain ⟨r, hr, hq⟩ := Option.bind_eq_some_iff.mp hq
      exact runFrom_lt h (next?_lt h hr) hq

theorem run_lt (h : d.WellFormed) (hq : d.run w = some q) : q < d.numStates :=
  runFrom_lt h h.initial_lt hq

/-- **A run reads symbols of the alphabet only.** -/
theorem mem_alphabet_of_runFrom (h : d.WellFormed) : ∀ {p : StateId} {w : List Symbol},
    d.runFrom p w = some q → ∀ a ∈ w, a ∈ d.alphabet
  | p, b :: w, hq, a, ha => by
      rw [runFrom_cons] at hq
      obtain ⟨r, hr, hq⟩ := Option.bind_eq_some_iff.mp hq
      obtain rfl | ha := List.mem_cons.mp ha
      · exact mem_alphabet_of_next? h hr
      · exact mem_alphabet_of_runFrom h hq a ha

/-! ## Total automata -/

theorem isTotal_iff : d.isTotal = true ↔
    ∀ p < d.numStates, ∀ a ∈ d.alphabet, ∃ q, d.next? p a = some q := by
  simp only [isTotal, undefinedTransitions, List.isEmpty_iff, List.flatMap_eq_nil_iff,
    List.map_eq_nil_iff, List.filter_eq_nil_iff, Machine.mem_states, SortedSet.mem_toList,
    Option.isNone_iff_eq_none, Option.ne_none_iff_exists']

/-- **A total automaton reads every word over its alphabet.** -/
theorem exists_runFrom (h : d.WellFormed) (ht : d.isTotal = true) :
    ∀ {p : StateId} {w : List Symbol}, p < d.numStates → (∀ a ∈ w, a ∈ d.alphabet) →
      ∃ q, d.runFrom p w = some q
  | p, [], _, _ => ⟨p, rfl⟩
  | p, a :: w, hp, hw => by
      obtain ⟨r, hr⟩ := isTotal_iff.mp ht p hp a (hw a List.mem_cons_self)
      obtain ⟨q, hq⟩ := exists_runFrom h ht (next?_lt h hr)
        fun b hb => hw b (List.mem_cons_of_mem a hb)
      exact ⟨q, by rw [runFrom_cons, hr, Option.bind_some, hq]⟩

theorem exists_run (h : d.WellFormed) (ht : d.isTotal = true) (hw : ∀ a ∈ w, a ∈ d.alphabet) :
    ∃ q, d.run w = some q := exists_runFrom h ht h.initial_lt hw

/-! ## Outcomes -/

theorem evaluate_of_run (hq : d.run w = some q) : d.evaluate w = .ofFinal (d.isFinal q) := by
  rw [evaluate, hq]

theorem evaluate_of_run_eq_none (hq : d.run w = none) : d.evaluate w = .frozen := by
  rw [evaluate, hq]

theorem evaluate_eq_accept_iff :
    d.evaluate w = .accept ↔ ∃ q, d.run w = some q ∧ d.isFinal q = true := by
  cases hq : d.run w with
  | none => simp [evaluate_of_run_eq_none hq]
  | some q => rw [evaluate_of_run hq, Evaluation.ofFinal_eq_accept_iff]; simp

theorem accepts_eq_true_iff :
    d.accepts w = true ↔ ∃ q, d.run w = some q ∧ d.isFinal q = true := by
  rw [← evaluate_eq_accept_iff]
  exact beq_iff_eq

/-- After a word that is read, acceptance is finality. -/
theorem accepts_of_run (hq : d.run w = some q) : d.accepts w = d.isFinal q := by
  rw [Bool.eq_iff_iff, accepts_eq_true_iff, hq]
  simp

/-! ## Maps of states -/

/-- **A map that carries moves to moves carries runs to runs.** -/
theorem runFrom_map {f : StateId → StateId} {P : StateId → Prop}
    (hP : ∀ p a q, P p → d.next? p a = some q → P q)
    (hf : ∀ p a, P p → e.next? (f p) a = (d.next? p a).map f) :
    ∀ {p : StateId} {w : List Symbol}, P p → e.runFrom (f p) w = (d.runFrom p w).map f
  | _, [], _ => rfl
  | p, a :: w, hp => by
      rw [runFrom_cons, runFrom_cons, hf p a hp]
      cases hq : d.next? p a with
      | none => rfl
      | some q =>
          rw [Option.map_some, Option.bind_some, Option.bind_some]
          exact runFrom_map hP hf (hP p a q hp hq)

/-- Foreign symbols lead nowhere, whatever the map. -/
theorem next?_map {f : StateId → StateId} (hd : d.WellFormed) (he : e.WellFormed)
    (halphabet : e.alphabet = d.alphabet)
    (hf : ∀ a ∈ d.alphabet, e.next? (f p) a = (d.next? p a).map f) :
    e.next? (f p) a = (d.next? p a).map f := by
  by_cases ha : a ∈ d.alphabet
  · exact hf a ha
  · rw [next?_eq_none_of_not_mem he (halphabet ▸ ha), next?_eq_none_of_not_mem hd ha,
      Option.map_none]

/-- **A map that carries a run to a run and keeps finality keeps the outcome.** -/
theorem evaluate_eq_of_run_eq_map {f : StateId → StateId} (hrun : e.run w = (d.run w).map f)
    (hfinal : ∀ s, d.run w = some s → e.isFinal (f s) = d.isFinal s) :
    e.evaluate w = d.evaluate w := by
  cases hs : d.run w with
  | none =>
      rw [hs] at hrun
      rw [evaluate_of_run_eq_none hrun, evaluate_of_run_eq_none hs]
  | some s =>
      rw [hs] at hrun
      rw [evaluate_of_run hrun, evaluate_of_run hs, hfinal s hs]

end Dfa

end Automata
