import Automata.Proofs.StateSets

/-!
# Proofs/Branching — the outcome of a word is that of all its full runs

A full run visits one state more than the word has symbols (`IsRun`).  What is read of a word are
the states its full runs end in (`exists_isRun_iff`), so a set of states that is carried along,
branches merged and dead ones dropped, decides as the search over all branches does:
`judgedBy_evaluate`.  A deterministic automaton has one full run at most, and lists it
(`Dfa.stateSequence_eq_some_iff`).
-/

namespace Automata

variable {leads : StateId → Symbol → StateId → Prop} {p q : StateId} {a : Symbol}
  {s : List StateId} {w : List Symbol}

/-! ## Full runs -/

/-- **The states visited while a word is read to its end**, each led to from the one before. -/
structure IsRun (leads : StateId → Symbol → StateId → Prop) (start : StateId) (w : List Symbol)
    (s : List StateId) : Prop where
  length_eq : s.length = w.length + 1
  first : s[0]? = some start
  step : ∀ (i : Nat) (a : Symbol) (p q : StateId),
    w[i]? = some a → s[i]? = some p → s[i + 1]? = some q → leads p a q

theorem isRun_nil_iff : IsRun leads p [] s ↔ s = [p] := by
  constructor
  · intro h
    obtain ⟨q, rfl⟩ := List.length_eq_one_iff.mp h.length_eq
    exact congrArg (fun r => [r]) (Option.some.inj h.first)
  · rintro rfl
    exact ⟨rfl, rfl, fun i a p q ha => nomatch ha⟩

/-- **A run goes on from the second state as a run of what is left.** -/
theorem isRun_cons_iff :
    IsRun leads p (a :: w) s ↔ ∃ q t, s = p :: t ∧ leads p a q ∧ IsRun leads q w t := by
  constructor
  · intro h
    match s, h with
    | [], h => exact nomatch h.first
    | [_], h => exact nomatch h.length_eq
    | r :: q :: t, h =>
        obtain rfl : r = p := Option.some.inj h.first
        exact ⟨q, q :: t, rfl, h.step 0 a r q rfl rfl rfl, Nat.succ.inj h.length_eq, rfl,
          fun i => h.step (i + 1)⟩
  · rintro ⟨q, t, rfl, hpq, h⟩
    refine ⟨congrArg Nat.succ h.length_eq, rfl, fun i b r r' hb hr hr' => ?_⟩
    cases i with
    | zero =>
        obtain rfl := Option.some.inj hb
        obtain rfl := Option.some.inj hr
        obtain rfl : q = r' := Option.some.inj (h.first.symm.trans hr')
        exact hpq
    | succ i => exact h.step i b r r' hb hr hr'

theorem IsRun.ne_nil (h : IsRun leads p w s) : s ≠ [] :=
  List.ne_nil_of_length_eq_add_one h.length_eq

/-- **What is reached symbol by symbol is where the full runs end.** -/
theorem exists_isRun_iff {reaches : StateId → List Symbol → StateId → Prop}
    (hnil : ∀ p q, reaches p [] q ↔ p = q)
    (hcons : ∀ p a w q, reaches p (a :: w) q ↔ ∃ r, leads p a r ∧ reaches r w q) :
    ∀ {p : StateId} {w : List Symbol},
      (∃ s, IsRun leads p w s ∧ s.getLast? = some q) ↔ reaches p w q
  | p, [] => by simp [isRun_nil_iff, hnil]
  | p, a :: w => by
      rw [hcons]
      constructor
      · rintro ⟨s, hs, hlast⟩
        obtain ⟨r, t, rfl, hr, ht⟩ := isRun_cons_iff.mp hs
        refine ⟨r, hr, (exists_isRun_iff hnil hcons).mp ⟨t, ht, ?_⟩⟩
        rwa [List.getLast?_cons_of_ne_nil ht.ne_nil] at hlast
      · rintro ⟨r, hr, h⟩
        obtain ⟨t, ht, hlast⟩ := (exists_isRun_iff hnil hcons).mpr h
        refine ⟨p :: t, isRun_cons_iff.mpr ⟨r, t, rfl, hr, ht⟩, ?_⟩
        rwa [List.getLast?_cons_of_ne_nil ht.ne_nil]

/-! ## Outcomes -/

/-- **An outcome as the full runs have it** — accepted if one of them ends in a final state, frozen
if there is none, and rejected otherwise. -/
structure Evaluation.JudgedBy (e : Evaluation) (isRun : List StateId → Prop)
    (isFinal : StateId → Bool) : Prop where
  accept_iff : e = .accept ↔ ∃ s q, isRun s ∧ s.getLast? = some q ∧ isFinal q = true
  frozen_iff : e = .frozen ↔ ¬ ∃ s, isRun s
  reject_iff : e = .reject ↔
    (∃ s, isRun s) ∧ ¬ ∃ s q, isRun s ∧ s.getLast? = some q ∧ isFinal q = true

/-- **It is enough to know where the full runs end.** -/
theorem Evaluation.JudgedBy.of_ends {e : Evaluation} {isFinal : StateId → Bool}
    {ends : StateId → Prop} (hends : ∀ q, (∃ s, IsRun leads p w s ∧ s.getLast? = some q) ↔ ends q)
    (haccept : e = .accept ↔ ∃ q, ends q ∧ isFinal q = true)
    (hfrozen : e = .frozen ↔ ¬ ∃ q, ends q) : e.JudgedBy (IsRun leads p w) isFinal := by
  have haccept' : e = .accept ↔
      ∃ s q, IsRun leads p w s ∧ s.getLast? = some q ∧ isFinal q = true := by
    rw [haccept]
    simp only [← hends]
    exact ⟨fun ⟨q, ⟨s, hs, hq⟩, hf⟩ => ⟨s, q, hs, hq, hf⟩,
      fun ⟨s, q, hs, hq, hf⟩ => ⟨q, ⟨s, hs, hq⟩, hf⟩⟩
  have hfrozen' : e = .frozen ↔ ¬ ∃ s, IsRun leads p w s := by
    rw [hfrozen]
    simp only [← hends]
    refine not_congr ⟨fun ⟨_, s, hs, _⟩ => ⟨s, hs⟩, fun ⟨s, hs⟩ => ?_⟩
    exact ⟨s.getLast hs.ne_nil, s, hs, List.getLast?_eq_some_getLast hs.ne_nil⟩
  refine ⟨haccept', hfrozen', ?_⟩
  rw [← not_not (a := ∃ s, IsRun leads p w s), ← hfrozen', ← haccept']
  cases e <;> simp

theorem Evaluation.ofFinal_ne_frozen {b : Bool} : Evaluation.ofFinal b ≠ .frozen := by
  cases b <;> exact nofun

namespace Nfa

variable {n : Nfa}

/-- A full run of an automaton that branches. -/
def FullRun (n : Nfa) (w : List Symbol) (s : List StateId) : Prop :=
  IsRun (fun p a q => q ∈ n.successors p a) n.initial w s

/-- **The states read of a word are those its full runs end in.** -/
theorem exists_fullRun_iff : (∃ s, n.FullRun w s ∧ s.getLast? = some q) ↔ q ∈ n.read w :=
  (exists_isRun_iff (fun _ _ => branch_nil_iff) fun _ _ _ _ => branch_cons_iff).trans
    mem_read_iff.symm

theorem evaluate_of_read_eq_empty (h : n.read w = ∅) : n.evaluate w = .frozen := by
  rw [evaluate, h]
  rfl

theorem evaluate_of_read_ne_empty (h : n.read w ≠ ∅) :
    n.evaluate w = .ofFinal (n.containsFinal (n.read w)) := by
  rw [evaluate]
  exact if_neg (mt SortedSet.isEmpty_eq_true_iff.mp h)

theorem evaluate_eq_accept_iff :
    n.evaluate w = .accept ↔ ∃ q, q ∈ n.read w ∧ n.isFinal q = true := by
  by_cases h : n.read w = ∅
  · simp [evaluate_of_read_eq_empty h, h]
  · rw [evaluate_of_read_ne_empty h, Evaluation.ofFinal_eq_accept_iff, containsFinal_iff]
    simp only [Machine.isFinal_iff]

/-- A word freezes when no branch is left. -/
theorem evaluate_eq_frozen_iff : n.evaluate w = .frozen ↔ ¬ ∃ q, q ∈ n.read w := by
  by_cases h : n.read w = ∅
  · simp [evaluate_of_read_eq_empty h, h]
  · have hmem : ∃ q, q ∈ n.read w := by
      by_contra hnone
      exact h (SortedSet.ext_mem fun q => by simpa using fun hq => hnone ⟨q, hq⟩)
    rw [evaluate_of_read_ne_empty h]
    exact iff_of_false Evaluation.ofFinal_ne_frozen (not_not.mpr hmem)

end Nfa

namespace Dfa

variable {d : Dfa}

/-- A full run of an automaton that does not branch. -/
def FullRun (d : Dfa) (w : List Symbol) (s : List StateId) : Prop :=
  IsRun (fun p a q => d.next? p a = some q) d.initial w s

/-- **A full run ends where the word leads.** -/
theorem exists_fullRun_iff : (∃ s, d.FullRun w s ∧ s.getLast? = some q) ↔ d.run w = some q := by
  refine @exists_isRun_iff _ _ (fun p w q => d.runFrom p w = some q) (fun p q => ?_)
    (fun p a w q => ?_) _ _
  · exact Option.some_inj
  · rw [runFrom_cons, Option.bind_eq_some_iff]

/-- **The states visited are a full run**, and the only one there is. -/
theorem visitFrom_eq_some_iff : ∀ {p : StateId} {w : List Symbol} {s : List StateId},
    d.visitFrom [] p w = some s ↔ IsRun (fun p a q => d.next? p a = some q) p w s
  | p, [], s => by
      rw [isRun_nil_iff]
      exact Option.some_inj.trans eq_comm
  | p, a :: w, s => by
      rw [visitFrom_cons, isRun_cons_iff]
      simp only [Option.bind_eq_some_iff, Option.map_eq_some_iff, visitFrom_eq_some_iff]
      exact ⟨fun ⟨q, hq, t, ht, hs⟩ => ⟨q, t, hs.symm, hq, ht⟩,
        fun ⟨q, t, hs, hq, ht⟩ => ⟨q, hq, t, ht, hs.symm⟩⟩

theorem stateSequence_eq_some_iff : d.stateSequence w = some s ↔ d.FullRun w s :=
  visitFrom_eq_some_iff

theorem evaluate_eq_frozen_iff : d.evaluate w = .frozen ↔ ¬ ∃ q, d.run w = some q := by
  cases hq : d.run w with
  | none => simp [evaluate_of_run_eq_none hq]
  | some q => simp [evaluate_of_run hq, Evaluation.ofFinal_ne_frozen]

end Dfa

/-- **Every outcome is that of all full runs** — a word is accepted if one of them ends in a final
state, frozen if there is none, and rejected otherwise.  An automaton that does not branch has one
full run at most, which is the sequence of the states it visits. -/
theorem judgedBy_evaluate :
    (∀ (n : Nfa) (w : List Symbol), (n.evaluate w).JudgedBy (n.FullRun w) n.isFinal) ∧
    ∀ (d : Dfa) (w : List Symbol), (d.evaluate w).JudgedBy (d.FullRun w) d.isFinal ∧
      (∀ s t, d.FullRun w s → d.FullRun w t → s = t) ∧
      (∀ s, d.stateSequence w = some s ↔ d.FullRun w s) ∧
      (d.stateSequence w = none ↔ ¬ ∃ s, d.FullRun w s) := by
  refine ⟨fun n w => ?nfa, fun d w => ⟨?dfa, fun s t hs ht => ?unique,
    fun _ => Dfa.stateSequence_eq_some_iff, ?none⟩⟩
  case nfa =>
    exact .of_ends (fun _ => Nfa.exists_fullRun_iff) Nfa.evaluate_eq_accept_iff
      Nfa.evaluate_eq_frozen_iff
  case dfa =>
    exact .of_ends (fun _ => Dfa.exists_fullRun_iff) Dfa.evaluate_eq_accept_iff
      Dfa.evaluate_eq_frozen_iff
  case unique =>
    rw [← Dfa.stateSequence_eq_some_iff] at hs ht
    exact Option.some.inj (hs.symm.trans ht)
  case none =>
    simp only [← Dfa.stateSequence_eq_some_iff, Option.eq_none_iff_forall_ne_some, not_exists]

/-- One of the branches on `ba` ends in the final state, all are dead on a foreign symbol, and the
states of the subset construction are visited in one way only. -/
theorem judgedBy_evaluate_endsWithA :
    (∃ s q, Nfa.endsWithA.FullRun ['b', 'a'] s ∧ s.getLast? = some q ∧
      Nfa.endsWithA.isFinal q = true) ∧
    (¬ ∃ s, Nfa.endsWithA.FullRun ['a', 'c'] s) ∧
    ∀ s, Nfa.endsWithA.determinize.FullRun ['b', 'a'] s → s = [0, 0, 1] := by
  obtain ⟨-, hunique, hvisited, -⟩ := judgedBy_evaluate.2 Nfa.endsWithA.determinize ['b', 'a']
  refine ⟨(judgedBy_evaluate.1 Nfa.endsWithA ['b', 'a']).accept_iff.mp (by decide),
    (judgedBy_evaluate.1 Nfa.endsWithA ['a', 'c']).frozen_iff.mp (by decide), fun s hs => ?_⟩
  exact hunique s [0, 0, 1] hs ((hvisited [0, 0, 1]).mp (by decide))

end Automata
