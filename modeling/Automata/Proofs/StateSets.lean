import Automata.Proofs.Discovery
import Automata.Proofs.Subset

/-!
# Proofs/StateSets — the sets behind the states of the subset construction, and their numbers

A word leads a set of states to the states its branches end in (`Nfa.mem_read_iff`).  The sets found
are the non-empty ones some word leads to, numbered in the order of the first words that do, so a
search of the constructed automaton comes upon its states in the order of their numbers
(`Nfa.stateSets_subsetConstruction`).
-/

namespace Automata.Nfa

variable {n : Nfa} {S T : StateSet} {i j : StateId} {p q r : StateId} {a : Symbol}
  {v w : List Symbol}

/-! ## Branches -/

/-- **A way of reading a word from one state to another.** -/
inductive Branch (n : Nfa) : StateId → List Symbol → StateId → Prop
  | nil (p : StateId) : Branch n p [] p
  | cons {p q r : StateId} {a : Symbol} {w : List Symbol} (hr : r ∈ n.successors p a)
      (h : Branch n r w q) : Branch n p (a :: w) q

theorem branch_nil_iff : n.Branch p [] q ↔ p = q :=
  ⟨fun | .nil _ => rfl, fun h => h ▸ .nil p⟩

theorem branch_cons_iff : n.Branch p (a :: w) q ↔ ∃ r ∈ n.successors p a, n.Branch r w q :=
  ⟨fun | .cons hr h => ⟨_, hr, h⟩, fun ⟨_, hr, h⟩ => .cons hr h⟩

/-- **A set is read to the states its branches end in.** -/
theorem mem_readFrom_iff : ∀ {S : StateSet} {w : List Symbol},
    q ∈ n.readFrom S w ↔ ∃ p ∈ S, n.Branch p w q
  | S, [] => by simp [readFrom, branch_nil_iff]
  | S, a :: w => by
      simp only [readFrom_cons, mem_readFrom_iff, mem_nextStates, branch_cons_iff]
      exact ⟨fun ⟨r, ⟨p, hp, hr⟩, h⟩ => ⟨p, hp, r, hr, h⟩,
        fun ⟨p, hp, r, hr, h⟩ => ⟨r, ⟨p, hp, hr⟩, h⟩⟩

theorem mem_read_iff : q ∈ n.read w ↔ n.Branch n.initial w q := by
  rw [read, mem_readFrom_iff]
  simp [start]

/-- A word with a symbol outside the alphabet leads nowhere. -/
theorem mem_alphabet_of_read_ne_empty (h : n.WellFormed) (hw : n.read w ≠ ∅) :
    ∀ a ∈ w, a ∈ n.alphabet := by
  induction w using List.reverseRecOn with
  | nil => exact fun _ ha => absurd ha List.not_mem_nil
  | append_singleton w a ih =>
      rw [read_concat] at hw
      intro b hb
      obtain hb | hb := List.mem_append.mp hb
      · exact ih (fun he => hw (by rw [he, nextStates_empty])) b hb
      · rw [List.mem_singleton.mp hb]
        exact not_not.mp fun ha => hw (nextStates_eq_empty h ha)

/-! ## The order of the sets -/

/-- The set one symbol away, unless no branch is left. -/
def nextSet? (n : Nfa) (S : StateSet) (a : Symbol) : Option StateSet :=
  if n.nextStates S a = ∅ then none else some (n.nextStates S a)

theorem mem_alphabet_of_nextSet? (h : n.WellFormed) (hT : n.nextSet? S a = some T) :
    a ∈ n.alphabet := by
  refine not_not.mp fun ha => ?_
  rw [nextSet?, nextStates_eq_empty h ha, if_pos rfl] at hT
  exact nomatch hT

theorem successorSets_eq (n : Nfa) : n.successorSets = nextValues n.alphabet n.nextSet? := by
  funext S
  rw [successorSets, nextValues]
  induction n.alphabet.toList with
  | nil => rfl
  | cons a l ih =>
      rw [List.map_cons, List.filter_cons, ih, List.filterMap_cons, nextSet?]
      by_cases he : n.nextStates S a = ∅ <;> simp [he]

theorem follow_nextSet? : ∀ w : List Symbol, follow n.nextSet? n.start w =
    if n.read w = ∅ then none else some (n.read w) := by
  intro w
  induction w using List.reverseRecOn with
  | nil => exact (if_neg start_ne_empty).symm
  | append_singleton w a ih =>
      rw [follow_concat, ih, read_concat]
      split
      · rename_i he
        rw [he, nextStates_empty]
        rfl
      · rfl

/-- The words that lead to a set without getting stuck. -/
theorem follow_nextSet?_eq_some_iff (hS : S ≠ ∅) :
    follow n.nextSet? n.start w = some S ↔ n.read w = S := by
  rw [follow_nextSet?]
  split
  · rename_i he
    exact iff_of_false nofun fun h => hS (h ▸ he)
  · exact ⟨Option.some.inj, congrArg some⟩

/-- **Sets are found in the order of the first words that lead to them.** -/
theorem pairwise_reachableSets (h : n.WellFormed) :
    n.reachableSets.Pairwise fun S T => ∀ v w, LeastWord (n.read · = S) v →
      LeastWord (n.read · = T) w → Precedes v w := by
  have hU := mem_setsBelow_of_mem_successorSets h
  rw [successorSets_eq] at hU
  have hsearch := pairwise_search (fun _ _ _ => mem_alphabet_of_nextSet? h) hU
    (start_mem_setsBelow h) (card_setsBelow_le _)
  rw [← successorSets_eq] at hsearch
  have hne : ∀ S ∈ n.reachableSets, S ≠ ∅ := fun S hS => ((mem_reachableSets_iff h).mp hS).1
  refine hsearch.imp_of_mem fun {S T} hS hT hST v w hv hw => hST v w ?_ ?_
  · exact hv.congr fun _ => (follow_nextSet?_eq_some_iff (hne S hS)).symm
  · exact hw.congr fun _ => (follow_nextSet?_eq_some_iff (hne T hT)).symm

theorem nodup_reachableSets (h : n.WellFormed) : n.reachableSets.Nodup :=
  nodup_search (mem_setsBelow_of_mem_successorSets h) (start_mem_setsBelow h)
    (card_setsBelow_le _)

/-! ## The numbers of the sets -/

/-- **A word leads to the number of the set it leads to.** -/
theorem run_determinize_eq_some_iff (h : n.WellFormed) :
    n.determinize.run w = some i ↔ n.reachableSets[i]? = some (n.read w) := by
  rw [run_determinize h]
  refine ⟨getElem?_of_idxOf?_eq_some, fun hi => ?_⟩
  obtain ⟨hlt, heq⟩ := List.getElem?_eq_some_iff.mp hi
  rw [← heq, idxOf?_of_mem (List.getElem_mem hlt), (nodup_reachableSets h).idxOf_getElem]

theorem run_determinize_eq_some_iff_read_eq (h : n.WellFormed)
    (hi : n.reachableSets[i]? = some S) : n.determinize.run w = some i ↔ n.read w = S := by
  rw [run_determinize_eq_some_iff h, hi]
  exact ⟨fun e => (Option.some.inj e).symm, fun e => congrArg some e.symm⟩

/-- Every set found has a first word. -/
theorem exists_leastWord_read (h : n.WellFormed) (hi : n.reachableSets[i]? = some S) :
    ∃ w, LeastWord (n.read · = S) w := by
  obtain ⟨-, w, hw⟩ := (mem_reachableSets_iff h).mp (List.mem_of_getElem? hi)
  exact exists_leastWord (P := fun w => n.read w = S) hw

/-- **Sets are numbered in the order of their first words.** -/
theorem lt_iff_precedes (h : n.WellFormed) (hi : n.reachableSets[i]? = some S)
    (hj : n.reachableSets[j]? = some T) (hv : LeastWord (n.read · = S) v)
    (hw : LeastWord (n.read · = T) w) : i < j ↔ Precedes v w := by
  obtain ⟨hilt, rfl⟩ := List.getElem?_eq_some_iff.mp hi
  obtain ⟨hjlt, rfl⟩ := List.getElem?_eq_some_iff.mp hj
  have hpair := List.pairwise_iff_getElem.mp (pairwise_reachableSets h)
  refine ⟨fun hij => hpair i j hilt hjlt hij v w hv hw, fun hvw => ?_⟩
  obtain hij | rfl | hji := Nat.lt_trichotomy i j
  · exact hij
  · exact absurd (hv.unique hw ▸ hvw) (Precedes.irrefl _)
  · exact absurd hvw fun hvw => (hpair j i hjlt hilt hji w v hw hv).asymm hvw

/-- **A search of the constructed automaton comes upon its states by number.** -/
theorem reachable_determinize (h : n.WellFormed) :
    n.determinize.reachable = List.range n.reachableSets.length := by
  have hd := n.wellFormed_determinize
  refine @eq_of_ascending _ id _ _ ?_ List.pairwise_lt_range fun i => ?_
  · refine (Dfa.pairwise_reachable hd).imp_of_mem fun {i j} hi hj hij => ?_
    obtain ⟨x, hx⟩ := (Dfa.mem_reachable_iff hd).mp hi
    obtain ⟨y, hy⟩ := (Dfa.mem_reachable_iff hd).mp hj
    rw [run_determinize_eq_some_iff h] at hx hy
    obtain ⟨v, hv⟩ := exists_leastWord_read h hx
    obtain ⟨w, hw⟩ := exists_leastWord_read h hy
    refine (lt_iff_precedes h hx hy hv hw).mpr (hij v w ?_ ?_)
    · exact hv.congr fun _ => (run_determinize_eq_some_iff_read_eq h hx).symm
    · exact hw.congr fun _ => (run_determinize_eq_some_iff_read_eq h hy).symm
  · rw [Dfa.mem_reachable_iff hd, List.mem_range]
    constructor
    · rintro ⟨w, hw⟩
      exact (List.getElem?_eq_some_iff.mp ((run_determinize_eq_some_iff h).mp hw)).1
    · intro hi
      obtain ⟨-, w, hw⟩ := (mem_reachableSets_iff h).mp (List.getElem_mem hi)
      exact ⟨w, (run_determinize_eq_some_iff_read_eq h (List.getElem?_eq_getElem hi)).mpr hw⟩

/-- A word over the alphabet is read exactly when no part of it from the start empties the set. -/
theorem exists_run_determinize_iff (h : n.WellFormed) :
    (∃ i, n.determinize.run w = some i) ↔ ∀ v, v <+: w → n.read v ≠ ∅ := by
  simp only [run_determinize_eq_some_iff h, ← List.mem_iff_getElem?]
  rw [mem_reachableSets_iff h]
  constructor
  · rintro ⟨hw, -⟩ v ⟨u, rfl⟩ hv
    refine hw ?_
    rw [read, readFrom, List.foldl_append, ← readFrom, ← readFrom, ← read, hv, readFrom_empty]
  · exact fun hall => ⟨hall w (List.prefix_refl w), w, rfl⟩

/-- **The subset construction finds the non-empty sets that words lead to, in the order of the first
words that do.**  Where a word leads is the number of the set of states its branches end in; the
state with that number is final if some state of the set is, and a search comes upon the states by
number. -/
theorem stateSets_subsetConstruction (h : n.WellFormed) :
    let c := n.subsetConstruction
    (∀ w q, q ∈ n.read w ↔ n.Branch n.initial w q) ∧
    c.stateSets[0]? = some (SortedSet.ofList [n.initial]) ∧ c.stateSets.Nodup ∧ ∅ ∉ c.stateSets ∧
    (∀ S, S ∈ c.stateSets ↔ S ≠ ∅ ∧ ∃ w, (∀ a ∈ w, a ∈ n.alphabet) ∧ n.read w = S) ∧
    (∀ w, (∀ a ∈ w, a ∈ n.alphabet) →
      ((∃ i, c.dfa.run w = some i) ↔ ∀ v, v <+: w → n.read v ≠ ∅) ∧
      ∀ i, c.dfa.run w = some i → c.stateSets[i]? = some (n.read w)) ∧
    (∀ i S, c.stateSets[i]? = some S → (c.dfa.isFinal i = true ↔ ∃ q ∈ S, n.isFinal q = true)) ∧
    (∀ S ∈ c.stateSets, ∃ w, LeastWord (n.read · = S) w) ∧
    (∀ (i j : StateId) S T v w, c.stateSets[i]? = some S → c.stateSets[j]? = some T →
      LeastWord (n.read · = S) v → LeastWord (n.read · = T) w → (i < j ↔ Precedes v w)) ∧
    c.dfa.reachable = List.range c.stateSets.length := by
  intro c
  obtain ⟨l, hl⟩ := n.reachableSets_eq_cons
  refine ⟨fun _ _ => mem_read_iff, ?first, nodup_reachableSets h, empty_not_mem_reachableSets h,
    fun S => ?mem, fun w _ => ⟨exists_run_determinize_iff h, fun i =>
    (run_determinize_eq_some_iff h).mp⟩, fun i S hi => ?final, fun S hS => ?least,
    fun i j S T v w hi hj => lt_iff_precedes h hi hj, reachable_determinize h⟩
  case first =>
    change n.reachableSets[0]? = _
    rw [hl]
    rfl
  case mem =>
    refine (mem_reachableSets_iff h).trans (and_congr_right fun hS => ?_)
    refine exists_congr fun w => (and_iff_right_of_imp ?_).symm
    rintro rfl
    exact mem_alphabet_of_read_ne_empty h hS
  case final =>
    change n.determinize.isFinal i = true ↔ _
    rw [isFinal_determinize hi, containsFinal_iff]
    simp only [Machine.isFinal_iff]
  case least =>
    obtain ⟨i, hi⟩ := List.mem_iff_getElem?.mp hS
    exact exists_leastWord_read h hi

/-- The words that end with `a` lead to the second set. -/
theorem stateSets_subsetConstruction_endsWithA :
    endsWithA.subsetConstruction.stateSets = [SortedSet.ofList [0], SortedSet.ofList [0, 1]] ∧
      endsWithA.subsetConstruction.dfa.reachable = [0, 1] := by
  have hsets : endsWithA.subsetConstruction.stateSets =
      [SortedSet.ofList [0], SortedSet.ofList [0, 1]] := by decide
  have hreachable :=
    (stateSets_subsetConstruction (n := endsWithA) (by decide)).2.2.2.2.2.2.2.2.2
  exact ⟨hsets, by rw [hreachable, hsets]; rfl⟩

end Automata.Nfa
