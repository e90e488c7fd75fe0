import Automata.Proofs.Indexed.Labels
import Automata.Proofs.Moves
import Automata.Proofs.StateSets

/-!
# Proofs/Indexed/Exploration — a search that knows what it found by number

The subset construction keeps the sets it comes upon on one list.  Those that wait, and the moves,
are known by their positions on it, so a set is looked up before it is expanded.  The list only
grows, and a number stays good once it was given: no look-up fails, and what is found is what the
breadth-first search lists (`Exploration.run?_eq`, `Nfa.subsetConstruction?_eq`).
-/

namespace Automata

/-- On a longer list a member keeps its position. -/
theorem idxOf?_eq_of_mem {α : Type} [DecidableEq α] {l m : List α} {x : α} (h : l <+: m)
    (hx : x ∈ l) : m.idxOf? x = l.idxOf? x := by
  obtain ⟨k, rfl⟩ := h
  rw [idxOf?_of_mem hx, idxOf?_of_mem (List.mem_append_left k hx), List.idxOf_append_of_mem hx]

section

variable {σ : Type} [DecidableEq σ] {seen : List σ}

/-- The first value is new or not; what comes after it is judged with it seen. -/
theorem unseen_cons_eq_append (t : σ) (l : List σ) :
    unseen seen (t :: l) = unseen seen [t] ++ unseen (seen ++ unseen seen [t]) l := by
  by_cases ht : t ∈ seen
  · simp [unseen, ht]
  · have hmem : ∀ u, u ∈ t :: seen ↔ u ∈ seen ++ [t] := fun u => by simp [or_comm]
    simp [unseen, ht, unseen_congr hmem]

end

/-- The values a search came upon, by number; the numbers of those that wait; and the moves of the
others. -/
structure Exploration (σ : Type) where
  found : List σ
  waiting : List StateId
  moves : List Move

namespace Exploration

variable {σ : Type} [DecidableEq σ]

/-- Records a move to a value.  A new value gets the next number, and waits. -/
def record (e : Exploration σ) (p : StateId) (a : Symbol) (t : σ) : Exploration σ :=
  match e.found.idxOf? t with
  | some q => { e with moves := e.moves ++ [(p, a, q)] }
  | none => ⟨e.found ++ [t], e.waiting ++ [e.found.length], e.moves ++ [(p, a, e.found.length)]⟩

variable (A : Alphabet) (step : σ → Symbol → Option σ)

/-- Follows a symbol from the value with a number, which is looked up. -/
def follow? (p : StateId) (e : Exploration σ) (a : Symbol) : Option (Exploration σ) :=
  e.found[p]?.map fun s => (step s a).elim e (e.record p a)

/-- Expands what waits, in turn.  There is no result if a look-up fails or the rounds run out. -/
def run? : Nat → Exploration σ → Option (Exploration σ)
  | _, ⟨found, [], moves⟩ => some ⟨found, [], moves⟩
  | 0, ⟨_, _ :: _, _⟩ => none
  | k + 1, ⟨found, p :: waiting, moves⟩ =>
    (A.toList.foldlM (follow? step p) ⟨found, waiting, moves⟩).bind (run? k)

/-- The moves of the value with a number, between positions on a list. -/
def movesFrom (found : List σ) (p : StateId) : List Move :=
  A.toList.filterMap fun a => ((found[p]?.bind (step · a)).bind found.idxOf?).map (p, a, ·)

variable {A step} {s t : σ} {p : StateId} {a : Symbol} {e : Exploration σ} {F : List σ}

/-- **A value that is recorded has a number**, which stays good on every longer list. -/
theorem exists_record_eq (h : e.found ++ unseen e.found [t] <+: F) :
    ∃ q, F.idxOf? t = some q ∧ e.record p a t =
      ⟨e.found ++ unseen e.found [t],
        e.waiting ++ List.range' e.found.length (unseen e.found [t]).length,
        e.moves ++ [(p, a, q)]⟩ := by
  have hmem : t ∈ e.found ++ unseen e.found [t] := by
    by_cases ht : t ∈ e.found
    · exact List.mem_append_left _ ht
    · exact List.mem_append_right _ (mem_unseen.mpr ⟨List.mem_singleton_self t, ht⟩)
  refine ⟨(e.found ++ unseen e.found [t]).idxOf t, ?number, ?record⟩
  case number => rw [idxOf?_eq_of_mem h hmem, idxOf?_of_mem hmem]
  case record =>
    rw [record]
    by_cases ht : t ∈ e.found
    · simp [unseen, ht, idxOf?_of_mem ht]
    · simp [unseen, ht, List.idxOf?_eq_none_iff.mpr ht, List.idxOf_append_of_notMem ht]

/-- **Expanding a value puts what is new behind what was found**, and records its moves. -/
theorem foldlM_follow? : ∀ {l : List Symbol} {e : Exploration σ}, e.found[p]? = some s →
    e.found ++ unseen e.found (l.filterMap (step s)) <+: F →
      l.foldlM (follow? step p) e = some
        ⟨e.found ++ unseen e.found (l.filterMap (step s)),
          e.waiting ++ List.range' e.found.length (unseen e.found (l.filterMap (step s))).length,
          e.moves ++ l.filterMap fun a => ((step s a).bind F.idxOf?).map (p, a, ·)⟩
  | [], e, _, _ => by simp [unseen]
  | a :: l, e, hs, hF => by
      rw [List.foldlM_cons, follow?, hs, Option.map_some, Option.bind_eq_bind, Option.bind_some]
      cases ht : step s a with
      | none =>
          rw [List.filterMap_cons_none ht] at hF ⊢
          rw [Option.elim_none, foldlM_follow? hs hF, List.filterMap_cons_none (by rw [ht]; rfl)]
      | some t =>
          rw [List.filterMap_cons_some ht, unseen_cons_eq_append] at hF ⊢
          rw [← List.append_assoc] at hF
          obtain ⟨q, hq, hrecord⟩ := exists_record_eq (p := p) (a := a)
            ((List.prefix_append _ _).trans hF)
          have hmoves : ((a :: l).filterMap fun a => ((step s a).bind F.idxOf?).map (p, a, ·)) =
              (p, a, q) :: l.filterMap fun a => ((step s a).bind F.idxOf?).map (p, a, ·) :=
            List.filterMap_cons_some (by rw [ht, Option.bind_some, hq, Option.map_some])
          have hs' : (e.found ++ unseen e.found [t])[p]? = some s :=
            List.getElem?_append_left (List.getElem?_eq_some_iff.mp hs).1 ▸ hs
          rw [Option.elim_some, hrecord, foldlM_follow? hs' hF, hmoves]
          simp

/-- With nothing waiting there is nothing to expand. -/
theorem run?_nil {found : List σ} {moves : List Move} :
    ∀ k, run? A step k ⟨found, [], moves⟩ = some ⟨found, [], moves⟩
  | 0 => rfl
  | _ + 1 => rfl

/-- **A round expands the first value that waits**, and puts what is new behind the others: the
numbers of those that wait go on from those of the expanded ones. -/
theorem run?_succ {k : Nat} {expanded waiting : List σ} {moves : List Move}
    (h : expanded ++ s :: waiting ++ unseen (expanded ++ s :: waiting) (nextValues A step s) <+: F) :
    run? A step (k + 1) ⟨expanded ++ s :: waiting,
        List.range' expanded.length (s :: waiting).length, moves⟩ =
      run? A step k ⟨(expanded ++ [s]) ++ (waiting ++
          unseen (expanded ++ s :: waiting) (nextValues A step s)),
        List.range' (expanded ++ [s]).length
          (waiting ++ unseen (expanded ++ s :: waiting) (nextValues A step s)).length,
        moves ++ movesFrom A step F expanded.length⟩ := by
  have hs : (expanded ++ s :: waiting)[expanded.length]? = some s := by simp
  have hsF : F[expanded.length]? = some s := by
    obtain ⟨l, rfl⟩ := h
    simp
  have hmoves : movesFrom A step F expanded.length =
      A.toList.filterMap fun a => ((step s a).bind F.idxOf?).map (expanded.length, a, ·) := by
    rw [movesFrom, hsF]
    rfl
  have hwaiting : List.range' (expanded.length + 1) waiting.length ++
      List.range' (expanded ++ s :: waiting).length
        (unseen (expanded ++ s :: waiting) (nextValues A step s)).length =
      List.range' (expanded ++ [s]).length
        (waiting ++ unseen (expanded ++ s :: waiting) (nextValues A step s)).length := by
    have hlength : (expanded ++ s :: waiting).length = expanded.length + 1 + waiting.length := by
      rw [List.length_append, List.length_cons]
      omega
    rw [hlength, List.length_append, List.length_append, List.range'_append_1]
    rfl
  rw [List.length_cons, List.range'_succ, run?, foldlM_follow? hs h, Option.bind_some, hmoves,
    ← hwaiting, List.append_assoc, List.append_assoc]
  rfl

/-- **No look-up of what was found fails**, and what is found is what a search lists. -/
theorem run?_eq {U : Finset σ} (hU : ∀ s ∈ U, ∀ t ∈ nextValues A step s, t ∈ U) :
    ∀ {k : Nat} {seen waiting expanded : List σ} {moves : List Move},
      SearchInvariant (nextValues A step) U k seen waiting →
      (∀ t, t ∈ seen ↔ t ∈ expanded ++ waiting) →
      expanded ++ searchFrom (nextValues A step) k seen waiting = F →
      run? A step k
          ⟨expanded ++ waiting, List.range' expanded.length waiting.length, moves⟩ =
        some ⟨F, [], moves ++
          (List.range' expanded.length (F.length - expanded.length)).flatMap (movesFrom A step F)⟩
  | k, seen, [], expanded, moves, _, _, hF => by
      rw [searchFrom_nil, List.append_nil] at hF
      subst hF
      simp [run?_nil]
  | 0, seen, s :: waiting, _, _, h, _, _ => by
      have := h.enough
      rw [List.length_cons] at this
      omega
  | k + 1, seen, s :: waiting, expanded, moves, h, hseen, hF => by
      have hnew : unseen (expanded ++ s :: waiting) (nextValues A step s) =
          unseen seen (nextValues A step s) := unseen_congr (fun t => (hseen t).symm) _
      rw [searchFrom] at hF
      have hprefix : expanded ++ s :: waiting ++
          unseen (expanded ++ s :: waiting) (nextValues A step s) <+: F := by
        obtain ⟨l, hl⟩ : ∃ l, searchFrom (nextValues A step) k
            (unseen seen (nextValues A step s) ++ seen)
            (waiting ++ unseen seen (nextValues A step s)) =
              waiting ++ unseen seen (nextValues A step s) ++ l := searchFrom_eq_append _ _ _
        exact ⟨l, by rw [← hF, hl, hnew]; simp⟩
      have hlength : F.length - expanded.length = F.length - (expanded ++ [s]).length + 1 := by
        have := hprefix.length_le
        simp only [List.length_append, List.length_cons, List.length_nil] at this ⊢
        omega
      rw [run?_succ hprefix, hnew, run?_eq hU (h.step hU) (fun t => ?seen) (by rw [← hF]; simp),
        hlength, List.range'_succ, List.flatMap_cons, List.length_append, List.append_assoc]
      case seen =>
        simp only [List.mem_append, List.mem_cons, hseen t]
        tauto
      rfl

/-- **A search that numbers what it finds looks nothing up in vain.** -/
theorem run?_start {U : Finset σ} (hU : ∀ s ∈ U, ∀ t ∈ nextValues A step s, t ∈ U) (hs : s ∈ U)
    {k : Nat} (hk : U.card ≤ k) :
    run? A step k ⟨[s], [0], []⟩ =
      some ⟨search (nextValues A step) k s, [],
        (List.range (search (nextValues A step) k s).length).flatMap
          (movesFrom A step (search (nextValues A step) k s))⟩ := by
  rw [List.range_eq_range']
  exact @run?_eq _ _ _ _ _ _ hU k [s] [s] [] [] (.start hs hk) (fun _ => Iff.rfl) rfl

end Exploration

/-! ## The subset construction -/

namespace Nfa

variable (n : Nfa)

/-- The automaton whose states are the sets found, with the moves between their numbers. -/
def ofExploration (e : Exploration StateSet) : Dfa where
  labels := (List.range e.found.length).map StateId.canonicalLabel
  alphabet := n.alphabet
  initial := 0
  finals := SortedSet.ofList ((e.found.zipIdx.filter fun s => n.containsFinal s.1).map Prod.snd)
  table := Table.ofMoves e.moves

/-- The line of the log for a set with its number, the labels of its states looked up. -/
def discovery? (s : StateId × StateSet) : Option LogLine :=
  (n.labelsOf? s.2.toList).map fun labels =>
    ⟨.trace, "discovered " ++ StateId.canonicalLabel s.1 ++ " = " ++ braced ", " labels⟩

/-- The subset construction and its log, the sets found and the labels shown looked up. -/
def subsetConstruction? : Option (SubsetConstruction × List LogLine) := do
  let e ← Exploration.run? n.alphabet n.nextSet? (Nat.pow 2 n.numStates) ⟨[n.start], [0], []⟩
  let discoveries ← (((List.range e.found.length).zip e.found).drop 1).mapM n.discovery?
  return (⟨n.ofExploration e, e.found⟩, discoveries ++
    [⟨.debug, "subset construction: " ++ n.numStates.repr ++ " NFA states -> " ++
      e.found.length.repr ++ " DFA states"⟩])

variable {n}

/-- A set and a symbol lead to the same number, whether or not the empty set is left out. -/
theorem movesFrom_nextSet? {sets : List StateSet} (hempty : ∅ ∉ sets) (i : StateId) :
    Exploration.movesFrom n.alphabet n.nextSet? sets i =
      n.alphabet.toList.filterMap fun a => (n.nextIndex? sets i a).map (i, a, ·) := by
  refine List.filterMap_congr fun a _ => congrArg (Option.map _) ?_
  rw [nextIndex?]
  cases sets[i]? with
  | none => rfl
  | some S =>
      rw [Option.bind_some, Option.bind_some, nextSet?]
      by_cases hS : n.nextStates S a = ∅
      · rw [if_pos hS, hS, List.idxOf?_eq_none_iff.mpr hempty, Option.bind_none]
      · rw [if_neg hS, Option.bind_some]

theorem ofExploration_eq {sets : List StateSet} (hsets : sets ≠ []) (hempty : ∅ ∉ sets) :
    n.ofExploration ⟨sets, [], (List.range sets.length).flatMap
      (Exploration.movesFrom n.alphabet n.nextSet? sets)⟩ = n.ofSets sets := by
  have hfinals : SortedSet.ofList
      ((sets.zipIdx.filter fun s => n.containsFinal s.1).map Prod.snd) = (n.ofSets sets).finals := by
    rw [ofList_zipIdx_filter, ofSets, Dfa.tabulate, Dfa.length_canonicalLabels]
  have htable : Table.ofMoves ((List.range sets.length).flatMap
      (Exploration.movesFrom n.alphabet n.nextSet? sets)) = (n.ofSets sets).table := by
    rw [ofSets, ← Dfa.ofMoves_transitions_tabulate (wellFormed_ofSets hsets),
      Dfa.transitions_tabulate, Dfa.length_canonicalLabels]
    exact congrArg Table.ofMoves (List.flatMap_congr fun i _ => movesFrom_nextSet? hempty i)
  rw [ofExploration, hfinals, htable]
  rfl

/-- **The subset construction looks up no set and no label in vain.** -/
theorem subsetConstruction?_eq (h : n.WellFormed) :
    n.subsetConstruction? = some (n.subsetConstruction, n.determinizeLog) := by
  have hsearch : Exploration.run? n.alphabet n.nextSet? (Nat.pow 2 n.numStates)
      ⟨[n.start], [0], []⟩ = some ⟨n.reachableSets, [], (List.range n.reachableSets.length).flatMap
        (Exploration.movesFrom n.alphabet n.nextSet? n.reachableSets)⟩ := by
    have hU := mem_setsBelow_of_mem_successorSets h
    rw [reachableSets, successorSets_eq]
    rw [successorSets_eq] at hU
    exact Exploration.run?_start hU (start_mem_setsBelow h) (card_setsBelow_le _)
  have hlabels : ∀ s ∈ ((List.range n.reachableSets.length).zip n.reachableSets).drop 1,
      n.labelsOf? s.2.toList = some (s.2.toList.map n.label) := fun s hs => by
    obtain ⟨-, w, hw⟩ := (mem_reachableSets_iff h).mp (List.of_mem_zip (List.mem_of_mem_drop hs)).2
    exact Machine.labelsOf?_eq fun q hq => lt_of_mem_read h (hw ▸ hq)
  have hsets : n.reachableSets ≠ [] := by
    obtain ⟨l, hl⟩ := n.reachableSets_eq_cons
    rw [hl]
    exact List.cons_ne_nil _ l
  rw [subsetConstruction?, hsearch, Option.bind_eq_bind, Option.bind_some,
    ofExploration_eq hsets (empty_not_mem_reachableSets h),
    mapM_eq_some fun s hs => by rw [discovery?, hlabels s hs, Option.map_some]]
  rfl

end Nfa

end Automata
