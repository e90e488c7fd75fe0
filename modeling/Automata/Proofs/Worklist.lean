import Automata.Proofs.Branching
import Mathlib.Data.Set.Card

/-!
# Proofs/Worklist — a search takes everything off its queue that it put on it, each value once

A `Worklist` is the queue of a search together with all that was put on it and all that was taken
off it.  A round keeps the two in step (`Worklist.Balanced.round`), and it is one round of
`searchFrom` (`Worklist.searchFrom_of_round?`).  Inside a finite set the rounds come to an end, and
then what was put on the queue, what was taken off it and what the search lists are one list without
repetition (`Worklist.ends_start_iff`).

So the search of a deterministic automaton ends with the states that words lead to, in the order of
the first of these words (`Dfa.ends_reachable`), and the subset construction ends after a round for
each set it finds (`Nfa.ends_stateSets`).
-/

namespace Automata

variable {σ : Type}

/-- The queue of a search, and what was put on it and taken off it so far, in order. -/
structure Worklist (σ : Type) where
  enqueued : List σ
  dequeued : List σ
  queue : List σ

namespace Worklist

/-- A search begins with one value, which is put on the queue. -/
def start (s : σ) : Worklist σ := ⟨[s], [], [s]⟩

variable [DecidableEq σ]

/-- One round: the first value is taken off the queue, and those of its successors that were never
on it are put on it.  There is none when the queue is empty. -/
def round? (next : σ → List σ) : Worklist σ → Option (Worklist σ)
  | ⟨_, _, []⟩ => none
  | ⟨enqueued, dequeued, s :: queue⟩ =>
    let new := unseen enqueued (next s)
    some ⟨enqueued ++ new, dequeued ++ [s], queue ++ new⟩

/-- **Rounds are made until there is none to make.** -/
inductive Ends (next : σ → List σ) : Worklist σ → Worklist σ → Prop
  | done {l : Worklist σ} (h : l.round? next = none) : Ends next l l
  | round {l l' e : Worklist σ} (h : l.round? next = some l') (he : Ends next l' e) : Ends next l e

variable {next : σ → List σ} {l l' e : Worklist σ} {s : σ} {n : Nat} {U : Finset σ}

/-! ## One round -/

theorem round?_eq_none_iff : l.round? next = none ↔ l.queue = [] := by
  obtain ⟨enqueued, dequeued, _ | ⟨s, queue⟩⟩ := l <;> simp [round?]

/-- **All that a round does.** -/
theorem round?_eq_some_iff : l.round? next = some l' ↔ ∃ s queue, l.queue = s :: queue ∧
    l' = ⟨l.enqueued ++ unseen l.enqueued (next s), l.dequeued ++ [s],
      queue ++ unseen l.enqueued (next s)⟩ := by
  obtain ⟨enqueued, dequeued, _ | ⟨s, queue⟩⟩ := l
  · simp [round?]
  · simp [round?, eq_comm]

/-- **No value was put on the queue twice, and each is still on it or was taken off it.** -/
structure Balanced (l : Worklist σ) : Prop where
  enqueued_eq : l.enqueued = l.dequeued ++ l.queue
  nodup : l.enqueued.Nodup

omit [DecidableEq σ] in
theorem balanced_start (s : σ) : (start s).Balanced := ⟨rfl, List.nodup_singleton s⟩

/-- A round keeps the balance. -/
theorem Balanced.round (h : l.Balanced) (hl : l.round? next = some l') : l'.Balanced := by
  obtain ⟨s, queue, hqueue, rfl⟩ := round?_eq_some_iff.mp hl
  refine ⟨by simp [h.enqueued_eq, hqueue], ?_⟩
  refine List.nodup_append.mpr ⟨h.nodup, nodup_unseen _ _, fun t ht u hu heq => ?_⟩
  exact (mem_unseen.mp hu).2 (heq ▸ ht)

/-- **A round of the queue is a round of the search.** -/
theorem searchFrom_of_round? (hl : l.round? next = some l') (n : Nat) :
    l.dequeued ++ searchFrom next (n + 1) l.enqueued l.queue =
      l'.dequeued ++ searchFrom next n l'.enqueued l'.queue := by
  obtain ⟨s, queue, hqueue, rfl⟩ := round?_eq_some_iff.mp hl
  rw [hqueue, searchFrom, searchFrom_congr n _ fun _ => List.perm_append_comm.mem_iff,
    List.append_assoc]
  rfl

/-- A round keeps what the search relies on. -/
theorem invariant_of_round? (hU : ∀ s ∈ U, ∀ t ∈ next s, t ∈ U)
    (h : SearchInvariant next U (n + 1) l.enqueued l.queue) (hl : l.round? next = some l') :
    SearchInvariant next U n l'.enqueued l'.queue := by
  obtain ⟨s, queue, hqueue, rfl⟩ := round?_eq_some_iff.mp hl
  rw [hqueue] at h
  exact (h.step hU).congr fun _ => List.perm_append_comm.mem_iff

/-! ## All rounds -/

/-- There is one way for the rounds to end. -/
theorem Ends.unique {e' : Worklist σ} (h : Ends next l e) (h' : Ends next l e') : e = e' := by
  induction h with
  | done hnone =>
      cases h' with
      | done => rfl
      | round hl => exact nomatch hnone.symm.trans hl
  | round hl _ ih =>
      cases h' with
      | done hnone => exact nomatch hnone.symm.trans hl
      | round hl' he' => exact ih (Option.some.inj (hl.symm.trans hl') ▸ he')

/-- **When the rounds have ended, nothing is left on the queue.** -/
theorem Balanced.ends (h : l.Balanced) (he : Ends next l e) : e.Balanced ∧ e.queue = [] := by
  induction he with
  | done hnone => exact ⟨h, round?_eq_none_iff.mp hnone⟩
  | round hl _ ih => exact ih (h.round hl)

/-- **Inside a finite set the rounds come to an end**, with all taken off that the search lists. -/
theorem exists_ends (hU : ∀ s ∈ U, ∀ t ∈ next s, t ∈ U) (n : Nat) :
    ∀ {l : Worklist σ}, SearchInvariant next U n l.enqueued l.queue →
      ∃ e, Ends next l e ∧ e.dequeued = l.dequeued ++ searchFrom next n l.enqueued l.queue := by
  induction n with
  | zero =>
      intro l h
      have hqueue : l.queue = [] :=
        List.length_eq_zero_iff.mp (Nat.le_zero.mp ((Nat.le_add_left _ _).trans h.enough))
      refine ⟨l, .done (round?_eq_none_iff.mpr hqueue), ?_⟩
      rw [hqueue, searchFrom_nil, List.append_nil]
  | succ n ih =>
      intro l h
      cases hl : l.round? next with
      | none =>
          refine ⟨l, .done hl, ?_⟩
          rw [round?_eq_none_iff.mp hl, searchFrom_nil, List.append_nil]
      | some l' =>
          obtain ⟨e, he, hdequeued⟩ := ih (invariant_of_round? hU h hl)
          exact ⟨e, .round hl he, hdequeued.trans (searchFrom_of_round? hl n).symm⟩

/-- **A search ends in one way** — it has taken off its queue all that it put on it, which is what
it lists. -/
theorem ends_start_iff (hU : ∀ s ∈ U, ∀ t ∈ next s, t ∈ U) (hs : s ∈ U) (hn : U.card ≤ n) :
    Ends next (start s) e ↔ e = ⟨search next n s, search next n s, []⟩ := by
  obtain ⟨f, hf, hdequeued⟩ := exists_ends hU n (l := start s) (.start hs hn)
  have hsearch : f = ⟨search next n s, search next n s, []⟩ := by
    obtain ⟨hbalanced, hqueue⟩ := (balanced_start s).ends hf
    have henqueued := hbalanced.enqueued_eq
    rw [hqueue, List.append_nil] at henqueued
    obtain ⟨enqueued, dequeued, queue⟩ := f
    obtain rfl : queue = [] := hqueue
    obtain rfl : enqueued = dequeued := henqueued
    obtain rfl : enqueued = search next n s := hdequeued
    rfl
  rw [← hsearch]
  exact ⟨fun he => he.unique hf, fun he => he ▸ hf⟩

end Worklist

/-! ## The states of a deterministic automaton -/

namespace Dfa

variable {d : Dfa} {s : StateId} {w : List Symbol}

/-- A word whose sequence of visited states ends in a state. -/
def AccessWord (d : Dfa) (s : StateId) (w : List Symbol) : Prop :=
  ∃ l, d.stateSequence w = some l ∧ l.getLast? = some s

theorem accessWord_iff : d.AccessWord s w ↔ d.run w = some s := by
  simp only [AccessWord, stateSequence_eq_some_iff]
  exact exists_fullRun_iff

/-- **The search of an automaton ends with the states that words lead to, in the order of the first
of these words**, each listed once and the initial state first. -/
theorem ends_reachable (h : d.WellFormed) :
    (∀ e, Worklist.Ends d.successors (.start d.initial) e ↔ e = ⟨d.reachable, d.reachable, []⟩) ∧
    d.reachable.Nodup ∧ d.reachable.head? = some d.initial ∧
    (∀ s, s ∈ d.reachable ↔ ∃ w, d.AccessWord s w) ∧
    (∀ s ∈ d.reachable, ∃ w, LeastWord (d.AccessWord s) w) ∧
    d.reachable.Pairwise fun p q => ∀ v w, LeastWord (d.AccessWord p) v →
      LeastWord (d.AccessWord q) w → Precedes v w := by
  refine ⟨fun e => ?ends, nodup_reachable h, ?first, fun s => ?mem, fun s hs => ?least, ?order⟩
  case ends =>
    exact Worklist.ends_start_iff (lt_of_mem_successors h) (Finset.mem_range.mpr h.initial_lt)
      (Finset.card_range _).le
  case first =>
    obtain ⟨l, hl⟩ := d.reachable_eq_cons
    rw [hl]
    rfl
  case mem =>
    simp only [accessWord_iff]
    exact mem_reachable_iff h
  case least =>
    obtain ⟨w, hw⟩ := (mem_reachable_iff h).mp hs
    exact exists_leastWord (accessWord_iff.mpr hw)
  case order =>
    refine (pairwise_reachable h).imp fun {p q} hpq v w hv hw => hpq v w ?_ ?_
    · exact hv.congr fun _ => accessWord_iff
    · exact hw.congr fun _ => accessWord_iff

/-- An automaton that is searched from its last numbers to its first; no word leads to `D`. -/
def countdown : Dfa :=
  (Draft.ofDeclarations [.state "A", .state "B", .state "C", .state "D", .symbol 'a', .symbol 'b',
    .initial "C", .final "A", .transition ⟨"C", 'a', "B"⟩, .transition ⟨"C", 'b', "A"⟩,
    .transition ⟨"B", 'a', "C"⟩, .transition ⟨"D", 'b', "C"⟩]).machine

theorem ends_reachable_countdown :
    Worklist.Ends countdown.successors (.start 2) ⟨[2, 1, 0], [2, 1, 0], []⟩ ∧
      (∃ w, LeastWord (countdown.AccessWord 0) w) ∧ ¬ ∃ w, countdown.AccessWord 3 w := by
  have hsearch : countdown.reachable = [2, 1, 0] := by decide
  obtain ⟨hends, -, -, hmem, hleast, -⟩ := ends_reachable (d := countdown) (by decide)
  rw [hsearch] at hends hmem hleast
  exact ⟨(hends _).mpr rfl, hleast 0 (by decide), mt (hmem 3).mpr (by decide)⟩

end Dfa

/-! ## The sets of the subset construction -/

namespace Nfa

variable {n : Nfa}

/-- The states that words lead to. -/
def Reached (n : Nfa) : Set StateId := {q | ∃ w, n.Branch n.initial w q}

theorem finite_reached (h : n.WellFormed) : n.Reached.Finite :=
  (Finset.range n.numStates).finite_toSet.subset fun _ ⟨_, hw⟩ =>
    Finset.mem_coe.mpr (Finset.mem_range.mpr (lt_of_mem_read h (mem_read_iff.mpr hw)))

/-- **The sets found are different non-empty sets of states that words lead to.** -/
theorem length_reachableSets_le (h : n.WellFormed) :
    n.reachableSets.length ≤ Nat.pow 2 n.Reached.ncard - 1 := by
  have hmaps : ∀ S ∈ n.reachableSets.toFinset,
      S.toList.toFinset ∈ (finite_reached h).toFinset.powerset.erase ∅ := fun S hS => by
    obtain ⟨hne, w, rfl⟩ := (mem_reachableSets_iff h).mp (List.mem_toFinset.mp hS)
    refine Finset.mem_erase.mpr ⟨fun he => hne ?empty, Finset.mem_powerset.mpr fun q hq => ?reached⟩
    case empty =>
      refine SortedSet.ext_mem fun q => ?_
      exact iff_of_false (fun hq => absurd (List.mem_toFinset.mpr hq) (he ▸ Finset.notMem_empty q))
        (SortedSet.not_mem_empty q)
    case reached =>
      exact (Set.Finite.mem_toFinset _).mpr ⟨w, mem_read_iff.mp (List.mem_toFinset.mp hq)⟩
  have hinj : Set.InjOn (fun S : StateSet => S.toList.toFinset) n.reachableSets.toFinset :=
    fun S _ T _ hST => SortedSet.ext_mem fun q =>
      List.mem_toFinset.symm.trans ((Finset.ext_iff.mp hST q).trans List.mem_toFinset)
  calc n.reachableSets.length
      = n.reachableSets.toFinset.card := (List.toFinset_card_of_nodup (nodup_reachableSets h)).symm
    _ ≤ ((finite_reached h).toFinset.powerset.erase ∅).card :=
        Finset.card_le_card_of_injOn _ hmaps hinj
    _ = Nat.pow 2 n.Reached.ncard - 1 := by
        rw [Finset.card_erase_of_mem (Finset.empty_mem_powerset _), Finset.card_powerset,
          Set.ncard_eq_toFinset_card _ (finite_reached h)]
        rfl

/-- **The subset construction ends when each set it found was put on the queue and taken off it
once**, and finds no more than there are non-empty sets of states that words lead to. -/
theorem ends_stateSets (h : n.WellFormed) :
    let c := n.subsetConstruction
    (∀ e, Worklist.Ends n.successorSets (.start n.start) e ↔
      e = ⟨c.stateSets, c.stateSets, []⟩) ∧
    (∀ S ∈ c.stateSets, c.stateSets.count S = 1) ∧
    c.dfa.numStates = c.stateSets.length ∧ c.dfa.numStates ≤ Nat.pow 2 n.Reached.ncard - 1 := by
  refine ⟨fun e => ?ends, fun S hS => ?once, numStates_determinize n, ?bound⟩
  case ends =>
    exact Worklist.ends_start_iff (mem_setsBelow_of_mem_successorSets h) (start_mem_setsBelow h)
      (card_setsBelow_le _)
  case once => exact List.count_eq_one_of_mem (nodup_reachableSets h) hS
  case bound => exact (numStates_determinize n).le.trans (length_reachableSets_le h)

/-- Two of the three non-empty sets of states are found. -/
theorem ends_stateSets_endsWithA :
    let sets : List StateSet := [SortedSet.ofList [0], SortedSet.ofList [0, 1]]
    Worklist.Ends endsWithA.successorSets (.start (SortedSet.ofList [0])) ⟨sets, sets, []⟩ ∧
      2 ≤ Nat.pow 2 endsWithA.Reached.ncard - 1 := by
  intro sets
  have hsets : endsWithA.subsetConstruction.stateSets = sets := by decide
  obtain ⟨hends, -, hnumber, hbound⟩ := ends_stateSets loaded_endsWithA.wellFormed
  rw [hnumber, hsets] at hbound
  rw [hsets] at hends
  exact ⟨(hends _).mpr rfl, hbound⟩

end Nfa

end Automata
