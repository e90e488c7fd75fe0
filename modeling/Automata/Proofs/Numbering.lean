import Automata.Proofs.Branching
import Automata.Proofs.Idempotence

/-!
# Proofs/Numbering — states numbered by words, and one automaton for each language

Where a search comes upon the states by number, they are numbered in the order of the first words
that lead to them (`WordOrdered`).  Dropping what no word leads to keeps this order, and so does
merging, as classes are numbered by their least members (`WordOrdered.quotient`).  A renumbering
between automata so numbered cannot change a number (`WordOrdered.renumbering_id`).  Hence all that
is left of an automaton without missing moves, once it is minimized, is its language; for what the
subset construction makes it is a normal form: `minimize_eq_of_accepts_eq`.
-/

namespace Automata

/-- **A first word is first among those with a stronger property** that it has. -/
theorem LeastWord.of_imp {P Q : List Symbol → Prop} {w : List Symbol} (h : LeastWord P w) (hw : Q w)
    (hQP : ∀ v, Q v → P v) : LeastWord Q w :=
  ⟨hw, fun v hv => h.least v (hQP v hv)⟩

namespace Dfa

variable {d e : Dfa} {f : StateId → StateId} {i p q s : StateId} {w : List Symbol}

/-- **States are numbered in the order of the first words that lead to them.** -/
def WordOrdered (d : Dfa) : Prop :=
  ∀ ⦃p q : StateId⦄ ⦃v w : List Symbol⦄, LeastWord (d.run · = some p) v →
    LeastWord (d.run · = some q) w → p < q → Precedes v w

theorem Accessible.exists_leastWord (hacc : d.Accessible) (hs : s < d.numStates) :
    ∃ w, LeastWord (d.run · = some s) w := by
  obtain ⟨u, hu⟩ := hacc s hs
  exact Automata.exists_leastWord (P := (d.run · = some s)) hu

/-! ## Automata searched by number -/

/-- What is kept is in the order of the search. -/
theorem kept_eq_reachable (h : d.WellFormed) (hasc : d.reachable.Pairwise (· < ·)) :
    d.kept = d.reachable :=
  (eq_kept_of_pairwise h hasc fun _ => mem_reachable_iff h).symm

/-- A word leads to the position of a state exactly when it leads to the state. -/
theorem run_trim_eq_some_iff (h : d.WellFormed) (hi : i < d.kept.length) :
    d.trim.run w = some i ↔ d.run w = some d.kept[i] := by
  rw [run_trim h, Option.map_eq_some_iff]
  constructor
  · rintro ⟨s, hs, rfl⟩
    rw [hs, List.getElem_idxOf]
  · exact fun hw => ⟨_, hw, d.nodup_kept.idxOf_getElem i hi⟩

/-- **States found by number are numbered by words** once the others are dropped. -/
theorem wordOrdered_trim (h : d.WellFormed) (hasc : d.reachable.Pairwise (· < ·)) :
    d.trim.WordOrdered := by
  have hpair := pairwise_reachable h
  rw [← kept_eq_reachable h hasc] at hpair
  have hlt : ∀ {w i}, d.trim.run w = some i → i < d.kept.length := fun hw =>
    d.numStates_trim ▸ run_lt (wellFormed_trim h) hw
  intro i j v w hv hw hij
  have hi := hlt hv.holds
  have hj := hlt hw.holds
  refine List.pairwise_iff_getElem.mp hpair i j hi hj hij v w ?_ ?_
  · exact hv.congr fun _ => run_trim_eq_some_iff h hi
  · exact hw.congr fun _ => run_trim_eq_some_iff h hj

/-! ## Merging -/

/-- **The first word that leads to a class leads to its least member.** -/
theorem leastWord_leastOf (h : d.WellFormed) (ht : d.isTotal = true) (hacc : d.Accessible)
    (hord : d.WordOrdered) (hw : LeastWord ((d.quotient d.stateClasses).run · = some i) w) :
    LeastWord (d.run · = some (d.leastOf i)) w := by
  have hclass : ∀ v s, d.run v = some s → d.classOf s = i →
      (d.quotient d.stateClasses).run v = some i := fun v s hs hi => by
    rw [run_quotient h ht, hs, Option.map_some, hi]
  have hholds := hw.holds
  rw [run_quotient h ht] at hholds
  obtain ⟨s, hs, rfl⟩ := Option.map_eq_some_iff.mp hholds
  have hsw : LeastWord (d.run · = some s) w := hw.of_imp hs fun v hv => hclass v s hv rfl
  obtain heq | hlt := Nat.eq_or_lt_of_le (leastOf_classOf_le (run_lt h hs))
  · exact heq.symm ▸ hsw
  · -- the first word for a lower member would come before `w`
    have hleast := classOf_lt (run_lt h hs)
    obtain ⟨v, hv⟩ := hacc.exists_leastWord (leastOf_lt hleast)
    exact absurd (hord hv hsw hlt)
      (hw.least v (hclass v _ hv.holds (classOf_leastOf h hleast)))

/-- **Classes are numbered by words as their least members are.** -/
theorem WordOrdered.quotient (hord : d.WordOrdered) (h : d.WellFormed) (ht : d.isTotal = true)
    (hacc : d.Accessible) : (d.quotient d.stateClasses).WordOrdered := by
  intro i j v w hv hw hij
  have hj := run_lt (wellFormed_quotient h) hw.holds
  rw [numStates_quotient] at hj
  exact hord (leastWord_leastOf h ht hacc hord hv) (leastWord_leastOf h ht hacc hord hw)
    (leastOf_lt_leastOf hij hj)

/-- **A minimized automaton is numbered by words**, if it was searched by number and no reachable
state lacked a move. -/
theorem wordOrdered_minimize (h : d.WellFormed)
    (ht : ∀ s ∈ d.reachable, ∀ a ∈ d.alphabet, ∃ q, d.next? s a = some q)
    (hasc : d.reachable.Pairwise (· < ·)) : d.minimize.WordOrdered := by
  have htrim : d.trim.isTotal = true := (isTotal_trim_iff h).mpr fun s hs =>
    ht s ((mem_reachable_iff h).mpr hs)
  rw [minimize_eq, complete_eq_self htrim]
  exact (wordOrdered_trim h hasc).quotient (wellFormed_trim h) htrim (accessible_trim h)

/-! ## Renumbering -/

/-- The words that lead to a renumbered state are those that led to the state. -/
theorem Renumbering.run_eq_some_iff (h : d.Renumbering e f) (hd : d.WellFormed) (he : e.WellFormed)
    (halphabet : e.alphabet = d.alphabet) (hs : s < d.numStates) :
    e.run w = some (f s) ↔ d.run w = some s := by
  rw [h.run_eq hd he halphabet, Option.map_eq_some_iff]
  refine ⟨fun ⟨t, hw, hts⟩ => ?_, fun hw => ⟨s, hw, rfl⟩⟩
  rw [hw, h.bijOn.injOn (run_lt hd hw) hs hts]

/-- **Automata numbered by words are renumbered by nothing.** -/
theorem WordOrdered.renumbering_id (hdo : d.WordOrdered) (heo : e.WordOrdered) (hacc : d.Accessible)
    (hd : d.WellFormed) (he : e.WellFormed) (halphabet : e.alphabet = d.alphabet)
    (h : d.Renumbering e f) : d.Renumbering e id := by
  refine h.id_of_strictMonoOn hd fun p hp q hq hpq => ?_
  have hword : ∀ s < d.numStates, ∃ w, LeastWord (d.run · = some s) w ∧
      LeastWord (e.run · = some (f s)) w := fun s hs => by
    obtain ⟨w, hw⟩ := hacc.exists_leastWord hs
    exact ⟨w, hw, hw.congr fun _ => (h.run_eq_some_iff hd he halphabet hs).symm⟩
  obtain ⟨v, hv, hfv⟩ := hword p hp
  obtain ⟨w, hw, hfw⟩ := hword q hq
  obtain hlt | heq | hgt := Nat.lt_trichotomy (f p) (f q)
  · exact hlt
  · exact absurd (h.bijOn.injOn hp hq heq) (Nat.ne_of_lt hpq)
  · exact absurd (heo hfw hfv hgt) fun hwv => (hdo hv hw hpq).asymm hwv

/-- **The language is all that is left** of an automaton that was searched by number and had every
move. -/
theorem minimize_eq_of_reachable_ascending (hd : d.WellFormed) (he : e.WellFormed)
    (halphabet : e.alphabet = d.alphabet) (hde : ∀ w, d.accepts w = e.accepts w)
    (hdt : ∀ s ∈ d.reachable, ∀ a ∈ d.alphabet, ∃ q, d.next? s a = some q)
    (het : ∀ s ∈ e.reachable, ∀ a ∈ e.alphabet, ∃ q, e.next? s a = some q)
    (hdasc : d.reachable.Pairwise (· < ·)) (heasc : e.reachable.Pairwise (· < ·)) :
    d.minimize = e.minimize := by
  have hdm := minimal_minimize hd
  have hem := minimal_minimize he
  have halphabet' : e.minimize.alphabet = d.minimize.alphabet := by
    rw [alphabet_minimize, alphabet_minimize, halphabet]
  obtain ⟨f, hf⟩ := hdm.exists_renumbering hem halphabet' fun w => by
    rw [accepts_minimize he, accepts_minimize hd, hde]
  have hid := (wordOrdered_minimize hd hdt hdasc).renumbering_id
    (wordOrdered_minimize he het heasc) hdm.accessible hdm.wellFormed hem.wellFormed halphabet' hf
  exact (minimize_eq_minimize_of_id hd he halphabet hid).symm

end Dfa

/-! ## What the subset construction makes -/

namespace Nfa

variable {n : Nfa} {w : List Symbol}

theorem reachable_determinize_ascending (h : n.WellFormed) :
    n.determinize.reachable.Pairwise (· < ·) := by
  rw [reachable_determinize h]
  exact List.pairwise_lt_range

/-- **The subset construction keeps the language.** -/
theorem accepts_determinize (h : n.WellFormed) (w : List Symbol) :
    n.determinize.accepts w = n.accepts w := by
  rw [Bool.eq_iff_iff, Dfa.accepts_eq_true_iff, accepts, Evaluation.isAccepted, beq_iff_eq,
    evaluate_eq_accept_iff]
  simp only [run_determinize_eq_some_iff h]
  constructor
  · rintro ⟨i, hi, hf⟩
    rw [isFinal_determinize hi, containsFinal_iff] at hf
    simpa only [Machine.isFinal_iff] using hf
  · rintro ⟨q, hq, hf⟩
    have hne : n.read w ≠ ∅ := fun he => SortedSet.not_mem_empty q (he ▸ hq)
    obtain ⟨i, hi⟩ := List.mem_iff_getElem?.mp ((mem_reachableSets_iff h).mpr ⟨hne, w, rfl⟩)
    refine ⟨i, hi, ?_⟩
    rw [isFinal_determinize hi, containsFinal_iff]
    exact ⟨q, hq, n.isFinal_iff.mp hf⟩

/-- **No word over the alphabet freezes exactly when no move is missing.** -/
theorem isTotal_determinize_iff (h : n.WellFormed) : n.determinize.isTotal = true ↔
    ∀ w, (∀ a ∈ w, a ∈ n.alphabet) → n.evaluate w ≠ .frozen := by
  have hd := n.wellFormed_determinize
  constructor
  · intro ht w hw
    have hread := (exists_run_determinize_iff h).mp (Dfa.exists_run hd ht hw) w (List.prefix_refl w)
    rw [evaluate_of_read_ne_empty hread]
    exact Evaluation.ofFinal_ne_frozen
  · intro hn
    have hrun : ∀ w, (∀ a ∈ w, a ∈ n.alphabet) → ∃ i, n.determinize.run w = some i := by
      refine fun w hw => (exists_run_determinize_iff h).mpr fun v hv he => ?_
      exact hn v (fun a ha => hw a (hv.subset ha)) (evaluate_of_read_eq_empty he)
    refine Dfa.isTotal_iff.mpr fun s hs a ha => ?_
    have hmem : s ∈ n.determinize.reachable := by
      rwa [reachable_determinize h, List.mem_range, ← numStates_determinize]
    obtain ⟨w, hw⟩ := (Dfa.mem_reachable_iff hd).mp hmem
    obtain ⟨q, hq⟩ := hrun (w ++ [a]) (List.forall_mem_append.mpr
      ⟨Dfa.mem_alphabet_of_runFrom hd hw, List.forall_mem_singleton.mpr ha⟩)
    rw [Dfa.run_concat, hw, Option.bind_some] at hq
    exact ⟨q, hq⟩

end Nfa

/-- **Automata that were searched by number and have every move are minimized to one automaton if
they accept the same words** — the same in its numbers too.  What the subset construction makes is
searched by number, so where no word over the alphabet freezes, determinizing and minimizing gives
one automaton for each language. -/
theorem minimize_eq_of_accepts_eq :
    (∀ d e : Dfa, d.Obtainable → e.Obtainable → e.alphabet = d.alphabet →
      (∀ w, d.accepts w = e.accepts w) →
      (∀ s ∈ d.reachable, ∀ a ∈ d.alphabet, ∃ q, d.next? s a = some q) →
      (∀ s ∈ e.reachable, ∀ a ∈ e.alphabet, ∃ q, e.next? s a = some q) →
      d.reachable.Pairwise (· < ·) → e.reachable.Pairwise (· < ·) → d.minimize = e.minimize) ∧
    (∀ n : Nfa, n.Loaded → n.determinize.reachable.Pairwise (· < ·)) ∧
    ∀ m n : Nfa, m.Loaded → n.Loaded → n.alphabet = m.alphabet →
      (∀ w, m.accepts w = n.accepts w) →
      (∀ w, (∀ a ∈ w, a ∈ m.alphabet) → m.evaluate w ≠ .frozen) →
      (∀ w, (∀ a ∈ w, a ∈ n.alphabet) → n.evaluate w ≠ .frozen) →
      m.determinize.minimize = n.determinize.minimize := by
  refine ⟨fun d e hd he => Dfa.minimize_eq_of_reachable_ascending hd.wellFormed he.wellFormed,
    fun n hn => Nfa.reachable_determinize_ascending hn.wellFormed,
    fun m n hm hn halphabet hmn hmf hnf => ?_⟩
  have h := hm.wellFormed
  have h' := hn.wellFormed
  refine Dfa.minimize_eq_of_reachable_ascending m.wellFormed_determinize n.wellFormed_determinize
    halphabet (fun w => ?_)
    (Dfa.exists_next?_of_isTotal m.wellFormed_determinize ((Nfa.isTotal_determinize_iff h).mpr hmf))
    (Dfa.exists_next?_of_isTotal n.wellFormed_determinize ((Nfa.isTotal_determinize_iff h').mpr hnf))
    (Nfa.reachable_determinize_ascending h) (Nfa.reachable_determinize_ascending h')
  rw [Nfa.accepts_determinize h, Nfa.accepts_determinize h', hmn]

/-- A deterministic automaton of the words over `a` and `b` that end with `a`; it tells one `a` at
the end from more, and no word leads to its last state, which has no move. -/
def Dfa.endsWithA : Dfa :=
  (Draft.ofDeclarations [.state "S", .state "A", .state "AA", .state "X", .symbol 'a', .symbol 'b',
    .initial "S", .final "A", .final "AA", .transition ⟨"S", 'a', "A"⟩, .transition ⟨"S", 'b', "S"⟩,
    .transition ⟨"A", 'a', "AA"⟩, .transition ⟨"A", 'b', "S"⟩, .transition ⟨"AA", 'a', "AA"⟩,
    .transition ⟨"AA", 'b', "S"⟩]).machine

/-- A nondeterministic one that keeps a branch of no use. -/
def Nfa.endsWithAOrLoses : Nfa :=
  (Draft.ofDeclarations [.state "A", .state "B", .state "C", .symbol 'a', .symbol 'b', .initial "A",
    .final "B", .transition ⟨"A", 'a', "A"⟩, .transition ⟨"A", 'a', "B"⟩, .transition ⟨"A", 'b', "A"⟩,
    .transition ⟨"B", 'a', "C"⟩]).machine

/-- Three automata of the words that end with `a`, two of them with a state more to be in. -/
theorem minimize_eq_of_accepts_eq_endsWithA :
    Nfa.endsWithA.determinize.reachable = [0, 1] ∧
    Nfa.endsWithAOrLoses.determinize.reachable = [0, 1, 2] ∧ Dfa.endsWithA.reachable = [0, 1, 2] ∧
    Dfa.endsWithA.minimize = Nfa.endsWithA.determinize.minimize ∧
    Nfa.endsWithAOrLoses.determinize.minimize = Nfa.endsWithA.determinize.minimize := by
  have hd : Dfa.endsWithA.Loaded := Machine.loaded_machine (by decide)
  have hm : Nfa.endsWithAOrLoses.Loaded := Machine.loaded_machine (by decide)
  have hn : Nfa.endsWithA.Loaded := Nfa.loaded_endsWithA
  have hmt : Nfa.endsWithAOrLoses.determinize.isTotal = true := by decide
  have hnt : Nfa.endsWithA.determinize.isTotal = true := by decide
  have hdt : ∀ s ∈ Dfa.endsWithA.reachable, Dfa.endsWithA.alphabet.toList.all
      (fun a => (Dfa.endsWithA.next? s a).isSome) = true := by decide
  -- one `a` at the end is as good as two
  have hdnext : ∀ s ∈ Dfa.endsWithA.reachable, Dfa.endsWithA.alphabet.toList.all (fun a =>
      Nfa.endsWithA.determinize.next? (min s 1) a == (Dfa.endsWithA.next? s a).map (min · 1)) =
        true := by
    decide
  have hmnext : ∀ s ∈ Nfa.endsWithAOrLoses.determinize.reachable,
      Nfa.endsWithAOrLoses.alphabet.toList.all (fun a =>
        Nfa.endsWithA.determinize.next? (min s 1) a ==
          (Nfa.endsWithAOrLoses.determinize.next? s a).map (min · 1)) = true := by
    decide
  have hdn : ∀ w, Dfa.endsWithA.accepts w = Nfa.endsWithA.determinize.accepts w := fun w => by
    rw [Dfa.accepts, Dfa.accepts, Dfa.evaluate_eq_of_map hd.wellFormed
      Nfa.endsWithA.wellFormed_determinize (by decide) (by decide) (by decide)
      fun s hs a ha => beq_iff_eq.mp (List.all_eq_true.mp (hdnext s hs) a ha)]
  have hmn : ∀ w, Nfa.endsWithAOrLoses.accepts w = Nfa.endsWithA.accepts w := fun w => by
    rw [← Nfa.accepts_determinize hm.wellFormed, ← Nfa.accepts_determinize hn.wellFormed,
      Dfa.accepts, Dfa.accepts, Dfa.evaluate_eq_of_map Nfa.endsWithAOrLoses.wellFormed_determinize
      Nfa.endsWithA.wellFormed_determinize (by decide) (by decide) (by decide)
      fun s hs a ha => beq_iff_eq.mp (List.all_eq_true.mp (hmnext s hs) a ha)]
  refine ⟨by decide, by decide, by decide, ?_, ?_⟩
  · refine minimize_eq_of_accepts_eq.1 Dfa.endsWithA Nfa.endsWithA.determinize (.loaded hd)
      (.determinized hn) (by decide) hdn ?_ ?_ (by decide) (by decide)
    · exact fun s hs a ha => Option.isSome_iff_exists.mp (List.all_eq_true.mp (hdt s hs) a ha)
    · exact Dfa.exists_next?_of_isTotal Nfa.endsWithA.wellFormed_determinize hnt
  · exact minimize_eq_of_accepts_eq.2.2 Nfa.endsWithAOrLoses Nfa.endsWithA hm hn (by decide) hmn
      ((Nfa.isTotal_determinize_iff hm.wellFormed).mp hmt)
      ((Nfa.isTotal_determinize_iff hn.wellFormed).mp hnt)

end Automata
