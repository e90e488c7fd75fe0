import Automata.Proofs.Listing.RoundTrip

/-!
# Proofs/Listing/Groups — listings of automata that branch

The transitions of a nondeterministic automaton are listed in groups, one line for each state and
symbol that lead somewhere.  Reading goes on group by group (`readGroups_succ`), so the groups of an
automaton are read back as soon as their targets are as many as were declared (`reads_groups`), and
the targets recorded again are those without repetition (`recorded_list_iff`).  Together:
`Nfa.ofListing_listing_eq_self_iff` tells which automata are read back from their listing.
-/

namespace Automata

/-! ## Recorded lists of states -/

theorem record_some_list (l : List StateId) (q : StateId) :
    Target.record (some l) q = appendFresh id l q := by
  simp [Target.record, appendFresh]

/-- **Of equal states the first is recorded.** -/
theorem recordAll_some_list (qs : List StateId) :
    ∀ l : List StateId, recordAll (some l) qs = some (qs.foldl (appendFresh id) l) := by
  induction qs with
  | nil => exact fun _ => rfl
  | cons q qs ih =>
      intro l
      rw [recordAll, List.foldl_cons, record_some_list, ← recordAll, ih, List.foldl_cons]

/-- **Some state, and none twice**: this is what recording makes. -/
theorem recordAll_none_list {qs l : List StateId} (h : recordAll none qs = some l) :
    l ≠ [] ∧ l.Nodup := by
  cases qs with
  | nil => exact absurd h (by simp [recordAll])
  | cons q qs =>
      obtain rfl : qs.foldl (appendFresh id) [q] = l :=
        Option.some.inj ((recordAll_some_list qs [q]).symm.trans h)
      have hnodup := nodup_foldl_appendFresh id qs (l := [q]) (by simp)
      rw [List.map_id] at hnodup
      exact ⟨fun hnil => absurd (hnil ▸ prefix_foldl_appendFresh id qs [q]) (by simp), hnodup⟩

theorem recorded_list_iff {l : List StateId} : Recorded l ↔ l ≠ [] ∧ l.Nodup := by
  refine ⟨recordAll_none_list, fun ⟨hne, hnodup⟩ => ?_⟩
  obtain ⟨q, qs, rfl⟩ := List.exists_cons_of_ne_nil hne
  have hfold : qs.foldl (appendFresh id) [q] = [q] ++ qs :=
    foldl_appendFresh_of_nodup id qs (by simpa using hnodup)
  exact (recordAll_some_list qs [q]).trans (congrArg some hfold)

instance : FaithfulTarget (List StateId) where
  recorded_of_recordAll h := recorded_list_iff.mpr (recordAll_none_list h)
  nodup_states h := (recorded_list_iff.mp h).2
  length_states_le h := nomatch h

namespace Listing

open Text

/-! ## Reading groups -/

/-- A source, a symbol, and the states they lead to. -/
structure Group where
  source : String
  symbol : Symbol
  targets : List String
  nonempty : targets ≠ []

namespace Group

/-- The tokens of a group, which stand on one line. -/
def line (g : Group) : List String := g.source :: g.symbol.toString :: g.targets

/-- The transitions of a group, by target. -/
def transitions (g : Group) : List Transition := g.targets.map (⟨g.source, g.symbol, ·⟩)

@[simp] theorem length_transitions (g : Group) : g.transitions.length = g.targets.length := by
  simp [transitions]

theorem length_targets_ne_zero (g : Group) : g.targets.length ≠ 0 :=
  fun h => g.nonempty (List.eq_nil_of_length_eq_zero h)

end Group

/-- One group: a source, a symbol, and every token left on the line of the symbol. -/
def readGroup (ls : Lines) : Outcome (Group × Lines) := do
  let (p, ls) ← next .source ls
  let (a, ls) ← readSymbol ls
  let ((q, qs), ls) ← restOfLine .targets ls
  .ok (⟨p, a, q :: qs, List.cons_ne_nil q qs⟩, ls)

/-- **As long as targets are to come, one more group is read**, which must not have too many. -/
theorem readGroups_succ (declared n : Nat) (ls : Lines) :
    readGroups declared (n + 1) ls = (readGroup ls >>= fun r =>
      if n + 1 < r.1.targets.length then .error (.invalidCount (Numeral.write declared))
      else readGroups declared (n + 1 - r.1.targets.length) r.2 >>= fun s =>
        .ok (r.1.transitions ++ s.1, s.2)) := by
  rw [readGroups, readGroup]
  cases next .source ls with
  | error e => rfl
  | ok r =>
    obtain ⟨p, ls⟩ := r
    simp only [bind, Except.bind]
    cases readSymbol ls with
    | error e => rfl
    | ok r =>
      obtain ⟨a, ls⟩ := r
      dsimp only
      cases restOfLine .targets ls with
      | error e => rfl
      | ok r =>
        obtain ⟨⟨q, qs⟩, ls⟩ := r
        simp only [List.length_cons, Nat.add_lt_add_iff_right, Nat.add_sub_add_right]
        rfl

/-- The line of a group is read to it. -/
theorem reads_group (g : Group) : ReadsLines readGroup [g.line] g := by
  obtain ⟨p, a, targets, hne⟩ := g
  obtain ⟨q, qs, rfl⟩ := List.exists_cons_of_ne_nil hne
  intro left rest hleft
  refine ⟨[] :: rest, ?_, .exhausted (.here rest)⟩
  rw [readGroup, next_of_resumes hleft]
  simp [bind, Except.bind, readSymbol, next, restOfLine, Char.toString]

/-- **The lines of groups are read to their transitions**, as many as there are. -/
theorem reads_groups (declared : Nat) : ∀ gs : List Group,
    ReadsLines (readGroups declared (gs.flatMap Group.transitions).length) (gs.map Group.line)
      (gs.flatMap Group.transitions)
  | [] => fun left rest hleft =>
      ⟨left, by rw [List.flatMap_nil, List.length_nil, readGroups], hleft⟩
  | g :: gs => fun left rest hleft => by
      obtain ⟨left₁, h₁, hleft₁⟩ := reads_group g left _ hleft
      obtain ⟨left₂, h₂, hleft₂⟩ := reads_groups declared gs left₁ rest hleft₁
      have hpos := g.length_targets_ne_zero
      have hlength : ((g :: gs).flatMap Group.transitions).length =
          g.targets.length + (gs.flatMap Group.transitions).length := by simp
      obtain ⟨n, hn⟩ := Nat.exists_eq_succ_of_ne_zero
        (n := g.targets.length + (gs.flatMap Group.transitions).length) (by omega)
      refine ⟨left₂, ?_, hleft₂⟩
      rw [hlength, hn, readGroups_succ, ← Nat.succ_eq_add_one, ← hn]
      refine bind_eq_ok_iff.mpr ⟨_, h₁, ?_⟩
      dsimp only
      rw [if_neg (by omega), Nat.add_sub_cancel_left]
      exact bind_eq_ok_iff.mpr ⟨_, h₂, rfl⟩

/-! ## What can be read -/

theorem yields_restOfLine {item : Item} : Yields (restOfLine item) fun _ => True := by
  rintro (_ | ⟨_ | ⟨t, l⟩, ls⟩) x ls' htokens h
  · exact absurd h (by simp [restOfLine])
  · exact absurd h (by simp [restOfLine])
  · obtain ⟨rfl, rfl⟩ := Prod.mk.inj (Except.ok.inj h)
    refine ⟨trivial, List.forall_mem_cons.mpr ⟨fun _ hs => absurd hs List.not_mem_nil, ?_⟩⟩
    exact fun m hm => htokens m (List.mem_cons_of_mem _ hm)

theorem yields_group : Yields readGroup (isBlank ·.symbol = false) := by
  intro ls g ls' htokens h
  rw [readGroup] at h
  obtain ⟨⟨p, left₁⟩, h₁, h⟩ := bind_eq_ok_iff.mp h
  obtain ⟨⟨a, left₂⟩, h₂, h⟩ := bind_eq_ok_iff.mp h
  obtain ⟨⟨⟨q, qs⟩, left₃⟩, h₃, h⟩ := bind_eq_ok_iff.mp h
  obtain ⟨rfl, rfl⟩ := Prod.mk.inj (Except.ok.inj h)
  obtain ⟨-, hleft₁⟩ := yields_next .source htokens h₁
  obtain ⟨ha, hleft₂⟩ := yields_symbol hleft₁ h₂
  exact ⟨ha, (yields_restOfLine hleft₂ h₃).2⟩

/-- **As many transitions are read as were to come.** -/
theorem yields_groups (declared n : Nat) : Yields (readGroups declared n) fun ts =>
    ts.length = n ∧ ∀ t ∈ ts, isBlank t.symbol = false := by
  induction n using Nat.strong_induction_on with
  | h n ih =>
    intro ls ts ls' htokens h
    cases n with
    | zero =>
        rw [readGroups] at h
        obtain ⟨rfl, rfl⟩ := Prod.mk.inj (Except.ok.inj h)
        exact ⟨⟨rfl, fun _ ht => absurd ht List.not_mem_nil⟩, htokens⟩
    | succ n =>
        rw [readGroups_succ] at h
        obtain ⟨⟨g, left⟩, hgroup, h⟩ := bind_eq_ok_iff.mp h
        dsimp only at h
        split at h
        · exact absurd h (by simp)
        · rename_i hle
          obtain ⟨⟨us, left'⟩, hrest, h⟩ := bind_eq_ok_iff.mp h
          obtain ⟨rfl, rfl⟩ := Prod.mk.inj (Except.ok.inj h)
          have hpos := g.length_targets_ne_zero
          obtain ⟨hsymbol, hleft⟩ := yields_group htokens hgroup
          obtain ⟨⟨hlength, hus⟩, hleft'⟩ := ih _ (by omega) hleft hrest
          refine ⟨⟨by simp [hlength]; omega, List.forall_mem_append.mpr ⟨fun t ht => ?_, hus⟩⟩,
            hleft'⟩
          obtain ⟨q, -, rfl⟩ := List.mem_map.mp ht
          exact hsymbol

instance : LawfulLayout (List StateId) where
  declarations_eq _ := .inl rfl

end Listing

/-! ## Automata -/

namespace Nfa

open Listing Text

variable {n : Nfa}

theorem states_ne_nil_of_mem_transitions {t : StateId × Symbol × List StateId}
    (h : t ∈ n.transitions) : t.2.2.map n.label ≠ [] := by
  obtain ⟨p, -, h⟩ := List.mem_flatMap.mp h
  obtain ⟨a, -, h⟩ := List.mem_filterMap.mp h
  obtain ⟨l, hl, rfl⟩ := Option.map_eq_some_iff.mp h
  simpa using (Option.filter_eq_some_iff.mp hl).2

/-- The groups of an automaton, by state and then by symbol. -/
def groups (n : Nfa) : List Group :=
  n.transitions.pmap (fun t h => ⟨n.label t.1, t.2.1, t.2.2.map n.label, h⟩)
    fun _ => states_ne_nil_of_mem_transitions

theorem map_line_groups : n.groups.map Group.line = n.transitions.map n.transitionLine := by
  rw [groups, List.map_pmap]
  exact List.pmap_eq_map (f := n.transitionLine) _

theorem flatMap_transitions_groups :
    n.groups.flatMap Group.transitions = n.contents.transitions := by
  have h : n.groups.map Group.transitions = n.transitions.map fun t =>
      (t.2.2.map n.label).map (⟨n.label t.1, t.2.1, ·⟩) := by
    rw [groups, List.map_pmap]
    exact List.pmap_eq_map (f := fun t : StateId × Symbol × List StateId =>
      (t.2.2.map n.label).map (Transition.mk (n.label t.1) t.2.1)) _
  rw [List.flatMap_def, h, ← List.flatMap_def, Machine.contents, Machine.moves, List.map_flatMap]
  simp [Machine.transitionOf, Function.comp_def]

instance : FaithfulLayout (List StateId) where
  reads_transitions n := by
    have h := reads_groups n.moves.length (groups n)
    have hlength : n.contents.transitions.length = n.moves.length := List.length_map _
    rw [map_line_groups, flatMap_transitions_groups, hlength] at h
    exact h
  yields_transitions n := yields_groups n n

/-! ## Which automata are read back -/

/-- The entries of a table are recorded exactly when each lists some state, and none twice. -/
theorem recorded_iff_forall : (∀ p a l, n.entry? p a = some l → Recorded l) ↔
    ∀ r ∈ n.table.entries, ∀ e ∈ r.2.entries, e.2 ≠ [] ∧ e.2.Nodup := by
  simp only [← recorded_list_iff]
  constructor
  · rintro h ⟨p, row⟩ hr ⟨a, l⟩ he
    exact h p a l (Option.bind_eq_some_iff.mpr
      ⟨row, SortedMap.mem_entries_iff.mp hr, SortedMap.mem_entries_iff.mp he⟩)
  · intro h p a l hl
    obtain ⟨row, hrow, hl⟩ := Option.bind_eq_some_iff.mp hl
    exact h (p, row) (SortedMap.mem_entries_iff.mpr hrow) (a, l) (SortedMap.mem_entries_iff.mpr hl)

/-- **What declarations can make an automaton that branches of.** -/
theorem buildable_iff_forall : n.Buildable ↔ n.labels.Nodup ∧
    ∀ r ∈ n.table.entries, r.2 ≠ ∅ ∧ ∀ e ∈ r.2.entries, e.2 ≠ [] ∧ e.2.Nodup := by
  constructor
  · intro h
    have hfull := Table.full_iff.mp h.full
    have hrows := recorded_iff_forall.mp h.recorded
    exact ⟨h.nodup_labels, fun r hr => ⟨hfull r hr, hrows r hr⟩⟩
  · rintro ⟨hlabels, hrows⟩
    exact ⟨hlabels, Table.full_iff.mpr fun r hr => (hrows r hr).1,
      recorded_iff_forall.mpr fun r hr => (hrows r hr).2⟩

/-- **What a listing can say of an automaton that branches.** -/
theorem listable_iff_forall : n.Listable ↔ n.labels.Nodup ∧
    (∀ l ∈ n.labels, l ≠ "" ∧ ∀ c ∈ l.toList, isBlank c = false) ∧
    (∀ a ∈ n.alphabet, isBlank a = false) ∧
    ∀ r ∈ n.table.entries, r.2 ≠ ∅ ∧ ∀ e ∈ r.2.entries, e.2 ≠ [] ∧ e.2.Nodup := by
  constructor
  · intro h
    obtain ⟨hlabels, hrows⟩ := buildable_iff_forall.mp h.buildable
    exact ⟨hlabels, h.isToken_labels, h.isBlank_alphabet, hrows⟩
  · rintro ⟨hlabels, htokens, halphabet, hrows⟩
    obtain ⟨-, hfull, hrecorded⟩ := buildable_iff_forall.mpr ⟨hlabels, hrows⟩
    exact ⟨hlabels, htokens, halphabet, hfull, hrecorded⟩

/-- **An automaton that branches is read back from its listing exactly when** its labels are
pairwise distinct, not empty and free of white space, no symbol is white space, no empty row and no
empty list of targets is stored, and no list of targets repeats a state.  That is so for all that
was read from a text.  States and moves are counted by 64-bit numbers, and whatever is read back can
be so counted. -/
theorem ofListing_listing_eq_self_iff :
    (∀ n : Nfa, n.WellFormed →
      n.numStates < Numeral.limit → n.transitionCount < Numeral.limit →
      (Machine.ofListing n.listing = .ok n ↔
        n.labels.Nodup ∧ (∀ l ∈ n.labels, l ≠ "" ∧ ∀ c ∈ l.toList, isBlank c = false) ∧
        (∀ a ∈ n.alphabet, isBlank a = false) ∧
        ∀ r ∈ n.table.entries, r.2 ≠ ∅ ∧ ∀ e ∈ r.2.entries, e.2 ≠ [] ∧ e.2.Nodup)) ∧
    (∀ (t : String) (n : Nfa), Machine.ofListing t = .ok n →
      n.numStates < Numeral.limit ∧ n.transitionCount < Numeral.limit ∧
      Machine.ofListing n.listing = .ok n) := by
  refine ⟨fun n h hstates hmoves => ?_, fun t n h => ?_⟩
  · rw [Machine.ofListing_listing_iff h hstates hmoves, listable_iff_forall]
  · obtain ⟨-, hstates, hmoves⟩ := Machine.listable_of_ofListing h
    exact ⟨hstates, hmoves, Machine.ofListing_listing_of_ofListing h⟩

/-- One state with a move to itself on `a`, stored twice. -/
def doubled : Nfa :=
  ⟨["A"], SortedSet.ofList ['a'], 0, ∅,
    SortedMap.ofEntries [(0, SortedMap.ofEntries [('a', [0, 0])])]⟩

/-- A repeated target is lost, and nothing else of a listing is. -/
theorem ofListing_listing_endsWithA :
    Machine.ofListing endsWithA.listing = .ok endsWithA ∧
    Machine.ofListing doubled.listing ≠ .ok doubled := by
  have hread : Machine.ofListing endsWithA.listing = .ok endsWithA := by
    refine (ofListing_listing_eq_self_iff.1 endsWithA loaded_endsWithA.wellFormed (by decide)
      (by decide)).mpr ⟨by decide, ?_, ?_, by decide⟩
    · exact fun l hl => (by decide : ∀ l ∈ endsWithA.labels, IsToken l) l hl
    · have hblank : endsWithA.alphabet.toList.all (fun a => !isBlank a) = true := by decide
      exact fun a ha => by simpa using List.all_eq_true.mp hblank a ha
  refine ⟨(ofListing_listing_eq_self_iff.2 _ _ hread).2.2, fun h => ?_⟩
  obtain ⟨-, -, -, hrows⟩ := (ofListing_listing_eq_self_iff.1 doubled (by decide) (by decide)
    (by decide)).mp h
  exact absurd hrows (by decide)

end Nfa

end Automata
