import Automata.Listing.Write
import Automata.Proofs.Listing.Contents
import Automata.Proofs.Listing.Reading
import Automata.Proofs.Minimize.FreshLabel
import Automata.Proofs.Minimization

/-!
# Proofs/Listing/RoundTrip — which automata are read back from their listing

The listing of a machine is read to its contents whenever all that is written can stand as a token
(`Listing.readLines_listing`), and what is read from any text is contents made of tokens
(`Listing.exists_contents_of_readLines`).  So a machine is read back exactly when it is `Listable`
(`Machine.ofListing_listing_iff`), and every machine that was read from a text is.
-/

namespace Automata.Listing

open Text

/-- **A layout that reads back the transitions it lists.** -/
class FaithfulLayout (τ : Type) [Target τ] [Layout τ] : Prop extends LawfulLayout τ where
  reads_transitions : ∀ m : Machine τ, ReadsLines (Layout.readTransitions τ m.moves.length)
    (m.transitions.map m.transitionLine) m.contents.transitions
  yields_transitions : ∀ n, Yields (Layout.readTransitions τ n) fun ts =>
    ts.length = n ∧ ∀ t ∈ ts, isBlank t.symbol = false

instance : FaithfulLayout StateId where
  reads_transitions d := by
    have hlines : (d.transitions.map d.transitionLine) = d.contents.transitions.flatMap
        fun t => [[t.source, t.symbol.toString, t.target]] := by
      rw [← List.map_eq_flatMap, Machine.contents, Dfa.moves_eq_transitions, List.map_map]
      rfl
    have hlength : d.moves.length = d.contents.transitions.length := by simp [Machine.contents]
    rw [hlines, hlength]
    exact Takes.many _ fun t _ => (reads_transition t.source t.symbol t.target).line
  yields_transitions n := yields_transition.many n

variable {τ : Type} [Target τ] {m : Machine τ}

/-! ## Reading what was written -/

/-- All that is written can stand as a token if labels and symbols can. -/
theorem areTokens_listingLines (h : m.WellFormed) (hlabels : ∀ l ∈ m.labels, IsToken l)
    (halphabet : ∀ a ∈ m.alphabet, isBlank a = false) : m.listingLines.AreTokens := by
  have hlabel : ∀ s < m.numStates, IsToken (m.label s) := fun s hs =>
    hlabels _ (Machine.label_mem hs)
  have hline : ∀ t ∈ m.transitions, ∀ s ∈ m.transitionLine t, IsToken s := by
    intro t ht
    obtain ⟨hp, ha, hstates⟩ := h.of_entry? (Machine.entry?_of_mem_transitions ht)
    refine List.forall_mem_cons.mpr ⟨hlabel _ hp, List.forall_mem_cons.mpr
      ⟨isToken_toString (halphabet _ ha), fun s hs => ?_⟩⟩
    obtain ⟨q, hq, rfl⟩ := List.mem_map.mp hs
    exact hlabel q (hstates q hq)
  have hfinals : ∀ s ∈ m.finalLabels, IsToken s := fun s hs => by
    obtain ⟨q, hq, rfl⟩ := List.mem_map.mp hs
    exact hlabel q (m.mem_states.mp (List.mem_of_mem_filter hq))
  simp only [Machine.listingLines, Lines.AreTokens, List.forall_mem_append, List.forall_mem_cons,
    List.forall_mem_map, List.not_mem_nil, false_implies, implies_true, and_true]
  exact ⟨⟨⟨isToken_repr _, hlabels, isToken_repr _, fun a ha => isToken_toString (halphabet a ha),
    isToken_repr _⟩, hline⟩, hlabel _ h.initial_lt, isToken_repr _, hfinals⟩

variable [Layout τ] [FaithfulLayout τ]

/-- **The listing of a machine is read to its contents.** -/
theorem readLines_listing (h : m.WellFormed) (htokens : m.listingLines.AreTokens)
    (hstates : m.numStates < Numeral.limit) (hmoves : m.transitionCount < Numeral.limit) :
    readLines τ (Lines.ofText m.listing) = .ok (m.contents.declarations τ) := by
  have hfinals : m.finalLabels.length < Numeral.limit := by
    refine Nat.lt_of_le_of_lt ?_ hstates
    rw [Machine.finalLabels, List.length_map]
    exact (List.length_filter_le _ _).trans_eq List.length_range
  have halphabet : m.alphabet.size < Numeral.limit :=
    Nat.lt_of_le_of_lt m.alphabet.size_le (by decide)
  have hleft : Resumes (Lines.ofText m.listing) (m.listingLines ++ [[]]) := by
    rw [Machine.listing, Lines.ofText_toText htokens]
    exact .here _
  rw [Machine.listingLines] at hleft
  simp only [List.append_assoc] at hleft
  obtain ⟨ls₁, h₁, hleft⟩ := (reads_count .stateCount hstates).line _ _ hleft
  obtain ⟨ls₂, h₂, hleft⟩ := (reads_tokens .state m.labels).line _ _ hleft
  obtain ⟨ls₃, h₃, hleft⟩ := (reads_count .symbolCount halphabet).line _ _ hleft
  obtain ⟨ls₄, h₄, hleft⟩ := (reads_symbols m.alphabet.toList).line _ _ hleft
  obtain ⟨ls₅, h₅, hleft⟩ := (reads_count .transitionCount hmoves).line _ _ hleft
  obtain ⟨ls₆, h₆, hleft⟩ := FaithfulLayout.reads_transitions m _ _ hleft
  obtain ⟨ls₇, h₇, hleft⟩ := (reads_next .initial (m.label m.initial)).line _ _ hleft
  obtain ⟨ls₈, h₈, hleft⟩ := (reads_count .finalCount hfinals).line _ _ hleft
  obtain ⟨ls₉, h₉, hleft⟩ := (reads_tokens .final m.finalLabels).line _ _ hleft
  rw [Machine.length_moves h] at h₆
  rw [readLines]
  refine bind_eq_ok_iff.mpr ⟨_, h₁, bind_eq_ok_iff.mpr ⟨_, h₂, bind_eq_ok_iff.mpr ⟨_, h₃,
    bind_eq_ok_iff.mpr ⟨_, h₄, bind_eq_ok_iff.mpr ⟨_, h₅, bind_eq_ok_iff.mpr ⟨_, h₆,
    bind_eq_ok_iff.mpr ⟨_, h₇, bind_eq_ok_iff.mpr ⟨_, h₈, bind_eq_ok_iff.mpr ⟨_, h₉,
    bind_eq_ok_iff.mpr ⟨_, finish_of_resumes hleft, rfl⟩⟩⟩⟩⟩⟩⟩⟩⟩⟩

/-! ## What can be read -/

/-- **What is read from a text is contents made of tokens**, no more of them than can be counted. -/
theorem exists_contents_of_readLines {t : String} {l : List Declaration}
    (h : readLines τ (Lines.ofText t) = .ok l) : ∃ c : Contents, l = c.declarations τ ∧
      (∀ k ∈ c.states, IsToken k) ∧ (∀ a ∈ c.symbols, isBlank a = false) ∧
      (∀ t ∈ c.transitions, isBlank t.symbol = false) ∧
      c.states.length < Numeral.limit ∧ c.transitions.length < Numeral.limit := by
  rw [readLines] at h
  obtain ⟨⟨n₁, ls₁⟩, h₁, h⟩ := bind_eq_ok_iff.mp h
  obtain ⟨⟨states, ls₂⟩, h₂, h⟩ := bind_eq_ok_iff.mp h
  obtain ⟨⟨n₃, ls₃⟩, h₃, h⟩ := bind_eq_ok_iff.mp h
  obtain ⟨⟨symbols, ls₄⟩, h₄, h⟩ := bind_eq_ok_iff.mp h
  obtain ⟨⟨n₅, ls₅⟩, h₅, h⟩ := bind_eq_ok_iff.mp h
  obtain ⟨⟨transitions, ls₆⟩, h₆, h⟩ := bind_eq_ok_iff.mp h
  obtain ⟨⟨initial, ls₇⟩, h₇, h⟩ := bind_eq_ok_iff.mp h
  obtain ⟨⟨n₈, ls₈⟩, h₈, h⟩ := bind_eq_ok_iff.mp h
  obtain ⟨⟨finals, ls₉⟩, h₉, h⟩ := bind_eq_ok_iff.mp h
  obtain ⟨-, -, h⟩ := bind_eq_ok_iff.mp h
  obtain rfl := Except.ok.inj h
  obtain ⟨hn₁, hls₁⟩ := yields_count _ (Lines.areTokens_ofText t) h₁
  obtain ⟨⟨rfl, hstates⟩, hls₂⟩ := (yields_next .state).many _ hls₁ h₂
  obtain ⟨-, hls₃⟩ := yields_count _ hls₂ h₃
  obtain ⟨⟨-, hsymbols⟩, hls₄⟩ := yields_symbol.many _ hls₃ h₄
  obtain ⟨hn₅, hls₅⟩ := yields_count _ hls₄ h₅
  obtain ⟨⟨rfl, htransitions⟩, -⟩ := FaithfulLayout.yields_transitions _ hls₅ h₆
  exact ⟨⟨states, symbols, transitions, initial, finals⟩, rfl, hstates, hsymbols,
    htransitions, hn₁, hn₅⟩

end Automata.Listing

namespace Automata.Machine

open Listing Text

variable {τ : Type} [Target τ] [Layout τ] [FaithfulTarget τ] [FaithfulLayout τ] {m : Machine τ}

/-- **What is read from a text is listable**, and small enough to be counted. -/
theorem listable_of_ofListing {t : String} (h : ofListing t = .ok m) :
    m.Listable ∧ m.numStates < Numeral.limit ∧ m.transitionCount < Numeral.limit := by
  obtain ⟨b, hread, hbuild⟩ := bind_eq_ok_iff.mp h
  obtain ⟨l, hlines, rfl⟩ := map_eq_ok_iff.mp (mapError_eq_ok_iff.mp hread)
  obtain ⟨c, rfl, hstates, hsymbols, htransitions, hnumStates, hnumTransitions⟩ :=
    exists_contents_of_readLines hlines
  obtain ⟨hl, hle, hle'⟩ :=
    listable_of_build hstates hsymbols htransitions (mapError_eq_ok_iff.mp hbuild)
  exact ⟨hl, Nat.lt_of_le_of_lt hle hnumStates, Nat.lt_of_le_of_lt hle' hnumTransitions⟩

/-- **A listable machine is read back.** -/
theorem ofListing_listing (h : m.WellFormed) (hl : m.Listable)
    (hstates : m.numStates < Numeral.limit) (hmoves : m.transitionCount < Numeral.limit) :
    ofListing m.listing = .ok m := by
  have htokens := areTokens_listingLines h hl.isToken_labels hl.isBlank_alphabet
  have hread : readDraft τ m.listing = .ok (m.contents.draft τ) := by
    rw [readDraft, readLines_listing h htokens hstates hmoves]
    rfl
  rw [ofListing, hread]
  exact mapError_eq_ok_iff.mpr (build_draft_contents h hl.buildable)

/-- **A machine is read back exactly when it is listable.** -/
theorem ofListing_listing_iff (h : m.WellFormed) (hstates : m.numStates < Numeral.limit)
    (hmoves : m.transitionCount < Numeral.limit) :
    ofListing m.listing = .ok m ↔ m.Listable :=
  ⟨fun hm => (listable_of_ofListing hm).1, fun hl => ofListing_listing h hl hstates hmoves⟩

/-- What was read from a text is read back. -/
theorem ofListing_listing_of_ofListing {t : String} (h : ofListing t = .ok m) :
    ofListing m.listing = .ok m := by
  obtain ⟨hl, hstates, hmoves⟩ := listable_of_ofListing h
  obtain ⟨b, -, hbuild⟩ := bind_eq_ok_iff.mp h
  exact ofListing_listing (wellFormed_of_ofDraft hbuild) hl hstates hmoves

end Automata.Machine

namespace Automata.StateId

open Text

theorem isToken_canonicalLabel (n : Nat) : IsToken (canonicalLabel n) := by
  refine ⟨fun e => ?_, fun c hc => ?_⟩
  · exact absurd (congrArg String.toList e) (by simp [toList_canonicalLabel])
  · rw [toList_canonicalLabel] at hc
    rcases List.mem_cons.mp hc with rfl | hc
    · decide
    · exact (isToken_repr n).2 c hc

end Automata.StateId

namespace Automata.Dfa

open Listing Text

variable {d : Dfa}

/-- **What the algorithms make is listable** over an alphabet without white space. -/
theorem listable_tabulate {n : Nat} {alphabet : Alphabet} {initial : StateId}
    {isFinal : StateId → Bool} {next : StateId → Symbol → Option StateId}
    (h : ∀ a ∈ alphabet, isBlank a = false) :
    (tabulate ((List.range n).map StateId.canonicalLabel) alphabet initial isFinal next).Listable
      where
  nodup_labels := List.nodup_range.map fun _ _ => StateId.canonicalLabel_inj
  isToken_labels l hl := by
    obtain ⟨i, -, rfl⟩ := List.mem_map.mp hl
    exact StateId.isToken_canonicalLabel i
  isBlank_alphabet := h
  full _ _ := ne_empty_of_find?_tabulate
  recorded _ _ _ _ := rfl

/-- States are 32-bit handles, so the moves can be counted. -/
theorem transitionCount_lt_limit (h : d.WellFormed) (hn : d.numStates ≤ StateId.limit) :
    d.transitionCount < Numeral.limit := by
  rw [← Machine.length_moves h, moves_eq_transitions]
  calc d.transitions.length ≤ d.numStates * d.alphabet.size := d.length_transitions_le
    _ ≤ StateId.limit * 0x110000 := Nat.mul_le_mul hn d.alphabet.size_le
    _ < Numeral.limit := by decide

theorem numStates_lt_limit (hn : d.numStates ≤ StateId.limit) : d.numStates < Numeral.limit :=
  Nat.lt_of_le_of_lt hn (by decide)

theorem listable_iff : d.Listable ↔ d.labels.Nodup ∧
    (∀ l ∈ d.labels, l ≠ "" ∧ ∀ c ∈ l.toList, isBlank c = false) ∧
    (∀ a ∈ d.alphabet, isBlank a = false) ∧ ∀ r ∈ d.table.entries, r.2 ≠ ∅ :=
  ⟨fun h => ⟨h.nodup_labels, h.isToken_labels, h.isBlank_alphabet, Table.full_iff.mp h.full⟩,
    fun ⟨h₁, h₂, h₃, h₄⟩ => ⟨h₁, h₂, h₃, Table.full_iff.mpr h₄, fun _ _ _ _ => rfl⟩⟩

/-- **An automaton is read back from its listing exactly when** its labels are pairwise distinct,
not empty and free of white space, no symbol is white space and no empty row is stored.  That is so
for all that was read from a text, and for all that is made by an algorithm over an alphabet without
white space.  States are 32-bit handles, so no automaton has more of them than there are handles. -/
theorem ofListing_listing_eq_ok_iff :
    (∀ d : Dfa, d.WellFormed → d.numStates ≤ StateId.limit →
      (Machine.ofListing d.listing = .ok d ↔
        d.labels.Nodup ∧ (∀ l ∈ d.labels, l ≠ "" ∧ ∀ c ∈ l.toList, isBlank c = false) ∧
        (∀ a ∈ d.alphabet, isBlank a = false) ∧ ∀ r ∈ d.table.entries, r.2 ≠ ∅)) ∧
    (∀ (t : String) (d : Dfa), Machine.ofListing t = .ok d → Machine.ofListing d.listing = .ok d) ∧
    (∀ n : Nfa, n.determinize.numStates ≤ StateId.limit → (∀ a ∈ n.alphabet, isBlank a = false) →
      Machine.ofListing n.determinize.listing = .ok n.determinize) ∧
    (∀ d : Dfa, d.WellFormed → d.minimize.numStates ≤ StateId.limit →
      (∀ a ∈ d.alphabet, isBlank a = false) →
      Machine.ofListing d.minimize.listing = .ok d.minimize) := by
  refine ⟨fun d h hn => ?_, fun _ _ => Machine.ofListing_listing_of_ofListing, fun n hn ha => ?_,
    fun d h hn ha => ?_⟩
  · rw [Machine.ofListing_listing_iff h (numStates_lt_limit hn) (transitionCount_lt_limit h hn),
      listable_iff]
  · have h := n.wellFormed_determinize
    exact Machine.ofListing_listing h (listable_tabulate ha) (numStates_lt_limit hn)
      (transitionCount_lt_limit h hn)
  · have h := (minimal_minimize h).wellFormed
    refine Machine.ofListing_listing h (listable_tabulate ?_) (numStates_lt_limit hn)
      (transitionCount_lt_limit h hn)
    change ∀ a ∈ d.minimize.alphabet, _
    rwa [alphabet_minimize]

/-- The automaton `letter`, a result of the subset construction and a minimized automaton. -/
theorem ofListing_listing_letter :
    Machine.ofListing letter.listing = .ok letter ∧
    Machine.ofListing Nfa.endsWithA.determinize.listing = .ok Nfa.endsWithA.determinize ∧
    Machine.ofListing letter.minimize.listing = .ok letter.minimize := by
  have h : letter.WellFormed := obtainable_letter.wellFormed
  have hle : letter.minimize.numStates ≤ letter.numStates + 1 :=
    (minimal_minimize h).numStates_le_succ h fun w => (accepts_minimize h w).symm
  have hblank : ∀ {A : Alphabet}, A.toList.all (fun a => !isBlank a) = true →
      ∀ a ∈ A, isBlank a = false := fun h a ha => by simpa using List.all_eq_true.mp h a ha
  have hlabels : ∀ l ∈ letter.labels, IsToken l := by decide
  have halphabet : ∀ a ∈ letter.alphabet, isBlank a = false := hblank (by decide)
  exact ⟨(ofListing_listing_eq_ok_iff.1 letter h (by decide)).mpr
      ⟨by decide, hlabels, halphabet, by decide⟩,
    ofListing_listing_eq_ok_iff.2.2.1 Nfa.endsWithA (by decide) (hblank (by decide)),
    ofListing_listing_eq_ok_iff.2.2.2 letter h (hle.trans (by decide)) halphabet⟩

end Automata.Dfa
