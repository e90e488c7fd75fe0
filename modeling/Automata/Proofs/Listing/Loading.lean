import Automata.Proofs.Listing.Contents
import Automata.Proofs.Listing.Grammar

/-!
# Proofs/Listing/Loading — which texts load, and what is wrong with the others

A listing opens with its states, its symbols and the number of its transitions, and closes with its
initial and final states, whatever the layout of the transitions in between (`Phrase.listing`).  So
once the transitions are read as a phrase, `readDraft_eq_ok_iff` tells which texts load, and
`readDraft_eq_error_iff` tells where all others fail.

The transitions of a deterministic automaton are tokens like all the rest, so its listings are
streams of tokens: `Dfa.readDraft_of_stretches`.
-/

namespace Automata.Listing

open Text

variable {γ : Type} [View γ]

/-! ## The parts of a listing -/

/-- Labels or symbols behind their number. -/
def readCounted {α : Type} (count : Item) (read : Lines → Outcome (α × Lines)) (ls : Lines) :
    Outcome (List α × Lines) :=
  readCount count ls >>= fun r => readMany read r.1 r.2

theorem Reports.counted {α : Type} {read : Lines → Outcome (α × Lines)} {φ : Phrase γ α}
    (h : Reports read φ) (count : Item) (hcount : count ∈ counts) :
    Reports (readCounted count read) (.counted count φ) :=
  (reports_readCount count hcount).bind h.times

/-- States, symbols, and the number of transitions. -/
def readOpening (ls : Lines) : Outcome ((List String × List Symbol × Nat) × Lines) :=
  readCounted .stateCount (next .state) ls >>= fun r =>
  readCounted .symbolCount readSymbol r.2 >>= fun s =>
  readCount .transitionCount s.2 >>= fun u => .ok ((r.1, s.1, u.1), u.2)

/-- The initial state and the final states. -/
def readClosing (ls : Lines) : Outcome ((String × List String) × Lines) :=
  next .initial ls >>= fun r =>
  readCounted .finalCount (next .final) r.2 >>= fun s => .ok ((r.1, s.1), s.2)

/-- What a listing says, and what is behind it. -/
def readContents (τ : Type) [Layout τ] (ls : Lines) : Outcome (Contents × Lines) :=
  readOpening ls >>= fun r =>
  Layout.readTransitions τ r.1.2.2 r.2 >>= fun s =>
  readClosing s.2 >>= fun u => .ok (⟨r.1.1, r.1.2.1, s.1, u.1.1, u.1.2⟩, u.2)

/-- **The tokens a listing opens with**: the states, the symbols, and the number of transitions. -/
def IsOpening (S : List (Item × γ)) (states : List String) (symbols : List Symbol) (k : Nat) :
    Prop :=
  ∃ n m l : String, Numeral.Denotes n states.length ∧ Numeral.Denotes m symbols.length ∧
    Numeral.Denotes l k ∧
    played S = (.stateCount, n) :: states.map (.state, ·) ++
      (.symbolCount, m) :: symbols.map (.symbol, ·.toString) ++ [(.transitionCount, l)]

/-- **The tokens a listing closes with**: the initial state and the final states. -/
def IsClosing (S : List (Item × γ)) (initial : String) (finals : List String) : Prop :=
  ∃ n : String, Numeral.Denotes n finals.length ∧
    played S = (.initial, initial) :: (.finalCount, n) :: finals.map (.final, ·)

namespace Phrase

/-- States, symbols, and the number of transitions. -/
def opening : Phrase γ (List String × List Symbol × Nat) :=
  (counted .stateCount (written .state id)).bind fun states =>
  (counted .symbolCount (written .symbol Char.toString)).bind fun symbols =>
  (token .transitionCount Numeral.Denotes).map fun k => (states, symbols, k)

/-- The initial state and the final states. -/
def closing : Phrase γ (String × List String) :=
  (written .initial id).bind fun initial =>
  (counted .finalCount (written .final id)).map fun finals => (initial, finals)

/-- A listing, whose transitions are a phrase that depends on their number. -/
def listing (body : Nat → Phrase γ (List Transition)) : Phrase γ Contents :=
  opening.bind fun o => (body o.2.2).bind fun ts =>
  closing.map fun c => ⟨o.1, o.2.1, ts, c.1, c.2⟩

theorem opening_iff {S : List (Item × γ)} {states : List String} {symbols : List Symbol} {k : Nat} :
    opening S (states, symbols, k) ↔ IsOpening S states symbols k := by
  constructor
  · rintro ⟨S₁, _, _, rfl, h₁, S₂, S₃, _, rfl, h₂, _, h₃, heq⟩
    obtain ⟨rfl, rfl, rfl⟩ : states = _ ∧ symbols = _ ∧ k = _ := by simpa using heq
    obtain ⟨n, hn, h₁⟩ := counted_written_iff.mp h₁
    obtain ⟨m, hm, h₂⟩ := counted_written_iff.mp h₂
    obtain ⟨l, hl, h₃⟩ := token_iff.mp h₃
    exact ⟨n, m, l, hn, hm, hl, by simp [h₁, h₂, h₃]⟩
  · rintro ⟨n, m, l, hn, hm, hl, hS⟩
    obtain ⟨S', S₃, rfl, hS', h₃⟩ := played_eq_append_iff.mp hS
    obtain ⟨S₁, S₂, rfl, h₁, h₂⟩ := played_eq_append_iff.mp hS'
    exact ⟨S₁, _, _, List.append_assoc _ _ _, counted_written_iff.mpr ⟨n, hn, h₁⟩, S₂, S₃, _, rfl,
      counted_written_iff.mpr ⟨m, hm, h₂⟩, k, token_iff.mpr ⟨l, hl, h₃⟩, rfl⟩

theorem closing_iff {S : List (Item × γ)} {initial : String} {finals : List String} :
    closing S (initial, finals) ↔ IsClosing S initial finals := by
  constructor
  · rintro ⟨S₁, S₂, _, rfl, h₁, _, h₂, heq⟩
    obtain ⟨rfl, rfl⟩ : initial = _ ∧ finals = _ := by simpa using heq
    obtain ⟨n, hn, h₂⟩ := counted_written_iff.mp h₂
    exact ⟨n, hn, by simp [(spells_written .initial id S₁ initial).mp h₁, h₂]⟩
  · rintro ⟨n, hn, hS⟩
    obtain ⟨S₁, S₂, rfl, h₁, h₂⟩ := played_eq_append_iff (A := [(.initial, initial)]).mp hS
    exact ⟨S₁, S₂, _, rfl, (spells_written .initial id S₁ initial).mpr h₁, _,
      counted_written_iff.mpr ⟨n, hn, h₂⟩, rfl⟩

end Phrase

theorem reports_readOpening : Reports readOpening (Phrase.opening (γ := γ)) :=
  ((reports_next .state (by decide) (by decide)).counted .stateCount (by decide)).bind fun states =>
  (reports_readSymbol.counted .symbolCount (by decide)).bind fun symbols =>
  (reports_readCount .transitionCount (by decide)).map fun k => (states, symbols, k)

theorem reports_readClosing : Reports readClosing (Phrase.closing (γ := γ)) :=
  (reports_next .initial (by decide) (by decide)).bind fun initial =>
  ((reports_next .final (by decide) (by decide)).counted .finalCount (by decide)).map fun finals =>
  (initial, finals)

/-! ## Which texts load -/

section

variable {τ : Type} [Layout τ] {body : Nat → Phrase γ (List Transition)}

theorem Scans.contents (h : ∀ k, Scans (Layout.readTransitions τ k) (body k)) :
    Scans (readContents τ) (.listing body) :=
  reports_readOpening.toScans.bind fun o => (h o.2.2).bind fun ts =>
  reports_readClosing.toScans.map fun c => Contents.mk o.1 o.2.1 ts c.1 c.2

theorem Reports.contents (h : ∀ k, Reports (Layout.readTransitions τ k) (body k)) :
    Reports (readContents τ) (.listing body) :=
  reports_readOpening.bind fun o => (h o.2.2).bind fun ts =>
  reports_readClosing.map fun c => Contents.mk o.1 o.2.1 ts c.1 c.2

end

/-- **A listing is read to what it says.** -/
theorem readDraft_eq (τ : Type) [Layout τ] [Target τ] (t : String) :
    readDraft τ t = (readContents τ (Lines.ofText t) >>= fun r =>
      finish r.2 >>= fun _ => .ok (r.1.draft τ)) := by
  have hmap : ∀ x : Outcome (List Declaration), x.map (Draft.ofDeclarations (τ := τ)) =
      x >>= fun l => .ok (Draft.ofDeclarations l) := fun x => by cases x <;> rfl
  rw [readDraft, hmap, readLines]
  simp only [readContents, readOpening, readClosing, readCounted, bind_assoc]
  rfl

section

variable {τ : Type} [Layout τ] [Target τ] {body : Nat → Phrase γ (List Transition)} {t : String}

/-- **A text loads exactly if its tokens are a listing**, and as the draft that this declares. -/
theorem readDraft_eq_ok_iff (h : ∀ k, Scans (Layout.readTransitions τ k) (body k)) {b : Draft τ} :
    readDraft τ t = .ok b ↔ ∃ S c, Phrase.listing body S c ∧
      view (Lines.ofText t) = S.map Prod.snd ∧ b = c.draft τ := by
  have hscans := Scans.contents h
  rw [readDraft_eq]
  constructor
  · intro hread
    obtain ⟨⟨c, ls⟩, hcontents, hread⟩ := bind_eq_ok_iff.mp hread
    obtain ⟨⟨⟩, hfinish, hread⟩ := bind_eq_ok_iff.mp hread
    obtain rfl := Except.ok.inj hread
    obtain ⟨S, hS, hview⟩ := hscans.sound hcontents
    refine ⟨S, c, hS, ?_, rfl⟩
    cases hleft : view (γ := γ) ls with
    | nil => rw [hview, hleft, List.append_nil]
    | cons g R => exact absurd ((finish_of_view_cons hleft).symm.trans hfinish) (by simp)
  · rintro ⟨S, c, hS, hview, rfl⟩
    obtain ⟨ls, hcontents, hleft⟩ := hscans.complete hS (hview.trans (List.append_nil _).symm)
    exact bind_eq_ok_iff.mpr ⟨_, hcontents,
      bind_eq_ok_iff.mpr ⟨(), finish_of_view_nil hleft, rfl⟩⟩

/-- **A text fails to load where its tokens no longer begin a listing**, or behind a listing. -/
theorem readDraft_eq_error_iff (h : ∀ k, Reports (Layout.readTransitions τ k) (body k))
    {e : ListingError} : readDraft τ t = .error e ↔
      Fault (.listing body) (view (Lines.ofText t)) e ∨
      ∃ S c g W, Phrase.listing body S c ∧ view (Lines.ofText t) = S.map Prod.snd ++ g :: W ∧
        e = .trailingInput (View.token g) := by
  have hreports := Reports.contents h
  rw [readDraft_eq, bind_eq_error_iff, hreports.error_iff]
  refine or_congr_right ⟨?_, ?_⟩
  · rintro ⟨⟨c, ls⟩, hcontents, hread⟩
    obtain ⟨S, hS, hview⟩ := hreports.sound hcontents
    cases hleft : view (γ := γ) ls with
    | nil =>
        dsimp only at hread
        rw [finish_of_view_nil hleft] at hread
        exact absurd (show Except.ok _ = Except.error e from hread) (by simp)
    | cons g R =>
        dsimp only at hread
        rw [finish_of_view_cons hleft] at hread
        exact ⟨S, c, g, R, hS, by rw [hview, hleft], (Except.error.inj hread).symm⟩
  · rintro ⟨S, c, g, W, hS, hview, rfl⟩
    obtain ⟨ls, hcontents, hleft⟩ := hreports.complete hS hview
    refine ⟨_, hcontents, ?_⟩
    rw [finish_of_view_cons hleft]
    rfl

end

/-! ## Streams of tokens -/

/-- The tokens of a transition, each with the part it plays. -/
def parts (t : Transition) : List (Item × String) :=
  [(.source, t.source), (.symbol, t.symbol.toString), (.target, t.target)]

/-- **The tokens of a listing**, each with the part it plays, and what they say. -/
def IsListing (S : List (Item × String)) (c : Contents) : Prop :=
  ∃ n m k l : String,
    Numeral.Denotes n c.states.length ∧ Numeral.Denotes m c.symbols.length ∧
    Numeral.Denotes k c.transitions.length ∧ Numeral.Denotes l c.finals.length ∧
    S = (.stateCount, n) :: c.states.map (.state, ·) ++
      (.symbolCount, m) :: c.symbols.map (.symbol, ·.toString) ++
      (.transitionCount, k) :: c.transitions.flatMap parts ++
      (.initial, c.initial) :: (.finalCount, l) :: c.finals.map (.final, ·)

/-- Nothing but the tokens is seen. -/
theorem played_string (S : List (Item × String)) : played S = S := List.map_id S

/-- A source, a symbol and a target. -/
def Phrase.transition : Phrase γ Transition :=
  (written .source id).bind fun p => (written .symbol Char.toString).bind fun a =>
  (written .target id).map fun q => ⟨p, a, q⟩

theorem reports_readTransition : Reports readTransition (Phrase.transition (γ := γ)) :=
  (reports_next .source (by decide) (by decide)).bind fun p =>
  reports_readSymbol.bind fun a =>
  (reports_next .target (by decide) (by decide)).map fun q => Transition.mk p a q

theorem spells_transition : Spells (Phrase.transition (γ := γ)) parts := by
  intro S t
  constructor
  · rintro ⟨S₁, _, p, rfl, h₁, S₂, S₃, a, rfl, h₂, q, h₃, rfl⟩
    simp [parts, (spells_written _ _ _ _).mp h₁, (spells_written _ _ _ _).mp h₂,
      (spells_written _ _ _ _).mp h₃]
  · intro hS
    obtain ⟨S₁, S', rfl, h₁, hS'⟩ := played_eq_append_iff (A := [(.source, t.source)]).mp hS
    obtain ⟨S₂, S₃, rfl, h₂, h₃⟩ :=
      played_eq_append_iff (A := [(.symbol, t.symbol.toString)]).mp hS'
    exact ⟨S₁, _, t.source, rfl, (spells_written _ _ _ _).mpr h₁, S₂, S₃, t.symbol, rfl,
      (spells_written _ _ _ _).mpr h₂, t.target, (spells_written _ _ _ _).mpr h₃, rfl⟩

theorem listing_iff_isListing {S : List (Item × String)} {c : Contents} :
    Phrase.listing Phrase.transition.times S c ↔ IsListing S c := by
  constructor
  · rintro ⟨S₁, _, ⟨states, symbols, k⟩, rfl, h₁, S₂, S₃, ts, rfl, h₂, ⟨initial, finals⟩, h₃, rfl⟩
    obtain ⟨n, m, l, hn, hm, hk, hS₁⟩ := Phrase.opening_iff.mp h₁
    obtain ⟨rfl, hS₂⟩ := spells_transition.times.mp h₂
    obtain ⟨f, hf, hS₃⟩ := Phrase.closing_iff.mp h₃
    rw [played_string] at hS₁ hS₂ hS₃
    exact ⟨n, m, l, f, hn, hm, hk, hf, by simp [hS₁, hS₂, hS₃]⟩
  · rintro ⟨n, m, l, f, hn, hm, hk, hf, rfl⟩
    refine ⟨_, c.transitions.flatMap parts ++ _, (c.states, c.symbols, c.transitions.length), ?_,
      Phrase.opening_iff.mpr ⟨n, m, l, hn, hm, hk, played_string _⟩, _, _, c.transitions, rfl,
      spells_transition.times.mpr ⟨rfl, played_string _⟩, (c.initial, c.finals),
      Phrase.closing_iff.mpr ⟨f, hf, played_string _⟩, rfl⟩
    simp

end Automata.Listing

namespace Automata.Dfa

open Listing Text

/-- **A deterministic automaton loads exactly from its listings, whatever the layout.**  Let `T` be
the longest stretches without white space of a text.  What the text loads as depends on `T` alone:
it loads exactly if `T` is a listing, as the draft made of all that is listed in the order in which
it is listed, where a transition declares its symbol too.  Otherwise it fails at the first token
that does not fit, which is where `T` ends or holds a token that cannot play the part that a listing
beginning like `T` has for it, or else at the first token behind a listing. -/
theorem readDraft_of_stretches {t : String} {T : List String} (hT : Stretches t.toList T) :
    (∀ u : String, Stretches u.toList T → readDraft StateId u = readDraft StateId t) ∧
    (∀ b : Draft StateId, readDraft StateId t = .ok b ↔
      ∃ S c, IsListing S c ∧ T = S.map Prod.snd ∧ b = Draft.ofDeclarations (
        c.states.map .state ++ c.symbols.map .symbol ++
        c.transitions.flatMap (fun s => [.symbol s.symbol, .transition s]) ++
        .initial c.initial :: c.finals.map .final)) ∧
    (∀ e : ListingError, readDraft StateId t = .error e ↔
      (∃ S₁ s S₂ c W, IsListing (S₁ ++ s :: S₂) c ∧ T = S₁.map Prod.snd ++ W ∧ Stops s.1 W e) ∨
      ∃ S c x W, IsListing S c ∧ T = S.map Prod.snd ++ x :: W ∧ e = .trailingInput x) := by
  have hview : ∀ {u : String}, Stretches u.toList T → view (Lines.ofText u) = T := fun hu =>
    (view_ofText _).trans (stretches_iff.mp hu)
  have hbody : ∀ k, Reports (Layout.readTransitions StateId k)
      (Phrase.transition (γ := String).times k) := reports_readTransition.times
  have hok : ∀ {u : String} {b : Draft StateId}, Stretches u.toList T →
      (readDraft StateId u = .ok b ↔
        ∃ S c, IsListing S c ∧ T = S.map Prod.snd ∧ b = c.draft StateId) := by
    intro u b hu
    rw [readDraft_eq_ok_iff fun k => (hbody k).toScans, hview hu]
    simp only [listing_iff_isListing]
  have herror : ∀ {u : String} {e : ListingError}, Stretches u.toList T →
      (readDraft StateId u = .error e ↔
        (∃ S₁ s S₂ c W, IsListing (S₁ ++ s :: S₂) c ∧ T = S₁.map Prod.snd ++ W ∧ Stops s.1 W e) ∨
        ∃ S c x W, IsListing S c ∧ T = S.map Prod.snd ++ x :: W ∧ e = .trailingInput x) := by
    intro u e hu
    rw [readDraft_eq_error_iff hbody, hview hu]
    simp only [Fault, listing_iff_isListing]
    rfl
  refine ⟨fun u hu => ?_, fun b => hok hT, fun e => herror hT⟩
  cases ht : readDraft StateId t with
  | ok b => exact (hok hu).mpr ((hok hT).mp ht)
  | error e => exact (herror hu).mpr ((herror hT).mp ht)

/-- One state with a loop, on one line and spread over several, and what is wrong with a symbol of
two characters. -/
theorem readDraft_of_stretches_loop :
    readDraft StateId "1\r\nq0\r\n\r\n0 1\nq0 x\n q0\tq0\n1 q0" =
      readDraft StateId "1 q0 0 1 q0 x q0 q0 1 q0" ∧
    readDraft StateId "1 q0 0 1 q0 x q0 q0 1 q0" = .ok (Draft.ofDeclarations
      [.state "q0", .symbol 'x', .transition ⟨"q0", 'x', "q0"⟩, .initial "q0", .final "q0"]) ∧
    readDraft StateId "1 q0 1 xy" = .error (.invalidSymbol "xy") := by
  have hone : Numeral.Denotes "1" 1 := Numeral.read?_eq_some_iff.mp (by decide)
  have hzero : Numeral.Denotes "0" 0 := Numeral.read?_eq_some_iff.mp (by decide)
  have hloop := readDraft_of_stretches (stretches_iff.mpr (by decide :
    tokens "1 q0 0 1 q0 x q0 q0 1 q0".toList =
      ["1", "q0", "0", "1", "q0", "x", "q0", "q0", "1", "q0"]))
  have hpair := readDraft_of_stretches (stretches_iff.mpr (by decide :
    tokens "1 q0 1 xy".toList = ["1", "q0", "1", "xy"]))
  refine ⟨hloop.1 _ (stretches_iff.mpr (by decide)), (hloop.2.1 _).mpr ?_,
    (hpair.2.2 _).mpr (.inl ?_)⟩
  · exact ⟨_, ⟨["q0"], [], [⟨"q0", 'x', "q0"⟩], "q0", ["q0"]⟩,
      ⟨"1", "0", "1", "1", hone, hzero, hone, hone, rfl⟩, rfl, rfl⟩
  · refine ⟨[(.stateCount, "1"), (.state, "q0"), (.symbolCount, "1")], (.symbol, "x"),
      [(.transitionCount, "0"), (.initial, "q0"), (.finalCount, "0")],
      ⟨["q0"], ['x'], [], "q0", []⟩, ["xy"], ⟨"1", "1", "0", "0", hone, hone, hzero, hzero, rfl⟩,
      rfl, .inr ⟨"xy", [], rfl, .symbol fun a ha => ?_⟩⟩
    have hlength : "xy".length = 1 := (congrArg String.length ha).trans (by simp [Char.toString])
    exact absurd hlength (by decide)

end Automata.Dfa
