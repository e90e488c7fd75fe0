import Automata.Proofs.Listing.Groups
import Automata.Proofs.Listing.Loading

/-!
# Proofs/Listing/Placement — where on the lines the transitions of a branching automaton stand

The targets of a group are all that is left on the line of its symbol, so what a text says depends
on which tokens are the last of their lines, and on nothing else of its layout.  Seen as `Placed`
tokens the groups are told apart (`viewLine_append_inj`), and the loop over them turns once for each
(`Turn`) until no target is to come (`readGroups_of_isGroups`).  Each turn uses up a target, so the
loop ends on every text, and `Nfa.readDraft_of_isGroups` tells how.
-/

namespace Automata.Listing

open Text

/-! ## Groups on their lines -/

/-- **The tokens of a group as they stand**, each with the part it plays: the symbol is not the last
of its line, and the targets go on to the end of it. -/
def Group.placed (g : Group) (ends : Bool) : List (Item × Placed) :=
  (.source, ⟨g.source, ends⟩) :: (.symbol, ⟨g.symbol.toString, false⟩) ::
    (viewLine g.targets).map (.target, ·)

/-- The tokens of groups as they stand. -/
inductive IsGroups : List (Item × Placed) → List Group → Prop
  | nil : IsGroups [] []
  | cons {S : List (Item × Placed)} {gs : List Group} (g : Group) (ends : Bool)
      (h : IsGroups S gs) : IsGroups (g.placed ends ++ S) (g :: gs)

/-- How many targets groups have. -/
def numTargets : List Group → Nat
  | [] => 0
  | g :: gs => g.targets.length + numTargets gs

theorem length_flatMap_transitions (gs : List Group) :
    (gs.flatMap Group.transitions).length = numTargets gs := by
  induction gs with
  | nil => rfl
  | cons g gs ih =>
      rw [List.flatMap_cons, List.length_append, ih, Group.length_transitions, numTargets]

theorem map_snd_placed (g : Group) (ends : Bool) : (g.placed ends).map Prod.snd =
    ⟨g.source, ends⟩ :: ⟨g.symbol.toString, false⟩ :: viewLine g.targets := by
  simp [Group.placed, Function.comp_def]

/-- **The end of a line is seen**, so what is on the line is known from its tokens. -/
theorem viewLine_append_inj : ∀ {l m : List String} {A B : List Placed}, l ≠ [] → m ≠ [] →
    viewLine l ++ A = viewLine m ++ B → l = m ∧ A = B
  | [], _, _, _, hl, _, _ => absurd rfl hl
  | _, [], _, _, _, hm, _ => absurd rfl hm
  | t :: l, u :: m, A, B, _, _, h => by
      obtain ⟨hhead, htail⟩ := List.cons.inj h
      obtain ⟨rfl, hends⟩ := Placed.mk.inj hhead
      by_cases hl : l = []
      case pos =>
        -- both lines end here
        subst hl
        obtain rfl := List.isEmpty_iff.mp hends.symm
        exact ⟨rfl, htail⟩
      case neg =>
        have hm : m ≠ [] := fun hm => hl (List.isEmpty_iff.mp (hends.trans (by rw [hm]; rfl)))
        obtain ⟨rfl, hAB⟩ := viewLine_append_inj hl hm htail
        exact ⟨rfl, hAB⟩

/-! ## One group -/

/-- What is read of a group as long as it is not known whether targets are on the line. -/
theorem readGroup_of_view {ls : Lines} {p : String} {a : Symbol} {ends last : Bool}
    {R : List Placed} (h : view ls = ⟨p, ends⟩ :: ⟨a.toString, last⟩ :: R) :
    ∃ l ls', l.isEmpty = last ∧ view (l :: ls') = R ∧
      readGroup ls = restOfLine .targets (l :: ls') >>= fun r =>
        .ok (⟨p, a, r.1.1 :: r.1.2, List.cons_ne_nil _ _⟩, r.2) := by
  obtain ⟨t, l₁, ls₁, ht, hview₁, hsource⟩ := next_of_view_cons h
  obtain ⟨u, l₂, ls₂, hu, hview₂, hsymbol⟩ := next_of_view_cons hview₁
  obtain ⟨rfl, -⟩ := Placed.mk.inj ht
  obtain ⟨rfl, hlast⟩ := Placed.mk.inj hu
  refine ⟨l₂, ls₂, hlast.symm, hview₂, ?_⟩
  rw [readGroup, hsource]
  change (readSymbol (l₁ :: ls₁) >>= _) = _
  rw [readSymbol_eq_ok_iff.mpr (hsymbol .symbol)]
  rfl

/-- **A group is read off its line.** -/
theorem readGroup_of_placed {ls : Lines} {g : Group} {ends : Bool} {R : List Placed}
    (h : view ls = (g.placed ends).map Prod.snd ++ R) :
    ∃ ls', readGroup ls = .ok (g, ls') ∧ view ls' = R := by
  rw [map_snd_placed] at h
  obtain ⟨l, ls', hl, hview, hread⟩ := readGroup_of_view h
  have hne : l ≠ [] := List.isEmpty_eq_false_iff.mp hl
  obtain ⟨rfl, hR⟩ := viewLine_append_inj hne g.nonempty hview
  refine ⟨[] :: ls', ?_, hR⟩
  obtain ⟨p, a, targets, hnonempty⟩ := g
  obtain ⟨q, qs, rfl⟩ := List.exists_cons_of_ne_nil hnonempty
  exact hread

/-- Behind a symbol that ends its line there are no targets. -/
theorem readGroup_of_isLast {ls : Lines} {p : String} {a : Symbol} {ends : Bool} {R : List Placed}
    (h : view ls = ⟨p, ends⟩ :: ⟨a.toString, true⟩ :: R) :
    readGroup ls = .error (.endOfInput .targets) := by
  obtain ⟨l, ls', hl, -, hread⟩ := readGroup_of_view h
  rw [hread, List.isEmpty_iff.mp hl]
  rfl

/-- **What is read of a group stood as one.** -/
theorem placed_of_readGroup {ls ls' : Lines} {g : Group} (h : readGroup ls = .ok (g, ls')) :
    ∃ ends, view ls = (g.placed ends).map Prod.snd ++ view ls' := by
  rw [readGroup] at h
  obtain ⟨⟨p, ls₁⟩, hsource, h⟩ := bind_eq_ok_iff.mp h
  obtain ⟨⟨a, ls₂⟩, hsymbol, h⟩ := bind_eq_ok_iff.mp h
  obtain ⟨⟨⟨q, qs⟩, ls₃⟩, htargets, h⟩ := bind_eq_ok_iff.mp h
  obtain ⟨rfl, rfl⟩ := Prod.mk.inj (Except.ok.inj h)
  obtain ⟨l₁, -, -, hview₁⟩ := view_of_next (γ := Placed) hsource
  obtain ⟨l₂, ls₄, rfl, hview₂⟩ := view_of_next (γ := Placed) (readSymbol_eq_ok_iff.mp hsymbol)
  cases l₂ with
  | nil => exact absurd htargets (by simp [restOfLine])
  | cons t l =>
      obtain ⟨⟨rfl, rfl⟩, rfl⟩ : (t = q ∧ l = qs) ∧ [] :: ls₄ = ls₃ := by
        simpa [restOfLine] using htargets
      refine ⟨l₁.isEmpty, ?_⟩
      rw [hview₁, hview₂, map_snd_placed]
      rfl

/-! ## One turn -/

/-- One group is read and its targets are fewer to come. -/
def Turn (g : Group) (x y : Nat × Lines) : Prop :=
  readGroup x.2 = .ok (g, y.2) ∧ x.1 = g.targets.length + y.1

/-- **Each turn uses up a target**, so no text keeps the loop turning. -/
theorem wellFounded_turn : WellFounded fun y x => ∃ g, Turn g x y := by
  refine Subrelation.wf ?_ (measure (Prod.fst : Nat × Lines → Nat)).wf
  rintro y x ⟨g, -, hx⟩
  have hpos := g.length_targets_ne_zero
  change y.1 < x.1
  omega

/-- **A turn is one group more.** -/
theorem readGroups_of_turn {g : Group} {x y : Nat × Lines} (h : Turn g x y) (declared : Nat) :
    readGroups declared x.1 x.2 = readGroups declared y.1 y.2 >>= fun s =>
      .ok (g.transitions ++ s.1, s.2) := by
  obtain ⟨x, ls⟩ := x
  obtain ⟨y, ls'⟩ := y
  obtain ⟨hread, rfl⟩ : readGroup ls = .ok (g, ls') ∧ x = g.targets.length + y := h
  have hpos := g.length_targets_ne_zero
  obtain ⟨n, hn⟩ := Nat.exists_eq_add_one_of_ne_zero (n := g.targets.length + y) (by omega)
  dsimp only
  rw [hn, readGroups_succ, hread, ← hn]
  change (if g.targets.length + y < g.targets.length then _ else _) = _
  rw [if_neg (by omega), Nat.add_sub_cancel_left]

/-- **As long as targets are to come, what is read begins with a turn.** -/
theorem exists_turn_of_readGroups {declared : Nat} {x : Nat × Lines} {r : List Transition × Lines}
    (hx : x.1 ≠ 0) (h : readGroups declared x.1 x.2 = .ok r) : ∃ g y, Turn g x y := by
  obtain ⟨x, ls⟩ := x
  obtain ⟨n, rfl⟩ := Nat.exists_eq_add_one_of_ne_zero hx
  dsimp only at h
  rw [readGroups_succ] at h
  obtain ⟨⟨g, ls'⟩, hread, h⟩ := bind_eq_ok_iff.mp h
  dsimp only at h
  split at h
  · exact absurd h (by simp)
  · exact ⟨g, (n + 1 - g.targets.length, ls'), hread, by dsimp only; omega⟩

/-! ## The loop -/

/-- **The loop turns once for each group that stands first**, as long as they have no more targets
than are to come. -/
theorem readGroups_of_isGroups {S : List (Item × Placed)} {gs : List Group} (h : IsGroups S gs)
    (declared m : Nat) : ∀ {ls : Lines} {R : List Placed}, view ls = S.map Prod.snd ++ R →
      ∃ ls', view ls' = R ∧ readGroups declared (numTargets gs + m) ls =
        readGroups declared m ls' >>= fun s => .ok (gs.flatMap Group.transitions ++ s.1, s.2) := by
  induction h with
  | nil =>
      intro ls R hview
      refine ⟨ls, hview, ?_⟩
      rw [numTargets, Nat.zero_add]
      cases readGroups declared m ls <;> rfl
  | @cons S gs g ends _ ih =>
      intro ls R hview
      rw [List.map_append, List.append_assoc] at hview
      obtain ⟨ls₁, hread, hview₁⟩ := readGroup_of_placed hview
      obtain ⟨ls₂, hview₂, hrest⟩ := ih hview₁
      have hturn : Turn g (numTargets (g :: gs) + m, ls) (numTargets gs + m, ls₁) :=
        ⟨hread, by rw [numTargets, Nat.add_assoc]⟩
      refine ⟨ls₂, hview₂, (readGroups_of_turn hturn declared).trans ?_⟩
      dsimp only
      rw [hrest, bind_assoc]
      simp [bind, Except.bind]

/-- **Groups with the declared number of targets**, and their transitions. -/
def Phrase.groups (k : Nat) : Phrase Placed (List Transition) := fun S ts =>
  ∃ gs, IsGroups S gs ∧ numTargets gs = k ∧ ts = gs.flatMap Group.transitions

theorem scans_readGroups (declared k : Nat) : Scans (readGroups declared k) (Phrase.groups k) where
  sound {ls ts ls'} := by
    -- along the turns
    suffices ∀ (x : Nat × Lines) (ts : List Transition),
        readGroups declared x.1 x.2 = .ok (ts, ls') →
        ∃ S, Phrase.groups x.1 S ts ∧ view x.2 = S.map Prod.snd ++ view ls' from this (k, ls) ts
    intro x
    induction x using wellFounded_turn.induction with
    | _ x ih =>
      intro ts h
      by_cases hx : x.1 = 0
      case pos =>
        rw [hx, readGroups] at h
        obtain ⟨rfl, hls⟩ := Prod.mk.inj (Except.ok.inj h)
        exact ⟨[], ⟨[], .nil, hx.symm, rfl⟩, by rw [hls]; rfl⟩
      case neg =>
        obtain ⟨g, y, hturn⟩ := exists_turn_of_readGroups hx h
        rw [readGroups_of_turn hturn] at h
        obtain ⟨⟨us, ls₁⟩, hrest, h⟩ := bind_eq_ok_iff.mp h
        obtain ⟨rfl, rfl⟩ := Prod.mk.inj (Except.ok.inj h)
        obtain ⟨S, ⟨gs, hgs, hnum, rfl⟩, hview⟩ := ih y ⟨g, hturn⟩ us hrest
        obtain ⟨ends, hg⟩ := placed_of_readGroup hturn.1
        exact ⟨g.placed ends ++ S, ⟨g :: gs, .cons g ends hgs, by rw [hturn.2, numTargets, hnum],
          rfl⟩, by rw [hg, hview, List.map_append, List.append_assoc]⟩
  complete := by
    rintro ls S ts R ⟨gs, hgs, rfl, rfl⟩ hview
    obtain ⟨ls', hview', hread⟩ := readGroups_of_isGroups hgs declared 0 hview
    refine ⟨ls', ?_, hview'⟩
    rw [← Nat.add_zero (numTargets gs), hread, readGroups]
    exact congrArg Except.ok (by rw [List.append_nil])

/-! ## Failing in the loop -/

/-- A reading that fails in the transitions of a listing. -/
theorem readDraft_eq_error_of_readTransitions {τ : Type} [Layout τ] [Target τ] {t : String}
    {A : List (Item × Placed)} {states : List String} {symbols : List Symbol} {k : Nat}
    {R : List Placed} {e : ListingError} (hA : IsOpening A states symbols k)
    (hview : view (Lines.ofText t) = A.map Prod.snd ++ R)
    (h : ∀ ls, view ls = R → Layout.readTransitions τ k ls = .error e) :
    readDraft τ t = .error e := by
  obtain ⟨ls, hread, hls⟩ := reports_readOpening.complete (Phrase.opening_iff.mpr hA) hview
  rw [readDraft_eq, readContents, hread]
  change (Layout.readTransitions τ k ls >>= _) >>= _ = _
  rw [h ls hls]
  rfl

/-- **The groups that stand first are read, and then the loop does what it does on the rest.** -/
theorem readGroups_eq_error {S : List (Item × Placed)} {gs : List Group} {declared k : Nat}
    {R : List Placed} {e : ListingError} (hS : IsGroups S gs) (hk : numTargets gs < k)
    (h : ∀ ls, view ls = R → readGroups declared (k - numTargets gs) ls = .error e) {ls : Lines}
    (hview : view ls = S.map Prod.snd ++ R) : readGroups declared k ls = .error e := by
  obtain ⟨ls', hls', hread⟩ := readGroups_of_isGroups hS declared (k - numTargets gs) hview
  rw [← Nat.add_sub_cancel' hk.le, hread, h ls' hls']
  rfl

end Automata.Listing

namespace Automata.Nfa

open Listing Text

/-- Every transition that is declared is recorded. -/
theorem transitions_draft_list (c : Contents) :
    (c.draft (List StateId)).transitions = c.transitions :=
  (Contents.transitions_draft _ c).trans
    (Draft.foldl_recordTransition_eq fun h => absurd h (by decide))

/-- **A branching automaton loads exactly from its listings by groups**, as the draft that they
declare, whose transitions are those of the groups in the order of reading and as many as declared.
A symbol that ends its line where targets are to come is reported as the end of the input, and a
group that brings the targets above the declared number as this number.  No text keeps the loop over
the groups turning: each turn takes a group off, and where there is none to take although targets
are to come, reading fails. -/
theorem readDraft_of_isGroups (t : String) :
    (∀ b : Draft (List StateId), readDraft (List StateId) t = .ok b ↔
      ∃ (A B C : List (Item × Placed)) (k : Nat) (gs : List Group) (c : Contents),
        IsOpening A c.states c.symbols k ∧ IsGroups B gs ∧ numTargets gs = k ∧
        IsClosing C c.initial c.finals ∧ view (Lines.ofText t) = (A ++ B ++ C).map Prod.snd ∧
        c.transitions = gs.flatMap Group.transitions ∧ b = c.draft (List StateId) ∧
        b.transitions = gs.flatMap Group.transitions ∧ b.transitions.length = k) ∧
    (∀ (A B : List (Item × Placed)) (states : List String) (symbols : List Symbol) (k : Nat)
        (gs : List Group), IsOpening A states symbols k → IsGroups B gs → numTargets gs < k →
      (∀ (p : String) (ends : Bool) (a : Symbol) (W : List Placed),
        view (Lines.ofText t) =
          (A ++ B).map Prod.snd ++ ⟨p, ends⟩ :: ⟨a.toString, true⟩ :: W →
        readDraft (List StateId) t = .error (.endOfInput .targets)) ∧
      (∀ (g : Group) (ends : Bool) (W : List Placed), k < numTargets gs + g.targets.length →
        view (Lines.ofText t) = (A ++ B ++ g.placed ends).map Prod.snd ++ W →
        readDraft (List StateId) t = .error (.invalidCount (Numeral.write k)))) ∧
    (WellFounded fun y x => ∃ g, Turn g x y) ∧
    ∀ (declared : Nat) (x : Nat × Lines), x.1 ≠ 0 →
      (∀ g y, Turn g x y → readGroups declared x.1 x.2 =
        readGroups declared y.1 y.2 >>= fun s => .ok (g.transitions ++ s.1, s.2)) ∧
      ((∀ g y, ¬ Turn g x y) → ∃ e, readGroups declared x.1 x.2 = .error e) := by
  refine ⟨fun b => ?loads, fun A B states symbols k gs hA hB hk => ⟨?missing, ?overrun⟩,
    wellFounded_turn, fun declared x hx => ⟨fun g y h => readGroups_of_turn h declared,
    fun hturn => ?ends⟩⟩
  case loads =>
    rw [readDraft_eq_ok_iff fun k => scans_readGroups k k]
    constructor
    · rintro ⟨S, c, ⟨A, _, ⟨states, symbols, k⟩, rfl, hA, B, C, ts, rfl, ⟨gs, hB, rfl, rfl⟩,
        ⟨initial, finals⟩, hC, rfl⟩, hview, rfl⟩
      refine ⟨A, B, C, _, gs, _, Phrase.opening_iff.mp hA, hB, rfl, Phrase.closing_iff.mp hC,
        by simpa using hview, rfl, rfl, transitions_draft_list _, ?_⟩
      rw [transitions_draft_list, length_flatMap_transitions]
    · rintro ⟨A, B, C, _, gs, c, hA, hB, rfl, hC, hview, hts, rfl, -⟩
      exact ⟨_, c, ⟨A, _, (c.states, c.symbols, numTargets gs), rfl, Phrase.opening_iff.mpr hA, B,
        _, c.transitions, rfl, ⟨gs, hB, rfl, hts⟩, (c.initial, c.finals), Phrase.closing_iff.mpr hC,
        rfl⟩, by simpa using hview, rfl⟩
  case missing =>
    intro p ends a W hview
    rw [List.map_append, List.append_assoc] at hview
    refine readDraft_eq_error_of_readTransitions hA hview fun ls hls => ?_
    refine readGroups_eq_error hB hk (fun ls' hls' => ?_) hls
    obtain ⟨n, hn⟩ := Nat.exists_eq_add_one_of_ne_zero (Nat.sub_ne_zero_of_lt hk)
    rw [hn, readGroups_succ, readGroup_of_isLast hls']
    rfl
  case overrun =>
    intro g ends W hlt hview
    rw [List.map_append, List.map_append, List.append_assoc, List.append_assoc] at hview
    refine readDraft_eq_error_of_readTransitions hA hview fun ls hls => ?_
    refine readGroups_eq_error hB hk (fun ls' hls' => ?_) hls
    obtain ⟨n, hn⟩ := Nat.exists_eq_add_one_of_ne_zero (Nat.sub_ne_zero_of_lt hk)
    obtain ⟨ls₁, hread, -⟩ := readGroup_of_placed hls'
    rw [hn, readGroups_succ, hread]
    exact if_pos (show n + 1 < g.targets.length by omega)
  case ends =>
    cases h : readGroups declared x.1 x.2 with
    | error e => exact ⟨e, rfl⟩
    | ok r =>
        obtain ⟨g, y, hgy⟩ := exists_turn_of_readGroups hx h
        exact absurd hgy (hturn g y)

/-- A state `q0` that goes to itself on `a`, twice. -/
def twice : Group := ⟨"q0", 'a', ["q0", "q0"], List.cons_ne_nil _ _⟩

/-- What a listing of one state and one symbol opens with, the number of its transitions on a line
by itself. -/
def twiceOpening (k : String) : List (Item × Placed) :=
  [(.stateCount, ⟨"1", false⟩), (.state, ⟨"q0", true⟩), (.symbolCount, ⟨"1", false⟩),
    (.symbol, ⟨"a", true⟩), (.transitionCount, ⟨k, true⟩)]

theorem isOpening_twiceOpening {k : String} {n : Nat} (hk : Numeral.Denotes k n) :
    IsOpening (twiceOpening k) ["q0"] ['a'] n :=
  have hone : Numeral.Denotes "1" 1 := Numeral.read?_eq_some_iff.mp (by decide)
  ⟨"1", "1", k, hone, hone, hk, rfl⟩

/-- A group spread over two lines; one that is cut before its targets; and one with a target too
many. -/
theorem readDraft_of_isGroups_twice :
    readDraft (List StateId) "1 q0\n1 a\n2\nq0\na q0 q0\nq0 0" = .ok (Contents.draft (List StateId)
      ⟨["q0"], ['a'], [⟨"q0", 'a', "q0"⟩, ⟨"q0", 'a', "q0"⟩], "q0", []⟩) ∧
    readDraft (List StateId) "1 q0\n1 a\n1\nq0 a\nq0 q0 0" = .error (.endOfInput .targets) ∧
    readDraft (List StateId) "1 q0\n1 a\n1\nq0 a q0 q0\nq0 0" = .error (.invalidCount "1") ∧
    ∃ e, readGroups 1 1 [] = .error e := by
  have hzero : Numeral.Denotes "0" 0 := Numeral.read?_eq_some_iff.mp (by decide)
  have hone := isOpening_twiceOpening (Numeral.read?_eq_some_iff.mp (by decide :
    Numeral.read? "1" = some 1))
  have htwo := isOpening_twiceOpening (Numeral.read?_eq_some_iff.mp (by decide :
    Numeral.read? "2" = some 2))
  refine ⟨((readDraft_of_isGroups _).1 _).mpr ?_,
    ((readDraft_of_isGroups _).2.1 _ [] _ _ 1 [] hone .nil (by decide)).1 "q0" false 'a'
      [⟨"q0", false⟩, ⟨"q0", false⟩, ⟨"0", true⟩] (by decide),
    ((readDraft_of_isGroups _).2.1 _ [] _ _ 1 [] hone .nil (by decide)).2 twice false
      [⟨"q0", false⟩, ⟨"0", true⟩] (by decide) (by decide),
    ((readDraft_of_isGroups "").2.2.2 1 (1, []) (by decide)).2
      fun _ _ h => absurd h.1 (by simp [readGroup, next, bind, Except.bind])⟩
  exact ⟨twiceOpening "2", twice.placed true ++ [],
    [(.initial, ⟨"q0", false⟩), (.finalCount, ⟨"0", true⟩)], 2, [twice],
    ⟨["q0"], ['a'], twice.transitions, "q0", []⟩, htwo, .cons twice true .nil, rfl,
    ⟨"0", hzero, rfl⟩, by decide, rfl, rfl, rfl, rfl⟩

end Automata.Nfa
