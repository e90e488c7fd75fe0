import Automata.Proofs.Indexed.Register

/-!
# Proofs/Validation — a draft is checked for all that was declared, and reports what is wrong first

A draft remembers its declarations (`Draft.remembers_ofDeclarations`): labels, symbols and final
states each once, the last initial state, and the transitions, where only the first from a state on
a symbol counts if there may be no more than one.  `Draft.FirstViolation` says what is wrong with it
first — the initial state, then the final states, then the transitions, each from source to target —
without a word on how it is checked.  That is what verifying and building report
(`Draft.verify_eq_error_iff`), whether the draft is searched or its register is.
-/

namespace Automata

variable {τ : Type}

namespace Draft

/-! ## What a draft remembers -/

/-- **A draft remembers what was declared, in order.** -/
structure Remembers [Target τ] (b : Draft τ) (l : List Declaration) : Prop where
  mem_states_iff : ∀ k, k ∈ b.states ↔ .state k ∈ l
  mem_alphabet_iff : ∀ a, a ∈ b.alphabet ↔ .symbol a ∈ l
  initial_eq : b.initial = (l.filterMap Declaration.initial?).getLast?
  mem_finals_iff : ∀ k, k ∈ b.finals ↔ .final k ∈ l
  nodup_finals : b.finals.Nodup
  mem_transitions_iff : ∀ t, t ∈ b.transitions ↔
    ∃ before after, l = before ++ .transition t :: after ∧
      (Target.branching τ = true ∨ ∀ u, .transition u ∈ before → u.key ≠ t.key)
  finals_prefix : ∀ l₁ l₂, l = l₁ ++ l₂ → (ofDeclarations l₁ : Draft τ).finals <+: b.finals
  transitions_prefix : ∀ l₁ l₂, l = l₁ ++ l₂ →
    (ofDeclarations l₁ : Draft τ).transitions <+: b.transitions

variable [Target τ] (l : List Declaration)

theorem ofDeclarations_append (l₁ l₂ : List Declaration) :
    (ofDeclarations (l₁ ++ l₂) : Draft τ) = (ofDeclarations l₁).declareAll l₂ :=
  List.foldl_append

/-- The last initial state is kept. -/
theorem foldl_some_eq (o : Option String) :
    ∀ m : List String, m.foldl (fun _ k => some k) o = m.getLast?.or o
  | [] => rfl
  | k :: m => by
      rw [List.foldl_cons, foldl_some_eq (some k) m, List.getLast?_cons]
      cases m.getLast? <;> rfl

theorem mem_transitions_ofDeclarations_iff {t : Transition} :
    t ∈ (ofDeclarations l : Draft τ).transitions ↔
      ∃ before after, l = before ++ .transition t :: after ∧
        (Target.branching τ = true ∨ ∀ u, .transition u ∈ before → u.key ≠ t.key) := by
  rw [ofDeclarations, transitions_declareAll, foldl_recordTransition]
  cases Target.branching τ with
  | true =>
      simp only [if_true, true_or, and_true, List.nil_append]
      rw [Declaration.mem_filterMap_iff Declaration.transition?_eq_some_iff, List.mem_iff_append]
  | false =>
      simp only [Bool.false_eq_true, if_false, false_or]
      rw [mem_foldl_appendFresh_iff, or_iff_right List.not_mem_nil,
        ← Declaration.exists_filterMap_eq_append_cons Declaration.transition?_eq_some_iff]
      simp only [List.nil_append, List.mem_map, not_exists, not_and, ne_eq]

/-- **Whatever the declarations, the draft remembers them.** -/
theorem remembers_ofDeclarations : (ofDeclarations l : Draft τ).Remembers l where
  mem_states_iff k := by
    rw [ofDeclarations, states_declareAll, mem_foldl_appendNew, or_iff_right List.not_mem_nil,
      Declaration.mem_filterMap_iff Declaration.state?_eq_some_iff]
  mem_alphabet_iff a := by
    rw [ofDeclarations, alphabet_declareAll, SortedSet.mem_insertAll,
      or_iff_right (SortedSet.not_mem_empty a),
      Declaration.mem_filterMap_iff Declaration.symbol?_eq_some_iff]
  initial_eq := by
    rw [ofDeclarations, initial_declareAll, foldl_some_eq]
    exact Option.or_none
  mem_finals_iff k := by
    rw [ofDeclarations, finals_declareAll, mem_foldl_appendNew, or_iff_right List.not_mem_nil,
      Declaration.mem_filterMap_iff Declaration.final?_eq_some_iff]
  nodup_finals := by
    rw [ofDeclarations, finals_declareAll, appendNew_eq]
    simpa using nodup_foldl_appendFresh id (l.filterMap Declaration.final?) (l := []) (by simp)
  mem_transitions_iff _ := mem_transitions_ofDeclarations_iff l
  finals_prefix l₁ l₂ h := by
    rw [h, ofDeclarations_append, finals_declareAll, appendNew_eq]
    exact prefix_foldl_appendFresh id _ _
  transitions_prefix l₁ l₂ h := by
    rw [h, ofDeclarations_append, transitions_declareAll, foldl_recordTransition]
    split
    · exact List.prefix_append _ _
    · exact prefix_foldl_appendFresh Transition.key _ _

/-! ## What is wrong first -/

/-- A transition refers to what was declared. -/
structure Resolves (b : Draft τ) (t : Transition) : Prop where
  source : t.source ∈ b.states
  symbol : t.symbol ∈ b.alphabet
  target : t.target ∈ b.states

/-- **A draft refers to what was declared.** -/
structure Resolved (b : Draft τ) : Prop where
  initial : ∃ k, b.initial = some k ∧ k ∈ b.states
  finals : ∀ k ∈ b.finals, k ∈ b.states
  transitions : ∀ t ∈ b.transitions, b.Resolves t

/-- What is wrong first with a transition. -/
inductive FirstUnresolved (b : Draft τ) (t : Transition) : Defect → Prop
  | source (hs : t.source ∉ b.states) : FirstUnresolved b t (.unknownSource t.source)
  | symbol (hs : t.source ∈ b.states) (ha : t.symbol ∉ b.alphabet) :
      FirstUnresolved b t (.unknownSymbol t.source t.symbol)
  | target (hs : t.source ∈ b.states) (ha : t.symbol ∈ b.alphabet) (ht : t.target ∉ b.states) :
      FirstUnresolved b t (.unknownTarget t.source t.symbol t.target)

/-- **What is wrong first with a draft** — the initial state, the first of the final states, or the
first of the transitions, where all before is as it should be. -/
inductive FirstViolation (b : Draft τ) : Defect → Prop
  | missingInitial (hi : b.initial = none) : FirstViolation b .missingInitial
  | unknownInitial {i : String} (hi : b.initial = some i) (hs : i ∉ b.states) :
      FirstViolation b (.unknownInitial i)
  | unknownFinal {i k : String} {before after : List String} (hi : b.initial = some i)
      (hs : i ∈ b.states) (hfinals : b.finals = before ++ k :: after)
      (hbefore : ∀ j ∈ before, j ∈ b.states) (hk : k ∉ b.states) :
      FirstViolation b (.unknownFinal k)
  | transition {i : String} {t : Transition} {e : Defect} {before after : List Transition}
      (hi : b.initial = some i) (hs : i ∈ b.states) (hfinals : ∀ k ∈ b.finals, k ∈ b.states)
      (htransitions : b.transitions = before ++ t :: after)
      (hbefore : ∀ u ∈ before, b.Resolves u) (he : b.FirstUnresolved t e) :
      FirstViolation b e

variable {b : Draft τ} {t : Transition} {e : Defect}

omit [Target τ]

theorem resolves_iff : b.Resolves t ↔ b.transitionDefects t = [] := by
  rw [transitionDefects_eq_nil_iff]
  exact ⟨fun h => ⟨h.source, h.symbol, h.target⟩, fun ⟨hs, ha, ht⟩ => ⟨hs, ha, ht⟩⟩

theorem isValid_iff_resolved : b.isValid = true ↔ b.Resolved := by
  rw [isValid, List.isEmpty_iff, defects_eq_nil_iff]
  simp only [← transitionDefects_eq_nil_iff, ← resolves_iff]
  constructor
  · rintro ⟨hi, hf, ht⟩
    exact ⟨hi, hf, ht⟩
  · exact fun h => ⟨h.initial, h.finals, h.transitions⟩

theorem head?_transitionDefects_iff :
    (b.transitionDefects t).head? = some e ↔ b.FirstUnresolved t e := by
  constructor
  · intro h
    by_cases hs : t.source ∈ b.states
    case neg =>
      obtain rfl : .unknownSource t.source = e := by simpa [transitionDefects, knows, hs] using h
      exact .source hs
    by_cases ha : t.symbol ∈ b.alphabet
    case neg =>
      obtain rfl : .unknownSymbol t.source t.symbol = e := by
        simpa [transitionDefects, knows, hs, ha] using h
      exact .symbol hs ha
    by_cases ht : t.target ∈ b.states
    case pos => simp [transitionDefects, knows, hs, ha, ht] at h
    obtain rfl : .unknownTarget t.source t.symbol t.target = e := by
      simpa [transitionDefects, knows, hs, ha, ht] using h
    exact .target hs ha ht
  · rintro (hs | ⟨hs, ha⟩ | ⟨hs, ha, ht⟩)
    · simp [transitionDefects, knows, hs]
    · simp [transitionDefects, knows, hs, ha]
    · simp [transitionDefects, knows, hs, ha, ht]

theorem head?_initialDefects_iff : b.initialDefects.head? = some e ↔
    b.initial = none ∧ e = .missingInitial ∨
      ∃ i, b.initial = some i ∧ i ∉ b.states ∧ e = .unknownInitial i := by
  rw [initialDefects]
  cases b.initial with
  | none => simp [eq_comm]
  | some i => by_cases hi : i ∈ b.states <;> simp [knows, hi, eq_comm]

theorem head?_finalDefects_iff : b.finalDefects.head? = some e ↔
    ∃ before k after, b.finals = before ++ k :: after ∧ (∀ j ∈ before, j ∈ b.states) ∧
      k ∉ b.states ∧ e = .unknownFinal k := by
  rw [finalDefects, List.head?_map, List.head?_filter]
  simp only [Option.map_eq_some_iff, List.find?_eq_some_iff_append, knows, Bool.not_not,
    decide_eq_true_eq, Bool.not_eq_true', decide_eq_false_iff_not]
  constructor
  · rintro ⟨k, ⟨hk, before, after, hf, hb⟩, rfl⟩
    exact ⟨before, k, after, hf, hb, hk, rfl⟩
  · rintro ⟨before, k, after, hf, hb, hk, rfl⟩
    exact ⟨k, ⟨hk, before, after, hf, hb⟩, rfl⟩

/-- **The first defect is what is wrong first.** -/
theorem head?_defects_iff : b.defects.head? = some e ↔ b.FirstViolation e := by
  simp only [defects, List.head?_append, Option.or_eq_some_iff, Option.or_eq_none_iff,
    List.head?_eq_none_iff, List.head?_flatMap, List.findSome?_eq_some_iff,
    ← resolves_iff, head?_transitionDefects_iff, head?_initialDefects_iff,
    initialDefects_eq_nil_iff, head?_finalDefects_iff, finalDefects_eq_nil_iff]
  constructor
  · rintro (((⟨hi, rfl⟩ | ⟨i, hi, hs, rfl⟩) | ⟨⟨i, hi, hs⟩, before, k, after, hf, hb, hk, rfl⟩) |
      ⟨⟨⟨i, hi, hs⟩, hf⟩, before, t, after, ht, he, hb⟩)
    · exact .missingInitial hi
    · exact .unknownInitial hi hs
    · exact .unknownFinal hi hs hf hb hk
    · exact .transition hi hs hf ht hb he
  · intro h
    cases h with
    | missingInitial hi => exact .inl (.inl (.inl ⟨hi, rfl⟩))
    | unknownInitial hi hs => exact .inl (.inl (.inr ⟨_, hi, hs, rfl⟩))
    | unknownFinal hi hs hf hb hk =>
        exact .inl (.inr ⟨⟨_, hi, hs⟩, _, _, _, hf, hb, hk, rfl⟩)
    | transition hi hs hf ht hb he => exact .inr ⟨⟨⟨_, hi, hs⟩, hf⟩, _, _, _, ht, he, hb⟩

theorem verify_eq_error_iff : b.verify = .error e ↔ b.FirstViolation e := by
  rw [← head?_defects_iff, verify]
  cases b.defects <;> simp

/-- Building fails as verifying does. -/
theorem build_eq_error_iff [Target τ] : b.build = .error e ↔ b.verify = .error e := by
  rw [build]
  cases b.verify <;> simp [Except.map]

theorem exists_build_eq_ok_iff [Target τ] : (∃ m, b.build = .ok m) ↔ b.verify = .ok () := by
  rw [build]
  cases b.verify <;> simp [Except.map]

end Draft

/-- **A draft is built exactly when all it refers to was declared, and otherwise reports what is
wrong first** — for every list of declarations, whether a draft is searched or a register of it. -/
theorem build_ofDeclarations [Target τ] (l : List Declaration) :
    let b : Draft τ := .ofDeclarations l
    let r : Register τ := .ofDeclarations l
    b.Remembers l ∧ r.verify = b.verify ∧ r.build = b.build ∧
    ((∃ m, b.build = .ok m) ↔ b.verify = .ok ()) ∧ (b.verify = .ok () ↔ b.isValid = true) ∧
    (b.isValid = true ↔ b.Resolved) ∧
    ∀ e, (b.verify = .error e ↔ b.FirstViolation e) ∧
      (b.build = .error e ↔ b.FirstViolation e) := by
  intro b r
  have hmirrors := Register.mirrors_ofDeclarations (τ := τ) l
  exact ⟨Draft.remembers_ofDeclarations l, Register.verify_eq hmirrors, Register.build_eq hmirrors,
    Draft.exists_build_eq_ok_iff, b.verify_eq_ok_iff, Draft.isValid_iff_resolved, fun e =>
    ⟨Draft.verify_eq_error_iff, Draft.build_eq_error_iff.trans Draft.verify_eq_error_iff⟩⟩

/-- Declarations that refer to a state `B`, a symbol `b` and a state `C`, none of them declared. -/
def unfinished : List Declaration :=
  [.transition ⟨"A", 'b', "C"⟩, .final "B", .symbol 'a', .state "A", .initial "A"]

/-- The final state is reported before the transition, and the symbol before the target. -/
theorem build_ofDeclarations_unfinished :
    (Draft.ofDeclarations unfinished : Draft StateId).build = .error (.unknownFinal "B") ∧
    (Draft.ofDeclarations (unfinished ++ [.state "B"]) : Draft (List StateId)).build =
      .error (.unknownSymbol "A" 'b') := by
  obtain ⟨-, -, -, -, -, -, hfirst⟩ := build_ofDeclarations (τ := StateId) unfinished
  obtain ⟨-, -, -, -, -, -, hsecond⟩ :=
    build_ofDeclarations (τ := List StateId) (unfinished ++ [.state "B"])
  refine ⟨(hfirst _).2.mpr ?_, (hsecond _).2.mpr ?_⟩
  · exact @Draft.FirstViolation.unknownFinal _ _ "A" "B" [] [] rfl (by decide) rfl nofun (by decide)
  · exact @Draft.FirstViolation.transition _ _ "A" ⟨"A", 'b', "C"⟩ _ [] [] rfl (by decide)
      (by decide) rfl nofun (.symbol (by decide) (by decide))

end Automata
