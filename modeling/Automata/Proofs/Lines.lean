import Automata.Text.Lines

/-!
# Proofs/Lines — lines of tokens read back

Every token of a text is one stretch without white space (`Lines.areTokens_ofText`), and lines of
such tokens are cut out of the text they are written as (`Lines.ofText_toText`); what remains
behind the last end of a line is one more line, and empty.
-/

namespace Automata.Text

/-- **What can stand as one token** — at least one character, and no white space. -/
def IsToken (s : String) : Prop := s ≠ "" ∧ ∀ c ∈ s.toList, isBlank c = false

instance (s : String) : Decidable (IsToken s) :=
  decidable_of_iff (s ≠ "" ∧ s.toList.all (fun c => !isBlank c) = true) (by simp [IsToken])

/-- All of them can stand as one token. -/
def Lines.AreTokens (ls : Lines) : Prop := ∀ l ∈ ls, ∀ s ∈ l, IsToken s

theorem isToken_toString {c : Char} (h : isBlank c = false) : IsToken c.toString := by
  refine ⟨fun e => absurd (congrArg String.toList e) (by simp [Char.toString]), fun d hd => ?_⟩
  obtain rfl : d = c := by simpa [Char.toString] using hd
  exact h

theorem isBlank_eq_false_of_isDigit {c : Char} (h : c.isDigit = true) : isBlank c = false := by
  have hrange : 48 ≤ c.toNat ∧ c.toNat ≤ 57 := by
    simpa [Char.isDigit, UInt32.le_iff_toNat_le] using h
  rw [isBlank]
  generalize c.toNat = n at hrange
  simp
  omega

/-- Numbers in decimal are tokens. -/
theorem isToken_repr (n : Nat) : IsToken n.repr := by
  refine ⟨Nat.repr_ne_empty, fun c hc => isBlank_eq_false_of_isDigit ?_⟩
  rw [Nat.toList_repr] at hc
  exact Nat.isDigit_of_mem_toDigits (by decide) (by decide) hc

/-! ## Tokens of a text -/

/-- No separator is left in a piece. -/
theorem isSeparator_eq_false_of_mem_pieces {isSeparator : Char → Bool} {p : List Char} {c : Char} :
    ∀ {cs : List Char}, p ∈ pieces isSeparator cs → c ∈ p → isSeparator c = false
  | [], hp, hc => by
      rw [pieces, List.mem_singleton] at hp
      subst hp
      exact absurd hc List.not_mem_nil
  | d :: cs, hp, hc => by
      rw [pieces] at hp
      split at hp
      · rcases List.mem_cons.mp hp with rfl | hp
        · exact absurd hc List.not_mem_nil
        · exact isSeparator_eq_false_of_mem_pieces hp hc
      · rename_i hd
        obtain ⟨q, qs, h⟩ := List.exists_cons_of_ne_nil (@pieces_ne_nil isSeparator cs)
        rw [h] at hp
        have hq : ∀ r ∈ q :: qs, c ∈ r → isSeparator c = false := fun r hr =>
          isSeparator_eq_false_of_mem_pieces (h ▸ hr)
        rcases List.mem_cons.mp hp with rfl | hp
        · rcases List.mem_cons.mp hc with rfl | hc
          · exact Bool.eq_false_iff.mpr hd
          · exact hq q List.mem_cons_self hc
        · exact hq p (List.mem_cons_of_mem _ hp) hc

theorem isToken_of_mem_tokens {s : String} {cs : List Char} (h : s ∈ tokens cs) : IsToken s := by
  obtain ⟨p, hp, rfl⟩ := List.mem_map.mp h
  obtain ⟨hp, hne⟩ := List.mem_filter.mp hp
  refine ⟨fun e => ?_, fun c hc => ?_⟩
  · rw [String.ofList_eq_empty_iff.mp e] at hne
    exact absurd hne (by decide)
  · exact isSeparator_eq_false_of_mem_pieces hp (by simpa using hc)

/-- **All tokens of a text are tokens.** -/
theorem Lines.areTokens_ofText (t : String) : (Lines.ofText t).AreTokens := by
  intro l hl s hs
  obtain ⟨cs, -, rfl⟩ := List.mem_map.mp hl
  exact isToken_of_mem_tokens hs

/-! ## Written lines -/

/-- The tokens of a line stand one blank apart. -/
theorem tokens_intercalate : ∀ {l : List String}, (∀ s ∈ l, IsToken s) →
    tokens (List.intercalate [' '] (l.map String.toList)) = l
  | [], _ => rfl
  | [s], h => by
      obtain ⟨hne, hblank⟩ := h s List.mem_cons_self
      simpa using tokens_eq_singleton hne hblank
  | s :: r :: l, h => by
      obtain ⟨hne, hblank⟩ := h s List.mem_cons_self
      have ih := tokens_intercalate fun t ht => h t (List.mem_cons_of_mem s ht)
      rw [List.map_cons, List.map_cons, List.intercalate_cons_cons, List.append_assoc,
        List.singleton_append, tokens_append (by decide), tokens_eq_singleton hne hblank,
        ← List.map_cons, ih, List.singleton_append]

theorem mem_intercalate {α : Type} {sep : List α} {c : α} : ∀ {xs : List (List α)},
    c ∈ sep.intercalate xs → c ∈ sep ∨ ∃ x ∈ xs, c ∈ x
  | [], h => absurd h List.not_mem_nil
  | [x], h => .inr ⟨x, List.mem_cons_self, by simpa using h⟩
  | x :: y :: xs, h => by
      rw [List.intercalate_cons_cons, List.append_assoc, List.mem_append, List.mem_append] at h
      rcases h with h | h | h
      · exact .inr ⟨x, List.mem_cons_self, h⟩
      · exact .inl h
      · exact (mem_intercalate h).imp_right fun ⟨z, hz, hc⟩ => ⟨z, List.mem_cons_of_mem x hz, hc⟩

/-- No end of a line is written within a line. -/
theorem ne_newline_of_mem_intercalate {l : List String} {c : Char} (h : ∀ s ∈ l, IsToken s)
    (hc : c ∈ List.intercalate [' '] (l.map String.toList)) : c ≠ '\n' := by
  rintro rfl
  rcases mem_intercalate hc with hc | ⟨x, hx, hc⟩
  · exact absurd hc (by decide)
  · obtain ⟨s, hs, rfl⟩ := List.mem_map.mp hx
    exact absurd ((h s hs).2 '\n' hc) (by decide)

/-- **Written lines are read back**, and one empty line behind them. -/
theorem Lines.ofText_toText {ls : Lines} (h : ls.AreTokens) :
    Lines.ofText ls.toText = ls ++ [[]] := by
  rw [Lines.ofText, Lines.toText, String.toList_ofList]
  induction ls with
  | nil => rfl
  | cons l ls ih =>
      have hl : ∀ s ∈ l, IsToken s := h l List.mem_cons_self
      have hline : ∀ c ∈ List.intercalate [' '] (l.map String.toList), (c == '\n') = false :=
        fun c hc => beq_eq_false_iff_ne.mpr (ne_newline_of_mem_intercalate hl hc)
      rw [List.flatMap_cons, writeLine, List.append_assoc, List.singleton_append,
        pieces_append (by rfl), pieces_eq_singleton hline, List.map_append, List.map_singleton,
        tokens_intercalate hl, ih fun l hl => h l (List.mem_cons_of_mem _ hl)]
      rfl

end Automata.Text
