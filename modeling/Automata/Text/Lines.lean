import Automata.Text.Blank

/-!
# Text/Lines — a text as lines of tokens

A text is cut into lines at the ends of lines and each line into tokens at white space; empty
pieces are no tokens, so layout carries no meaning beyond the division into lines.  `pieces_append`
is the one equation that everything about cutting follows from.
-/

namespace Automata.Text

/-- The pieces that separators cut a text into, one more than there are separators. -/
def pieces (isSeparator : Char → Bool) : List Char → List (List Char)
  | [] => [[]]
  | c :: cs =>
    if isSeparator c then [] :: pieces isSeparator cs
    else match pieces isSeparator cs with
      | [] => [[c]]
      | p :: ps => (c :: p) :: ps

/-- The tokens of a text: its longest stretches without white space. -/
def tokens (cs : List Char) : List String :=
  ((pieces isBlank cs).filter fun p => !p.isEmpty).map String.ofList

/-- The tokens of each line. -/
abbrev Lines := List (List String)

/-- Cuts a text into lines of tokens. -/
def Lines.ofText (t : String) : Lines := (pieces (· == '\n') t.toList).map tokens

/-- A line as it is written: its tokens one blank apart, and the end of the line. -/
def writeLine (l : List String) : List Char :=
  List.intercalate [' '] (l.map String.toList) ++ ['\n']

/-- Writes lines of tokens. -/
def Lines.toText (ls : Lines) : String := String.ofList (ls.flatMap writeLine)

/-! ## Cutting -/

section

variable {isSeparator : Char → Bool}

theorem pieces_ne_nil : ∀ cs : List Char, pieces isSeparator cs ≠ []
  | [] => by simp [pieces]
  | c :: cs => by
      rw [pieces]
      split
      · simp
      · split <;> simp

/-- **A separator divides what stands before it from what stands behind it.** -/
theorem pieces_append {c : Char} (hc : isSeparator c = true) (y : List Char) :
    ∀ x : List Char, pieces isSeparator (x ++ c :: y) = pieces isSeparator x ++ pieces isSeparator y
  | [] => by simp [pieces, hc]
  | b :: x => by
      rw [List.cons_append, pieces, pieces, pieces_append hc y x]
      split
      · rfl
      · obtain ⟨p, ps, h⟩ := List.exists_cons_of_ne_nil (@pieces_ne_nil isSeparator x)
        simp [h]

/-- A text without separators is one piece. -/
theorem pieces_eq_singleton : ∀ {x : List Char}, (∀ c ∈ x, isSeparator c = false) →
    pieces isSeparator x = [x]
  | [], _ => rfl
  | c :: x, h => by
      rw [pieces, pieces_eq_singleton fun d hd => h d (List.mem_cons_of_mem _ hd),
        if_neg (by simp [h c List.mem_cons_self])]

end

/-- White space divides the tokens before it from those behind it. -/
theorem tokens_append {c : Char} (hc : isBlank c = true) (x y : List Char) :
    tokens (x ++ c :: y) = tokens x ++ tokens y := by
  simp [tokens, pieces_append hc]

/-- A stretch without white space is one token. -/
theorem tokens_eq_singleton {s : String} (hne : s ≠ "") (h : ∀ c ∈ s.toList, isBlank c = false) :
    tokens s.toList = [s] := by
  have : s.toList ≠ [] := fun e => hne (String.toList_eq_nil_iff.mp e)
  simp [tokens, pieces_eq_singleton h, this]

end Automata.Text
