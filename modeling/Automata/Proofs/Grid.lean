import Automata.Proofs.Indexed.Labels
import Automata.Proofs.Lines
import Mathlib.Algebra.Order.BigOperators.Group.List
import Mathlib.Algebra.Ring.Nat

/-!
# Proofs/Grid — the lines of a table and how long they are

A table measures its columns in bytes and fills them up by characters.  A text has no more
characters than bytes (`length_le_utf8ByteSize`), so what is measured always fits, and the lines of
a table differ in length only where a column is narrower than the one character of its symbol
(`Machine.rectangular_gridLines_iff`).  The columns of a nondeterministic automaton never are; those
of a deterministic one are where all of its labels are empty: `display_consistsOf`.
-/

namespace Automata

/-! ## Lines of a text -/

namespace Text

/-- No line ends within a text. -/
def Unbroken (s : String) : Prop := '\n' ∉ s.toList

instance (s : String) : Decidable (Unbroken s) := inferInstanceAs (Decidable (¬ _))

/-- **A text consists of some lines** — cut at the ends of lines it falls into them, and nothing
stands behind the last. -/
def ConsistsOf (t : String) (lines : List String) : Prop :=
  pieces (· == '\n') t.toList = lines.map String.toList ++ [[]]

variable {s t : String} {l : List String}

theorem unbroken_append : Unbroken (s ++ t) ↔ Unbroken s ∧ Unbroken t := by
  rw [Unbroken, String.toList_append, List.mem_append, not_or]
  rfl

theorem unbroken_join : Unbroken (String.join l) ↔ ∀ s ∈ l, Unbroken s := by
  simp [Unbroken, String.toList_join]

theorem unbroken_repeated {c : Char} (hc : c ≠ '\n') (n : Nat) : Unbroken (repeated n c) := by
  rw [Unbroken, repeated, String.toList_ofList]
  exact fun h => hc (List.eq_of_mem_replicate h).symm

theorem unbroken_padded (h : Unbroken s) (n : Nat) : Unbroken (padded n s) :=
  unbroken_append.mpr ⟨h, unbroken_repeated (by decide) _⟩

theorem unbroken_braced (h : ∀ s ∈ l, Unbroken s) : Unbroken (braced "," l) := by
  rw [braced, unbroken_append, unbroken_append]
  refine ⟨⟨by decide, fun hc => ?_⟩, by decide⟩
  rw [String.toList_intercalate] at hc
  obtain hc | ⟨_, hmem, hc⟩ := mem_intercalate hc
  · exact absurd hc (by decide)
  · obtain ⟨s, hs, rfl⟩ := List.mem_map.mp hmem
    exact h s hs hc

/-- Lines written one below the other are the lines of the text. -/
theorem consistsOf_join (h : ∀ s ∈ l, Unbroken s) :
    ConsistsOf (String.join (l.map (· ++ "\n"))) l := by
  rw [ConsistsOf, String.toList_join]
  induction l with
  | nil => rfl
  | cons s l ih =>
      obtain ⟨hs, hl⟩ := List.forall_mem_cons.mp h
      have hline : ∀ c ∈ s.toList, (c == '\n') = false := fun c hc =>
        beq_eq_false_iff_ne.mpr fun heq => hs (heq ▸ hc)
      have hend : (s ++ "\n").toList = s.toList ++ ['\n'] := String.toList_append
      rw [List.map_cons, List.flatMap_cons, hend, List.append_assoc, List.singleton_append,
        pieces_append (by rfl), pieces_eq_singleton hline, ih hl]
      rfl

end Text

/-! ## Lengths -/

/-- Lines of the same number of characters. -/
def Rectangular (lines : List String) : Prop := ∃ w, ∀ l ∈ lines, l.length = w

@[simp] theorem length_repeated (n : Nat) (c : Char) : (repeated n c).length = n := by
  rw [repeated, String.length_ofList, List.length_replicate]

@[simp] theorem length_padded (n : Nat) (s : String) : (padded n s).length = max n s.length := by
  rw [padded, String.length_append, length_repeated]
  omega

/-- **A text has no more characters than bytes.** -/
theorem length_le_utf8ByteSize (s : String) : s.length ≤ s.utf8ByteSize := by
  have key : ∀ l : List Char, l.length ≤ (String.ofList l).utf8ByteSize := fun l => by
    induction l with
    | nil => exact Nat.zero_le _
    | cons c l ih =>
        have := c.utf8Size_pos
        rw [String.ofList_cons, String.utf8ByteSize_append, String.utf8ByteSize_singleton,
          List.length_cons]
        omega
  rw [← String.length_toList]
  exact (key s.toList).trans_eq (congrArg _ String.ofList_toList)

theorem foldl_max_le_iff {l : List Nat} {m n : Nat} :
    l.foldl max m ≤ n ↔ m ≤ n ∧ ∀ k ∈ l, k ≤ n := by
  induction l generalizing m with
  | nil => simp
  | cons k l ih => rw [List.foldl_cons, ih, Nat.max_le, List.forall_mem_cons, and_assoc]

theorem le_foldl_max {l : List Nat} {k : Nat} (m : Nat) (h : k ∈ l) : k ≤ l.foldl max m :=
  (foldl_max_le_iff.mp (Nat.le_refl _)).2 k h

namespace Machine

variable {τ : Type} {m : Machine τ} {columns : List (Symbol × Nat)}
  {cell : StateId → Symbol → String}

/-- A label is one of those given, or empty. -/
theorem label_mem_or (m : Machine τ) (s : StateId) : m.label s ∈ m.labels ∨ m.label s = "" := by
  rw [label, label?]
  cases hs : m.labels[s]? with
  | none => exact .inr rfl
  | some l => exact .inl (List.mem_of_getElem? hs)

theorem utf8ByteSize_le_labelWidth {l : String} (h : l ∈ m.labels) :
    l.utf8ByteSize ≤ m.labelWidth :=
  le_foldl_max 0 (List.mem_map_of_mem h)

theorem length_label_le (m : Machine τ) (s : StateId) : (m.label s).length ≤ m.labelWidth := by
  obtain hs | hs := m.label_mem_or s
  · exact (length_le_utf8ByteSize _).trans (utf8ByteSize_le_labelWidth hs)
  · rw [hs]
    exact Nat.zero_le _

@[simp] theorem length_marker (m : Machine τ) (s : StateId) : (m.marker s).length = 2 := by
  rw [marker]
  split
  · rfl
  · split <;> rfl

/-! ## The lines of a table -/

/-- What the columns of a line show. -/
def cells (columns : List (Symbol × Nat)) (text : Symbol → String) : String :=
  String.join (columns.map fun c => " " ++ padded c.2 (text c.1) ++ " ")

/-- The first line, with the symbols. -/
def header (m : Machine τ) (columns : List (Symbol × Nat)) : String :=
  repeated (m.labelWidth + 3) ' ' ++ " ||" ++ cells columns Char.toString

/-- The second line, a rule. -/
def rule (m : Machine τ) (columns : List (Symbol × Nat)) : String :=
  repeated (m.labelWidth + 4) '-' ++ "++" ++
    String.join (columns.map fun c => repeated (c.2 + 2) '-')

/-- The line of a state. -/
def row (m : Machine τ) (columns : List (Symbol × Nat)) (cell : StateId → Symbol → String)
    (s : StateId) : String :=
  m.marker s ++ " " ++ padded m.labelWidth (m.label s) ++ " ||" ++ cells columns (cell s)

theorem gridLines_eq : m.gridLines columns cell =
    m.header columns :: m.rule columns :: m.states.map (m.row columns cell) := rfl

theorem length_gridLines : (m.gridLines columns cell).length = m.numStates + 2 := by
  rw [gridLines_eq, List.length_cons, List.length_cons, List.length_map, states,
    List.length_range]

theorem length_cells (columns : List (Symbol × Nat)) (text : Symbol → String) :
    (cells columns text).length =
      (columns.map fun c => max c.2 (text c.1).length + 2).sum := by
  rw [cells, String.length_join, List.map_map]
  refine congrArg List.sum (List.map_congr_left fun c _ => ?_)
  have hblank : " ".length = 1 := rfl
  rw [Function.comp_apply, String.length_append, String.length_append, length_padded, hblank]
  omega

theorem length_header (m : Machine τ) (columns : List (Symbol × Nat)) :
    (m.header columns).length = m.labelWidth + 6 + (columns.map fun c => max c.2 1 + 2).sum := by
  have hsymbol : ∀ a : Symbol, (Char.toString a).length = 1 := fun a => String.length_singleton
  have hbar : " ||".length = 3 := rfl
  rw [header, String.length_append, String.length_append, length_repeated, length_cells, hbar]
  simp only [hsymbol]

theorem length_rule (m : Machine τ) (columns : List (Symbol × Nat)) :
    (m.rule columns).length = m.labelWidth + 6 + (columns.map fun c => c.2 + 2).sum := by
  rw [rule, String.length_append, String.length_append, length_repeated, String.length_join,
    List.map_map]
  refine congrArg (m.labelWidth + 6 + ·) (congrArg List.sum (List.map_congr_left fun c _ => ?_))
  rw [Function.comp_apply, length_repeated]

/-- **The line of a state is as long as the rule** if its cells fit their columns. -/
theorem length_row {s : StateId} (h : ∀ c ∈ columns, (cell s c.1).length ≤ c.2) :
    (m.row columns cell s).length =
      m.labelWidth + 6 + (columns.map fun c => c.2 + 2).sum := by
  have hcells : (columns.map fun c => max c.2 (cell s c.1).length + 2) =
      columns.map fun c => c.2 + 2 :=
    List.map_congr_left fun c hc => by rw [Nat.max_eq_left (h c hc)]
  have hblank : " ".length = 1 := rfl
  have hbar : " ||".length = 3 := rfl
  rw [row, String.length_append, length_cells, hcells]
  simp only [String.length_append, length_marker, length_padded, hblank, hbar,
    Nat.max_eq_left (m.length_label_le s)]
  omega

/-- **The lines differ in length where a column is too narrow for a symbol**, and only there. -/
theorem rectangular_gridLines_iff
    (hcell : ∀ s ∈ m.states, ∀ c ∈ columns, (cell s c.1).length ≤ c.2) :
    Rectangular (m.gridLines columns cell) ↔ ∀ c ∈ columns, 1 ≤ c.2 := by
  rw [gridLines_eq]
  constructor
  · rintro ⟨w, hw⟩
    have hheader := hw (m.header columns) (by simp)
    have hrule := hw (m.rule columns) (by simp)
    rw [length_header] at hheader
    rw [length_rule] at hrule
    by_contra! hnarrow
    have hlt : (columns.map fun c => c.2 + 2).sum < (columns.map fun c => max c.2 1 + 2).sum :=
      List.sum_lt_sum _ _ (fun c _ => by omega) (hnarrow.imp fun c hc => ⟨hc.1, by omega⟩)
    omega
  · intro hwide
    have hsymbols : (columns.map fun c => max c.2 1 + 2) = columns.map fun c => c.2 + 2 :=
      List.map_congr_left fun c hc => by rw [Nat.max_eq_left (hwide c hc)]
    refine ⟨m.labelWidth + 6 + (columns.map fun c => c.2 + 2).sum, fun l hl => ?_⟩
    obtain rfl | hl := List.mem_cons.mp hl
    · rw [length_header, hsymbols]
    obtain rfl | hl := List.mem_cons.mp hl
    · exact m.length_rule columns
    · obtain ⟨s, hs, rfl⟩ := List.mem_map.mp hl
      exact length_row (hcell s hs)

/-! ## No line is broken -/

/-- **No label and no symbol ends a line.** -/
structure Unbroken (m : Machine τ) : Prop where
  labels : ∀ l ∈ m.labels, Text.Unbroken l
  alphabet : '\n' ∉ m.alphabet

theorem Unbroken.label (h : m.Unbroken) (s : StateId) : Text.Unbroken (m.label s) := by
  obtain hs | hs := m.label_mem_or s
  · exact h.labels _ hs
  · rw [hs]
    exact List.not_mem_nil

theorem unbroken_cells {text : Symbol → String} (h : ∀ c ∈ columns, Text.Unbroken (text c.1)) :
    Text.Unbroken (cells columns text) := by
  rw [cells, Text.unbroken_join, List.forall_mem_map]
  intro c hc
  simp only [Text.unbroken_append]
  exact ⟨⟨by decide, Text.unbroken_padded (h c hc) _⟩, by decide⟩

/-- **No line of a table ends within a line.** -/
theorem unbroken_of_mem_gridLines (h : m.Unbroken) (hcolumns : ∀ c ∈ columns, c.1 ∈ m.alphabet)
    (hcell : ∀ s a, Text.Unbroken (cell s a)) :
    ∀ l ∈ m.gridLines columns cell, Text.Unbroken l := by
  rw [gridLines_eq, List.forall_mem_cons, List.forall_mem_cons, List.forall_mem_map]
  refine ⟨?header, ?rule, fun s _ => ?row⟩
  case header =>
    simp only [header, Text.unbroken_append]
    refine ⟨⟨Text.unbroken_repeated (by decide) _, by decide⟩, unbroken_cells fun c hc => ?_⟩
    rw [Text.Unbroken, Char.toString, String.toList_singleton, List.mem_singleton]
    exact fun heq => h.alphabet (heq ▸ hcolumns c hc)
  case rule =>
    simp only [rule, Text.unbroken_append, Text.unbroken_join, List.forall_mem_map]
    exact ⟨⟨Text.unbroken_repeated (by decide) _, by decide⟩,
      fun c _ => Text.unbroken_repeated (by decide) _⟩
  case row =>
    simp only [row, Text.unbroken_append]
    refine ⟨⟨⟨⟨?marker, by decide⟩, Text.unbroken_padded (h.label s) _⟩, by decide⟩,
      unbroken_cells fun c _ => hcell s c.1⟩
    rw [marker]
    split_ifs <;> decide

/-! ## The table of an automaton -/

/-- **No column is too wide to be drawn.** -/
def Drawable (m : Machine τ) (columns : List (Symbol × Nat)) : Prop :=
  ∀ w ∈ (m.labelWidth + 3) :: columns.map Prod.snd, w ≤ Grid.maxWidth

instance (m : Machine τ) (columns : List (Symbol × Nat)) : Decidable (m.Drawable columns) :=
  inferInstanceAs (Decidable (∀ w ∈ _ :: _, _))

/-- **A table is drawn line by line.** -/
theorem exists_grid?_consistsOf (h : m.Unbroken) (hdrawable : m.Drawable columns)
    (hcolumns : ∀ c ∈ columns, c.1 ∈ m.alphabet) (hcell : ∀ s a, Text.Unbroken (cell s a)) :
    ∃ t, m.grid? columns cell = some t ∧ Text.ConsistsOf t (m.gridLines columns cell) :=
  ⟨_, if_pos (List.all_eq_true.mpr fun w hw => decide_eq_true (hdrawable w hw)),
    Text.consistsOf_join (unbroken_of_mem_gridLines h hcolumns hcell)⟩

theorem one_le_labelWidth_iff : 1 ≤ m.labelWidth ↔ ∃ l ∈ m.labels, l ≠ "" := by
  have hzero : m.labelWidth = 0 ↔ ∀ l ∈ m.labels, l = "" := by
    rw [← Nat.le_zero, labelWidth, foldl_max_le_iff, List.forall_mem_map]
    simp only [Nat.le_zero, String.utf8ByteSize_eq_zero_iff, true_and]
  rw [Nat.one_le_iff_ne_zero, Ne, hzero]
  simp only [not_forall, exists_prop, Ne]

end Machine

namespace Dfa

variable {d : Dfa}

theorem length_cell_le (d : Dfa) (p : StateId) (a : Symbol) :
    (d.cell p a).length ≤ d.labelWidth := by
  rw [cell]
  cases d.next? p a with
  | none => exact Nat.zero_le _
  | some q => exact d.length_label_le q

theorem unbroken_cell (h : d.Unbroken) (p : StateId) (a : Symbol) :
    Text.Unbroken (d.cell p a) := by
  rw [cell]
  cases d.next? p a with
  | none => exact List.not_mem_nil
  | some q => exact h.label q

/-- **The columns are wide enough for their symbols unless all labels are empty.** -/
theorem rectangular_gridLines_columns_iff : Rectangular (d.gridLines d.columns d.cell) ↔
    d.alphabet = ∅ ∨ ∃ l ∈ d.labels, l ≠ "" := by
  have hcell : ∀ p ∈ d.states, ∀ c ∈ d.columns, (d.cell p c.1).length ≤ c.2 := fun p _ c hc => by
    obtain ⟨a, -, rfl⟩ := List.mem_map.mp hc
    exact d.length_cell_le p a
  rw [Machine.rectangular_gridLines_iff hcell, columns, List.forall_mem_map,
    ← Machine.one_le_labelWidth_iff, ← SortedSet.isEmpty_eq_true_iff, SortedSet.isEmpty]
  cases d.alphabet.toList with
  | nil => simp
  | cons a l =>
      refine ⟨fun hwide => .inr (hwide a List.mem_cons_self), fun hwide _ _ => ?_⟩
      exact hwide.resolve_left Bool.false_ne_true

end Dfa

namespace Nfa

variable {n : Nfa}

theorem length_cell_le {p : StateId} {c : Symbol × Nat} (hp : p ∈ n.states) (hc : c ∈ n.columns) :
    (n.cell p c.1).length ≤ c.2 := by
  obtain ⟨a, -, rfl⟩ := List.mem_map.mp hc
  exact (length_le_utf8ByteSize _).trans (le_foldl_max 1 (List.mem_map_of_mem hp))

theorem one_le_of_mem_columns {c : Symbol × Nat} (hc : c ∈ n.columns) : 1 ≤ c.2 := by
  obtain ⟨a, -, rfl⟩ := List.mem_map.mp hc
  exact (foldl_max_le_iff.mp (Nat.le_refl _)).1

theorem unbroken_cell (h : n.Unbroken) (p : StateId) (a : Symbol) :
    Text.Unbroken (n.cell p a) := by
  rw [cell]
  split
  · exact List.not_mem_nil
  · exact Text.unbroken_braced (List.forall_mem_map.mpr fun q _ => h.label q)

theorem rectangular_gridLines_columns (n : Nfa) : Rectangular (n.gridLines n.columns n.cell) :=
  (Machine.rectangular_gridLines_iff fun _ hp _ hc => length_cell_le hp hc).mpr fun _ hc =>
    one_le_of_mem_columns hc

end Nfa

/-- **A table has a line for each state and two above them, all of the same length**, where no label
or symbol ends a line and no column is too wide to be drawn.  Only a deterministic automaton whose
labels are all empty has columns that are narrower than their symbols. -/
theorem display_consistsOf :
    (∀ d : Dfa, d.WellFormed → d.Unbroken → d.Drawable d.columns → ∃ t lines,
      d.display? = some t ∧ d.table? = some lines ∧ Text.ConsistsOf t lines ∧
      lines.length = d.numStates + 2 ∧
      (Rectangular lines ↔ d.alphabet = ∅ ∨ ∃ l ∈ d.labels, l ≠ "")) ∧
    ∀ n : Nfa, n.WellFormed → n.Unbroken → n.Drawable n.columns → ∃ t lines,
      n.display? = some t ∧ n.table? = some lines ∧ Text.ConsistsOf t lines ∧
      lines.length = n.numStates + 2 ∧ Rectangular lines := by
  constructor
  · intro d h hunbroken hdrawable
    obtain ⟨t, ht, hlines⟩ := Machine.exists_grid?_consistsOf hunbroken hdrawable
      (List.forall_mem_map.mpr fun _ ha => ha) (Dfa.unbroken_cell hunbroken)
    exact ⟨t, _, ht, Dfa.table?_eq h, hlines, Machine.length_gridLines,
      Dfa.rectangular_gridLines_columns_iff⟩
  · intro n h hunbroken hdrawable
    obtain ⟨t, ht, hlines⟩ := Machine.exists_grid?_consistsOf hunbroken hdrawable
      (List.forall_mem_map.mpr fun _ ha => ha) (Nfa.unbroken_cell hunbroken)
    exact ⟨t, _, ht, Nfa.table?_eq h, hlines, Machine.length_gridLines,
      n.rectangular_gridLines_columns⟩

/-- One state without a label, and a symbol for which its column has no room. -/
def Dfa.nameless : Dfa := ⟨[""], SortedSet.ofList ['a'], 0, ∅, ∅⟩

/-- States whose labels have more bytes than characters, both of them led to at once. -/
def Nfa.accented : Nfa :=
  ⟨["é", "日本", ""], SortedSet.ofList ['a', 'ß'], 0, SortedSet.ofList [1],
    SortedMap.ofEntries [(0, SortedMap.ofEntries [('ß', [1, 0])])]⟩

/-- The first line of the one table is longer than the others, and all lines of the other are of one
length. -/
theorem display_consistsOf_nameless : (∃ t lines, Dfa.nameless.display? = some t ∧
      Text.ConsistsOf t lines ∧ lines.length = 3 ∧ ¬ Rectangular lines) ∧
    ∃ t lines, Nfa.accented.display? = some t ∧ Text.ConsistsOf t lines ∧ lines.length = 5 ∧
      Rectangular lines := by
  obtain ⟨t, l, hdisplay, -, hlines, hlength, hrectangular⟩ :=
    display_consistsOf.1 Dfa.nameless (by decide) ⟨by decide, by decide⟩ (by decide)
  obtain ⟨t', l', hdisplay', -, hlines', hlength', hrectangular'⟩ :=
    display_consistsOf.2 Nfa.accented (by decide) ⟨by decide, by decide⟩ (by decide)
  exact ⟨⟨t, l, hdisplay, hlines, hlength, mt hrectangular.mp (by decide)⟩,
    t', l', hdisplay', hlines', hlength', hrectangular'⟩

end Automata
