import Automata.Display.Grid
import Automata.Listing.Write
import Automata.Proofs.Moves
import Automata.Proofs.Subset

/-!
# Proofs/Indexed/Labels — every state that is written has a label

A position that is no state has no label, so a text can be written only if each look-up of a label
finds one.  Here the listing, the tuple and the table of an automaton are written with look-ups that
may fail; in a well-formed automaton none does, and the texts are those written without
(`Machine.listing?_eq`, `Machine.tuple?_eq`, `Dfa.table?_eq`, `Nfa.table?_eq`).
-/

namespace Automata

/-! ## Steps that do not fail -/

section

variable {α β σ τ : Type} {l : List α}

/-- Where every step succeeds, so does the walk over a list. -/
theorem mapM_eq_some {f : α → Option β} {g : α → β} (h : ∀ x ∈ l, f x = some (g x)) :
    l.mapM f = some (l.map g) := by
  induction l with
  | nil => rfl
  | cons x l ih =>
      obtain ⟨hx, hl⟩ := List.forall_mem_cons.mp h
      rw [List.mapM_cons, hx, ih hl]
      rfl

/-- A walk whose every step succeeds and shows what a step of another walk makes, shows in the end
what that walk makes. -/
theorem foldlM_map_eq_some {f : σ → α → Option σ} {g : τ → α → τ} {φ : τ → σ}
    (h : ∀ s, ∀ x ∈ l, f (φ s) x = some (φ (g s x))) (s : τ) :
    l.foldlM f (φ s) = some (φ (l.foldl g s)) := by
  induction l generalizing s with
  | nil => rfl
  | cons x l ih =>
      rw [List.foldlM_cons, h s x List.mem_cons_self, List.foldl_cons]
      exact ih (fun s y hy => h s y (List.mem_cons_of_mem x hy)) (g s x)

theorem foldlM_eq_some {f : σ → α → Option σ} {g : σ → α → σ}
    (h : ∀ s, ∀ x ∈ l, f s x = some (g s x)) (s : σ) : l.foldlM f s = some (l.foldl g s) :=
  foldlM_map_eq_some (φ := id) h s

theorem findM?_eq_some {f : α → Option Bool} {p : α → Bool}
    (h : ∀ x ∈ l, f x = some (p x)) : l.findM? f = some (l.find? p) := by
  induction l with
  | nil => rfl
  | cons x l ih =>
      obtain ⟨hx, hl⟩ := List.forall_mem_cons.mp h
      rw [List.findM?, hx, List.find?_cons]
      cases p x with
      | true => rfl
      | false => exact ih hl

/-- The same, where what is found is kept. -/
theorem filterMapM_eq_some {f : α → Option (Option β)} {g : α → Option β}
    (h : ∀ x ∈ l, f x = some (g x)) : l.filterMapM f = some (l.filterMap g) := by
  induction l with
  | nil => rfl
  | cons x l ih =>
      obtain ⟨hx, hl⟩ := List.forall_mem_cons.mp h
      rw [List.filterMapM_cons, hx, List.filterMap_cons, Option.bind_eq_bind, Option.bind_some,
        ih hl]
      cases g x <;> rfl

/-- The positions of the entries that pass a test. -/
theorem ofList_zipIdx_filter (p : α → Bool) (l : List α) :
    SortedSet.ofList ((l.zipIdx.filter fun s => p s.1).map Prod.snd) =
      (SortedSet.range l.length).filter fun i => (l[i]?.map p).getD false := by
  refine SortedSet.ext_mem fun i => ?_
  rw [SortedSet.mem_ofList, SortedSet.mem_filter, SortedSet.mem_range, List.mem_map]
  constructor
  · rintro ⟨⟨x, j⟩, hx, rfl⟩
    obtain ⟨hx, hp⟩ := List.mem_filter.mp hx
    rw [List.mk_mem_zipIdx_iff_getElem?] at hx
    exact ⟨(List.getElem?_eq_some_iff.mp hx).1, by rw [hx]; exact hp⟩
  · rintro ⟨hi, hp⟩
    rw [List.getElem?_eq_getElem hi] at hp
    refine ⟨(l[i], i), List.mem_filter.mpr ⟨?_, hp⟩, rfl⟩
    exact List.mk_mem_zipIdx_iff_getElem?.mpr (List.getElem?_eq_getElem hi)

end

namespace Machine

variable {τ : Type} (m : Machine τ)

/-! ## Labels -/

/-- The labels of the states on a list, if all of them are states. -/
def labelsOf? (l : List StateId) : Option (List String) := l.mapM m.label?

/-- The labels of the final states, looked up. -/
def finalLabels? : Option (List String) := m.labelsOf? (m.states.filter m.isFinal)

variable {m}

theorem labelsOf?_eq {l : List StateId} (h : ∀ s ∈ l, s < m.numStates) :
    m.labelsOf? l = some (l.map m.label) :=
  mapM_eq_some fun s hs => m.label?_of_lt (h s hs)

theorem finalLabels?_eq : m.finalLabels? = some m.finalLabels :=
  labelsOf?_eq fun _ hs => m.mem_states.mp (List.mem_of_mem_filter hs)

variable [Target τ]

/-- A transition leads from states to states. -/
theorem WellFormed.of_mem_transitions (h : m.WellFormed) {t : StateId × Symbol × τ}
    (ht : t ∈ m.transitions) : t.1 < m.numStates ∧ ∀ q ∈ Target.states t.2.2, q < m.numStates := by
  obtain ⟨hp, -, hq⟩ := h.of_entry? (entry?_of_mem_transitions ht)
  exact ⟨hp, hq⟩

/-! ## Texts -/

variable (m)

/-- A transition with its labels looked up: source, symbol, targets. -/
def labelled? (t : StateId × Symbol × τ) : Option (String × Symbol × List String) := do
  let p ← m.label? t.1
  let qs ← m.labelsOf? (Target.states t.2.2)
  return (p, t.2.1, qs)

/-- The listing, its labels looked up. -/
def listing? : Option String := do
  let transitions ← m.transitions.mapM fun t => do
    let (p, a, qs) ← m.labelled? t
    return p :: a.toString :: qs
  let initial ← m.label? m.initial
  let finals ← m.finalLabels?
  return Text.Lines.toText <|
    [[Text.Numeral.write m.numStates], m.labels,
      [Text.Numeral.write m.alphabet.size], m.alphabet.toList.map Char.toString,
      [Text.Numeral.write m.transitionCount]] ++
    transitions ++ [[initial], [Text.Numeral.write finals.length], finals]

/-- The tuple, its labels looked up. -/
def tuple? (join : List String → String) : Option String := do
  let initial ← m.label? m.initial
  let finals ← m.finalLabels?
  let moves ← m.transitions.mapM fun t => do
    let (p, a, qs) ← m.labelled? t
    return "\t(" ++ p ++ ", " ++ a.toString ++ ") -> " ++ join qs ++ "\n"
  return "M = (" ++ braced ", " m.labels ++ ", " ++
    braced ", " (m.alphabet.toList.map Char.toString) ++ ", d, " ++ initial ++ ", " ++
    braced ", " finals ++ ")\nd = \x7b\n" ++ String.join moves ++ "\x7d\n"

omit [Target τ] in
/-- The lines of a table, the label of each row looked up, and the text of each cell. -/
def gridLines? (columns : List (Symbol × Nat)) (cell? : StateId → Symbol → Option String) :
    Option (List String) := do
  let rows ← m.states.mapM fun s => do
    let l ← m.label? s
    let cells ← columns.mapM fun c => (cell? s c.1).map fun t => " " ++ padded c.2 t ++ " "
    return m.marker s ++ " " ++ padded m.labelWidth l ++ " ||" ++ String.join cells
  return [repeated (m.labelWidth + 3) ' ' ++ " ||" ++
      String.join (columns.map fun c => " " ++ padded c.2 c.1.toString ++ " "),
    repeated (m.labelWidth + 4) '-' ++ "++" ++
      String.join (columns.map fun c => repeated (c.2 + 2) '-')] ++ rows

variable {m}

theorem labelled?_eq (h : m.WellFormed) {t : StateId × Symbol × τ} (ht : t ∈ m.transitions) :
    m.labelled? t = some (m.label t.1, t.2.1, (Target.states t.2.2).map m.label) := by
  obtain ⟨hp, hq⟩ := h.of_mem_transitions ht
  rw [labelled?, m.label?_of_lt hp, labelsOf?_eq hq]
  rfl

/-- **The listing of a well-formed machine looks up no label in vain.** -/
theorem listing?_eq (h : m.WellFormed) : m.listing? = some m.listing := by
  have htransitions : m.transitions.mapM (fun t => do
      let (p, a, qs) ← m.labelled? t
      return p :: a.toString :: qs) = some (m.transitions.map m.transitionLine) :=
    mapM_eq_some fun t ht => by rw [labelled?_eq h ht]; rfl
  rw [listing?, htransitions, m.label?_of_lt h.initial_lt, finalLabels?_eq]
  rfl

/-- **Neither does its tuple.** -/
theorem tuple?_eq (h : m.WellFormed) (join : List String → String) :
    m.tuple? join = some (m.tuple join) := by
  have hmoves : m.transitions.mapM (fun t => do
      let (p, a, qs) ← m.labelled? t
      return "\t(" ++ p ++ ", " ++ a.toString ++ ") -> " ++ join qs ++ "\n") =
      some (m.transitions.map fun t => "\t(" ++ m.label t.1 ++ ", " ++ t.2.1.toString ++ ") -> " ++
        join ((Target.states t.2.2).map m.label) ++ "\n") :=
    mapM_eq_some fun t ht => by rw [labelled?_eq h ht]; rfl
  rw [tuple?, hmoves, m.label?_of_lt h.initial_lt, finalLabels?_eq]
  rfl

omit [Target τ] in
/-- A table looks up no label in vain if its cells do not. -/
theorem gridLines?_eq {columns : List (Symbol × Nat)} {cell? : StateId → Symbol → Option String}
    {cell : StateId → Symbol → String}
    (hcell : ∀ s < m.numStates, ∀ a, cell? s a = some (cell s a)) :
    m.gridLines? columns cell? = some (m.gridLines columns cell) := by
  have hcells : ∀ s < m.numStates,
      columns.mapM (fun c => (cell? s c.1).map fun t => " " ++ padded c.2 t ++ " ") =
        some (columns.map fun c => " " ++ padded c.2 (cell s c.1) ++ " ") := fun s hs =>
    mapM_eq_some fun c _ => by rw [hcell s hs, Option.map_some]
  rw [gridLines?, mapM_eq_some fun s hs => ?row]
  case row =>
    have hs := m.mem_states.mp hs
    rw [m.label?_of_lt hs, hcells s hs]
    rfl
  rfl

end Machine

/-! ## Tables -/

namespace Dfa

variable {d : Dfa}

/-- The tuple of a deterministic automaton, its labels looked up. -/
def formal? (d : Dfa) : Option String := d.tuple? String.join

/-- The label of what a state and a symbol lead to, looked up. -/
def cell? (d : Dfa) (p : StateId) (a : Symbol) : Option String :=
  match d.next? p a with
  | none => some ""
  | some q => d.label? q

/-- The table of a deterministic automaton, its labels looked up. -/
def table? (d : Dfa) : Option (List String) := d.gridLines? d.columns d.cell?

theorem table?_eq (h : d.WellFormed) : d.table? = some (d.gridLines d.columns d.cell) := by
  refine Machine.gridLines?_eq fun p _ a => ?_
  rw [cell?, cell]
  cases hq : d.next? p a with
  | none => rfl
  | some q => exact d.label?_of_lt (next?_lt h hq)

end Dfa

namespace Nfa

variable {n : Nfa}

/-- The tuple of a nondeterministic automaton, its labels looked up. -/
def formal? (n : Nfa) : Option String := n.tuple? (braced ", ")

/-- The labels of what a state and a symbol lead to, looked up. -/
def cell? (n : Nfa) (p : StateId) (a : Symbol) : Option String :=
  if (n.successors p a).isEmpty then some ""
  else (n.labelsOf? (n.successors p a)).map (braced ",")

/-- The columns, the texts of their cells looked up. -/
def columns? (n : Nfa) : Option (List (Symbol × Nat)) :=
  n.alphabet.toList.mapM fun a => do
    let cells ← n.states.mapM fun p => n.cell? p a
    return (a, (cells.map String.utf8ByteSize).foldl max 1)

/-- The table of a nondeterministic automaton, its labels looked up. -/
def table? (n : Nfa) : Option (List String) := do
  let columns ← n.columns?
  n.gridLines? columns n.cell?

theorem cell?_eq (h : n.WellFormed) (p : StateId) (a : Symbol) :
    n.cell? p a = some (n.cell p a) := by
  have hlt : ∀ q ∈ n.successors p a, q < n.numStates := fun q hq => (of_mem_successors h hq).2
  rw [cell?, cell, Machine.labelsOf?_eq hlt]
  split <;> rfl

theorem columns?_eq (h : n.WellFormed) : n.columns? = some n.columns := by
  refine mapM_eq_some fun a _ => ?_
  rw [mapM_eq_some fun p _ => cell?_eq h p a]
  simp [List.map_map, Function.comp_def]

theorem table?_eq (h : n.WellFormed) : n.table? = some (n.gridLines n.columns n.cell) := by
  rw [table?, columns?_eq h]
  exact Machine.gridLines?_eq fun p _ a => cell?_eq h p a

end Nfa

end Automata
