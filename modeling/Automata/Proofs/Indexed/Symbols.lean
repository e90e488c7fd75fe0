import Automata.Alphabet
import Automata.Proofs.Indexed.Bisection
import Mathlib.Data.Char
import Mathlib.Data.List.Destutter
import Mathlib.Data.List.Sort

/-!
# Proofs/Indexed/Symbols — an alphabet is stored as a list and searched by halves

A list of symbols ascends because of what is done with it and not because of what it is.  A symbol
is put where a search by halves says that it belongs (`Symbols.add`), and the symbols of a text are
sorted and freed of repetitions (`Symbols.collect`).  Each of the two leaves the list of an alphabet
(`Symbols.add_toList`, `Symbols.collect_eq`), on which the search finds what is there
(`Symbols.has_toList`), so whatever is added, and in whatever order, the list holds just that:
`Symbols.putAll_collect`.
-/

namespace Automata

namespace Alphabet

/-- What is added to an alphabet at once: one symbol, or the characters of a text. -/
inductive Addition where
  | symbol (a : Symbol)
  | text (t : String)
deriving DecidableEq

/-- The symbols that are added. -/
def Addition.symbols : Addition → List Symbol
  | symbol a => [a]
  | text t => t.toList

/-- The alphabet with what is added. -/
def put (A : Alphabet) : Addition → Alphabet
  | .symbol a => (A.add a).2
  | .text t => A.extend t

/-- The alphabet with all that is added in turn. -/
def putAll (A : Alphabet) (xs : List Addition) : Alphabet := xs.foldl put A

theorem mem_put_iff {A : Alphabet} {x : Addition} {a : Symbol} :
    a ∈ A.put x ↔ a ∈ A ∨ a ∈ x.symbols := by
  cases x with
  | symbol b => rw [put, add, SortedSet.mem_insert, Addition.symbols, List.mem_singleton, or_comm]
  | text t => exact SortedSet.mem_insertAll

theorem mem_putAll_iff {a : Symbol} (xs : List Addition) : ∀ {A : Alphabet},
    a ∈ A.putAll xs ↔ a ∈ A ∨ ∃ x ∈ xs, a ∈ x.symbols := by
  induction xs with
  | nil => simp [putAll]
  | cons x xs ih =>
      intro A
      rw [putAll, List.foldl_cons, ← putAll, ih, mem_put_iff, or_assoc, List.exists_mem_cons_iff]

end Alphabet

/-- The symbols of an alphabet, one behind the other. -/
abbrev Symbols := List Symbol

namespace Symbols

/-! ## What is done with a list of symbols -/

/-- Whether a symbol is found. -/
def has (l : Symbols) (a : Symbol) : Bool := (binarySearch l a).isOk

/-- Puts a symbol where it belongs unless it is found, and tells whether it is new. -/
def add (l : Symbols) (a : Symbol) : Bool × Symbols :=
  match binarySearch l a with
  | .ok _ => (false, l)
  | .error i => (true, l.take i ++ a :: l.drop i)

/-- Adds every character of a text. -/
def extend (l : Symbols) (t : String) : Symbols := t.toList.foldl (fun l a => (add l a).2) l

/-- The characters of a text, sorted, and then each run of one character made one. -/
def collect (t : String) : Symbols := (t.toList.mergeSort (· ≤ ·)).destutter (· ≠ ·)

/-- The list with what is added. -/
def put (l : Symbols) : Alphabet.Addition → Symbols
  | .symbol a => (add l a).2
  | .text t => extend l t

/-- The list with all that is added in turn. -/
def putAll (l : Symbols) (xs : List Alphabet.Addition) : Symbols := xs.foldl put l

/-! ## It is the list of an alphabet -/

theorem has_toList (A : Alphabet) (a : Symbol) : has A.toList a = decide (a ∈ A) := by
  rw [has, Bool.eq_iff_iff, isOk_binarySearch_iff A.ascending, decide_eq_true_iff]
  rfl

/-- **A symbol that is looked for by halves is put where it belongs.** -/
theorem add_toList (A : Alphabet) (a : Symbol) :
    add A.toList a = ((A.add a).1, (A.add a).2.toList) := by
  rw [add, Alphabet.add]
  obtain ⟨i, hi, ha⟩ | ⟨i, hi, hparts⟩ := binarySearch_spec A.ascending a
  · have hmem : a ∈ A := List.mem_of_getElem? ha
    rw [hi, SortedSet.insert_of_mem hmem, decide_eq_true hmem]
    rfl
  · have hmem : a ∉ A := hparts.not_mem
    rw [hi, decide_eq_false hmem]
    exact congrArg (true, ·) hparts.insertAscending_eq.symm

theorem extend_toList (A : Alphabet) (t : String) :
    extend A.toList t = (A.extend t).toList := by
  rw [extend, Alphabet.extend, SortedSet.insertAll]
  induction t.toList generalizing A with
  | nil => rfl
  | cons a l ih =>
      rw [List.foldl_cons, List.foldl_cons, add_toList]
      exact ih (A.insert a)

/-- **Sorting and dropping repetitions leaves an ascending list of the same symbols.** -/
theorem collect_eq (t : String) : collect t = (Alphabet.ofString t).toList := by
  have hsorted : (t.toList.mergeSort (· ≤ ·)).Pairwise (· ≤ ·) := List.pairwise_mergeSort' _ _
  have hdedup : collect t = (t.toList.mergeSort (· ≤ ·)).dedup := hsorted.destutter_eq_dedup
  refine eq_of_ascending ?ascending (Alphabet.ofString t).ascending fun a => ?members
  case ascending =>
    rw [hdedup]
    refine ((hsorted.sublist (List.dedup_sublist _)).and (List.nodup_dedup _)).imp ?_
    exact fun hab => Nat.lt_of_le_of_ne hab.1 fun heq => hab.2 (Ranked.rank_inj heq)
  case members =>
    rw [hdedup, List.mem_dedup, List.mem_mergeSort, SortedSet.mem_toList, Alphabet.ofString,
      SortedSet.mem_ofList]

theorem put_toList (A : Alphabet) (x : Alphabet.Addition) : put A.toList x = (A.put x).toList := by
  cases x with
  | symbol a => rw [put, add_toList, Alphabet.put]
  | text t => exact extend_toList A t

theorem putAll_toList (xs : List Alphabet.Addition) : ∀ A : Alphabet,
    putAll A.toList xs = (A.putAll xs).toList := by
  induction xs with
  | nil => exact fun _ => rfl
  | cons x xs ih =>
      intro A
      rw [putAll, List.foldl_cons, put_toList]
      exact ih (A.put x)

/-- **Whatever is added, the list holds just that, in ascending order.**  It starts as that of a
text, which may be empty; a symbol is new as long as it is not found; and the list of a text is the
one that its characters make when they are added in any order and any number of times. -/
theorem putAll_collect (t : String) (xs : List Alphabet.Addition) :
    let l := putAll (collect t) xs
    let A := (Alphabet.ofString t).putAll xs
    collect "" = [] ∧ l = A.toList ∧ l.Pairwise (fun a b => a.toNat < b.toNat) ∧
    (∀ a, has l a = true ↔ a ∈ t.toList ∨ ∃ x ∈ xs, a ∈ x.symbols) ∧
    (∀ a, add l a = ((A.add a).1, (A.add a).2.toList) ∧
      ((add l a).1 = true ↔ has l a = false)) ∧
    ∀ u : String, (∀ a, a ∈ u.toList ↔ a ∈ t.toList) → extend [] u = collect t := by
  intro l A
  have hl : l = A.toList := by rw [← putAll_toList, ← collect_eq]
  have hhas : ∀ a, has l a = decide (a ∈ A) := fun a => by rw [hl, has_toList]
  refine ⟨?empty, hl, hl ▸ A.ascending, fun a => ?found, fun a => ⟨?added, ?new⟩,
    fun u hu => ?order⟩
  case empty =>
    rw [collect_eq]
    rfl
  case found =>
    rw [hhas, decide_eq_true_iff, Alphabet.mem_putAll_iff, Alphabet.ofString, SortedSet.mem_ofList]
  case added => rw [hl, add_toList]
  case new => rw [hhas, hl, add_toList, Alphabet.add, Bool.not_eq_true']
  case order =>
    have hempty : extend [] u = (Alphabet.extend ∅ u).toList := extend_toList ∅ u
    rw [hempty, collect_eq]
    refine congrArg SortedSet.toList (SortedSet.ext_mem fun a => ?_)
    rw [Alphabet.extend, Alphabet.ofString, SortedSet.mem_insertAll, SortedSet.mem_ofList, hu,
      or_iff_right (SortedSet.not_mem_empty a)]

/-- The symbols of `cab`, `0`, and then `d` and once more `a`. -/
theorem putAll_collect_cab :
    let l := putAll (collect "cab") [.symbol '0', .text "da"]
    l = ['0', 'a', 'b', 'c', 'd'] ∧ has l 'd' = true ∧ (add l 'a').1 = false ∧
      extend [] "bbaca" = collect "cab" := by
  obtain ⟨-, hlist, -, hfound, hadded, horder⟩ := putAll_collect "cab" [.symbol '0', .text "da"]
  have hletters : ∀ a, a ∈ ['b', 'b', 'a', 'c', 'a'] ↔ a ∈ ['c', 'a', 'b'] := fun a => by grind
  exact ⟨hlist.trans (by decide), (hfound 'd').mpr (.inr ⟨.text "da", by simp, by decide⟩),
    (congrArg Prod.fst (hadded 'a').1).trans (by decide), horder "bbaca" hletters⟩

end Symbols

end Automata
