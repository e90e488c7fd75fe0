import Automata.Proofs.Declarations
import Automata.Proofs.Indexed.Symbols
import Automata.Proofs.Loaded
import Mathlib.Data.List.Nodup

/-!
# Proofs/Indexed/Register — a draft that finds what was declared in its indexes

A register keeps the position of each label, the symbols in ascending order and the moves that are
taken, and looks things up there instead of going through what was declared.  Every declaration
keeps the indexes in step with it (`Register.Mirrors.declare`), so the checks are those of the draft
(`Register.verify_eq`), and a look-up that fails in the table would have failed a check before
(`Register.build_eq`).  There are handles for `StateId.limit` states, and a declaration of one more
is not taken: `Register.ofDeclarations?_eq`.
-/

namespace Automata

/-! ## Checks in turn -/

/-- Reports the first of some defects. -/
def report : List Defect → Except Defect Unit
  | [] => .ok ()
  | e :: _ => .error e

theorem report_append (l m : List Defect) : report (l ++ m) = report l >>= fun _ => report m := by
  cases l <;> rfl

/-- **Checks are made one after the other until one fails.** -/
theorem report_flatMap {α : Type} (f : α → List Defect) :
    ∀ l : List α, report (l.flatMap f) = l.forM fun x => report (f x)
  | [] => rfl
  | x :: l => by
      rw [List.flatMap_cons, report_append, report_flatMap f l]
      rfl

theorem Draft.verify_eq_report {τ : Type} (b : Draft τ) : b.verify = report b.defects := by
  rw [verify]
  cases b.defects <;> rfl

/-- Checks a condition. -/
def demand (c : Bool) (e : Defect) : Except Defect Unit := if c then .ok () else .error e

theorem demand_eq (c : Bool) (e : Defect) : demand c e = report (if c then [] else [e]) := by
  cases c <;> rfl

/-! ## Registers -/

/-- What was declared, with the positions of the labels and the moves that are taken. -/
structure Register (τ : Type) where
  states : List String := []
  ids : List (String × StateId) := []
  symbols : List Symbol := []
  initial : Option String := none
  finals : List String := []
  transitions : List Transition := []
  taken : List (String × Symbol) := []

namespace Register

variable {τ : Type}

/-- The state with a label. -/
def id? (r : Register τ) (k : String) : Option StateId := r.ids.lookup k

/-- Puts a label at the end unless it is found.  Every position counts as a handle here, also one that
is too large for it; `insertState?` stops there. -/
def insertState (r : Register τ) (k : String) : Register τ :=
  if (r.id? k).isSome then r
  else { r with states := r.states ++ [k], ids := (k, r.states.length) :: r.ids }

def insertSymbol (r : Register τ) (a : Symbol) : Register τ :=
  match binarySearch r.symbols a with
  | .ok _ => r
  | .error i => { r with symbols := r.symbols.take i ++ a :: r.symbols.drop i }

def insertFinal (r : Register τ) (k : String) : Register τ :=
  if r.finals.any (· == k) then r else { r with finals := r.finals ++ [k] }

def insertTransition [Target τ] (r : Register τ) (t : Transition) : Register τ :=
  if Target.branching τ then { r with transitions := r.transitions ++ [t] }
  else if t.key ∈ r.taken then r
  else { r with transitions := r.transitions ++ [t], taken := t.key :: r.taken }

def declare [Target τ] (r : Register τ) : Declaration → Register τ
  | .state k => r.insertState k
  | .symbol a => r.insertSymbol a
  | .initial k => { r with initial := some k }
  | .final k => r.insertFinal k
  | .transition t => r.insertTransition t

/-- The register that a list of declarations makes. -/
def ofDeclarations [Target τ] (l : List Declaration) : Register τ := l.foldl declare {}

/-- Puts a label at the end unless it is found, if its position is a handle. -/
def insertState? (r : Register τ) (k : String) : Option (Register τ) :=
  if (r.id? k).isSome then some r
  else do
    let s ← StateId.ofNat? r.states.length
    return { r with states := r.states ++ [k], ids := (k, s) :: r.ids }

/-- Takes a declaration, unless it is of a state for which there is no handle. -/
def declare? [Target τ] (r : Register τ) : Declaration → Option (Register τ)
  | .state k => r.insertState? k
  | x => some (r.declare x)

/-- The register that a list of declarations makes, as long as there are handles for the states. -/
def ofDeclarations? [Target τ] (l : List Declaration) : Option (Register τ) := l.foldlM declare? {}

/-! ## Checking and building -/

/-- Finds the initial state, and checks the final ones. -/
def initialId (r : Register τ) : Except Defect StateId := do
  let some k := r.initial | .error .missingInitial
  let some s := r.id? k | .error (.unknownInitial k)
  r.finals.forM fun k => demand (r.id? k).isSome (.unknownFinal k)
  return s

/-- Checks the source of a transition, then its symbol, then its target. -/
def checkTransition (r : Register τ) (t : Transition) : Except Defect Unit := do
  demand (r.id? t.source).isSome (.unknownSource t.source)
  demand (binarySearch r.symbols t.symbol).isOk (.unknownSymbol t.source t.symbol)
  demand (r.id? t.target).isSome (.unknownTarget t.source t.symbol t.target)

def verify (r : Register τ) : Except Defect Unit := do
  let _ ← r.initialId
  r.transitions.forM r.checkTransition

/-- Records a move, if its ends are found. -/
def addMove [Target τ] (r : Register τ) (table : Table τ) (t : Transition) : Table τ :=
  match r.id? t.source, r.id? t.target with
  | some p, some q => Draft.record table p t.symbol q
  | _, _ => table

def build [Target τ] (r : Register τ) : Except Defect (Machine τ) := do
  r.verify
  let s ← r.initialId
  return {
    labels := r.states
    alphabet := SortedSet.ofList r.symbols
    initial := s
    finals := SortedSet.ofList (r.finals.filterMap r.id?)
    table := r.transitions.foldl r.addMove ∅ }

/-! ## The indexes are in step with what was declared -/

/-- **A register finds in its indexes what a draft declared.** -/
structure Mirrors [Target τ] (r : Register τ) (b : Draft τ) : Prop where
  states_eq : r.states = b.states
  id?_eq : ∀ k, r.id? k = b.states.idxOf? k
  symbols_eq : r.symbols = b.alphabet.toList
  initial_eq : r.initial = b.initial
  finals_eq : r.finals = b.finals
  transitions_eq : r.transitions = b.transitions
  mem_taken_iff : Target.branching τ = false →
    ∀ k, k ∈ r.taken ↔ k ∈ b.transitions.map Transition.key

variable [Target τ] {r : Register τ} {b : Draft τ}

theorem mirrors_empty : Mirrors ({} : Register τ) {} :=
  ⟨rfl, fun _ => rfl, rfl, rfl, rfl, rfl, fun _ _ => Iff.rfl⟩

omit [Target τ] in
theorem insertSymbol_eq (r : Register τ) (a : Symbol) :
    r.insertSymbol a = { r with symbols := (Symbols.add r.symbols a).2 } := by
  rw [insertSymbol, Symbols.add]
  cases binarySearch r.symbols a <;> rfl

namespace Mirrors

theorem isSome_id? (h : r.Mirrors b) (k : String) : (r.id? k).isSome = b.knows k := by
  rw [h.id?_eq, Bool.eq_iff_iff, List.isSome_idxOf?, Draft.knows, decide_eq_true_iff]

theorem isOk_binarySearch (h : r.Mirrors b) (a : Symbol) :
    (binarySearch r.symbols a).isOk = decide (a ∈ b.alphabet) := by
  rw [h.symbols_eq]
  exact Symbols.has_toList b.alphabet a

theorem insertState (h : r.Mirrors b) (k : String) :
    (r.insertState k).Mirrors (b.insertState k) := by
  rw [Register.insertState, h.isSome_id?, Draft.knows, Draft.insertState, appendNew]
  by_cases hk : k ∈ b.states
  · rw [if_pos (decide_eq_true hk), if_pos hk]
    exact h
  · rw [if_neg (by simpa using hk), if_neg hk]
    refine { h with states_eq := congrArg (· ++ [k]) h.states_eq, id?_eq := fun j => ?_ }
    have hold := h.id?_eq j
    rw [id?] at hold ⊢
    rw [List.lookup_cons, hold, h.states_eq]
    by_cases hj : j = k
    · subst hj
      simp [idxOf?_of_mem, List.idxOf_append_of_notMem hk]
    · rw [beq_eq_false_iff_ne.mpr hj]
      by_cases hmem : j ∈ b.states
      · simp [idxOf?_of_mem, hmem, List.idxOf_append_of_mem hmem]
      · rw [List.idxOf?_eq_none_iff.mpr hmem, List.idxOf?_eq_none_iff.mpr (by simp [hmem, hj])]

theorem insertSymbol (h : r.Mirrors b) (a : Symbol) :
    (r.insertSymbol a).Mirrors (b.insertSymbol a) := by
  rw [insertSymbol_eq, h.symbols_eq, Symbols.add_toList]
  exact { h with symbols_eq := rfl }

theorem insertFinal (h : r.Mirrors b) (k : String) :
    (r.insertFinal k).Mirrors (b.insertFinal k) := by
  have hany : b.finals.any (· == k) = true ↔ k ∈ b.finals := by simp
  rw [Register.insertFinal, Draft.insertFinal, appendNew, h.finals_eq]
  simp only [hany]
  split
  · exact h
  · exact { h with finals_eq := rfl }

theorem insertTransition (h : r.Mirrors b) (t : Transition) :
    (r.insertTransition t).Mirrors (b.insertTransition t) := by
  rw [Draft.insertTransition_eq, Draft.recordTransition, Register.insertTransition, appendFresh]
  cases hb : Target.branching τ with
  | true =>
      exact { h with
        transitions_eq := congrArg (· ++ [t]) h.transitions_eq
        mem_taken_iff := fun hfalse => absurd (hfalse.symm.trans hb) Bool.false_ne_true }
  | false =>
      simp only [Bool.false_eq_true, if_false, h.mem_taken_iff hb]
      split
      · exact h
      · refine { h with
          transitions_eq := congrArg (· ++ [t]) h.transitions_eq
          mem_taken_iff := fun _ k => ?_ }
        rw [List.mem_cons, h.mem_taken_iff hb, List.map_append, List.mem_append, or_comm]
        exact or_congr Iff.rfl List.mem_singleton.symm

/-- **Every declaration keeps the indexes in step.** -/
theorem declare (h : r.Mirrors b) (x : Declaration) : (r.declare x).Mirrors (b.declare x) := by
  cases x with
  | state k => exact h.insertState k
  | symbol a => exact h.insertSymbol a
  | initial k => exact { h with initial_eq := rfl }
  | final k => exact h.insertFinal k
  | transition t => exact h.insertTransition t

theorem declareAll (l : List Declaration) : ∀ {r : Register τ} {b : Draft τ}, r.Mirrors b →
    Mirrors (l.foldl Register.declare r) (b.declareAll l) := by
  induction l with
  | nil => exact id
  | cons x l ih => exact fun h => ih (h.declare x)

end Mirrors

/-- **What was declared is found, whatever the declarations.** -/
theorem mirrors_ofDeclarations (l : List Declaration) :
    Mirrors (ofDeclarations l : Register τ) (.ofDeclarations l) :=
  mirrors_empty.declareAll l

/-! ## The checks are those of the draft -/

omit [Target τ] in
theorem finalDefects_eq (b : Draft τ) : b.finalDefects =
    b.finals.flatMap fun k => if b.knows k then [] else [.unknownFinal k] := by
  rw [Draft.finalDefects]
  induction b.finals with
  | nil => rfl
  | cons k l ih =>
      rw [List.flatMap_cons, ← ih, List.filter_cons]
      cases b.knows k <;> rfl

theorem checkTransition_eq (h : r.Mirrors b) (t : Transition) :
    r.checkTransition t = report (b.transitionDefects t) := by
  rw [checkTransition, h.isSome_id?, h.isSome_id?, h.isOk_binarySearch, demand_eq, demand_eq,
    demand_eq, Draft.transitionDefects, List.append_assoc, report_append, report_append]
  simp only [decide_eq_true_eq]

/-- **The initial state is found where no check of the draft fails.** -/
theorem initialId_eq (h : r.Mirrors b) : r.initialId =
    (report (b.initialDefects ++ b.finalDefects)).map fun _ => b.stateId (b.initial.getD "") := by
  rw [initialId, Draft.initialDefects, h.initial_eq, h.finals_eq]
  cases b.initial with
  | none => rfl
  | some k =>
      simp only [h.id?_eq k]
      by_cases hk : k ∈ b.states
      · have hknows : b.knows k = true := decide_eq_true hk
        rw [idxOf?_of_mem hk]
        simp only [hknows, if_true, List.nil_append, h.isSome_id?, demand_eq]
        rw [finalDefects_eq, report_flatMap]
        rfl
      · have hknows : b.knows k = false := decide_eq_false hk
        rw [List.idxOf?_eq_none_iff.mpr hk, hknows]
        rfl

theorem verify_eq (h : r.Mirrors b) : r.verify = b.verify := by
  have htransitions : r.transitions.forM r.checkTransition =
      report (b.transitions.flatMap b.transitionDefects) := by
    rw [report_flatMap, h.transitions_eq]
    exact congrArg _ (funext (checkTransition_eq h))
  rw [verify, b.verify_eq_report, initialId_eq h, htransitions, Draft.defects,
    report_append (b.initialDefects ++ b.finalDefects)]
  cases report (b.initialDefects ++ b.finalDefects) <;> rfl

/-- **A register makes the machine that the draft makes.** -/
theorem build_eq (h : r.Mirrors b) : r.build = b.build := by
  rw [build, verify_eq h, Draft.build]
  cases hverify : b.verify with
  | error e => rfl
  | ok u =>
      have hdefects : b.defects = [] :=
        List.isEmpty_iff.mp (b.verify_eq_ok_iff.mp hverify)
      obtain ⟨-, hfinals, htransitions⟩ := Draft.defects_eq_nil_iff.mp hdefects
      have hinitial : r.initialId = .ok (b.stateId (b.initial.getD "")) := by
        rw [Draft.defects] at hdefects
        rw [initialId_eq h, (List.append_eq_nil_iff.mp hdefects).1]
        rfl
      have hsymbols : SortedSet.ofList r.symbols = b.alphabet := SortedSet.ext_mem fun a => by
        rw [SortedSet.mem_ofList, h.symbols_eq, SortedSet.mem_toList]
      have hids : r.finals.filterMap r.id? = b.finals.map b.stateId := by
        rw [h.finals_eq, ← List.filterMap_eq_map]
        refine List.filterMap_congr fun k hk => ?_
        rw [h.id?_eq, idxOf?_of_mem (hfinals k hk)]
        rfl
      have htable : r.transitions.foldl r.addMove ∅ = b.table := by
        rw [h.transitions_eq, Draft.table]
        refine List.foldl_ext _ _ _ fun table t ht => ?_
        obtain ⟨hsource, -, htarget⟩ := htransitions t ht
        rw [addMove, h.id?_eq, h.id?_eq, idxOf?_of_mem hsource, idxOf?_of_mem htarget]
        rfl
      rw [hinitial, h.states_eq, hsymbols, hids, htable]
      rfl

/-! ## Positions that are handles -/

omit [Target τ] in
theorem length_insertState (r : Register τ) (k : String) : (r.insertState k).states.length =
    if (r.id? k).isSome then r.states.length else r.states.length + 1 := by
  rw [insertState]
  split
  · rfl
  · exact List.length_append

/-- Only the declaration of a state adds one. -/
theorem states_declare (r : Register τ) : ∀ {x : Declaration}, (∀ k, x ≠ .state k) →
    (r.declare x).states = r.states
  | .state k, h => absurd rfl (h k)
  | .symbol a, _ => by rw [declare, insertSymbol_eq]
  | .initial _, _ => rfl
  | .final _, _ => by
      rw [declare, insertFinal]
      split <;> rfl
  | .transition _, _ => by
      rw [declare, insertTransition]
      split
      · rfl
      · split <;> rfl

/-- **A declaration is taken unless it adds a state without a handle.** -/
theorem declare?_eq (hr : r.states.length ≤ StateId.limit) (x : Declaration) : r.declare? x =
    if (r.declare x).states.length ≤ StateId.limit then some (r.declare x) else none := by
  cases x with
  | state k =>
      rw [declare, length_insertState, declare?, insertState?, insertState]
      cases (r.id? k).isSome with
      | true => exact (if_pos hr).symm
      | false =>
          by_cases hlt : r.states.length < StateId.limit
          · rw [StateId.ofNat?, if_pos hlt]
            exact (if_pos hlt).symm
          · rw [StateId.ofNat?, if_neg hlt]
            exact (if_neg hlt).symm
  | symbol _ | initial _ | final _ | transition _ =>
      rw [states_declare r (by simp), if_pos hr]
      rfl

theorem length_le_declare (r : Register τ) (x : Declaration) :
    r.states.length ≤ (r.declare x).states.length := by
  cases x with
  | state k =>
      rw [declare, length_insertState]
      split <;> omega
  | symbol _ | initial _ | final _ | transition _ => rw [states_declare r (by simp)]

/-- **Declarations are taken as long as there are handles for the states.** -/
theorem ofDeclarations?_eq (l : List Declaration) : (ofDeclarations? l : Option (Register τ)) =
    if (ofDeclarations l : Register τ).states.length ≤ StateId.limit then some (ofDeclarations l)
    else none := by
  induction l using List.reverseRecOn with
  | nil => rfl
  | append_singleton l x ih =>
      have hlast : (ofDeclarations (l ++ [x]) : Register τ) = (ofDeclarations l).declare x :=
        List.foldl_concat ..
      rw [ofDeclarations?, List.foldlM_append, ← ofDeclarations?, ih, hlast]
      split
      case isTrue h => exact (bind_pure _).trans (declare?_eq h x)
      case isFalse h =>
        exact (if_neg fun hle => h (Nat.le_trans (length_le_declare _ x) hle)).symm

end Register

end Automata
