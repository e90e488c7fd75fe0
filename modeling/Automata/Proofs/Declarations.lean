import Automata.Draft

/-!
# Proofs/Declarations — what a list of declarations leaves in a draft

Every kind of declaration changes one field of a draft and reads no other, so each field of
`Draft.declareAll` is a fold over the declarations of its own kind (`Draft.field_declareAll`).

States, final states and the moves of a machine that does not branch are all kept by
`appendFresh`: a new value goes to the end of a list unless its key is taken.
-/

namespace Automata

/-! ## Lists with one value for each key -/

section

variable {α κ : Type} [DecidableEq κ] (key : α → κ)

/-- Puts a value at the end of a list, unless its key is on it. -/
def appendFresh (l : List α) (x : α) : List α := if key x ∈ l.map key then l else l ++ [x]

theorem appendNew_eq : appendNew = appendFresh id := by
  funext l x
  simp [appendNew, appendFresh]

theorem sublist_foldl_appendFresh (m : List α) :
    ∀ l : List α, (m.foldl (appendFresh key) l).Sublist (l ++ m) := by
  induction m with
  | nil => simp
  | cons x m ih =>
      intro l
      rw [List.foldl_cons, appendFresh]
      split
      · exact (ih l).trans (List.Sublist.append_left (List.sublist_cons_self x m) l)
      · simpa using ih (l ++ [x])

/-- **No key is there twice.** -/
theorem nodup_foldl_appendFresh (m : List α) :
    ∀ {l : List α}, (l.map key).Nodup → ((m.foldl (appendFresh key) l).map key).Nodup := by
  induction m with
  | nil => exact id
  | cons x m ih =>
      intro l hl
      rw [List.foldl_cons, appendFresh]
      split
      · exact ih hl
      · rename_i hx
        refine ih ?_
        rw [List.map_append, List.nodup_append]
        refine ⟨hl, by simp, fun k hk k' hk' e => hx ?_⟩
        rwa [← List.mem_singleton.mp hk', ← e]

/-- What is there stays where it is. -/
theorem prefix_foldl_appendFresh (m : List α) :
    ∀ l : List α, l <+: m.foldl (appendFresh key) l := by
  induction m with
  | nil => exact fun l => List.prefix_refl l
  | cons x m ih =>
      intro l
      rw [List.foldl_cons]
      refine List.IsPrefix.trans ?_ (ih _)
      rw [appendFresh]
      split
      · exact List.prefix_refl l
      · exact List.prefix_append l [x]

/-- A value stands first on a list, or behind the first. -/
theorem exists_cons_eq_append_cons {x y : α} {m : List α} {P : List α → Prop} :
    (∃ before after, x :: m = before ++ y :: after ∧ P before) ↔
      x = y ∧ P [] ∨ ∃ before after, m = before ++ y :: after ∧ P (x :: before) := by
  constructor
  · rintro ⟨_ | ⟨z, before⟩, after, h, hP⟩
    · exact .inl ⟨(List.cons.inj h).1, hP⟩
    · obtain ⟨rfl, rfl⟩ := List.cons.inj h
      exact .inr ⟨before, after, rfl, hP⟩
  · rintro (⟨rfl, hP⟩ | ⟨before, after, rfl, hP⟩)
    · exact ⟨[], m, rfl, hP⟩
    · exact ⟨x :: before, after, rfl, hP⟩

/-- **A value is there if it was, or if it is the first with its key.** -/
theorem mem_foldl_appendFresh_iff {y : α} : ∀ {m l : List α}, y ∈ m.foldl (appendFresh key) l ↔
    y ∈ l ∨ ∃ before after, m = before ++ y :: after ∧ key y ∉ (l ++ before).map key
  | [], l => by simp
  | x :: m, l => by
      rw [List.foldl_cons, mem_foldl_appendFresh_iff, exists_cons_eq_append_cons, List.append_nil]
      by_cases hx : key x ∈ l.map key
      · -- the key of `x` is taken, so `x` is not there and takes no key
        have hfirst : ¬ (x = y ∧ key y ∉ l.map key) := fun ⟨e, hy⟩ => hy (e ▸ hx)
        have hkeys : ∀ before : List α, key y ∈ (l ++ x :: before).map key ↔
            key y ∈ (l ++ before).map key := fun before => by
          rw [List.map_append, List.map_append, List.map_cons, List.mem_append, List.mem_append,
            List.mem_cons]
          exact ⟨fun h => h.elim .inl fun h => h.elim (fun e => .inl (e ▸ hx)) .inr,
            fun h => h.imp_right .inr⟩
        simp only [appendFresh, if_pos hx, hfirst, false_or, hkeys]
      · have hfirst : x = y ∧ key y ∉ l.map key ↔ y = x :=
          ⟨fun h => h.1.symm, fun e => ⟨e.symm, e ▸ hx⟩⟩
        simp only [appendFresh, if_neg hx, hfirst, List.mem_append, List.mem_singleton, or_assoc,
          List.append_assoc, List.singleton_append]

/-- **The first value with a key is found**, whether or not those behind it are left out. -/
theorem find?_foldl_appendFresh (k : κ) : ∀ m l : List α,
    (m.foldl (appendFresh key) l).find? (key · = k) = (l ++ m).find? (key · = k)
  | [], l => by simp
  | x :: m, l => by
      rw [List.foldl_cons, find?_foldl_appendFresh k m, appendFresh]
      split
      · rename_i hx
        obtain ⟨y, hy, hyx⟩ := List.mem_map.mp hx
        rw [List.find?_append, List.find?_append, List.find?_cons]
        by_cases hk : key x = k
        · -- a value with this key stands on `l`
          have hsome : (l.find? (key · = k)).isSome := by
            rw [List.find?_isSome]
            exact ⟨y, hy, decide_eq_true (hyx.trans hk)⟩
          obtain ⟨z, hz⟩ := Option.isSome_iff_exists.mp hsome
          rw [hz]
          rfl
        · simp [hk]
      · rw [List.append_assoc, List.singleton_append]

/-- A value is the only one with its key, and so the first. -/
theorem find?_eq_some_of_nodup {l : List α} {x : α} (h : (l.map key).Nodup)
    (hx : x ∈ l) : l.find? (key · = key x) = some x := by
  obtain ⟨before, after, rfl⟩ := List.append_of_mem hx
  rw [List.map_append, List.nodup_append] at h
  refine List.find?_eq_some_iff_append.mpr ⟨by simp, before, after, rfl, fun y hy => ?_⟩
  simpa using h.2.2 (key y) (List.mem_map_of_mem hy) (key x) (by simp)

/-- **Where no key is taken, nothing is left out.** -/
theorem foldl_appendFresh_of_nodup (m : List α) :
    ∀ {l : List α}, ((l ++ m).map key).Nodup → m.foldl (appendFresh key) l = l ++ m := by
  induction m with
  | nil => simp
  | cons x m ih =>
      intro l h
      have hx : key x ∉ l.map key := fun hx => by
        rw [List.map_append, List.nodup_append] at h
        exact h.2.2 _ hx _ (List.mem_map_of_mem List.mem_cons_self) rfl
      rw [List.foldl_cons, appendFresh, if_neg hx, ih (by simpa using h)]
      simp

end

theorem mem_foldl_appendNew {k : String} :
    ∀ {m l : List String}, k ∈ m.foldl appendNew l ↔ k ∈ l ∨ k ∈ m
  | [], l => by simp
  | x :: m, l => by
      have hnew : k ∈ appendNew l x ↔ k ∈ l ∨ k = x := by
        rw [appendNew]
        split
        · rename_i hx
          exact (or_iff_left_of_imp fun e => e ▸ hx).symm
        · simp
      rw [List.foldl_cons, mem_foldl_appendNew, hnew, or_assoc, List.mem_cons]

/-! ## Declarations of one kind -/

namespace Declaration

def state? : Declaration → Option String
  | state l => some l
  | _ => none

def symbol? : Declaration → Option Symbol
  | symbol a => some a
  | _ => none

def initial? : Declaration → Option String
  | initial l => some l
  | _ => none

def final? : Declaration → Option String
  | final l => some l
  | _ => none

def transition? : Declaration → Option Transition
  | transition t => some t
  | _ => none

variable {x : Declaration}

theorem state?_eq_some_iff {k : String} : x.state? = some k ↔ x = state k := by
  cases x <;> simp [state?]

theorem symbol?_eq_some_iff {a : Symbol} : x.symbol? = some a ↔ x = symbol a := by
  cases x <;> simp [symbol?]

theorem final?_eq_some_iff {k : String} : x.final? = some k ↔ x = final k := by
  cases x <;> simp [final?]

theorem transition?_eq_some_iff {t : Transition} : x.transition? = some t ↔ x = transition t := by
  cases x <;> simp [transition?]

section

variable {α : Type} {pick : Declaration → Option α} {mk : α → Declaration} {l : List Declaration}
  {k : α}

/-- What is declared of one kind. -/
theorem mem_filterMap_iff (h : ∀ {x k}, pick x = some k ↔ x = mk k) :
    k ∈ l.filterMap pick ↔ mk k ∈ l := by
  rw [List.mem_filterMap]
  exact ⟨fun ⟨x, hx, hk⟩ => h.mp hk ▸ hx, fun hk => ⟨mk k, hk, h.mpr rfl⟩⟩

/-- What stands before a declaration, with the other kinds or without. -/
theorem exists_filterMap_eq_append_cons (h : ∀ {x k}, pick x = some k ↔ x = mk k) {P : α → Prop} :
    (∃ before after, l.filterMap pick = before ++ k :: after ∧ ∀ j ∈ before, P j) ↔
      ∃ before after, l = before ++ mk k :: after ∧ ∀ j, mk j ∈ before → P j := by
  constructor
  · rintro ⟨before, after, hl, hP⟩
    obtain ⟨l₁, l₂, rfl, rfl, hl₂⟩ := List.filterMap_eq_append_iff.mp hl
    obtain ⟨l₃, x, l₄, rfl, hnone, hx, -⟩ := List.filterMap_eq_cons_iff.mp hl₂
    obtain rfl := h.mp hx
    refine ⟨l₁ ++ l₃, l₄, (List.append_assoc _ _ _).symm, fun j hj => ?_⟩
    obtain hj | hj := List.mem_append.mp hj
    · exact hP j ((mem_filterMap_iff h).mpr hj)
    · exact nomatch (hnone _ hj).symm.trans (h.mpr rfl)
  · rintro ⟨before, after, rfl, hP⟩
    refine ⟨before.filterMap pick, after.filterMap pick, ?_, fun j hj =>
      hP j ((mem_filterMap_iff h).mp hj)⟩
    rw [List.filterMap_append, List.filterMap_cons_some (h.mpr rfl)]

end

end Declaration

/-- The state and the symbol a transition leads from. -/
def Transition.key (t : Transition) : String × Symbol := (t.source, t.symbol)

namespace Draft

variable {τ : Type} [Target τ] {b : Draft τ}

variable (τ) in
/-- Records a transition among those recorded so far. -/
def recordTransition (l : List Transition) (t : Transition) : List Transition :=
  if Target.branching τ then l ++ [t] else appendFresh Transition.key l t

theorem insertTransition_eq (t : Transition) : b.insertTransition t =
    { b with transitions := recordTransition τ b.transitions t } := by
  have hkey : b.defines t.source t.symbol = true ↔ t.key ∈ b.transitions.map Transition.key := by
    simp [defines, Transition.key, Prod.ext_iff]
  rw [insertTransition, recordTransition, appendFresh]
  simp only [← hkey]
  cases Target.branching τ <;> cases b.defines t.source t.symbol <;> rfl

/-- **A field is filled by the declarations of its kind, in their order.** -/
theorem field_declareAll {α β : Type} (field : Draft τ → α) {pick : Declaration → Option β}
    {step : α → β → α}
    (h : ∀ b x, field (declare b x) = ((pick x).map (step (field b))).getD (field b)) :
    ∀ (l : List Declaration) (b : Draft τ),
      field (b.declareAll l) = (l.filterMap pick).foldl step (field b)
  | [], _ => rfl
  | x :: l, b => by
      rw [declareAll, List.foldl_cons, ← declareAll, field_declareAll field h l, h,
        List.filterMap_cons]
      cases pick x <;> rfl

variable (l : List Declaration)

theorem states_declareAll :
    (b.declareAll l).states = (l.filterMap Declaration.state?).foldl appendNew b.states :=
  field_declareAll states
    (fun b x => by cases x <;> simp only [declare, insertTransition_eq] <;> rfl) l b

/-- **No state is declared twice.** -/
theorem nodup_states_ofDeclarations : (ofDeclarations l : Draft τ).states.Nodup := by
  rw [ofDeclarations, states_declareAll, appendNew_eq]
  simpa using nodup_foldl_appendFresh id (l.filterMap Declaration.state?) (l := []) (by simp)

theorem alphabet_declareAll :
    (b.declareAll l).alphabet = b.alphabet.insertAll (l.filterMap Declaration.symbol?) :=
  field_declareAll alphabet
    (fun b x => by cases x <;> simp only [declare, insertTransition_eq] <;> rfl) l b

/-- The last initial state counts. -/
theorem initial_declareAll : (b.declareAll l).initial =
    (l.filterMap Declaration.initial?).foldl (fun _ k => some k) b.initial :=
  field_declareAll initial
    (fun b x => by cases x <;> simp only [declare, insertTransition_eq] <;> rfl) l b

theorem finals_declareAll :
    (b.declareAll l).finals = (l.filterMap Declaration.final?).foldl appendNew b.finals :=
  field_declareAll finals
    (fun b x => by cases x <;> simp only [declare, insertTransition_eq] <;> rfl) l b

theorem transitions_declareAll : (b.declareAll l).transitions =
    (l.filterMap Declaration.transition?).foldl (recordTransition τ) b.transitions :=
  field_declareAll transitions
    (fun b x => by cases x <;> simp only [declare, insertTransition_eq] <;> rfl) l b

/-! ## Recorded transitions -/

theorem foldl_recordTransition (ts us : List Transition) :
    us.foldl (recordTransition τ) ts =
      if Target.branching τ then ts ++ us else us.foldl (appendFresh Transition.key) ts := by
  unfold recordTransition
  split
  · rw [List.foldl_append_eq_append, ← List.flatMap_def, List.flatMap_singleton']
  · rfl

/-- What is recorded was declared. -/
theorem sublist_foldl_recordTransition (ts us : List Transition) :
    (us.foldl (recordTransition τ) ts).Sublist (ts ++ us) := by
  rw [foldl_recordTransition]
  split
  · exact List.Sublist.refl _
  · exact sublist_foldl_appendFresh _ us ts

/-- **All transitions are recorded** where none is given twice, or several may be. -/
theorem foldl_recordTransition_eq {ts : List Transition}
    (h : Target.branching τ = false → (ts.map Transition.key).Nodup) :
    ts.foldl (recordTransition τ) [] = ts := by
  rw [foldl_recordTransition]
  split
  · rfl
  · rename_i hb
    exact foldl_appendFresh_of_nodup _ ts (h (Bool.eq_false_iff.mpr hb))

/-- **No move is recorded twice** where a state and a symbol lead to one state only. -/
theorem nodup_keys_ofDeclarations (h : Target.branching τ = false) (l : List Declaration) :
    ((ofDeclarations l : Draft τ).transitions.map Transition.key).Nodup := by
  rw [ofDeclarations, transitions_declareAll, foldl_recordTransition, h, if_neg Bool.false_ne_true]
  exact nodup_foldl_appendFresh _ _ List.nodup_nil

end Draft

end Automata
