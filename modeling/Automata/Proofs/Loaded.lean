import Automata.Error
import Automata.Proofs.WellFormed

/-!
# Proofs/Loaded — automata made from drafts, listings and bytes are well formed

A draft without defects resolves every reference (`Draft.defects_eq_nil_iff`), and its table gains
one move after another without ever leading out of the states (`Table.Fits.record`), so what is
built is well formed (`wellFormed_of_build`).  A payload is checked for the same thing part by part
(`wellFormed_of_machine?`).  `Machine.Loaded` holds of the automata that come from outside, and
`Machine.Loaded.wellFormed` is what all algorithms rely on.
-/

namespace Automata

/-! ## Steps that succeed -/

section

variable {ε ε' α β : Type} {x : Except ε α}

theorem map_eq_ok_iff {f : α → β} {y : β} : x.map f = .ok y ↔ ∃ a, x = .ok a ∧ f a = y := by
  cases x <;> simp [Except.map]

theorem mapError_eq_ok_iff {f : ε → ε'} {a : α} : x.mapError f = .ok a ↔ x = .ok a := by
  cases x with
  | error e => exact iff_of_false nofun nofun
  | ok b => exact ⟨fun h => congrArg _ (Except.ok.inj h), fun h => congrArg _ (Except.ok.inj h)⟩

theorem bind_eq_ok_iff {f : α → Except ε β} {y : β} :
    (x >>= f) = .ok y ↔ ∃ a, x = .ok a ∧ f a = .ok y := by
  cases x <;> simp [bind, Except.bind]

end

/-! ## Targets -/

/-- A target leads to what was recorded in it, and to nothing else. -/
class LawfulTarget (τ : Type) [Target τ] : Prop where
  mem_states_record : ∀ {t : Option τ} {q r : StateId}, r ∈ Target.states (Target.record t q) →
    r = q ∨ ∃ u, t = some u ∧ r ∈ Target.states u

instance : LawfulTarget StateId where
  mem_states_record {t q r} h := by
    cases t with
    | none => exact .inl (List.mem_singleton.mp h)
    | some u => exact .inr ⟨u, rfl, h⟩

instance : LawfulTarget (List StateId) where
  mem_states_record {t q r} h := by
    cases t with
    | none => exact .inl (List.mem_singleton.mp h)
    | some l =>
        change r ∈ (if q ∈ l then l else l ++ [q]) at h
        split at h
        · exact .inr ⟨l, rfl, h⟩
        · obtain h | h := List.mem_append.mp h
          · exact .inr ⟨l, rfl, h⟩
          · exact .inl (List.mem_singleton.mp h)

/-! ## References -/

variable {τ : Type}

namespace Draft

variable {b : Draft τ}

theorem initialDefects_eq_nil_iff : b.initialDefects = [] ↔
    ∃ l, b.initial = some l ∧ l ∈ b.states := by
  rw [initialDefects]
  cases b.initial <;> simp [knows]

theorem finalDefects_eq_nil_iff : b.finalDefects = [] ↔ ∀ l ∈ b.finals, l ∈ b.states := by
  simp [finalDefects, knows, List.filter_eq_nil_iff]

theorem transitionDefects_eq_nil_iff {t : Transition} : b.transitionDefects t = [] ↔
    t.source ∈ b.states ∧ t.symbol ∈ b.alphabet ∧ t.target ∈ b.states := by
  simp [transitionDefects, knows]

/-- **A draft has no defect exactly when it resolves all its references.** -/
theorem defects_eq_nil_iff : b.defects = [] ↔
    (∃ l, b.initial = some l ∧ l ∈ b.states) ∧ (∀ l ∈ b.finals, l ∈ b.states) ∧
      ∀ t ∈ b.transitions, t.source ∈ b.states ∧ t.symbol ∈ b.alphabet ∧ t.target ∈ b.states := by
  rw [defects, List.append_eq_nil_iff, List.append_eq_nil_iff, List.flatMap_eq_nil_iff,
    initialDefects_eq_nil_iff, finalDefects_eq_nil_iff, and_assoc]
  simp only [transitionDefects_eq_nil_iff]

end Draft

theorem Payload.checkState_eq_nil_iff {v : Payload τ} {role : Role} {s : StateId} :
    v.checkState role s = [] ↔ s < v.labels.length := by
  rw [checkState]
  split <;> simp_all

/-! ## Tables -/

variable [Target τ]

/-- **A table of moves among `n` states on symbols of `A`.** -/
def Table.Fits (table : Table τ) (n : Nat) (A : Alphabet) : Prop :=
  ∀ p row, table.find? p = some row → p < n ∧
    ∀ a t, row.find? a = some t → a ∈ A ∧ ∀ q ∈ Target.states t, q < n

theorem Table.fits_empty (n : Nat) (A : Alphabet) : Table.Fits (∅ : Table τ) n A :=
  fun _ _ h => absurd h (by simp)

/-- **Recording one more move keeps a table fitting.** -/
theorem Table.Fits.record [LawfulTarget τ] {table : Table τ} {n : Nat} {A : Alphabet}
    (h : table.Fits n A) {p : StateId} {a : Symbol} {q : StateId} (hp : p < n) (ha : a ∈ A)
    (hq : q < n) : Table.Fits (Draft.record table p a q) n A := by
  intro r row hr
  by_cases hrp : r = p
  case neg =>
    rw [Draft.record, SortedMap.find?_update_of_ne _ _ hrp] at hr
    exact h r row hr
  subst hrp
  rw [Draft.record, SortedMap.find?_update_self] at hr
  obtain rfl := Option.some.inj hr
  -- the row so far, empty where the state had none
  have hrow : ∀ b t, ((table.find? r).getD ∅).find? b = some t →
      b ∈ A ∧ ∀ s ∈ Target.states t, s < n := by
    intro b t hb
    cases hold : table.find? r with
    | none => rw [hold] at hb; exact absurd hb (by simp)
    | some old => rw [hold] at hb; exact (h r old hold).2 b t hb
  refine ⟨hp, fun b t hb => ?_⟩
  by_cases hba : b = a
  case neg =>
    rw [SortedMap.find?_update_of_ne _ _ hba] at hb
    exact hrow b t hb
  subst hba
  rw [SortedMap.find?_update_self] at hb
  obtain rfl := Option.some.inj hb
  refine ⟨ha, fun s hs => ?_⟩
  obtain rfl | ⟨u, hu, hs⟩ := LawfulTarget.mem_states_record hs
  · exact hq
  · exact (hrow b u hu).2 s hs

/-! ## Drafts -/

namespace Draft

variable {b : Draft τ} {m : Machine τ}

theorem build_eq_ok_iff : b.build = .ok m ↔ b.defects = [] ∧ m = b.machine := by
  rw [build, map_eq_ok_iff, verify]
  cases b.defects <;> simp [eq_comm]

variable [LawfulTarget τ]

/-- The transitions of a draft without defects make a table that fits it. -/
theorem fits_table (h : b.defects = []) : b.table.Fits b.states.length b.alphabet := by
  obtain ⟨-, -, htransitions⟩ := defects_eq_nil_iff.mp h
  have key : ∀ (l : List Transition) (table : Table τ),
      (∀ t ∈ l, t.source ∈ b.states ∧ t.symbol ∈ b.alphabet ∧ t.target ∈ b.states) →
      table.Fits b.states.length b.alphabet →
      (l.foldl (fun table t => record table (b.stateId t.source) t.symbol (b.stateId t.target))
        table).Fits b.states.length b.alphabet := by
    intro l
    induction l with
    | nil => exact fun _ _ h => h
    | cons t l ih =>
        intro table hl htable
        obtain ⟨hsource, hsymbol, htarget⟩ := hl t List.mem_cons_self
        exact ih _ (fun u hu => hl u (List.mem_cons_of_mem t hu))
          (htable.record (List.idxOf_lt_length_of_mem hsource) hsymbol
            (List.idxOf_lt_length_of_mem htarget))
  exact key b.transitions ∅ htransitions (Table.fits_empty _ _)

/-- **What is built is well formed.** -/
theorem wellFormed_of_build (h : b.build = .ok m) : m.WellFormed := by
  obtain ⟨hdefects, rfl⟩ := build_eq_ok_iff.mp h
  obtain ⟨⟨l, hl, hmem⟩, hfinals, -⟩ := defects_eq_nil_iff.mp hdefects
  have htable := fits_table hdefects
  refine .of_find? ?initial (fun q hq => ?finals) (fun p row h => (htable p row h).1)
    fun p row a t h ht => (htable p row h).2 a t ht
  case initial =>
    change b.stateId (b.initial.getD "") < b.states.length
    rw [hl]
    exact List.idxOf_lt_length_of_mem hmem
  case finals =>
    obtain ⟨k, hk, rfl⟩ := List.mem_map.mp (SortedSet.mem_ofList.mp hq)
    exact List.idxOf_lt_length_of_mem (hfinals k hk)

end Draft

/-! ## Payloads -/

namespace Payload

variable {v : Payload τ} {m : Machine τ}

theorem checkEntry_eq_nil_iff {e : Symbol × τ} : v.checkEntry e = [] ↔
    e.1 ∈ v.alphabet ∧ ∀ q ∈ Target.states e.2, q < v.labels.length := by
  simp [checkEntry, checkState_eq_nil_iff]

theorem checkRow_eq_nil_iff {r : StateId × Row τ} : v.checkRow r = [] ↔
    r.1 < v.labels.length ∧ ∀ e ∈ r.2.entries, e.1 ∈ v.alphabet ∧
      ∀ q ∈ Target.states e.2, q < v.labels.length := by
  simp only [checkRow, List.append_eq_nil_iff, checkState_eq_nil_iff, List.flatMap_eq_nil_iff,
    checkEntry_eq_nil_iff]

/-- **What passes the check is well formed.** -/
theorem wellFormed_of_machine? (h : v.machine? = .ok m) : m.WellFormed := by
  rw [machine?] at h
  cases hv : v.inconsistencies with
  | cons e l => rw [hv] at h; exact nomatch h
  | nil =>
      rw [hv] at h
      obtain rfl := Except.ok.inj h
      simp only [inconsistencies, List.append_eq_nil_iff, checkState_eq_nil_iff,
        List.flatMap_eq_nil_iff, checkRow_eq_nil_iff] at hv
      obtain ⟨⟨⟨-, hinitial⟩, hfinals⟩, htable⟩ := hv
      refine ⟨hinitial, hfinals, fun r hr => ⟨(htable r hr).1, fun e he => ?_⟩⟩
      obtain ⟨hsymbol, hstates⟩ := (htable r hr).2 e he
      exact ⟨SortedSet.mem_ofList.mpr hsymbol, hstates⟩

end Payload

/-! ## Automata from outside -/

/-- **An automaton made from a draft, a listing or bytes.** -/
inductive Machine.Loaded [Listing.Layout τ] [Coded τ] : Machine τ → Prop
  | built {m : Machine τ} (b : Draft τ) (h : ofDraft b = .ok m) : Loaded m
  | listed {m : Machine τ} (t : String) (h : ofListing t = .ok m) : Loaded m
  | decoded {m : Machine τ} (bs : List UInt8) (h : ofBytes bs = .ok m) : Loaded m

namespace Machine

variable {m : Machine τ}

theorem wellFormed_of_ofDraft [LawfulTarget τ] {b : Draft τ} (h : ofDraft b = .ok m) :
    m.WellFormed :=
  Draft.wellFormed_of_build (mapError_eq_ok_iff.mp h)

/-- A draft without defects makes an automaton. -/
theorem loaded_machine [Listing.Layout τ] [Coded τ] {b : Draft τ} (h : b.defects = []) :
    b.machine.Loaded :=
  .built b (mapError_eq_ok_iff.mpr (Draft.build_eq_ok_iff.mpr ⟨h, rfl⟩))

/-- **Every automaton from outside is well formed.** -/
theorem Loaded.wellFormed [Listing.Layout τ] [Coded τ] [LawfulTarget τ] (h : m.Loaded) :
    m.WellFormed := by
  cases h with
  | built b h => exact wellFormed_of_ofDraft h
  | listed t h =>
      obtain ⟨b, -, hb⟩ := bind_eq_ok_iff.mp h
      exact wellFormed_of_ofDraft hb
  | decoded bs h =>
      obtain ⟨r, -, hr⟩ := bind_eq_ok_iff.mp h
      exact Payload.wellFormed_of_machine? (mapError_eq_ok_iff.mp hr)

end Machine

end Automata
