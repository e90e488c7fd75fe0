import Automata.Proofs.Minimize.Quotient
import Mathlib.Data.Finset.Card
import Mathlib.Data.Nat.Find

/-!
# Proofs/Minimize/Depth — how long a word must be to tell two states apart

A word of at most `k + 1` symbols separates two states that differ in finality or that its first
symbol leads to states which `k` symbols separate (`separatedWithin_succ_iff`).  So once one symbol
more separates nothing new, no longer word does (`SeparatedWithin.of_stable`).  Up to there each
symbol more adds to the `leaders`, the states told apart from all lower ones, and there are no more
leaders than classes: `Separated.within` bounds the length by the number of classes less two.
-/

namespace Automata.Dfa

variable {d : Dfa} {k l : Nat} {p q r s : StateId} {a : Symbol}

/-! ## Separation by short words -/

/-- **Some word of at most `k` symbols leads just one of two states to a final state.** -/
def SeparatedWithin (d : Dfa) (k : Nat) (p q : StateId) : Prop :=
  ∃ w, w.length ≤ k ∧
    ∃ p' q', d.runFrom p w = some p' ∧ d.runFrom q w = some q' ∧ d.isFinal p' ≠ d.isFinal q'

theorem Separated.exists_within (h : d.Separated p q) : ∃ k, d.SeparatedWithin k p q := by
  obtain ⟨w, p', q', hp, hq, hne⟩ := h
  exact ⟨w.length, w, Nat.le_refl _, p', q', hp, hq, hne⟩

theorem SeparatedWithin.separated (h : d.SeparatedWithin k p q) : d.Separated p q := by
  obtain ⟨w, -, p', q', hp, hq, hne⟩ := h
  exact ⟨w, p', q', hp, hq, hne⟩

theorem SeparatedWithin.mono (h : d.SeparatedWithin k p q) (hkl : k ≤ l) :
    d.SeparatedWithin l p q := by
  obtain ⟨w, hw, h⟩ := h
  exact ⟨w, hw.trans hkl, h⟩

theorem SeparatedWithin.symm (h : d.SeparatedWithin k p q) : d.SeparatedWithin k q p := by
  obtain ⟨w, hw, p', q', hp, hq, hne⟩ := h
  exact ⟨w, hw, q', p', hq, hp, hne.symm⟩

theorem separatedWithin_of_isFinal_ne (h : d.isFinal p ≠ d.isFinal q) : d.SeparatedWithin k p q :=
  ⟨[], Nat.zero_le k, p, q, rfl, rfl, h⟩

theorem separatedWithin_zero_iff : d.SeparatedWithin 0 p q ↔ d.isFinal p ≠ d.isFinal q := by
  refine ⟨?_, separatedWithin_of_isFinal_ne⟩
  rintro ⟨w, hw, p', q', hp, hq, hne⟩
  obtain rfl := List.length_eq_zero_iff.mp (Nat.le_zero.mp hw)
  rwa [Option.some.inj hp, Option.some.inj hq]

/-- **One symbol more separates what it leads to separated states.** -/
theorem separatedWithin_succ_iff : d.SeparatedWithin (k + 1) p q ↔ d.isFinal p ≠ d.isFinal q ∨
    ∃ a p' q', d.next? p a = some p' ∧ d.next? q a = some q' ∧ d.SeparatedWithin k p' q' := by
  constructor
  · rintro ⟨w, hw, p₂, q₂, hp, hq, hne⟩
    cases w with
    | nil => exact .inl (Option.some.inj hp ▸ Option.some.inj hq ▸ hne)
    | cons a w =>
        rw [runFrom_cons] at hp hq
        obtain ⟨p', hp', hp⟩ := Option.bind_eq_some_iff.mp hp
        obtain ⟨q', hq', hq⟩ := Option.bind_eq_some_iff.mp hq
        exact .inr ⟨a, p', q', hp', hq', w, Nat.le_of_succ_le_succ hw, p₂, q₂, hp, hq, hne⟩
  · rintro (h | ⟨a, p', q', hp, hq, w, hw, p₂, q₂, hp₂, hq₂, hne⟩)
    · exact separatedWithin_of_isFinal_ne h
    · refine ⟨a :: w, Nat.succ_le_succ hw, p₂, q₂, ?_, ?_, hne⟩
      · rw [runFrom_cons, hp, Option.bind_some, hp₂]
      · rw [runFrom_cons, hq, Option.bind_some, hq₂]

/-- In a total automaton not being separated by short words is transitive. -/
theorem not_separatedWithin_trans (h : d.WellFormed) (ht : d.isTotal = true) (hq : q < d.numStates)
    (hpq : ¬ d.SeparatedWithin k p q) (hqr : ¬ d.SeparatedWithin k q r) :
    ¬ d.SeparatedWithin k p r := by
  rintro ⟨w, hw, p', r', hp, hr, hne⟩
  obtain ⟨q', hq', hpq' | hqr'⟩ := exists_run_isFinal_ne h ht hq hp hne
  · exact hpq ⟨w, hw, p', q', hp, hq', hpq'⟩
  · exact hqr ⟨w, hw, q', r', hq', hr, hqr'⟩

/-- **Where one symbol more separates nothing new, no longer word does.** -/
theorem SeparatedWithin.of_stable (h : d.WellFormed)
    (hk : ∀ p < d.numStates, ∀ q < d.numStates,
      d.SeparatedWithin (k + 1) p q → d.SeparatedWithin k p q) :
    ∀ {l : Nat} {p q : StateId}, p < d.numStates → q < d.numStates → d.SeparatedWithin l p q →
      d.SeparatedWithin k p q
  | 0, p, q, _, _, hpq => hpq.mono (Nat.zero_le k)
  | l + 1, p, q, hp, hq, hpq => by
      refine hk p hp q hq (separatedWithin_succ_iff.mpr ?_)
      obtain hne | ⟨a, p', q', hp', hq', hpq'⟩ := separatedWithin_succ_iff.mp hpq
      · exact .inl hne
      · exact .inr ⟨a, p', q', hp', hq', of_stable h hk (next?_lt h hp') (next?_lt h hq') hpq'⟩

/-- While some separated states are not separated yet, one symbol more separates something new. -/
theorem exists_separatedWithin_succ (h : d.WellFormed) (hp : p < d.numStates)
    (hq : q < d.numStates) (hpq : d.Separated p q) (hk : ¬ d.SeparatedWithin k p q) :
    ∃ r < d.numStates, ∃ s < d.numStates,
      d.SeparatedWithin (k + 1) r s ∧ ¬ d.SeparatedWithin k r s := by
  by_contra hnone
  push Not at hnone
  obtain ⟨l, hl⟩ := hpq.exists_within
  exact hk (hl.of_stable h hnone hp hq)

/-! ## Leaders -/

open Classical in
/-- The states that words of at most `k` symbols tell apart from every lower state. -/
noncomputable def leaders (d : Dfa) (k : Nat) : Finset StateId :=
  {s ∈ Finset.range d.numStates | ∀ r < s, d.SeparatedWithin k r s}

theorem mem_leaders_iff :
    s ∈ d.leaders k ↔ s < d.numStates ∧ ∀ r < s, d.SeparatedWithin k r s := by
  simp only [leaders, Finset.mem_filter, Finset.mem_range]

theorem leaders_subset_succ : d.leaders k ⊆ d.leaders (k + 1) := by
  intro s hs
  obtain ⟨hlt, hsep⟩ := mem_leaders_iff.mp hs
  exact mem_leaders_iff.mpr ⟨hlt, fun r hr => (hsep r hr).mono (Nat.le_succ k)⟩

/-- Leaders are told apart from each other. -/
theorem separatedWithin_of_mem_leaders (hr : r ∈ d.leaders k) (hs : s ∈ d.leaders k) (hne : r ≠ s) :
    d.SeparatedWithin k r s := by
  obtain hlt | hgt := Nat.lt_or_gt_of_ne hne
  · exact (mem_leaders_iff.mp hs).2 r hlt
  · exact ((mem_leaders_iff.mp hr).2 s hgt).symm

/-- **Every state does the same as some leader** — the lowest state that does the same as it. -/
theorem exists_leader (h : d.WellFormed) (ht : d.isTotal = true) (k : Nat) (hs : s < d.numStates) :
    ∃ r ∈ d.leaders k, ¬ d.SeparatedWithin k r s := by
  classical
  have hself : ∃ r, ¬ d.SeparatedWithin k r s := ⟨s, fun hs => not_separated_self hs.separated⟩
  have hr : ¬ d.SeparatedWithin k (Nat.find hself) s := Nat.find_spec hself
  have hlt : Nat.find hself < d.numStates :=
    Nat.lt_of_le_of_lt (Nat.find_min' hself fun hs => not_separated_self hs.separated) hs
  refine ⟨Nat.find hself, mem_leaders_iff.mpr ⟨hlt, fun r' hr' => ?_⟩, hr⟩
  by_contra hsame
  exact Nat.find_min hself hr' (not_separatedWithin_trans h ht hlt hsame hr)

/-- **A symbol that separates something new makes a new leader.** -/
theorem card_leaders_lt (h : d.WellFormed) (ht : d.isTotal = true) (hp : p < d.numStates)
    (hq : q < d.numStates) (hpq : d.SeparatedWithin (k + 1) p q) (hk : ¬ d.SeparatedWithin k p q) :
    (d.leaders k).card < (d.leaders (k + 1)).card := by
  refine Finset.card_lt_card (leaders_subset_succ.ssubset_of_not_subset fun hsub => ?_)
  obtain ⟨r, hr, hrp⟩ := exists_leader h ht (k + 1) hp
  obtain ⟨s, hs, hsq⟩ := exists_leader h ht (k + 1) hq
  have hrn : r < d.numStates := (mem_leaders_iff.mp hr).1
  have hsn : s < d.numStates := (mem_leaders_iff.mp hs).1
  -- were both leaders before, they would be one, as `p` and `q` did the same
  have hsame : ¬ d.SeparatedWithin k r s := by
    have hrp' : ¬ d.SeparatedWithin k r p := fun h => hrp (h.mono (Nat.le_succ k))
    have hqs' : ¬ d.SeparatedWithin k q s := fun h => hsq (h.symm.mono (Nat.le_succ k))
    exact not_separatedWithin_trans h ht hq (not_separatedWithin_trans h ht hp hrp' hk) hqs'
  obtain rfl : r = s := by
    by_contra hne
    exact hsame (separatedWithin_of_mem_leaders (hsub hr) (hsub hs) hne)
  exact not_separatedWithin_trans h ht hrn (mt SeparatedWithin.symm hrp) hsq hpq

/-- There are no more leaders than classes. -/
theorem card_leaders_le (h : d.WellFormed) (ht : d.isTotal = true) (k : Nat) :
    (d.leaders k).card ≤ d.stateClasses.length := by
  rw [← Finset.card_range d.stateClasses.length]
  refine Finset.card_le_card_of_injOn d.classOf (fun s hs => ?mapsTo) fun r hr s hs hrs => ?injOn
  case mapsTo =>
    rw [Finset.coe_range, Set.mem_Iio]
    exact classOf_lt (mem_leaders_iff.mp hs).1
  case injOn =>
    by_contra hne
    have hsep := (separatedWithin_of_mem_leaders hr hs hne).separated
    exact (classOf_eq_iff h ht (mem_leaders_iff.mp hr).1 (mem_leaders_iff.mp hs).1).mp hrs hsep

/-- **While some separated states are not separated yet, every length has made a leader.** -/
theorem add_two_le_card_leaders (h : d.WellFormed) (ht : d.isTotal = true) (hp : p < d.numStates)
    (hq : q < d.numStates) (hpq : d.Separated p q) (hk : ¬ d.SeparatedWithin k p q) :
    k + 2 ≤ (d.leaders k).card := by
  induction k with
  | zero =>
      -- the separating word ends in states of which just one is final
      obtain ⟨w, r, s, hr, hs, hne⟩ := hpq
      obtain ⟨r', hr', hrr'⟩ := exists_leader h ht 0 (runFrom_lt h hp hr)
      obtain ⟨s', hs', hss'⟩ := exists_leader h ht 0 (runFrom_lt h hq hs)
      rw [separatedWithin_zero_iff, not_not] at hrr' hss'
      refine Finset.one_lt_card.mpr ⟨r', hr', s', hs', ?_⟩
      rintro rfl
      exact hne (hrr'.symm.trans hss')
  | succ k ih =>
      have hk' : ¬ d.SeparatedWithin k p q := fun h => hk (h.mono (Nat.le_succ k))
      obtain ⟨r, hr, s, hs, hrs, hrs'⟩ := exists_separatedWithin_succ h hp hq hpq hk'
      exact Nat.succ_le_of_lt (Nat.lt_of_le_of_lt (ih hk') (card_leaders_lt h ht hr hs hrs hrs'))

/-- **Separated states are separated by a word with two symbols less than there are classes.** -/
theorem Separated.within (h : d.WellFormed) (ht : d.isTotal = true) (hp : p < d.numStates)
    (hq : q < d.numStates) (hpq : d.Separated p q) :
    d.SeparatedWithin (d.stateClasses.length - 2) p q := by
  by_contra hk
  have hcard := add_two_le_card_leaders h ht hp hq hpq hk
  obtain ⟨r, hr, s, hs, hrs, hrs'⟩ := exists_separatedWithin_succ h hp hq hpq hk
  have hlt := card_leaders_lt h ht hr hs hrs hrs'
  have hle := card_leaders_le h ht (d.stateClasses.length - 2 + 1)
  omega

end Automata.Dfa
