import Automata.Proofs.Moves
import Automata.Proofs.Nerode
import Mathlib.Order.Monotone.Basic

/-!
# Proofs/Renumbering — renumberings that change no number

Renumberings are composed (`Renumbering.trans`) and carry what words tell apart
(`Renumbering.reduced`).  One that keeps the order of the states changes no number
(`Renumbering.id_of_strictMonoOn`), and then the two automata agree in all but their labels and
their empty rows (`Renumbering.next?_eq_of_id`), so they are equal where these agree too
(`Renumbering.eq_of_id`).
-/

namespace Automata

/-- **Numbers put in one-to-one correspondence in ascending order stay as they are.** -/
theorem eq_self_of_strictMonoOn {f : Nat → Nat} {m n : Nat}
    (hbij : Set.BijOn f (Set.Iio n) (Set.Iio m)) (hmono : StrictMonoOn f (Set.Iio n)) :
    ∀ i < n, f i = i := by
  have hlist : (List.range n).map f = List.range m := by
    refine @eq_of_ascending _ id _ _ (List.pairwise_map.mpr ?_) List.pairwise_lt_range fun k => ?_
    · refine List.pairwise_lt_range.imp_of_mem fun {i j} hi hj hij => ?_
      exact hmono (List.mem_range.mp hi) (List.mem_range.mp hj) hij
    · rw [List.mem_map, List.mem_range, ← Set.mem_Iio, ← hbij.image_eq]
      simp
  intro i hi
  have hget : ((List.range n).map f)[i]? = some (f i) := by simp [hi]
  rw [hlist] at hget
  obtain ⟨hlt, heq⟩ := List.getElem?_eq_some_iff.mp hget
  rw [← heq, List.getElem_range]

namespace Dfa

variable {c d e : Dfa} {p q s : StateId} {a : Symbol} {f g : StateId → StateId}

namespace Renumbering

/-! ## Composing -/

theorem trans (h : c.Renumbering d f) (h' : d.Renumbering e g) (halphabet : d.alphabet = c.alphabet) :
    c.Renumbering e (g ∘ f) where
  bijOn := h'.bijOn.comp h.bijOn
  initial := by rw [Function.comp_apply, h.initial, h'.initial]
  isFinal s hs := by rw [Function.comp_apply, h'.isFinal _ (h.bijOn.mapsTo hs), h.isFinal s hs]
  next? s hs a ha := by
    rw [Function.comp_apply, h'.next? _ (h.bijOn.mapsTo hs) a (halphabet ▸ ha), h.next? s hs a ha,
      Option.map_map]

theorem congr (h : d.Renumbering e f) (hd : d.WellFormed) (hfg : ∀ s < d.numStates, f s = g s) :
    d.Renumbering e g where
  bijOn := h.bijOn.congr hfg
  initial := by rw [← hfg _ hd.initial_lt, h.initial]
  isFinal s hs := by rw [← hfg s hs, h.isFinal s hs]
  next? s hs a ha := by
    rw [← hfg s hs, h.next? s hs a ha]
    cases hq : d.next? s a with
    | none => rfl
    | some q => rw [Option.map_some, Option.map_some, hfg q (next?_lt hd hq)]

/-- **What words tell apart stays apart.** -/
theorem reduced (h : d.Renumbering e f) (hd : d.WellFormed) (he : e.WellFormed)
    (halphabet : e.alphabet = d.alphabet) (hred : d.Reduced) : e.Reduced := by
  intro p hp q hq hpq
  obtain ⟨r, hr, rfl⟩ := h.bijOn.surjOn hp
  obtain ⟨s, hs, rfl⟩ := h.bijOn.surjOn hq
  obtain ⟨w, r', s', hr', hs', hne⟩ := hred r hr s hs fun e => hpq (congrArg f e)
  refine ⟨w, f r', f s', ?_, ?_, ?_⟩
  · rw [h.runFrom_eq hd he halphabet hr, hr', Option.map_some]
  · rw [h.runFrom_eq hd he halphabet hs, hs', Option.map_some]
  · rwa [h.isFinal r' (runFrom_lt hd hr hr'), h.isFinal s' (runFrom_lt hd hs hs')]

/-! ## Numbers that stay -/

/-- **States renumbered in their order keep their numbers.** -/
theorem id_of_strictMonoOn (h : d.Renumbering e f) (hd : d.WellFormed)
    (hmono : StrictMonoOn f (Set.Iio d.numStates)) : d.Renumbering e id :=
  h.congr hd (eq_self_of_strictMonoOn h.bijOn hmono)

theorem numStates_eq_of_id (h : d.Renumbering e id) : e.numStates = d.numStates := by
  have himage := h.bijOn.image_eq
  rw [Set.image_id] at himage
  exact eq_of_forall_lt_iff fun k => (Set.ext_iff.mp himage k).symm

theorem finals_eq_of_id (h : d.Renumbering e id) (hd : d.WellFormed) (he : e.WellFormed) :
    e.finals = d.finals := by
  refine SortedSet.ext_mem fun s => ?_
  by_cases hs : s < d.numStates
  · rw [← Machine.isFinal_iff, ← Machine.isFinal_iff, ← h.isFinal s hs]
    rfl
  · refine iff_of_false (fun hf => hs ?_) fun hf => hs (hd.finals_lt s hf)
    exact h.numStates_eq_of_id ▸ he.finals_lt s hf

theorem next?_eq_of_id (h : d.Renumbering e id) (hd : d.WellFormed) (he : e.WellFormed)
    (halphabet : e.alphabet = d.alphabet) (p : StateId) (a : Symbol) :
    e.next? p a = d.next? p a := by
  by_cases hp : p < d.numStates
  · exact (h.next?_eq hd he halphabet hp).trans Option.map_id_apply
  · have hp' : ¬ p < e.numStates := h.numStates_eq_of_id ▸ hp
    rw [next?_eq_none he (Nat.le_of_not_lt hp'), next?_eq_none hd (Nat.le_of_not_lt hp)]

/-- **Automata that agree in their labels too, and store no empty row, are equal.** -/
theorem eq_of_id (h : d.Renumbering e id) (hd : d.WellFormed) (he : e.WellFormed)
    (halphabet : e.alphabet = d.alphabet) (hlabels : e.labels = d.labels) (hdf : d.table.Full)
    (hef : e.table.Full) : e = d := by
  have htable : e.table = d.table :=
    Table.ext_entry? hef hdf fun p a => h.next?_eq_of_id hd he halphabet p a
  have hfinals := h.finals_eq_of_id hd he
  have hinitial : e.initial = d.initial := h.initial.symm
  obtain ⟨_, _, _, _, _⟩ := e
  rw [Machine.mk.injEq]
  exact ⟨hlabels, halphabet, hinitial, hfinals, htable⟩

end Renumbering

end Dfa

end Automata
