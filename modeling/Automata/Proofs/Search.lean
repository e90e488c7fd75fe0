import Automata.Search
import Mathlib.Data.Finset.Card
import Mathlib.Logic.Relation

/-!
# Proofs/Search — a breadth-first search finds exactly what can be reached

What a round changes is kept in `SearchInvariant`: the values come upon are those waiting and those
whose successors were all come upon, and there are rounds enough for all that is left.  A round
uses up one of them and keeps the rest (`SearchInvariant.step`), so what the search lists is closed
under successors (`SearchInvariant.closed`) and holds no value twice (`nodup_search`);
`mem_search_iff` says that it is what can be reached, given rounds for a closed set around it.

Two searches are compared by what they do in a round: with rounds enough it does not matter how many
there are (`search_eq_of_le`), and an injective map of values carries one search to the other
(`search_map`).
-/

namespace Automata

variable {σ : Type} {next : σ → List σ}

/-- Whether one value can be reached from another along `next`. -/
def Leads (next : σ → List σ) : σ → σ → Prop := Relation.ReflTransGen fun s t => t ∈ next s

variable [DecidableEq σ] {n : Nat} {seen waiting : List σ} {s t u : σ} {U : Finset σ}

/-- What is new depends on what was seen, not on the order it was seen in. -/
theorem unseen_congr {seen' : List σ} (h : ∀ t, t ∈ seen ↔ t ∈ seen') (l : List σ) :
    unseen seen l = unseen seen' l := by
  induction l generalizing seen seen' with
  | nil => rfl
  | cons t l ih =>
      have hcons : ∀ u, u ∈ t :: seen ↔ u ∈ t :: seen' := fun u => by
        rw [List.mem_cons, List.mem_cons, h u]
      rw [unseen, unseen, ih h, ih hcons]
      simp only [h t]

/-- So does what is listed. -/
theorem searchFrom_congr : ∀ (n : Nat) {seen seen' : List σ} (waiting : List σ),
    (∀ t, t ∈ seen ↔ t ∈ seen') → searchFrom next n seen waiting = searchFrom next n seen' waiting
  | 0, _, _, _, _ => rfl
  | _ + 1, _, _, [], _ => rfl
  | n + 1, seen, seen', s :: waiting, h => by
      rw [searchFrom, searchFrom, unseen_congr h]
      refine congrArg (s :: ·) (searchFrom_congr n _ fun t => ?_)
      rw [List.mem_append, List.mem_append, h t]

/-- **What waits is listed first**, in the order it waits. -/
theorem searchFrom_eq_append : ∀ (n : Nat) (seen waiting : List σ),
    ∃ l, searchFrom next n seen waiting = waiting ++ l
  | 0, _, waiting => ⟨[], (List.append_nil waiting).symm⟩
  | _ + 1, _, [] => ⟨[], rfl⟩
  | n + 1, seen, s :: waiting => by
      obtain ⟨l, hl⟩ := searchFrom_eq_append n (unseen seen (next s) ++ seen)
        (waiting ++ unseen seen (next s))
      exact ⟨unseen seen (next s) ++ l, by simp [searchFrom, hl]⟩

theorem mem_searchFrom_of_mem (hs : s ∈ waiting) : s ∈ searchFrom next n seen waiting := by
  obtain ⟨l, hl⟩ : ∃ l, searchFrom next n seen waiting = waiting ++ l :=
    searchFrom_eq_append n seen waiting
  rw [hl]
  exact List.mem_append_left l hs

/-- Everything listed can be reached from something that waits. -/
theorem leads_of_mem_searchFrom : ∀ (n : Nat) {seen waiting : List σ},
    t ∈ searchFrom next n seen waiting → ∃ s ∈ waiting, Leads next s t
  | 0, _, _, h => ⟨t, h, .refl⟩
  | n + 1, seen, s :: waiting, h => by
      rw [searchFrom] at h
      obtain rfl | h := List.mem_cons.mp h
      · exact ⟨t, List.mem_cons_self, .refl⟩
      · obtain ⟨r, hr, hrt⟩ := leads_of_mem_searchFrom n h
        obtain hr | hr := List.mem_append.mp hr
        · exact ⟨r, List.mem_cons_of_mem s hr, hrt⟩
        · exact ⟨s, List.mem_cons_self, .head (mem_unseen.mp hr).1 hrt⟩

/-! ## What a round keeps -/

/-- The state of a search inside a set `U` that is closed under `next`. -/
structure SearchInvariant (next : σ → List σ) (U : Finset σ) (rounds : Nat)
    (seen waiting : List σ) : Prop where
  nodup : waiting.Nodup
  subset : ∀ s ∈ waiting, s ∈ seen
  inside : ∀ s ∈ seen, s ∈ U
  expanded : ∀ s ∈ seen, s ∈ waiting ∨ ∀ t ∈ next s, t ∈ seen
  enough : (U \ seen.toFinset).card + waiting.length ≤ rounds

/-- A search begins with one value that was come upon and waits. -/
theorem SearchInvariant.start (hs : s ∈ U) (hn : U.card ≤ n) :
    SearchInvariant next U n [s] [s] where
  nodup := List.nodup_singleton s
  subset := fun _ h => h
  inside := fun t ht => List.mem_singleton.mp ht ▸ hs
  expanded := fun _ h => .inl h
  enough := by
    have hsub : [s].toFinset ⊆ U := by simpa using hs
    have hcard := Finset.card_sdiff_add_card_eq_card hsub
    rw [List.toFinset_card_of_nodup (List.nodup_singleton s)] at hcard
    omega

/-- The order in which values were come upon does not matter. -/
theorem SearchInvariant.congr {seen' : List σ} (h : SearchInvariant next U n seen waiting)
    (hseen : ∀ t, t ∈ seen ↔ t ∈ seen') : SearchInvariant next U n seen' waiting where
  nodup := h.nodup
  subset t ht := (hseen t).mp (h.subset t ht)
  inside t ht := h.inside t ((hseen t).mpr ht)
  expanded t ht := (h.expanded t ((hseen t).mpr ht)).imp_right fun hn u hu => (hseen u).mp (hn u hu)
  enough := by
    have hset : seen.toFinset = seen'.toFinset := by
      ext t
      rw [List.mem_toFinset, List.mem_toFinset, hseen t]
    exact hset ▸ h.enough

/-- The values a round comes upon are as many as it takes out of those left. -/
private theorem card_sdiff_unseen {l : List σ} (hl : ∀ t ∈ l, t ∈ U) :
    (U \ (unseen seen l ++ seen).toFinset).card + (unseen seen l).length
      = (U \ seen.toFinset).card := by
  have hsub : (unseen seen l).toFinset ⊆ U \ seen.toFinset := fun t ht => by
    obtain ⟨htl, hts⟩ := mem_unseen.mp (List.mem_toFinset.mp ht)
    exact Finset.mem_sdiff.mpr ⟨hl t htl, fun h => hts (List.mem_toFinset.mp h)⟩
  have hset : U \ (unseen seen l ++ seen).toFinset
      = (U \ seen.toFinset) \ (unseen seen l).toFinset := by
    ext t
    simp only [Finset.mem_sdiff, List.mem_toFinset, List.mem_append]
    tauto
  rw [hset, ← List.toFinset_card_of_nodup (nodup_unseen l seen)]
  exact Finset.card_sdiff_add_card_eq_card hsub

/-- **A round keeps the invariant** — it takes one value off those waiting and puts what it comes
upon behind them. -/
theorem SearchInvariant.step (hU : ∀ s ∈ U, ∀ t ∈ next s, t ∈ U)
    (h : SearchInvariant next U (n + 1) seen (s :: waiting)) :
    SearchInvariant next U n (unseen seen (next s) ++ seen) (waiting ++ unseen seen (next s)) := by
  obtain ⟨hsw, hnodup⟩ := List.nodup_cons.mp h.nodup
  have hs : s ∈ seen := h.subset s List.mem_cons_self
  refine ⟨?nodup, ?subset, ?inside, ?expanded, ?enough⟩
  case nodup =>
    refine List.nodup_append.mpr ⟨hnodup, nodup_unseen _ _, fun t ht u hu e => ?_⟩
    exact (mem_unseen.mp hu).2 (e ▸ h.subset t (List.mem_cons_of_mem s ht))
  case subset =>
    intro t ht
    obtain ht | ht := List.mem_append.mp ht
    · exact List.mem_append_right _ (h.subset t (List.mem_cons_of_mem s ht))
    · exact List.mem_append_left _ ht
  case inside =>
    intro t ht
    obtain ht | ht := List.mem_append.mp ht
    · exact hU s (h.inside s hs) t (mem_unseen.mp ht).1
    · exact h.inside t ht
  case expanded =>
    intro t ht
    obtain ht | ht := List.mem_append.mp ht
    · exact .inl (List.mem_append_right _ ht)
    obtain htw | htn := h.expanded t ht
    · obtain rfl | htw := List.mem_cons.mp htw
      · refine .inr fun u hu => List.mem_append.mpr ?_
        by_cases hus : u ∈ seen
        · exact .inr hus
        · exact .inl (mem_unseen.mpr ⟨hu, hus⟩)
      · exact .inl (List.mem_append_left _ htw)
    · exact .inr fun u hu => List.mem_append_right _ (htn u hu)
  case enough =>
    have hcard : (U \ (unseen seen (next s) ++ seen).toFinset).card + (unseen seen (next s)).length
        = (U \ seen.toFinset).card := card_sdiff_unseen (hU s (h.inside s hs))
    have henough := h.enough
    rw [List.length_cons] at henough
    rw [List.length_append]
    omega

/-- **No value is listed twice**, and none that was come upon before and does not wait. -/
theorem SearchInvariant.nodup_searchFrom (hU : ∀ s ∈ U, ∀ t ∈ next s, t ∈ U) :
    ∀ {n : Nat} {seen waiting : List σ}, SearchInvariant next U n seen waiting →
      (searchFrom next n seen waiting).Nodup ∧
        ∀ t ∈ searchFrom next n seen waiting, t ∈ waiting ∨ t ∉ seen
  | 0, _, _, h => ⟨h.nodup, fun _ ht => .inl ht⟩
  | _ + 1, _, [], _ => ⟨.nil, fun _ ht => .inl ht⟩
  | n + 1, seen, s :: waiting, h => by
      obtain ⟨hnodup, hmem⟩ := (h.step hU).nodup_searchFrom hU
      have hs : s ∈ seen := h.subset s List.mem_cons_self
      rw [searchFrom]
      refine ⟨List.nodup_cons.mpr ⟨fun hr => ?_, hnodup⟩, fun t ht => ?_⟩
      · obtain hw | hns := hmem s hr
        · obtain hw | hnew := List.mem_append.mp hw
          · exact (List.nodup_cons.mp h.nodup).1 hw
          · exact (mem_unseen.mp hnew).2 hs
        · exact hns (List.mem_append_right _ hs)
      · obtain rfl | ht := List.mem_cons.mp ht
        · exact .inl List.mem_cons_self
        obtain hw | hns := hmem t ht
        · obtain hw | hnew := List.mem_append.mp hw
          · exact .inl (List.mem_cons_of_mem s hw)
          · exact .inr (mem_unseen.mp hnew).2
        · exact .inr fun hts => hns (List.mem_append_right _ hts)

/-- When nothing waits, everything was expanded. -/
theorem SearchInvariant.closed_of_nil (h : SearchInvariant next U n seen []) :
    ∀ t ∈ seen, ∀ u ∈ next t, u ∈ seen := by
  intro t ht
  obtain htw | htn := h.expanded t ht
  · exact absurd htw List.not_mem_nil
  · exact htn

/-- **What was come upon or is listed is closed under `next`** — there are rounds enough to expand
everything. -/
theorem SearchInvariant.closed (hU : ∀ s ∈ U, ∀ t ∈ next s, t ∈ U) :
    ∀ {n : Nat} {seen waiting : List σ}, SearchInvariant next U n seen waiting →
      ∀ t, t ∈ seen ∨ t ∈ searchFrom next n seen waiting →
        ∀ u ∈ next t, u ∈ seen ∨ u ∈ searchFrom next n seen waiting
  | 0, seen, waiting, h, t, ht, u, hu => by
      have hw : waiting = [] := List.length_eq_zero_iff.mp (by have := h.enough; omega)
      subst hw
      obtain ht | ht := ht
      · exact .inl (h.closed_of_nil t ht u hu)
      · exact absurd ht List.not_mem_nil
  | _ + 1, seen, [], h, t, ht, u, hu => by
      obtain ht | ht := ht
      · exact .inl (h.closed_of_nil t ht u hu)
      · exact absurd ht List.not_mem_nil
  | n + 1, seen, s :: waiting, h, t, ht, u, hu => by
      rw [searchFrom] at ht ⊢
      have hs : s ∈ seen := h.subset s List.mem_cons_self
      have ht' : t ∈ unseen seen (next s) ++ seen ∨
          t ∈ searchFrom next n (unseen seen (next s) ++ seen)
            (waiting ++ unseen seen (next s)) := by
        obtain ht | ht := ht
        · exact .inl (List.mem_append_right _ ht)
        obtain rfl | ht := List.mem_cons.mp ht
        · exact .inl (List.mem_append_right _ hs)
        · exact .inr ht
      obtain hus | hur := (h.step hU).closed hU t ht' u hu
      · obtain hnew | hus := List.mem_append.mp hus
        · exact .inr (List.mem_cons_of_mem s
            (mem_searchFrom_of_mem (List.mem_append_right waiting hnew)))
        · exact .inl hus
      · exact .inr (List.mem_cons_of_mem s hur)

/-- With nothing waiting there is nothing to list. -/
theorem searchFrom_nil : ∀ n : Nat, searchFrom next n seen [] = []
  | 0 => rfl
  | _ + 1 => rfl

/-- **Rounds beyond those that are enough find nothing to do.** -/
theorem SearchInvariant.searchFrom_add (hU : ∀ s ∈ U, ∀ t ∈ next s, t ∈ U) (k : Nat) :
    ∀ {n : Nat} {seen waiting : List σ}, SearchInvariant next U n seen waiting →
      searchFrom next (n + k) seen waiting = searchFrom next n seen waiting
  | 0, seen, waiting, h => by
      have hw : waiting = [] := List.length_eq_zero_iff.mp (by have := h.enough; omega)
      rw [hw, searchFrom_nil, searchFrom_nil]
  | n + 1, seen, [], _ => by rw [searchFrom_nil, searchFrom_nil]
  | n + 1, seen, s :: waiting, h => by
      rw [Nat.add_right_comm, searchFrom, searchFrom]
      exact congrArg (s :: ·) ((h.step hU).searchFrom_add hU k)

/-! ## Searches carried along a map -/

section

variable {ρ : Type} [DecidableEq ρ] {next' : ρ → List ρ} {f : σ → ρ}

theorem unseen_map (hf : Function.Injective f) : ∀ l seen : List σ,
    unseen (seen.map f) (l.map f) = (unseen seen l).map f
  | [], _ => rfl
  | s :: l, seen => by
      rw [List.map_cons, unseen, unseen, ← List.map_cons, unseen_map hf, unseen_map hf]
      simp only [List.mem_map_of_injective hf]
      split <;> rfl

/-- **An injective map that carries successors to successors carries rounds to rounds.** -/
theorem searchFrom_map (hf : Function.Injective f) (hnext : ∀ s, next' (f s) = (next s).map f) :
    ∀ (n : Nat) (seen waiting : List σ),
      searchFrom next' n (seen.map f) (waiting.map f) = (searchFrom next n seen waiting).map f
  | 0, _, _ => rfl
  | _ + 1, _, [] => rfl
  | n + 1, seen, s :: waiting => by
      rw [List.map_cons, searchFrom, searchFrom, List.map_cons, hnext, unseen_map hf,
        ← List.map_append, ← List.map_append, searchFrom_map hf hnext]

end

/-! ## Whole searches -/

theorem mem_search_self : s ∈ search next n s := mem_searchFrom_of_mem (List.mem_singleton_self s)

/-- **A search lists exactly what can be reached**, given a round for each member of a closed set
around its start. -/
theorem mem_search_iff (hU : ∀ s ∈ U, ∀ t ∈ next s, t ∈ U) (hs : s ∈ U) (hn : U.card ≤ n) :
    t ∈ search next n s ↔ Leads next s t := by
  constructor
  · intro h
    obtain ⟨r, hr, hrt⟩ := leads_of_mem_searchFrom n h
    rwa [List.mem_singleton.mp hr] at hrt
  · intro h
    induction h with
    | refl => exact mem_search_self
    | tail _ hu ih =>
        obtain hsu | hu := (SearchInvariant.start hs hn).closed hU _ (.inr ih) _ hu
        · exact List.mem_singleton.mp hsu ▸ mem_search_self
        · exact hu

/-- **An injective map that carries successors to successors carries searches to searches.** -/
theorem search_map {ρ : Type} [DecidableEq ρ] {next' : ρ → List ρ} {f : σ → ρ}
    (hf : Function.Injective f) (hnext : ∀ s, next' (f s) = (next s).map f) (n : Nat) (s : σ) :
    search next' n (f s) = (search next n s).map f :=
  searchFrom_map hf hnext n [s] [s]

/-- **It does not matter how many rounds there are**, once there are enough. -/
theorem search_eq_of_le {m : Nat} (hU : ∀ s ∈ U, ∀ t ∈ next s, t ∈ U) (hs : s ∈ U)
    (hn : U.card ≤ n) (hnm : n ≤ m) : search next m s = search next n s := by
  obtain ⟨k, rfl⟩ := Nat.exists_eq_add_of_le hnm
  exact (SearchInvariant.start hs hn).searchFrom_add hU k

/-- **A search lists no value twice.** -/
theorem nodup_search (hU : ∀ s ∈ U, ∀ t ∈ next s, t ∈ U) (hs : s ∈ U) (hn : U.card ≤ n) :
    (search next n s).Nodup :=
  ((SearchInvariant.start hs hn).nodup_searchFrom hU).1

end Automata
