import Automata.Proofs.Reachability
import Automata.Proofs.Shortlex

/-!
# Proofs/Discovery — a breadth-first search comes upon values in the order of their first words

Where the successors of a value are listed by symbol, each value that can be reached has a first
word that leads to it.  Three things about these words are kept by every round
(`SearchOrder.round`): the values that wait ascend, all of them precede what any of them leads to,
and (by `exists_waiting_prefix`) the first word of a value not come upon yet continues that of one
that waits.  So the whole list ascends (`pairwise_search`), and with it the states an automaton
reaches (`Dfa.pairwise_reachable`).
-/

namespace Automata

variable {σ : Type} {step : σ → Symbol → Option σ} {s t u r : σ} {v w : List Symbol} {a : Symbol}

/-! ## Following words -/

/-- The value a word leads to. -/
def follow (step : σ → Symbol → Option σ) (s : σ) (w : List Symbol) : Option σ := w.foldlM step s

theorem follow_append :
    follow step s (v ++ w) = (follow step s v).bind fun t => follow step t w :=
  List.foldlM_append

theorem follow_concat : follow step s (w ++ [a]) = (follow step s w).bind fun t => step t a := by
  rw [follow_append]
  refine congrArg _ (funext fun t => ?_)
  rw [follow, List.foldlM_cons]
  exact Option.bind_fun_some _

/-- The first word that leads to a value, without its last symbol, is the first that leads to the
value before. -/
theorem LeastWord.init (h : LeastWord (follow step s · = some t) (w ++ [a])) :
    ∃ r, LeastWord (follow step s · = some r) w ∧ step r a = some t := by
  have hwa := h.holds
  rw [follow_concat] at hwa
  obtain ⟨r, hr, hra⟩ := Option.bind_eq_some_iff.mp hwa
  refine ⟨r, ⟨hr, fun v hv hvw => h.least (v ++ [a]) ?_ (hvw.concat a a)⟩, hra⟩
  rw [follow_concat, hv, Option.bind_some, hra]

/-- The values one symbol away, by symbol. -/
def nextValues (A : Alphabet) (step : σ → Symbol → Option σ) (s : σ) : List σ :=
  A.toList.filterMap (step s)

/-- Successors lead to a value exactly when a word over the alphabet does. -/
theorem leads_nextValues_iff {A : Alphabet} (hA : ∀ r a t, step r a = some t → a ∈ A) :
    Leads (nextValues A step) s t ↔ ∃ w, follow step s w = some t := by
  constructor
  · intro h
    induction h with
    | refl => exact ⟨[], rfl⟩
    | tail _ hr ih =>
        obtain ⟨w, hw⟩ := ih
        obtain ⟨a, -, ha⟩ := List.mem_filterMap.mp hr
        exact ⟨w ++ [a], by rw [follow_concat, hw, Option.bind_some, ha]⟩
  · rintro ⟨w, hw⟩
    induction w using List.reverseRecOn generalizing t with
    | nil => exact Option.some.inj hw ▸ .refl
    | append_singleton w a ih =>
        rw [follow_concat] at hw
        obtain ⟨r, hr, ha⟩ := Option.bind_eq_some_iff.mp hw
        exact .tail (ih hr) (List.mem_filterMap.mpr ⟨a, hA r a t ha, ha⟩)

/-! ## New values -/

variable [DecidableEq σ] {n : Nat} {seen waiting : List σ} {A : Alphabet} {U : Finset σ}

/-- **New values come in the order of the first symbols that lead to them.** -/
theorem pairwise_unseen_filterMap {f : Symbol → Option σ} : ∀ {l : List Symbol} {seen : List σ},
    l.Pairwise (· < ·) → (unseen seen (l.filterMap f)).Pairwise fun t u =>
      ∃ a ∈ l, f a = some t ∧ ∀ b ∈ l, f b = some u → a < b
  | [], _, _ => .nil
  | a :: l, seen, hl => by
      obtain ⟨hal, hl⟩ := List.pairwise_cons.mp hl
      -- what holds of the symbols behind `a` holds of all, if `a` leads to no value of the pair
      have widen : ∀ {t u}, f a ≠ some u →
          (∃ b ∈ l, f b = some t ∧ ∀ c ∈ l, f c = some u → b < c) →
          ∃ b ∈ a :: l, f b = some t ∧ ∀ c ∈ a :: l, f c = some u → b < c := by
        rintro t u hau ⟨b, hb, hbt, hlt⟩
        refine ⟨b, List.mem_cons_of_mem a hb, hbt, List.forall_mem_cons.mpr ⟨?_, hlt⟩⟩
        exact fun hu => absurd hu hau
      cases hx : f a with
      | none =>
          rw [List.filterMap_cons_none hx]
          exact (pairwise_unseen_filterMap hl).imp fun h => widen (by simp [hx]) h
      | some x =>
          rw [List.filterMap_cons_some hx, unseen]
          split
          · rename_i hmem
            refine (pairwise_unseen_filterMap hl).imp_of_mem fun _ hu h => widen ?_ h
            rw [hx]
            rintro ⟨rfl⟩
            exact (mem_unseen.mp hu).2 hmem
          · refine List.pairwise_cons.mpr ⟨fun u hu => ?_, ?_⟩
            · refine ⟨a, List.mem_cons_self, hx, List.forall_mem_cons.mpr ⟨fun hau => ?_, ?_⟩⟩
              · rw [hx] at hau
                exact absurd (Option.some.inj hau ▸ List.mem_cons_self) (mem_unseen.mp hu).2
              · exact fun b hb _ => hal b hb
            · refine (pairwise_unseen_filterMap hl).imp_of_mem fun _ hu h => widen ?_ h
              rw [hx]
              rintro ⟨rfl⟩
              exact (mem_unseen.mp hu).2 List.mem_cons_self

/-! ## What a round keeps -/

/-- **The order of a search**, by the first words of the values that wait. -/
structure SearchOrder (step : σ → Symbol → Option σ) (s : σ) (word : σ → List Symbol)
    (seen waiting : List σ) : Prop where
  started : s ∈ seen
  first : ∀ t ∈ waiting, LeastWord (follow step s · = some t) (word t)
  ascending : waiting.Pairwise fun t u => Precedes (word t) (word u)
  /-- What waits precedes what any value that waits leads to. -/
  window : ∀ t ∈ waiting, ∀ u ∈ waiting, ∀ a, Precedes (word t) (word u ++ [a])

namespace SearchOrder

variable {word : σ → List Symbol}

omit [DecidableEq σ] in
/-- A search begins with the value that the empty word leads to. -/
theorem start (hword : LeastWord (follow step s · = some s) (word s)) :
    SearchOrder step s word [s] [s] where
  started := List.mem_singleton_self s
  first t ht := List.mem_singleton.mp ht ▸ hword
  ascending := List.pairwise_singleton _ s
  window t ht u hu a := by
    rw [List.mem_singleton.mp ht, List.mem_singleton.mp hu]
    exact Precedes.append_self _ (List.cons_ne_nil a [])

/-- **The first word of a value not come upon continues that of a value that waits.** -/
theorem exists_waiting_prefix (hA : ∀ r a t, step r a = some t → a ∈ A)
    (h : SearchInvariant (nextValues A step) U n seen waiting)
    (ho : SearchOrder step s word seen waiting) (ht : t ∉ seen)
    (hw : LeastWord (follow step s · = some t) w) :
    ∃ r ∈ waiting, ∃ v b, w = word r ++ (v ++ [b]) := by
  induction w using List.reverseRecOn generalizing t with
  | nil => exact absurd (Option.some.inj hw.holds ▸ ho.started) ht
  | append_singleton w a ih =>
      obtain ⟨r, hr, hra⟩ := hw.init
      by_cases hrs : r ∈ seen
      · obtain hrw | hclosed := h.expanded r hrs
        · exact ⟨r, hrw, [], a, by rw [hr.unique (ho.first r hrw), List.nil_append]⟩
        · exact absurd (hclosed t (List.mem_filterMap.mpr ⟨a, hA r a t hra, hra⟩)) ht
      · obtain ⟨q, hq, v, b, rfl⟩ := ih hrs hr
        exact ⟨q, hq, v ++ [b], a, by rw [List.append_assoc]⟩

/-- A new value is come upon by its first word. -/
theorem exists_word_eq_concat (hA : ∀ r a t, step r a = some t → a ∈ A)
    (h : SearchInvariant (nextValues A step) U n seen (r :: waiting))
    (ho : SearchOrder step s word seen (r :: waiting)) (ht : t ∉ seen)
    (hw : LeastWord (follow step s · = some t) (word t)) (hrt : t ∈ nextValues A step r) :
    ∃ a, step r a = some t ∧ word t = word r ++ [a] := by
  obtain ⟨a, -, ha⟩ := List.mem_filterMap.mp hrt
  obtain ⟨hascend, -⟩ := List.pairwise_cons.mp ho.ascending
  have hr := (ho.first r List.mem_cons_self).holds
  -- the word through `r` is no earlier than the first one
  have hle : ¬ Precedes (word r ++ [a]) (word t) := hw.least _ (by
    rw [follow_concat, hr, Option.bind_some, ha])
  obtain ⟨q, hq, v, b, heq⟩ := ho.exists_waiting_prefix hA h ht hw
  rw [heq] at hle
  obtain rfl | hq := List.mem_cons.mp hq
  · cases v with
    | nil =>
        refine ⟨b, ?_, heq⟩
        have hholds := hw.holds
        rwa [heq, List.nil_append, follow_concat, hr, Option.bind_some] at hholds
    | cons c v => exact absurd (Precedes.of_length_lt (by simp)) hle
  · refine absurd ?_ hle
    rw [← List.append_assoc]
    exact ((hascend q hq).append_right v).concat a b

/-- **A round keeps the order**, and what it expands precedes all that waits after it. -/
theorem round (hA : ∀ r a t, step r a = some t → a ∈ A)
    (hword : ∀ t w, follow step s w = some t → LeastWord (follow step s · = some t) (word t))
    (h : SearchInvariant (nextValues A step) U n seen (r :: waiting))
    (ho : SearchOrder step s word seen (r :: waiting)) :
    SearchOrder step s word (unseen seen (nextValues A step r) ++ seen)
        (waiting ++ unseen seen (nextValues A step r)) ∧
      ∀ t ∈ waiting ++ unseen seen (nextValues A step r), Precedes (word r) (word t) := by
  obtain ⟨hbefore, hascend⟩ := List.pairwise_cons.mp ho.ascending
  have hr := (ho.first r List.mem_cons_self).holds
  -- a new value has a first word, and it goes through `r`
  have hfirst : ∀ t ∈ unseen seen (nextValues A step r),
      LeastWord (follow step s · = some t) (word t) := by
    intro t ht
    obtain ⟨a, -, ha⟩ := List.mem_filterMap.mp (mem_unseen.mp ht).1
    exact hword t (word r ++ [a]) (by rw [follow_concat, hr, Option.bind_some, ha])
  have hnew : ∀ t ∈ unseen seen (nextValues A step r),
      ∃ a, step r a = some t ∧ word t = word r ++ [a] := fun t ht =>
    ho.exists_word_eq_concat hA h (mem_unseen.mp ht).2 (hfirst t ht) (mem_unseen.mp ht).1
  have hlater : ∀ t ∈ waiting ++ unseen seen (nextValues A step r),
      Precedes (word r) (word t) := by
    intro t ht
    obtain ht | ht := List.mem_append.mp ht
    · exact hbefore t ht
    · obtain ⟨a, -, hta⟩ := hnew t ht
      exact hta ▸ Precedes.append_self _ (List.cons_ne_nil a [])
  refine ⟨⟨List.mem_append_right _ ho.started, fun t ht => ?first, ?ascending,
    fun t ht u hu a => ?window⟩, hlater⟩
  case first =>
    obtain ht | ht := List.mem_append.mp ht
    · exact ho.first t (List.mem_cons_of_mem r ht)
    · exact hfirst t ht
  case ascending =>
    refine List.pairwise_append.mpr ⟨hascend, ?_, fun t ht u hu => ?_⟩
    · refine (pairwise_unseen_filterMap A.ascending).imp_of_mem ?_
      rintro t u ht hu ⟨a, -, hat, hlt⟩
      obtain ⟨b, -, htb⟩ := hnew t ht
      obtain ⟨c, hcu, huc⟩ := hnew u hu
      have hba : ¬ a < b := fun hab => (hfirst t ht).least (word r ++ [a])
        (by rw [follow_concat, hr, Option.bind_some, hat]) (htb ▸ Precedes.concat_of_lt _ hab)
      rw [htb, huc]
      exact Precedes.concat_of_lt _ (lt_of_le_of_lt (not_lt.mp hba) (hlt c (hA r c u hcu) hcu))
    · obtain ⟨a, -, hua⟩ := hnew u hu
      rw [hua]
      exact ho.window t (List.mem_cons_of_mem r ht) r List.mem_cons_self a
  case window =>
    obtain ht | ht := List.mem_append.mp ht
    · obtain hu | hu := List.mem_append.mp hu
      · exact ho.window t (List.mem_cons_of_mem r ht) u (List.mem_cons_of_mem r hu) a
      · obtain ⟨b, -, hub⟩ := hnew u hu
        rw [hub]
        exact (ho.window t (List.mem_cons_of_mem r ht) r List.mem_cons_self b).append_right [a]
    · obtain ⟨b, -, htb⟩ := hnew t ht
      rw [htb]
      exact (hlater u hu).concat b a

/-- **What is listed ascends.** -/
theorem pairwise_searchFrom (hA : ∀ r a t, step r a = some t → a ∈ A)
    (hword : ∀ t w, follow step s w = some t → LeastWord (follow step s · = some t) (word t))
    (hU : ∀ s ∈ U, ∀ t ∈ nextValues A step s, t ∈ U) :
    ∀ {n : Nat} {seen waiting : List σ}, SearchInvariant (nextValues A step) U n seen waiting →
      SearchOrder step s word seen waiting →
        (searchFrom (nextValues A step) n seen waiting).Pairwise fun t u =>
          Precedes (word t) (word u)
  | 0, _, _, _, ho => ho.ascending
  | _ + 1, _, [], _, _ => .nil
  | n + 1, seen, r :: waiting, h, ho => by
      obtain ⟨ho', hlater⟩ := ho.round hA hword h
      have h' := h.step hU
      rw [searchFrom]
      refine List.pairwise_cons.mpr ⟨fun t ht => ?_, pairwise_searchFrom hA hword hU h' ho'⟩
      obtain htw | hts := (h'.nodup_searchFrom hU).2 t ht
      · exact hlater t htw
      · -- what comes later continues something that waits
        obtain ⟨q, hq, hqt⟩ := leads_of_mem_searchFrom n ht
        obtain ⟨v, hv⟩ := (leads_nextValues_iff hA).mp hqt
        have hw := hword t (word q ++ v) (by
          rw [follow_append, (ho'.first q hq).holds, Option.bind_some, hv])
        obtain ⟨p, hp, x, b, heq⟩ := ho'.exists_waiting_prefix hA h' hts hw
        rw [heq]
        exact (hlater p hp).append_right _

end SearchOrder

/-- **A search lists values in the order of the first words that lead to them.** -/
theorem pairwise_search (hA : ∀ r a t, step r a = some t → a ∈ A)
    (hU : ∀ s ∈ U, ∀ t ∈ nextValues A step s, t ∈ U) (hs : s ∈ U) (hn : U.card ≤ n) :
    (search (nextValues A step) n s).Pairwise fun t u => ∀ v w,
      LeastWord (follow step s · = some t) v → LeastWord (follow step s · = some u) w →
        Precedes v w := by
  have hexists : ∀ t, ∃ v, ∀ w, follow step s w = some t →
      LeastWord (follow step s · = some t) v := by
    intro t
    by_cases ht : ∃ w, follow step s w = some t
    · obtain ⟨w, hw⟩ := ht
      obtain ⟨v, hv⟩ := exists_leastWord (P := fun w => follow step s w = some t) hw
      exact ⟨v, fun _ _ => hv⟩
    · exact ⟨[], fun w hw => absurd ⟨w, hw⟩ ht⟩
  choose word hword using hexists
  refine ((SearchOrder.start (hword s [] rfl)).pairwise_searchFrom hA hword hU
    (SearchInvariant.start hs hn)).imp fun {t u} h v w hv hw => ?_
  rwa [hv.unique (hword t v hv.holds), hw.unique (hword u w hw.holds)]

/-! ## The states of an automaton -/

namespace Dfa

variable {d : Dfa} {p : StateId}

theorem follow_next? : ∀ {p : StateId} {w : List Symbol}, follow d.next? p w = d.runFrom p w
  | _, [] => rfl
  | p, a :: w => by
      rw [runFrom_cons, follow, List.foldlM_cons]
      exact congrArg _ (funext fun q => follow_next?)

/-- **The states some word leads to are listed in the order of the first words that do.** -/
theorem pairwise_reachable (h : d.WellFormed) :
    d.reachable.Pairwise fun p q => ∀ v w, LeastWord (d.run · = some p) v →
      LeastWord (d.run · = some q) w → Precedes v w := by
  have hA : ∀ p a q, d.next? p a = some q → a ∈ d.alphabet :=
    fun _ _ _ ha => mem_alphabet_of_next? h ha
  have hsearch := pairwise_search hA (lt_of_mem_successors h)
    (Finset.mem_range.mpr h.initial_lt) (Finset.card_range _).le
  simp only [follow_next?] at hsearch
  exact hsearch

end Dfa

end Automata
