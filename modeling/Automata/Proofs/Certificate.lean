import Automata.Proofs.Accounting

/-!
# Proofs/Certificate — the pairs listed by a minimization certify each other

Two states are told apart at sight if just one of them is final, and by a log if it has their pair.
A log certifies itself if each of its lines is justified by those before it (`Dfa.Certified`): its
symbol, and no lesser one, leads two states not told apart yet to two that are.  Each mark the
passes make adds such a line, and what is marked is what the lines so far tell apart
(`Records.mark`), so the report lists just what the log of the minimization tells apart:
`certified_minimization`.
-/

namespace Automata.Dfa

variable {d : Dfa} {log earlier later : List Marking} {k : Marking} {t : PairTable d.numStates}
  {p q r s : StateId} {a : Symbol}

/-! ## Logs -/

/-- **Two states of which just one is final, or whose pair is logged.** -/
def ToldApart (d : Dfa) (log : List Marking) (p q : StateId) : Prop :=
  p ≠ q ∧ (d.isFinal p ≠ d.isFinal q ∨
    ∃ k ∈ log, k.lower = p ∧ k.upper = q ∨ k.lower = q ∧ k.upper = p)

/-- A symbol leads two states to states told apart. -/
def Splits (d : Dfa) (log : List Marking) (p q : StateId) (a : Symbol) : Prop :=
  ∃ p' q', d.next? p a = some p' ∧ d.next? q a = some q' ∧ d.ToldApart log p' q'

/-- **A line is justified by earlier lines.** -/
structure Justified (d : Dfa) (earlier : List Marking) (k : Marking) : Prop where
  lower_lt : k.lower < k.upper
  upper_lt : k.upper < d.numStates
  isFinal_eq : d.isFinal k.lower = d.isFinal k.upper
  /-- The pair is not logged yet. -/
  fresh : ∀ j ∈ earlier, (j.lower, j.upper) ≠ (k.lower, k.upper)
  mem_alphabet : k.symbol ∈ d.alphabet
  splits : d.Splits earlier k.lower k.upper k.symbol
  least : ∀ a ∈ d.alphabet, d.Splits earlier k.lower k.upper a → k.symbol.toNat ≤ a.toNat

/-- **Each line of a log is justified by those before it.** -/
def Certified (d : Dfa) (log : List Marking) : Prop :=
  ∀ earlier k later, log = earlier ++ k :: later → d.Justified earlier k

theorem certified_nil (d : Dfa) : d.Certified [] := fun _ _ _ h =>
  absurd h.symm (List.append_ne_nil_of_right_ne_nil _ (List.cons_ne_nil _ _))

/-- **One more line that is justified is certified with the others.** -/
theorem certified_concat_iff : d.Certified (log ++ [k]) ↔ d.Certified log ∧ d.Justified log k := by
  constructor
  · intro h
    refine ⟨fun earlier j later hlog => h earlier j (later ++ [k]) ?_, h log k [] rfl⟩
    rw [hlog, List.append_assoc, List.cons_append]
  · rintro ⟨hlog, hk⟩ earlier j later h
    obtain rfl | ⟨later, j', rfl⟩ := List.eq_nil_or_concat later
    · obtain ⟨rfl, rfl⟩ := List.append_singleton_inj.mp h
      exact hk
    · rw [List.concat_eq_append, ← List.cons_append, ← List.append_assoc] at h
      exact hlog earlier j later (List.append_singleton_inj.mp h).1

/-- **No pair is logged twice.** -/
theorem Certified.pairwise (h : d.Certified log) :
    log.Pairwise fun j k => (j.lower, j.upper) ≠ (k.lower, k.upper) := by
  induction log using List.reverseRecOn with
  | nil => exact .nil
  | append_singleton log k ih =>
      obtain ⟨hlog, hk⟩ := certified_concat_iff.mp h
      exact List.pairwise_append.mpr ⟨ih hlog, List.pairwise_singleton _ _, fun j hj k' hk' =>
        List.mem_singleton.mp hk' ▸ hk.fresh j hj⟩

/-- **Each line names a pair of states**, the lower one first. -/
theorem Certified.mem_pairs (h : d.Certified log) (hk : k ∈ log) :
    (k.lower, k.upper) ∈ pairs d.numStates := by
  obtain ⟨earlier, later, hlog⟩ := List.append_of_mem hk
  have hjustified := h earlier k later hlog
  exact Automata.mem_pairs.mpr ⟨hjustified.lower_lt, hjustified.upper_lt⟩

/-- States by number are told apart at sight or by a line that names them in this order. -/
theorem Certified.toldApart_iff (h : d.Certified log) (hlt : p < q) : d.ToldApart log p q ↔
    d.isFinal p ≠ d.isFinal q ∨ ∃ k ∈ log, k.lower = p ∧ k.upper = q := by
  rw [ToldApart, and_iff_right (Nat.ne_of_lt hlt)]
  refine or_congr_right (exists_congr fun k => and_congr_right fun hk => or_iff_left ?_)
  rintro ⟨rfl, rfl⟩
  exact absurd (Automata.mem_pairs.mp (h.mem_pairs hk)).1 (Nat.lt_asymm hlt)

/-- A line tells its pair apart, and no other that was not. -/
theorem toldApart_concat_iff (hne : p ≠ q) : d.ToldApart (log ++ [⟨p, q, a⟩]) r s ↔
    d.ToldApart log r s ∨ r = p ∧ s = q ∨ r = q ∧ s = p := by
  simp only [ToldApart, List.mem_append, List.mem_singleton, or_and_right, exists_or,
    exists_eq_left]
  constructor
  · rintro ⟨hrs, hfinal | hlogged | ⟨rfl, rfl⟩ | ⟨rfl, rfl⟩⟩
    · exact .inl ⟨hrs, .inl hfinal⟩
    · exact .inl ⟨hrs, .inr hlogged⟩
    · exact .inr (.inl ⟨rfl, rfl⟩)
    · exact .inr (.inr ⟨rfl, rfl⟩)
  · rintro (⟨hrs, hfinal | hlogged⟩ | ⟨rfl, rfl⟩ | ⟨rfl, rfl⟩)
    · exact ⟨hrs, .inl hfinal⟩
    · exact ⟨hrs, .inr (.inl hlogged)⟩
    · exact ⟨hne, .inr (.inr (.inl ⟨rfl, rfl⟩))⟩
    · exact ⟨hne.symm, .inr (.inr (.inr ⟨rfl, rfl⟩))⟩

/-! ## Marks -/

/-- **The marks are what a certified log tells apart.** -/
structure Records (d : Dfa) (log : List Marking) (t : PairTable d.numStates) : Prop where
  certified : d.Certified log
  isMarked_iff : ∀ p < d.numStates, ∀ q < d.numStates,
    (t.isMarked p q = true ↔ d.ToldApart log p q)

theorem records_finalityTable (d : Dfa) : d.Records [] (d.finalityTable d.numStates) where
  certified := d.certified_nil
  isMarked_iff p hp q hq := by
    rw [isMarked_finalityTable_iff hp hq, ToldApart]
    simp only [List.not_mem_nil, false_and, exists_false, or_false]
    exact ⟨fun h => ⟨fun e => h (congrArg d.isFinal e), h⟩, And.right⟩

/-- A symbol leads two states to a marked pair if and only if it does to states told apart. -/
theorem Records.splits_iff (h : d.WellFormed) (hrecords : d.Records log t) : d.Splits log p q a ↔
    ∃ p' q', d.next? p a = some p' ∧ d.next? q a = some q' ∧ t.isMarked p' q' = true := by
  refine exists_congr fun p' => exists_congr fun q' =>
    and_congr_right fun hp => and_congr_right fun hq => ?_
  exact (hrecords.isMarked_iff p' (next?_lt h hp) q' (next?_lt h hq)).symm

/-- **A mark adds a line that is justified.** -/
theorem Records.mark (h : d.WellFormed) (hrecords : d.Records log t)
    (hpq : (p, q) ∈ pairs d.numStates) (hunmarked : t.isMarked p q = false)
    (ha : d.splitter? t p q = some a) : d.Records (log ++ [⟨p, q, a⟩]) (t.mark p q) := by
  obtain ⟨hlt, hq⟩ := mem_pairs.mp hpq
  have hp : p < d.numStates := Nat.lt_trans hlt hq
  obtain ⟨hmem, hsplits⟩ := of_splitter?_eq_some ha
  have hapart : ¬ d.ToldApart log p q := by
    rw [← hrecords.isMarked_iff p hp q hq, hunmarked]
    exact Bool.false_ne_true
  have hne : p ≠ q := Nat.ne_of_lt hlt
  refine ⟨certified_concat_iff.mpr ⟨hrecords.certified, ?justified⟩, fun r hr s hs => ?marked⟩
  case justified =>
    refine ⟨hlt, hq, not_not.mp fun hfinal => hapart ⟨hne, .inl hfinal⟩, fun j hj hjk => ?_, hmem,
      (hrecords.splits_iff h).mpr hsplits, fun b hb hsplit => ?_⟩
    · obtain ⟨hlower, hupper⟩ := Prod.mk.inj hjk
      exact hapart ⟨hne, .inr ⟨j, hj, .inl ⟨hlower, hupper⟩⟩⟩
    · obtain ⟨p', q', hp', hq', hmarked⟩ := (hrecords.splits_iff h).mp hsplit
      exact toNat_le_of_splitter?_eq_some ha hb hp' hq' hmarked
  case marked =>
    rw [PairTable.isMarked_mark_iff hpq, hrecords.isMarked_iff r hr s hs, toldApart_concat_iff hne]

/-- **The pairs marked are those of which just one state is final and those logged.** -/
theorem Records.mem_markedPairs_iff (h : d.Records log t) : (p, q) ∈ t.markedPairs ↔
    p < q ∧ q < d.numStates ∧
      (d.isFinal p ≠ d.isFinal q ∨ ∃ k ∈ log, k.lower = p ∧ k.upper = q) := by
  rw [PairTable.mem_markedPairs]
  refine and_congr_right fun hlt => and_congr_right fun hq => ?_
  rw [h.isMarked_iff p (Nat.lt_trans hlt hq) q hq, h.certified.toldApart_iff hlt]

/-- **The passes make a certified log** of what they mark. -/
theorem records_distinguish (h : d.WellFormed) :
    d.Records d.distinguish.markings d.distinguish.table :=
  propagate_extends (P := d.Records) (m := [])
    (fun _ _ _ _ _ hpq hrecords => hrecords.mark h hpq) d.records_finalityTable

/-! ## Labels -/

/-- **Where labels tell the states of an automaton apart, they do those of its completed part** —
the label of a trap is new. -/
theorem nodup_labels_completed (hlabels : d.labels.Nodup) :
    d.minimization.completed.labels.Nodup := by
  have hkept : (d.kept.map d.label).Nodup := by
    refine d.nodup_kept.map_on fun p hp q hq => ?_
    exact Machine.label_inj hlabels (lt_of_mem_kept hp) (lt_of_mem_kept hq)
  rw [labels_completed, List.nodup_append']
  refine ⟨hkept, ?_, ?_⟩
  · cases d.minimization.trap <;> simp
  · intro l hl htrap
    obtain ⟨k, rfl, hleast⟩ := exists_isLeast_trap (Option.mem_toList.mp htrap)
    exact hleast.1.2 hl

/-! ## Minimizing -/

/-- The lines of the marks are the trace lines of the log. -/
theorem filter_trace_log (r : Minimization) :
    r.log.filter (fun l => l.level = .trace) = r.markings.map r.markingLine := by
  have hmarkings : (r.markings.map r.markingLine).filter (fun l => l.level = .trace) =
      r.markings.map r.markingLine := by
    refine List.filter_eq_self.mpr fun l hl => ?_
    obtain ⟨k, -, rfl⟩ := List.mem_map.mp hl
    rfl
  -- every other line is of the other level
  simp only [Minimization.log, List.filter_append, hmarkings]
  cases r.unreachable.isEmpty <;> cases r.trap <;> exact List.append_nil _

/-- **The log of a minimization certifies what its report lists.**  Where labels tell states apart,
those of the completed part do, and each trace line names the states of a mark, the lower one first,
and its symbol.  No two lines name the same states, and each line is justified by those before it.
The pairs logged and those of which just one state is final are the pairs the report lists. -/
theorem certified_minimization (hd : d.Obtainable) (hlabels : d.labels.Nodup) :
    let r := d.minimization
    let c := r.completed
    c.labels.Nodup ∧
    r.log.filter (fun l => l.level = .trace) = r.markings.map (fun k => ⟨.trace, "marking (" ++
      c.label k.lower ++ ", " ++ c.label k.upper ++ ") on " ++ Text.quoteSymbol k.symbol⟩) ∧
    (r.markings.map fun k => (c.label k.lower, c.label k.upper)).Nodup ∧
    c.Certified r.markings ∧
    ∀ x y, (x, y) ∈ r.distinguishable ↔ ∃ p q, p < q ∧ q < c.numStates ∧
      (c.isFinal p ≠ c.isFinal q ∨ ∃ k ∈ r.markings, k.lower = p ∧ k.upper = q) ∧
      c.label p = x ∧ c.label q = y := by
  intro r c
  have hrecords : c.Records r.markings c.distinguish.table :=
    records_distinguish (wellFormed_complete (wellFormed_trim hd.wellFormed))
  have hcertified := hrecords.certified
  have hnodup : c.labels.Nodup := nodup_labels_completed hlabels
  refine ⟨hnodup, filter_trace_log r, ?pairs, hcertified, fun x y => ?report⟩
  case pairs =>
    have hinj : ∀ k ∈ r.markings, c.labels.idxOf (c.label k.lower) = k.lower ∧
        c.labels.idxOf (c.label k.upper) = k.upper := by
      intro k hk
      obtain ⟨hlower, hupper⟩ := mem_pairs.mp (hcertified.mem_pairs hk)
      exact ⟨Machine.idxOf_label hnodup (Nat.lt_trans hlower hupper),
        Machine.idxOf_label hnodup hupper⟩
    refine List.pairwise_map.mpr (hcertified.pairwise.imp_of_mem fun {j k} hj hk hne hlabel => ?_)
    refine hne ?_
    obtain ⟨hlower, hupper⟩ := Prod.mk.inj hlabel
    rw [← (hinj j hj).1, ← (hinj j hj).2, hlower, hupper, (hinj k hk).1, (hinj k hk).2]
  case report =>
    have hlisted : (x, y) ∈ r.distinguishable ↔ ∃ p q,
        (p, q) ∈ c.distinguish.table.markedPairs ∧ c.label p = x ∧ c.label q = y :=
      List.mem_map.trans (by simp only [Prod.exists, Prod.mk.injEq]; rfl)
    rw [hlisted]
    refine exists_congr fun p => exists_congr fun q => ?_
    rw [hrecords.mem_markedPairs_iff, and_assoc, and_assoc]

/-- A partial automaton of the word `aa`. -/
def doubled : Dfa :=
  (Draft.ofDeclarations [.state "A", .state "B", .state "C", .symbol 'a', .initial "A", .final "C",
    .transition ⟨"A", 'a', "B"⟩, .transition ⟨"B", 'a', "C"⟩]).machine

/-- The last pair is marked in a second pass, and only the line before it says why. -/
theorem certified_minimization_doubled :
    doubled.minimization.log.filter (fun l => l.level = .trace) =
      [⟨.trace, "marking (A, B) on 'a'"⟩, ⟨.trace, "marking (B, q3) on 'a'"⟩,
        ⟨.trace, "marking (A, q3) on 'a'"⟩] ∧
    doubled.minimization.completed.Justified [⟨0, 1, 'a'⟩, ⟨1, 3, 'a'⟩] ⟨0, 3, 'a'⟩ := by
  have hmarkings : doubled.minimization.markings = [⟨0, 1, 'a'⟩, ⟨1, 3, 'a'⟩, ⟨0, 3, 'a'⟩] := by
    change doubled.trim.complete.distinguish.markings = _
    rw [distinguish, propagate_of_pass_ne_nil (by decide), propagate_of_pass_ne_nil (by decide),
      propagate_of_pass_eq_nil (by decide)]
    decide
  obtain ⟨-, hlog, -, hcertified, -⟩ := certified_minimization
    (.loaded (Machine.loaded_machine (by decide)) : doubled.Obtainable) (by decide)
  rw [hmarkings] at hlog hcertified
  exact ⟨hlog.trans (by decide +kernel), hcertified [⟨0, 1, 'a'⟩, ⟨1, 3, 'a'⟩] ⟨0, 3, 'a'⟩ [] rfl⟩

end Automata.Dfa
