import Automata.Proofs.Binary.Codec
import Automata.Proofs.Consistency
import Automata.Proofs.Moves

/-!
# Proofs/Binary/RoundTrip — automata read back from their bytes

The final states, the rows and the entries of each row may be written in any order
(`Arrangement`).  Bytes written in any order are decoded to the parts of the automaton
(`Machine.readsAs_toBytesIn`), and what follows them is left; as the parts of a well-formed
automaton fit together, it is read back (`Machine.ofBytes_toBytesIn`).
-/

namespace Automata

/-! ## Orders of writing -/

/-- The final states, and the rows with their entries, in the order they are written. -/
structure Arrangement (τ : Type) where
  finals : List StateId
  rows : List (StateId × List (Symbol × τ))

namespace Machine

variable {τ : Type} (m : Machine τ)

/-- **An order in which an automaton can be written**: its final states in some order, and its rows
in some order, each with its entries in some order. -/
structure Arranged (o : Arrangement τ) : Prop where
  finals : o.finals.Perm m.finals.toList
  rows : ∃ rows, rows.Perm m.table.entries ∧
    List.Forall₂ (fun r row => r.1 = row.1 ∧ r.2.Perm row.2.entries) o.rows rows

/-- Everything ascending. -/
def ascending : Arrangement τ := ⟨m.finals.toList, m.table.entries.map fun r => (r.1, r.2.entries)⟩

theorem arranged_ascending : m.Arranged m.ascending where
  finals := List.Perm.refl _
  rows := ⟨m.table.entries, List.Perm.refl _, List.forall₂_map_left_iff.mpr
    (List.forall₂_same.mpr fun _ _ => ⟨rfl, List.Perm.refl _⟩)⟩

/-- An automaton as bytes, its sets and maps written in a given order. -/
def toBytesIn [Coded τ] (o : Arrangement τ) : List UInt8 :=
  (Codec.list Codec.text).encode m.labels ++ (Codec.symbols.encode m.alphabet.toList ++
    (Codec.stateId.encode m.initial ++ ((Codec.list Codec.stateId).encode o.finals ++
      (Codec.list (Codec.stateId.pair
        (Codec.list (Codec.symbol.pair Coded.codec)))).encode o.rows)))

theorem toBytesIn_ascending [Coded τ] : m.toBytesIn m.ascending = m.toBytes := by
  simp only [toBytesIn, ascending, toBytes, Payload.codec, Codec.via, Codec.pair, Codec.set,
    Codec.map, Codec.list, Payload.ofMachine, List.length_map, List.flatMap_map]

/-- **Handles are 32-bit numbers, and lengths 64-bit ones**, as in every automaton that a program
can hold. -/
structure Storable [Target τ] : Prop where
  numStates_le : m.numStates ≤ StateId.limit
  labels_lt : ∀ l ∈ m.labels, (Text.Utf8.encode l.toList).length < IntWidth.u64.limit
  targets_lt : ∀ r ∈ m.table.entries, ∀ e ∈ r.2.entries,
    (Target.states e.2).length < IntWidth.u64.limit

/-- **Every number that is written fits its width** — 32 bits for a handle, 64 for a length.  There
may be more states than handles. -/
structure Writable [Target τ] : Prop where
  numStates_lt : m.numStates < IntWidth.u64.limit
  labels_lt : ∀ l ∈ m.labels, (Text.Utf8.encode l.toList).length < IntWidth.u64.limit
  initial_lt : m.initial < StateId.limit
  finals_lt : ∀ q ∈ m.finals, q < StateId.limit
  sources_lt : ∀ r ∈ m.table.entries, r.1 < StateId.limit
  targets_lt : ∀ r ∈ m.table.entries, ∀ e ∈ r.2.entries,
    (Target.states e.2).length < IntWidth.u64.limit ∧ ∀ q ∈ Target.states e.2, q < StateId.limit

theorem Storable.writable [Target τ] {m : Machine τ} (hm : m.Storable) (h : m.WellFormed) :
    m.Writable := by
  have hlt : ∀ q < m.numStates, q < StateId.limit := fun q hq =>
    Nat.lt_of_lt_of_le hq hm.numStates_le
  exact ⟨Nat.lt_of_le_of_lt hm.numStates_le (by decide), hm.labels_lt, hlt _ h.initial_lt,
    fun q hq => hlt q (h.finals_lt q hq), fun r hr => hlt _ (h.table_ok r hr).1,
    fun r hr e he => ⟨hm.targets_lt r hr e he,
      fun q hq => hlt q (((h.table_ok r hr).2 e he).2 q hq)⟩⟩

end Machine

/-- A target is read back if its states are handles and its length is a length. -/
class LawfulCoded (τ : Type) [Target τ] [Coded τ] : Prop where
  reads_codec : ∀ {t : τ}, (∀ q ∈ Target.states t, q < StateId.limit) →
    (Target.states t).length < IntWidth.u64.limit → (Coded.codec : Codec τ).Reads t

instance : LawfulCoded StateId where
  reads_codec h _ := Codec.reads_stateId (h _ List.mem_cons_self)

instance : LawfulCoded (List StateId) where
  reads_codec h hl := Codec.reads_list hl fun q hq => Codec.reads_stateId (h q hq)

/-! ## Reading back -/

/-- A map has no more entries than there are numbers to order its keys by. -/
theorem SortedMap.length_entries_le {κ ν : Type} [Ranked κ] {m : SortedMap κ ν} {n : Nat}
    (h : ∀ k v, m.find? k = some v → Ranked.rank k < n) : m.entries.length ≤ n := by
  let keys : SortedSet κ := ⟨m.entries.map Prod.fst, List.pairwise_map.mpr m.ascending⟩
  have hkeys : keys.size ≤ n := SortedSet.size_le fun k hk => by
    obtain ⟨⟨k, v⟩, he, rfl⟩ := List.mem_map.mp hk
    exact h k v (mem_entries_iff.mp he)
  simpa [keys, SortedSet.size] using hkeys

namespace Machine

variable {τ : Type} [Target τ] [Coded τ] [LawfulCoded τ] {m : Machine τ} {o : Arrangement τ}

/-- **A row is read back**, in whatever order its entries are written. -/
theorem readsAs_row (hm : m.Writable) {p : StateId} {row : Row τ}
    (hrow : m.table.find? p = some row) {l : List (Symbol × τ)} (hl : l.Perm row.entries) :
    (Codec.map Codec.symbol Coded.codec).ReadsAs
      ((Codec.list (Codec.symbol.pair Coded.codec)).encode l) row := by
  have hlength : l.length ≤ 0x110000 := by
    rw [hl.length_eq]
    refine SortedMap.length_entries_le fun a _ _ => ?_
    have hscalar := Text.Utf8.isScalar a
    rw [rank_char]
    omega
  have hmap : (l.map id).Perm row.entries := by rwa [List.map_id]
  refine Codec.readsAs_map hmap (Nat.lt_of_le_of_lt hlength (by decide)) fun e he => ?_
  have hr : (p, row) ∈ m.table.entries := SortedMap.mem_entries_iff.mpr hrow
  have he : e ∈ row.entries := hl.mem_iff.mp he
  obtain ⟨hcount, hstates⟩ := hm.targets_lt _ hr e he
  exact Codec.ReadsAs.pair (Codec.reads_symbol e.1) (LawfulCoded.reads_codec hstates hcount)

/-- **The table is read back**, in whatever order its rows and their entries are written. -/
theorem readsAs_table (hm : m.Writable) (ho : m.Arranged o) :
    (Codec.map Codec.stateId (Codec.map Codec.symbol Coded.codec)).ReadsAs
      ((Codec.list (Codec.stateId.pair (Codec.list (Codec.symbol.pair Coded.codec)))).encode o.rows)
      m.table := by
  obtain ⟨rows, hperm, hrows⟩ := ho.rows
  -- what is written for a row stands beside the row that it is
  have hwritten : (o.rows.zip rows).map Prod.fst = o.rows := List.map_fst_zip hrows.length_eq.le
  have hrow : (o.rows.zip rows).map Prod.snd = rows := List.map_snd_zip hrows.length_eq.ge
  have hfind : ∀ z ∈ o.rows.zip rows, m.table.find? z.2.1 = some z.2.2 := fun z hz =>
    SortedMap.mem_entries_iff.mp (hperm.mem_iff.mp (hrow ▸ List.mem_map_of_mem hz))
  have hlt : ∀ p row, m.table.find? p = some row → p < StateId.limit := fun p row hp =>
    hm.sources_lt _ (SortedMap.mem_entries_iff.mpr hp)
  have hle : (o.rows.zip rows).length ≤ StateId.limit := by
    rw [← List.length_map Prod.snd, hrow, hperm.length_eq]
    exact SortedMap.length_entries_le hlt
  let written := Codec.stateId.pair (Codec.list (Codec.symbol.pair (Coded.codec : Codec τ)))
  have hread : (Codec.map Codec.stateId (Codec.map Codec.symbol Coded.codec)).ReadsAs
      (Codec.length.encode (o.rows.zip rows).length ++
        (o.rows.zip rows).flatMap fun z => written.encode z.1) m.table := by
    refine Codec.readsAs_map (hrow.symm ▸ hperm) (Nat.lt_of_le_of_lt hle (by decide)) fun z hz => ?_
    obtain ⟨hp, hl⟩ := List.forall₂_zip hrows hz
    change Codec.ReadsAs _ (Codec.stateId.encode z.1.1 ++ _) _
    rw [hp]
    exact Codec.ReadsAs.pair (Codec.reads_stateId (hlt _ _ (hfind z hz)))
      (readsAs_row hm (hfind z hz) hl)
  rwa [← List.flatMap_map, hwritten, ← List.length_map Prod.fst, hwritten] at hread

/-- **The bytes of an automaton are decoded to its parts**, in whatever order they are written. -/
theorem readsAs_toBytesIn (hm : m.Writable) (ho : m.Arranged o) :
    Payload.codec.ReadsAs (m.toBytesIn o) (Payload.ofMachine m) := by
  have hnumFinals : o.finals.length ≤ StateId.limit := by
    rw [ho.finals.length_eq]
    exact SortedSet.size_le fun q hq => hm.finals_lt q hq
  have hlabels : (Codec.list Codec.text).Reads m.labels :=
    Codec.reads_list hm.numStates_lt fun l hl => Codec.reads_text (hm.labels_lt l hl)
  have halphabet : Codec.symbols.Reads m.alphabet.toList :=
    Codec.reads_list (Nat.lt_of_le_of_lt m.alphabet.size_le (by decide)) fun a _ =>
      Codec.reads_symbol a
  have hset : (Codec.set Codec.stateId).ReadsAs ((Codec.list Codec.stateId).encode o.finals)
      m.finals :=
    Codec.readsAs_set ho.finals (Nat.lt_of_le_of_lt hnumFinals (by decide)) fun q hq =>
      Codec.reads_stateId (hm.finals_lt q (ho.finals.mem_iff.mp hq))
  refine Codec.ReadsAs.via (.pair hlabels (.pair halphabet (.pair ?_ (.pair hset ?_)))) _ _
  · exact Codec.reads_stateId hm.initial_lt
  · exact readsAs_table hm ho

/-- **A well-formed automaton is read back from its bytes**, in whatever order they are written and
whatever follows them. -/
theorem ofBytes_toBytesIn (h : m.WellFormed) (hm : m.Storable) (ho : m.Arranged o)
    (t : List UInt8) : ofBytes (m.toBytesIn o ++ t) = .ok m := by
  rw [ofBytes_of_decode (readsAs_toBytesIn (hm.writable h) ho t)]
  exact mapError_eq_ok_iff.mpr
    (Payload.machine?_eq_ok_iff.mpr ⟨Payload.wellFormed_ofMachine_iff.mpr h, rfl⟩)

end Machine

/-- **An automaton is read back from its bytes**, whatever follows them — those it is written to,
and all others that differ in the order of the final states, of the rows and of the entries of a
row. -/
theorem ofBytes_append :
    (∀ d : Dfa, d.WellFormed → d.Storable → ∀ t : List UInt8,
      Machine.ofBytes (d.toBytes ++ t) = .ok d ∧
      ∀ o : Arrangement StateId, d.Arranged o → Machine.ofBytes (d.toBytesIn o ++ t) = .ok d) ∧
    (∀ n : Nfa, n.WellFormed → n.Storable → ∀ t : List UInt8,
      Machine.ofBytes (n.toBytes ++ t) = .ok n ∧
      ∀ o : Arrangement (List StateId), n.Arranged o →
        Machine.ofBytes (n.toBytesIn o ++ t) = .ok n) := by
  refine ⟨fun d h hd t => ⟨?_, fun o ho => Machine.ofBytes_toBytesIn h hd ho t⟩,
    fun n h hn t => ⟨?_, fun o ho => Machine.ofBytes_toBytesIn h hn ho t⟩⟩
  · rw [← Machine.toBytesIn_ascending]
    exact Machine.ofBytes_toBytesIn h hd d.arranged_ascending t
  · rw [← Machine.toBytesIn_ascending]
    exact Machine.ofBytes_toBytesIn h hn n.arranged_ascending t

/-- Two states and two symbols, one of each written with several bytes. -/
def accented : Dfa :=
  (Draft.ofDeclarations [.state "é", .state "q", .symbol 'a', .symbol '€', .initial "é", .final "é",
    .final "q", .transition ⟨"é", 'a', "é"⟩, .transition ⟨"é", '€', "q"⟩,
    .transition ⟨"q", 'a', "é"⟩]).machine

/-- The set, the table and a row in descending order, and a byte behind them. -/
theorem ofBytes_append_accented :
    Machine.ofBytes (accented.toBytesIn
      ⟨[1, 0], [(1, [('a', 0)]), (0, [('€', 1), ('a', 0)])]⟩ ++ [7]) = .ok accented ∧
    Machine.ofBytes (Nfa.endsWithA.toBytes ++ [7]) = .ok Nfa.endsWithA := by
  refine ⟨(ofBytes_append.1 accented (by decide) ⟨by decide, by decide, by decide⟩ [7]).2 _
    ⟨by decide, [(1, (accented.table.find? 1).getD ∅), (0, (accented.table.find? 0).getD ∅)],
      by decide, ?_⟩,
    (ofBytes_append.2 Nfa.endsWithA (by decide) ⟨by decide, by decide, by decide⟩ [7]).1⟩
  exact .cons ⟨rfl, by decide⟩ (.cons ⟨rfl, by decide⟩ .nil)

end Automata
