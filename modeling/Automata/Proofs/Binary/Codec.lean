import Automata.Binary.Payload
import Automata.Proofs.Binary.Utf8
import Automata.Proofs.Loaded

/-!
# Proofs/Binary/Codec — what is written is read back

Each codec reads back what it writes (`Codec.Reads`), as long as lengths are 64-bit numbers and
states 32-bit handles.  Of a set and of a map the members may be written in any order
(`readsAs_set`, `readsAs_map`), so the laws of compound values are stated for bytes that are read to
a value (`Codec.ReadsAs`), whoever wrote them.
-/

namespace Automata

/-! ## Maps made of entries in any order -/

namespace SortedMap

variable {κ ν : Type} [Ranked κ] {m : SortedMap κ ν}

theorem nodup_keys (m : SortedMap κ ν) : (m.entries.map Prod.fst).Nodup :=
  List.pairwise_map.mpr (m.ascending.imp fun h e => absurd h (by rw [e]; exact Nat.lt_irrefl _))

/-- **Inserted entries with different keys are all held**, beside what was held before. -/
theorem find?_foldl_insert {k : κ} : ∀ {l : List (κ × ν)} {m : SortedMap κ ν},
    (l.map Prod.fst).Nodup →
      (∀ v, (k, v) ∈ l → (l.foldl (fun m e => m.insert e.1 e.2) m).find? k = some v) ∧
      (k ∉ l.map Prod.fst → (l.foldl (fun m e => m.insert e.1 e.2) m).find? k = m.find? k)
  | [], _, _ => ⟨fun _ h => absurd h List.not_mem_nil, fun _ => rfl⟩
  | (j, w) :: l, m, h => by
      obtain ⟨hj, hl⟩ := List.nodup_cons.mp h
      obtain ⟨hmem, hnot⟩ := find?_foldl_insert (k := k) (m := m.insert j w) hl
      refine ⟨fun v hv => ?_, fun hk => ?_⟩
      · rcases List.mem_cons.mp hv with e | hv
        · obtain ⟨rfl, rfl⟩ := Prod.mk.inj e
          exact (hnot hj).trans (find?_update_self m k _)
        · exact hmem v hv
      · obtain ⟨hkj, hk⟩ := not_or.mp (fun h => hk (List.mem_cons.mpr h))
        exact (hnot hk).trans (find?_update_of_ne m _ hkj)

/-- **The entries of a map make it again**, in whatever order they are. -/
theorem ofEntries_eq_of_perm {l : List (κ × ν)} (h : l.Perm m.entries) : ofEntries l = m := by
  have hnodup : (l.map Prod.fst).Nodup := (h.map Prod.fst).nodup_iff.mpr m.nodup_keys
  refine ext_find? fun k => ?_
  obtain ⟨hmem, hnot⟩ := find?_foldl_insert (k := k) (m := (∅ : SortedMap κ ν)) hnodup
  cases hv : m.find? k with
  | some v => exact hmem v (h.mem_iff.mpr (mem_entries_iff.mpr hv))
  | none =>
      refine hnot fun hk => ?_
      obtain ⟨⟨j, v⟩, hj, rfl⟩ := List.mem_map.mp hk
      exact absurd (mem_entries_iff.mp (h.mem_iff.mp hj)) (by simp [hv])

end SortedMap

/-- The members of a set make it again, in whatever order they are. -/
theorem SortedSet.ofList_eq_of_perm {α : Type} [Ranked α] {s : SortedSet α} {l : List α}
    (h : l.Perm s.toList) : SortedSet.ofList l = s :=
  SortedSet.ext_mem fun _ => SortedSet.mem_ofList.trans h.mem_iff

/-- The integers of a width are those below this one. -/
def IntWidth.limit : IntWidth → Nat
  | u32 => 0x100000000
  | u64 => 0x10000000000000000

namespace Codec

variable {α β : Type} {c : Codec α} {d : Codec β}

/-- **Bytes that are read to a value**, whatever follows them. -/
def ReadsAs (c : Codec α) (bs : List UInt8) (x : α) : Prop :=
  ∀ rest, c.decode (bs ++ rest) = .ok (x, rest)

/-! ## Integers -/

theorem take_append (rest : List UInt8) :
    ∀ bs : List UInt8, take bs.length (bs ++ rest) = .ok (bs, rest)
  | [] => rfl
  | b :: bs => by
      rw [List.length_cons, List.cons_append, take, take_append rest bs]
      rfl

theorem length_littleEndian : ∀ k n : Nat, (littleEndian k n).length = k
  | 0, _ => rfl
  | k + 1, n => by rw [littleEndian, List.length_cons, length_littleEndian k]

/-- **The bytes of a number make it again**, if there are enough of them. -/
theorem ofLittleEndian_littleEndian :
    ∀ k n : Nat, n < Nat.pow 256 k → ofLittleEndian (littleEndian k n) = n
  | 0, _, h => (Nat.lt_one_iff.mp h).symm
  | k + 1, n, h => by
      have hrest : n / 256 < Nat.pow 256 k := Nat.div_lt_of_lt_mul (by rwa [Nat.mul_comm])
      rw [littleEndian, ofLittleEndian, ofLittleEndian_littleEndian k _ hrest,
        Text.Utf8.toNat_ofNat (Nat.mod_lt n (by decide))]
      exact Nat.mod_add_div n 256

theorem decodeFixed_littleEndian {k n : Nat} (h : n < Nat.pow 256 k) (rest : List UInt8) :
    decodeFixed k (littleEndian k n ++ rest) = .ok (n, rest) := by
  have htake := take_append rest (littleEndian k n)
  rw [length_littleEndian] at htake
  rw [decodeFixed, htake]
  exact congrArg (fun i => Except.ok (i, rest)) (ofLittleEndian_littleEndian k n h)

/-- **An integer is read in its shortest form**, on either side of the bounds between forms. -/
theorem decodeInt_encodeInt {w : IntWidth} {n : Nat} (h : n < w.limit) (rest : List UInt8) :
    decodeInt w (encodeInt n ++ rest) = .ok (n, rest) := by
  rw [encodeInt]
  split
  case isTrue h₁ =>
    have hn : (UInt8.ofNat n).toNat = n := Text.Utf8.toNat_ofNat (by omega)
    rw [List.singleton_append, decodeInt.eq_def]
    dsimp only
    rw [hn, if_pos h₁]
  case isFalse =>
  split
  case isTrue h₂ => exact decodeFixed_littleEndian (k := 2) h₂ rest
  case isFalse =>
  split
  case isTrue h₃ => exact decodeFixed_littleEndian (k := 4) h₃ rest
  case isFalse h₃ =>
    cases w with
    | u32 => exact absurd h h₃
    | u64 => exact decodeFixed_littleEndian (k := 8) h rest

theorem reads_stateId {q : StateId} (h : q < StateId.limit) : stateId.Reads q :=
  decodeInt_encodeInt (w := .u32) h

theorem reads_length {n : Nat} (h : n < IntWidth.u64.limit) : length.Reads n :=
  decodeInt_encodeInt (w := .u64) h

/-! ## Texts and symbols -/

theorem reads_text {s : String} (h : (Text.Utf8.encode s.toList).length < IntWidth.u64.limit) :
    text.Reads s := by
  intro rest
  have hlength := reads_length h (Text.Utf8.encode s.toList ++ rest)
  have htake := take_append rest (Text.Utf8.encode s.toList)
  rw [text]
  dsimp only
  rw [List.append_assoc, hlength]
  refine bind_eq_ok_iff.mpr ⟨_, rfl, bind_eq_ok_iff.mpr ⟨_, htake, ?_⟩⟩
  dsimp only
  rw [Text.Utf8.decode_encode]
  dsimp only
  rw [String.ofList_toList]

theorem reads_symbol (a : Symbol) : symbol.Reads a := by
  intro rest
  obtain ⟨b, bs, hbytes, hwidth⟩ := Text.Utf8.exists_encodeChar_eq_cons a
  have hdecode : Text.Utf8.decode (b :: bs) = .ok [a] := by
    have := Text.Utf8.decode_encode [a]
    rwa [Text.Utf8.encode, List.flatMap_singleton, hbytes] at this
  rw [symbol]
  dsimp only
  rw [hbytes, List.cons_append]
  dsimp only
  rw [hwidth]
  refine bind_eq_ok_iff.mpr ⟨_, take_append rest bs, ?_⟩
  dsimp only
  rw [hdecode]

/-! ## Compound values -/

theorem ReadsAs.pair {bs bs' : List UInt8} {x : α} {y : β} (hx : c.ReadsAs bs x)
    (hy : d.ReadsAs bs' y) : (c.pair d).ReadsAs (bs ++ bs') (x, y) := by
  intro rest
  rw [List.append_assoc]
  exact bind_eq_ok_iff.mpr ⟨_, hx _, bind_eq_ok_iff.mpr ⟨_, hy rest, rfl⟩⟩

theorem ReadsAs.via {bs : List UInt8} {x : α} (h : c.ReadsAs bs x) (f : α → β) (g : β → α) :
    (c.via f g).ReadsAs bs (f x) :=
  fun rest => map_eq_ok_iff.mpr ⟨_, h rest, rfl⟩

/-- The values of a list are read one after another. -/
theorem decodeMany_flatMap {γ : Type} {bytes : γ → List UInt8} {value : γ → α} (rest : List UInt8) :
    ∀ {l : List γ}, (∀ x ∈ l, c.ReadsAs (bytes x) (value x)) →
      decodeMany c l.length (l.flatMap bytes ++ rest) = .ok (l.map value, rest)
  | [], _ => rfl
  | x :: l, h => by
      have hl := decodeMany_flatMap rest fun y hy => h y (List.mem_cons_of_mem x hy)
      rw [List.flatMap_cons, List.append_assoc]
      exact bind_eq_ok_iff.mpr ⟨_, h x List.mem_cons_self _, bind_eq_ok_iff.mpr ⟨_, hl, rfl⟩⟩

/-- **A list is read from its length and its values**, each as it is written. -/
theorem readsAs_list {γ : Type} {bytes : γ → List UInt8} {value : γ → α} {l : List γ}
    (hl : l.length < IntWidth.u64.limit) (h : ∀ x ∈ l, c.ReadsAs (bytes x) (value x)) :
    (list c).ReadsAs (length.encode l.length ++ l.flatMap bytes) (l.map value) := by
  intro rest
  rw [List.append_assoc]
  exact bind_eq_ok_iff.mpr ⟨_, reads_length hl _, decodeMany_flatMap rest h⟩

theorem reads_list {l : List α} (hl : l.length < IntWidth.u64.limit) (h : ∀ x ∈ l, c.Reads x) :
    (list c).Reads l := by
  have : (list c).ReadsAs ((list c).encode l) (l.map id) := readsAs_list hl h
  rwa [List.map_id] at this

/-- **A set is read from its members**, in whatever order they are written. -/
theorem readsAs_set [Ranked α] {s : SortedSet α} {l : List α} (hperm : l.Perm s.toList)
    (hl : l.length < IntWidth.u64.limit) (h : ∀ x ∈ l, c.Reads x) :
    (set c).ReadsAs ((list c).encode l) s := by
  rw [← SortedSet.ofList_eq_of_perm hperm]
  exact ReadsAs.via (reads_list hl h) _ _

/-- **A map is read from its entries**, in whatever order they are written. -/
theorem readsAs_map [Ranked α] {γ : Type} {m : SortedMap α β} {bytes : γ → List UInt8}
    {entry : γ → α × β} {l : List γ} (hperm : (l.map entry).Perm m.entries)
    (hl : l.length < IntWidth.u64.limit)
    (h : ∀ x ∈ l, (c.pair d).ReadsAs (bytes x) (entry x)) :
    (map c d).ReadsAs (length.encode l.length ++ l.flatMap bytes) m := by
  rw [← SortedMap.ofEntries_eq_of_perm hperm]
  exact ReadsAs.via (readsAs_list hl h) _ _

end Codec

end Automata
