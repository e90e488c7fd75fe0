import Automata.Proofs.Binary.RoundTrip

/-!
# Proofs/Binary/Truncation — bytes that are cut short end too soon

A read takes some bytes from the front: they make its value whatever follows, and a proper part of
them makes nothing, as the read runs out (`Codec.Takes`).  Every read here is of this kind
(`Codec.SelfDelimiting`), since reading one thing after another is (`Codec.SelfDelimiting.bind`).
So if the bytes of an automaton are cut anywhere, decoding them ends too soon, before anything
decoded is checked: `ofBytes_eq_unexpectedEnd`.
-/

namespace Automata

/-- **What is cut short loses its end, or all of its second part and an end of the first.** -/
theorem append_eq_append_cut {α : Type} {u v b t : List α} (h : u ++ v = b ++ t) :
    (∃ b', b = u ++ b' ∧ v = b' ++ t) ∨ ∃ t', t' ≠ [] ∧ u = b ++ t' ∧ t = t' ++ v := by
  obtain h | ⟨t', hu, hv⟩ := List.append_eq_append_iff.mp h
  · exact .inl h
  by_cases ht' : t' = []
  · subst ht'
    exact .inl ⟨[], by simpa using hu.symm, hv.symm⟩
  · exact .inr ⟨t', ht', hu, hv⟩

namespace Codec

variable {α β : Type}

/-- A way of reading a value from the front of some bytes, leaving the rest. -/
abbrev Read (α : Type) := List UInt8 → Except DecodeError (α × List UInt8)

/-- **What a read takes**: bytes that make a value whatever follows them, while a part of them that
is cut short runs out, with no more bytes missing than were cut off. -/
structure Takes (f : Read α) (used : List UInt8) (x : α) : Prop where
  reads : ∀ rest, f (used ++ rest) = .ok (x, rest)
  runsOut : ∀ b t, used = b ++ t → t ≠ [] →
    ∃ k, 0 < k ∧ k ≤ t.length ∧ f b = .error (.unexpectedEnd k)

/-- **A read that succeeds has taken some bytes** and left the others. -/
def SelfDelimiting (f : Read α) : Prop :=
  ∀ bs x rest, f bs = .ok (x, rest) → ∃ used, bs = used ++ rest ∧ Takes f used x

/-! ## Ways to read -/

namespace SelfDelimiting

variable {f f' : Read α}

/-- A value that is there takes nothing. -/
theorem ok (x : α) : SelfDelimiting fun bs => .ok (x, bs) := by
  intro bs y rest h
  obtain ⟨rfl, rfl⟩ := Prod.mk.inj (Except.ok.inj h)
  refine ⟨[], rfl, fun _ => rfl, fun b t hbt ht => ?_⟩
  exact absurd (List.append_eq_nil_iff.mp hbt.symm).2 ht

/-- A read that always fails never has a value. -/
theorem error (e : List UInt8 → DecodeError) :
    SelfDelimiting fun bs => (.error (e bs) : Except DecodeError (α × List UInt8)) :=
  fun _ _ _ h => nomatch h

theorem ite {c : Prop} [Decidable c] (hf : SelfDelimiting f) (hf' : SelfDelimiting f') :
    SelfDelimiting fun bs => if c then f bs else f' bs := by
  by_cases h : c
  · simpa only [if_pos h] using hf
  · simpa only [if_neg h] using hf'

/-- A first byte is taken with what is read behind it. -/
theorem cons (hnil : f [] = .error (.unexpectedEnd 1))
    (hcons : ∀ b, SelfDelimiting fun bs => f (b :: bs)) : SelfDelimiting f := by
  intro bs x rest h
  cases bs with
  | nil => exact nomatch hnil.symm.trans h
  | cons b bs =>
      obtain ⟨used, rfl, hused⟩ := hcons b _ _ _ h
      refine ⟨b :: used, rfl, hused.reads, fun b' t hbt ht => ?_⟩
      cases b' with
      | nil => exact ⟨1, Nat.one_pos, List.length_pos_iff.mpr ht, hnil⟩
      | cons c b' =>
          obtain ⟨rfl, hbt'⟩ := List.cons.inj hbt
          exact hused.runsOut b' t hbt' ht

/-- **One read after the other takes what the two take** — the first runs out if it is cut, and
otherwise the second does. -/
theorem bind {g : α × List UInt8 → Except DecodeError (β × List UInt8)} (hf : SelfDelimiting f)
    (hg : ∀ x, SelfDelimiting fun bs => g (x, bs)) : SelfDelimiting fun bs => f bs >>= g := by
  intro bs y rest h
  obtain ⟨⟨x, mid⟩, hx, hy⟩ := bind_eq_ok_iff.mp h
  obtain ⟨used, rfl, hused⟩ := hf _ _ _ hx
  obtain ⟨used', rfl, hused'⟩ := hg x _ _ _ hy
  refine ⟨used ++ used', (List.append_assoc ..).symm, fun rest => ?reads,
    fun b t hbt ht => ?runsOut⟩
  case reads =>
    rw [List.append_assoc]
    exact bind_eq_ok_iff.mpr ⟨_, hused.reads _, hused'.reads rest⟩
  case runsOut =>
    obtain ⟨b', rfl, hb'⟩ | ⟨t', ht', hb, rfl⟩ := append_eq_append_cut hbt
    · obtain ⟨k, hk, hkt, herror⟩ := hused'.runsOut b' t hb' ht
      exact ⟨k, hk, hkt, by rw [hused.reads]; exact herror⟩
    · obtain ⟨k, hk, hkt, herror⟩ := hused.runsOut b t' hb ht'
      exact ⟨k, hk, hkt.trans (by simp), by rw [herror]; rfl⟩

/-- What is made of a value does not matter. -/
theorem map (hf : SelfDelimiting f) (g : α → β) :
    SelfDelimiting fun bs => (f bs).map fun r => (g r.1, r.2) := by
  have hbind : SelfDelimiting fun bs => f bs >>= fun r => .ok (g r.1, r.2) :=
    hf.bind fun x => ok (g x)
  have heq : ∀ bs, (f bs >>= fun r => .ok (g r.1, r.2)) = (f bs).map fun r => (g r.1, r.2) :=
    fun bs => by cases f bs <;> rfl
  simpa only [heq] using hbind

end SelfDelimiting

/-! ## Integers -/

theorem eq_append_of_take : ∀ {n : Nat} {bs x rest : List UInt8}, take n bs = .ok (x, rest) →
    bs = x ++ rest ∧ x.length = n
  | 0, bs, x, rest, h => by
      obtain ⟨rfl, rfl⟩ := Prod.mk.inj (Except.ok.inj h)
      exact ⟨rfl, rfl⟩
  | n + 1, [], x, rest, h => nomatch h
  | n + 1, b :: bs, x, rest, h => by
      obtain ⟨⟨x, rest⟩, hx, h⟩ := map_eq_ok_iff.mp h
      obtain ⟨rfl, rfl⟩ := Prod.mk.inj h
      obtain ⟨rfl, hlength⟩ := eq_append_of_take hx
      exact ⟨rfl, congrArg (· + 1) hlength⟩

/-- Bytes that are missing are counted. -/
theorem take_eq_error : ∀ {n : Nat} {bs : List UInt8}, bs.length < n →
    take n bs = .error (.unexpectedEnd (n - bs.length))
  | n + 1, [], _ => rfl
  | n + 1, b :: bs, h => by
      rw [take, take_eq_error (Nat.lt_of_succ_lt_succ h), List.length_cons,
        Nat.add_sub_add_right]
      rfl

theorem selfDelimiting_take (n : Nat) : SelfDelimiting (take n) := by
  intro bs x rest h
  obtain ⟨rfl, rfl⟩ := eq_append_of_take h
  refine ⟨x, rfl, fun rest => take_append rest x, ?_⟩
  rintro b t rfl ht
  have hpos := List.length_pos_iff.mpr ht
  have hlength : (b ++ t).length - b.length = t.length := by
    rw [List.length_append, Nat.add_sub_cancel_left]
  refine ⟨t.length, hpos, Nat.le_refl _, ?_⟩
  rw [take_eq_error (by rw [List.length_append]; omega), hlength]

theorem selfDelimiting_decodeFixed (k : Nat) : SelfDelimiting (decodeFixed k) :=
  (selfDelimiting_take k).map ofLittleEndian

theorem selfDelimiting_decodeInt (w : IntWidth) : SelfDelimiting (decodeInt w) := by
  refine .cons rfl fun b => ?_
  refine .ite (.ok _) (.ite (selfDelimiting_decodeFixed 2) (.ite (selfDelimiting_decodeFixed 4)
    (.ite ?_ (.ite (.error _) (.error _)))))
  cases w with
  | u32 => exact .error _
  | u64 => exact selfDelimiting_decodeFixed 8

/-! ## Texts and symbols -/

theorem selfDelimiting_text : SelfDelimiting text.decode := by
  refine (selfDelimiting_decodeInt .u64).bind fun n => (selfDelimiting_take n).bind fun bytes => ?_
  dsimp only
  cases Text.Utf8.decode bytes with
  | ok cs => exact .ok _
  | error e => exact .error _

theorem selfDelimiting_symbol : SelfDelimiting symbol.decode := by
  refine .cons rfl fun b => ?_
  dsimp only [symbol]
  cases Text.Utf8.width? b.toNat with
  | none => exact .error _
  | some w =>
      refine (selfDelimiting_take (w - 1)).bind fun more => ?_
      dsimp only
      split
      · exact .ok _
      · exact .error _

/-! ## Compound values -/

section

variable {c : Codec α} {d : Codec β} (hc : SelfDelimiting c.decode) (hd : SelfDelimiting d.decode)
include hc

theorem selfDelimiting_decodeMany : ∀ n, SelfDelimiting (decodeMany c n)
  | 0 => .ok []
  | n + 1 => hc.bind fun x => (selfDelimiting_decodeMany n).bind fun xs => .ok (x :: xs)

theorem selfDelimiting_via (f : α → β) (g : β → α) : SelfDelimiting (c.via f g).decode := hc.map f

theorem selfDelimiting_list : SelfDelimiting (list c).decode :=
  (selfDelimiting_decodeInt .u64).bind fun n => selfDelimiting_decodeMany hc n

theorem selfDelimiting_set [Ranked α] : SelfDelimiting (set c).decode :=
  selfDelimiting_via (selfDelimiting_list hc) _ _

include hd

theorem selfDelimiting_pair : SelfDelimiting (c.pair d).decode :=
  hc.bind fun x => hd.bind fun y => .ok (x, y)

theorem selfDelimiting_map [Ranked α] : SelfDelimiting (map c d).decode :=
  selfDelimiting_via (selfDelimiting_list (selfDelimiting_pair hc hd)) _ _

end

/-- **The parts of an automaton are read one after another.** -/
theorem selfDelimiting_payload {τ : Type} [Coded τ]
    (h : SelfDelimiting (Coded.codec : Codec τ).decode) :
    SelfDelimiting (Payload.codec : Codec (Payload τ)).decode :=
  have hstate : SelfDelimiting stateId.decode := selfDelimiting_decodeInt .u32
  selfDelimiting_via (selfDelimiting_pair (selfDelimiting_list selfDelimiting_text) <|
    selfDelimiting_pair (selfDelimiting_list selfDelimiting_symbol) <|
      selfDelimiting_pair hstate <| selfDelimiting_pair (selfDelimiting_set hstate) <|
        selfDelimiting_map hstate (selfDelimiting_map selfDelimiting_symbol h)) _ _

end Codec

/-! ## Automata -/

namespace Machine

variable {τ : Type} [Target τ] [Coded τ] [LawfulCoded τ] {m : Machine τ} {o : Arrangement τ}

/-- **Where the bytes of an automaton are cut, decoding them ends too soon.** -/
theorem ofBytes_eq_error_of_append (hτ : Codec.SelfDelimiting (Coded.codec : Codec τ).decode)
    (hm : m.Writable) (ho : m.Arranged o) {b t : List UInt8} (hbt : m.toBytesIn o = b ++ t)
    (ht : t ≠ []) : ∃ k, 0 < k ∧ k ≤ t.length ∧
      (ofBytes b : Except Error (Machine τ)) = .error (.decode (.unexpectedEnd k)) := by
  have hread : Payload.codec.decode (m.toBytesIn o) = .ok (Payload.ofMachine m, []) := by
    have := readsAs_toBytesIn hm ho []
    rwa [List.append_nil] at this
  obtain ⟨used, hused, htakes⟩ := Codec.selfDelimiting_payload hτ _ _ _ hread
  rw [List.append_nil] at hused
  obtain ⟨k, hk, hkt, herror⟩ := htakes.runsOut b t (hused.symm.trans hbt) ht
  exact ⟨k, hk, hkt, by rw [ofBytes, herror]; rfl⟩

end Machine

/-- **Bytes that are cut short are rejected as such.**  Whatever the order in which an automaton is
written, a proper prefix of its bytes is no automaton and is not checked for being one: decoding it
ends too soon, and misses some bytes, but no more than were cut off. -/
theorem ofBytes_eq_unexpectedEnd :
    (∀ d : Dfa, d.Writable → ∀ b t : List UInt8, t ≠ [] →
      (d.toBytes = b ++ t ∨ ∃ o : Arrangement StateId, d.Arranged o ∧ d.toBytesIn o = b ++ t) →
      ∃ k, 0 < k ∧ k ≤ t.length ∧
        (Machine.ofBytes b : Except Error Dfa) = .error (.decode (.unexpectedEnd k))) ∧
    (∀ n : Nfa, n.Writable → ∀ b t : List UInt8, t ≠ [] →
      (n.toBytes = b ++ t ∨
        ∃ o : Arrangement (List StateId), n.Arranged o ∧ n.toBytesIn o = b ++ t) →
      ∃ k, 0 < k ∧ k ≤ t.length ∧
        (Machine.ofBytes b : Except Error Nfa) = .error (.decode (.unexpectedEnd k))) := by
  have hstate : Codec.SelfDelimiting Codec.stateId.decode := Codec.selfDelimiting_decodeInt .u32
  refine ⟨fun d hd b t ht hb => ?dfa, fun n hn b t ht hb => ?nfa⟩
  case dfa =>
    obtain hb | ⟨o, ho, hb⟩ := hb
    · rw [← Machine.toBytesIn_ascending] at hb
      exact Machine.ofBytes_eq_error_of_append hstate hd d.arranged_ascending hb ht
    · exact Machine.ofBytes_eq_error_of_append hstate hd ho hb ht
  case nfa =>
    have hlist := Codec.selfDelimiting_list hstate
    obtain hb | ⟨o, ho, hb⟩ := hb
    · rw [← Machine.toBytesIn_ascending] at hb
      exact Machine.ofBytes_eq_error_of_append hlist hn n.arranged_ascending hb ht
    · exact Machine.ofBytes_eq_error_of_append hlist hn ho hb ht

/-- One automaton is cut inside its second symbol, the other before its last byte. -/
theorem ofBytes_eq_unexpectedEnd_accented :
    (∃ k, 0 < k ∧ (Machine.ofBytes [2, 2, 195, 169, 1, 113, 2, 97, 226] : Except Error Dfa) =
      .error (.decode (.unexpectedEnd k))) ∧
    (Machine.ofBytes Nfa.endsWithA.toBytes.dropLast : Except Error Nfa) =
      .error (.decode (.unexpectedEnd 1)) := by
  have haccented : accented.Writable :=
    Machine.Storable.writable ⟨by decide, by decide, by decide⟩ (by decide)
  have hendsWithA : Nfa.endsWithA.Writable :=
    Machine.Storable.writable ⟨by decide, by decide, by decide⟩ (by decide)
  obtain ⟨k, hk, -, h⟩ := ofBytes_eq_unexpectedEnd.1 accented haccented
    [2, 2, 195, 169, 1, 113, 2, 97, 226] (accented.toBytes.drop 9) (by decide) (.inl (by decide))
  obtain ⟨j, hj, hj', h'⟩ := ofBytes_eq_unexpectedEnd.2 Nfa.endsWithA hendsWithA
    Nfa.endsWithA.toBytes.dropLast [0] (by decide) (.inl (by decide))
  obtain rfl : j = 1 := Nat.le_antisymm hj' hj
  exact ⟨⟨k, hk, h⟩, h'⟩

end Automata
