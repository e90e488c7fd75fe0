import Automata.Minimize.Completion
import Automata.Word
import Mathlib.Data.List.Nodup
import Mathlib.Data.List.Perm.Subperm
import Mathlib.Order.Bounds.Basic

/-!
# Proofs/Minimize/FreshLabel — the label of a new state is the first that is free

Numbers are tried one after the other, as many as there are labels and one more.  They make
different labels (`StateId.canonicalLabel_inj`), so one of them is free, and the first such number
is found: `isLeast_freshIndex`.  So a search that sets no limit to its tries ends as well, and with
the same label, unless it counts past the last word: `finds_iff_eq_freshLabel`.
-/

namespace Automata

open StateId

namespace StateId

theorem toList_canonicalLabel (n : Nat) : (canonicalLabel n).toList = 'q' :: n.repr.toList := by
  rw [canonicalLabel, String.toList_append]
  rfl

/-- Positions that differ make labels that differ. -/
theorem canonicalLabel_inj {i j : Nat} (h : canonicalLabel i = canonicalLabel j) : i = j := by
  have hdigits : i.repr.toList = j.repr.toList := by
    have := congrArg String.toList h
    rw [toList_canonicalLabel, toList_canonicalLabel] at this
    exact List.tail_eq_of_cons_eq this
  have hvalue := congrArg (Nat.ofDigitChars 10 · 0) hdigits
  simpa [Nat.toList_repr, Nat.ofDigitChars_ten_toDigits] using hvalue

end StateId

/-- **Only numbers that are taken are passed over**, and the last one tried is free or the limit. -/
theorem freshIndex_spec (labels : List String) : ∀ fuel n : Nat,
    n ≤ freshIndex labels fuel n ∧
      (∀ k, n ≤ k → k < freshIndex labels fuel n → canonicalLabel k ∈ labels) ∧
      (canonicalLabel (freshIndex labels fuel n) ∉ labels ∨ freshIndex labels fuel n = n + fuel)
  | 0, n => ⟨Nat.le_refl n, fun k hk hlt => absurd hlt (Nat.not_lt.mpr hk), .inr rfl⟩
  | fuel + 1, n => by
      rw [freshIndex]
      split
      case isTrue htaken =>
        obtain ⟨hle, hall, hlast⟩ := freshIndex_spec labels fuel (n + 1)
        refine ⟨Nat.le_of_succ_le hle, fun k hk hlt => ?_, hlast.imp_right fun h => by omega⟩
        obtain rfl | hk := Nat.eq_or_lt_of_le hk
        · exact htaken
        · exact hall k hk hlt
      case isFalse hfree =>
        exact ⟨Nat.le_refl n, fun k hk hlt => absurd hlt (Nat.not_lt.mpr hk), .inl hfree⟩

/-- **Not all of more numbers than there are labels are taken.** -/
theorem exists_canonicalLabel_not_mem (labels : List String) (n : Nat) :
    ∃ k, n ≤ k ∧ k ≤ n + labels.length ∧ canonicalLabel k ∉ labels := by
  by_contra hall
  push Not at hall
  have hnodup : ((List.range' n (labels.length + 1)).map canonicalLabel).Nodup :=
    (List.nodup_range' 1).map fun _ _ => canonicalLabel_inj
  have hsubset : (List.range' n (labels.length + 1)).map canonicalLabel ⊆ labels := by
    intro l hl
    obtain ⟨k, hk, rfl⟩ := List.mem_map.mp hl
    rw [List.mem_range'_1] at hk
    exact hall k hk.1 (by omega)
  have hlength := (hnodup.subperm hsubset).length_le
  rw [List.length_map, List.length_range'] at hlength
  omega

/-- **The number found is the least that is free.** -/
theorem isLeast_freshIndex (labels : List String) (n : Nat) :
    IsLeast {k | n ≤ k ∧ canonicalLabel k ∉ labels} (freshIndex labels labels.length n) := by
  obtain ⟨hle, htaken, hlast⟩ := freshIndex_spec labels labels.length n
  have hleast : ∀ k, n ≤ k → canonicalLabel k ∉ labels → freshIndex labels labels.length n ≤ k :=
    fun k hk hfree => Nat.le_of_not_lt fun hlt => hfree (htaken k hk hlt)
  refine ⟨⟨hle, hlast.elim id fun heq => ?_⟩, fun k hk => hleast k hk.1 hk.2⟩
  -- the limit is free because nothing before it is
  obtain ⟨k, hk, hkn, hfree⟩ := exists_canonicalLabel_not_mem labels n
  have hge := hleast k hk hfree
  obtain rfl : k = freshIndex labels labels.length n := by omega
  exact hfree

/-- The number found is among the first that are one more than there are labels. -/
theorem freshIndex_le (labels : List String) (n : Nat) :
    freshIndex labels labels.length n ≤ n + labels.length := by
  obtain ⟨k, hk, hkn, hfree⟩ := exists_canonicalLabel_not_mem labels n
  exact Nat.le_trans ((isLeast_freshIndex labels n).2 ⟨hk, hfree⟩) hkn

/-! ## The search without a limit, on words -/

/-- **Numbers are tried until one is free** — the label that the search from a number ends with.
Nothing limits the tries, but the number is a word, and one above the last is a result without
room. -/
inductive Finds (b : Build) (labels : List String) : Word → String → Prop
  | free {n : Word} (h : canonicalLabel n.toNat ∉ labels) :
      Finds b labels n (canonicalLabel n.toNat)
  | taken {n m : Word} {l : String} (h : canonicalLabel n.toNat ∈ labels)
      (hm : b.add? n 1 = some m) (hl : Finds b labels m l) : Finds b labels n l

variable {b : Build} {labels : List String} {n : Word} {k : Nat} {l l' : String}

/-- There is one way for the search to end. -/
theorem Finds.unique (h : Finds b labels n l) (h' : Finds b labels n l') : l = l' := by
  induction h with
  | free hfree =>
      cases h' with
      | free => rfl
      | taken htaken => exact absurd htaken hfree
  | taken htaken hm _ ih =>
      cases h' with
      | free hfree => exact absurd htaken hfree
      | taken _ hm' hl' =>
          obtain rfl := Option.some.inj (hm.symm.trans hm')
          exact ih hl'

/-- **The search ends at the least number that is free**, as it passes over those that are taken. -/
theorem finds_of_isLeast (h : IsLeast {k | n.toNat ≤ k ∧ canonicalLabel k ∉ labels} k)
    (hk : k < 2 ^ 64) : Finds b labels n (canonicalLabel k) := by
  obtain ⟨⟨hnk, hfree⟩, hleast⟩ := h
  have htaken : ∀ i, n.toNat ≤ i → i < k → canonicalLabel i ∈ labels := fun i hi hik =>
    Classical.not_not.mp fun hni => absurd (hleast ⟨hi, hni⟩) (Nat.not_le.mpr hik)
  clear hleast
  induction hd : k - n.toNat generalizing n with
  | zero =>
      obtain rfl : n.toNat = k := by omega
      exact .free hfree
  | succ d ih =>
      have hlt : n.toNat < k := by omega
      have hroom : n.toNat + (1 : Word).toNat < 2 ^ 64 := Nat.lt_of_le_of_lt hlt hk
      have hsucc : (n + 1).toNat = n.toNat + 1 := BitVec.toNat_add_of_lt hroom
      exact .taken (htaken _ (Nat.le_refl _) hlt) (Build.add?_eq hroom)
        (ih (by omega) (fun i hi => htaken i (by omega)) (by omega))

/-- Some word, from a given one on, makes none of the labels. -/
def LeavesFree (labels : List String) (n : Word) : Prop :=
  ∃ k, n.toNat ≤ k ∧ k < 2 ^ 64 ∧ canonicalLabel k ∉ labels

/-- **The search for a label ends, and with the least that is free**, in a debug build and in a
release build — `q` and, in decimal, the first number that makes none of the labels, as long as that
is a word.  It is one if there are as many words from the first number tried on as there are labels
and one more, since at most one try is made for each label, and one more. -/
theorem finds_iff_eq_freshLabel (b : Build) (labels : List String) (n : Word) :
    (n.toNat + labels.length < 2 ^ 64 → LeavesFree labels n) ∧
    (LeavesFree labels n → (∀ l, Finds b labels n l ↔ l = freshLabel labels n.toNat) ∧
      ∃ k, IsLeast {k | n.toNat ≤ k ∧ canonicalLabel k ∉ labels} k ∧
        k ≤ n.toNat + labels.length ∧ k < 2 ^ 64 ∧
        (freshLabel labels n.toNat).toList = 'q' :: Nat.toDigits 10 k) := by
  have hleast := isLeast_freshIndex labels n.toNat
  have hle := freshIndex_le labels n.toNat
  constructor
  · exact fun hroom => ⟨_, hleast.1.1, Nat.lt_of_le_of_lt hle hroom, hleast.1.2⟩
  · rintro ⟨i, hni, hi, hfree⟩
    have hk : freshIndex labels labels.length n.toNat < 2 ^ 64 :=
      Nat.lt_of_le_of_lt (hleast.2 ⟨hni, hfree⟩) hi
    have hfinds : Finds b labels n (freshLabel labels n.toNat) := finds_of_isLeast hleast hk
    refine ⟨fun l => ⟨fun h => h.unique hfinds, fun h => h ▸ hfinds⟩, ?_⟩
    refine ⟨freshIndex labels labels.length n.toNat, hleast, hle, hk, ?_⟩
    rw [freshLabel, toList_canonicalLabel, Nat.toList_repr]

/-- A label that only looks alike takes no number away, and one that repeats takes one; and the last
word can be found where there are more labels than words to try. -/
theorem finds_q3 : Finds .debug ["q03", "q2", "q2"] 2 "q3" ∧
    Finds .release ["q1", "q2"] (-1) "q18446744073709551615" := by
  obtain ⟨hroom, hfinds⟩ := finds_iff_eq_freshLabel .debug ["q03", "q2", "q2"] 2
  obtain ⟨-, hfinds'⟩ := finds_iff_eq_freshLabel .release ["q1", "q2"] (-1)
  have hlast : LeavesFree ["q1", "q2"] (-1) :=
    ⟨18446744073709551615, by decide, by decide, by decide⟩
  exact ⟨((hfinds (hroom (by decide))).1 "q3").mpr (by decide),
    ((hfinds' hlast).1 "q18446744073709551615").mpr (by decide)⟩

/-- Where the last word is taken, a release build goes on with zero and a debug build stops. -/
theorem finds_q0 :
    IsLeast {k | (-1 : Word).toNat ≤ k ∧ canonicalLabel k ∉ ["q18446744073709551615"]}
      18446744073709551616 ∧
    canonicalLabel 18446744073709551616 = "q18446744073709551616" ∧
    (∀ l, Finds .release ["q18446744073709551615"] (-1) l ↔ l = "q0") ∧
    ∀ l, ¬ Finds .debug ["q18446744073709551615"] (-1) l := by
  have htaken : canonicalLabel (-1 : Word).toNat ∈ ["q18446744073709551615"] := by decide
  have hzero : Finds .release ["q18446744073709551615"] (-1) "q0" :=
    .taken htaken (m := 0) (by decide) (.free (n := 0) (by decide))
  have hover : Build.add? .debug (-1) 1 = none := by decide
  refine ⟨⟨⟨by decide, by decide⟩, fun k ⟨hk, hfree⟩ => ?_⟩, by decide,
    fun l => ⟨fun h => h.unique hzero, fun h => h ▸ hzero⟩, fun l h => ?_⟩
  · have hlast : k ≠ 18446744073709551615 := fun heq => hfree (heq ▸ htaken)
    exact Nat.lt_of_le_of_ne hk hlast.symm
  · cases h with
    | free hfree => exact hfree htaken
    | taken _ hm _ =>
        rw [hover] at hm
        cases hm

end Automata
