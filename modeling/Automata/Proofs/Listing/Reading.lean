import Automata.Error
import Automata.Proofs.Lines
import Automata.Proofs.Loaded

/-!
# Proofs/Listing/Reading — what the readers of a listing take off the lines

A reader is judged in both directions.  `Reads` and `ReadsLines` say that the tokens a value is
written as are read to it, wherever they stand: a reader goes on over exhausted lines, so what is
left is known up to these (`Resumes`).  `Yields` says what values can be read off lines of tokens
at all.
-/

namespace Automata.Listing

open Text

variable {α β : Type}

/-! ## Exhausted lines -/

/-- Some lines, behind any number of exhausted ones. -/
inductive Resumes : Lines → Lines → Prop
  | here (ls : Lines) : Resumes ls ls
  | exhausted {left ls : Lines} (h : Resumes left ls) : Resumes ([] :: left) ls

/-- The end of a line is passed over. -/
theorem Resumes.of_nil {left ls : Lines} (h : Resumes left ([] :: ls)) : Resumes left ls := by
  generalize hls : [] :: ls = ls' at h
  induction h with
  | here _ => subst hls; exact .exhausted (.here ls)
  | exhausted _ ih => exact .exhausted (ih hls)

theorem next_of_resumes {item : Item} {t : String} {l : List String} {ls left : Lines}
    (h : Resumes left ((t :: l) :: ls)) : next item left = .ok (t, l :: ls) := by
  generalize hls : (t :: l) :: ls = ls' at h
  induction h with
  | here _ => subst hls; rfl
  | exhausted _ ih => exact ih hls

theorem finish_of_resumes {left : Lines} (h : Resumes left [[]]) : finish left = .ok () := by
  generalize hls : [[]] = ls' at h
  induction h with
  | here _ => subst hls; rfl
  | exhausted _ ih => exact ih hls

/-! ## Reading what was written -/

/-- **What stands first is read to a value**, and what follows it is left; `front` makes lines of
what stands first in them. -/
def Takes {γ : Type} (front : List γ → Lines) (read : Lines → Outcome (α × Lines)) (written : List γ)
    (x : α) : Prop :=
  ∀ left rest, Resumes left (front (written ++ rest)) →
    ∃ left', read left = .ok (x, left') ∧ Resumes left' (front rest)

/-- Tokens at the front of a line are read to a value. -/
def Reads (read : Lines → Outcome (α × Lines)) (ts : List String) (x : α) : Prop :=
  ∀ ls, Takes (· :: ls) read ts x

/-- Lines are read to a value. -/
def ReadsLines (read : Lines → Outcome (α × Lines)) (block : Lines) (x : α) : Prop :=
  Takes (fun ls => ls) read block x

theorem Reads.line {read : Lines → Outcome (α × Lines)} {ts : List String} {x : α}
    (h : Reads read ts x) : ReadsLines read [ts] x := by
  intro left ls hleft
  obtain ⟨left', hread, hleft'⟩ := h ls left [] (by simpa using hleft)
  exact ⟨left', hread, hleft'.of_nil⟩

/-- **Several values are read**, each from what it is written as. -/
theorem Takes.many {γ : Type} {front : List γ → Lines} {read : Lines → Outcome (α × Lines)}
    (write : α → List γ) : ∀ {xs : List α}, (∀ x ∈ xs, Takes front read (write x) x) →
      Takes front (readMany read xs.length) (xs.flatMap write) xs
  | [], _ => fun left rest hleft => ⟨left, rfl, hleft⟩
  | x :: xs, h => fun left rest hleft => by
      rw [List.flatMap_cons, List.append_assoc] at hleft
      obtain ⟨left₁, h₁, hleft₁⟩ := h x List.mem_cons_self left _ hleft
      obtain ⟨left₂, h₂, hleft₂⟩ :=
        Takes.many write (fun y hy => h y (List.mem_cons_of_mem x hy)) left₁ _ hleft₁
      exact ⟨left₂, bind_eq_ok_iff.mpr ⟨_, h₁, bind_eq_ok_iff.mpr ⟨_, h₂, rfl⟩⟩, hleft₂⟩

theorem reads_next (item : Item) (t : String) : Reads (next item) [t] t :=
  fun ls _ l h => ⟨l :: ls, next_of_resumes h, .here _⟩

theorem reads_count (item : Item) {n : Nat} (h : n < Numeral.limit) :
    Reads (readCount item) [Numeral.write n] n := by
  intro ls left l hleft
  refine ⟨l :: ls, ?_, .here _⟩
  rw [readCount, next_of_resumes hleft]
  simp [bind, Except.bind, Numeral.read?_write h]

theorem reads_symbol (a : Symbol) : Reads readSymbol [a.toString] a := by
  intro ls left l hleft
  refine ⟨l :: ls, ?_, .here _⟩
  rw [readSymbol, next_of_resumes hleft]
  simp [bind, Except.bind, Char.toString]

theorem reads_transition (p : String) (a : Symbol) (q : String) :
    Reads readTransition [p, a.toString, q] ⟨p, a, q⟩ := by
  intro ls left l hleft
  obtain ⟨left₁, h₁, hleft₁⟩ := reads_next .source p ls left _ hleft
  obtain ⟨left₂, h₂, hleft₂⟩ := reads_symbol a ls left₁ _ hleft₁
  obtain ⟨left₃, h₃, hleft₃⟩ := reads_next .target q ls left₂ _ hleft₂
  refine ⟨left₃, ?_, hleft₃⟩
  rw [readTransition]
  exact bind_eq_ok_iff.mpr ⟨_, h₁, bind_eq_ok_iff.mpr ⟨_, h₂, bind_eq_ok_iff.mpr ⟨_, h₃, rfl⟩⟩⟩

theorem reads_tokens (item : Item) (ts : List String) :
    Reads (readMany (next item) ts.length) ts ts := by
  intro ls
  have h := Takes.many (fun t => [t]) fun t (_ : t ∈ ts) => reads_next item t ls
  rwa [List.flatMap_singleton'] at h

theorem reads_symbols (l : List Symbol) :
    Reads (readMany readSymbol l.length) (l.map Char.toString) l := by
  intro ls
  have h := Takes.many (fun a : Symbol => [a.toString]) fun a (_ : a ∈ l) => reads_symbol a ls
  rwa [← List.map_eq_flatMap] at h

/-! ## What can be read -/

/-- **Only such values are read off lines of tokens**, and only tokens are left. -/
def Yields (read : Lines → Outcome (α × Lines)) (P : α → Prop) : Prop :=
  ∀ ⦃ls : Lines⦄ ⦃x : α⦄ ⦃ls' : Lines⦄, ls.AreTokens → read ls = .ok (x, ls') → P x ∧ ls'.AreTokens

theorem yields_next (item : Item) : Yields (next item) IsToken := by
  intro ls
  induction ls with
  | nil => exact fun _ _ _ h => nomatch h
  | cons l ls ih =>
      intro x ls' htokens h
      have hls : Lines.AreTokens ls := fun m hm => htokens m (List.mem_cons_of_mem l hm)
      cases l with
      | nil => exact ih hls h
      | cons t l =>
          obtain ⟨rfl, rfl⟩ := Prod.mk.inj (Except.ok.inj h)
          have hl := htokens (t :: l) List.mem_cons_self
          refine ⟨hl t List.mem_cons_self, fun m hm => ?_⟩
          rcases List.mem_cons.mp hm with rfl | hm
          · exact fun s hs => hl s (List.mem_cons_of_mem t hs)
          · exact hls m hm

theorem lt_limit_of_read? {t : String} {n : Nat} (h : Numeral.read? t = some n) :
    n < Numeral.limit := by
  rw [Numeral.read?] at h
  dsimp only at h
  split at h
  · exact absurd h (by simp)
  · split at h
    · obtain rfl := Option.some.inj h
      assumption
    · exact absurd h (by simp)

theorem yields_count (item : Item) : Yields (readCount item) (· < Numeral.limit) := by
  intro ls n ls' htokens h
  rw [readCount] at h
  obtain ⟨⟨t, left⟩, hnext, h⟩ := bind_eq_ok_iff.mp h
  dsimp only at h
  split at h
  · rename_i m hm
    obtain ⟨rfl, rfl⟩ := Prod.mk.inj (Except.ok.inj h)
    exact ⟨lt_limit_of_read? hm, (yields_next item htokens hnext).2⟩
  · exact nomatch h

theorem yields_symbol : Yields readSymbol (isBlank · = false) := by
  intro ls a ls' htokens h
  rw [readSymbol] at h
  obtain ⟨⟨t, left⟩, hnext, h⟩ := bind_eq_ok_iff.mp h
  obtain ⟨ht, hleft⟩ := yields_next .symbol htokens hnext
  dsimp only at h
  split at h
  · rename_i b hb
    obtain ⟨rfl, rfl⟩ := Prod.mk.inj (Except.ok.inj h)
    exact ⟨ht.2 _ (by simp [hb]), hleft⟩
  · exact nomatch h

theorem yields_transition : Yields readTransition (isBlank ·.symbol = false) := by
  intro ls t ls' htokens h
  rw [readTransition] at h
  obtain ⟨⟨p, left₁⟩, h₁, h⟩ := bind_eq_ok_iff.mp h
  obtain ⟨⟨a, left₂⟩, h₂, h⟩ := bind_eq_ok_iff.mp h
  obtain ⟨⟨q, left₃⟩, h₃, h⟩ := bind_eq_ok_iff.mp h
  obtain ⟨rfl, rfl⟩ := Prod.mk.inj (Except.ok.inj h)
  obtain ⟨-, hleft₁⟩ := yields_next .source htokens h₁
  obtain ⟨ha, hleft₂⟩ := yields_symbol hleft₁ h₂
  exact ⟨ha, (yields_next .target hleft₂ h₃).2⟩

theorem Yields.many {read : Lines → Outcome (α × Lines)} {P : α → Prop} (h : Yields read P) :
    ∀ n, Yields (readMany read n) fun xs => xs.length = n ∧ ∀ x ∈ xs, P x
  | 0, ls, xs, ls', htokens, hread => by
      obtain ⟨rfl, rfl⟩ := Prod.mk.inj (Except.ok.inj hread)
      exact ⟨⟨rfl, by simp⟩, htokens⟩
  | n + 1, ls, xs, ls', htokens, hread => by
      rw [readMany] at hread
      obtain ⟨⟨x, left₁⟩, h₁, hread⟩ := bind_eq_ok_iff.mp hread
      obtain ⟨⟨ys, left₂⟩, h₂, hread⟩ := bind_eq_ok_iff.mp hread
      obtain ⟨rfl, rfl⟩ := Prod.mk.inj (Except.ok.inj hread)
      obtain ⟨hx, hleft₁⟩ := h htokens h₁
      obtain ⟨⟨rfl, hys⟩, hleft₂⟩ := h.many n hleft₁ h₂
      exact ⟨⟨rfl, List.forall_mem_cons.mpr ⟨hx, hys⟩⟩, hleft₂⟩

end Automata.Listing
