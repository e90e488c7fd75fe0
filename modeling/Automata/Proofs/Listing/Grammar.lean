import Automata.Proofs.Listing.Contents
import Automata.Proofs.Listing.Tokens

/-!
# Proofs/Listing/Grammar — phrases of a listing, and the readers that read them

A phrase says which tokens stand for a value, and which part each of them plays (`Phrase`).  A
reader `Scans` a phrase if it takes exactly the tokens of one off the lines; it also `Reports` it if
it fails exactly where the tokens no longer begin a phrase (`Fault`).  Both laws are carried from
parts to the whole by `Scans.bind` and `Reports.bind`, so every reader made of readers of tokens is
judged by the grammar it reads.
-/

namespace Automata.Listing

open Text

variable {γ α β : Type}

/-! ## Phrases -/

/-- **Tokens in the parts they play, and a value they stand for.** -/
abbrev Phrase (γ α : Type) := List (Item × γ) → α → Prop

namespace Phrase

/-- One token, of which a value is told. -/
def token [View γ] (item : Item) (told : String → α → Prop) : Phrase γ α :=
  fun S x => ∃ g, S = [(item, g)] ∧ told (View.token g) x

/-- No token. -/
def pure (x : α) : Phrase γ α := fun S y => S = [] ∧ y = x

/-- A phrase, and one that depends on its value. -/
def bind (φ : Phrase γ α) (ψ : α → Phrase γ β) : Phrase γ β :=
  fun S y => ∃ S₁ S₂ x, S = S₁ ++ S₂ ∧ φ S₁ x ∧ ψ x S₂ y

/-- A phrase that stands for what is made of its value. -/
def map (φ : Phrase γ α) (f : α → β) : Phrase γ β := fun S y => ∃ x, φ S x ∧ y = f x

/-- A number of phrases of a kind. -/
def times (φ : Phrase γ α) : Nat → Phrase γ (List α)
  | 0 => pure []
  | n + 1 => φ.bind fun x => (φ.times n).map (x :: ·)

/-- A token that is written for a value. -/
def written [View γ] (item : Item) (write : α → String) : Phrase γ α :=
  token item fun t x => t = write x

/-- Phrases of a kind, behind their number. -/
def counted [View γ] (count : Item) (φ : Phrase γ α) : Phrase γ (List α) :=
  (token count Numeral.Denotes).bind φ.times

end Phrase

/-! ## Spelling -/

section

variable [View γ]

/-- The tokens that play the parts, whatever else is seen of them. -/
def played (S : List (Item × γ)) : List (Item × String) :=
  S.map fun s => (s.1, View.token s.2)

@[simp] theorem played_eq_nil_iff {S : List (Item × γ)} : played S = [] ↔ S = [] :=
  List.map_eq_nil_iff

@[simp] theorem played_append (A B : List (Item × γ)) : played (A ++ B) = played A ++ played B :=
  List.map_append

theorem played_eq_append_iff {S : List (Item × γ)} {A B : List (Item × String)} :
    played S = A ++ B ↔ ∃ S₁ S₂, S = S₁ ++ S₂ ∧ played S₁ = A ∧ played S₂ = B :=
  List.map_eq_append_iff

/-- **The phrase of a value is those tokens, and no others.** -/
def Spells (φ : Phrase γ α) (spell : α → List (Item × String)) : Prop :=
  ∀ S x, φ S x ↔ played S = spell x

theorem Phrase.token_iff {item : Item} {told : String → α → Prop} {S : List (Item × γ)} {x : α} :
    Phrase.token item told S x ↔ ∃ t, told t x ∧ played S = [(item, t)] := by
  constructor
  · rintro ⟨g, rfl, ht⟩
    exact ⟨_, ht, rfl⟩
  · rintro ⟨t, ht, hS⟩
    obtain ⟨⟨i, g⟩, rfl, hg⟩ := List.map_eq_singleton_iff.mp hS
    obtain ⟨rfl, rfl⟩ := Prod.mk.inj hg
    exact ⟨g, rfl, ht⟩

theorem spells_written (item : Item) (write : α → String) :
    Spells (Phrase.written (γ := γ) item write) fun x => [(item, write x)] := by
  intro S x
  simp [Phrase.written, Phrase.token_iff]

/-- **Several phrases are spelled one behind the other.** -/
theorem Spells.times {φ : Phrase γ α} {spell : α → List (Item × String)} (h : Spells φ spell) :
    ∀ {n : Nat} {S : List (Item × γ)} {xs : List α},
      φ.times n S xs ↔ xs.length = n ∧ played S = xs.flatMap spell
  | 0, S, xs => by
      constructor
      · rintro ⟨rfl, rfl⟩
        exact ⟨rfl, rfl⟩
      · rintro ⟨hlength, hS⟩
        obtain rfl := List.eq_nil_of_length_eq_zero hlength
        exact ⟨played_eq_nil_iff.mp hS, rfl⟩
  | n + 1, S, xs => by
      constructor
      · rintro ⟨S₁, S₂, y, rfl, hy, ys, hys, rfl⟩
        obtain ⟨rfl, hS₂⟩ := h.times.mp hys
        exact ⟨rfl, by rw [played_append, (h S₁ y).mp hy, hS₂, List.flatMap_cons]⟩
      · rintro ⟨hlength, hS⟩
        obtain ⟨y, ys, rfl⟩ := List.exists_cons_of_length_eq_add_one hlength
        obtain ⟨S₁, S₂, rfl, hS₁, hS₂⟩ := played_eq_append_iff.mp hS
        exact ⟨S₁, S₂, y, rfl, (h S₁ y).mpr hS₁, ys,
          h.times.mpr ⟨Nat.succ.inj hlength, hS₂⟩, rfl⟩

theorem Spells.counted {φ : Phrase γ α} {spell : α → List (Item × String)} (h : Spells φ spell)
    {count : Item} {S : List (Item × γ)} {xs : List α} : Phrase.counted count φ S xs ↔
      ∃ n, Numeral.Denotes n xs.length ∧ played S = (count, n) :: xs.flatMap spell := by
  constructor
  · rintro ⟨S₁, S₂, n, rfl, hn, hxs⟩
    obtain ⟨t, ht, hS₁⟩ := Phrase.token_iff.mp hn
    obtain ⟨rfl, hS₂⟩ := h.times.mp hxs
    exact ⟨t, ht, by rw [played_append, hS₁, hS₂, List.singleton_append]⟩
  · rintro ⟨t, ht, hS⟩
    obtain ⟨S₁, S₂, rfl, hS₁, hS₂⟩ := played_eq_append_iff (A := [(count, t)]).mp hS
    exact ⟨S₁, S₂, _, rfl, Phrase.token_iff.mpr ⟨t, ht, hS₁⟩, h.times.mpr ⟨rfl, hS₂⟩⟩

theorem counted_written_iff {count item : Item} {write : α → String} {S : List (Item × γ)}
    {xs : List α} : Phrase.counted count (.written item write) S xs ↔
      ∃ n, Numeral.Denotes n xs.length ∧ played S = (count, n) :: xs.map ((item, write ·)) := by
  rw [(spells_written item write).counted, List.map_eq_flatMap]

end

/-- The parts that numerals play. -/
def counts : List Item := [.stateCount, .symbolCount, .transitionCount, .finalCount]

/-- **Why a token cannot play a part**: it is no numeral, or more than one character. -/
inductive Misfit : Item → String → ListingError → Prop
  | count {item : Item} {t : String} (hitem : item ∈ counts)
      (ht : ∀ n, ¬ Numeral.Denotes t n) : Misfit item t (.invalidCount t)
  | symbol {t : String} (ht : ∀ a : Symbol, t ≠ a.toString) : Misfit .symbol t (.invalidSymbol t)

/-- No token is left where an item is expected, or one that cannot play its part. -/
def Stops [View γ] (item : Item) (V : List γ) (e : ListingError) : Prop :=
  V = [] ∧ e = .endOfInput item ∨ ∃ g R, V = g :: R ∧ Misfit item (View.token g) e

/-- **Tokens that begin a phrase, up to where they run out or one cannot play its part.** -/
def Fault [View γ] (φ : Phrase γ α) (V : List γ) (e : ListingError) : Prop :=
  ∃ S₁ s S₂ x W, φ (S₁ ++ s :: S₂) x ∧ V = S₁.map Prod.snd ++ W ∧ Stops s.1 W e

/-! ## Readers -/

section

variable [View γ]

/-- **The reader takes the tokens of a phrase off the lines**, and reads every phrase that stands
first. -/
structure Scans (read : Lines → Outcome (α × Lines)) (φ : Phrase γ α) : Prop where
  sound : ∀ {ls x ls'}, read ls = .ok (x, ls') →
    ∃ S, φ S x ∧ view ls = S.map Prod.snd ++ view ls'
  complete : ∀ {ls S x R}, φ S x → view ls = S.map Prod.snd ++ R →
    ∃ ls', read ls = .ok (x, ls') ∧ view ls' = R

/-- **The reader fails exactly where the tokens no longer begin a phrase.** -/
structure Reports (read : Lines → Outcome (α × Lines)) (φ : Phrase γ α) : Prop
    extends Scans read φ where
  error_iff : ∀ {ls e}, read ls = .error e ↔ Fault φ (view ls) e
  inhabited : ∃ S x, φ S x

variable {read : Lines → Outcome (α × Lines)} {φ : Phrase γ α}
  {f : α → Lines → Outcome (β × Lines)} {ψ : α → Phrase γ β}

theorem Scans.pure (x : α) : Scans (fun ls => .ok (x, ls)) (Phrase.pure (γ := γ) x) where
  sound h := by
    obtain ⟨rfl, rfl⟩ := Prod.mk.inj (Except.ok.inj h)
    exact ⟨[], ⟨rfl, rfl⟩, rfl⟩
  complete := by
    rintro ls S y R ⟨rfl, rfl⟩ hview
    exact ⟨ls, rfl, hview⟩

/-- **A reader after a reader takes a phrase after a phrase.** -/
theorem Scans.bind (h : Scans read φ) (hf : ∀ x, Scans (f x) (ψ x)) :
    Scans (fun ls => read ls >>= fun r => f r.1 r.2) (φ.bind ψ) where
  sound hread := by
    obtain ⟨⟨x, ls₁⟩, h₁, h₂⟩ := bind_eq_ok_iff.mp hread
    obtain ⟨S₁, hS₁, hview₁⟩ := h.sound h₁
    obtain ⟨S₂, hS₂, hview₂⟩ := (hf x).sound h₂
    exact ⟨S₁ ++ S₂, ⟨S₁, S₂, x, rfl, hS₁, hS₂⟩, by
      rw [hview₁, hview₂, List.map_append, List.append_assoc]⟩
  complete := by
    rintro ls S y R ⟨S₁, S₂, x, rfl, hS₁, hS₂⟩ hview
    rw [List.map_append, List.append_assoc] at hview
    obtain ⟨ls₁, h₁, hview₁⟩ := h.complete hS₁ hview
    obtain ⟨ls₂, h₂, hview₂⟩ := (hf x).complete hS₂ hview₁
    exact ⟨ls₂, bind_eq_ok_iff.mpr ⟨_, h₁, h₂⟩, hview₂⟩

theorem Scans.map (h : Scans read φ) (g : α → β) :
    Scans (fun ls => read ls >>= fun r => .ok (g r.1, r.2)) (φ.map g) where
  sound hread := by
    obtain ⟨⟨x, ls₁⟩, h₁, h₂⟩ := bind_eq_ok_iff.mp hread
    obtain ⟨rfl, rfl⟩ := Prod.mk.inj (Except.ok.inj h₂)
    obtain ⟨S, hS, hview⟩ := h.sound h₁
    exact ⟨S, ⟨x, hS, rfl⟩, hview⟩
  complete := by
    rintro ls S y R ⟨x, hS, rfl⟩ hview
    obtain ⟨ls', h', hview'⟩ := h.complete hS hview
    exact ⟨ls', bind_eq_ok_iff.mpr ⟨_, h', rfl⟩, hview'⟩

/-! ## Failures -/

theorem bind_eq_error_iff {ε : Type} {x : Except ε α} {k : α → Except ε β} {e : ε} :
    (x >>= k) = .error e ↔ x = .error e ∨ ∃ a, x = .ok a ∧ k a = .error e := by
  cases x <;> simp [bind, Except.bind]

/-- Where a part of a list stands that is made of two. -/
theorem append_cons_eq_append {δ : Type} {l m A B : List δ} {s : δ} (h : l ++ s :: m = A ++ B) :
    (∃ C, A = l ++ s :: C) ∨ ∃ C, l = A ++ C ∧ B = C ++ s :: m := by
  rcases List.append_eq_append_iff.mp h with ⟨C, rfl, hB⟩ | ⟨C, rfl, hC⟩
  · cases C with
    | nil => exact .inr ⟨[], by simp, by simpa using hB.symm⟩
    | cons c C =>
        obtain ⟨rfl, -⟩ := List.cons.inj hB
        exact .inl ⟨C, rfl⟩
  · exact .inr ⟨C, rfl, hC⟩

theorem Reports.pure (x : α) : Reports (fun ls => .ok (x, ls)) (Phrase.pure (γ := γ) x) where
  toScans := Scans.pure x
  error_iff := by
    refine iff_of_false (by simp) ?_
    rintro ⟨S₁, s, S₂, y, W, ⟨hS, -⟩, -⟩
    exact absurd hS (by simp)
  inhabited := ⟨[], x, rfl, rfl⟩

/-- **A reader after a reader fails where its tokens no longer begin a phrase after a phrase** — in
the first, or behind it in the second. -/
theorem Reports.bind (h : Reports read φ) (hf : ∀ x, Reports (f x) (ψ x)) :
    Reports (fun ls => read ls >>= fun r => f r.1 r.2) (φ.bind ψ) where
  toScans := h.toScans.bind fun x => (hf x).toScans
  inhabited := by
    obtain ⟨S₁, x, hS₁⟩ := h.inhabited
    obtain ⟨S₂, y, hS₂⟩ := (hf x).inhabited
    exact ⟨S₁ ++ S₂, y, S₁, S₂, x, rfl, hS₁, hS₂⟩
  error_iff {ls e} := by
    rw [bind_eq_error_iff]
    constructor
    · rintro (hread | ⟨⟨x, ls₁⟩, hread, hfail⟩)
      · obtain ⟨S₁, s, S₂, x, W, hS, hview, hstop⟩ := h.error_iff.mp hread
        obtain ⟨S, y, hy⟩ := (hf x).inhabited
        exact ⟨S₁, s, S₂ ++ S, y, W, ⟨_, S, x, by simp, hS, hy⟩, hview, hstop⟩
      · obtain ⟨S, hS, hview⟩ := h.sound hread
        obtain ⟨S₁, s, S₂, y, W, hy, hview', hstop⟩ := (hf x).error_iff.mp hfail
        refine ⟨S ++ S₁, s, S₂, y, W, ⟨S, _, x, by simp, hS, hy⟩, ?_, hstop⟩
        rw [hview, hview', List.map_append, List.append_assoc]
    · rintro ⟨S₁, s, S₂, y, W, ⟨A, B, x, hAB, hA, hB⟩, hview, hstop⟩
      rcases append_cons_eq_append hAB with ⟨C, rfl⟩ | ⟨C, rfl, rfl⟩
      · exact .inl (h.error_iff.mpr ⟨S₁, s, C, x, W, hA, hview, hstop⟩)
      · -- the first phrase is whole, and what is left faults in the second
        rw [List.map_append, List.append_assoc] at hview
        obtain ⟨ls₁, hread, hview'⟩ := h.complete hA hview
        exact .inr ⟨_, hread, (hf x).error_iff.mpr ⟨C, s, S₂, y, W, hB, hview', hstop⟩⟩

theorem Reports.map (h : Reports read φ) (g : α → β) :
    Reports (fun ls => read ls >>= fun r => .ok (g r.1, r.2)) (φ.map g) where
  toScans := h.toScans.map g
  inhabited := by
    obtain ⟨S, x, hS⟩ := h.inhabited
    exact ⟨S, g x, x, hS, rfl⟩
  error_iff {ls e} := by
    rw [bind_eq_error_iff, h.error_iff]
    constructor
    · rintro (⟨S₁, s, S₂, x, W, hS, hfault⟩ | ⟨r, -, hr⟩)
      · exact ⟨S₁, s, S₂, g x, W, ⟨x, hS, rfl⟩, hfault⟩
      · exact absurd hr (by simp)
    · rintro ⟨S₁, s, S₂, y, W, ⟨x, hS, -⟩, hfault⟩
      exact .inl ⟨S₁, s, S₂, x, W, hS, hfault⟩

/-- Reading many phrases fails where one of them does. -/
theorem Reports.times (h : Reports read φ) : ∀ n, Reports (readMany read n) (φ.times n)
  | 0 => .pure []
  | n + 1 => h.bind fun x => (h.times n).map (x :: ·)

/-! ## Tokens -/

/-- Reads a token and what it tells. -/
def readToken (item : Item) (check : String → Outcome α) (ls : Lines) : Outcome (α × Lines) :=
  next item ls >>= fun r => check r.1 >>= fun x => .ok (x, r.2)

variable {item : Item} {check : String → Outcome α} {told : String → α → Prop} {ls : Lines}
  {e : ListingError}

theorem readToken_of_view_nil (h : view (γ := γ) ls = []) :
    readToken item check ls = .error (.endOfInput item) := by
  rw [readToken, next_of_view_nil item h]
  rfl

theorem readToken_of_view_cons {g : γ} {R : List γ} (h : view ls = g :: R) :
    ∃ ls', view ls' = R ∧
      readToken item check ls = check (View.token g) >>= fun x => .ok (x, ls') := by
  obtain ⟨t, l, ls', rfl, hview, hnext⟩ := next_of_view_cons h
  refine ⟨l :: ls', hview, ?_⟩
  rw [readToken, hnext item, View.token_see]
  rfl

theorem fault_token_iff (h : ∃ t x, told t x) {V : List γ} :
    Fault (Phrase.token item told) V e ↔ Stops item V e := by
  constructor
  · rintro ⟨S₁, s, S₂, x, W, ⟨g, hS, -⟩, rfl, hstop⟩
    rcases List.append_eq_singleton_iff.mp hS with ⟨rfl, hs⟩ | ⟨-, hs⟩
    · obtain ⟨rfl, -⟩ := List.cons.inj hs
      exact hstop
    · exact absurd hs (List.cons_ne_nil _ _)
  · intro hstop
    obtain ⟨t, x, ht⟩ := h
    exact ⟨[], (item, View.see t []), [], x, V, ⟨_, rfl, by rwa [View.token_see]⟩, rfl, hstop⟩

/-- **A token is read as its part demands.** -/
theorem reports_readToken (hok : ∀ t x, check t = .ok x ↔ told t x)
    (herror : ∀ t e, check t = .error e ↔ Misfit item t e) (h : ∃ t x, told t x) :
    Reports (readToken item check) (Phrase.token (γ := γ) item told) where
  sound {ls x ls'} hread := by
    cases hview : view (γ := γ) ls with
    | nil => exact absurd ((readToken_of_view_nil hview).symm.trans hread) (by simp)
    | cons g R =>
        obtain ⟨ls₁, hview₁, htoken⟩ := readToken_of_view_cons hview
        obtain ⟨y, hy, heq⟩ := bind_eq_ok_iff.mp (htoken.symm.trans hread)
        obtain ⟨rfl, rfl⟩ := Prod.mk.inj (Except.ok.inj heq)
        exact ⟨[(item, g)], ⟨g, rfl, (hok _ _).mp hy⟩, congrArg _ hview₁.symm⟩
  complete := by
    rintro ls S x R ⟨g, rfl, ht⟩ hview
    obtain ⟨ls', hview', htoken⟩ := readToken_of_view_cons hview
    exact ⟨ls', htoken.trans (bind_eq_ok_iff.mpr ⟨x, (hok _ _).mpr ht, rfl⟩), hview'⟩
  error_iff {ls e} := by
    rw [fault_token_iff h]
    cases hview : view (γ := γ) ls with
    | nil => simp [Stops, readToken_of_view_nil hview, eq_comm]
    | cons g R =>
        obtain ⟨ls₁, -, htoken⟩ := readToken_of_view_cons hview
        rw [htoken, bind_eq_error_iff, herror]
        simp [Stops]
  inhabited := by
    obtain ⟨t, x, ht⟩ := h
    exact ⟨_, x, View.see t [], rfl, by rwa [View.token_see]⟩

/-- A label plays any part but those of counts and symbols. -/
theorem reports_next (item : Item) (hitem : item ∉ counts) (hsymbol : item ≠ .symbol) :
    Reports (next item) (Phrase.written (γ := γ) item id) := by
  have hread : next item = readToken item .ok := by
    funext ls
    rw [readToken]
    cases next item ls <;> rfl
  rw [hread]
  refine reports_readToken (fun t x => by simp) (fun t e => iff_of_false (by simp) ?_) ⟨"", "", rfl⟩
  rintro (⟨h, -⟩ | -)
  · exact hitem h
  · exact hsymbol rfl

/-- What a token tells that stands where a count is expected. -/
def countOf (t : String) : Outcome Nat :=
  match Numeral.read? t with
  | some n => .ok n
  | none => .error (.invalidCount t)

/-- What a token tells that stands where a symbol is expected. -/
def symbolOf (t : String) : Outcome Symbol :=
  match t.toList with
  | [a] => .ok a
  | _ => .error (.invalidSymbol t)

theorem readCount_eq (item : Item) : readCount item = readToken item countOf := by
  funext ls
  rw [readCount, readToken]
  congr 1
  funext ⟨t, ls'⟩
  dsimp only
  rw [countOf]
  cases Numeral.read? t <;> rfl

theorem readSymbol_eq : readSymbol = readToken .symbol symbolOf := by
  funext ls
  rw [readSymbol, readToken]
  congr 1
  funext ⟨t, ls'⟩
  dsimp only
  rw [symbolOf]
  rcases t.toList with _ | ⟨a, _ | ⟨b, l⟩⟩ <;> rfl

/-- A count is a numeral. -/
theorem reports_readCount (item : Item) (hitem : item ∈ counts) :
    Reports (readCount item) (Phrase.token (γ := γ) item Numeral.Denotes) := by
  have hsymbol : item ≠ .symbol := by
    rintro rfl
    exact absurd hitem (by decide)
  rw [readCount_eq]
  refine reports_readToken (fun t n => ?_) (fun t e => ?_)
    ⟨"0", 0, Numeral.read?_eq_some_iff.mp (by decide)⟩
  · rw [countOf, ← Numeral.read?_eq_some_iff]
    cases Numeral.read? t <;> simp
  · rw [countOf]
    cases hn : Numeral.read? t with
    | some n =>
        refine iff_of_false (by simp) ?_
        rintro (⟨-, ht⟩ | -)
        · exact ht n (Numeral.read?_eq_some_iff.mp hn)
        · exact hsymbol rfl
    | none =>
        refine ⟨fun h => ?_, ?_⟩
        · obtain rfl := Except.error.inj h
          exact .count hitem (Numeral.read?_eq_none_iff.mp hn)
        · rintro (⟨-, -⟩ | -)
          · rfl
          · exact absurd rfl hsymbol

theorem eq_toString_iff {t : String} {a : Symbol} : t = a.toString ↔ t.toList = [a] := by
  rw [← String.toList_inj, Char.toString, String.toList_singleton]

theorem symbolOf_eq_ok_iff {t : String} {a : Symbol} : symbolOf t = .ok a ↔ t = a.toString := by
  rw [eq_toString_iff, symbolOf]
  split <;> simp_all

/-- A symbol is a token of one character. -/
theorem reports_readSymbol :
    Reports readSymbol (Phrase.written (γ := γ) .symbol Char.toString) := by
  rw [readSymbol_eq]
  refine reports_readToken (fun _ _ => symbolOf_eq_ok_iff) (fun t e => ?_) ⟨"a", 'a', rfl⟩
  rw [symbolOf]
  split
  · rename_i a ha
    refine iff_of_false (by simp) ?_
    rintro (⟨hitem, -⟩ | ht)
    · exact absurd hitem (by decide)
    · exact ht a (eq_toString_iff.mpr ha)
  · rename_i hne
    refine ⟨fun h => ?_, ?_⟩
    · obtain rfl := Except.error.inj h
      exact .symbol fun a ha => hne a (eq_toString_iff.mp ha)
    · rintro (⟨hitem, -⟩ | -)
      · exact absurd hitem (by decide)
      · rfl

theorem readSymbol_eq_ok_iff {ls ls' : Lines} {a : Symbol} :
    readSymbol ls = .ok (a, ls') ↔ next .symbol ls = .ok (a.toString, ls') := by
  rw [readSymbol_eq, readToken, bind_eq_ok_iff]
  constructor
  · rintro ⟨⟨t, ls₁⟩, hnext, h⟩
    obtain ⟨b, hb, h⟩ := bind_eq_ok_iff.mp h
    obtain ⟨rfl, rfl⟩ := Prod.mk.inj (Except.ok.inj h)
    exact hnext.trans (by rw [← symbolOf_eq_ok_iff.mp hb])
  · exact fun hnext => ⟨_, hnext, bind_eq_ok_iff.mpr ⟨a, symbolOf_eq_ok_iff.mpr rfl, rfl⟩⟩

end

end Automata.Listing
