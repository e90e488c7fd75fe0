import Automata.Listing.Read
import Automata.Proofs.Lines
import Automata.Proofs.Loaded

/-!
# Proofs/Listing/Tokens — the tokens a listing is read from

A text is read through the tokens it has, in order, which are its longest stretches without white
space (`stretches_iff`), and how they are spread over lines and spaced does not matter to them
(`Lines.flatten_ofText`).  What reads to the end of a line sees the tokens `Placed`: each with
whether it is the last of its line.

Both are a `View` of the lines that are left: the next token of the view is what `next` reads.
-/

namespace Automata.Text

/-- **The longest stretches without white space**, in order. -/
inductive Stretches : List Char → List String → Prop
  | nil : Stretches [] []
  | blank {c : Char} {cs : List Char} {ts : List String} (hc : isBlank c = true)
      (h : Stretches cs ts) : Stretches (c :: cs) ts
  | token {s : String} {cs : List Char} {ts : List String} (hs : IsToken s)
      (hcs : ∀ c ∈ cs.head?, isBlank c = true) (h : Stretches cs ts) :
      Stretches (s.toList ++ cs) (s :: ts)

theorem tokens_cons_of_isBlank {c : Char} (hc : isBlank c = true) (cs : List Char) :
    tokens (c :: cs) = tokens cs :=
  tokens_append hc [] cs

/-- A token and the blank or the end behind it. -/
theorem tokens_append_of_isToken {s : String} (hs : IsToken s) {cs : List Char}
    (hcs : ∀ c ∈ cs.head?, isBlank c = true) : tokens (s.toList ++ cs) = s :: tokens cs := by
  cases cs with
  | nil => rw [List.append_nil, tokens_eq_singleton hs.1 hs.2]; rfl
  | cons c cs =>
      have hc : isBlank c = true := hcs c rfl
      rw [tokens_append hc, tokens_eq_singleton hs.1 hs.2, tokens_cons_of_isBlank hc,
        List.singleton_append]

theorem stretches_tokens (cs : List Char) : Stretches cs (tokens cs) := by
  induction hn : cs.length using Nat.strongRecOn generalizing cs with
  | ind n ih =>
    cases cs with
    | nil => exact .nil
    | cons c cs =>
      by_cases hc : isBlank c = true
      case pos =>
        rw [tokens_cons_of_isBlank hc]
        exact .blank hc (ih cs.length (by simp [← hn]) cs rfl)
      case neg =>
        -- the stretch that `c` begins, and what is behind it
        let p : Char → Bool := fun d => !isBlank d
        obtain ⟨x, y, hxy, hx, hy⟩ : ∃ x y, c :: cs = (String.ofList (c :: x)).toList ++ y ∧
            (∀ d ∈ c :: x, isBlank d = false) ∧ ∀ d ∈ y.head?, isBlank d = true := by
          refine ⟨cs.takeWhile p, cs.dropWhile p, ?_, ?_, fun d hd => ?_⟩
          · rw [String.toList_ofList, List.cons_append, List.takeWhile_append_dropWhile]
          · refine List.forall_mem_cons.mpr ⟨Bool.eq_false_iff.mpr hc, fun d hd => ?_⟩
            simpa [p] using List.all_eq_true.mp List.all_takeWhile d hd
          · have := List.head?_dropWhile_not p cs
            rw [Option.mem_def.mp hd] at this
            simpa [p] using this
        have hs : IsToken (String.ofList (c :: x)) :=
          ⟨fun e => List.cons_ne_nil c x (String.ofList_eq_empty_iff.mp e), by simpa using hx⟩
        have hlength : (c :: cs).length = (c :: x).length + y.length := by
          rw [hxy, List.length_append, String.toList_ofList]
        rw [hxy, tokens_append_of_isToken hs hy]
        exact .token hs hy (ih y.length (by rw [← hn, hlength]; simp) y rfl)

/-- **The tokens of a text are its longest stretches without white space.** -/
theorem stretches_iff {cs : List Char} {ts : List String} : Stretches cs ts ↔ tokens cs = ts := by
  refine ⟨fun h => ?_, fun h => h ▸ stretches_tokens cs⟩
  induction h with
  | nil => rfl
  | blank hc _ ih => rw [tokens_cons_of_isBlank hc, ih]
  | token hs hcs _ ih => rw [tokens_append_of_isToken hs hcs, ih]

/-- **The tokens of a text are those of its lines.** -/
theorem Lines.flatten_ofText (t : String) : (Lines.ofText t).flatten = tokens t.toList := by
  -- `x` is what was passed of a line so far
  have key : ∀ cs x : List Char, (∀ c ∈ x, (c == '\n') = false) →
      ((pieces (· == '\n') (x ++ cs)).map tokens).flatten = tokens (x ++ cs) := by
    intro cs
    induction cs with
    | nil =>
        intro x hx
        rw [List.append_nil, pieces_eq_singleton hx, List.map_singleton, List.flatten_singleton]
    | cons c cs ih =>
        intro x hx
        by_cases hc : c = '\n'
        · subst hc
          rw [pieces_append (by rfl), pieces_eq_singleton hx, List.singleton_append, List.map_cons,
            List.flatten_cons, tokens_append isBlank_newline]
          exact congrArg _ (ih [] fun _ h => absurd h List.not_mem_nil)
        · rw [List.append_cons]
          refine ih (x ++ [c]) fun d hd => ?_
          rcases List.mem_append.mp hd with hd | hd
          · exact hx d hd
          · rw [List.mem_singleton.mp hd]
            exact beq_eq_false_iff_ne.mpr hc
  exact key t.toList [] fun _ h => absurd h List.not_mem_nil

namespace Numeral

/-- **What a numeral stands for** — digits, behind a plus sign or none, of a number below the
limit. -/
def Denotes (t : String) (n : Nat) : Prop :=
  n < limit ∧ ∃ ds : List Char, (t.toList = ds ∨ t.toList = '+' :: ds) ∧ ds ≠ [] ∧
    (∀ c ∈ ds, c.isDigit = true) ∧ Nat.ofDigitChars 10 ds 0 = n

/-- A sign is no digit. -/
theorem unsigned_eq_iff {cs ds : List Char} (h : ∀ c ∈ ds, c.isDigit = true) :
    unsigned cs = ds ↔ cs = ds ∨ cs = '+' :: ds := by
  unfold unsigned
  split
  · refine ⟨fun e => .inr (congrArg _ e), fun e => e.elim (fun e => ?_) List.tail_eq_of_cons_eq⟩
    exact absurd (h '+' (e ▸ List.mem_cons_self)) (by decide)
  · rename_i hne
    exact ⟨.inl, fun e => e.elim id fun e => absurd e (hne ds)⟩

/-- **The numerals are read to what they stand for**, and nothing else is read. -/
theorem read?_eq_some_iff {t : String} {n : Nat} : read? t = some n ↔ Denotes t n := by
  constructor
  · intro h
    rw [read?] at h
    dsimp only at h
    split at h
    · exact absurd h (by simp)
    · rename_i hds
      simp only [Bool.or_eq_true, not_or, List.isEmpty_iff, Bool.not_eq_true',
        Bool.not_eq_false, List.all_eq_true] at hds
      split at h
      · rename_i hlt
        obtain rfl := Option.some.inj h
        exact ⟨hlt, _, (unsigned_eq_iff hds.2).mp rfl, hds.1, hds.2, rfl⟩
      · exact absurd h (by simp)
  · rintro ⟨hlt, ds, ht, hne, hdigits, rfl⟩
    have hds : unsigned t.toList = ds := (unsigned_eq_iff hdigits).mpr ht
    have hall : ds.all Char.isDigit = true := List.all_eq_true.mpr hdigits
    rw [read?, hds]
    simp [hne, hall, hlt]

theorem read?_eq_none_iff {t : String} : read? t = none ↔ ∀ n, ¬ Denotes t n := by
  simp only [← read?_eq_some_iff, Option.eq_none_iff_forall_ne_some, ne_eq]

end Numeral

end Automata.Text

namespace Automata.Listing

open Text

/-! ## Views -/

/-- **A way of seeing tokens**, each by itself and by what is left of its line behind it. -/
class View (γ : Type) where
  see : String → List String → γ
  /-- The token that is seen. -/
  token : γ → String
  token_see : ∀ t l, token (see t l) = t

/-- Only the tokens, whatever the lines. -/
instance : View String where
  see t _ := t
  token := id
  token_see _ _ := rfl

/-- A token, and whether it is the last of its line. -/
structure Placed where
  text : String
  isLast : Bool
deriving DecidableEq

instance : View Placed where
  see t l := ⟨t, l.isEmpty⟩
  token := Placed.text
  token_see _ _ := rfl

variable {γ : Type} [View γ] {ls : Lines} {g : γ} {R : List γ}

/-- The tokens of a line as they are seen. -/
def viewLine : List String → List γ
  | [] => []
  | t :: l => View.see t l :: viewLine l

/-- The tokens of lines as they are seen. -/
def view (ls : Lines) : List γ := ls.flatMap viewLine

/-- **Only the tokens of a text are seen.** -/
theorem view_ofText (t : String) : view (Lines.ofText t) = tokens t.toList := by
  have hline : ∀ l : List String, viewLine l = l := by
    intro l
    induction l with
    | nil => rfl
    | cons t l ih => exact congrArg _ ih
  rw [view, funext hline, List.flatMap_id', Lines.flatten_ofText]

/-- Where no token is seen none is left. -/
theorem next_of_view_nil (item : Item) (h : view (γ := γ) ls = []) :
    next item ls = .error (.endOfInput item) := by
  induction ls with
  | nil => rfl
  | cons l ls ih =>
      obtain ⟨hl, hls⟩ := List.append_eq_nil_iff.mp h
      cases l with
      | nil => exact ih hls
      | cons t l => exact absurd hl (List.cons_ne_nil _ _)

/-- **The first token that is seen is the next**, and what it is seen with is left of its line. -/
theorem next_of_view_cons (h : view ls = g :: R) : ∃ t l ls', g = View.see t l ∧
    view (l :: ls') = R ∧ ∀ item, next item ls = .ok (t, l :: ls') := by
  induction ls with
  | nil => exact absurd h.symm (List.cons_ne_nil g R)
  | cons l ls ih =>
      cases l with
      | nil => exact ih h
      | cons t l =>
          obtain ⟨rfl, rfl⟩ := List.cons.inj h
          exact ⟨t, l, ls, rfl, rfl, fun _ => rfl⟩

/-- What is next is seen first, with what is left of its line. -/
theorem view_of_next {item : Item} {t : String} {ls' : Lines} (h : next item ls = .ok (t, ls')) :
    ∃ l ls₁, ls' = l :: ls₁ ∧ view (γ := γ) ls = View.see t l :: view ls' := by
  cases hview : view (γ := γ) ls with
  | nil => exact absurd ((next_of_view_nil item hview).symm.trans h) (by simp)
  | cons g R =>
      obtain ⟨s, l, ls₁, rfl, rfl, hnext⟩ := next_of_view_cons hview
      obtain ⟨rfl, rfl⟩ := Prod.mk.inj (Except.ok.inj ((hnext item).symm.trans h))
      exact ⟨l, ls₁, rfl, rfl⟩

theorem finish_of_view_nil (h : view (γ := γ) ls = []) : finish ls = .ok () := by
  induction ls with
  | nil => rfl
  | cons l ls ih =>
      obtain ⟨hl, hls⟩ := List.append_eq_nil_iff.mp h
      cases l with
      | nil => exact ih hls
      | cons t l => exact absurd hl (List.cons_ne_nil _ _)

/-- The first token that is left is one too many. -/
theorem finish_of_view_cons (h : view ls = g :: R) :
    finish ls = .error (.trailingInput (View.token g)) := by
  induction ls with
  | nil => exact absurd h.symm (List.cons_ne_nil g R)
  | cons l ls ih =>
      cases l with
      | nil => exact ih h
      | cons t l =>
          obtain ⟨rfl, -⟩ := List.cons.inj h
          rw [View.token_see]
          rfl

end Automata.Listing
