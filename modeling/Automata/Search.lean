/-!
# Search — breadth-first search

`search next rounds s` lists what can be reached from `s` along `next`, in the order a breadth-first
search comes upon it.  Each round expands one value that was come upon and not yet expanded, so as
many rounds as there are values to reach are enough, and further rounds find nothing to do.
-/

namespace Automata

variable {σ : Type} [DecidableEq σ]

/-- The values on a list that were not seen, each once, in the order they first occur. -/
def unseen (seen : List σ) : List σ → List σ
  | [] => []
  | s :: l => if s ∈ seen then unseen seen l else s :: unseen (s :: seen) l

/-- Expands the waiting values in turn; those come upon on the way wait behind them. -/
def searchFrom (next : σ → List σ) : Nat → List σ → List σ → List σ
  | 0, _, waiting => waiting
  | _ + 1, _, [] => []
  | n + 1, seen, s :: waiting =>
    let new := unseen seen (next s)
    s :: searchFrom next n (new ++ seen) (waiting ++ new)

/-- What can be reached from `s`, in breadth-first order. -/
def search (next : σ → List σ) (rounds : Nat) (s : σ) : List σ := searchFrom next rounds [s] [s]

theorem mem_unseen {s : σ} : ∀ {l seen : List σ}, s ∈ unseen seen l ↔ s ∈ l ∧ s ∉ seen
  | [], _ => by simp [unseen]
  | t :: l, seen => by
      rw [unseen]
      split
      · rename_i ht
        rw [mem_unseen, List.mem_cons]
        exact ⟨fun h => ⟨.inr h.1, h.2⟩, fun h =>
          ⟨h.1.elim (fun e => absurd (e ▸ ht) h.2) id, h.2⟩⟩
      · rename_i ht
        rw [List.mem_cons, mem_unseen, List.mem_cons, List.mem_cons]
        by_cases e : s = t
        · subst e
          simp [ht]
        · simp [e]

theorem nodup_unseen : ∀ (l seen : List σ), (unseen seen l).Nodup
  | [], _ => List.Pairwise.nil
  | t :: l, seen => by
      rw [unseen]
      split
      · exact nodup_unseen l seen
      · refine List.nodup_cons.mpr ⟨fun h => ?_, nodup_unseen l (t :: seen)⟩
        exact (mem_unseen.mp h).2 List.mem_cons_self

end Automata
