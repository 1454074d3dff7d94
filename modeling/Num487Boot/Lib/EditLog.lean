import Mathlib.Data.Nat.Notation

/-!
# Logs of Positions

A sequence kept as a log of edits: a position is inserted, a position is deleted, or something
is noted at a position. An insertion moves the positions behind it up, a deletion moves them
down, so a position of today may have had another number when something was noted at it.

Logs are written newest edit first. `history` replays a log, oldest edit first, and tells what
has been noted at each position since it was inserted. `search` finds the same without a replay:
it walks back from the newest edit and follows the one position it is interested in.

* `search_eq`: a search finds the newest note of the replay that it looks for.
-/

namespace EditLog

variable {α : Type}

/-- An entry of a log of edits: a place is made for an id, taken away from it, or noted upon. -/
inductive Edit (α : Type)
  | insert (i : ℕ)
  | delete (i : ℕ)
  | note (i : ℕ) (a : α)
  deriving DecidableEq

/-- What an edit makes of the notes at each position. -/
def Edit.apply (notes : ℕ → List α) : Edit α → ℕ → List α
  | .insert i, j => if j < i then notes j else if j = i then [] else notes (j - 1)
  | .delete i, j => if j < i then notes j else notes (j + 1)
  | .note i a, j => if i = j then a :: notes j else notes j

/-- What has been noted at each position, newest first. -/
def history : List (Edit α) → ℕ → List α
  | [] => fun _ => []
  | e :: log => e.apply (history log)

/-- The number a position had before an edit, unless the edit inserted it. -/
def Edit.before (j : ℕ) : Edit α → Option ℕ
  | .insert i => if i < j then some (j - 1) else if i = j then none else some j
  | .delete i => some (if i ≤ j then j + 1 else j)
  | .note _ _ => some j

/-- The walk back from the newest edit. -/
def search (p : α → Bool) : List (Edit α) → ℕ → Option α
  | [], _ => none
  | .note i a :: log, j => if i = j ∧ p a then some a else search p log j
  | e :: log, j => (e.before j).elim none (search p log)

/-- Past an insertion the search goes on for the id before, and ends where the id itself was
inserted. -/
theorem search_insert (p : α → Bool) (i : ℕ) (log : List (Edit α)) (j : ℕ) :
    search p (.insert i :: log) j
      = if i < j then search p log (j - 1) else if i = j then none else search p log j := by
  rw [search, Edit.before]
  · split
    · rfl
    · split <;> rfl
  · exact fun _ _ h => nomatch h

/-- Past a deletion the search goes on for the id behind. -/
theorem search_delete (p : α → Bool) (i : ℕ) (log : List (Edit α)) (j : ℕ) :
    search p (.delete i :: log) j = if i ≤ j then search p log (j + 1) else search p log j := by
  rw [search, Edit.before]
  · split <;> rfl
  · exact fun _ _ h => nomatch h

/-- **A search finds what a replay finds.** -/
theorem search_eq (p : α → Bool) (log : List (Edit α)) (j : ℕ) :
    search p log j = (history log j).find? p := by
  induction log generalizing j with
  | nil => rfl
  | cons e log ih =>
      cases e with
      | insert i =>
          rw [search_insert, history, Edit.apply]
          rcases Nat.lt_trichotomy i j with h | rfl | h
          · rw [if_pos h, if_neg (by omega), if_neg (by omega)]
            exact ih (j - 1)
          · rw [if_neg (Nat.lt_irrefl i), if_pos rfl, if_neg (Nat.lt_irrefl i), if_pos rfl]
            rfl
          · rw [if_neg (by omega), if_neg (by omega), if_pos h]
            exact ih j
      | delete i =>
          rw [search_delete, history, Edit.apply]
          by_cases h : i ≤ j
          · rw [if_pos h, if_neg (by omega)]
            exact ih (j + 1)
          · rw [if_neg h, if_pos (by omega)]
            exact ih j
      | note i a =>
          rw [search, history, Edit.apply]
          by_cases hij : i = j
          · subst hij
            rw [if_pos rfl, List.find?_cons, ih]
            cases ha : p a with
            | true => rw [if_pos ⟨rfl, rfl⟩]
            | false => rw [if_neg fun h => Bool.false_ne_true h.2]
          · rw [if_neg fun h => hij h.1, if_neg hij]
            exact ih j

/-- The deletions of a log: as far as a position can move up on the way back. -/
def deletions : List (Edit α) → ℕ
  | [] => 0
  | .delete _ :: log => deletions log + 1
  | _ :: log => deletions log

end EditLog
