import Mathlib.Data.Nat.Notation
import Mathlib.Logic.Function.Basic

/-!
# Memories of Numbered Cells

A memory maps addresses to the values of its cells, over any type of values. Three
operations on runs of consecutive cells:

* `slice`: the values read from a run of cells.
* `overlay`: the memory after a run of stores. Stores compose (`overlay_append`), are read
  back (`slice_overlay`) and leave the other cells alone (`overlay_apply_of_lt`,
  `overlay_apply_of_le`).
* `merge op`: the memory after a run of writes that combine the new value with the old one,
  as a medium does whose cells can only be cleared. On cells that are neutral for `op` a
  merge is an overlay (`merge_eq_overlay`).

`mergeAll op` is a whole list of such writes. Writes that combine in either order do so in
every order (`mergeAll_perm`), and writes that stay apart are each read back
(`slice_mergeAll`).
-/

namespace Memory

variable {α : Type}

/-- The values of the `n` cells from address `i` on. -/
def slice (mem : ℕ → α) (i n : ℕ) : List α :=
  (List.range' i n).map mem

/-- A memory after consecutive stores from address `i` on. -/
def overlay (mem : ℕ → α) (i : ℕ) (data : List α) : ℕ → α := fun j =>
  if i ≤ j then data[j - i]?.getD (mem j) else mem j

/-- A memory after consecutive writes from address `i` on, each combined with what the cell
held. -/
def merge (op : α → α → α) (mem : ℕ → α) (i : ℕ) (data : List α) : ℕ → α := fun j =>
  if i ≤ j then (data[j - i]?.map (op (mem j))).getD (mem j) else mem j

/-! ### Stores -/

/-- Storing nothing changes nothing. -/
@[simp] theorem overlay_nil (mem : ℕ → α) (i : ℕ) : overlay mem i [] = mem := by
  funext j
  simp [overlay]

/-- Storing one value and then the rest stores them all. -/
theorem overlay_update (mem : ℕ → α) (i : ℕ) (x : α) (data : List α) :
    overlay (Function.update mem i x) (i + 1) data = overlay mem i (x :: data) := by
  funext j
  rcases Nat.lt_trichotomy j i with h | rfl | h
  · have hj : j ≠ i := by omega
    have hle : ¬ i + 1 ≤ j := by omega
    simp [overlay, hj, Nat.not_le.mpr h, hle]
  · rw [overlay, if_neg (by omega), Function.update_self, overlay, if_pos (Nat.le_refl j),
      Nat.sub_self]
    rfl
  · obtain ⟨k, rfl⟩ : ∃ k, j = i + 1 + k := ⟨j - (i + 1), by omega⟩
    have hj : i + 1 + k ≠ i := by omega
    have hle : i ≤ i + 1 + k := by omega
    have hsub : i + 1 + k - i = k + 1 := by omega
    simp [overlay, Function.update_of_ne hj, hsub, hle]

/-- Storing two runs of values one after the other stores their concatenation. -/
theorem overlay_append (mem : ℕ → α) (i : ℕ) (xs ys : List α) :
    overlay (overlay mem i xs) (i + xs.length) ys = overlay mem i (xs ++ ys) := by
  induction xs generalizing mem i with
  | nil => simp
  | cons x xs ih =>
      have hstart : i + (xs.length + 1) = i + 1 + xs.length := by omega
      rw [List.cons_append, ← overlay_update, ← overlay_update, List.length_cons, hstart, ih]

/-- In front of the data nothing changes. -/
theorem overlay_apply_of_lt {mem : ℕ → α} {i j : ℕ} {data : List α} (h : j < i) :
    overlay mem i data j = mem j := by
  simp [overlay, Nat.not_le.mpr h]

/-- An overlay leaves the cells behind its data. -/
theorem overlay_apply_of_le {mem : ℕ → α} {i j : ℕ} {data : List α}
    (h : i + data.length ≤ j) : overlay mem i data j = mem j := by
  have : data[j - i]? = none := List.getElem?_eq_none (by omega)
  simp [overlay, this]

/-- A cell under the data holds its element. -/
theorem overlay_apply {mem : ℕ → α} {i k : ℕ} {data : List α} (h : k < data.length) :
    overlay mem i data (i + k) = data[k] := by
  simp [overlay, h]

/-- A cell under the data, for an overlay at the start of the memory. -/
theorem overlay_zero_apply {mem : ℕ → α} {k : ℕ} {data : List α}
    (h : k < data.length) : overlay mem 0 data k = data[k] := by
  simp [overlay, h]

/-! ### Reads -/

/-- A range has as many cells as were asked for. -/
@[simp] theorem length_slice (mem : ℕ → α) (i n : ℕ) : (slice mem i n).length = n := by
  simp [slice]

/-- An empty range. -/
@[simp] theorem slice_zero (mem : ℕ → α) (i : ℕ) : slice mem i 0 = [] := rfl

/-- A range is its first cell and the others. -/
theorem slice_succ (mem : ℕ → α) (i n : ℕ) :
    slice mem i (n + 1) = mem i :: slice mem (i + 1) n := by
  simp [slice, List.range'_succ]

/-- A range in two parts. -/
theorem slice_append (mem : ℕ → α) (i m n : ℕ) :
    slice mem i (m + n) = slice mem i m ++ slice mem (i + m) n := by
  rw [slice, slice, slice, ← List.map_append, List.range'_append_1]

/-- The cells of a range, one by one. -/
theorem getElem_slice {mem : ℕ → α} {i n k : ℕ} (h : k < (slice mem i n).length) :
    (slice mem i n)[k] = mem (i + k) := by
  simp [slice]

/-- A part of a range is a part of its content. -/
theorem slice_part {mem : ℕ → α} {data : List α} {i k n : ℕ}
    (h : slice mem i data.length = data) (hle : k + n ≤ data.length) :
    slice mem (i + k) n = (data.drop k).take n := by
  obtain ⟨m, hm⟩ : ∃ m, data.length = k + (n + m) := ⟨data.length - (k + n), by omega⟩
  rw [hm, slice_append, slice_append] at h
  rw [← h, List.drop_left' (length_slice _ _ _), List.take_left' (length_slice _ _ _)]

/-- Two ranges hold the same exactly when their cells do. -/
theorem slice_eq_iff {m₁ m₂ : ℕ → α} {i₁ i₂ n : ℕ} :
    slice m₁ i₁ n = slice m₂ i₂ n ↔ ∀ k < n, m₁ (i₁ + k) = m₂ (i₂ + k) := by
  constructor
  · intro h k hk
    have hk' : k < (slice m₁ i₁ n).length := by rwa [length_slice]
    have hget := List.getElem_of_eq h hk'
    rwa [getElem_slice, getElem_slice] at hget
  · intro h
    refine List.ext_getElem (by simp) fun k hk _ => ?_
    rw [getElem_slice, getElem_slice, h k (by simpa using hk)]

/-- Memories that agree on a range hold the same there. -/
theorem slice_congr {m₁ m₂ : ℕ → α} {i n : ℕ} (h : ∀ j < n, m₁ (i + j) = m₂ (i + j)) :
    slice m₁ i n = slice m₂ i n :=
  slice_eq_iff.mpr h

/-- What was stored is what is read back. -/
@[simp] theorem slice_overlay (mem : ℕ → α) (i : ℕ) (data : List α) :
    slice (overlay mem i data) i data.length = data := by
  apply List.ext_getElem (by simp)
  intro k _ hk
  rw [getElem_slice, overlay_apply hk]

/-- Of the cells copied from another memory the first are read back. -/
theorem slice_overlay_slice {mem src : ℕ → α} {i j n k : ℕ} (h : k ≤ n) :
    slice (overlay mem i (slice src j n)) i k = slice src j k := by
  refine List.ext_getElem (by simp) fun l hl _ => ?_
  rw [length_slice] at hl
  have hl' : l < (slice src j n).length := by
    rw [length_slice]
    omega
  rw [getElem_slice, getElem_slice, overlay_apply hl', getElem_slice]

/-! ### Merging writes -/

section Merge

variable {op : α → α → α} {mem : ℕ → α} {i : ℕ}

/-- Merging nothing changes nothing. -/
@[simp] theorem merge_nil : merge op mem i [] = mem := by
  funext j
  simp [merge]

/-- In front of the data nothing changes. -/
theorem merge_apply_of_lt {j : ℕ} {data : List α} (h : j < i) : merge op mem i data j = mem j := by
  simp [merge, Nat.not_le.mpr h]

/-- A merge leaves the cells behind its data. -/
theorem merge_apply_of_le {j : ℕ} {data : List α} (h : i + data.length ≤ j) :
    merge op mem i data j = mem j := by
  have : data[j - i]? = none := List.getElem?_eq_none (by omega)
  simp [merge, this]

/-- A cell under the data is combined with its element. -/
theorem merge_apply {k : ℕ} {data : List α} (h : k < data.length) :
    merge op mem i data (i + k) = op (mem (i + k)) data[k] := by
  simp [merge, h]

/-- Writing two runs of values one after the other writes their concatenation. -/
theorem merge_append (xs ys : List α) :
    merge op (merge op mem i xs) (i + xs.length) ys = merge op mem i (xs ++ ys) := by
  funext j
  by_cases hlt : j < i + xs.length
  · rw [merge_apply_of_lt hlt]
    simp only [merge]
    by_cases hi : i ≤ j
    · rw [if_pos hi, if_pos hi, List.getElem?_append_left (by omega)]
    · rw [if_neg hi, if_neg hi]
  · obtain ⟨k, rfl⟩ : ∃ k, j = i + xs.length + k := ⟨j - (i + xs.length), by omega⟩
    have hold : merge op mem i xs (i + xs.length + k) = mem (i + xs.length + k) :=
      merge_apply_of_le (by omega)
    have hindex : i + xs.length + k - i - xs.length = i + xs.length + k - (i + xs.length) := by
      omega
    rw [merge, if_pos (by omega), hold, merge, if_pos (by omega),
      List.getElem?_append_right (by omega), hindex]

/-- On cells that yield to every value a merge stores. -/
theorem merge_eq_overlay {b : α} {data : List α} (hop : ∀ x, op b x = x)
    (hmem : ∀ k < data.length, mem (i + k) = b) : merge op mem i data = overlay mem i data := by
  funext j
  by_cases hi : i ≤ j
  · obtain ⟨k, rfl⟩ : ∃ k, j = i + k := ⟨j - i, by omega⟩
    by_cases hk : k < data.length
    · rw [merge_apply hk, overlay_apply hk, hmem k hk, hop]
    · rw [merge_apply_of_le (by omega), overlay_apply_of_le (by omega)]
  · rw [merge_apply_of_lt (by omega), overlay_apply_of_lt (by omega)]

/-- Two runs of writes may be exchanged if two writes to one cell may be. -/
theorem merge_comm (hop : ∀ x y z, op (op x y) z = op (op x z) y) (mem : ℕ → α) (i j : ℕ)
    (xs ys : List α) :
    merge op (merge op mem i xs) j ys = merge op (merge op mem j ys) i xs := by
  funext k
  simp only [merge]
  by_cases hi : i ≤ k
  · by_cases hj : j ≤ k
    · cases xs[k - i]? <;> cases ys[k - j]? <;> simp [hi, hj, hop]
    · simp [hi, hj]
  · simp [hi]

/-! ### Lists of writes -/

/-- A memory after a list of runs of writes, each given by its address and its values. -/
def mergeAll (op : α → α → α) (mem : ℕ → α) (ws : List (ℕ × List α)) : ℕ → α :=
  ws.foldl (fun m w => merge op m w.1 w.2) mem

/-- Two runs of writes have no cell in common. -/
def Apart (w w' : ℕ × List α) : Prop :=
  w.1 + w.2.length ≤ w'.1 ∨ w'.1 + w'.2.length ≤ w.1

variable {ws ws' : List (ℕ × List α)}

/-- The first write, and then the others. -/
theorem mergeAll_cons (w : ℕ × List α) :
    mergeAll op mem (w :: ws) = mergeAll op (merge op mem w.1 w.2) ws := rfl

/-- The order of the writes does not matter. -/
theorem mergeAll_perm (hop : ∀ x y z, op (op x y) z = op (op x z) y) (h : ws.Perm ws') :
    mergeAll op mem ws = mergeAll op mem ws' :=
  h.foldl_eq' (fun w _ w' _ m => merge_comm hop m w.1 w'.1 w.2 w'.2) mem

/-- A cell that no write reaches stays. -/
theorem mergeAll_apply_of_forall {j : ℕ} (h : ∀ w ∈ ws, j < w.1 ∨ w.1 + w.2.length ≤ j) :
    mergeAll op mem ws j = mem j := by
  induction ws generalizing mem with
  | nil => rfl
  | cons w ws ih =>
      rw [List.forall_mem_cons] at h
      rw [mergeAll_cons, ih h.2]
      rcases h.1 with hlt | hle
      · exact merge_apply_of_lt hlt
      · exact merge_apply_of_le hle

/-- What was written to cells that yield to every value is read back, if the other writes
stay apart from it. -/
theorem slice_mergeAll {b : α} {w : ℕ × List α} (hop : ∀ x, op b x = x)
    (hapart : ws.Pairwise Apart) (hw : w ∈ ws) (hmem : ∀ k < w.2.length, mem (w.1 + k) = b) :
    slice (mergeAll op mem ws) w.1 w.2.length = w.2 := by
  induction ws generalizing mem with
  | nil => cases hw
  | cons v ws ih =>
      rw [List.pairwise_cons] at hapart
      obtain ⟨hv, hrest⟩ := hapart
      rw [mergeAll_cons]
      rcases List.mem_cons.mp hw with rfl | hw
      · -- the writes after this one leave its cells alone
        rw [merge_eq_overlay hop hmem]
        refine (slice_congr fun k hk => mergeAll_apply_of_forall fun w' hw' => ?_).trans
          (slice_overlay mem w.1 w.2)
        rcases hv w' hw' with h | h
        · exact .inl (by omega)
        · exact .inr (by omega)
      · refine ih hrest hw fun k hk => ?_
        rw [← hmem k hk]
        rcases hv w hw with h | h
        · exact merge_apply_of_le (by omega)
        · exact merge_apply_of_lt (by omega)

end Merge

end Memory
