import Mathlib.Data.List.Basic
import Mathlib.Logic.Function.Basic

/-!
# Blocks of cells

A memory is a partial function from block numbers to lists of cells. Cells are read and
written one at a time or in runs, and an access is defined only inside a live block.
-/

namespace Njs.Lib

variable {α : Type}

/-- The cells of a list from index `i` on, replaced by those of `l`. -/
def overwrite (cells : List α) (i : ℕ) (l : List α) : List α :=
  cells.take i ++ l ++ cells.drop (i + l.length)

/-- `n` cells of a list from index `i` on. -/
def window (cells : List α) (i n : ℕ) : List α := (cells.drop i).take n

@[simp] theorem overwrite_nil (cells : List α) (i : ℕ) : overwrite cells i [] = cells := by
  simp [overwrite]

theorem length_overwrite {cells l : List α} {i : ℕ} (h : i + l.length ≤ cells.length) :
    (overwrite cells i l).length = cells.length := by
  simp only [overwrite, List.length_append, List.length_take, List.length_drop]
  omega

theorem length_window {cells : List α} {i n : ℕ} (h : i + n ≤ cells.length) :
    (window cells i n).length = n := by
  simp only [window, List.length_take, List.length_drop]
  omega

@[simp] theorem getElem?_window (cells : List α) (i n j : ℕ) :
    (window cells i n)[j]? = if j < n then cells[i + j]? else none := by
  simp only [window, List.getElem?_take, List.getElem?_drop]

theorem getElem?_overwrite {cells l : List α} {i : ℕ} (h : i + l.length ≤ cells.length) (j : ℕ) :
    (overwrite cells i l)[j]? =
      if j < i then cells[j]? else if j < i + l.length then l[j - i]? else cells[j]? := by
  have htake : (cells.take i).length = i := by
    rw [List.length_take]
    omega
  unfold overwrite
  rw [List.append_assoc, List.getElem?_append, htake]
  split_ifs with h1 h2
  · rw [List.getElem?_take, if_pos h1]
  · rw [List.getElem?_append_left (by omega)]
  · rw [List.getElem?_append_right (by omega), List.getElem?_drop]
    congr 1
    omega

theorem overwrite_singleton {cells : List α} {i : ℕ} {a : α} (h : i < cells.length) :
    overwrite cells i [a] = cells.set i a := by
  refine List.ext_getElem? fun j => ?_
  rw [getElem?_overwrite (by rw [List.length_singleton]; omega), List.length_singleton]
  by_cases hj : j = i
  · subst hj
    simp [h]
  · rw [List.getElem?_set_ne (Ne.symm hj)]
    split_ifs <;> first | rfl | omega

/-- A run of cells is written as two runs. -/
theorem overwrite_overwrite_append {cells l l' : List α} {i : ℕ}
    (h : i + (l.length + l'.length) ≤ cells.length) :
    overwrite (overwrite cells i l) (i + l.length) l' = overwrite cells i (l ++ l') := by
  refine List.ext_getElem? fun j => ?_
  rw [getElem?_overwrite (by rw [length_overwrite (by omega)]; omega),
    getElem?_overwrite (by omega), getElem?_overwrite (by rw [List.length_append]; omega),
    List.length_append, List.getElem?_append]
  split_ifs <;> first | rfl | omega | (congr 1; omega)

/-- A run of cells is written, and then those before it. -/
theorem overwrite_overwrite_prepend {cells l l' : List α} {i : ℕ}
    (h : i + (l.length + l'.length) ≤ cells.length) :
    overwrite (overwrite cells (i + l.length) l') i l = overwrite cells i (l ++ l') := by
  refine List.ext_getElem? fun j => ?_
  rw [getElem?_overwrite (by rw [length_overwrite (by omega)]; omega),
    getElem?_overwrite (by omega), getElem?_overwrite (by rw [List.length_append]; omega),
    List.length_append, List.getElem?_append]
  split_ifs <;> first | rfl | omega | (congr 1; omega)

/-- A run of cells may be written over itself. -/
theorem overwrite_window_self {cells : List α} {i n : ℕ} (h : i + n ≤ cells.length) :
    overwrite cells i (window cells i n) = cells := by
  refine List.ext_getElem? fun j => ?_
  rw [getElem?_overwrite (by rwa [length_window h]), length_window h, getElem?_window]
  split_ifs <;> first | rfl | omega | (congr 1; omega)

/-- A cell is written, and then those that follow it. -/
theorem overwrite_cons {cells l : List α} {i : ℕ} {a : α}
    (h : i + (l.length + 1) ≤ cells.length) :
    overwrite (overwrite cells i [a]) (i + 1) l = overwrite cells i (a :: l) := by
  refine overwrite_overwrite_append ?_
  rw [List.length_singleton]
  omega

/-- What was written is read back. -/
theorem window_overwrite_self {cells l : List α} {i : ℕ} (h : i + l.length ≤ cells.length) :
    window (overwrite cells i l) i l.length = l := by
  refine List.ext_getElem? fun j => ?_
  rw [getElem?_window, getElem?_overwrite h]
  split_ifs <;> try omega
  · congr 1
    omega
  · rw [List.getElem?_eq_none (by omega)]

/-- Cells written behind a run extend it. -/
theorem window_overwrite_append {cells l : List α} {i n : ℕ}
    (h : i + n + l.length ≤ cells.length) :
    window (overwrite cells (i + n) l) i (n + l.length) = window cells i n ++ l := by
  refine List.ext_getElem? fun j => ?_
  rw [getElem?_window, getElem?_overwrite h, List.getElem?_append, length_window (by omega),
    getElem?_window]
  split_ifs <;> first | rfl | omega | (congr 1; omega) | rw [List.getElem?_eq_none (by omega)]

/-- Cells written before a run extend it. -/
theorem window_overwrite_prepend {cells l : List α} {i n : ℕ}
    (h : i + l.length + n ≤ cells.length) :
    window (overwrite cells i l) i (l.length + n) = l ++ window cells (i + l.length) n := by
  refine List.ext_getElem? fun j => ?_
  rw [getElem?_window, getElem?_overwrite (by omega), List.getElem?_append, getElem?_window]
  split_ifs <;> first | rfl | omega | (congr 1; omega)

/-- Cells written inside a run replace a part of it. -/
theorem window_overwrite_within {cells l : List α} {i n j : ℕ} (hj : j + l.length ≤ n)
    (h : i + n ≤ cells.length) :
    window (overwrite cells (i + j) l) i n = overwrite (window cells i n) j l := by
  refine List.ext_getElem? fun k => ?_
  rw [getElem?_window, getElem?_overwrite (by omega),
    getElem?_overwrite (by rw [length_window h]; omega), getElem?_window]
  split_ifs <;> first | rfl | omega | (congr 1; omega)

/-- In a run of `n` cells, `d` from index `j` on are replaced by those of `l`: the rest of
the run moves first. -/
theorem window_splice {cells l : List α} {i n j d : ℕ} (hj : j + d ≤ n)
    (h : i + n ≤ cells.length) (h' : i + (n - d + l.length) ≤ cells.length) :
    window (overwrite (overwrite cells (i + (j + l.length)) (window cells (i + (j + d))
      (n - (j + d)))) (i + j) l) i (n - d + l.length) =
      (window cells i n).take j ++ l ++ (window cells i n).drop (j + d) := by
  have hlen : (window cells (i + (j + d)) (n - (j + d))).length = n - (j + d) :=
    length_window (by omega)
  have hlen' : (window cells i n).length = n := length_window h
  have htake : ((window cells i n).take j).length = j := by
    rw [List.length_take, hlen']
    omega
  refine List.ext_getElem? fun k => ?_
  rw [getElem?_window, getElem?_overwrite (by rw [length_overwrite (by omega)]; omega),
    getElem?_overwrite (by omega), getElem?_window, hlen, List.append_assoc,
    List.getElem?_append, htake, List.getElem?_append, List.getElem?_take,
    List.getElem?_drop, getElem?_window, getElem?_window]
  split_ifs <;> first | rfl | omega | (congr 1; omega)

theorem window_append (cells : List α) (i m n : ℕ) :
    window cells i m ++ window cells (i + m) n = window cells i (m + n) := by
  simp only [window, ← List.drop_drop]
  rw [List.take_add]

theorem window_one {cells : List α} {i : ℕ} (h : i < cells.length) :
    window cells i 1 = [cells[i]] := by
  refine List.ext_getElem? fun j => ?_
  rw [getElem?_window]
  rcases j with - | j
  · simp [h]
  · simp

/-- A memory of blocks. -/
abbrev Blocks (α : Type) : Type := ℕ → Option (List α)

namespace Blocks

variable {m : Blocks α} {b : ℕ} {cells : List α}

/-- Cell `i` of block `b`, if it exists. -/
def read (m : Blocks α) (b i : ℕ) : Option α := (m b).bind fun cells => cells[i]?

/-- `memcpy` from `n` cells of block `b`, if they exist. -/
def readAll (m : Blocks α) (b i n : ℕ) : Option (List α) :=
  (m b).bind fun cells => if i + n ≤ cells.length then some (window cells i n) else none

/-- The memory after `memcpy` to block `b`, if the cells exist. -/
def writeAll (m : Blocks α) (b i : ℕ) (l : List α) : Option (Blocks α) :=
  (m b).bind fun cells =>
    if i + l.length ≤ cells.length then some (Function.update m b (some (overwrite cells i l)))
    else none

/-- The memory after cell `i` of block `b` is written, if the cell exists. -/
def write (m : Blocks α) (b i : ℕ) (a : α) : Option (Blocks α) := writeAll m b i [a]

theorem read_eq (hb : m b = some cells) (i : ℕ) : read m b i = cells[i]? := by
  simp [read, hb]

theorem readAll_eq {i n : ℕ} (hb : m b = some cells) (h : i + n ≤ cells.length) :
    readAll m b i n = some (window cells i n) := by
  simp [readAll, hb, h]

theorem writeAll_eq {i : ℕ} {l : List α} (hb : m b = some cells)
    (h : i + l.length ≤ cells.length) :
    writeAll m b i l = some (Function.update m b (some (overwrite cells i l))) := by
  simp [writeAll, hb, h]

theorem write_eq {i : ℕ} {a : α} (hb : m b = some cells) (h : i < cells.length) :
    write m b i a = some (Function.update m b (some (overwrite cells i [a]))) :=
  writeAll_eq hb h

theorem readAll_eq_none {i n : ℕ} (hb : m b = some cells) (h : cells.length < i + n) :
    readAll m b i n = none := by
  simp [readAll, hb, h]

theorem writeAll_eq_none {i : ℕ} {l : List α} (hb : m b = some cells)
    (h : cells.length < i + l.length) : writeAll m b i l = none := by
  simp [writeAll, hb, h]

end Blocks

end Njs.Lib
