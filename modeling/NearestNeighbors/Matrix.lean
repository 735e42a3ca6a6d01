import NearestNeighbors.Error
import NearestNeighbors.Except

/-!
# Matrices

A matrix is a list of rows of one length. The number of columns is kept apart, because
a matrix without rows has columns too.

* `entry`, `selectAt`: what a list has at a position and at many; a position outside the
  list is a failure.
* `Matrix.select`: the rows at given positions, in the order of the positions.
-/

namespace NearestNeighbors

/-- Rows of `cols` entries each. -/
structure Matrix where
  cols : Nat
  rows : List (List Float)
  length_row : ∀ row ∈ rows, row.length = cols

namespace Matrix

/-- A matrix is its columns and its rows. -/
@[ext] theorem ext {a b : Matrix} (hc : a.cols = b.cols) (hr : a.rows = b.rows) : a = b := by
  cases a; cases b; cases hc; cases hr; rfl

/-- The matrix with the given rows, if each has `cols` entries. -/
def ofRows? (cols : Nat) (rows : List (List Float)) : Option Matrix :=
  if h : ∀ row ∈ rows, row.length = cols then some ⟨cols, rows, h⟩ else none

/-- The number of rows. -/
def size (a : Matrix) : Nat := a.rows.length

end Matrix

/-- The element of `l` at position `i`. -/
def entry {α : Type} (l : List α) (i : Nat) : Except Failure α :=
  match l[i]? with
  | some a => .ok a
  | none => .error .outOfRange

theorem entry_eq_ok {α : Type} {l : List α} {i : Nat} {a : α} :
    entry l i = .ok a ↔ l[i]? = some a := by
  unfold entry
  split <;> simp_all

/-- The elements of `l` at the positions `indices`, in the order of the positions. -/
def selectAt {α : Type} (l : List α) (indices : List Nat) : Except Failure (List α) :=
  indices.mapM (entry l)

theorem selectAt_eq_ok {α : Type} {l : List α} {indices : List Nat} {selected : List α} :
    selectAt l indices = .ok selected ↔ indices.map (l[·]?) = selected.map some := by
  rw [selectAt, mapM_eq_ok]
  induction indices generalizing selected with
  | nil => cases selected <;> simp
  | cons i indices ih => cases selected <;> simp [entry_eq_ok, ih]

/-- What is selected comes from the list. -/
theorem mem_of_mem_selectAt {α : Type} {l : List α} {indices : List Nat} {selected : List α}
    {a : α} (h : selectAt l indices = .ok selected) (ha : a ∈ selected) : a ∈ l := by
  have hmem : some a ∈ indices.map (l[·]?) := by
    rw [selectAt_eq_ok.1 h]
    exact List.mem_map_of_mem ha
  obtain ⟨i, -, hi⟩ := List.mem_map.1 hmem
  exact List.mem_of_getElem? hi

theorem length_selectAt {α : Type} {l : List α} {indices : List Nat} {selected : List α}
    (h : selectAt l indices = .ok selected) : selected.length = indices.length := by
  have hlen := congrArg List.length (selectAt_eq_ok.1 h)
  rw [List.length_map, List.length_map] at hlen
  exact hlen.symm

/-- Positions inside the list are all found. -/
theorem selectAt_of_lt {α : Type} {l : List α} {indices : List Nat}
    (h : ∀ i ∈ indices, i < l.length) : ∃ selected, selectAt l indices = .ok selected := by
  obtain ⟨selected, hsel, -⟩ := mapM_ok_of_forall (P := fun _ => True) fun i hi =>
    ⟨l.get ⟨i, h i hi⟩, entry_eq_ok.2 (List.getElem?_eq_getElem (h i hi)), trivial⟩
  exact ⟨selected, hsel⟩

/-- The rows at the positions `indices`. -/
def Matrix.select (a : Matrix) (indices : List Nat) : Except Failure Matrix :=
  match h : selectAt a.rows indices with
  | .ok rows => .ok ⟨a.cols, rows, fun row hr => a.length_row row (mem_of_mem_selectAt h hr)⟩
  | .error e => .error e

end NearestNeighbors
