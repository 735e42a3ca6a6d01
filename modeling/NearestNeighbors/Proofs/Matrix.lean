import Mathlib.Data.List.Perm.Basic
import NearestNeighbors.Matrix

/-!
# What a selection holds

A selection is a list of its own: element `r` is the one at position `r` of the indices.
Selections from two lists at one row of indices can be zipped, selections at two rows of
indices can be appended, and a selection at all positions in some order is the list in
some order.

* `getElem?_selectAt`: the elements one by one.
* `selectAt_zip`, `selectAt_append`: two lists, two rows of indices.
* `selectAt_map`: elements that are changed.
* `selectAt_perm`: all positions.
-/

namespace NearestNeighbors

variable {α β : Type} {l selected : List α} {indices : List Nat}

theorem getElem?_selectAt (h : selectAt l indices = .ok selected) {r i : Nat}
    (hi : indices[r]? = some i) : ∃ a, selected[r]? = some a ∧ l[i]? = some a := by
  have hr := congrArg (·[r]?) (selectAt_eq_ok.1 h)
  simp only [List.getElem?_map, hi, Option.map_some] at hr
  cases hs : selected[r]? with
  | none =>
    rw [hs] at hr
    cases hr
  | some a =>
    rw [hs] at hr
    exact ⟨a, rfl, Option.some.inj hr⟩

theorem selectAt_zip {l' selected' : List β} (h : selectAt l indices = .ok selected)
    (h' : selectAt l' indices = .ok selected') :
    selectAt (l.zip l') indices = .ok (selected.zip selected') := by
  have hlen : selected.length = selected'.length :=
    (length_selectAt h).trans (length_selectAt h').symm
  rw [selectAt_eq_ok]
  apply List.ext_getElem?
  intro r
  rw [List.getElem?_map, List.getElem?_map]
  cases hi : indices[r]? with
  | none =>
    -- behind the last index both lists have come to their end
    have hr : selected.length ≤ r := by
      rw [length_selectAt h]
      exact List.getElem?_eq_none_iff.1 hi
    rw [List.getElem?_eq_none (by rw [List.length_zip]; omega)]
    rfl
  | some i =>
    obtain ⟨a, ha, hla⟩ := getElem?_selectAt h hi
    obtain ⟨b, hb, hlb⟩ := getElem?_selectAt h' hi
    have hzip : (selected.zip selected')[r]? = some (a, b) :=
      List.getElem?_zip_eq_some.2 ⟨ha, hb⟩
    have hzip' : (l.zip l')[i]? = some (a, b) := List.getElem?_zip_eq_some.2 ⟨hla, hlb⟩
    rw [hzip, Option.map_some, Option.map_some, hzip']

/-- Elements may be changed before a selection or after it. -/
theorem selectAt_map (f : α → β) (h : selectAt l indices = .ok selected) :
    selectAt (l.map f) indices = .ok (selected.map f) := by
  rw [selectAt_eq_ok] at h ⊢
  calc indices.map ((l.map f)[·]?)
      = (indices.map (l[·]?)).map (Option.map f) := by simp [Function.comp_def]
    _ = (selected.map f).map some := by simp [h, Function.comp_def]

theorem selectAt_append {indices' : List Nat} {selected' : List α}
    (h : selectAt l indices = .ok selected) (h' : selectAt l indices' = .ok selected') :
    selectAt l (indices ++ indices') = .ok (selected ++ selected') := by
  rw [selectAt_eq_ok, List.map_append, List.map_append, selectAt_eq_ok.1 h, selectAt_eq_ok.1 h']

/-- **All positions in some order** select the whole list in some order. -/
theorem selectAt_perm (hp : indices.Perm (List.range l.length))
    (h : selectAt l indices = .ok selected) : selected.Perm l := by
  have hrange : (List.range l.length).map (l[·]?) = l.map some := by
    apply List.ext_getElem?
    intro r
    rw [List.getElem?_map, List.getElem?_map]
    by_cases hr : r < l.length
    · rw [List.getElem?_range hr, List.getElem?_eq_getElem hr]
      exact congrArg some (List.getElem?_eq_getElem hr)
    · rw [List.getElem?_eq_none (by rw [List.length_range]; omega),
        List.getElem?_eq_none (by omega)]
      rfl
  -- looking up all positions in order gives the list itself
  have hmap := hp.map (l[·]?)
  rw [selectAt_eq_ok.1 h, hrange] at hmap
  exact (List.map_perm_map_iff (fun _ _ => Option.some.inj)).1 hmap

/-- The rows of a selection are selected and its columns stay. -/
theorem Matrix.select_eq_ok {a b : Matrix} :
    a.select indices = .ok b ↔ b.cols = a.cols ∧ selectAt a.rows indices = .ok b.rows := by
  unfold Matrix.select
  constructor
  · split
    · rename_i rows h
      intro hb
      cases hb
      exact ⟨rfl, h⟩
    · intro hb
      cases hb
  · rintro ⟨hcols, hrows⟩
    split
    · rename_i rows h
      refine congrArg Except.ok (Matrix.ext hcols.symm ?_)
      exact Except.ok.inj (h.symm.trans hrows)
    · rename_i e h
      cases h.symm.trans hrows

end NearestNeighbors
