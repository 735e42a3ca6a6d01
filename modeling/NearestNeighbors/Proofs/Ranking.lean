import Mathlib.Data.Finset.Card
import Mathlib.Data.List.Nodup
import Mathlib.Order.Defs.LinearOrder
import NearestNeighbors.Proofs.Matrix
import NearestNeighbors.Proofs.Selection

/-!
# Rankings

The positions of a list of keys have one order in which smaller keys come first, and of equal
keys those further to the front. Sorting finds it. Its first `k` positions are the only `k`
positions that come before all others, whatever keys are equal.

* `Before`, `Ranking`: the order of two positions and of all of them.
* `ranking_sorted`, `Ranking.unique`: sorting makes the ranking, and it is the only one.
* `Ranking.of_map`: keys that are changed but keep their order.
* `Foremost`: a set of positions that come before all others.
* `smallest_foremost`, `Foremost.unique`: the smallest keys, and no other set.
* `Foremost.le_sorted`, `Foremost.sorted_le`: where the sorted keys are cut.
* `Foremost.select`, `Foremost.append`: keys that are selected, and keys that come after them.
-/

namespace NearestNeighbors

variable {α β : Type} [LinearOrder α] [LinearOrder β] {keys : List α} {order order' : List ℕ}
  {i j k : ℕ}

/-! ## The order of positions -/

/-- Position `i` comes before position `j`: its key is smaller, or equal and further to the
front. -/
def Before (keys : List α) (i j : ℕ) : Prop :=
  ∃ a b, keys[i]? = some a ∧ keys[j]? = some b ∧ (a < b ∨ a = b ∧ i < j)

theorem Before.asymm (h : Before keys i j) : ¬ Before keys j i := by
  obtain ⟨a, b, ha, hb, h⟩ := h
  rintro ⟨b', a', hb', ha', h'⟩
  cases ha.symm.trans ha'
  cases hb.symm.trans hb'
  rcases h with hlt | ⟨rfl, hij⟩
  · rcases h' with hlt' | ⟨rfl, -⟩
    · exact lt_asymm hlt hlt'
    · exact lt_irrefl _ hlt
  · rcases h' with hlt' | ⟨-, hji⟩
    · exact lt_irrefl _ hlt'
    · omega

/-- **A ranking**: all positions, each before those after it. -/
structure Ranking (keys : List α) (order : List ℕ) : Prop where
  perm : order.Perm (List.range keys.length)
  sorted : order.Pairwise (Before keys)

/-- **There is one ranking.** -/
theorem Ranking.unique (h : Ranking keys order) (h' : Ranking keys order') : order = order' := by
  apply List.Perm.eq_of_pairwise _ h.sorted h'.sorted (h.perm.trans h'.perm.symm)
  intro i j _ _ hij hji
  exact absurd hji hij.asymm

/-- Keys that are changed but keep their order have the same ranking. -/
theorem Ranking.of_map {f : α → β} (hf : ∀ a ∈ keys, ∀ b ∈ keys, f a < f b ↔ a < b)
    (h : Ranking (keys.map f) order) : Ranking keys order := by
  refine ⟨by simpa using h.perm, h.sorted.imp ?_⟩
  rintro i j ⟨a', b', ha', hb', hab⟩
  rw [List.getElem?_map, Option.map_eq_some_iff] at ha' hb'
  obtain ⟨a, ha, rfl⟩ := ha'
  obtain ⟨b, hb, rfl⟩ := hb'
  have hmem := List.mem_of_getElem? ha
  have hmem' := List.mem_of_getElem? hb
  refine ⟨a, b, ha, hb, hab.imp (hf a hmem b hmem').1 ?_⟩
  rintro ⟨heq, hij⟩
  -- neither key is smaller, so they are equal
  have hle : ¬ a < b := by
    intro hlt
    exact ((hf a hmem b hmem').2 hlt).ne heq
  have hge : ¬ b < a := by
    intro hlt
    exact ((hf b hmem' a hmem).2 hlt).ne' heq
  exact ⟨le_antisymm (not_lt.1 hge) (not_lt.1 hle), hij⟩

/-! ## Sorting -/

theorem keyLe_iff {a b : Int × ℕ} : keyLe a b = true ↔ a.1 < b.1 ∨ a.1 = b.1 ∧ a.2 ≤ b.2 := by
  unfold keyLe
  simp

/-- **Sorting makes the ranking.** -/
theorem ranking_sorted (keys : List Int) : Ranking keys (sortedPositions keys) := by
  refine ⟨sortedPositions_perm keys, ?_⟩
  have hle : (keys.zipIdx.mergeSort keyLe).Pairwise fun a b => keyLe a b = true := by
    apply List.pairwise_mergeSort
    · intro a b c hab hbc
      rw [keyLe_iff] at *
      omega
    · intro a b
      rw [Bool.or_eq_true, keyLe_iff, keyLe_iff]
      omega
  have hnodup : (keys.zipIdx.mergeSort keyLe).Pairwise fun a b => a.2 ≠ b.2 :=
    List.pairwise_map.1 ((sortedPositions_perm keys).nodup_iff.2 List.nodup_range)
  unfold sortedPositions
  rw [List.pairwise_map]
  apply (hle.and hnodup).imp_of_mem
  rintro ⟨a, i⟩ ⟨b, j⟩ ha hb ⟨hkey, hne⟩
  have hi := List.mk_mem_zipIdx_iff_getElem?.1 ((List.mergeSort_perm _ _).mem_iff.1 ha)
  have hj := List.mk_mem_zipIdx_iff_getElem?.1 ((List.mergeSort_perm _ _).mem_iff.1 hb)
  rw [keyLe_iff] at hkey
  dsimp only at hkey hne ⊢
  exact ⟨a, b, hi, hj, by omega⟩

/-! ## The foremost positions -/

/-- **The foremost positions**: `k` of them, and each comes before every other position. -/
structure Foremost (keys : List α) (k : ℕ) (N : Finset ℕ) : Prop where
  lt_length : ∀ i ∈ N, i < keys.length
  card_eq : N.card = k
  before : ∀ i ∈ N, ∀ j < keys.length, j ∉ N → Before keys i j

/-- **No other set of as many positions** is foremost. -/
theorem Foremost.unique {N N' : Finset ℕ} (h : Foremost keys k N) (h' : Foremost keys k N') :
    N' = N := by
  have hcard : N.card ≤ N'.card := (h.card_eq.trans h'.card_eq.symm).le
  apply Finset.eq_of_subset_of_card_le _ hcard
  intro j hj'
  by_contra hj
  -- then a position of the one is missing in the other, and each comes before the other
  obtain ⟨i, hi, hi'⟩ : ∃ i ∈ N, i ∉ N' := by
    by_contra hnone
    push Not at hnone
    have heq : N = N' := Finset.eq_of_subset_of_card_le hnone
      (h'.card_eq.trans h.card_eq.symm).le
    exact hj (heq ▸ hj')
  have hij := h.before i hi j (h'.lt_length j hj') hj
  exact hij.asymm (h'.before j hj' i (h.lt_length i hi) hi')

/-- The first positions of a ranking are foremost. -/
theorem Ranking.foremost (h : Ranking keys order) (hk : k ≤ keys.length) :
    Foremost keys k (order.take k).toFinset := by
  have hlen : order.length = keys.length := by rw [h.perm.length_eq, List.length_range]
  have hnodup : order.Nodup := h.perm.nodup_iff.2 List.nodup_range
  refine ⟨fun i hi => ?_, ?_, fun i hi j hj hnot => ?_⟩
  · have hmem := List.mem_of_mem_take (List.mem_toFinset.1 hi)
    exact List.mem_range.1 (h.perm.mem_iff.1 hmem)
  · rw [List.toFinset_card_of_nodup (hnodup.sublist (List.take_sublist ..)), List.length_take,
      hlen]
    exact Nat.min_eq_left hk
  · rw [List.mem_toFinset] at hi hnot
    have hmem : j ∈ order := h.perm.mem_iff.2 (List.mem_range.2 hj)
    have hsorted := h.sorted
    rw [← List.take_append_drop k order] at hmem hsorted
    exact (List.pairwise_append.1 hsorted).2.2 i hi j ((List.mem_append.1 hmem).resolve_left hnot)

/-- **The smallest keys** are at the foremost positions. -/
theorem smallest_foremost {keys : List Int} (hk : k ≤ keys.length) :
    Foremost keys k (smallest k keys).toFinset := by
  rw [smallest_eq_take]
  exact (ranking_sorted keys).foremost hk

/-! ## Sorted keys -/

/-- **A ranking puts the keys in order.** -/
theorem Ranking.pairwise_le {sorted : List α} (h : Ranking keys order)
    (hs : selectAt keys order = .ok sorted) : sorted.Pairwise (· ≤ ·) := by
  have hkeys : (order.map (keys[·]?)).Pairwise fun x y => ∀ a ∈ x, ∀ b ∈ y, a ≤ b := by
    rw [List.pairwise_map]
    apply h.sorted.imp
    rintro i j ⟨a, b, ha, hb, hab⟩ a' ha' b' hb'
    cases ha.symm.trans ha'
    cases hb.symm.trans hb'
    rcases hab with hlt | ⟨rfl, -⟩
    · exact hlt.le
    · exact le_rfl
  rw [selectAt_eq_ok.1 hs, List.pairwise_map] at hkeys
  exact hkeys.imp fun hab => hab _ rfl _ rfl

/-- Keys in order are those of a ranking, one by one. -/
theorem Ranking.selectAt_order {sorted : List α} (h : Ranking keys order)
    (hperm : sorted.Perm keys) (hsorted : sorted.Pairwise (· ≤ ·)) :
    selectAt keys order = .ok sorted := by
  obtain ⟨keys', hkeys⟩ := selectAt_of_lt fun i hi => List.mem_range.1 (h.perm.mem_iff.1 hi)
  have heq : keys' = sorted := by
    apply List.Perm.eq_of_pairwise _ (h.pairwise_le hkeys) hsorted
    · exact (selectAt_perm h.perm hkeys).trans hperm.symm
    · intro a b _ _
      exact le_antisymm
  rw [hkeys, heq]

theorem le_of_pairwise {sorted : List α} (h : sorted.Pairwise (· ≤ ·)) {a b : α}
    (ha : sorted[i]? = some a) (hb : sorted[j]? = some b) (hij : i ≤ j) : a ≤ b := by
  rcases hij.lt_or_eq with hlt | rfl
  · obtain ⟨hi, rfl⟩ := List.getElem?_eq_some_iff.1 ha
    obtain ⟨hj, rfl⟩ := List.getElem?_eq_some_iff.1 hb
    exact List.pairwise_iff_getElem.1 h i j hi hj hlt
  · cases ha.symm.trans hb
    exact le_rfl

variable {N : Finset ℕ} {sorted : List ℤ} {a b : ℤ}

/-- The foremost positions are those in front of the cut. -/
theorem Foremost.eq_take {keys : List ℤ} (h : Foremost keys k N) :
    N = ((sortedPositions keys).take k).toFinset := by
  have hle : k ≤ keys.length := by
    have hsub : N ⊆ Finset.range keys.length := fun i hi => Finset.mem_range.2 (h.lt_length i hi)
    have hcard := Finset.card_le_card hsub
    rwa [h.card_eq, Finset.card_range] at hcard
  exact ((ranking_sorted keys).foremost hle).unique h

/-- **In front of the cut** no key is above the last one there. -/
theorem Foremost.le_sorted {keys : List ℤ} (h : Foremost keys k N) (hperm : sorted.Perm keys)
    (hsorted : sorted.Pairwise (· ≤ ·)) (hi : i ∈ N) (ha : keys[i]? = some a)
    (hb : sorted[k - 1]? = some b) : a ≤ b := by
  have horder := (ranking_sorted keys).selectAt_order hperm hsorted
  rw [h.eq_take, List.mem_toFinset] at hi
  obtain ⟨r, hr, hri⟩ := List.mem_take_iff_getElem.1 hi
  obtain ⟨a', ha', hia⟩ := getElem?_selectAt horder (List.getElem?_eq_some_iff.2 ⟨by omega, hri⟩)
  cases ha.symm.trans hia
  exact le_of_pairwise hsorted ha' hb (by omega)

/-- **Behind the cut** no key is below the first one there. -/
theorem Foremost.sorted_le {keys : List ℤ} (h : Foremost keys k N) (hperm : sorted.Perm keys)
    (hsorted : sorted.Pairwise (· ≤ ·)) (hi : i ∉ N) (ha : keys[i]? = some a)
    (hb : sorted[k]? = some b) : b ≤ a := by
  have horder := (ranking_sorted keys).selectAt_order hperm hsorted
  have hlt : i < keys.length := (List.getElem?_eq_some_iff.1 ha).1
  have hmem : i ∈ sortedPositions keys := (sortedPositions_perm keys).mem_iff.2 (List.mem_range.2 hlt)
  obtain ⟨r, hr⟩ := List.mem_iff_getElem?.1 hmem
  obtain ⟨a', ha', hia⟩ := getElem?_selectAt horder hr
  cases ha.symm.trans hia
  refine le_of_pairwise hsorted hb ha' ?_
  by_contra hlt
  apply hi
  rw [h.eq_take, List.mem_toFinset]
  refine List.mem_of_getElem? (i := r) ?_
  rw [List.getElem?_take_of_lt (not_le.1 hlt), hr]

/-! ## Other keys -/

/-- **Keys that are selected**: the foremost positions go with their keys, when all of them are
selected, and when equal keys keep their order where one of them is foremost and the other is
not. -/
theorem Foremost.select {keys' : List α} (h : Foremost keys k N)
    (hkeys : selectAt keys order = .ok keys') (hnodup : order.Nodup) (hmem : ∀ i ∈ N, i ∈ order)
    (hties : ∀ i ∈ N, ∀ j ∈ order, j ∉ N → keys[i]? = keys[j]? → i < j →
      order.idxOf i < order.idxOf j) :
    Foremost keys' k (N.image (order.idxOf ·)) := by
  refine ⟨fun r hr => ?_, ?_, fun r hr s hs hnot => ?_⟩
  · obtain ⟨i, hi, rfl⟩ := Finset.mem_image.1 hr
    rw [length_selectAt hkeys]
    exact List.idxOf_lt_length_of_mem (hmem i hi)
  · rw [← h.card_eq]
    apply Finset.card_image_of_injOn
    intro i hi j _ heq
    exact (List.idxOf_inj (hmem i hi)).1 heq
  · obtain ⟨i, hi, rfl⟩ := Finset.mem_image.1 hr
    rw [length_selectAt hkeys] at hs
    obtain ⟨j, hj⟩ : ∃ j, order[s]? = some j := ⟨_, List.getElem?_eq_getElem hs⟩
    have hidx : order.idxOf j = s := by
      obtain ⟨hlt, rfl⟩ := List.getElem?_eq_some_iff.1 hj
      exact hnodup.idxOf_getElem s hlt
    have hjN : j ∉ N := fun hjN => hnot (Finset.mem_image.2 ⟨j, hjN, hidx⟩)
    obtain ⟨b', hb', hjb⟩ := getElem?_selectAt hkeys hj
    obtain ⟨a', ha', hia⟩ := getElem?_selectAt hkeys (List.getElem?_idxOf (hmem i hi))
    have hlt : j < keys.length := (List.getElem?_eq_some_iff.1 hjb).1
    obtain ⟨a, b, ha, hb, hab⟩ := h.before i hi j hlt hjN
    cases ha.symm.trans hia
    cases hb.symm.trans hjb
    refine ⟨_, _, ha', hb', hab.imp id ?_⟩
    rintro ⟨rfl, hij⟩
    rw [← hidx]
    exact ⟨rfl, hties i hi j (List.mem_of_getElem? hj) hjN (ha.trans hb.symm) hij⟩

/-- **Keys that come after them**: none of the foremost positions is lost to a key that is not
smaller. -/
theorem Foremost.append {more : List α} (h : Foremost keys k N)
    (hmore : ∀ i ∈ N, ∀ a, keys[i]? = some a → ∀ b ∈ more, a ≤ b) :
    Foremost (keys ++ more) k N := by
  refine ⟨fun i hi => ?_, h.card_eq, fun i hi j hj hnot => ?_⟩
  · rw [List.length_append]
    exact Nat.lt_add_right _ (h.lt_length i hi)
  · have hlt := h.lt_length i hi
    by_cases hold : j < keys.length
    · obtain ⟨a, b, ha, hb, hab⟩ := h.before i hi j hold hnot
      refine ⟨a, b, ?_, ?_, hab⟩
      · rwa [List.getElem?_append_left hlt]
      · rwa [List.getElem?_append_left hold]
    · -- the key at `j` is a later one
      have ha := List.getElem?_eq_getElem hlt
      have hb := List.getElem?_eq_getElem hj
      have hbmem := hb
      rw [List.getElem?_append_right (not_lt.1 hold)] at hbmem
      refine ⟨_, _, (List.getElem?_append_left hlt).trans ha, hb, ?_⟩
      rcases (hmore i hi _ ha _ (List.mem_of_getElem? hbmem)).lt_or_eq with hab | hab
      · exact .inl hab
      · exact .inr ⟨hab, by omega⟩

end NearestNeighbors
