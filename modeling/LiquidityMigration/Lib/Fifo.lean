import Mathlib

/- Serving an amount from a list of holdings, first come first served: each takes
   as much as is left of the amount and no more than it holds, until nothing is
   left. The takes add up to the amount wherever the holdings do (`left_eq_zero`),
   and all but the last are whole holdings (`take_dropLast`). -/
namespace Fifo
open List

variable {α K : Type} [AddCommGroup K] [LinearOrder K]

def take : List (α × K) → K → List (α × K)
  | [], _ => []
  | (a, held) :: rest, remaining =>
    if remaining = 0 then [] else (a, min remaining held) :: take rest (remaining - min remaining held)

def left : List (α × K) → K → K
  | [], remaining => remaining
  | (_, held) :: rest, remaining =>
    if remaining = 0 then 0 else left rest (remaining - min remaining held)

theorem sum_take (l : List (α × K)) (r : K) : ((take l r).map Prod.snd).sum + left l r = r := by
  induction l generalizing r with
  | nil => simp [take, left]
  | cons h l ih =>
    simp only [take, left]
    split
    · next h0 => simp [h0]
    · simp only [map_cons, sum_cons]
      rw [add_assoc, ih, add_sub_cancel]

theorem take_names (l : List (α × K)) (r : K) : (take l r).map Prod.fst <+: l.map Prod.fst := by
  induction l generalizing r with
  | nil => simp [take]
  | cons h l ih =>
    simp only [take]
    split
    · simp
    · simp only [map_cons, cons_prefix_cons, true_and]
      exact ih _

variable {l : List (α × K)}

theorem take_le {r : K} : ∀ t ∈ take l r, ∃ h ∈ l, h.1 = t.1 ∧ t.2 ≤ h.2 := by
  induction l generalizing r with
  | nil => simp [take]
  | cons h l ih =>
    intro t ht
    simp only [take] at ht
    split at ht
    · cases ht
    · obtain rfl | ht := mem_cons.mp ht
      · exact ⟨h, by simp, rfl, min_le_right _ _⟩
      · obtain ⟨h', hmem, heq⟩ := ih t ht
        exact ⟨h', by simp [hmem], heq⟩

variable [IsOrderedAddMonoid K]

theorem left_eq_zero {r : K} (hl : ∀ h ∈ l, 0 ≤ h.2) (h0 : 0 ≤ r) (hr : r ≤ (l.map Prod.snd).sum) : left l r = 0 := by
  induction l generalizing r with
  | nil => exact le_antisymm (by simpa [left] using hr) h0
  | cons h l ih =>
    simp only [left]
    split
    · rfl
    · apply ih (fun h' hmem => hl h' (by simp [hmem])) (sub_nonneg.mpr (min_le_left _ _))
      rw [map_cons, sum_cons] at hr
      have hrest : 0 ≤ (l.map Prod.snd).sum := by
        apply sum_nonneg
        intro x hx
        obtain ⟨h', hmem, rfl⟩ := mem_map.mp hx
        exact hl h' (by simp [hmem])
      rcases min_choice r h.2 with hm | hm
      · rw [hm, sub_self]
        exact hrest
      · rw [hm, sub_le_iff_le_add']
        exact hr

theorem take_pos {r : K} (hl : ∀ h ∈ l, 0 < h.2) (h0 : 0 ≤ r) : ∀ t ∈ take l r, 0 < t.2 := by
  induction l generalizing r with
  | nil => simp [take]
  | cons h l ih =>
    intro t ht
    simp only [take] at ht
    split at ht
    · cases ht
    · next hne =>
      obtain rfl | ht := mem_cons.mp ht
      · exact lt_min (lt_of_le_of_ne h0 (Ne.symm hne)) (hl h (by simp))
      · exact ih (fun h' hmem => hl h' (by simp [hmem])) (sub_nonneg.mpr (min_le_left _ _)) t ht

theorem take_dropLast {r : K} (hl : ∀ h ∈ l, 0 ≤ h.2) (h0 : 0 ≤ r) : ∀ t ∈ (take l r).dropLast, t ∈ l := by
  induction l generalizing r with
  | nil => simp [take]
  | cons h l ih =>
    intro t ht
    simp only [take] at ht
    split at ht
    · cases ht
    · have hrest := fun t => ih (fun h' hmem => hl h' (by simp [hmem]))
        (sub_nonneg.mpr (min_le_left r h.2)) t
      cases hnext : take l (r - min r h.2) with
      | nil =>
        rw [hnext] at ht
        cases ht
      | cons s rest =>
        rw [hnext, dropLast_cons_cons] at ht
        rw [hnext] at hrest
        obtain rfl | ht := mem_cons.mp ht
        · -- something is left for the next, so this one gave all it holds
          have hne : r - min r h.2 ≠ 0 := by
            intro hz
            cases l with
            | nil => cases hnext
            | cons h' l =>
              simp only [take, hz, if_true] at hnext
              cases hnext
          rcases min_choice r h.2 with hm | hm
          · rw [hm, sub_self] at hne
            exact absurd rfl hne
          · rw [hm]
            simp
        · exact mem_cons_of_mem _ (hrest t ht)

end Fifo
