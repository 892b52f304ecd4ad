import Mathlib

/- Lists of rows in the order of their ranks, with room for a number of them.

   A new row goes in front of the first row it is ahead of; with the room used up,
   the last row falls out. What falls out has as many rows ahead of it as there is
   room (`ahead_of_lost`): that is all a caller needs to know to say that no row
   that matters is lost. A row that is there already is replaced or taken out where
   it stands. -/
namespace Ranked
open List

variable {α P : Type}

/-- A strict total order: the smaller rank stands ahead. -/
structure Ranking (r : P → P → Prop) : Prop where
  irrefl : ∀ a, ¬ r a a
  trans : ∀ {a b c}, r a b → r b c → r a c
  total : ∀ a b, r a b ∨ a = b ∨ r b a

section ranked
variable {key : α → P} {r : P → P → Prop} {l front back : List α} {x y : α} {cap : Nat}

variable (key r l) in
def Sorted : Prop := l.Pairwise fun x y => r (key x) (key y)

theorem Sorted.keys_nodup (hr : Ranking r) (h : Sorted key r l) : (l.map key).Nodup := by
  apply pairwise_map.mpr
  refine h.imp ?_
  intro a b hab heq
  rw [heq] at hab
  exact hr.irrefl _ hab

section inOrder
variable [DecidableRel r]

/-- The row in front of the first one it is ahead of, at the end where there is none. -/
def inOrder (key : α → P) (r : P → P → Prop) [DecidableRel r] (x : α) (l : List α) : List α :=
  l.orderedInsert (fun x y => r (key x) (key y)) x

theorem mem_inOrder : y ∈ inOrder key r x l ↔ y = x ∨ y ∈ l := mem_orderedInsert _

theorem Sorted.inOrder (hr : Ranking r) (h : Sorted key r l) (hnew : ∀ y ∈ l, key y ≠ key x) :
    Sorted key r (inOrder key r x l) := by
  induction l with
  | nil => exact pairwise_singleton _ _
  | cons y l ih =>
    have htail := pairwise_cons.mp h
    unfold Ranked.inOrder
    rw [orderedInsert]
    split
    · next hahead =>
      refine pairwise_cons.mpr ⟨?_, h⟩
      intro z hz
      rcases mem_cons.mp hz with rfl | hz
      · exact hahead
      · exact hr.trans hahead (htail.1 z hz)
    · next hbehind =>
      refine pairwise_cons.mpr ⟨?_, ih htail.2 (fun z hz => hnew z (mem_cons_of_mem _ hz))⟩
      intro z hz
      rcases mem_inOrder.mp hz with rfl | hz
      · exact ((hr.total (key z) (key y)).resolve_left hbehind).resolve_left (hnew y mem_cons_self).symm
      · exact htail.1 z hz

theorem inOrder_eq_insertIdx : inOrder key r x l = l.insertIdx (l.findIdx (fun y => r (key x) (key y))) x := by
  induction l with
  | nil => rfl
  | cons y l ih =>
    unfold inOrder at ih ⊢
    rw [orderedInsert, findIdx_cons]
    split
    · next h => simp [h]
    · next h => simp [h, ih]

end inOrder

theorem ahead_of_lost (h : Sorted key r l) (hy : y ∈ l) (hlost : y ∉ l.take cap) :
    (l.take cap).length = cap ∧ ∀ z ∈ l.take cap, r (key z) (key y) := by
  have hdrop : y ∈ l.drop cap := by
    rw [← take_append_drop cap l] at hy
    exact (mem_append.mp hy).resolve_left hlost
  constructor
  · apply length_take_of_le
    by_contra hshort
    rw [drop_of_length_le (by omega)] at hdrop
    cases hdrop
  · intro z hz
    rw [Sorted, ← take_append_drop cap l, pairwise_append] at h
    exact h.2.2 z hz y hdrop

theorem Sorted.take (h : Sorted key r l) : Sorted key r (l.take cap) := List.Pairwise.sublist (take_sublist _ _) h

/-! A row in its place, `front ++ x :: back`. -/

theorem Sorted.replace (h : Sorted key r (front ++ x :: back)) (hkey : key y = key x) :
    Sorted key r (front ++ y :: back) := by
  simp only [Sorted, pairwise_append, pairwise_cons, forall_mem_cons, hkey] at h ⊢
  exact h

theorem Sorted.remove (h : Sorted key r (front ++ x :: back)) : Sorted key r (front ++ back) := by
  refine List.Pairwise.sublist ?_ h
  exact List.Sublist.append_left (sublist_cons_self _ _) _

theorem Sorted.key_ne (hr : Ranking r) (h : Sorted key r (front ++ x :: back)) (hy : y ∈ front ++ back) :
    key y ≠ key x := by
  simp only [Sorted, pairwise_append, pairwise_cons, forall_mem_cons] at h
  intro heq
  rcases mem_append.mp hy with hy | hy
  · exact hr.irrefl _ (heq ▸ (h.2.2 y hy).1)
  · exact hr.irrefl _ (heq ▸ h.2.1.1 y hy)

end ranked

end Ranked
