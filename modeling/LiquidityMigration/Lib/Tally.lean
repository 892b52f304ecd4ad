import LiquidityMigration.Lib.Table

/- Tables of counts: how often each key has been added and not removed, with no row for
   a key whose count is zero. A tally is determined by its counts (`ext_count`), so two
   that count the same things are the same table.

   `Counts` is how a tally is used as an index: it counts the keys that the rows of
   another table give. `Counts.replace` is its one step, a row that takes another's
   place. -/

abbrev Tally (κ : Type) [LinearOrder κ] := Table (Prod.fst : κ × ℕ+ → κ)

namespace Tally
open Table

variable {κ : Type} [LinearOrder κ] {t t' : Tally κ} {k k' : κ}

instance : DecidableEq (Tally κ) := inferInstanceAs (DecidableEq (Table (Prod.fst : κ × ℕ+ → κ)))

def count (t : Tally κ) (k : κ) : ℕ :=
  match t.get? k with
  | some row => row.2
  | none => 0

def add (t : Tally κ) (k : κ) : Tally κ :=
  match t.get? k with
  | some row => t.put (k, row.2 + 1)
  | none => t.put (k, 1)

def remove (t : Tally κ) (k : κ) : Tally κ :=
  match t.get? k with
  | some row => if 1 < row.2 then t.put (k, row.2 - 1) else t.erase k
  | none => t

theorem count_put {n : ℕ+} : count (t.put (k, n)) k' = if k = k' then (n : ℕ) else t.count k' := by
  unfold count
  rw [get?_put]
  by_cases h : k = k'
  · simp [h]
  · simp [h]

theorem count_erase : count (t.erase k) k' = if k = k' then 0 else t.count k' := by
  unfold count
  rw [get?_erase]
  by_cases h : k = k'
  · simp [h]
  · simp [h]

theorem count_of_get? {row : κ × ℕ+} (h : t.get? k = some row) : t.count k = row.2 := by
  unfold count
  rw [h]

theorem count_of_get?_none (h : t.get? k = none) : t.count k = 0 := by
  unfold count
  rw [h]

theorem count_add : (t.add k).count k' = t.count k' + if k = k' then 1 else 0 := by
  unfold add
  split
  · next row h =>
    rw [count_put]
    by_cases hk : k = k'
    · subst hk
      simp [count_of_get? h]
    · simp [hk]
  · next h =>
    rw [count_put]
    by_cases hk : k = k'
    · subst hk
      simp [count_of_get?_none h]
    · simp [hk]

theorem count_remove : (t.remove k).count k' = t.count k' - if k = k' then 1 else 0 := by
  unfold remove
  split
  · next row h =>
    have hcount := count_of_get? h
    split
    · next hmany =>
      rw [count_put]
      by_cases hk : k = k'
      · subst hk
        simp only [if_true]
        rw [hcount, PNat.sub_coe, if_pos hmany, PNat.one_coe]
      · simp [hk]
    · next hlast =>
      have hone : row.2 = 1 := le_antisymm (not_lt.mp hlast) one_le
      rw [count_erase]
      by_cases hk : k = k'
      · subst hk
        simp [hcount, hone]
      · simp [hk]
  · next h =>
    by_cases hk : k = k'
    · subst hk
      simp [count_of_get?_none h]
    · simp [hk]

theorem ext_count (h : ∀ k, t.count k = t'.count k) : t = t' := by
  have hmem : ∀ {u u' : Tally κ}, (∀ k, u.count k = u'.count k) → ∀ row ∈ u, row ∈ u' := by
    intro u u' hsame row hrow
    have hcount := count_of_get? (get?_of_mem hrow)
    rw [hsame] at hcount
    cases hget : u'.get? row.1 with
    | none =>
      rw [count_of_get?_none hget] at hcount
      exact absurd hcount.symm row.2.ne_zero
    | some row' =>
      obtain ⟨hrow', hkey⟩ := get?_eq_some.mp hget
      rw [count_of_get? hget] at hcount
      have heq : row' = row := Prod.ext hkey (PNat.coe_injective hcount)
      exact heq ▸ hrow'
  apply ext_mem
  intro row
  exact ⟨hmem h row, hmem (fun k => (h k).symm) row⟩

section index
variable {ι ρ : Type} [LinearOrder ι] {key : ρ → ι} {rows : Table key} {f : ρ → Option κ} {row old new : ρ}

/-- The tally counts the keys that `f` gives of the rows. -/
def Counts (f : ρ → Option κ) (rows : Table key) (t : Tally κ) : Prop :=
  ∀ k, t.count k = (rows.rows.filterMap f).count k

def addSome (t : Tally κ) : Option κ → Tally κ
  | some k => t.add k
  | none => t

def removeSome (t : Tally κ) : Option κ → Tally κ
  | some k => t.remove k
  | none => t

theorem count_addSome (o : Option κ) : (t.addSome o).count k = t.count k + o.toList.count k := by
  cases o with
  | none => rfl
  | some k' =>
    rw [addSome, count_add, Option.toList_some, List.count_singleton]
    simp

theorem count_removeSome (o : Option κ) : (t.removeSome o).count k = t.count k - o.toList.count k := by
  cases o with
  | none => rfl
  | some k' =>
    rw [removeSome, count_remove, Option.toList_some, List.count_singleton]
    simp

theorem filterMap_cons_count (f : ρ → Option κ) (row : ρ) (l : List ρ) (k : κ) :
    ((row :: l).filterMap f).count k = (f row).toList.count k + (l.filterMap f).count k := by
  rw [List.filterMap_cons]
  cases f row with
  | none => simp
  | some k' => rw [Option.toList_some, ← List.count_append]; rfl

theorem count_of_mem (h : old ∈ rows) (k : κ) :
    (rows.rows.filterMap f).count k = (f old).toList.count k + ((rows.erase (key old)).rows.filterMap f).count k := by
  rw [((perm_of_mem h).filterMap f).count_eq, filterMap_cons_count]

theorem count_put_row (k : κ) : ((rows.put new).rows.filterMap f).count k =
      (f new).toList.count k + ((rows.erase (key new)).rows.filterMap f).count k := by
  rw [((perm_put new).filterMap f).count_eq, filterMap_cons_count]

theorem Counts.put_new (h : Counts f rows t) (hnew : rows.get? (key new) = none) :
    Counts f (rows.put new) (t.addSome (f new)) := by
  intro k
  rw [count_put_row, erase_of_get?_eq_none hnew, count_addSome, h k, Nat.add_comm]

/-- A row in the place of another: the old key goes and the new one comes. -/
theorem Counts.replace (h : Counts f rows t) (hold : rows.get? (key new) = some old) :
    Counts f (rows.put new) ((t.removeSome (f old)).addSome (f new)) := by
  obtain ⟨hmem, hkey⟩ := get?_eq_some.mp hold
  intro k
  have hcount := @count_of_mem κ _ ι ρ _ key rows f old hmem k
  rw [count_put_row, count_addSome, count_removeSome, h k, hcount, hkey]
  omega

theorem Counts.replace_same (h : Counts f rows t) (hold : rows.get? (key new) = some old) (hsame : f new = f old) :
    Counts f (rows.put new) t := by
  obtain ⟨hmem, hkey⟩ := get?_eq_some.mp hold
  intro k
  rw [count_put_row, h k, @count_of_mem κ _ ι ρ _ key rows f old hmem k, hkey, hsame]

end index

end Tally
