import Mathlib

/- Tables that give out dense ids. A table is a list; the id of a row is its place.
   A row whose key the table has already is not added again, and a table that is
   full takes no new key, so ids once given are kept (`addAll_begins`), no key has
   two (`addAll_nodup`), and a batch fits when the keys of table and batch together
   are no more than the capacity (`exists_addAll`). -/
namespace Interning
open List

variable {α κ : Type} [DecidableEq κ] (key : α → κ) (capacity : Nat)

def add (table : List α) (row : α) : Option (List α) :=
  if key row ∈ table.map key then some table
  else if table.length = capacity then none
  else some (table ++ [row])

def addAll (table rows : List α) : Option (List α) := rows.foldlM (add key capacity) table

variable {key capacity} {table table' rows : List α} {row : α}

theorem add_eq_some (h : add key capacity table row = some table') : (key row ∈ table.map key ∧ table' = table) ∨
      (key row ∉ table.map key ∧ table.length ≠ capacity ∧ table' = table ++ [row]) := by
  unfold add at h
  split at h
  · next hknown =>
    cases h
    exact .inl ⟨hknown, rfl⟩
  · next hnew =>
    split at h
    · cases h
    · next hroom =>
      cases h
      exact .inr ⟨hnew, hroom, rfl⟩

theorem add_nodup (hnodup : (table.map key).Nodup) (h : add key capacity table row = some table') :
    (table'.map key).Nodup := by
  obtain ⟨-, rfl⟩ | ⟨hnew, -, rfl⟩ := add_eq_some h
  · exact hnodup
  · rw [map_append]
    exact hnodup.append (nodup_singleton _) (disjoint_singleton.mpr hnew)

theorem mem_keys_add (h : add key capacity table row = some table') (k : κ) :
    k ∈ table'.map key ↔ k ∈ table.map key ∨ k = key row := by
  obtain ⟨hknown, rfl⟩ | ⟨-, -, rfl⟩ := add_eq_some h
  · constructor
    · exact .inl
    · rintro (hk | rfl)
      · exact hk
      · exact hknown
  · simp

theorem addAll_cons : addAll key capacity table (row :: rows) =
    (add key capacity table row).bind (fun next => addAll key capacity next rows) := rfl

theorem addAll_cons_eq_some (h : addAll key capacity table (row :: rows) = some table') :
    ∃ next, add key capacity table row = some next ∧ addAll key capacity next rows = some table' := by
  rwa [addAll_cons, Option.bind_eq_some_iff] at h

theorem addAll_append (h : addAll key capacity table rows = some table') :
    ∃ rest, table' = table ++ rest ∧ ∀ a ∈ rest, a ∈ rows := by
  induction rows generalizing table with
  | nil =>
    cases h
    exact ⟨[], by simp, by simp⟩
  | cons row rows ih =>
    obtain ⟨next, hnext, hrest⟩ := addAll_cons_eq_some h
    obtain ⟨rest, rfl, hrows⟩ := ih hrest
    obtain ⟨-, rfl⟩ | ⟨-, -, rfl⟩ := add_eq_some hnext
    · exact ⟨rest, rfl, fun a ha => mem_cons_of_mem _ (hrows a ha)⟩
    · refine ⟨row :: rest, by simp, ?_⟩
      intro a ha
      obtain rfl | ha := mem_cons.mp ha
      · exact mem_cons_self
      · exact mem_cons_of_mem _ (hrows a ha)

theorem addAll_begins (h : addAll key capacity table rows = some table') : table <+: table' := by
  obtain ⟨rest, rfl, -⟩ := addAll_append h
  exact prefix_append _ _

theorem addAll_length_le (hlength : table.length ≤ capacity) (h : addAll key capacity table rows = some table') :
    table'.length ≤ capacity := by
  induction rows generalizing table with
  | nil =>
    cases h
    exact hlength
  | cons row rows ih =>
    obtain ⟨next, hnext, hrest⟩ := addAll_cons_eq_some h
    refine ih ?_ hrest
    obtain ⟨-, rfl⟩ | ⟨-, hroom, rfl⟩ := add_eq_some hnext
    · exact hlength
    · rw [length_append, length_singleton]
      omega

theorem addAll_nodup (hnodup : (table.map key).Nodup) (h : addAll key capacity table rows = some table') :
    (table'.map key).Nodup := by
  induction rows generalizing table with
  | nil =>
    cases h
    exact hnodup
  | cons row rows ih =>
    obtain ⟨next, hnext, hrest⟩ := addAll_cons_eq_some h
    exact ih (add_nodup hnodup hnext) hrest

theorem mem_keys_addAll (h : addAll key capacity table rows = some table') (k : κ) :
    k ∈ table'.map key ↔ k ∈ table.map key ∨ k ∈ rows.map key := by
  induction rows generalizing table with
  | nil =>
    cases h
    simp
  | cons row rows ih =>
    obtain ⟨next, hnext, hrest⟩ := addAll_cons_eq_some h
    rw [ih hrest, mem_keys_add hnext, map_cons, mem_cons, or_assoc]

theorem exists_addAll (hnodup : (table.map key).Nodup)
    (hroom : (table.map key ++ rows.map key).toFinset.card ≤ capacity) :
    ∃ table', addAll key capacity table rows = some table' := by
  induction rows generalizing table with
  | nil => exact ⟨table, rfl⟩
  | cons row rows ih =>
    rw [addAll_cons]
    by_cases hknown : key row ∈ table.map key
    · have hadd : add key capacity table row = some table := if_pos hknown
      rw [hadd]
      apply ih hnodup
      refine le_trans (Finset.card_le_card ?_) hroom
      intro k hk
      simp only [map_cons, mem_toFinset, mem_append, mem_cons] at hk ⊢
      tauto
    · -- the new key is one of those counted, and the table does not have it
      have hless : table.length < (table.map key ++ (row :: rows).map key).toFinset.card := by
        have hcard : (table.map key).toFinset.card = table.length := by
          rw [toFinset_card_of_nodup hnodup, length_map]
        rw [← hcard]
        apply Finset.card_lt_card
        refine Finset.ssubset_iff.mpr ⟨key row, ?_, ?_⟩
        · rwa [mem_toFinset]
        · intro k hk
          rw [Finset.mem_insert, mem_toFinset] at hk
          rw [mem_toFinset, mem_append, map_cons, mem_cons]
          tauto
      have hadd : add key capacity table row = some (table ++ [row]) := by
        unfold add
        rw [if_neg hknown, if_neg (by omega)]
      rw [hadd]
      apply ih (add_nodup hnodup hadd)
      refine le_trans (Finset.card_le_card ?_) hroom
      intro k hk
      simp only [map_append, map_cons, map_nil, mem_toFinset, mem_append, mem_cons, not_mem_nil, or_false] at hk ⊢
      tauto

/-- The keys together are no more than the rows of the new table. -/
theorem card_keys_le (h : addAll key capacity table rows = some table') :
    (table.map key ++ rows.map key).toFinset.card ≤ table'.length := by
  calc (table.map key ++ rows.map key).toFinset.card ≤ (table'.map key).toFinset.card := by
        apply Finset.card_le_card
        intro k hk
        rw [mem_toFinset, mem_append] at hk
        rw [mem_toFinset]
        exact (mem_keys_addAll h k).mpr hk
    _ ≤ (table'.map key).length := toFinset_card_le _
    _ = table'.length := length_map ..

omit [DecidableEq κ]

def Fresh (seen keys : List κ) : Prop := keys.Nodup ∧ ∀ k ∈ keys, k ∉ seen

variable {seen keys : List κ} {k : κ}

@[simp] theorem fresh_nil : Fresh seen [] := ⟨nodup_nil, by simp⟩

theorem fresh_cons : Fresh seen (k :: keys) ↔ k ∉ seen ∧ Fresh (k :: seen) keys := by
  simp only [Fresh, nodup_cons, mem_cons, not_or]
  constructor
  · rintro ⟨⟨hnew, hnodup⟩, hseen⟩
    refine ⟨hseen k (.inl rfl), hnodup, fun j hj => ⟨?_, hseen j (.inr hj)⟩⟩
    rintro rfl
    exact hnew hj
  · rintro ⟨hk, hnodup, hrest⟩
    refine ⟨⟨fun hmem => (hrest k hmem).1 rfl, hnodup⟩, ?_⟩
    rintro j (rfl | hj)
    · exact hk
    · exact (hrest j hj).2

theorem fresh_option {o : Option κ} :
    Fresh seen (o.toList ++ keys) ↔ (∀ k ∈ o, k ∉ seen) ∧ Fresh (o.toList ++ seen) keys := by
  cases o with
  | none => simp
  | some k => simpa using fresh_cons

theorem fresh_nil_left : Fresh [] keys ↔ keys.Nodup := by simp [Fresh]

end Interning
