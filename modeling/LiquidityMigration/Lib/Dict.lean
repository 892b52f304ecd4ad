import LiquidityMigration.Lib.Table

/- Maps from ordered keys to values, as sorted rows of keys and values. A map is
   determined by what it answers (`ext_find`), so every operation is described by the
   answers of its result (`find?_insert`, `find?_erase`). What an iteration meets is what
   lookups answer (`mem_entries`). -/

/-- A map, its rows in the order of their keys. -/
structure Dict (κ α : Type) [LinearOrder κ] where
  table : Table (Prod.fst : κ × α → κ)
  deriving DecidableEq

namespace Dict
open Table

variable {κ α : Type} [LinearOrder κ] {d d' : Dict κ α} {k k' : κ} {a : α}

instance : EmptyCollection (Dict κ α) := ⟨⟨∅⟩⟩

instance : Inhabited (Dict κ α) := ⟨∅⟩

def entries (d : Dict κ α) : List (κ × α) := d.table.rows

def keys (d : Dict κ α) : List κ := d.entries.map Prod.fst

def find? (d : Dict κ α) (k : κ) : Option α := (d.table.get? k).map Prod.snd

theorem mem_entries : (k, a) ∈ d.entries ↔ d.find? k = some a := by
  constructor
  · intro h
    have hrow : d.table.get? k = some (k, a) := get?_eq_some.mpr ⟨h, rfl⟩
    rw [find?, hrow]
    rfl
  · intro h
    rw [find?, Option.map_eq_some_iff] at h
    obtain ⟨row, hrow, hvalue⟩ := h
    obtain ⟨hmem, hkey⟩ := get?_eq_some.mp hrow
    have heq : row = (k, a) := Prod.ext hkey hvalue
    exact heq ▸ hmem

theorem nodup_keys (d : Dict κ α) : d.keys.Nodup := by
  have h : d.keys.Pairwise (· < ·) := List.pairwise_map.mpr d.table.sorted
  exact h.imp ne_of_lt

theorem ext_find (h : ∀ k, d.find? k = d'.find? k) : d = d' := by
  have hrows : ∀ row, row ∈ d.entries ↔ row ∈ d'.entries := by
    intro row
    obtain ⟨k, a⟩ := row
    rw [mem_entries, mem_entries, h k]
  have htable : d.table = d'.table := ext_mem hrows
  cases d
  cases d'
  cases htable
  rfl

@[simp] theorem find?_empty : (∅ : Dict κ α).find? k = none := rfl

def insert (d : Dict κ α) (k : κ) (a : α) : Dict κ α := ⟨d.table.put (k, a)⟩

theorem find?_insert : (d.insert k a).find? k' = if k = k' then some a else d.find? k' := by
  simp only [insert, find?, get?_put]
  split
  · rfl
  · rfl

@[simp] theorem find?_insert_self : (d.insert k a).find? k = some a := by rw [find?_insert, if_pos rfl]

theorem find?_insert_ne (h : k ≠ k') : (d.insert k a).find? k' = d.find? k' := by rw [find?_insert, if_neg h]

def erase (d : Dict κ α) (k : κ) : Dict κ α := ⟨d.table.erase k⟩

theorem find?_erase : (d.erase k).find? k' = if k = k' then none else d.find? k' := by
  simp only [erase, find?, get?_erase]
  split
  · rfl
  · rfl

def adjust (d : Dict κ α) (k : κ) (f : α → α) : Dict κ α :=
  match d.find? k with
  | some a => d.insert k (f a)
  | none => d

theorem find?_adjust {f : α → α} : (d.adjust k f).find? k' = if k = k' then (d.find? k').map f else d.find? k' := by
  unfold adjust
  split <;> grind [find?_insert]

def retain (d : Dict κ α) (p : κ → α → Bool) : Dict κ α := ⟨d.table.filter (fun row => p row.1 row.2)⟩

theorem find?_retain {p : κ → α → Bool} : (d.retain p).find? k = (d.find? k).filter (p k) := by
  apply Option.ext
  intro a
  rw [← mem_entries, Option.filter_eq_some_iff, ← mem_entries]
  exact mem_filter (t := d.table)

def mapValues (d : Dict κ α) (f : κ → α → α) : Dict κ α :=
  ⟨d.table.update (fun row => (row.1, f row.1 row.2)) (fun _ => rfl)⟩

end Dict
