import LiquidityMigration.Lib.Dict

/- A map worked on in a copy that holds only the keys it was asked for. Before a key is used it is fetched: what the
   map answers is put into the copy and remembered beside it. A computation that keeps to fetched keys runs in step
   with the same one on the map (`Mirrors`, kept by `Mirrors.fetch` and `Mirrors.insertAll`). The rows that are no
   longer what was fetched are what it changed (`Mirrors.mem_changes`, `Mirrors.insertAll_changes`). -/

namespace Dict
open List

variable {κ α : Type} [LinearOrder κ] {d d' : Dict κ α} {k k' : κ} {a : α}

def insertAll (d : Dict κ α) (rows : List (κ × α)) : Dict κ α := rows.foldl (fun d row => d.insert row.1 row.2) d

@[simp] theorem insertAll_nil : d.insertAll [] = d := rfl

variable {rows : List (κ × α)}

@[simp] theorem insertAll_cons {row : κ × α} : d.insertAll (row :: rows) = (d.insert row.1 row.2).insertAll rows := rfl

theorem find?_insertAll_of_not_mem (h : k ∉ rows.map Prod.fst) : (d.insertAll rows).find? k = d.find? k := by
  induction rows generalizing d with
  | nil => rfl
  | cons row rest ih =>
    rw [map_cons, mem_cons, not_or] at h
    rw [insertAll_cons, ih h.2, find?_insert_ne (Ne.symm h.1)]

theorem find?_insertAll_of_mem (hnodup : (rows.map Prod.fst).Nodup) (h : (k, a) ∈ rows) :
    (d.insertAll rows).find? k = some a := by
  induction rows generalizing d with
  | nil => cases h
  | cons row rest ih =>
    rw [map_cons, nodup_cons] at hnodup
    rw [insertAll_cons]
    rcases mem_cons.mp h with heq | hrest
    · rw [← heq] at hnodup ⊢
      rw [find?_insertAll_of_not_mem hnodup.1, find?_insert_self]
    · exact ih hnodup.2 hrest

section renamed
variable {ι : Type} [LinearOrder ι] {name : ι → κ} {rows : Dict ι α}

theorem find?_insertAll_entries_of_ne (h : ∀ i, name i ≠ k) :
    (d.insertAll (rows.entries.map (fun row => (name row.1, row.2)))).find? k = d.find? k := by
  apply find?_insertAll_of_not_mem
  intro hmem
  rw [map_map, mem_map] at hmem
  obtain ⟨row, -, hkey⟩ := hmem
  exact h row.1 hkey

/-- Where no two names are the same, a name answers as the rows do, and as before where there is none. -/
theorem find?_insertAll_entries (hname : Function.Injective name) (i : ι) :
    (d.insertAll (rows.entries.map (fun row => (name row.1, row.2)))).find? (name i) =
      (rows.find? i).or (d.find? (name i)) := by
  cases hfound : rows.find? i with
  | some a =>
    apply find?_insertAll_of_mem
    · have hkeys : (rows.entries.map (fun row => (name row.1, row.2))).map Prod.fst =
          (rows.entries.map Prod.fst).map name := by
        rw [map_map, map_map]
        rfl
      rw [hkeys]
      exact rows.nodup_keys.map hname
    · exact mem_map.mpr ⟨(i, a), mem_entries.mpr hfound, rfl⟩
  | none =>
    apply find?_insertAll_of_not_mem
    intro hmem
    rw [map_map, mem_map] at hmem
    obtain ⟨⟨j, a⟩, hentry, hkey⟩ := hmem
    obtain rfl : j = i := hname hkey
    rw [mem_entries.mp hentry] at hfound
    cases hfound

end renamed

end Dict

/-- A copy of some keys of a map, and what the map answered for each when it was fetched. -/
structure Overlay (κ α : Type) [LinearOrder κ] where
  copy : Dict κ α
  prior : Dict κ (Option α)

open Dict

namespace Overlay

variable {κ α : Type} [LinearOrder κ] {base cur : Dict κ α} {o : Overlay κ α} {k : κ} {a : α}

instance : EmptyCollection (Overlay κ α) := ⟨⟨∅, ∅⟩⟩

variable (base o k) in
/-- The key is in the copy, as the map had it; the first fetch counts. -/
def fetch : Overlay κ α :=
  match o.prior.find? k with
  | some _ => o
  | none =>
    { copy := match base.find? k with
        | some a => o.copy.insert k a
        | none => o.copy
      prior := o.prior.insert k (base.find? k) }

variable (base o) in
def fetchAll (keys : List κ) : Overlay κ α := keys.foldl (fetch base) o

def Fetched (o : Overlay κ α) (k : κ) : Prop := o.prior.find? k ≠ none

/-- The rows of the copy that are not what was fetched, each with what was. -/
def changes [DecidableEq α] (o : Overlay κ α) : List (κ × Option α × α) :=
  o.prior.entries.filterMap (fun row =>
    ((o.copy.find? row.1).filter (fun next => some next ≠ row.2)).map (fun next => (row.1, row.2, next)))

variable (base cur o) in
/-- The copy answers for its keys as `cur` does, and away from them `cur` is still the
map the copy was made of. No key has left `cur`. -/
structure Mirrors : Prop where
  fetched : ∀ k prior, o.prior.find? k = some prior → prior = base.find? k ∧ o.copy.find? k = cur.find? k
  others : ∀ k, o.prior.find? k = none → o.copy.find? k = none ∧ cur.find? k = base.find? k
  kept : ∀ k, cur.find? k = none → base.find? k = none

theorem mirrors_empty : Mirrors base base ∅ where
  fetched := by
    intro k prior h
    cases h
  others := fun _ _ => ⟨rfl, rfl⟩
  kept := fun _ h => h

theorem fetched_fetch_self : (o.fetch base k).Fetched k := by
  unfold fetch Fetched
  split
  · next h =>
    rw [h]
    exact Option.some_ne_none _
  · rw [find?_insert_self]
    exact Option.some_ne_none _

theorem Fetched.fetch {k' : κ} (h : o.Fetched k) : (o.fetch base k').Fetched k := by
  unfold Overlay.fetch Fetched
  split
  · exact h
  · next hnone =>
    have hne : k' ≠ k := fun heq => h (heq ▸ hnone)
    rw [find?_insert_ne hne]
    exact h

theorem fetched_fetchAll {keys : List κ} (h : k ∈ keys) : (o.fetchAll base keys).Fetched k := by
  have hloop : ∀ (keys : List κ) (o : Overlay κ α), o.Fetched k ∨ k ∈ keys → (o.fetchAll base keys).Fetched k := by
    intro keys
    induction keys with
    | nil =>
      intro o h
      exact h.resolve_right List.not_mem_nil
    | cons key rest ih =>
      intro o h
      apply ih
      rcases h with h | h
      · exact .inl h.fetch
      · rcases List.mem_cons.mp h with rfl | h
        · exact .inl fetched_fetch_self
        · exact .inr h
  exact hloop keys o (.inr h)

theorem changes_keys_nodup [DecidableEq α] (o : Overlay κ α) : (o.changes.map Prod.fst).Nodup := by
  have hsub : (o.changes.map Prod.fst).Sublist o.prior.keys := by
    unfold changes keys
    induction o.prior.entries with
    | nil => exact List.Sublist.refl _
    | cons row rest ih =>
      rw [List.filterMap_cons]
      split
      · exact ih.cons row.1
      · next b hb =>
        obtain ⟨next, -, rfl⟩ := Option.map_eq_some_iff.mp hb
        exact ih.cons_cons row.1
  exact hsub.nodup o.prior.nodup_keys

namespace Mirrors

section
variable (h : Mirrors base cur o)
include h

/-- **A fetch leaves the computation where it was.** -/
theorem fetch (k : κ) : Mirrors base cur (o.fetch base k) := by
  unfold Overlay.fetch
  split
  · exact h
  · next hnone =>
    obtain ⟨hcopy, hcur⟩ := h.others k hnone
    have hself : (match base.find? k with
        | some a => o.copy.insert k a
        | none => o.copy).find? k = base.find? k := by
      cases hbase : base.find? k with
      | none => exact hcopy
      | some a => exact find?_insert_self
    have hother : ∀ k', k ≠ k' → (match base.find? k with
        | some a => o.copy.insert k a
        | none => o.copy).find? k' = o.copy.find? k' := by
      intro k' hne
      cases base.find? k with
      | none => rfl
      | some a => exact find?_insert_ne hne
    refine ⟨fun k' prior hprior => ?_, fun k' hk' => ?_, h.kept⟩
    · rw [find?_insert] at hprior
      split at hprior
      · next heq =>
        subst heq
        cases hprior
        exact ⟨rfl, hself.trans hcur.symm⟩
      · next hne =>
        rw [hother k' hne]
        exact h.fetched k' prior hprior
    · rw [find?_insert] at hk'
      split at hk'
      · cases hk'
      · next hne =>
        rw [hother k' hne]
        exact h.others k' hk'

theorem fetchAll (keys : List κ) : Mirrors base cur (o.fetchAll base keys) := by
  induction keys generalizing o with
  | nil => exact h
  | cons key rest ih => exact ih (h.fetch key)

theorem find?_eq (hk : o.Fetched k) : o.copy.find? k = cur.find? k := by
  obtain ⟨prior, hprior⟩ := Option.ne_none_iff_exists'.mp hk
  exact (h.fetched k prior hprior).2

theorem insert (hk : o.Fetched k) (a : α) : Mirrors base (cur.insert k a) { o with copy := o.copy.insert k a } := by
  refine ⟨fun k' prior hprior => ?_, fun k' hk' => ?_, fun k' hk' => ?_⟩
  · refine ⟨(h.fetched k' prior hprior).1, ?_⟩
    rw [find?_insert, find?_insert, (h.fetched k' prior hprior).2]
  · have hne : k ≠ k' := fun heq => hk (heq ▸ hk')
    rw [find?_insert_ne hne, find?_insert_ne hne]
    exact h.others k' hk'
  · rw [find?_insert] at hk'
    split at hk'
    · cases hk'
    · exact h.kept k' hk'

/-- **Writes of fetched keys keep the two sides in step.** -/
theorem insertAll {rows : List (κ × α)} (hk : ∀ row ∈ rows, o.Fetched row.1) :
    Mirrors base (cur.insertAll rows) { o with copy := o.copy.insertAll rows } := by
  induction rows generalizing cur o with
  | nil => exact h
  | cons row rest ih =>
    rw [List.forall_mem_cons] at hk
    exact ih (h.insert hk.1 row.2) hk.2

end

variable [DecidableEq α]

/-- **The changed rows**: those of the copy's keys at which the computation left the map
with another row than it found. -/
theorem mem_changes (h : Mirrors base cur o) {prior : Option α} {next : α} :
    (k, prior, next) ∈ o.changes ↔ prior = base.find? k ∧ cur.find? k = some next ∧ some next ≠ prior := by
  simp only [changes, List.mem_filterMap, Option.map_eq_some_iff, Option.filter_eq_some_iff, decide_eq_true_eq,
    Prod.mk.injEq, Prod.exists, mem_entries]
  constructor
  · intro hrow
    obtain ⟨k', prior', hprior, next', ⟨hnext, hne⟩, rfl, rfl, rfl⟩ := hrow
    obtain ⟨hbase, hcopy⟩ := h.fetched _ _ hprior
    rw [hcopy] at hnext
    exact ⟨hbase, hnext, hne⟩
  · intro hrow
    obtain ⟨rfl, hnext, hne⟩ := hrow
    cases hprior : o.prior.find? k with
    | none =>
      -- away from the copy nothing has changed
      rw [(h.others k hprior).2] at hnext
      exact absurd hnext.symm hne
    | some prior =>
      obtain ⟨rfl, hcopy⟩ := h.fetched k prior hprior
      exact ⟨k, base.find? k, hprior, next, ⟨hcopy.trans hnext, hne⟩, rfl, rfl, rfl⟩

/-- **Putting the changed rows into the map gives what the computation made of it.** -/
theorem insertAll_changes (h : Mirrors base cur o) :
    base.insertAll (o.changes.map (fun row => (row.1, row.2.2))) = cur := by
  have hkeys : (o.changes.map (fun row => (row.1, row.2.2))).map Prod.fst = o.changes.map Prod.fst := by
    rw [List.map_map]
    rfl
  apply ext_find
  intro k
  by_cases hk : k ∈ o.changes.map Prod.fst
  · obtain ⟨⟨_, prior, next⟩, hrow, rfl⟩ := List.mem_map.mp hk
    have hmem : (_, next) ∈ o.changes.map (fun row => (row.1, row.2.2)) := List.mem_map.mpr ⟨_, hrow, rfl⟩
    rw [find?_insertAll_of_mem (hkeys ▸ changes_keys_nodup o) hmem]
    exact (h.mem_changes.mp hrow).2.1.symm
  · rw [find?_insertAll_of_not_mem (hkeys ▸ hk)]
    cases hcur : cur.find? k with
    | none => exact h.kept k hcur
    | some next =>
      by_contra hne
      have hrow : (k, base.find? k, next) ∈ o.changes := h.mem_changes.mpr ⟨rfl, hcur, Ne.symm hne⟩
      exact hk (List.mem_map.mpr ⟨_, hrow, rfl⟩)

/-- Another map has at the changed keys what was fetched there exactly when it agrees with
the base wherever the computation changed something. -/
theorem current_changes (h : Mirrors base cur o) (later : Dict κ α) : (∀ row ∈ o.changes, later.find? row.1 = row.2.1) ↔
      ∀ k, cur.find? k ≠ base.find? k → later.find? k = base.find? k := by
  constructor
  · intro hrows k hne
    cases hcur : cur.find? k with
    | none => exact absurd (hcur.trans (h.kept k hcur).symm) hne
    | some next =>
      rw [hcur] at hne
      exact hrows _ (h.mem_changes.mpr ⟨rfl, hcur, hne⟩)
  · intro hkeys row hrow
    obtain ⟨k, prior, next⟩ := row
    obtain ⟨rfl, hnext, hne⟩ := h.mem_changes.mp hrow
    exact hkeys k (hnext ▸ hne)

end Mirrors

end Overlay
