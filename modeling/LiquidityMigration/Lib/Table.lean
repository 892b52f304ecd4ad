import LiquidityMigration.Lib.Checks

/- Tables of rows kept in the order of a key that each row carries, so that a row cannot stand under another's key
   and a table is determined by its rows (`ext_mem`). `mem_put`, `mem_erase`, `mem_filter`, `mem_update`,
   `mem_putAll` say which rows an operation leaves, `get?_eq_some` what a lookup finds; the rows of a table put in
   one by one are the table (`putAll_rows`). -/

/-- Rows in the order of their keys, one row to a key. -/
structure Table {κ ρ : Type} [LinearOrder κ] (key : ρ → κ) where
  rows : List ρ
  sorted : rows.Pairwise fun a b => key a < key b

namespace Table
open Checks List

variable {κ ρ : Type} [LinearOrder κ] {key : ρ → κ} {t t' : Table key} {r r' : ρ} {k : κ}

theorem ext_rows (h : t.rows = t'.rows) : t = t' := by
  cases t
  cases t'
  cases h
  rfl

instance [DecidableEq ρ] : DecidableEq (Table key) := fun t t' =>
  match decEq t.rows t'.rows with
  | .isTrue h => .isTrue (ext_rows h)
  | .isFalse h => .isFalse fun e => h (congrArg rows e)

instance : Membership ρ (Table key) := ⟨fun t r => r ∈ t.rows⟩

theorem mem_rows : r ∈ t.rows ↔ r ∈ t := Iff.rfl

instance : EmptyCollection (Table key) := ⟨⟨[], .nil⟩⟩

instance : Inhabited (Table key) := ⟨∅⟩

@[simp] theorem not_mem_empty (r : ρ) : r ∉ (∅ : Table key) := List.not_mem_nil

theorem nodup_keys (t : Table key) : (t.rows.map key).Nodup :=
  pairwise_map.mpr (t.sorted.imp ne_of_lt)

theorem eq_of_key (h : r ∈ t) (h' : r' ∈ t) (hk : key r = key r') : r = r' :=
  inj_on_of_nodup_map t.nodup_keys h h' hk

theorem ext_mem (h : ∀ r, r ∈ t ↔ r ∈ t') : t = t' := by
  have hnodup : ∀ u : Table key, u.rows.Nodup := fun u => u.nodup_keys.of_map key
  have hperm : t.rows.Perm t'.rows := (perm_ext_iff_of_nodup (hnodup t) (hnodup t')).mpr h
  exact ext_rows (hperm.eq_of_pairwise (fun a b _ _ hab hba => absurd hab (lt_asymm hba)) t.sorted t'.sorted)

def get? (t : Table key) (k : κ) : Option ρ := t.rows.find? fun r => key r = k

theorem get?_eq_some : t.get? k = some r ↔ r ∈ t ∧ key r = k := by
  constructor
  · intro h
    exact ⟨mem_of_find?_eq_some h, by simpa using find?_some h⟩
  · rintro ⟨hr, rfl⟩
    obtain ⟨r', hfound⟩ := Option.isSome_iff_exists.mp
      (find?_isSome.mpr ⟨r, hr, decide_eq_true rfl⟩ :
        (t.rows.find? (fun r' => key r' = key r)).isSome = true)
    have hkey : key r' = key r := by simpa using find?_some hfound
    rw [get?, hfound, eq_of_key (mem_of_find?_eq_some hfound) hr hkey]

theorem get?_eq_none : t.get? k = none ↔ ∀ r ∈ t, key r ≠ k := by
  simp [get?, find?_eq_none, mem_rows]

theorem get?_of_mem (h : r ∈ t) : t.get? (key r) = some r := get?_eq_some.mpr ⟨h, rfl⟩

def Has (t : Table key) (k : κ) : Prop := ∃ r ∈ t.rows, key r = k
  deriving Decidable

theorem has_iff : t.Has k ↔ ∃ r ∈ t, key r = k := Iff.rfl

theorem get?_eq_none_iff_not_has : t.get? k = none ↔ ¬ t.Has k := by
  rw [get?_eq_none, has_iff]
  push Not
  exact Iff.rfl

/-- `row` in its place, instead of the row under its key. -/
def place (key : ρ → κ) (row : ρ) : List ρ → List ρ
  | [] => [row]
  | r :: rest =>
    if key row < key r then row :: r :: rest
    else if key row = key r then row :: rest
    else r :: place key row rest

variable {row : ρ} {rows : List ρ}

theorem mem_place (hsorted : rows.Pairwise (fun a b => key a < key b)) :
    r ∈ place key row rows ↔ r = row ∨ r ∈ rows ∧ key r ≠ key row := by
  induction rows with
  | nil => simp [place]
  | cons x rest ih =>
    rw [pairwise_cons] at hsorted
    obtain ⟨hx, hrest⟩ := hsorted
    rw [place]
    split
    · next hlt =>
      -- every row behind `x` is larger than `row` too
      have hother : r ∈ x :: rest → key r ≠ key row := by
        intro hr heq
        rcases mem_cons.mp hr with rfl | hr
        · exact absurd (heq ▸ hlt) (lt_irrefl _)
        · exact absurd (heq ▸ hlt.trans (hx r hr)) (lt_irrefl _)
      rw [mem_cons]
      exact or_congr_right ⟨fun h => ⟨h, hother h⟩, And.left⟩
    · next hge =>
      split
      · next heq =>
        rw [mem_cons, mem_cons]
        refine or_congr_right ⟨fun h => ⟨.inr h, fun hk => ?_⟩, ?_⟩
        · exact absurd (hk.trans heq ▸ hx r h) (lt_irrefl _)
        · rintro ⟨rfl | h, hne⟩
          · exact absurd heq.symm hne
          · exact h
      · next hne =>
        rw [mem_cons, mem_cons, ih hrest]
        constructor
        · rintro (rfl | rfl | h)
          · exact .inr ⟨.inl rfl, Ne.symm hne⟩
          · exact .inl rfl
          · exact .inr ⟨.inr h.1, h.2⟩
        · rintro (rfl | ⟨rfl | h, hk⟩)
          · exact .inr (.inl rfl)
          · exact .inl rfl
          · exact .inr (.inr ⟨h, hk⟩)

theorem sorted_place (hsorted : rows.Pairwise (fun a b => key a < key b)) :
    (place key row rows).Pairwise (fun a b => key a < key b) := by
  induction rows with
  | nil => exact pairwise_singleton _ _
  | cons x rest ih =>
    have hcons := hsorted
    rw [pairwise_cons] at hcons
    obtain ⟨hx, hrest⟩ := hcons
    rw [place]
    split
    · next hlt =>
      refine pairwise_cons.mpr ⟨fun y hy => ?_, hsorted⟩
      rcases mem_cons.mp hy with rfl | hy
      · exact hlt
      · exact hlt.trans (hx y hy)
    · next hge =>
      split
      · next heq => exact pairwise_cons.mpr ⟨fun y hy => heq ▸ hx y hy, hrest⟩
      · next hne =>
        refine pairwise_cons.mpr ⟨fun y hy => ?_, ih hrest⟩
        rcases (mem_place hrest).mp hy with rfl | hy
        · exact lt_of_le_of_ne (not_lt.mp hge) (Ne.symm hne)
        · exact hx y hy.1

def put (t : Table key) (row : ρ) : Table key := ⟨place key row t.rows, sorted_place t.sorted⟩

theorem mem_put : r ∈ t.put row ↔ r = row ∨ r ∈ t ∧ key r ≠ key row := mem_place t.sorted

theorem mem_put_self (t : Table key) (row : ρ) : row ∈ t.put row := mem_put.mpr (.inl rfl)

theorem get?_put : (t.put row).get? k = if key row = k then some row else t.get? k := by
  split
  · next h => exact get?_eq_some.mpr ⟨mem_put_self t row, h⟩
  · next h =>
    refine Option.ext fun r => ?_
    rw [get?_eq_some, get?_eq_some, mem_put]
    constructor
    · rintro ⟨rfl | ⟨hr, -⟩, hk⟩
      · exact absurd hk h
      · exact ⟨hr, hk⟩
    · rintro ⟨hr, rfl⟩
      exact ⟨.inr ⟨hr, Ne.symm h⟩, rfl⟩

def filter (t : Table key) (p : ρ → Bool) : Table key := ⟨t.rows.filter p, t.sorted.filter p⟩

theorem mem_filter {p : ρ → Bool} : r ∈ t.filter p ↔ r ∈ t ∧ p r = true := List.mem_filter

def erase (t : Table key) (k : κ) : Table key := t.filter fun r => key r ≠ k

theorem mem_erase : r ∈ t.erase k ↔ r ∈ t ∧ key r ≠ k := by rw [erase, mem_filter, decide_eq_true_eq]

theorem get?_erase {k' : κ} : (t.erase k).get? k' = if k = k' then none else t.get? k' := by
  split
  · next h =>
    apply get?_eq_none.mpr
    intro r hr hk
    exact (mem_erase.mp hr).2 (hk.trans h.symm)
  · next h =>
    ext r
    rw [get?_eq_some, get?_eq_some, mem_erase]
    refine ⟨fun hr => ⟨hr.1.1, hr.2⟩, fun hr => ⟨⟨hr.1, fun hk => h (hk.symm.trans hr.2)⟩, hr.2⟩⟩

theorem nodup_rows (t : Table key) : t.rows.Nodup := t.nodup_keys.of_map key

theorem perm_of_mem (h : r ∈ t) : t.rows.Perm (r :: (t.erase (key r)).rows) := by
  refine (perm_ext_iff_of_nodup t.nodup_rows (nodup_cons.mpr ⟨?_, nodup_rows _⟩)).mpr ?_
  · intro hr
    exact (mem_erase.mp hr).2 rfl
  · intro r'
    rw [mem_cons, mem_rows, mem_rows, mem_erase]
    by_cases hk : key r' = key r
    · refine ⟨fun hr' => .inl (eq_of_key hr' h hk), ?_⟩
      intro hr'
      rcases hr' with rfl | hr'
      · exact h
      · exact hr'.1
    · refine ⟨fun hr' => .inr ⟨hr', hk⟩, ?_⟩
      intro hr'
      rcases hr' with rfl | hr'
      · exact h
      · exact hr'.1

theorem perm_put (row : ρ) : (t.put row).rows.Perm (row :: (t.erase (key row)).rows) := by
  have herase : (t.put row).erase (key row) = t.erase (key row) := by
    apply ext_mem
    intro r
    rw [mem_erase, mem_erase, mem_put]
    refine ⟨?_, fun hr => ⟨.inr hr, hr.2⟩⟩
    intro hr
    rcases hr.1 with rfl | hr'
    · exact absurd rfl hr.2
    · exact hr'
  rw [← herase]
  exact perm_of_mem (mem_put_self t row)

theorem erase_of_get?_eq_none (h : t.get? k = none) : t.erase k = t := by
  apply ext_mem
  intro r
  rw [mem_erase]
  exact ⟨fun hr => hr.1, fun hr => ⟨hr, get?_eq_none.mp h r hr⟩⟩

def eraseAll (t : Table key) (ks : List κ) : Table key := ks.foldl erase t

theorem rows_eraseAll (t : Table key) (ks : List κ) :
    (t.eraseAll ks).rows = t.rows.filter fun r => !ks.contains (key r) := by
  induction ks generalizing t with
  | nil => simp [eraseAll]
  | cons k ks ih =>
    refine (ih (t.erase k)).trans ?_
    simp only [erase, filter, filter_filter]
    apply filter_congr
    intro r _
    simp [Bool.and_comm]

theorem mem_eraseAll {ks : List κ} : r ∈ t.eraseAll ks ↔ r ∈ t ∧ key r ∉ ks := by
  rw [← mem_rows, rows_eraseAll, List.mem_filter, mem_rows]
  simp

def update (t : Table key) (f : ρ → ρ) (hf : ∀ r, key (f r) = key r) : Table key :=
  ⟨t.rows.map f, List.pairwise_map.mpr (t.sorted.imp (fun {a b} h => by rwa [hf, hf]))⟩

theorem mem_update {f : ρ → ρ} {hf : ∀ r, key (f r) = key r} : r ∈ t.update f hf ↔ ∃ r₀ ∈ t, f r₀ = r :=
  mem_map

def putAll (t : Table key) (rows : List ρ) : Table key := rows.foldl put t

@[simp] theorem putAll_nil (t : Table key) : t.putAll [] = t := rfl

variable (t row rows) in
@[simp] theorem putAll_cons :
    t.putAll (row :: rows) = (t.put row).putAll rows := rfl

theorem mem_putAll (hnodup : (rows.map key).Nodup) :
    r ∈ t.putAll rows ↔ r ∈ rows ∨ r ∈ t ∧ ∀ r' ∈ rows, key r ≠ key r' := by
  induction rows generalizing t with
  | nil => simp
  | cons row rows ih =>
    rw [map_cons, nodup_cons] at hnodup
    obtain ⟨hnew, hnodup⟩ := hnodup
    -- the later rows leave the first one in place
    have hfirst : ∀ r' ∈ rows, key row ≠ key r' := by
      intro r' hr' heq
      exact hnew (mem_map.mpr ⟨r', hr', heq.symm⟩)
    rw [putAll_cons, ih hnodup, mem_put, mem_cons, forall_mem_cons]
    constructor
    · rintro (hr | ⟨rfl | ⟨hr, hk⟩, hrest⟩)
      · exact .inl (.inr hr)
      · exact .inl (.inl rfl)
      · exact .inr ⟨hr, hk, hrest⟩
    · rintro ((rfl | hr) | ⟨hr, hk, hrest⟩)
      · exact .inr ⟨.inl rfl, hfirst⟩
      · exact .inl hr
      · exact .inr ⟨.inr ⟨hr, hk⟩, hrest⟩

theorem putAll_rows (t : Table key) : (∅ : Table key).putAll t.rows = t := by
  refine ext_mem fun r => ?_
  rw [mem_putAll t.nodup_keys, mem_rows]
  simp

end Table
