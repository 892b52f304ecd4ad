import LiquidityMigration.Lib.Checks

/- Sums over the rows of a finite map, where a row may refuse to be counted. `sumOk f rows` stops at the first row
   without a value; one that succeeds does not depend on the order, so an insertion or a removal is one row's
   (`rows_insert`, `rows_of_get`). `collect` keeps what the rows give, `group` puts amounts together under their
   keys. Rows taken in part sum up between the negative and the positive amounts. -/
namespace RowSums
open Checks List
open Std (ExtTreeMap TransCmp LawfulEqCmp ReflCmp)

section fallible
variable {ε α M : Type} [AddCommMonoid M]

def sumOk (f : α → Except ε M) : List α → Except ε M
  | [] => .ok 0
  | x :: xs => do
    let a ← f x
    let s ← sumOk f xs
    .ok (a + s)

def valueOf (x : Except ε M) : M :=
  match x with
  | .ok v => v
  | .error _ => 0

@[simp] theorem valueOf_ok (v : M) : valueOf (.ok v : Except ε M) = v := rfl

variable {f : α → Except ε M} {l : List α} {s : M}

/-- A sum succeeds when every row has a value, and is the sum of these. -/
theorem sumOk_eq_ok :
    sumOk f l = .ok s ↔ (∀ x ∈ l, f x = .ok (valueOf (f x))) ∧ s = (l.map (fun x => valueOf (f x))).sum := by
  induction l generalizing s with
  | nil => simp [sumOk, eq_comm]
  | cons x xs ih =>
    simp only [sumOk, ok_iff, ih, forall_mem_cons, map_cons, sum_cons]
    constructor
    · rintro ⟨a, ha, t, ⟨hxs, rfl⟩, rfl⟩
      refine ⟨⟨by rw [ha, valueOf_ok], hxs⟩, by rw [ha, valueOf_ok]⟩
    · rintro ⟨⟨hx, hxs⟩, rfl⟩
      exact ⟨_, hx, _, ⟨hxs, rfl⟩, rfl⟩

theorem sumOk_of_subset {l' : List α} (hsub : l' ⊆ l) (h : sumOk f l = .ok s) : ∃ t, sumOk f l' = .ok t :=
  ⟨_, sumOk_eq_ok.mpr ⟨fun x hx => (sumOk_eq_ok.mp h).1 x (hsub hx), rfl⟩⟩

theorem sumOk_perm {l' : List α} (hp : l.Perm l') (h : sumOk f l = .ok s) : sumOk f l' = .ok s := by
  rw [sumOk_eq_ok] at h ⊢
  exact ⟨fun x hx => h.1 x (hp.mem_iff.mpr hx), h.2.trans (hp.map _).sum_eq⟩

theorem sumOk_cons {x : α} : sumOk f (x :: l) = .ok s ↔ ∃ a t, f x = .ok a ∧ sumOk f l = .ok t ∧ s = a + t := by
  simp only [sumOk, ok_iff]
  constructor
  · rintro ⟨a, ha, t, ht, rfl⟩
    exact ⟨a, t, ha, ht, rfl⟩
  · rintro ⟨a, t, ha, ht, rfl⟩
    exact ⟨a, ha, t, ht, rfl⟩

theorem sumOk_le [PartialOrder M] [IsOrderedAddMonoid M] {g : α → Except ε M}
    (hle : ∀ x ∈ l, ∀ a, f x = .ok a → ∃ c, g x = .ok c ∧ c ≤ a) (h : sumOk f l = .ok s) :
    ∃ t, sumOk g l = .ok t ∧ t ≤ s := by
  induction l generalizing s with
  | nil =>
    cases h
    exact ⟨0, rfl, le_rfl⟩
  | cons x l ih =>
    obtain ⟨a, t, ha, ht, rfl⟩ := sumOk_cons.mp h
    obtain ⟨c, hc, hca⟩ := hle x mem_cons_self a ha
    obtain ⟨u, hu, hut⟩ := ih (fun y hy => hle y (mem_cons_of_mem x hy)) ht
    exact ⟨c + u, sumOk_cons.mpr ⟨c, u, hc, hu, rfl⟩, add_le_add hca hut⟩

/-- The rows of two classes cover those of a third, and so do their sums. -/
theorem sumOk_filter_le [PartialOrder M] [IsOrderedAddMonoid M] {p q r : α → Bool}
    (hf : ∀ x a, f x = .ok a → 0 ≤ a) (hpq : ∀ x, r x = true → p x = true ∨ q x = true) {t : M}
    (hs : sumOk f (l.filter p) = .ok s) (ht : sumOk f (l.filter q) = .ok t) :
    ∃ u, sumOk f (l.filter r) = .ok u ∧ u ≤ s + t := by
  induction l generalizing s t with
  | nil =>
    cases hs
    cases ht
    exact ⟨0, rfl, by simp⟩
  | cons x l ih =>
    -- what the row adds to each side
    have hpart : ∀ {c : α → Bool} {v : M}, sumOk f ((x :: l).filter c) = .ok v →
        ∃ a w, sumOk f (l.filter c) = .ok w ∧ v = a + w ∧ 0 ≤ a ∧ (c x = true → f x = .ok a) := by
      intro c v hv
      by_cases hc : c x = true
      · rw [filter_cons_of_pos hc, sumOk_cons] at hv
        obtain ⟨a, w, ha, hw, rfl⟩ := hv
        exact ⟨a, w, hw, rfl, hf x a ha, fun _ => ha⟩
      · rw [filter_cons_of_neg hc] at hv
        exact ⟨0, v, hv, (zero_add v).symm, le_rfl, fun h => absurd h hc⟩
    obtain ⟨a, s', hs', rfl, ha, hpa⟩ := hpart hs
    obtain ⟨d, t', ht', rfl, hd, hqd⟩ := hpart ht
    obtain ⟨u, hu, hle⟩ := ih hs' ht'
    by_cases hr : r x = true
    · rw [filter_cons_of_pos hr]
      rcases hpq x hr with hp | hq
      · refine ⟨a + u, sumOk_cons.mpr ⟨a, u, hpa hp, hu, rfl⟩, ?_⟩
        calc a + u ≤ a + (s' + t') := add_le_add_right hle a
          _ ≤ a + (s' + (d + t')) := add_le_add_right (add_le_add_right (le_add_of_nonneg_left hd) s') a
          _ = a + s' + (d + t') := (add_assoc _ _ _).symm
      · refine ⟨d + u, sumOk_cons.mpr ⟨d, u, hqd hq, hu, rfl⟩, ?_⟩
        calc d + u ≤ d + (s' + t') := add_le_add_right hle d
          _ = s' + (d + t') := add_left_comm _ _ _
          _ ≤ a + s' + (d + t') := add_le_add_left (le_add_of_nonneg_left ha) _
    · rw [filter_cons_of_neg hr]
      refine ⟨u, hu, hle.trans (add_le_add (le_add_of_nonneg_left ha) (le_add_of_nonneg_left hd))⟩

variable {β : Type}

def collect (f : α → Except ε (Option β)) : List α → Except ε (List β)
  | [] => .ok []
  | x :: xs => do
    let y ← f x
    let ys ← collect f xs
    .ok (y.toList ++ ys)

theorem map_sum_collect (f : α → Except ε (Option β)) (g : β → M) (l : List α) :
    (collect f l).map (fun ys => (ys.map g).sum) = sumOk (fun x => (f x).map (fun y => y.elim 0 g)) l := by
  induction l with
  | nil => rfl
  | cons x xs ih =>
    simp only [collect, sumOk]
    rw [← ih]
    cases f x with
    | error e => rfl
    | ok y =>
      cases collect f xs with
      | error e => rfl
      | ok ys =>
        cases y with
        | none =>
          show Except.ok _ = Except.ok _
          simp
        | some y =>
          show Except.ok _ = Except.ok _
          simp

end fallible

section fibres
variable {α κ ν M : Type} [DecidableEq κ] [AddCommMonoid M] [PartialOrder M] [IsOrderedAddMonoid M]

/-- Where every row bounds what stands under its key, the rows together bound everything. -/
theorem sum_le_sum_fibres (key : α → κ) (f : α → M) (bound : κ × ν → M) {rows : List (κ × ν)} {l : List α}
    (hnodup : (rows.map Prod.fst).Nodup) (hcover : ∀ x ∈ l, key x ∈ rows.map Prod.fst)
    (hle : ∀ row ∈ rows, ((l.filter (fun x => key x = row.1)).map f).sum ≤ bound row) :
    (l.map f).sum ≤ (rows.map bound).sum := by
  induction rows generalizing l with
  | nil =>
    cases l with
    | nil => simp
    | cons x l => simpa using hcover x mem_cons_self
  | cons row rows ih =>
    obtain ⟨hnot, hnodup⟩ := nodup_cons.mp hnodup
    -- what stands under the first key, and the rest
    have hsplit : (l.map f).sum = ((l.filter (fun x => key x = row.1)).map f).sum +
        ((l.filter (fun x => ¬ key x = row.1)).map f).sum := by
      rw [← sum_append, ← map_append]
      have hperm := filter_append_perm (fun x => key x = row.1) l
      simpa using ((hperm.map f).sum_eq).symm
    rw [hsplit, map_cons, sum_cons]
    apply add_le_add (hle row mem_cons_self)
    apply ih hnodup
    · intro x hx
      obtain ⟨hx, hne⟩ := mem_filter.mp hx
      exact (mem_cons.mp (hcover x hx)).resolve_left (by simpa using hne)
    · intro other hother
      have hsame : (l.filter (fun x => ¬ key x = row.1)).filter (fun x => key x = other.1) =
          l.filter (fun x => key x = other.1) := by
        rw [filter_filter]
        apply filter_congr
        intro x _
        have hne : other.1 ≠ row.1 := fun he => hnot (he ▸ mem_map_of_mem hother)
        by_cases hx : key x = other.1
        · simp [hx, hne]
        · simp [hx]
      rw [hsame]
      exact hle other (mem_cons_of_mem row hother)

end fibres

theorem sum_map_prod {α M N : Type} [AddMonoid M] [AddMonoid N] (f : α → M) (g : α → N) (l : List α) :
    (l.map (fun x => (f x, g x))).sum = ((l.map f).sum, (l.map g).sum) := by
  induction l with
  | nil => rfl
  | cons x xs ih => simp [ih, Prod.mk_add_mk]

section between
variable {α G : Type} [AddCommGroup G] [LinearOrder G] [IsOrderedAddMonoid G]

/-- Rows taken in parts add up to something between their negative and their positive amounts. -/
theorem sum_between {l : List α} {whole part : α → G} (h : ∀ x ∈ l, part x ∈ Set.uIcc 0 (whole x)) :
    (l.map (fun x => min (whole x) 0)).sum ≤ (l.map part).sum ∧
    (l.map part).sum ≤ (l.map (fun x => max (whole x) 0)).sum := by
  constructor
  · apply sum_le_sum
    intro x hx
    rw [min_comm]
    exact (h x hx).1
  · apply sum_le_sum
    intro x hx
    rw [max_comm]
    exact (h x hx).2

theorem abs_sum_le {l : List α} {part bound : α → G} (h : ∀ x ∈ l, |part x| ≤ bound x) :
    |(l.map part).sum| ≤ (l.map bound).sum := by
  induction l with
  | nil => simp
  | cons x l ih =>
    rw [map_cons, map_cons, sum_cons, sum_cons]
    exact (abs_add_le _ _).trans (add_le_add (h x mem_cons_self) (ih fun y hy => h y (mem_cons_of_mem x hy)))

end between

section rows
variable {κ ν : Type} {cmp : κ → κ → Ordering} [TransCmp cmp] [LawfulEqCmp cmp]
  {m m' : ExtTreeMap κ ν cmp} {k : κ} {v : ν}

theorem rows_nodup : m.toList.Nodup := by
  refine ExtTreeMap.distinct_keys_toList.imp ?_
  intro a b hab heq
  exact hab (by rw [heq]; exact ReflCmp.compare_self)

theorem rows_of_get (h : m[k]? = some v) : m.toList.Perm ((k, v) :: (m.erase k).toList) := by
  have hout : (k, v) ∉ (m.erase k).toList := by
    rw [ExtTreeMap.mem_toList_iff_getElem?_eq_some, ExtTreeMap.getElem?_erase, if_pos ReflCmp.compare_self]
    simp
  rw [perm_ext_iff_of_nodup rows_nodup (nodup_cons.mpr ⟨hout, rows_nodup⟩)]
  rintro ⟨k', v'⟩
  rw [mem_cons, ExtTreeMap.mem_toList_iff_getElem?_eq_some, ExtTreeMap.mem_toList_iff_getElem?_eq_some,
    ExtTreeMap.getElem?_erase]
  by_cases hk : cmp k k' = .eq
  · obtain rfl := LawfulEqCmp.eq_of_compare hk
    rw [if_pos hk, h]
    simp [eq_comm]
  · rw [if_neg hk]
    have hne : k' ≠ k := fun he => hk (he ▸ ReflCmp.compare_self)
    simp [hne]

@[simp] theorem erase_insert_self : (m.insert k v).erase k = m.erase k := by
  apply ExtTreeMap.ext_getElem?
  intro a
  simp only [ExtTreeMap.getElem?_erase, ExtTreeMap.getElem?_insert]
  split <;> rfl

theorem erase_of_get_none (h : m[k]? = none) : m.erase k = m := by
  apply ExtTreeMap.ext_getElem?
  intro a
  rw [ExtTreeMap.getElem?_erase]
  split
  · next ha => rw [← LawfulEqCmp.eq_of_compare ha, h]
  · rfl

@[simp] theorem get_insert_self : (m.insert k v)[k]? = some v := by
  rw [ExtTreeMap.getElem?_insert, if_pos ReflCmp.compare_self]

theorem get_insert_of_ne {a : κ} (h : a ≠ k) : (m.insert k v)[a]? = m[a]? := by
  rw [ExtTreeMap.getElem?_insert, if_neg (fun he => h (LawfulEqCmp.eq_of_compare he).symm)]

@[simp] theorem get_erase_self : (m.erase k)[k]? = none := by
  rw [ExtTreeMap.getElem?_erase, if_pos ReflCmp.compare_self]

theorem get_erase_of_ne {a : κ} (h : a ≠ k) : (m.erase k)[a]? = m[a]? := by
  rw [ExtTreeMap.getElem?_erase, if_neg (fun he => h (LawfulEqCmp.eq_of_compare he).symm)]

@[simp] theorem erase_twice : (m.erase k).erase k = m.erase k := erase_of_get_none get_erase_self

/-- What holds of the row put in and of every other row holds of every row. -/
theorem of_get_insert {P : κ → ν → Prop} (h : ∀ a r, a ≠ k → m[a]? = some r → P a r) (hv : P k v) (a : κ) (r : ν)
    (hr : (m.insert k v)[a]? = some r) : P a r := by
  by_cases ha : a = k
  · rw [ha, get_insert_self] at hr
    cases hr
    rw [ha]
    exact hv
  · rw [get_insert_of_ne ha] at hr
    exact h a r ha hr

theorem get_of_get_erase {a : κ} {r : ν} (h : (m.erase k)[a]? = some r) : m[a]? = some r := by
  by_cases ha : a = k
  · rw [ha, get_erase_self] at h
    cases h
  · rwa [get_erase_of_ne ha] at h

theorem rows_insert : (m.insert k v).toList.Perm ((k, v) :: (m.erase k).toList) := by
  have h := rows_of_get (get_insert_self (m := m) (k := k) (v := v))
  rwa [erase_insert_self] at h

end rows

/-- The order of a linear order compares as equal only what is equal. -/
instance lawfulEqCmp_compare {κ : Type} [LinearOrder κ] : LawfulEqCmp (compare : κ → κ → Ordering) :=
  ⟨fun h => compare_eq_iff_eq.mp h⟩

section grouping
variable {κ M N : Type} {cmp : κ → κ → Ordering} [TransCmp cmp] [LawfulEqCmp cmp] [AddCommMonoid M]
  [AddCommMonoid N]

def addTo (m : ExtTreeMap κ M cmp) (part : κ × M) : ExtTreeMap κ M cmp :=
  m.insert part.1 (m[part.1]?.getD 0 + part.2)

def group (cmp : κ → κ → Ordering) [TransCmp cmp] (parts : List (κ × M)) : ExtTreeMap κ M cmp :=
  parts.foldl addTo ∅

def totalOver (f : κ → M →+ N) (rows : List (κ × M)) : N := (rows.map (fun row => f row.1 row.2)).sum

theorem totalOver_addTo (f : κ → M →+ N) (m : ExtTreeMap κ M cmp) (part : κ × M) :
    totalOver f (addTo m part).toList = totalOver f m.toList + f part.1 part.2 := by
  obtain ⟨k, q⟩ := part
  have hnew : totalOver f (addTo m (k, q)).toList = f k (m[k]?.getD 0 + q) + totalOver f (m.erase k).toList :=
    (rows_insert.map _).sum_eq
  rw [hnew, map_add]
  cases hk : m[k]? with
  | none =>
    rw [erase_of_get_none hk]
    simp [add_comm]
  | some old =>
    have hold : totalOver f m.toList = f k old + totalOver f (m.erase k).toList := ((rows_of_get hk).map _).sum_eq
    rw [hold, Option.getD_some]
    exact add_right_comm _ _ _

theorem totalOver_foldl (f : κ → M →+ N) (parts : List (κ × M)) (m : ExtTreeMap κ M cmp) :
    totalOver f (parts.foldl addTo m).toList = totalOver f m.toList + totalOver f parts := by
  induction parts generalizing m with
  | nil => simp [totalOver]
  | cons part parts ih =>
    rw [foldl_cons, ih, totalOver_addTo, add_assoc]
    rfl

/-- Collecting the parts under their keys keeps every additive total. -/
theorem totalOver_group (cmp : κ → κ → Ordering) [TransCmp cmp] [LawfulEqCmp cmp] (f : κ → M →+ N)
    (parts : List (κ × M)) : totalOver f (group cmp parts).toList = totalOver f parts := by
  have hempty : totalOver f (∅ : ExtTreeMap κ M cmp).toList = 0 := rfl
  rw [group, totalOver_foldl, hempty, zero_add]

end grouping

end RowSums
