import LiquidityMigration.Lib.Decimal
import LiquidityMigration.Lib.Disk
import LiquidityMigration.Wal.Record

/- The files of one log: the configured name is segment 1 and rotation adds `<name>.000002`, `<name>.000003`, …
   beside it. `segments` lists what a directory holds of a family, whatever else stands in it: exactly the family's
   names (`mem_segments`), strictly ascending (`segments_ascending`), and one past its last number is a name no file
   has (`freshIndex_free`). -/
namespace LiquidityMigration.Wal
open List Option Nat Decimal

abbrev Name := List Char

abbrev Dir := Disk.Files Name UInt8

def u64Bound : Nat := 2^64

def segmentName (family : Name) (index : Nat) : Name :=
  if index ≤ 1 then family else family ++ '.' :: Decimal.padded 6 index

/-- What is left of `name` after `pre`. -/
def stripStem (pre name : Name) : Option Name :=
  if pre.isPrefixOf name then some (name.drop pre.length) else none

/-- The number a directory entry carries as a later segment of the family. -/
def segmentIndex (family name : Name) : Option Nat := do
  let suffix ← stripStem (family ++ ['.']) name
  let index ← Decimal.parse u64Bound suffix
  if 2 ≤ index ∧ suffix = Decimal.padded 6 index then some index else none

def segments (family : Name) (d : Dir) : List (Nat × Name) :=
  let found := if family ∈ d then [(1, family)] else []
  let numbered := d.keys.filterMap (fun name => (segmentIndex family name).map (fun index => (index, name)))
  (found ++ numbered).mergeSort fun a b => a.1 ≤ b.1

variable {name : Name} {index : Nat}

theorem stripStem_eq_some {pre suffix : Name} : stripStem pre name = some suffix ↔ name = pre ++ suffix := by
  unfold stripStem
  constructor
  · intro h
    split at h
    · next hp =>
      obtain ⟨t, rfl⟩ := isPrefixOf_iff_prefix.mp hp
      simp at h
      rw [h]
    · cases h
  · rintro rfl
    simp

theorem segmentName_of_two_le {family : Name} (h : 2 ≤ index) :
    segmentName family index = family ++ '.' :: padded 6 index :=
  if_neg (by omega)

theorem segmentIndex_eq_some {family : Name} : segmentIndex family name = some index ↔
      2 ≤ index ∧ index < u64Bound ∧ name = segmentName family index := by
  unfold segmentIndex
  constructor
  · intro h
    simp only [bind, bind_eq_some_iff] at h
    obtain ⟨suffix, hs, i, hi, h⟩ := h
    split at h
    · next hc =>
      cases h
      refine ⟨hc.1, parse_lt hi, ?_⟩
      rw [stripStem_eq_some.mp hs, segmentName_of_two_le hc.1, hc.2, append_assoc]
      rfl
    · cases h
  · rintro ⟨h2, hb, rfl⟩
    have hs : stripStem (family ++ ['.']) (segmentName family index) = some (padded 6 index) := by
      rw [stripStem_eq_some, segmentName_of_two_le h2, append_assoc]
      rfl
    simp [hs, parse_padded 6 hb, h2]

theorem segmentName_injective {family : Name} {i j : Nat} (hi : 1 ≤ i) (hj : 1 ≤ j)
    (h : segmentName family i = segmentName family j) : i = j := by
  have hlong : ∀ k, 2 ≤ k → segmentName family k ≠ family := by
    intro k hk he
    rw [segmentName_of_two_le hk] at he
    simpa using congrArg length he
  rcases lt_or_ge i 2 with hi1 | hi2
  · rcases lt_or_ge j 2 with hj1 | hj2
    · omega
    · have : segmentName family i = family := if_pos (by omega)
      rw [this] at h
      exact absurd h.symm (hlong j hj2)
  · rcases lt_or_ge j 2 with hj1 | hj2
    · have : segmentName family j = family := if_pos (by omega)
      rw [this] at h
      exact absurd h (hlong i hi2)
    · rw [segmentName_of_two_le hi2, segmentName_of_two_le hj2] at h
      simp only [append_cancel_left_eq, cons.injEq, true_and] at h
      exact padded_injective 6 h

variable (family : Name) (d : Dir)

variable {family d} in
theorem mem_segments : (index, name) ∈ segments family d ↔
      1 ≤ index ∧ index < u64Bound ∧ name = segmentName family index ∧ name ∈ d := by
  unfold segments
  simp only [mem_mergeSort, mem_append, mem_filterMap, map_eq_some_iff, Prod.mk.injEq, segmentIndex_eq_some]
  constructor
  · rintro (h | ⟨n, hn, i, ⟨h2, hb, hname⟩, rfl, rfl⟩)
    · split at h
      · next hf =>
        simp only [mem_singleton, Prod.mk.injEq] at h
        obtain ⟨rfl, rfl⟩ := h
        exact ⟨le_refl _, by decide, (if_pos (le_refl 1)).symm, hf⟩
      · simp at h
    · exact ⟨by omega, hb, hname, AList.mem_keys.mpr hn⟩
  · rintro ⟨h1, hb, rfl, hmem⟩
    rcases lt_or_ge index 2 with hlt | h2
    · left
      have : index = 1 := by omega
      subst this
      have hname : segmentName family 1 = family := if_pos (le_refl 1)
      rw [hname] at hmem ⊢
      simp [hmem]
    · exact Or.inr ⟨_, AList.mem_keys.mp hmem, index, ⟨h2, hb, rfl⟩, rfl, rfl⟩

variable {family d} in
theorem segmentName_ne {i j : Nat} {path : Name}
    (hi : (i, path) ∈ segments family d) (hj : 1 ≤ j) (hname : name = segmentName family j) (hne : i ≠ j) :
    name ≠ path := by
  intro h
  apply hne
  apply segmentName_injective (mem_segments.mp hi).1 hj
  rw [← (mem_segments.mp hi).2.2.1, ← hname, h]

theorem segments_nodup : (segments family d).Nodup := by
  unfold segments
  rw [(mergeSort_perm _ _).nodup_iff, nodup_append]
  refine ⟨by split <;> simp, ?_, ?_⟩
  · refine (List.Nodup.filterMap ?_ d.keys_nodup)
    intro a b x hx hy
    simp only [mem_def, map_eq_some_iff] at hx hy
    obtain ⟨_, _, rfl⟩ := hx
    obtain ⟨_, _, h⟩ := hy
    exact (Prod.mk.inj h).2.symm
  · intro a ha b hb
    split at ha
    · simp only [mem_singleton] at ha
      simp only [mem_filterMap, map_eq_some_iff, segmentIndex_eq_some] at hb
      obtain ⟨_, _, i, ⟨h2, _⟩, rfl⟩ := hb
      subst ha
      intro h
      have := (Prod.mk.inj h).1
      omega
    · simp at ha

theorem segments_ascending : (segments family d).Pairwise (fun a b => a.1 < b.1) := by
  have hle : (segments family d).Pairwise (fun a b => a.1 ≤ b.1) := by
    have := @pairwise_mergeSort _ (fun a b : Nat × Name => a.1 ≤ b.1)
      (by simp; omega) (by simp; omega)
      ((if family ∈ d then [(1, family)] else []) ++
        d.keys.filterMap (fun name => (segmentIndex family name).map (fun index => (index, name))))
    simpa [segments] using this
  refine (hle.and (segments_nodup family d)).imp_of_mem ?_
  rintro ⟨i, x⟩ ⟨j, y⟩ ha hb ⟨hij, hne⟩
  rw [mem_segments] at ha hb
  rcases lt_or_eq_of_le hij with hlt | heq
  · exact hlt
  · simp only at heq
    subst heq
    exact absurd (by rw [ha.2.2.1, hb.2.2.1]) hne

def lastIndex (family : Name) (d : Dir) : Nat := ((segments family d).getLast?.map Prod.fst).getD 1

variable {family d} in
theorem le_lastIndex (h : (index, name) ∈ segments family d) : index ≤ lastIndex family d := by
  unfold lastIndex
  rcases eq_nil_or_concat (segments family d) with hnil | ⟨init, last, hcat⟩
  · rw [hnil] at h; simp at h
  · have hasc := segments_ascending family d
    rw [hcat, concat_eq_append] at h hasc ⊢
    rw [getLast?_append]
    simp only [getLast?_singleton, some_or, map_some, getD_some]
    rcases mem_append.mp h with hi | hl
    · exact le_of_lt ((pairwise_append.mp hasc).2.2 _ hi _ (by simp))
    · rw [← mem_singleton.mp hl]

variable {family d} in
/-- No file of the directory has the name one past the highest number. -/
theorem freshIndex_free (h : lastIndex family d + 1 < u64Bound) : segmentName family (lastIndex family d + 1) ∉ d := by
  intro hmem
  have := le_lastIndex (mem_segments.mpr ⟨succ_pos _, h, rfl, hmem⟩)
  omega

end LiquidityMigration.Wal
