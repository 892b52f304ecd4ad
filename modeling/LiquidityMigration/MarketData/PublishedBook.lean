import LiquidityMigration.MarketData.Book

/- The book that is published, against the venue's: a map from prices to quantities, in which a frame puts and
   deletes prices. The array follows the map as long as there is room (`Roomy`): the first fifty rows say all there
   is to say, and no price left in the end has fifty better ones beside it on the way. Then what falls out is never
   missed (`change_follows`, `applySide_shows`). -/
namespace LiquidityMigration.MarketData
open Ranked AList BookLevel Side Nat FeedState Option
open List hiding mem_keys getD getElem?_eq_some_iff

/-! ## The array as a list -/

namespace Side

theorem ahead_ranking {P : Type} [LinearOrder P] (bids : Bool) : Ranking (ahead (P := P) bids) := by
  cases bids with
  | true =>
    exact ⟨fun a => lt_irrefl a, fun h h' => lt_trans h' h, fun a b => (lt_trichotomy b a).imp_right (.imp_left .symm)⟩
  | false => exact ⟨fun a => lt_irrefl a, fun h h' => lt_trans h h', lt_trichotomy⟩

section array
variable {P Q : Type} {side : Side P Q} {index : Nat} {row : BookLevel P Q}

theorem getElem?_copyWithin {α : Type} {out : List α} {lo hi dest i : Nat} (h : dest + (hi - lo) ≤ out.length)
    (hhi : hi ≤ out.length) :
    (copyWithin out lo hi dest)[i]? = if dest ≤ i ∧ i < dest + (hi - lo) then out[i - dest + lo]? else out[i]? := by
  rw [copyWithin, getElem?_mapIdx]
  split
  · have hlt : i < out.length := by omega
    have hlt' : i - dest + lo < out.length := by omega
    rw [getElem?_eq_getElem hlt, getElem?_eq_getElem hlt', map_some, List.getD, getElem?_eq_getElem hlt', getD_some]
  · cases out[i]? <;> rfl

theorem length_active : side.active.length = side.len := by
  rw [active, length_take, side.size]
  exact min_eq_left side.fits

theorem active_requantify (qty : Q) :
    (side.requantify index qty).active = side.active.modify index (fun level => { level with qty := qty }) := by
  apply ext_getElem?
  intro i
  simp only [active, requantify, getElem?_take, getElem?_modify]
  split <;> rfl

theorem active_remove [Zero P] [Zero Q] (h : index < side.len) :
    (side.remove index).active = side.active.eraseIdx index := by
  have hsize := side.size
  have hfits := side.fits
  apply ext_getElem?
  intro i
  simp only [active, remove, getElem?_take, getElem?_set, getElem?_eraseIdx]
  rw [getElem?_copyWithin (by omega) (by omega)]
  by_cases hi : i < side.len - 1
  · rw [if_pos hi, if_neg (by omega)]
    by_cases hbehind : i < index
    · rw [if_neg (by omega), if_pos hbehind, if_pos (by omega)]
    · rw [if_pos (by omega), if_neg hbehind, if_pos (by omega), show i - index + (index + 1) = i + 1 by omega]
  · rw [if_neg hi]
    split
    · omega
    · rw [if_neg (by omega)]

theorem getElem?_insert (hroom : index < bookDepth) (i : Nat) :
    (side.insert index row).levels[i]? = if i < index then side.levels[i]? else if i = index then some row
      else if i < min (side.len + 1) bookDepth then side.levels[i - 1]? else side.levels[i]? := by
  have hsize := side.size
  have hmin : min (side.len + 1) bookDepth ≤ bookDepth := min_le_right _ _
  rw [insert]
  dsimp only
  generalize min (side.len + 1) bookDepth = newLen at hmin
  rw [getElem?_set]
  rcases lt_trichotomy i index with hi | rfl | hi
  · rw [if_neg (ne_of_gt hi), if_pos hi]
    split
    · rw [getElem?_copyWithin (by omega) (by omega), if_neg (by omega)]
    · rfl
  · rw [if_pos rfl, if_neg (lt_irrefl _), if_pos rfl, if_pos]
    split
    · rw [copyWithin, length_mapIdx]
      omega
    · omega
  · rw [if_neg (Nat.ne_of_lt hi), if_neg (Nat.not_lt_of_gt hi), if_neg (Nat.ne_of_gt hi)]
    split
    · rw [getElem?_copyWithin (by omega) (by omega)]
      by_cases hnew : i < newLen
      · rw [if_pos (by omega), if_pos hnew, show i - (index + 1) + index = i - 1 by omega]
      · rw [if_neg (by omega), if_neg hnew]
    · rw [if_neg (by omega)]

theorem active_insert (h : index ≤ side.len) (hroom : index < bookDepth) :
    (side.insert index row).active = (side.active.insertIdx index row).take bookDepth := by
  have hfits := side.fits
  have hlen : (side.insert index row).len = min (side.len + 1) bookDepth := rfl
  apply ext_getElem?
  intro i
  rw [active, hlen, getElem?_take, getElem?_take, getElem?_insert hroom, getElem?_insertIdx,
    length_active, active, getElem?_take, getElem?_take]
  rcases lt_trichotomy i index with hi | rfl | hi
  · rw [if_pos (by omega), if_pos hi, if_pos (by omega), if_pos hi, if_pos (by omega)]
  · rw [if_pos (by omega), if_neg (lt_irrefl _), if_pos rfl, if_pos hroom, if_neg (lt_irrefl _), if_pos rfl, if_pos h]
  · rw [if_neg (not_lt_of_gt hi), if_neg (ne_of_gt hi), if_neg (not_lt_of_gt hi), if_neg (ne_of_gt hi)]
    by_cases hnew : i < min (side.len + 1) bookDepth
    · rw [if_pos hnew, if_pos hnew, if_pos (by omega), if_pos (by omega)]
    · rw [if_neg hnew]
      split
      · rw [if_neg (by omega)]
      · rfl

end array

end Side

/-! ## The buffer -/

theorem take_take_append {α : Type} (l r : List α) (n : Nat) : (l.take n ++ r).take n = (l ++ r).take n := by
  by_cases h : l.length ≤ n
  · rw [take_of_length_le h]
  · have hlength : (l.take n).length = n := length_take_of_le (by omega)
    rw [take_append_of_le_length (by omega), take_append_of_le_length (by omega), take_take, min_self]

theorem push_levels {P Q : Type} (out : Levels P Q) (level : BookLevel P Q) :
    (out.push level).levels = (out.levels ++ [level]).take bookDepth := by
  have hfits := out.fits
  unfold Levels.push
  split
  · next h => rw [take_of_length_le (by rw [length_append]; exact h)]
  · next h => rw [take_append_of_le_length (by omega), take_of_length_le hfits]

/-! ## A side against the venue's map -/

section follows
variable {P Q : Type} [LinearOrder P] {bids : Bool}

abbrev VenueSide (P Q : Type) := AList fun _ : P => Q

def VenueSide.better (bids : Bool) (m : VenueSide P Q) (px : P) : Nat :=
  (m.keys.filter (fun other => Side.ahead bids other px)).length

/-- The array holds levels of the map, in order, and none of the prices to keep is missing. -/
structure Follows (bids : Bool) (keep : P → Prop) (side : Side P Q) (m : VenueSide P Q) : Prop where
  sorted : Sorted BookLevel.px (Side.ahead bids) side.active
  sound : ∀ level ∈ side.active, m.lookup level.px = some level.qty
  kept : ∀ level, keep level.px → m.lookup level.px = some level.qty → level ∈ side.active

/-- The array is the map: its levels stand in order and are those of the map. -/
structure Shows (bids : Bool) (side : Side P Q) (m : VenueSide P Q) : Prop where
  sorted : Sorted BookLevel.px (Side.ahead bids) side.active
  levels : ∀ level, level ∈ side.active ↔ m.lookup level.px = some level.qty

theorem Shows.len_eq_zero {bids : Bool} {side : Side P Q} {m : VenueSide P Q} (h : Shows bids side m) :
    side.len = 0 ↔ m.keys = [] := by
  rw [← length_active, length_eq_zero_iff, eq_nil_iff_forall_not_mem, eq_nil_iff_forall_not_mem]
  constructor
  · intro hempty px hpx
    obtain ⟨qty, hqty⟩ := isSome_iff_exists.mp (lookup_isSome.mpr (mem_keys.mpr hpx))
    exact hempty ⟨px, qty⟩ ((h.levels ⟨px, qty⟩).mpr hqty)
  · intro hempty level hlevel
    refine hempty level.px (mem_keys.mp (lookup_isSome.mp ?_))
    rw [(h.levels level).mp hlevel]
    rfl

variable {keep : P → Prop} {side : Side P Q} {m : VenueSide P Q} {row : BookLevel P Q} {index : Nat}

theorem active_split (h : side.active.findIdx? (fun level => level.px = row.px) = some index) :
    ∃ front x back, side.active = front ++ x :: back ∧ x.px = row.px ∧ index < side.len ∧
      side.active.eraseIdx index = front ++ back ∧
      ∀ f, side.active.modify index f = front ++ f x :: back := by
  obtain ⟨hlt, hpx, -⟩ := findIdx?_eq_some_iff_getElem.mp h
  refine ⟨side.active.take index, side.active[index], side.active.drop (index + 1), ?_,
    of_decide_eq_true hpx, ?_, ?_, ?_⟩
  · rw [getElem_cons_drop, take_append_drop]
  · rw [← length_active]
    exact hlt
  · exact eraseIdx_eq_take_drop_succ _ _
  · exact fun f => modify_eq_take_cons_drop hlt

theorem eq_of_lookup_insert {level : BookLevel P Q} (hpx : level.px = row.px)
    (h : (m.insert row.px row.qty).lookup level.px = some level.qty) : level = row := by
  rw [hpx, lookup_insert] at h
  cases level
  cases row
  cases hpx
  cases h
  rfl

theorem Follows.requantify (h : Follows bids keep side m)
    (hfound : side.active.findIdx? (fun level => level.px = row.px) = some index) :
    Follows bids keep (side.requantify index row.qty) (m.insert row.px row.qty) := by
  obtain ⟨front, x, back, hactive, hpx, -, -, hmodify⟩ := active_split hfound
  have hsorted := h.sorted
  rw [hactive] at hsorted
  have hnew : (side.requantify index row.qty).active = front ++ row :: back := by
    rw [active_requantify, hmodify, hpx]
  have hne : ∀ level ∈ front ++ back, level.px ≠ row.px := by
    intro level hlevel
    rw [← hpx]
    exact hsorted.key_ne (ahead_ranking bids) hlevel
  constructor
  · rw [hnew]
    exact hsorted.replace hpx.symm
  · intro level hlevel
    rw [hnew] at hlevel
    rcases mem_append.mp hlevel with hlevel | hlevel
    · rw [lookup_insert_ne (hne level (mem_append_left _ hlevel))]
      exact h.sound level (hactive ▸ mem_append_left _ hlevel)
    · rcases mem_cons.mp hlevel with rfl | hlevel
      · exact lookup_insert _
      · rw [lookup_insert_ne (hne level (mem_append_right _ hlevel))]
        exact h.sound level (hactive ▸ mem_append_right _ (mem_cons_of_mem _ hlevel))
  · intro level hkeep hlookup
    rw [hnew]
    by_cases hrow : level.px = row.px
    · -- the map has the new quantity there
      rw [eq_of_lookup_insert hrow hlookup]
      exact mem_append_right _ mem_cons_self
    · rw [lookup_insert_ne hrow] at hlookup
      have hold := h.kept level hkeep hlookup
      rw [hactive, mem_append, mem_cons] at hold
      rcases hold with hold | rfl | hold
      · exact mem_append_left _ hold
      · exact absurd hpx hrow
      · exact mem_append_right _ (mem_cons_of_mem _ hold)

theorem Follows.skip (h : Follows bids keep side m) (hnew : ∀ level ∈ side.active, level.px ≠ row.px) :
    Follows bids keep side (m.erase row.px) := by
  refine ⟨h.sorted, ?_, ?_⟩
  · intro level hlevel
    rw [lookup_erase_ne (hnew level hlevel)]
    exact h.sound level hlevel
  · intro level hkeep hlookup
    have hrow : level.px ≠ row.px := by
      intro heq
      rw [heq, lookup_erase] at hlookup
      cases hlookup
    rw [lookup_erase_ne hrow] at hlookup
    exact h.kept level hkeep hlookup

/-- With as many prices of the map ahead of a level as the array has slots, the level is not one
to keep. -/
theorem full_ahead {levels : List (BookLevel P Q)} (level : BookLevel P Q)
    (hsorted : Sorted BookLevel.px (Side.ahead bids) levels)
    (hsound : ∀ other ∈ levels, m.lookup other.px = some other.qty)
    (hahead : ∀ other ∈ levels, Side.ahead bids other.px level.px) : levels.length ≤ m.better bids level.px := by
  have hnodup := hsorted.keys_nodup (ahead_ranking bids)
  have hsub : levels.map px ⊆ m.keys.filter (fun other => ahead bids other level.px) := by
    intro px hpx
    obtain ⟨other, hother, rfl⟩ := mem_map.mp hpx
    refine mem_filter.mpr ⟨?_, decide_eq_true (hahead other hother)⟩
    rw [← mem_keys, ← lookup_isSome, hsound other hother]
    rfl
  calc levels.length = (levels.map px).length := (length_map _).symm
    _ ≤ m.better bids level.px := (subperm_of_subset hnodup hsub).length_le

theorem active_placed (hlen : side.len ≤ bookDepth) :
    (if bookDepth ≤ (side.active.findIdx? (fun level => Side.ahead bids row.px level.px)).getD side.len then side
      else side.insert ((side.active.findIdx? (fun level => Side.ahead bids row.px level.px)).getD side.len)
        row).active =
      (inOrder BookLevel.px (Side.ahead bids) row side.active).take bookDepth := by
  have hindex : (side.active.findIdx? (fun level => ahead bids row.px level.px)).getD side.len =
      side.active.findIdx (fun level => ahead bids row.px level.px) := by
    rw [findIdx_eq_getD_findIdx?, length_active]
  have hle : side.active.findIdx (fun level => ahead bids row.px level.px) ≤ side.len := by
    rw [← length_active]
    exact findIdx_le_length
  rw [hindex, inOrder_eq_insertIdx]
  generalize side.active.findIdx (fun level => ahead bids row.px level.px) = index at hle
  split
  · next hfull =>
    -- the new level would stand behind a full side
    have hlength : side.active.length = bookDepth := by
      rw [length_active]
      omega
    have hat : index = side.active.length := by omega
    rw [hat, insertIdx_length_self, take_append_of_le_length (by omega), take_of_length_le (by omega)]
  · next hroom => exact active_insert hle (by omega)

theorem Follows.place (h : Follows bids keep side m) (hnew : ∀ level ∈ side.active, level.px ≠ row.px)
    {next : Side P Q} (hnext : next.active = (inOrder BookLevel.px (Side.ahead bids) row side.active).take bookDepth)
    (hroom : ∀ px, keep px → px ∈ m.insert row.px row.qty →
      VenueSide.better bids (m.insert row.px row.qty) px < bookDepth) :
    Follows bids keep next (m.insert row.px row.qty) := by
  have hsorted := h.sorted.inOrder (x := row) (ahead_ranking bids) hnew
  have hsound : ∀ level ∈ inOrder px (ahead bids) row side.active,
      (m.insert row.px row.qty).lookup level.px = some level.qty := by
    intro level hlevel
    rcases mem_inOrder.mp hlevel with rfl | hlevel
    · exact lookup_insert _
    · rw [lookup_insert_ne (hnew level hlevel)]
      exact h.sound level hlevel
  constructor
  · rw [hnext]
    exact hsorted.take
  · intro level hlevel
    rw [hnext] at hlevel
    exact hsound level (mem_of_mem_take hlevel)
  · intro level hkeep hlookup
    have hmem : level ∈ inOrder px (ahead bids) row side.active := by
      rw [mem_inOrder]
      by_cases hrow : level.px = row.px
      · exact .inl (eq_of_lookup_insert hrow hlookup)
      · rw [lookup_insert_ne hrow] at hlookup
        exact .inr (h.kept level hkeep hlookup)
    rw [hnext]
    by_contra hlost
    obtain ⟨hlength, hahead⟩ := ahead_of_lost hsorted hmem hlost
    have hin : level.px ∈ m.insert row.px row.qty := by
      rw [← lookup_isSome, hlookup]
      rfl
    have hfull := full_ahead level hsorted.take
      (fun other hother => hsound other (mem_of_mem_take hother)) hahead
    rw [hlength] at hfull
    exact absurd (hroom level.px hkeep hin) (not_lt.mpr hfull)

variable [Zero P] [Zero Q]

theorem Follows.remove (h : Follows bids keep side m)
    (hfound : side.active.findIdx? (fun level => level.px = row.px) = some index) :
    Follows bids keep (side.remove index) (m.erase row.px) := by
  obtain ⟨front, x, back, hactive, hpx, hlt, herase, -⟩ := active_split hfound
  have hsorted := h.sorted
  rw [hactive] at hsorted
  have hnew : (side.remove index).active = front ++ back := by rw [active_remove hlt, herase]
  have hmem : ∀ level, level ∈ front ++ back → level ∈ side.active := by
    intro level hlevel
    rw [hactive]
    exact List.Sublist.subset (List.Sublist.append_left (sublist_cons_self _ _) _) hlevel
  constructor
  · rw [hnew]
    exact hsorted.remove
  · intro level hlevel
    rw [hnew] at hlevel
    have hne : level.px ≠ row.px := by
      rw [← hpx]
      exact hsorted.key_ne (ahead_ranking bids) hlevel
    rw [lookup_erase_ne hne]
    exact h.sound level (hmem level hlevel)
  · intro level hkeep hlookup
    rw [hnew]
    have hrow : level.px ≠ row.px := by
      intro heq
      rw [heq, lookup_erase] at hlookup
      cases hlookup
    rw [lookup_erase_ne hrow] at hlookup
    have hold := h.kept level hkeep hlookup
    rw [hactive, mem_append, mem_cons] at hold
    rcases hold with hold | rfl | hold
    · exact mem_append_left _ hold
    · exact absurd hpx hrow
    · exact mem_append_right _ hold

theorem shows_empty : Shows bids (Side.empty (P := P) (Q := Q)) ∅ := by
  refine ⟨List.Pairwise.nil, fun level => iff_of_false (not_mem_nil) ?_⟩
  rw [lookup_empty]
  simp

variable [LinearOrder Q]

def VenueSide.change (m : VenueSide P Q) (row : BookLevel P Q) : VenueSide P Q :=
  if 0 < row.qty then m.insert row.px row.qty else m.erase row.px

theorem change_follows (h : Follows bids keep side m)
    (hroom : ∀ px, keep px → px ∈ m.change row → (m.change row).better bids px < bookDepth) :
    Follows bids keep (side.change bids row) (m.change row) := by
  unfold VenueSide.change at hroom ⊢
  unfold change
  split
  · next index hfound =>
    split
    · exact h.requantify hfound
    · exact h.remove hfound
  · next hnone =>
    have hnew : ∀ level ∈ side.active, level.px ≠ row.px := by
      intro level hlevel
      exact of_decide_eq_false (findIdx?_eq_none_iff.mp hnone level hlevel)
    by_cases hqty : 0 < row.qty
    · rw [if_pos hqty] at hroom ⊢
      rw [if_neg (not_le.mpr hqty)]
      exact h.place hnew (active_placed side.fits) hroom
    · rw [if_neg hqty, if_pos (not_lt.mp hqty)]
      exact h.skip hnew

/-! ## A frame's rows -/

def VenueSide.after (m : VenueSide P Q) (rows : List (P × Q)) : VenueSide P Q :=
  rows.foldl (fun m row => m.change ⟨row.1, row.2⟩) m

/-- The first fifty rows say all that the rows say, and on the way no price that is left in the
end has fifty others ahead of it. -/
def Roomy (bids : Bool) (m : VenueSide P Q) (rows : List (P × Q)) : Prop :=
  (∀ px, (m.after (rows.take bookDepth)).lookup px = (m.after rows).lookup px) ∧
    ∀ k ≤ bookDepth, ∀ px, px ∈ m.after rows → px ∈ m.after (rows.take k) →
      (m.after (rows.take k)).better bids px < bookDepth

omit [Zero P] in
theorem roomy_of_small {rows : List (P × Q)} (hrows : rows.length ≤ bookDepth)
    (hsmall : ∀ k ≤ rows.length, (m.after (rows.take k)).keys.length ≤ bookDepth) : Roomy bids m rows := by
  refine ⟨fun px => by rw [take_of_length_le hrows], fun k _ px _ hpx => ?_⟩
  have hkeys : (m.after (rows.take k)).keys.length ≤ bookDepth := by
    by_cases hk : k ≤ rows.length
    · exact hsmall k hk
    · rw [take_of_length_le (by omega), ← take_length (l := rows)]
      exact hsmall rows.length le_rfl
  -- the price itself is not ahead of itself
  refine lt_of_lt_of_le (length_filter_lt_length_iff_exists.mpr ⟨px, mem_keys.mp hpx, ?_⟩) hkeys
  simpa using (ahead_ranking bids).irrefl px

def asLevels (rows : List (P × Q)) : List (BookLevel P Q) := rows.map fun row => ⟨row.1, row.2⟩

theorem foldl_follows {rows : List (P × Q)} (h : Follows bids keep side m)
    (hroom : ∀ k ≤ rows.length, ∀ px, keep px → px ∈ m.after (rows.take k) →
      (m.after (rows.take k)).better bids px < bookDepth) :
    Follows bids keep ((asLevels rows).foldl (Side.change bids) side) (m.after rows) := by
  induction rows generalizing side m with
  | nil => exact h
  | cons row rows ih =>
    have hfirst := hroom 1 (by simp)
    rw [take_succ_cons, take_zero] at hfirst
    apply ih (change_follows h hfirst)
    intro k hk px hpx
    have hk' := hroom (k + 1) (by simpa using hk) px hpx
    rw [take_succ_cons] at hk'
    exact hk'

theorem applySide_shows {rows : List (P × Q)} {levels : Levels P Q} (h : Shows bids side m) (hroom : Roomy bids m rows)
    (hlevels : levels.levels = asLevels (rows.take bookDepth)) :
    Shows bids (side.applySide bids levels) (m.after rows) := by
  have hstart : Follows bids (fun px => px ∈ m.after rows) side m :=
    ⟨h.sorted, fun level hlevel => (h.levels level).mp hlevel, fun level _ hlookup => (h.levels level).mpr hlookup⟩
  have hend : Follows bids (fun px => px ∈ m.after rows) (side.applySide bids levels)
      (m.after (rows.take bookDepth)) := by
    rw [applySide, hlevels]
    refine foldl_follows hstart ?_
    intro k hk px hkeep hpx
    have hle : k ≤ bookDepth := hk.trans (length_take_le _ _)
    rw [take_take, min_eq_left hle] at hpx ⊢
    exact hroom.2 k hle px hkeep hpx
  refine ⟨hend.sorted, fun level => ⟨fun hlevel => ?_, fun hlookup => ?_⟩⟩
  · rw [← hroom.1]
    exact hend.sound level hlevel
  · refine hend.kept level ?_ (hroom.1 level.px ▸ hlookup)
    rw [← lookup_isSome, hlookup]
    rfl

/-! ## Reading the rows -/

theorem readLevel_eq {row : P × Q} (h : 0 < row.1 ∧ 0 ≤ row.2) : readLevel row = .ok ⟨row.1, row.2⟩ := by
  unfold readLevel
  simp [Checks.require, h.1, h.2, bind, Except.bind]

theorem deserialize_eq {rows : List (P × Q)} (h : ∀ row ∈ rows, 0 < row.1 ∧ 0 ≤ row.2) :
    ∃ levels, Levels.deserialize rows = .ok levels ∧ levels.levels = asLevels (rows.take bookDepth) := by
  -- from any buffer, by the rows that are still to come
  have hgen : ∀ (rows : List (P × Q)) (out : Levels P Q), (∀ row ∈ rows, 0 < row.1 ∧ 0 ≤ row.2) →
      ∃ levels, rows.foldlM (fun out row => (readLevel row).map out.push) out = .ok levels ∧
        levels.levels = (out.levels ++ asLevels rows).take bookDepth := by
    intro rows
    induction rows with
    | nil =>
      intro out _
      refine ⟨out, rfl, ?_⟩
      rw [asLevels, map_nil, append_nil, take_of_length_le out.fits]
    | cons row rows ih =>
      intro out hrows
      obtain ⟨levels, hfold, hlevels⟩ := ih (out.push ⟨row.1, row.2⟩) fun r hr => hrows r (mem_cons_of_mem _ hr)
      refine ⟨levels, ?_, ?_⟩
      · rw [foldlM_cons, readLevel_eq (hrows row mem_cons_self)]
        exact hfold
      · rw [hlevels, push_levels]
        show _ = (out.levels ++ (⟨row.1, row.2⟩ :: asLevels rows)).take bookDepth
        rw [take_take_append, append_assoc, singleton_append]
  obtain ⟨levels, hfold, hlevels⟩ := hgen rows ⟨[], zero_le _⟩ h
  refine ⟨levels, hfold, ?_⟩
  rw [hlevels, nil_append, asLevels, asLevels, map_take]

end follows

/-! ## Frames -/

/-- A frame of the venue's depth-50 stream of a symbol. -/
structure VenueFrame (P Q : Type) [LinearOrder P] [Zero P] [LinearOrder Q] [Zero Q] where
  snapshot : Bool
  (updateId seq : Nat)
  (bids asks : Option (List (P × Q)))
  venueTsMs : Int
  recvNs : Nat
  bids_ok : ∀ rows, bids = some rows → ∀ row ∈ rows, 0 < row.1 ∧ 0 ≤ row.2
  asks_ok : ∀ rows, asks = some rows → ∀ row ∈ rows, 0 < row.1 ∧ 0 ≤ row.2

structure VenueBook (P Q : Type) where
  (bids asks : VenueSide P Q)

section frames
variable {P Q : Type} [LinearOrder P] [Zero P] [LinearOrder Q] [Zero Q] {bids : Bool}

/-- What the rows of a frame change: nothing is left of the book before a snapshot. -/
def VenueBook.base (book : VenueBook P Q) (frame : VenueFrame P Q) : VenueBook P Q :=
  if frame.snapshot then ⟨∅, ∅⟩ else book

def VenueBook.after (book : VenueBook P Q) (frame : VenueFrame P Q) : VenueBook P Q :=
  ⟨(book.base frame).bids.after (frame.bids.getD []), (book.base frame).asks.after (frame.asks.getD [])⟩

def Fits (book : VenueBook P Q) (frame : VenueFrame P Q) : Prop :=
  Roomy true (book.base frame).bids (frame.bids.getD []) ∧ Roomy false (book.base frame).asks (frame.asks.getD [])

def readSide : Option (List (P × Q)) → Except String (Option (Levels P Q))
  | none => .ok none
  | some rows => (Levels.deserialize rows).map some

def VenueFrame.read (symbol : String) (frame : VenueFrame P Q) : Except String (BookFrame P Q) := do
  let bids ← readSide frame.bids
  let asks ← readSide frame.asks
  .ok {
    symbol := symbol
    depth := 50
    snapshot := frame.snapshot
    updateId := frame.updateId
    seq := frame.seq
    bids := bids
    asks := asks
    venueTsMs := frame.venueTsMs }

def Reads (rows : Option (List (P × Q))) (levels : Option (Levels P Q)) : Prop :=
  match rows, levels with
  | none, none => True
  | some rows, some levels => levels.levels = asLevels (rows.take bookDepth)
  | _, _ => False

theorem readSide_eq {rows : Option (List (P × Q))} (h : ∀ r, rows = some r → ∀ row ∈ r, 0 < row.1 ∧ 0 ≤ row.2) :
    ∃ levels, readSide rows = .ok levels ∧ Reads rows levels := by
  cases rows with
  | none => exact ⟨none, rfl, trivial⟩
  | some rows =>
    obtain ⟨levels, hread, hlevels⟩ := deserialize_eq (h rows rfl)
    refine ⟨some levels, ?_, hlevels⟩
    rw [readSide, hread]
    rfl

theorem read_eq (symbol : String) (frame : VenueFrame P Q) :
    ∃ read, frame.read symbol = .ok read ∧ read.symbol = symbol ∧ read.depth = 50 ∧ read.snapshot = frame.snapshot ∧
      read.updateId = frame.updateId ∧ Reads frame.bids read.bids ∧ Reads frame.asks read.asks := by
  obtain ⟨bids, hbids, hbids'⟩ := readSide_eq frame.bids_ok
  obtain ⟨asks, hasks, hasks'⟩ := readSide_eq frame.asks_ok
  unfold VenueFrame.read
  rw [hbids, hasks]
  exact ⟨_, rfl, rfl, rfl, rfl, rfl, hbids', hasks'⟩

variable {side : Side P Q} {m : VenueSide P Q} {rows : Option (List (P × Q))} {levels : Option (Levels P Q)}

theorem restated_shows (hread : Reads rows levels) (hroom : Roomy bids ∅ (rows.getD [])) :
    Shows bids (BookState.restated bids levels) (VenueSide.after ∅ (rows.getD [])) := by
  cases rows with
  | none =>
    cases levels with
    | none => exact shows_empty
    | some levels => exact hread.elim
  | some rows =>
    cases levels with
    | none => exact hread.elim
    | some levels => exact applySide_shows shows_empty hroom hread

theorem changed_shows (h : Shows bids side m) (hread : Reads rows levels) (hroom : Roomy bids m (rows.getD [])) :
    Shows bids (BookState.changed bids 50 side levels) (m.after (rows.getD [])) := by
  cases rows with
  | none =>
    cases levels with
    | none => exact h
    | some levels => exact hread.elim
  | some rows =>
    cases levels with
    | none => exact hread.elim
    | some levels =>
      have hshows := applySide_shows h hroom hread
      show Shows bids (if levels.levels.isEmpty then side else _) _
      split
      · next hempty =>
        -- no rows at all
        rw [applySide, isEmpty_iff.mp hempty] at hshows
        exact hshows
      · exact hshows

structure ShowsBook (depth : Depth P Q) (book : VenueBook P Q) : Prop where
  bids : Shows true depth.bids book.bids
  asks : Shows false depth.asks book.asks

variable {state : BookState P Q} {book : VenueBook P Q} {frame : VenueFrame P Q} {read : BookFrame P Q}

theorem absorb_shows (recvNs : Nat) (hdepth : read.depth = 50) (hsnap : read.snapshot = frame.snapshot)
    (hbids : Reads frame.bids read.bids) (hasks : Reads frame.asks read.asks) (hfits : Fits book frame)
    (hnext : frame.snapshot = true ∨
      state.hasSnapshot = true ∧ read.updateId = state.lastUpdateId + 1 ∧ ShowsBook state.depth book) :
    ∃ next, state.absorb read recvNs = .ok next ∧ next.hasSnapshot = true ∧ next.lastUpdateId = read.updateId ∧
      ShowsBook next.depth (book.after frame) := by
  obtain ⟨hroomB, hroomA⟩ := hfits
  unfold BookState.absorb
  rw [hsnap]
  by_cases hs : frame.snapshot = true
  · have hbase : book.base frame = ⟨∅, ∅⟩ := if_pos hs
    rw [hbase] at hroomB hroomA
    rw [if_pos hs, VenueBook.after, hbase]
    exact ⟨_, rfl, rfl, rfl, restated_shows hbids hroomB, restated_shows hasks hroomA⟩
  · have hbase : book.base frame = book := if_neg hs
    obtain ⟨hhas, hid, hshows⟩ := hnext.resolve_left hs
    rw [hbase] at hroomB hroomA
    rw [if_neg hs, if_neg (by simp [hhas]), if_neg (by simp [hid]), hdepth, VenueBook.after, hbase]
    exact ⟨_, rfl, rfl, rfl, changed_shows hshows.bids hbids hroomB, changed_shows hshows.asks hasks hroomA⟩

end frames

section published
variable {P Q : Type} [LinearOrder P] [Zero P] [Zero Q]

/-- A depth that shows the venue's book was published, or nothing where a side of it is empty. -/
def Published (book : VenueBook P Q) (out : Applied P Q) : Prop :=
  (book.bids.keys ≠ [] ∧ book.asks.keys ≠ [] → ∃ id depth, out = .depth id depth ∧ ShowsBook depth book) ∧
    (¬ (book.bids.keys ≠ [] ∧ book.asks.keys ≠ []) → out = .nothing)

theorem published_shows {id : Nat} {held : BookState P Q} {book : VenueBook P Q} (h : ShowsBook held.depth book) :
    Published book (FeedState.published 50 id held) := by
  have hiff : held.depth.bids.len = 0 ∨ held.depth.asks.len = 0 ↔ ¬ (book.bids.keys ≠ [] ∧ book.asks.keys ≠ []) := by
    rw [h.bids.len_eq_zero, h.asks.len_eq_zero, not_and_or, not_ne_iff, not_ne_iff]
  constructor
  · intro hboth
    rw [published, if_neg (fun hz => hiff.mp hz hboth), if_neg (by decide)]
    exact ⟨id, held.depth, rfl, h⟩
  · intro hnot
    rw [published, if_pos (hiff.mpr hnot)]

end published

/-! ## A run of the feed -/

/-- A book frame on the wire: one of the symbol's depth-50 stream, or another one in between. -/
inductive Arrival (symbol : String) (P Q : Type) [LinearOrder P] [Zero P] [LinearOrder Q] [Zero Q] where
  | own (frame : VenueFrame P Q)
  | other (frame : BookFrame P Q) (recvNs : Nat) (apart : frame.symbol ≠ symbol ∨ frame.depth ≠ 50)

open Arrival

section run
variable {P Q : Type} [LinearOrder P] [Zero P] [LinearOrder Q] [Zero Q] {symbol : String}

def Arrival.apply (state : FeedState P Q) : Arrival symbol P Q → FeedState P Q × Applied P Q
  | .own frame =>
    match frame.read symbol with
    | .ok read => state.applyBook read frame.recvNs
    | .error _ => (state, .nothing)
  | .other frame recvNs _ => state.applyBook frame recvNs

/-- One arrival: the feed after it, and what it made of the last frame of the stream. -/
def runStep (symbol : String) (s : FeedState P Q × Applied P Q) (arrival : Arrival symbol P Q) :
    FeedState P Q × Applied P Q :=
  match arrival with
  | .own frame => (Arrival.own frame : Arrival symbol P Q).apply s.1
  | .other frame recvNs apart => (((Arrival.other frame recvNs apart : Arrival symbol P Q).apply s.1).1, s.2)

/-- The feed after some arrivals, and what it made of the last frame of the stream. -/
def run (state : FeedState P Q) (arrivals : List (Arrival symbol P Q)) : FeedState P Q × Applied P Q :=
  arrivals.foldl (runStep symbol) (state, .nothing)

def venueBook (book : VenueBook P Q) : List (Arrival symbol P Q) → VenueBook P Q
  | [] => book
  | .own frame :: rest => venueBook (book.after frame) rest
  | .other _ _ _ :: rest => venueBook book rest

def lastUpdate (id : Nat) : List (Arrival symbol P Q) → Nat
  | [] => id
  | .own frame :: rest => lastUpdate frame.updateId rest
  | .other _ _ _ :: rest => lastUpdate id rest

/-- Every delta of the stream is the successor of the update before it. -/
def GapFree (id : Nat) : List (Arrival symbol P Q) → Prop
  | [] => True
  | .own frame :: rest => (frame.snapshot = true ∨ frame.updateId = id + 1) ∧ GapFree frame.updateId rest
  | .other _ _ _ :: rest => GapFree id rest

def AllFit (book : VenueBook P Q) : List (Arrival symbol P Q) → Prop
  | [] => True
  | .own frame :: rest => Fits book frame ∧ AllFit (book.after frame) rest
  | .other _ _ _ :: rest => AllFit book rest

/-- The feed holds the venue's book of the symbol, up to the update with that id. -/
def Holds (symbol : String) (state : FeedState P Q) (book : VenueBook P Q) (lastId : Nat) : Prop :=
  ∃ id held, state.table.findIdx? (fun name => name = symbol) = some id ∧ state.depths[id]? = some held ∧
    held.hasSnapshot = true ∧ held.lastUpdateId = lastId ∧ ShowsBook held.depth book

variable {state : FeedState P Q} {id : Nat} {held : BookState P Q} {book : VenueBook P Q}

theorem applyBook_other {frame : BookFrame P Q} (recvNs : Nat)
    (hid : state.table.findIdx? (fun name => name = symbol) = some id) (hheld : state.depths[id]? = some held)
    (apart : frame.symbol ≠ symbol ∨ frame.depth ≠ 50) :
    (state.applyBook frame recvNs).1.table = state.table ∧
      (state.applyBook frame recvNs).1.depths[id]? = some held := by
  unfold applyBook
  split
  · exact ⟨rfl, hheld⟩
  · next other hother =>
    split
    · split <;> exact ⟨rfl, hheld⟩
    · split
      · next h50 =>
        split
        · exact ⟨rfl, hheld⟩
        · refine ⟨rfl, ?_⟩
          have hne : other ≠ id := by
            rintro rfl
            obtain ⟨hlt, hname, _⟩ := findIdx?_eq_some_iff_getElem.mp hid
            obtain ⟨_, hname', _⟩ := findIdx?_eq_some_iff_getElem.mp hother
            have hsame := (of_decide_eq_true hname').symm.trans (of_decide_eq_true hname)
            exact apart.elim (fun h => h hsame) fun h => h h50
          show (state.depths.set other _)[id]? = some held
          rw [getElem?_set_ne hne]
          exact hheld
      · exact ⟨rfl, hheld⟩

theorem own_holds {frame : VenueFrame P Q}
    (lastId : Nat) (hid : state.table.findIdx? (fun name => name = symbol) = some id)
    (hheld : state.depths[id]? = some held) (hfits : Fits book frame)
    (hnext : frame.snapshot = true ∨ frame.updateId = lastId + 1 ∧ Holds symbol state book lastId) :
    Holds symbol ((own frame : Arrival symbol P Q).apply state).1 (book.after frame) frame.updateId ∧
      Published (book.after frame) ((own frame : Arrival symbol P Q).apply state).2 := by
  obtain ⟨read, hread, hsymbol, hdepth, hsnap, hupdate, hbids, hasks⟩ := read_eq symbol frame
  have hnext' : frame.snapshot = true ∨
      held.hasSnapshot = true ∧ read.updateId = held.lastUpdateId + 1 ∧ ShowsBook held.depth book := by
    refine hnext.imp_right ?_
    rintro ⟨hsucc, id', held', hid', hheld', hhas, hlast, hshows⟩
    rw [hid] at hid'
    cases hid'
    rw [hheld] at hheld'
    cases hheld'
    exact ⟨hhas, by rw [hupdate, hsucc, hlast], hshows⟩
  obtain ⟨next, habsorb, hhas, hlast, hshows⟩ :=
    absorb_shows frame.recvNs hdepth hsnap hbids hasks hfits hnext'
  have happly : (own frame : Arrival symbol P Q).apply state =
      ({ state with depths := state.depths.set id next }, published 50 id next) := by
    have hget : state.depths.getD id .empty = held := by rw [List.getD, hheld, getD_some]
    rw [apply, hread]
    simp only [applyBook, hsymbol, hid, hdepth, hget, habsorb, if_true, (by decide : ¬ (50 : Nat) = 1), if_false]
  rw [happly]
  refine ⟨⟨id, next, hid, ?_, hhas, by rw [hlast, hupdate], hshows⟩, published_shows hshows⟩
  obtain ⟨hlt, -⟩ := List.getElem?_eq_some_iff.mp hheld
  exact getElem?_set_self hlt

theorem run_holds {arrivals : List (Arrival symbol P Q)} {lastId : Nat}
    {out : Applied P Q} (h : Holds symbol state book lastId) (hout : Published book out)
    (hgap : GapFree lastId arrivals)
    (hfit : AllFit book arrivals) :
    Holds symbol (arrivals.foldl (runStep symbol) (state, out)).1 (venueBook book arrivals)
      (lastUpdate lastId arrivals) ∧
      Published (venueBook book arrivals) (arrivals.foldl (runStep symbol) (state, out)).2 := by
  induction arrivals generalizing state book lastId out with
  | nil => exact ⟨h, hout⟩
  | cons arrival arrivals ih =>
    cases arrival with
    | own frame =>
      obtain ⟨id, held, hid, hheld, -⟩ := id h
      obtain ⟨hholds, hpublished⟩ := own_holds lastId hid hheld hfit.1 (hgap.1.imp_right (fun hsucc => ⟨hsucc, h⟩))
      exact ih hholds hpublished hgap.2 hfit.2
    | other frame recvNs apart =>
      obtain ⟨id, held, hid, hheld, hrest⟩ := h
      obtain ⟨htable, hdepths⟩ := applyBook_other recvNs hid hheld apart
      exact ih ⟨id, held, by rw [← hid]; exact congrArg _ htable, hdepths, hrest⟩ hout hgap hfit

theorem GapFree.before {before rest : List (Arrival symbol P Q)} (h : GapFree id (before ++ rest)) :
    GapFree id before := by
  induction before generalizing id with
  | nil => trivial
  | cons arrival before ih =>
    cases arrival with
    | own frame => exact ⟨h.1, ih h.2⟩
    | other frame recvNs apart => exact ih h

theorem AllFit.before {before rest : List (Arrival symbol P Q)} (h : AllFit book (before ++ rest)) :
    AllFit book before := by
  induction before generalizing book with
  | nil => trivial
  | cons arrival before ih =>
    cases arrival with
    | own frame => exact ⟨h.1, ih h.2⟩
    | other frame recvNs apart => exact ih h

theorem late_resyncs {late : VenueFrame P Q} {lastId : Nat}
    (h : Holds symbol state book lastId) (hdelta : late.snapshot = false) (hlate : late.updateId ≠ lastId + 1) :
    (own late : Arrival symbol P Q).apply state = (state, .resync .sequenceGap) := by
  obtain ⟨id, held, hid, hheld, hhas, hlast, -⟩ := h
  obtain ⟨read, hread, hsymbol, hdepth, hsnap, hupdate, -⟩ := read_eq symbol late
  have habsorb : held.absorb read late.recvNs = .error .sequenceGap := by
    unfold BookState.absorb
    rw [hsnap, hdelta, hupdate, hlast, if_neg Bool.false_ne_true, if_neg (by simp [hhas]), if_pos hlate]
  rw [apply, hread]
  show state.applyBook read late.recvNs = _
  unfold applyBook
  rw [hsymbol, hid]
  have hget : state.depths.getD id .empty = held := by rw [List.getD, hheld, getD_some]
  simp only [hdepth, hget, habsorb, if_true, (by decide : ¬ (50 : Nat) = 1), if_false]

end run

/-- The published book is the venue's book, in every run with room for its frames. After every frame
that follows a snapshot without a gap the feed holds and publishes exactly the venue's levels, bids
descending and asks ascending; a delta that does not follow changes nothing and asks for a resync. -/
theorem publishedBook {P Q : Type} [LinearOrder P] [Zero P] [LinearOrder Q] [Zero Q] (symbol : String)
    (state : FeedState P Q) (id : Nat) (hid : state.table.findIdx? (fun name => name = symbol) = some id)
    (hknown : id < state.depths.length) (first : VenueFrame P Q) (hsnap : first.snapshot = true)
    (before rest : List (Arrival symbol P Q)) (hgap : GapFree first.updateId (before ++ rest))
    (hfit : AllFit ⟨∅, ∅⟩ (.own first :: (before ++ rest))) :
    Holds symbol (run state (.own first :: before)).1 (venueBook ⟨∅, ∅⟩ (.own first :: before))
        (lastUpdate first.updateId before) ∧
      Published (venueBook ⟨∅, ∅⟩ (.own first :: before)) (run state (.own first :: before)).2 ∧
      ∀ late : VenueFrame P Q, late.snapshot = false → late.updateId ≠ lastUpdate first.updateId before + 1 →
        (Arrival.own late : Arrival symbol P Q).apply (run state (.own first :: before)).1 =
          ((run state (.own first :: before)).1, .resync .sequenceGap) := by
  obtain ⟨hholds, hpublished⟩ := own_holds 0 hid (getElem?_eq_getElem hknown) hfit.1 (.inl hsnap)
  obtain ⟨hend, hout⟩ := run_holds hholds hpublished hgap.before (AllFit.before hfit.2)
  exact ⟨hend, hout, fun late hdelta hlate => late_resyncs hend hdelta hlate⟩

/-! ## Runs -/

def oneSymbol : FeedState Nat Nat := ⟨["BTCUSDT"], [.empty], [.empty]⟩

/-- A snapshot of three levels and a delta that deletes, changes and inserts one. -/
def opening : VenueFrame Nat Nat where
  snapshot := true
  updateId := 100
  seq := 1000
  bids := some [(100, 1), (99, 2)]
  asks := some [(102, 4)]
  venueTsMs := 9
  recvNs := 1
  bids_ok := by rintro rows ⟨rfl⟩; decide
  asks_ok := by rintro rows ⟨rfl⟩; decide

def following : VenueFrame Nat Nat where
  snapshot := false
  updateId := 101
  seq := 1001
  bids := some [(100, 0), (99, 7), (98, 6)]
  asks := none
  venueTsMs := 10
  recvNs := 2
  bids_ok := by rintro rows ⟨rfl⟩; decide
  asks_ok := by rintro rows ⟨⟩

theorem publishedBook_following :
    GapFree opening.updateId [(.own following : Arrival "BTCUSDT" Nat Nat)] ∧
      AllFit ⟨∅, ∅⟩ [(.own opening : Arrival "BTCUSDT" Nat Nat), .own following] ∧
      Holds "BTCUSDT" (run oneSymbol [(.own opening : Arrival "BTCUSDT" Nat Nat), .own following]).1
        (venueBook ⟨∅, ∅⟩ [(.own opening : Arrival "BTCUSDT" Nat Nat), .own following]) 101 := by
  have hgap : GapFree opening.updateId ([(.own following : Arrival "BTCUSDT" Nat Nat)] ++ []) :=
    ⟨.inr rfl, trivial⟩
  have hfit : AllFit ⟨∅, ∅⟩ (.own opening :: ([(.own following : Arrival "BTCUSDT" Nat Nat)] ++ [])) := by
    refine ⟨⟨roomy_of_small (by decide) (by decide), roomy_of_small (by decide) (by decide)⟩,
      ⟨roomy_of_small (by decide) (by decide), roomy_of_small (by decide) (by decide)⟩, trivial⟩
  exact ⟨hgap, hfit, (publishedBook "BTCUSDT" oneSymbol 0 rfl (by decide) opening rfl _ [] hgap hfit).1⟩

def fullSide : VenueFrame Nat Nat where
  snapshot := true
  updateId := 1
  seq := 1
  bids := some ((List.range 50).map (fun i => (50 - i, 1)))
  asks := some [(100, 1)]
  venueTsMs := 1
  recvNs := 1
  bids_ok := by rintro rows ⟨rfl⟩; decide
  asks_ok := by rintro rows ⟨rfl⟩; decide

def swap : VenueFrame Nat Nat where
  snapshot := false
  updateId := 2
  seq := 2
  bids := some [(51, 1), (25, 0)]
  asks := none
  venueTsMs := 2
  recvNs := 2
  bids_ok := by rintro rows ⟨rfl⟩; decide
  asks_ok := by rintro rows ⟨⟩

/-- The insertion pushes the fiftieth bid out of the array before the deletion makes room for it:
the venue has fifty bids, and the published book lacks the one at `1`. -/
theorem swap_loses_level :
    GapFree fullSide.updateId [(.own swap : Arrival "BTCUSDT" Nat Nat)] ∧
      (∀ arrivals ∈ [[(.own fullSide : Arrival "BTCUSDT" Nat Nat)], [.own fullSide, .own swap]],
        (venueBook ⟨∅, ∅⟩ arrivals).bids.keys.length ≤ 50 ∧ (venueBook ⟨∅, ∅⟩ arrivals).asks.keys.length ≤ 50) ∧
      ¬ Holds "BTCUSDT" (run oneSymbol [(.own fullSide : Arrival "BTCUSDT" Nat Nat), .own swap]).1
        (venueBook ⟨∅, ∅⟩ [(.own fullSide : Arrival "BTCUSDT" Nat Nat), .own swap]) 2 := by
  refine ⟨⟨.inr rfl, trivial⟩, by decide +kernel, ?_⟩
  rintro ⟨id, held, hid, hheld, -, -, hshows⟩
  have hzero : (run oneSymbol [(.own fullSide : Arrival "BTCUSDT" Nat Nat), .own swap]).1.table.findIdx?
      (fun name => name = "BTCUSDT") = some 0 := by decide +kernel
  have hlookup : (venueBook ⟨∅, ∅⟩ [(.own fullSide : Arrival "BTCUSDT" Nat Nat), .own swap]).bids.lookup 1 =
      some 1 := by
    decide +kernel
  have hmissing : ((run oneSymbol [(.own fullSide : Arrival "BTCUSDT" Nat Nat), .own swap]).1.depths[0]?.all
      (fun held => (⟨1, 1⟩ : BookLevel Nat Nat) ∉ held.depth.bids.active)) = true := by decide +kernel
  rw [hzero] at hid
  cases hid
  rw [hheld, all_some, decide_eq_true_eq] at hmissing
  exact hmissing ((hshows.bids.levels ⟨1, 1⟩).mpr hlookup)

end LiquidityMigration.MarketData
