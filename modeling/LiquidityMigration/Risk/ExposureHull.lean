import LiquidityMigration.Risk.VenueReduceOnly

/- What the cached interval of a symbol is, and what it is used for. Whatever led to a book, the interval is that of
   its rows, and its points are the exposures partial fills can lead to (`reachable_iff`). A fill moves its part to
   the settled exposure, so nothing new is within reach (`fill_narrows`). An order increases an absolute exposure the
   most where it is furthest on the order's own side, so one end decides its margin (`incremental_greatest`). -/
namespace LiquidityMigration.Risk
open Numeric Portfolio Checks RowSums Book Set
open Std (ExtTreeMap)

/-- What happens to the orders of a book. -/
inductive BookEvent where
  | register (id : String) (pending : Pending)
  | forget (id : String)
  | fill (id : String) (symbol : SymbolId) (qty : Option Exact) (recvNs : Nat) (remaining : Option Exact)

def Book.step (book : Book) : BookEvent → Book
  | .register id pending => book.register id pending
  | .forget id => book.forget id
  | .fill id symbol qty recvNs remaining => book.onFillWithRemaining id symbol qty recvNs remaining

def Book.run (events : List BookEvent) : Book := events.foldl Book.step Book.empty

section hull
variable {book : Book} {symbol : SymbolId} {settled low high : Exact}

theorem between_mem {t : Exact} (h0 : 0 ≤ t) (h1 : t ≤ 1) (q : Exact) :
    (1 - t) * min q 0 + t * max q 0 ∈ Set.uIcc 0 q := by
  rcases le_total q 0 with hq | hq
  · rw [min_eq_left hq, max_eq_right hq, uIcc_of_ge hq]
    constructor <;> nlinarith
  · rw [min_eq_right hq, max_eq_left hq, uIcc_of_le hq]
    constructor <;> nlinarith

/-- **The interval is the hull**: partial fills lead to every point between its ends, and to no other. -/
theorem reachable_iff (h : book.physicalInterval symbol settled = .ok (low, high)) (exposure : Exact) :
    book.Reachable symbol settled exposure ↔ low ≤ exposure ∧ exposure ≤ high := by
  refine ⟨(physicalInterval_hull h).1 exposure, ?_⟩
  rintro ⟨hlow, hhigh⟩
  obtain ⟨-, hlowEq, hhighEq⟩ := physicalInterval_ok h
  rcases (hlow.trans hhigh).eq_or_lt with heq | hlt
  · rw [le_antisymm (heq ▸ hhigh) hlow]
    exact (physicalInterval_hull h).2.1
  · -- every order is filled for the same share of the way from its low to its high
    let t := (exposure - low) / (high - low)
    have hwidth : 0 < high - low := sub_pos.mpr hlt
    have h0 : 0 ≤ t := div_nonneg (sub_nonneg.mpr hlow) hwidth.le
    have h1 : t ≤ 1 := (div_le_one hwidth).mpr (by linarith)
    have ht : t * (high - low) = exposure - low := div_mul_cancel₀ _ hwidth.ne'
    have hexposure : exposure = settled +
        ((book.symbolRows symbol).map (fun row => (1 - t) * min (row.2.signedQty.getD 0) 0 +
          t * max (row.2.signedQty.getD 0) 0)).sum := by
      rw [List.sum_map_add, List.sum_map_mul_left, List.sum_map_mul_left]
      linear_combination -ht + (1 - t) * hlowEq + t * hhighEq
    rw [hexposure]
    exact reachable_of_part (fun q => (1 - t) * min q 0 + t * max q 0) (between_mem h0 h1)

end hull

section fills
variable {book : Book} {id : String} {p : Pending} {settled low high old filled : Exact} {remaining : Option Exact}
  {recvNs : Nat}

theorem symbolRows_of_get (h : book.pending[id]? = some p) :
    (book.symbolRows p.symbol).Perm ((id, p) :: (book.forget id).symbolRows p.symbol) := by
  have hrows := (rows_of_get h).filter fun row => row.2.symbol = p.symbol
  rw [List.filter_cons_of_pos (by simp)] at hrows
  simpa [symbolRows] using hrows

variable (book id p) in
theorem symbolRows_register :
    ((book.register id p).symbolRows p.symbol).Perm ((id, p) :: (book.forget id).symbolRows p.symbol) := by
  have hrows := symbolRows_of_get (show (book.register id p).pending[id]? = some p by simp)
  have hsame : ((book.register id p).forget id).symbolRows p.symbol = (book.forget id).symbolRows p.symbol := by
    simp [symbolRows]
  rwa [hsame] at hrows

theorem physicalInterval_cons {rest : List (String × Pending)} {q : Exact}
    (hrows : (book.symbolRows p.symbol).Perm ((id, p) :: rest)) (hq : p.signedQty = some q) :
    book.physicalInterval p.symbol settled = if ∀ row ∈ rest, row.2.signedQty ≠ none then
        .ok (settled + (min q 0 + (rest.map (fun row => min (row.2.signedQty.getD 0) 0)).sum),
          settled + (max q 0 + (rest.map (fun row => max (row.2.signedQty.getD 0) 0)).sum))
      else .error "pending physical quantity is unknown" := by
  have hknown : (∀ row ∈ book.symbolRows p.symbol, row.2.signedQty ≠ none) ↔ ∀ row ∈ rest, row.2.signedQty ≠ none := by
    simp [hrows.mem_iff, hq]
  rw [physicalInterval_eq, (hrows.map _).sum_eq, (hrows.map _).sum_eq, if_congr hknown rfl rfl]
  simp [hq]

theorem leftAfter_part (hpart : filled ∈ Set.uIcc 0 old)
    (hleft : remaining.getD (|old| - |filled|) = |old| - |filled|) :
    Book.leftAfter (some old) (some filled) remaining = some (old - filled) := by
  simp only [leftAfter, Option.bind_eq_bind, Option.bind_some, hleft, Option.some.injEq]
  rcases le_total old 0 with hneg | hpos
  · rw [uIcc_of_ge hneg] at hpart
    rw [abs_of_nonpos hneg, abs_of_nonpos hpart.2]
    split_ifs <;> linarith [hpart.1, hpart.2]
  · rw [uIcc_of_le hpos] at hpart
    rw [abs_of_nonneg hpos, abs_of_nonneg hpart.1]
    split_ifs <;> linarith [hpart.1, hpart.2]

def Book.noted (book : Book) (fill : RecentFill) : Book := { book with recentFills := book.recentFills ++ [fill] }

theorem onFill_eq (h : book.pending[id]? = some p) (symbol : SymbolId) (qty : Option Exact) :
    book.onFillWithRemaining id symbol qty recvNs remaining =
      let after := (book.noted ⟨recvNs, symbol, qty, p.stopFraction⟩).forget id
      if leftAfter p.signedQty qty remaining = some 0 then after
      else after.register id { p with signedQty := leftAfter p.signedQty qty remaining } := by
  have htake (fill : RecentFill) : (book.noted fill).take id = (some p, (book.noted fill).forget id) :=
    Prod.ext ((take_fst _ _).trans h) rfl
  unfold onFillWithRemaining
  rw [h]
  unfold noted at htake ⊢
  dsimp only
  rw [htake]
  rfl

/-- **A fill narrows the interval**: what it moves from the order to the settled exposure stays within reach. -/
theorem fill_narrows (hp : book.pending[id]? = some p) (hq : p.signedQty = some old) (hpart : filled ∈ Set.uIcc 0 old)
    (hleft : remaining.getD (|old| - |filled|) = |old| - |filled|)
    (h : book.physicalInterval p.symbol settled = .ok (low, high)) :
    ∃ low' high', (book.onFillWithRemaining id p.symbol (some filled) recvNs remaining).physicalInterval p.symbol
        (settled + filled) = .ok (low', high') ∧ low ≤ low' ∧ low' ≤ high' ∧ high' ≤ high := by
  rw [physicalInterval_cons (symbolRows_of_get hp) hq] at h
  split at h
  · next hknown =>
    obtain ⟨rfl, rfl⟩ := Prod.mk.inj (Except.ok.inj h)
    let rest := (book.forget id).symbolRows p.symbol
    have hknown : ∀ row ∈ rest, row.2.signedQty ≠ none := hknown
    let after := (book.noted ⟨recvNs, p.symbol, some filled, p.stopFraction⟩).forget id
    have hrest : after.symbolRows p.symbol = rest := by simp [after, rest, symbolRows, noted]
    have hrest' : (after.forget id).symbolRows p.symbol = rest := by simp [after, rest, symbolRows, noted]
    -- whether a row is left or not, it counts for what the order has left
    have hafter : (book.onFillWithRemaining id p.symbol (some filled) recvNs remaining).physicalInterval p.symbol
        (settled + filled) =
          .ok (settled + filled + (min (old - filled) 0 + (rest.map (fun row => min (row.2.signedQty.getD 0) 0)).sum),
            settled + filled + (max (old - filled) 0 +
              (rest.map (fun row => max (row.2.signedQty.getD 0) 0)).sum)) := by
      rw [onFill_eq hp, hq, leftAfter_part hpart hleft]
      dsimp only
      split
      · next hzero =>
        rw [Option.some.inj hzero, min_self, max_self, zero_add, zero_add]
        rw [← hrest] at hknown ⊢
        exact (physicalInterval_eq after p.symbol _).trans (if_pos hknown)
      · have hrows := symbolRows_register after id { p with signedQty := some (old - filled) }
        rw [← hrest'] at hknown ⊢
        exact (physicalInterval_cons hrows rfl).trans (if_pos hknown)
    have hends : min old 0 ≤ filled + min (old - filled) 0 ∧ filled + max (old - filled) 0 ≤ max old 0 := by
      rcases le_total old 0 with hneg | hpos
      · rw [uIcc_of_ge hneg] at hpart
        rw [min_eq_left hneg, max_eq_right hneg, min_eq_left (by linarith [hpart.1]),
          max_eq_right (by linarith [hpart.1])]
        constructor <;> linarith [hpart.2]
      · rw [uIcc_of_le hpos] at hpart
        rw [min_eq_right hpos, max_eq_left hpos, min_eq_right (by linarith [hpart.2]),
          max_eq_left (by linarith [hpart.2])]
        constructor <;> linarith [hpart.1]
    obtain ⟨hlow, hhigh⟩ := physicalInterval_hull hafter
    exact ⟨_, _, hafter, by linarith [hends.1], (hlow _ hhigh.1).2, by linarith [hends.2]⟩
  · cases h

theorem recentQty_onFill {recent : RecentFills} (hp : book.pending[id]? = some p)
    (hrecent : book.netFills = .ok recent) :
    ∃ recent', (book.onFillWithRemaining id p.symbol (some filled) recvNs remaining).netFills = .ok recent' ∧
      recentQty recent' p.symbol = recentQty recent p.symbol + filled := by
  have hfills : (book.onFillWithRemaining id p.symbol (some filled) recvNs remaining).recentFills =
      book.recentFills ++ [⟨recvNs, p.symbol, some filled, p.stopFraction⟩] := by
    rw [onFill_eq hp]
    dsimp only
    split <;> simp [noted]
  rw [netFills] at hrecent
  rw [netFills, hfills, List.foldlM_append, hrecent]
  refine ⟨_, rfl, ?_⟩
  rw [recentQty, recentQty, get_insert_self]
  cases recent[p.symbol]? <;> rfl

end fills

/-- Adding `d` increases the absolute value the most at the greatest point. -/
theorem greatest_increase {d e : Exact} (hd : 0 < d) {points : Set Exact} (he : IsGreatest points e) :
    IsGreatest (insert 0 ((fun x => |x + d| - |x|) '' points)) (if 0 ≤ e then d else max (d - |e| * 2) 0) := by
  split
  · next hpos =>
    refine ⟨.inr ⟨e, he.1, ?_⟩, ?_⟩
    · show |e + d| - |e| = d
      rw [abs_of_nonneg hpos, abs_of_nonneg (by linarith)]
      ring
    · rintro y (rfl | ⟨x, -, rfl⟩)
      · exact hd.le
      · have := abs_add_le x d
        rw [abs_of_pos hd] at this
        show |x + d| - |x| ≤ d
        linarith
  · next hneg =>
    have hneg : e < 0 := not_le.mp hneg
    rw [abs_of_neg hneg]
    refine ⟨?_, ?_⟩
    · rcases le_total (d - -e * 2) 0 with hsmall | hlarge
      · exact .inl (max_eq_right hsmall)
      · refine .inr ⟨e, he.1, ?_⟩
        show |e + d| - |e| = _
        rw [max_eq_left hlarge, abs_of_neg hneg, abs_of_nonneg (by linarith)]
        ring
    · rintro y (rfl | ⟨x, hx, rfl⟩)
      · exact le_max_right _ _
      · have hx := he.2 hx
        show |x + d| - |x| ≤ _
        rw [abs_of_nonpos (hx.trans hneg.le)]
        rcases abs_cases (x + d) with ⟨habs, -⟩ | ⟨habs, -⟩
        · exact le_max_of_le_left (by linarith)
        · exact le_max_of_le_right (by linarith)

/-- The end of the interval that an order moves away from flat, on the order's own side. -/
def farEnd (side : Side) (low high : Exact) : Exact :=
  match side with
  | .buy => high
  | .sell => -low

theorem incremental_eq {k : Kernel} {intent : Intent} {qty physical low high : Exact} (hqty : 0 < qty)
    (h : k.book.physicalInterval intent.symbol physical = .ok (low, high)) :
    k.incrementalPhysicalQuantity intent qty physical = .ok
      (if 0 ≤ farEnd intent.side low high then qty else max (qty - |farEnd intent.side low high| * 2) 0) := by
  simp only [Kernel.incrementalPhysicalQuantity, require, hqty, if_true, h, Except.mapError, bind, Except.bind,
    abs_signed, abs_of_pos hqty, Except.ok.injEq]
  cases intent.side with
  | buy =>
    have hend : (if signed .buy qty < 0 then low else high) = high := if_neg (not_lt.mpr hqty.le)
    have hcond : (high = 0 ∨ (high < 0 ↔ qty < 0)) ↔ 0 ≤ high := by
      simp only [not_lt.mpr hqty.le, iff_false, not_lt, or_iff_right_iff_imp]
      exact ge_of_eq
    rw [hend]
    exact if_congr hcond rfl rfl
  | sell =>
    have hend : (if signed .sell qty < 0 then low else high) = low := if_pos (neg_lt_zero.mpr hqty)
    have hcond : (low = 0 ∨ (low < 0 ↔ -qty < 0)) ↔ 0 ≤ -low := by
      simp only [neg_lt_zero, hqty, iff_true, neg_nonneg]
      exact le_iff_eq_or_lt.symm
    rw [hend, farEnd, abs_neg]
    exact if_congr hcond rfl rfl

/-- **One end decides**: the margin quantity of an order is the largest increase of the absolute
exposure over the whole interval, or zero. -/
theorem incremental_greatest {k : Kernel} {intent : Intent} {qty physical low high : Exact} (hqty : 0 < qty)
    (h : k.book.physicalInterval intent.symbol physical = .ok (low, high)) :
    ∃ margin, k.incrementalPhysicalQuantity intent qty physical = .ok margin ∧
      IsGreatest (insert 0 ((fun x => |x + signed intent.side qty| - |x|) '' Set.Icc low high)) margin := by
  have hle : low ≤ high := ((physicalInterval_hull h).1 _ (physicalInterval_hull h).2.1).2
  refine ⟨_, incremental_eq hqty h, ?_⟩
  cases intent.side with
  | buy => exact greatest_increase hqty (isGreatest_Icc hle)
  | sell =>
    -- a sale is a purchase seen from the other side of flat
    have himage : (fun x => |x + signed .sell qty| - |x|) '' Set.Icc low high =
        (fun x => |x + qty| - |x|) '' Set.Icc (-high) (-low) := by
      rw [← image_neg_Icc, image_image]
      apply image_congr
      intro x _
      show |x + -qty| - |x| = |-x + qty| - |-x|
      rw [abs_neg, ← abs_neg (x + -qty), neg_add, neg_neg]
    rw [himage]
    exact greatest_increase hqty (isGreatest_Icc (neg_le_neg hle))

/-- **The exposure interval.** Whatever was registered, replaced, removed and filled, the cached
interval of a symbol is the settled exposure with the negative and with the positive pending quantities
added up; its points are the exposures partial fills lead to; an order's margin is the largest increase
of the absolute exposure over it, or zero; and a fill that leaves the rest of its order narrows it. -/
theorem exposure_interval_hull (events : List BookEvent) (symbol : SymbolId) (settled : Exact) :
    (Book.run events).physicalInterval symbol settled =
      (if ∀ row ∈ (Book.run events).symbolRows symbol, row.2.signedQty ≠ none then
        .ok (settled + (((Book.run events).symbolRows symbol).map (fun row => min (row.2.signedQty.getD 0) 0)).sum,
          settled + (((Book.run events).symbolRows symbol).map (fun row => max (row.2.signedQty.getD 0) 0)).sum)
      else .error "pending physical quantity is unknown") ∧
    (∀ low high, (Book.run events).physicalInterval symbol settled = .ok (low, high) →
      (∀ exposure, (Book.run events).Reachable symbol settled exposure ↔ exposure ∈ Set.Icc low high) ∧
      ∀ (k : Kernel) (intent : Intent) (qty : Exact), k.book = Book.run events → intent.symbol = symbol → 0 < qty →
        ∃ margin, k.incrementalPhysicalQuantity intent qty settled = .ok margin ∧
          IsGreatest (insert 0 ((fun x => |x + signed intent.side qty| - |x|) '' Set.Icc low high)) margin) ∧
    ∀ id p old filled recvNs remaining, (Book.run events).pending[id]? = some p → p.symbol = symbol →
      p.signedQty = some old → filled ∈ Set.uIcc 0 old →
      remaining.getD (|old| - |filled|) = |old| - |filled| →
      (∀ recent, (Book.run events).netFills = .ok recent → ∃ recent',
        ((Book.run events).onFillWithRemaining id symbol (some filled) recvNs remaining).netFills = .ok recent' ∧
        recentQty recent' symbol = recentQty recent symbol + filled) ∧
      ∀ low high, (Book.run events).physicalInterval symbol settled = .ok (low, high) → ∃ low' high',
        ((Book.run events).onFillWithRemaining id symbol (some filled) recvNs remaining).physicalInterval symbol
          (settled + filled) = .ok (low', high') ∧ Set.Icc low' high' ⊆ Set.Icc low high := by
  refine ⟨physicalInterval_eq _ _ _, ?_, ?_⟩
  · intro low high h
    refine ⟨reachable_iff h, ?_⟩
    rintro k intent qty hbook rfl hqty
    exact incremental_greatest hqty (hbook ▸ h)
  · rintro id p old filled recvNs remaining hp rfl hq hpart hleft
    refine ⟨fun recent hrecent => recentQty_onFill hp hrecent, ?_⟩
    intro low high h
    obtain ⟨low', high', hafter, hlow, -, hhigh⟩ := fill_narrows hp hq hpart hleft h
    exact ⟨low', high', hafter, Set.Icc_subset_Icc hlow hhigh⟩

def buysFive : Pending := ⟨0, 0, some 5, false, some 10, none⟩

theorem exposure_interval_filledTwo :
    (Book.run [.register "a" buysFive]).physicalInterval 0 1 = .ok (1, 6) ∧
    (Book.run [.register "a" buysFive]).Reachable 0 1 (7 / 2) ∧
    ∃ low high, ((Book.run [.register "a" buysFive]).onFillWithRemaining "a" 0 (some 2) 7 none).physicalInterval 0
      (1 + 2) = .ok (low, high) ∧ Set.Icc low high ⊆ Set.Icc 1 6 := by
  have hinterval : (run [.register "a" buysFive]).physicalInterval 0 1 = .ok (1, 6) := by decide +kernel
  obtain ⟨-, hhull, hfill⟩ := exposure_interval_hull [.register "a" buysFive] 0 1
  refine ⟨hinterval, ((hhull 1 6 hinterval).1 _).mpr (by norm_num), ?_⟩
  exact (hfill "a" buysFive 5 2 7 none (by decide +kernel) rfl rfl (by norm_num) rfl).2 1 6 hinterval

end LiquidityMigration.Risk
