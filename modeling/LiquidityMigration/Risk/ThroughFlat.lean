import LiquidityMigration.Risk.Admission

/- Whether the orders admitted for a sleeve can carry its position through flat. An exit is bounded by what resting
   exits leave of the position, an opening order against it by what other opening orders leave. With orders of one
   class only, or where the next fits beside all, they never add up to more than the position (`neverThroughFlat`);
   one of each class for the whole position passes (`carriedThroughFlat`). -/
namespace LiquidityMigration.Risk
open Numeric Portfolio Checks RowSums Kernel Except Book Turn
open Std (ExtTreeMap)

/-- A pending order of the sleeve that takes its position down, or may: an unknown quantity counts. -/
def against (strategy : StrategyId) (symbol : SymbolId) (position : Exact) (p : Pending) : Bool :=
  p.strategy = strategy ∧ p.symbol = symbol ∧ p.signedQty.all fun q => q * position < 0

/-- All pending orders against the position together are for no more than the position. -/
def Covers (book : Book) (strategy : StrategyId) (symbol : SymbolId) (position : Exact) : Prop :=
  ∃ total, book.quantity (against strategy symbol position) = .ok total ∧ total ≤ |position|

def Opposes (side : Side) (position : Exact) : Prop :=
  match side with
  | .sell => 0 < position
  | .buy => position < 0

/-- The sleeve's pending exits, or its pending opening orders on the side. -/
def Book.classQty (book : Book) (intent : Intent) (exits : Bool) : Except String Exact :=
  if exits then book.ownedReduceQty intent.strategy intent.symbol
  else book.ownedOpenQty intent.strategy intent.symbol intent.side

/-- Nothing of the other class is pending, or the intent fits into the position beside both classes. -/
def Apart (b : Binary64) (book : Book) (intent : Intent) (position : Exact) : Prop :=
  book.classQty intent (!intent.reduceOnly) = .ok 0 ∨
  ∃ ask same other, intent.quantity b = .ok ask ∧ book.classQty intent intent.reduceOnly = .ok same ∧
    book.classQty intent (!intent.reduceOnly) = .ok other ∧ ask + same + other ≤ |position|

section
variable {strategy : StrategyId} {symbol : SymbolId} {position : Exact} {side : Side}

theorem opposes_of_signed {q : Exact} (hq : 0 < q) (h : signed side q * position < 0) : Opposes side position := by
  cases side with
  | buy => exact (pos_iff_neg_of_mul_neg h).mp hq
  | sell =>
    rw [signed, neg_mul, neg_lt_zero] at h
    exact (pos_iff_pos_of_mul_pos h).mp hq

theorem class_of_against (hside : Opposes side position) {p : Pending} (h : against strategy symbol position p = true) :
    (p.reduceOnly ∧ p.strategy = strategy ∧ p.symbol = symbol) ∨
    (¬ p.reduceOnly ∧ p.strategy = strategy ∧ p.symbol = symbol ∧ Book.onSide side p) := by
  simp only [against, decide_eq_true_eq] at h
  obtain ⟨hs, hy, hq⟩ := h
  by_cases hro : p.reduceOnly = true
  · exact .inl ⟨hro, hs, hy⟩
  · refine .inr ⟨hro, hs, hy, ?_⟩
    unfold onSide
    cases hqty : p.signedQty with
    | none => rfl
    | some q =>
      rw [hqty] at hq
      have hneg : q * position < 0 := by simpa using hq
      cases side with
      | buy =>
        have hpos : 0 < q := (pos_iff_neg_of_mul_neg hneg).mpr hside
        simp [hpos.le]
      | sell =>
        have hlt : q < 0 := (neg_iff_pos_of_mul_neg hneg).mpr hside
        simp [hlt]

theorem against_le {book : Book} {opening exits : Exact} (hside : Opposes side position)
    (ho : book.ownedOpenQty strategy symbol side = .ok opening) (hc : book.ownedReduceQty strategy symbol = .ok exits) :
    ∃ t, book.quantity (against strategy symbol position) = .ok t ∧ t ≤ exits + opening := by
  apply sumOk_filter_le (fun _ _ => rowQty_nonneg) ?_ hc ho
  intro p hp
  simpa only [decide_eq_true_eq] using class_of_against hside hp

theorem reduces_of_opposes {e : Evaluation} (htol : e.tolerance = 0) (hask : 0 < e.ask)
    (h : Opposes e.intent.side e.settled) : e.reduces := by
  unfold Evaluation.reduces Evaluation.delta
  rw [htol]
  cases hside : e.intent.side with
  | buy =>
    rw [hside] at h
    have hneg : e.settled < 0 := h
    exact ⟨abs_pos.mpr hneg.ne, hask.ne', fun hiff => absurd (hiff.mpr hneg) (not_lt.mpr hask.le)⟩
  | sell =>
    rw [hside] at h
    have hpos : 0 < e.settled := h
    exact ⟨abs_pos.mpr hpos.ne', (neg_lt_zero.mpr hask).ne,
      fun hiff => absurd (hiff.mp (neg_lt_zero.mpr hask)) (not_lt.mpr hpos.le)⟩

theorem allowed_fits {b : Binary64} {k k' : Kernel} {intent : Intent} {account : AccountView}
    {portfolio : PortfolioState} {q : Exact} {v : Bool} (hallowed : Kernel.Allowed b k intent account portfolio k' q v)
    (hheld : portfolio.owned intent.strategy intent.symbol = position) (hside : Opposes intent.side position)
    (hapart : Apart b k.book intent position) :
    ∃ opening exits, k'.book.ownedOpenQty intent.strategy intent.symbol intent.side = .ok opening ∧
      k'.book.ownedReduceQty intent.strategy intent.symbol = .ok exits ∧ exits + opening + q ≤ |position| := by
  obtain ⟨facts, e, interval, hfacts, hread, hbook, hcfg, hbranch, -, -⟩ := hallowed
  have hsettled : e.settled = position := by
    rw [Evaluation.settled, hread.portfolio_eq, hread.intent_eq]
    exact (PortfolioFacts.owned_read hfacts _ _).trans hheld
  have hask := readAsk_ok hread.ask_eq
  have hpos := Intent.quantity_pos hask
  have hclass : ∀ exits, k'.book.classQty intent exits = k.book.classQty intent exits := by
    intro exits
    rw [hbook]
    rfl
  rcases hbranch with ⟨hro, hq⟩ | ⟨hro, hq, -⟩
  · obtain ⟨-, exits, hexits, -, rfl⟩ := evaluateReduction_ok hq
    rw [covered, hread.portfolio_eq, hread.intent_eq] at hexits
    rw [hsettled]
    rcases hapart with hother | ⟨ask, same, other, hask', hsame, hother, hfits⟩
    · rw [hro, ← hclass] at hother
      refine ⟨0, exits, hother, hexits, ?_⟩
      have := min_le_right e.ask (|position| - exits)
      linarith
    · rw [hro, ← hclass] at hsame hother
      obtain rfl := ok.inj (hask'.symm.trans hask)
      obtain rfl := ok.inj (hsame.symm.trans hexits)
      refine ⟨other, same, hother, hsame, ?_⟩
      have := min_le_left e.ask (|position| - same)
      linarith
  · obtain ⟨rfl, ⟨hopened⟩⟩ := openingChecks_ok hq
    have hreduces : e.reduces := by
      apply reduces_of_opposes hread.tolerance_eq hpos
      rwa [hsettled, hread.intent_eq]
    have hcross := hopened.cross
    rw [checkCross, if_pos hreduces] at hcross
    simp only [ok_iff] at hcross
    obtain ⟨opening, hopening, hle⟩ := hcross
    rw [opposite, hread.portfolio_eq, hread.intent_eq] at hopening
    rw [hsettled, hread.tolerance_eq, add_zero] at hle
    rcases hapart with hother | ⟨ask, same, other, hask', hsame, hother, hfits⟩
    · rw [hro, ← hclass] at hother
      exact ⟨opening, 0, hopening, hother, by linarith⟩
    · rw [hro, ← hclass] at hsame hother
      obtain rfl := ok.inj (hask'.symm.trans hask)
      obtain rfl := ok.inj (hsame.symm.trans hopening)
      exact ⟨same, other, hsame, hother, by linarith⟩

end

section
variable {b : Binary64} {strategy : StrategyId} {symbol : SymbolId} {position : Exact}

def Turn.Against (t : Turn) (strategy : StrategyId) (symbol : SymbolId) (position : Exact) : Prop :=
  t.intent.strategy = strategy ∧ t.intent.symbol = symbol ∧ Opposes t.intent.side position

variable (b strategy symbol position) in
/-- A turn at which the sleeve holds its position and, where its own intent is against it, the two
classes of its orders stay apart. -/
structure Turn.Keeps (k : Kernel)
    (t : Turn) : Prop where
  proper : t.Proper b k
  held : t.portfolio.owned strategy symbol = position
  apart : t.Against strategy symbol position → Apart b k.book t.intent position

theorem Covers.next {k : Kernel} {t : Turn} (ht : t.Keeps b strategy symbol position k)
    (hk : Covers k.book strategy symbol position) : Covers (t.next b k).book strategy symbol position := by
  obtain ⟨total, htotal, hle⟩ := hk
  obtain ⟨hpending, -⟩ | ⟨k', q, v, hverdict, hnext⟩ := t.next_cases (b := b) k
  · refine ⟨total, ?_, hle⟩
    rw [quantity, rows, hpending]
    exact htotal
  · obtain ⟨⟨hallowed⟩⟩ : Nonempty _ := ⟨assessPortfolio_allow hverdict⟩
    have hf := ht.proper q v (by rw [hverdict])
    obtain ⟨q', hq', hqle⟩ := hf.quantity
    have hq'pos := Intent.quantity_pos hq'
    have hrow := reservedRow_qty (k := k') hq' hf.prices
    have hbook : k'.book.quantity (against strategy symbol position) = .ok total := by
      rw [hallowed.book_eq]
      exact htotal
    obtain ⟨total', htotal', hle'⟩ := quantity_forget hbook t.id
    rw [hnext]
    by_cases hagainst : against strategy symbol position (k'.reservedRow b t.order) = true
    · refine ⟨_, quantity_cons rows_reserve htotal' hagainst hrow, ?_⟩
      simp only [against, decide_eq_true_eq, hrow, Option.all_some] at hagainst
      obtain ⟨hs, hy, hneg⟩ := hagainst
      have hmine : t.Against strategy symbol position :=
        ⟨hf.strategy.symm.trans hs, hf.symbol.symm.trans hy, hf.side ▸ opposes_of_signed hq'pos hneg⟩
      have hapart := ht.apart hmine
      obtain ⟨rfl, rfl, hside⟩ := hmine
      obtain ⟨opening, exits, hopening, hexits, hfits⟩ := allowed_fits hallowed ht.held hside hapart
      obtain ⟨both, hboth, hbothle⟩ := against_le hside hopening hexits
      obtain rfl := ok.inj (hboth.symm.trans hbook)
      calc |signed t.order.side q'| + total' ≤ q' + both := by
            rw [abs_signed, abs_of_pos hq'pos]
            linarith
        _ ≤ q + (exits + opening) := add_le_add hqle hbothle
        _ ≤ |position| := by linarith
    · refine ⟨total', quantity_skip rows_reserve htotal' (by simpa using hagainst), ?_⟩
      exact hle'.trans hle

/-- The fills of the orders against the position, each of nothing up to the whole order. -/
def Fills (book : Book) (strategy : StrategyId) (symbol : SymbolId) (position : Exact) (filled : String → Exact) :
    Prop :=
  ∀ id p, book.pending[id]? = some p → against strategy symbol position p →
    filled id ∈ Set.uIcc 0 (p.signedQty.getD 0)

def filledAgainst (book : Book) (strategy : StrategyId) (symbol : SymbolId) (position : Exact)
    (filled : String → Exact) : Exact :=
  ((book.pending.toList.filter (fun row => against strategy symbol position row.2)).map (fun row => filled row.1)).sum

theorem Covers.abs_filled_le {book : Book} {filled : String → Exact} (h : Covers book strategy symbol position)
    (hfilled : Fills book strategy symbol position filled) :
    |filledAgainst book strategy symbol position filled| ≤ |position| := by
  obtain ⟨total, htotal, hle⟩ := h
  obtain ⟨hrows, rfl⟩ := sumOk_eq_ok.mp htotal
  refine le_trans ?_ hle
  rw [rows, List.filter_map, List.map_map, filledAgainst]
  apply abs_sum_le
  intro row hrow
  obtain ⟨hmem, hagainst⟩ := List.mem_filter.mp hrow
  have hget := ExtTreeMap.mem_toList_iff_getElem?_eq_some.mp hmem
  have hbetween := Set.abs_sub_left_of_mem_uIcc (hfilled row.1 row.2 hget hagainst)
  rw [sub_zero, sub_zero] at hbetween
  -- the order has a quantity, since the sum was made
  have hvalue := hrows row.2 (List.mem_filter.mpr ⟨List.mem_map.mpr ⟨row, hmem, rfl⟩, hagainst⟩)
  obtain ⟨q, hq, hqabs⟩ := map_eq_ok.mp hvalue
  rw [orError_eq_ok] at hq
  rw [hq] at hbetween
  exact hbetween.trans (le_of_eq hqabs)

/-- In every sequence of turns that keep a sleeve's exits and opening orders apart, what is pending
against its position never exceeds the position, and no fills of it change the position's sign. -/
theorem neverThroughFlat {k : Kernel} {ts : List Turn} (hstart : Covers k.book strategy symbol position)
    (hrun : Turn.Throughout b (Turn.Keeps b strategy symbol position) k ts) :
    Covers (Turn.run b k ts).book strategy symbol position ∧
    ∀ filled, Fills (Turn.run b k ts).book strategy symbol position filled →
      (0 < position → 0 ≤ position + filledAgainst (Turn.run b k ts).book strategy symbol position filled) ∧
      (position < 0 → position + filledAgainst (Turn.run b k ts).book strategy symbol position filled ≤ 0) := by
  have hcovers : Covers (run b k ts).book strategy symbol position :=
    run_invariant (I := fun k => Covers k.book strategy symbol position) (fun k t ht hk => hk.next ht) hrun hstart
  refine ⟨hcovers, fun filled hfilled => ?_⟩
  have hle := abs_le.mp (hcovers.abs_filled_le hfilled)
  constructor
  · intro hpos
    rw [abs_of_pos hpos] at hle
    linarith [hle.1]
  · intro hneg
    rw [abs_of_neg hneg] at hle
    linarith [hle.2]

end

section
open OneUnit

/-- A sale that opens, with its stop, for the unit the sleeve holds. -/
def openingSale : Turn := turn 10 8 "eng-1-1" (order .sell 10 (some 11) false)

def exitSale : Turn := turn 10 8 "eng-1-2" (order .sell 10 none true)

theorem openingSale_proper : openingSale.Proper .unrounded (kernel 10) :=
  proper_of_verdict (q := 1) (v := false) (by decide +kernel) (follows_self (by decide +kernel) (by decide +kernel))

theorem exitSale_proper : exitSale.Proper .unrounded (openingSale.next .unrounded (kernel 10)) :=
  proper_of_verdict (q := 1) (v := false) (by decide +kernel) (follows_self (by decide +kernel) (by decide +kernel))

theorem covers_fresh : Covers (kernel 10).book 0 0 1 := ⟨0, by decide +kernel, by norm_num⟩

def halfSale : Turn := turn 10 8 "eng-1-1" { order .sell 10 (some 11) false with qty := .finite (1 / 2) }

theorem halves_keep : Turn.Throughout .unrounded (Turn.Keeps .unrounded 0 0 1) (kernel 10)
    [halfSale, halfExit "eng-1-2"] := by
  refine ⟨⟨?_, by decide +kernel, fun _ => .inl (by decide +kernel)⟩, ⟨?_, by decide +kernel, fun _ => .inr ?_⟩,
    trivial⟩
  · exact proper_of_verdict (q := 1 / 2) (v := false) (by decide +kernel)
      (follows_self (by decide +kernel) (by decide +kernel))
  · exact proper_of_verdict (q := 1 / 2) (v := true) (by decide +kernel)
      (follows_self (by decide +kernel) (by decide +kernel))
  · exact ⟨1 / 2, 0, 1 / 2, by decide +kernel, by decide +kernel, by decide +kernel, by norm_num⟩

/-- Half of the unit sold by an opening order and half by an exit stay within it, however they are filled. -/
theorem neverThroughFlat_halves :
    Covers (Turn.run .unrounded (kernel 10) [halfSale, halfExit "eng-1-2"]).book 0 0 1 ∧
    ∀ filled, Fills (Turn.run .unrounded (kernel 10) [halfSale, halfExit "eng-1-2"]).book 0 0 1 filled →
      0 ≤ 1 + filledAgainst (Turn.run .unrounded (kernel 10) [halfSale, halfExit "eng-1-2"]).book 0 0 1 filled := by
  obtain ⟨hcovers, hfills⟩ := neverThroughFlat covers_fresh halves_keep
  exact ⟨hcovers, fun filled hfilled => (hfills filled hfilled).1 one_pos⟩

/-- The sale and the exit are both admitted, and together they are for two units against the one held. -/
theorem carriedThroughFlat : Covers (kernel 10).book 0 0 1 ∧
    Turn.Throughout .unrounded (fun k t => t.Proper .unrounded k ∧ t.portfolio.owned 0 0 = 1) (kernel 10)
      [openingSale, exitSale] ∧
    ¬ Covers (Turn.run .unrounded (kernel 10) [openingSale, exitSale]).book 0 0 1 := by
  refine ⟨covers_fresh, ⟨⟨openingSale_proper, by decide +kernel⟩, ⟨exitSale_proper, by decide +kernel⟩, trivial⟩, ?_⟩
  rintro ⟨total, htotal, hle⟩
  have htwo : (run .unrounded (kernel 10) [openingSale, exitSale]).book.quantity (against 0 0 1) = .ok 2 := by
    decide +kernel
  obtain rfl := ok.inj (htwo.symm.trans htotal)
  norm_num at hle

end

end LiquidityMigration.Risk
