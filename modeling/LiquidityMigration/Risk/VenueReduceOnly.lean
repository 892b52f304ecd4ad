import LiquidityMigration.Risk.Admission

/- Exits that go to the venue marked reduce-only: the mark is set where the exit takes every exposure within reach
   nearer to flat, and none through it. The kernel looks at the ends of its cached interval only, which are the least
   and the greatest (`physicalInterval_hull`). A sleeve's exits are admitted for no more than its resting exits leave
   of the position, so together they stay within it (`ExitsWithin.next`). -/
namespace LiquidityMigration.Risk
open Numeric Portfolio Checks RowSums List PendingInterval Kernel
open Std (ExtTreeMap)

def Book.symbolRows (book : Book) (symbol : SymbolId) : List (String × Pending) :=
  book.pending.toList.filter fun row => row.2.symbol = symbol

/-- The exposures that filling a part of every pending order of the symbol can lead to. An order whose
quantity is not known may fill for any. -/
def Book.Reachable (book : Book) (symbol : SymbolId) (settled exposure : Exact) : Prop :=
  ∃ filled : String → Exact,
    (∀ row ∈ book.symbolRows symbol, ∀ q, row.2.signedQty = some q → filled row.1 ∈ Set.uIcc 0 q) ∧
    exposure = settled + ((book.symbolRows symbol).map (fun row => filled row.1)).sum

/-- The venue's position with the fills it does not show, as an assessment reads them. -/
def Kernel.physicalOn (b : Binary64) (k : Kernel) (symbol : SymbolId) (account : AccountView) :
    Except DenyReason Exact := do
  let view ← ViewFacts.read b account 0
  let recent ← (k.book.pruneThrough account.observedNs).netFills.mapError unknown
  .ok (view.netQty symbol + recentQty recent symbol)

def Shrinks (before after : Exact) : Prop :=
  |after| < |before| ∧ (0 < before → 0 ≤ after) ∧ (before < 0 → after ≤ 0)

section
variable {book : Book} {symbol : SymbolId} {settled low high exposure : Exact}

theorem onSymbol_eq (book : Book) (symbol : SymbolId) :
    onSymbol book.pending symbol = (book.symbolRows symbol).map Prod.snd := by
  rw [onSymbol, filter_map]
  rfl

variable (book symbol settled) in
theorem physicalInterval_eq : book.physicalInterval symbol settled =
      if ∀ row ∈ book.symbolRows symbol, row.2.signedQty ≠ none then
        .ok (settled + ((book.symbolRows symbol).map (fun row => min (row.2.signedQty.getD 0) 0)).sum,
          settled + ((book.symbolRows symbol).map (fun row => max (row.2.signedQty.getD 0) 0)).sum)
      else .error "pending physical quantity is unknown" := by
  rw [Book.physicalInterval, book.cached, onSymbol_eq]
  cases hrows : book.symbolRows symbol with
  | nil => simp [entry]
  | cons row rows =>
    rw [map_cons, entry_cons, ← map_cons]
    have hunknown : (ofRows ((row :: rows).map Prod.snd)).unknown = 0 ↔
        ∀ r ∈ row :: rows, r.2.signedQty ≠ none := by
      rw [ofRows, countP_map, countP_eq_zero]
      simp only [Function.comp_apply, decide_eq_true_eq, ne_eq]
    dsimp only
    by_cases hknown : ∀ r ∈ row :: rows, r.2.signedQty ≠ none
    · rw [hunknown.mpr hknown, if_neg (lt_irrefl 0), if_pos hknown, ofRows, map_map, map_map]
      rfl
    · rw [if_pos (Nat.pos_of_ne_zero (mt hunknown.mp hknown)), if_neg hknown]

theorem physicalInterval_ok (h : book.physicalInterval symbol settled = .ok (low, high)) :
    (∀ row ∈ book.symbolRows symbol, row.2.signedQty ≠ none) ∧
    low = settled + ((book.symbolRows symbol).map (fun row => min (row.2.signedQty.getD 0) 0)).sum ∧
    high = settled + ((book.symbolRows symbol).map (fun row => max (row.2.signedQty.getD 0) 0)).sum := by
  rw [physicalInterval_eq] at h
  split at h
  · next hknown =>
    obtain ⟨rfl, rfl⟩ := Prod.mk.inj (Except.ok.inj h)
    exact ⟨hknown, rfl, rfl⟩
  · cases h

theorem reachable_of_part (part : Exact → Exact) (hpart : ∀ q, part q ∈ Set.uIcc 0 q) : book.Reachable symbol settled
      (settled + ((book.symbolRows symbol).map (fun row => part (row.2.signedQty.getD 0))).sum) := by
  have hrow : ∀ row ∈ book.symbolRows symbol, book.pending[row.1]? = some row.2 := fun row h =>
    ExtTreeMap.mem_toList_iff_getElem?_eq_some.mp (mem_filter.mp h).1
  refine ⟨fun id => part ((book.pending[id]?.bind Pending.signedQty).getD 0), ?_, ?_⟩
  · intro row h q hq
    show part ((book.pending[row.1]?.bind Pending.signedQty).getD 0) ∈ Set.uIcc 0 q
    rw [hrow row h, Option.bind_some, hq]
    exact hpart q
  · congr 2
    apply map_congr_left
    intro row h
    show part (row.2.signedQty.getD 0) = part ((book.pending[row.1]?.bind Pending.signedQty).getD 0)
    rw [hrow row h, Option.bind_some]

theorem physicalInterval_hull (h : book.physicalInterval symbol settled = .ok (low, high)) :
    (∀ exposure, book.Reachable symbol settled exposure → low ≤ exposure ∧ exposure ≤ high) ∧
    book.Reachable symbol settled low ∧ book.Reachable symbol settled high := by
  obtain ⟨hknown, rfl, rfl⟩ := physicalInterval_ok h
  refine ⟨?_, ?_, ?_⟩
  · rintro exposure ⟨filled, hfilled, rfl⟩
    have hpart : ∀ row ∈ book.symbolRows symbol, filled row.1 ∈ Set.uIcc 0 (row.2.signedQty.getD 0) := by
      intro row hrow
      obtain ⟨q, hq⟩ := Option.ne_none_iff_exists'.mp (hknown row hrow)
      rw [hq]
      exact hfilled row hrow q hq
    have hbetween := sum_between hpart
    exact ⟨add_le_add_right hbetween.1 settled, add_le_add_right hbetween.2 settled⟩
  · apply reachable_of_part (fun q => min q 0)
    intro q
    exact ⟨(min_comm q 0).ge, (min_le_right q 0).trans (le_max_left 0 q)⟩
  · apply reachable_of_part (fun q => max q 0)
    intro q
    exact ⟨(min_le_left 0 q).trans (le_max_right q 0), (max_comm q 0).le⟩

theorem shrinks_of_staysInside {side : Side} {qty : Exact} (h : staysInside side qty low high = true)
    (hbetween : low ≤ exposure ∧ exposure ≤ high) {part : Exact} (hpos : 0 < part) (hle : part ≤ qty) :
    Shrinks exposure (exposure + signed side part) := by
  cases side with
  | sell =>
    have hlow : qty ≤ low := by simpa [staysInside] using h
    have hexposure : part ≤ exposure := hle.trans (hlow.trans hbetween.1)
    have hbefore : 0 < exposure := hpos.trans_le hexposure
    have hafter : 0 ≤ exposure + -part := by linarith
    refine ⟨?_, fun _ => hafter, fun hneg => absurd hneg (not_lt.mpr hbefore.le)⟩
    show |exposure + -part| < |exposure|
    rw [abs_of_nonneg hafter, abs_of_pos hbefore]
    linarith
  | buy =>
    have hhigh : high ≤ -qty := by simpa [staysInside] using h
    have hbefore : exposure < 0 := by linarith [hbetween.2]
    have hafter : exposure + part ≤ 0 := by linarith
    refine ⟨?_, fun hpos' => absurd hpos' (not_lt.mpr hbefore.le), fun _ => hafter⟩
    show |exposure + part| < |exposure|
    rw [abs_of_nonpos hafter, abs_of_neg hbefore]
    linarith

theorem Kernel.venueReduceOnly_shrinks {b : Binary64} {k k' : Kernel} {intent : Intent} {account : AccountView}
    {portfolio : PortfolioState} {nowNs : Nat} {q : Exact}
    (h : k.assessPortfolio b intent account portfolio nowNs = (k', .allow q true)) :
    ∃ settled, k.physicalOn b intent.symbol account = .ok settled ∧
      ∀ exposure, k.book.Reachable intent.symbol settled exposure → ∀ part, 0 < part → part ≤ q →
        Shrinks exposure (exposure + signed intent.side part) := by
  obtain ⟨⟨facts, e, interval, hfacts, hread, hbook, hcfg, -, hinterval, hreduces⟩⟩ := assessPortfolio_allow h
  have hcertain : interval.certainlyReduces intent.side q = true := by
    rw [eq_comm, Bool.and_eq_true] at hreduces
    exact hreduces.2
  rw [PhysicalExposureInterval.certainlyReduces, decide_eq_true_eq] at hcertain
  refine ⟨e.physical, ?_, ?_⟩
  · have hrecent := hread.recent_eq
    rw [hbook] at hrecent
    simp only [physicalOn, hread.view_eq, hrecent, Except.mapError, bind, Except.bind, Evaluation.physical,
      hread.intent_eq]
  · intro exposure hreach part hpos hle
    have hsame : k'.book.physicalInterval intent.symbol e.physical =
        k.book.physicalInterval intent.symbol e.physical := by
      rw [hbook]
      rfl
    rw [hsame] at hinterval
    exact shrinks_of_staysInside hcertain.2 ((physicalInterval_hull hinterval).1 exposure hreach) hpos hle

end

/-- All pending exits of the sleeve together are for no more than its position. -/
def ExitsWithin (book : Book) (strategy : StrategyId) (symbol : SymbolId) (position : Exact) : Prop :=
  ∃ total, book.ownedReduceQty strategy symbol = .ok total ∧ total ≤ |position|

section
variable {b : Binary64} {strategy : StrategyId} {symbol : SymbolId} {position : Exact} {k : Kernel} {t : Turn}

theorem ExitsWithin.next (hproper : t.Proper b k) (hheld : t.portfolio.owned strategy symbol = position)
    (hk : ExitsWithin k.book strategy symbol position) : ExitsWithin (t.next b k).book strategy symbol position := by
  obtain ⟨total, htotal, hle⟩ := hk
  obtain ⟨hpending, -⟩ | ⟨k', q, v, hverdict, hnext⟩ := t.next_cases (b := b) k
  · refine ⟨total, ?_, hle⟩
    rw [Book.ownedReduceQty, Book.quantity, Book.rows, hpending]
    exact htotal
  · obtain ⟨hallowed⟩ := assessPortfolio_allow hverdict
    have hf := hproper q v (by rw [hverdict])
    obtain ⟨q', hq', hqle⟩ := hf.quantity
    have hrow := reservedRow_qty (k := k') hq' hf.prices
    have hbook : k'.book.ownedReduceQty strategy symbol = .ok total := by
      rw [hallowed.book_eq]
      exact htotal
    obtain ⟨total', htotal', hle'⟩ := Book.quantity_forget hbook t.id
    rw [hnext]
    by_cases hmine : t.order.reduceOnly = true ∧ t.order.strategy = strategy ∧ t.order.symbol = symbol
    · refine ⟨_, Book.quantity_cons rows_reserve htotal' (decide_eq_true hmine) hrow, ?_⟩
      obtain ⟨hexit, rfl, rfl⟩ := hmine
      rw [abs_signed, abs_of_pos (Intent.quantity_pos hq')]
      obtain ⟨-, hq⟩ | ⟨hopening, -⟩ := hallowed.branch
      · obtain ⟨-, covered, hcovered, -, hqmin⟩ := evaluateReduction_ok hq
        have hread := hallowed.read
        rw [Kernel.covered, hread.portfolio_eq, hread.intent_eq] at hcovered
        have hsettled : hallowed.e.settled = position := by
          rw [Evaluation.settled, hread.portfolio_eq, hread.intent_eq, ← hf.strategy, ← hf.symbol]
          exact (PortfolioFacts.owned_read hallowed.facts_eq _ _).trans hheld
        rw [hqmin, hsettled] at hqle
        have hsame : k'.book.ownedReduceQty t.order.strategy t.order.symbol = .ok covered := by
          rw [hf.strategy, hf.symbol]
          exact hcovered
        obtain rfl := Except.ok.inj (hbook.symm.trans hsame)
        have huncovered := hqle.trans (min_le_right _ _)
        linarith
      · rw [← hf.reduceOnly, hexit] at hopening
        cases hopening
    · exact ⟨total', Book.quantity_skip rows_reserve htotal' (decide_eq_false hmine), hle'.trans hle⟩

end

/-- An exit approved as reduce-only for the venue shrinks every exposure that fills of the pending orders
can lead to, and the exits admitted for a sleeve never add up to more than it owns. -/
theorem reduceOnlyShrinks (b : Binary64) :
    (∀ (k k' : Kernel) (intent : Intent) (account : AccountView) (portfolio : PortfolioState) (nowNs : Nat) (q : Exact),
      k.assessPortfolio b intent account portfolio nowNs = (k', .allow q true) →
      ∃ settled, k.physicalOn b intent.symbol account = .ok settled ∧
        ∀ exposure, k.book.Reachable intent.symbol settled exposure → ∀ part, 0 < part → part ≤ q →
          Shrinks exposure (exposure + signed intent.side part)) ∧
    (∀ (strategy : StrategyId) (symbol : SymbolId) (position : Exact) (k : Kernel) (ts : List Turn),
      ExitsWithin k.book strategy symbol position →
      Turn.Throughout b (fun k t => t.Proper b k ∧ t.portfolio.owned strategy symbol = position) k ts →
      ExitsWithin (Turn.run b k ts).book strategy symbol position) := by
  refine ⟨fun _ _ _ _ _ _ _ h => venueReduceOnly_shrinks h, ?_⟩
  intro strategy symbol position k ts hk hrun
  exact Turn.run_invariant (I := fun k => ExitsWithin k.book strategy symbol position)
    (fun k t ht hk => hk.next ht.1 ht.2) hrun hk

section
open OneUnit

/-- The second half goes out reduce-only while the first is pending: whatever is filled of that, it takes the
position nearer to flat. -/
theorem reduceOnlyShrinks_secondHalf :
    (∃ settled, ((halfExit "eng-1-1").next .unrounded (kernel 10)).physicalOn .unrounded 0 (account 10 8) =
      .ok settled ∧
      ∀ exposure, ((halfExit "eng-1-1").next .unrounded (kernel 10)).book.Reachable 0 settled exposure →
        ∀ part, 0 < part → part ≤ 1 / 2 → Shrinks exposure (exposure + signed .sell part)) ∧
    ExitsWithin (Turn.run .unrounded (kernel 10) [halfExit "eng-1-1", halfExit "eng-1-2"]).book 0 0 1 := by
  obtain ⟨hshrinks, hwithin⟩ := reduceOnlyShrinks .unrounded
  constructor
  · exact hshrinks _ ((halfExit "eng-1-2").verdict .unrounded ((halfExit "eng-1-1").next .unrounded (kernel 10))).1
      (halfExit "eng-1-2").intent _ (halfExit "eng-1-2").portfolio (halfExit "eng-1-2").nowNs (1 / 2)
      (Prod.ext rfl (by decide +kernel))
  · refine hwithin 0 0 1 (kernel 10) _ ⟨0, by decide +kernel, by norm_num⟩ ⟨⟨?_, by decide +kernel⟩,
      ⟨?_, by decide +kernel⟩, trivial⟩
    · exact Turn.proper_of_verdict (q := 1 / 2) (v := true) (by decide +kernel)
        (follows_self (by decide +kernel) (by decide +kernel))
    · exact Turn.proper_of_verdict (q := 1 / 2) (v := true) (by decide +kernel)
        (follows_self (by decide +kernel) (by decide +kernel))

end

end LiquidityMigration.Risk
