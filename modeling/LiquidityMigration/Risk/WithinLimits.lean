import LiquidityMigration.Risk.Reservation

/- Whether the limits an opening order was admitted under still hold once it and what follows are reserved, with
   account, portfolio and prices fixed. An admitted opening order leaves the reference where the account puts it
   (`observeEquity_again`); exits and refusals leave the totals, and an opening order reserved for what was counted
   brings them to what was found within the limits. -/
namespace LiquidityMigration.Risk
open Numeric Portfolio Checks RowSums Book Envelope Kernel Turn ViewFacts Except
open Std (ExtTreeMap)

theorem Envelope.observeEquity_again (env : Envelope) (equity : Exact) (allowExpansion : Bool) :
    (env.observeEquity equity true).observeEquity equity allowExpansion = env.observeEquity equity true := by
  have hself : ∀ x : Exact, closeEnough x x := by
    intro x
    rw [closeEnough, sub_self, abs_zero]
    exact le_max_of_le_right (by norm_num)
  by_cases htrack : env.tracksEquity = true ∧ 0 < equity
  · obtain ⟨htracks, hpos⟩ := htrack
    by_cases hclose : closeEnough (equity * env.equityFraction) env.referenceUsdt
    · simp [observeEquity, htracks, hpos, hclose]
    · by_cases hup : env.referenceUsdt ≤ equity * env.equityFraction
      · by_cases hband : equity * env.equityFraction ≤ env.referenceUsdt * env.expansionMultiple
        · -- inside the dead band no reading moves the reference, whatever it is allowed
          simp [observeEquity, htracks, hpos, hclose, hup, hband]
        · simp [observeEquity, htracks, hpos, hclose, hband, hself]
      · simp [observeEquity, htracks, hpos, hclose, hup, hself]
  · have hfixed : ¬ env.tracksEquity = true ∨ ¬ 0 < equity := not_and_or.mp htrack
    simp only [observeEquity, if_pos hfixed]

@[simp] theorem Envelope.observeEquity_disaster (env : Envelope) (equity : Exact) (allowExpansion : Bool) :
    (env.observeEquity equity allowExpansion).disasterStopFraction = env.disasterStopFraction := by
  unfold Envelope.observeEquity
  dsimp only
  repeat' split
  all_goals rfl

variable {view : ViewFacts}

theorem ViewFacts.read_observedNs {b : Binary64} {account : AccountView} {tolerance : Exact}
    (h : ViewFacts.read b account tolerance = .ok view) : view.observedNs = account.observedNs := by
  have hstep : ∀ facts position facts', addPosition b tolerance facts position = .ok facts' →
      facts'.observedNs = facts.observedNs := by
    intro facts position facts' hposition
    simp only [addPosition, bind_eq_ok] at hposition
    obtain ⟨-, -, qty, -, -, -, hposition⟩ := hposition
    split at hposition
    · cases hposition
      rfl
    · simp only [bind_eq_ok] at hposition
      obtain ⟨entry, -, hposition⟩ := hposition
      split at hposition
      · simp only [ok_iff] at hposition
        obtain ⟨net, -, stop, -, rfl⟩ := hposition
        rfl
      · cases hposition
  simp only [read, bind_eq_ok] at h
  obtain ⟨equity, -, -, -, available, -, h⟩ := h
  exact foldlM_keeps observedNs hstep h

namespace Kernel
variable {b : Binary64} {k : Kernel} {view : ViewFacts}

def Settled (k : Kernel) (view : ViewFacts) : Prop :=
  ∀ allowExpansion, k.envelope.observeEquity view.equityUsdt allowExpansion = k.envelope

theorem Settled.observeReference (h : k.Settled view) (allowExpansion : Bool) :
    (k.observeReference view allowExpansion).envelope = k.envelope := h _

theorem evaluateOpening_frame {e : Evaluation} (h : k.Settled e.view) :
    (k.evaluateOpening b e).1.envelope = k.envelope ∧ (k.evaluateOpening b e).1.cfg = k.cfg := by
  unfold evaluateOpening
  split
  · exact ⟨rfl, rfl⟩
  · split
    · exact ⟨rfl, rfl⟩
    · dsimp only
      split
      · exact ⟨h.observeReference true, rfl⟩
      · split
        · exact ⟨h.observeReference true, rfl⟩
        · exact ⟨h.observeReference true, rfl⟩

theorem evaluateInventory_frame {intent : Intent} {account : AccountView} {facts : PortfolioFacts} {nowNs : Nat}
    (hview : ViewFacts.read b account 0 = .ok view) (h : k.Settled view) :
    (k.evaluateInventory b intent account (some facts) nowNs).1.envelope = k.envelope ∧
    (k.evaluateInventory b intent account (some facts) nowNs).1.cfg = k.cfg := by
  set observed := k.observeReference view false
  have hfirst : observed.envelope = k.envelope := h.observeReference false
  unfold evaluateInventory
  split
  · exact ⟨rfl, rfl⟩
  · simp only [Option.isSome_some, ↓reduceIte, hview]
    split
    · exact ⟨hfirst, rfl⟩
    · split
      · exact ⟨hfirst, rfl⟩
      · split
        · exact ⟨hfirst, rfl⟩
        · -- the first reading changed nothing, so the second finds the reference settled
          have hagain : (observed.pruneThrough account.observedNs).Settled view := by
            intro allowExpansion
            show observed.envelope.observeEquity _ _ = observed.envelope
            rw [hfirst]
            exact h allowExpansion
          obtain ⟨henv, hcfg⟩ := evaluateOpening_frame (b := b) (e := ⟨intent, account, some facts,
            nowNs - account.observedNs, 0, view, _, _⟩) hagain
          exact ⟨henv.trans hfirst, hcfg⟩

/-- What the sleeves, and the position no sleeve owns, put at stake. -/
def inventoryRisk (k : Kernel) (recent : RecentFills) (view : ViewFacts) (facts : PortfolioFacts) :
    Except DenyReason (Exact × Exact) := do
  let sleeves ← sumOk k.sleeveRisk facts.positions
  let residual ← sumOk (k.residualRisk recent view facts) (exposedSymbols recent view facts)
  .ok (sleeves + residual)

variable {k' : Kernel} {recent : RecentFills} {facts : PortfolioFacts}

theorem projectedPortfolio_ok {notional fraction : Exact} {total : Projected} :
    k.projectedPortfolio notional fraction recent view facts = .ok total ↔
      ∃ held pending, k.inventoryRisk recent view facts = .ok held ∧ k.pendingTotals view = .ok pending ∧
        total = ⟨(k.charged notional fraction + held + pending).1,
          (k.charged notional fraction + held + pending).2⟩ := by
  simp only [projectedPortfolio, inventoryRisk, ok_iff]
  constructor
  · rintro ⟨sleeves, hsleeves, residual, hresidual, pending, hpending, rfl⟩
    refine ⟨_, pending, ⟨sleeves, hsleeves, residual, hresidual, rfl⟩, hpending, ?_⟩
    rw [add_assoc (k.charged notional fraction)]
  · rintro ⟨_, pending, ⟨sleeves, hsleeves, residual, hresidual, rfl⟩, hpending, rfl⟩
    refine ⟨sleeves, hsleeves, residual, hresidual, pending, hpending, ?_⟩
    rw [add_assoc (k.charged notional fraction)]

theorem inventoryRisk_congr (hpx : k'.book.px = k.book.px) (henv : k'.envelope = k.envelope) :
    k'.inventoryRisk recent view facts = k.inventoryRisk recent view facts := by
  have hsleeve : k'.sleeveRisk = k.sleeveRisk := by
    funext row
    simp only [sleeveRisk, charged, hpx, henv]
  have hworst : k'.worstStop = k.worstStop := by
    funext worst row
    simp only [worstStop, hpx]
  have hresidual : k'.residualRisk recent view facts = k.residualRisk recent view facts := by
    funext symbol
    simp only [residualRisk, residualStop, heldStopFraction, priceFor, charged, hpx, henv, hworst]
  rw [inventoryRisk, inventoryRisk, hsleeve, hresidual]

variable (b k recent) in
/-- The gross notional and the stop charge of everything at stake are within their limits. -/
def TotalFits (view : ViewFacts) (facts : PortfolioFacts) : Prop :=
  ∃ total, k.projectedPortfolio 0 0 recent view facts = .ok total ∧
    total.grossUsdt ≤ b.policy k.cfg.envelope.maxComponentGrossNotionalUsdt * k.envelope.scale ∧
    total.modelledStopChargeUsdt ≤ k.envelope.allowanceUsdt

variable (b k recent) in
/-- What is held and pending of one symbol, at its reference price, is within its limit. -/
def SymbolFits (view : ViewFacts) (facts : PortfolioFacts)
    (symbol : SymbolId) : Prop :=
  ∃ pending, k.book.pendingSymbolNotional symbol ((k.priceFor symbol view).getD 0) = .ok pending ∧
    facts.symbolGrossQuantity symbol (view.netQty symbol + recentQty recent symbol) * (k.priceFor symbol view).getD 0
      + pending ≤ k.symbolCap b

/-- Two kernels with the same prices and limits. -/
structure Alike (k k' : Kernel) : Prop where
  px : k'.book.px = k.book.px
  cfg : k'.cfg = k.cfg
  envelope : k'.envelope = k.envelope

theorem Alike.pendingTotals (h : Alike k k') (hpending : k'.book.pending = k.book.pending) (t : Exact × Exact)
    (ht : k.pendingTotals view = .ok t) : k'.pendingTotals view = .ok t := by
  have hprice : (k'.priceFor · view) = (k.priceFor · view) := by
    funext symbol
    rw [priceFor, h.px, priceFor]
  rw [pendingTotals_ok] at ht ⊢
  rw [hprice, h.envelope, rows, hpending]
  exact ht

theorem TotalFits.of_alike (h : k.TotalFits b recent view facts) (halike : Alike k k')
    (hpending : ∀ t, k.pendingTotals view = .ok t → k'.pendingTotals view = .ok t) :
    k'.TotalFits b recent view facts := by
  obtain ⟨total, htotal, hgross, hcharge⟩ := h
  obtain ⟨held, pending, hheld, hp, rfl⟩ := projectedPortfolio_ok.mp htotal
  refine ⟨_, projectedPortfolio_ok.mpr ⟨held, pending, ?_, hpending _ hp, rfl⟩, ?_, ?_⟩
  · rw [inventoryRisk_congr halike.px halike.envelope]
    exact hheld
  · simpa only [charged, halike.cfg, halike.envelope] using hgross
  · simpa only [charged, halike.envelope] using hcharge

variable {symbol : SymbolId}

theorem SymbolFits.of_alike (h : k.SymbolFits b recent view facts symbol) (halike : Alike k k')
    (hpending : ∀ price s, k.book.pendingSymbolNotional symbol price = .ok s →
      k'.book.pendingSymbolNotional symbol price = .ok s) : k'.SymbolFits b recent view facts symbol := by
  obtain ⟨pending, hp, hle⟩ := h
  have hprice : k'.priceFor symbol view = k.priceFor symbol view := by rw [priceFor, priceFor, halike.px]
  refine ⟨pending, ?_, ?_⟩
  · rw [hprice]
    exact hpending _ _ hp
  · rw [hprice, symbolCap, halike.cfg, halike.envelope]
    exact hle

variable {id : String} {order : Intent} {account : AccountView}

theorem reserve_alike : Alike k (k.reserve b id order account) := ⟨reserve_px, reserve_cfg, reserve_envelope⟩

theorem without_of_fresh (h : k.book.pending[id]? = none) : (k.without id).book.rows = k.book.rows := by
  show (k.book.forget id).rows = k.book.rows
  rw [rows, forget_pending, erase_of_get_none h, rows]

theorem without_pendingTotals_iff (h : k.book.pending[id]? = none) {t : Exact × Exact} :
    (k.without id).pendingTotals view = .ok t ↔ k.pendingTotals view = .ok t := by
  rw [pendingTotals_ok, pendingTotals_ok, without_of_fresh h]
  simp only [without_priceFor]
  rfl

theorem reserve_other_symbolNotional (hfresh : k.book.pending[id]? = none)
    (hother : order.symbol ≠ symbol ∨ order.reduceOnly = true) (price s : Exact)
    (h : k.book.pendingSymbolNotional symbol price = .ok s) :
    (k.reserve b id order account).book.pendingSymbolNotional symbol price = .ok s := by
  have hrows : (k.reserve b id order account).book.rows.Perm (k.reservedRow b order :: (k.without id).book.rows) :=
    rows_reserve
  have hperm := hrows.filter (fun p => p.symbol = symbol ∧ ¬ p.reduceOnly)
  have hskip : decide ((k.reservedRow b order).symbol = symbol ∧ ¬ (k.reservedRow b order).reduceOnly) = false := by
    rw [decide_eq_false_iff_not]
    rintro ⟨hsymbol, hopening⟩
    rcases hother with hne | hexit
    · exact hne hsymbol
    · exact hopening hexit
  rw [List.filter_cons_of_neg (by simp only [hskip, Bool.false_eq_true, not_false_eq_true]), without_of_fresh hfresh]
    at hperm
  exact sumOk_perm hperm.symm h

theorem symbolNotional_mono {book : Book} {price price' s : Exact} (hle : price' ≤ price)
    (h : book.pendingSymbolNotional symbol price = .ok s) :
    ∃ s', book.pendingSymbolNotional symbol price' = .ok s' ∧ s' ≤ s := by
  refine sumOk_le ?_ h
  intro row _ a ha
  simp only [rowNotional, ok_iff] at ha ⊢
  obtain ⟨q, hq, px, hpx, rfl⟩ := ha
  exact ⟨_, ⟨q, hq, px, hpx, rfl⟩, mul_le_mul_of_nonneg_left (max_le_max_left px hle) (abs_nonneg q)⟩

theorem reserve_fills : ((k.reserve b id order account).book.pruneThrough account.observedNs).netFills =
    (k.book.pruneThrough account.observedNs).netFills := by
  have hfills : ((k.reserve b id order account).book.pruneThrough account.observedNs).recentFills =
      (k.book.pruneThrough account.observedNs).recentFills := by
    obtain ⟨k1, q, rfl | rfl, heq⟩ := reserve_eq b k id order account
    · rw [heq]
      simp [registerPrices, Book.pruneThrough]
    · rw [heq]
      simp [registerPrices, Book.pruneThrough, pruneThrough]
  rw [Book.netFills, hfills, Book.netFills]

theorem heldPrice_eq {e : Evaluation} {p : StopPrices} {ask px fraction : Exact}
    (j : Judged b k e.intent e.view p ask px fraction) : k.heldPrice e px = px := by
  rw [heldPrice]
  cases href : k.priceFor e.intent.symbol e.view with
  | none => rfl
  | some reference => exact max_eq_right (j.reference_le reference href)

section
variable {e : Evaluation} {p : StopPrices} {f : Exact} (o : Opened b k e) (hportfolio : e.portfolio = some facts)
  (j : Judged b k e.intent e.view p e.ask o.px o.fraction) (hf : p.reserved e.intent.side = some f)
  (hfresh : k.book.pending[id]? = none)
include o hportfolio j hf hfresh

theorem opened_totalFits
    (hle : max f k.envelope.disasterStopFraction ≤ max o.fraction k.envelope.disasterStopFraction) :
    (k.reserve b id e.intent account).TotalFits b e.recent e.view facts := by
  have hprojected := o.projected_eq
  simp only [projected, hportfolio] at hprojected
  obtain ⟨held, pending, hheld, hpending, heq⟩ := projectedPortfolio_ok.mp hprojected
  have htotals : (k.reserve b id e.intent account).pendingTotals e.view =
      .ok (k.charged (e.ask * o.px) f + pending) :=
    reserve_pendingTotals.mpr
      ⟨_, pending, j.rowRisk_iff.mpr ⟨f, hf, rfl⟩, (without_pendingTotals_iff hfresh).mpr hpending, rfl⟩
  have hgross := o.gross_le
  have hcharge := o.charge_le
  rw [heq] at hgross hcharge
  refine ⟨_, projectedPortfolio_ok.mpr ⟨held, _, ?_, htotals, rfl⟩, ?_, ?_⟩
  · rw [inventoryRisk_congr reserve_px reserve_envelope]
    exact hheld
  · rw [reserve_cfg, reserve_envelope]
    calc (0 : Exact) + held.1 + (e.ask * o.px + pending.1)
        = e.ask * o.px + held.1 + pending.1 := by ring
      _ ≤ _ := hgross
  · rw [reserve_envelope]
    have hmore := mul_le_mul_of_nonneg_left hle j.notional_pos.le
    calc (0 : Exact) * max 0 (k.reserve b id e.intent account).envelope.disasterStopFraction + held.2
          + (e.ask * o.px * max f k.envelope.disasterStopFraction + pending.2)
        = e.ask * o.px * max f k.envelope.disasterStopFraction + held.2 + pending.2 := by ring
      _ ≤ e.ask * o.px * max o.fraction k.envelope.disasterStopFraction + held.2 + pending.2 := by gcongr
      _ ≤ _ := hcharge

theorem opened_symbolFits : (k.reserve b id e.intent account).SymbolFits b e.recent e.view facts e.intent.symbol := by
  have hreference : (k.priceFor e.intent.symbol e.view).getD 0 ≤ o.px := by
    cases href : k.priceFor e.intent.symbol e.view with
    | none => exact j.px_pos.le
    | some reference => exact j.reference_le reference href
  have hpending := o.pending_eq
  have hsymbol := o.symbol_le
  rw [heldPrice_eq j] at hpending hsymbol
  obtain ⟨pending, hpending', hle⟩ := symbolNotional_mono hreference hpending
  refine ⟨e.ask * o.px + pending, ?_, ?_⟩
  · rw [reserve_priceFor]
    apply (reserve_symbolNotional j.opening).mpr
    refine ⟨_, pending, j.rowNotional_reference hf, ?_, rfl⟩
    rw [pendingSymbolNotional, without_of_fresh hfresh]
    exact hpending'
  · rw [reserve_priceFor, symbolCap, reserve_cfg, reserve_envelope]
    have hheld : heldQty e = facts.symbolGrossQuantity e.intent.symbol e.physical := by
      rw [heldQty, hportfolio]
    have hnonneg : 0 ≤ facts.symbolGrossQuantity e.intent.symbol e.physical := by
      apply add_nonneg
      · apply List.sum_nonneg
        intro a ha
        obtain ⟨row, -, rfl⟩ := List.mem_map.mp ha
        exact abs_nonneg _
      · exact abs_nonneg _
    rw [hheld] at hsymbol
    calc facts.symbolGrossQuantity e.intent.symbol e.physical * (k.priceFor e.intent.symbol e.view).getD 0
          + (e.ask * o.px + pending)
        ≤ facts.symbolGrossQuantity e.intent.symbol e.physical * o.px + (e.ask * o.px + o.pending) := by gcongr
      _ = e.ask * o.px + facts.symbolGrossQuantity e.intent.symbol e.physical * o.px + o.pending := by ring
      _ ≤ _ := hsymbol

end

variable (b k account) in
/-- Everything at stake is within its limits, and so is one symbol; no reading of the account moves the
reference or the fills it does not show. -/
structure Stands (view : ViewFacts) (facts : PortfolioFacts)
    (recent : RecentFills) (symbol : SymbolId) : Prop where
  total : k.TotalFits b recent view facts
  onSymbol : k.SymbolFits b recent view facts symbol
  settled : k.Settled view
  fills : (k.book.pruneThrough account.observedNs).netFills = .ok recent

variable (b k account) in
/-- The account and the portfolio can be read, and what they and the pending orders put at stake is
within the limits. -/
def Within (portfolio : PortfolioState) (symbol : SymbolId) :
    Prop :=
  ∃ view facts recent, ViewFacts.read b account 0 = .ok view ∧ PortfolioFacts.read portfolio = .ok facts ∧
    (k.book.pruneThrough account.observedNs).netFills = .ok recent ∧
    k.TotalFits b recent view facts ∧ k.SymbolFits b recent view facts symbol

theorem Settled.of_opening {k k' : Kernel} (hobserved : view.observedNs = account.observedNs)
    (hlatest : max k.latestAccountObservedNs view.observedNs ≤ account.observedNs)
    (henv : k'.envelope = ((k.observeReference view false).observeReference view true).envelope) : k'.Settled view := by
  have hlate : max k.latestAccountObservedNs view.observedNs ≤ view.observedNs := by
    rw [hobserved]
    rwa [hobserved] at hlatest
  have hsecond : ((k.observeReference view false).observeReference view true).envelope =
      (k.observeReference view false).envelope.observeEquity view.equityUsdt true := by
    have hallowed : (k.observeReference view false).latestAccountObservedNs ≤ view.observedNs := hlate
    rw [Kernel.observeReference, decide_eq_true hallowed, Bool.and_true]
  intro allowExpansion
  rw [henv, hsecond]
  exact observeEquity_again _ _ _

end Kernel

/-- A turn on a fixed account: its order goes out under a new id, and an opening order that is allowed
goes out as it was asked for, at prices where it is reserved for what was counted for it. -/
structure Turn.Counts (b : Binary64) (account : AccountView) (portfolio : PortfolioState) (k : Kernel) (t : Turn) :
    Prop where
  account_eq : t.account = account
  portfolio_eq : t.portfolio = portfolio
  fresh : k.book.pending[t.id]? = none
  proper : t.Proper b k
  sent : t.intent.reduceOnly = false → t.order = t.intent
  alike : t.intent.reduceOnly = false → ∀ k' q v, t.verdict b k = (k', .allow q v) →
    ∀ view p, ViewFacts.read b account 0 = .ok view → k.stopPrices b t.intent view = some p →
      p.Reaches t.intent.side k.envelope.disasterStopFraction ∧
      p.StaysWithin t.intent.side k.envelope.disasterStopFraction

section
variable {b : Binary64} {account : AccountView} {portfolio : PortfolioState} {k k' : Kernel} {t : Turn} {q : Exact}
  {v : Bool}

theorem Kernel.stopPrices_congr {k k' : Kernel} {intent : Intent} {p : StopPrices}
    (hpx : k'.book.px = k.book.px) (h : k'.stopPrices b intent view = some p) :
    k.stopPrices b intent view = some p := by
  obtain ⟨hnamed, htrigger, hobserved, hentry⟩ := stopPrices_eq h
  obtain ⟨p', hp'⟩ : ∃ p', k.stopPrices b intent view = some p' := stopPrices_of hnamed htrigger
  obtain ⟨hnamed', htrigger', hobserved', hentry'⟩ := stopPrices_eq hp'
  rw [hp']
  obtain ⟨named, observed, entry, trigger, _, _, _, _⟩ := p
  obtain ⟨named', observed', entry', trigger', _, _, _, _⟩ := p'
  dsimp only at *
  obtain rfl := ok.inj (hnamed.symm.trans hnamed')
  obtain rfl := Option.some.inj (ok.inj (htrigger.symm.trans htrigger'))
  rw [hpx] at hobserved
  obtain rfl := hobserved.trans hobserved'.symm
  obtain rfl := hentry.trans hentry'.symm
  rfl

theorem Turn.Counts.stands_of_opening (ht : t.Counts b account portfolio k) (hopening : t.intent.reduceOnly = false)
    (hverdict : t.verdict b k = (k', .allow q v)) :
    ∃ view facts recent, ViewFacts.read b account 0 = .ok view ∧ PortfolioFacts.read portfolio = .ok facts ∧
      (k.book.pruneThrough account.observedNs).netFills = .ok recent ∧
      (t.next b k).Stands b account view facts recent t.intent.symbol := by
  obtain ⟨rfl, rfl, hfresh, -, hsent, halike⟩ := ht
  have hnext : t.next b k = k'.reserve b t.id t.intent t.account := by
    rw [next, hverdict, ← hsent hopening]
  obtain ⟨⟨facts, e, interval, hfacts, hread, hbook, hcfg, hbranch, -, -⟩⟩ := assessPortfolio_allow hverdict
  obtain ⟨hexit, -⟩ | ⟨-, hchecks, hlatest, henv⟩ := hbranch
  · rw [hopening] at hexit
    cases hexit
  obtain ⟨-, ⟨o⟩⟩ := openingChecks_ok hchecks
  have hintent := hread.intent_eq
  obtain ⟨p, j⟩ := o.judged (by rw [hintent]; exact hread.ask_eq) (by rw [hintent]; exact hopening)
  have hpx : k'.book.px = k.book.px := by rw [hbook, pruneThrough_px]
  have hdisaster : k'.envelope.disasterStopFraction = k.envelope.disasterStopFraction := by
    rw [henv]
    simp [observeReference]
  have hfresh' : k'.book.pending[t.id]? = none := by
    rw [hbook, pruneThrough_pending]
    exact hfresh
  have hp := stopPrices_congr hpx j.prices
  rw [hintent] at hp
  obtain ⟨hreaches, hwithin⟩ := halike hopening k' q v hverdict e.view p hread.view_eq hp
  rw [← hintent, ← hdisaster] at hreaches hwithin
  obtain ⟨f, hf, -⟩ := (StopPrices.reaches_iff j.fraction_eq).mp hreaches
  have hle := hwithin.reserved_le j.fraction_eq hf
  refine ⟨e.view, facts, e.recent, hread.view_eq, hfacts, ?_, ?_⟩
  · rw [← hbook]
    exact hread.recent_eq
  rw [hnext, ← hintent]
  refine ⟨opened_totalFits o hread.portfolio_eq j hf hfresh' hle,
    opened_symbolFits o hread.portfolio_eq j hf hfresh', ?_, ?_⟩
  · intro allowExpansion
    rw [reserve_envelope]
    exact Kernel.Settled.of_opening (read_observedNs hread.view_eq) hlatest henv allowExpansion
  · rw [reserve_fills, hbook, pruneThrough_twice, ← hbook]
    exact hread.recent_eq

theorem Kernel.Stands.next {facts : PortfolioFacts} {recent : RecentFills} {symbol : SymbolId}
    (hk : k.Stands b account view facts recent symbol) (hview : ViewFacts.read b account 0 = .ok view)
    (hfacts : PortfolioFacts.read portfolio = .ok facts) (ht : t.Counts b account portfolio k) :
    (t.next b k).Stands b account view facts recent symbol := by
  obtain ⟨rfl, rfl, hfresh, hproper, hsent, halike⟩ := ht
  -- the assessment itself changes nothing that counts
  obtain ⟨henv, hcfg⟩ : (t.verdict b k).1.envelope = k.envelope ∧ (t.verdict b k).1.cfg = k.cfg := by
    obtain hkernel | ⟨facts, hkernel | hkernel⟩ :=
      assessPortfolio_kernel b k t.intent t.account t.portfolio t.nowNs
    all_goals rw [verdict, hkernel]
    · exact ⟨rfl, rfl⟩
    · exact evaluateInventory_frame hview hk.settled
    · exact evaluateInventory_frame hview hk.settled
  have hfills : ((t.verdict b k).1.book.pruneThrough t.account.observedNs).netFills = .ok recent := by
    rw [← hk.fills, verdict]
    rcases assessPortfolio_book b k t.intent t.account t.portfolio t.nowNs with hbook | hbook
    · rw [hbook]
    · rw [hbook, pruneThrough_twice]
  obtain ⟨hpending, hpx⟩ := assessPortfolio_keeps b k t.intent t.account t.portfolio t.nowNs
  have hassessed : Kernel.Alike k (t.verdict b k).1 := ⟨hpx, hcfg, henv⟩
  have hsymbol : (t.verdict b k).1.SymbolFits b recent view facts symbol := by
    apply hk.onSymbol.of_alike hassessed
    intro price s hs
    rw [pendingSymbolNotional, rows, verdict, hpending]
    exact hs
  have hsettled : (t.verdict b k).1.Settled view := by
    intro allowExpansion
    rw [hassessed.envelope]
    exact hk.settled allowExpansion
  have htotal := hk.total.of_alike hassessed (hassessed.pendingTotals hpending)
  have hstands : (t.verdict b k).1.Stands b t.account view facts recent symbol :=
    ⟨htotal, hsymbol, hsettled, hfills⟩
  cases hverdict : t.verdict b k with
  | mk k' outcome =>
    rw [hverdict] at hstands hassessed
    cases outcome with
    | deny reason =>
      rw [next, hverdict]
      exact hstands
    | allow q v =>
      have hfresh' : k'.book.pending[t.id]? = none := by
        have : k'.book.pending = k.book.pending := by
          rw [← hpending, ← verdict, hverdict]
        rw [this]
        exact hfresh
      have hnext : t.next b k = k'.reserve b t.id t.order t.account := by rw [next, hverdict]
      have hf := hproper q v (by rw [hverdict])
      have hfills' : ((t.next b k).book.pruneThrough t.account.observedNs).netFills = .ok recent := by
        rw [hnext, reserve_fills]
        exact hstands.fills
      have hsettled' : (t.next b k).Settled view := by
        intro allowExpansion
        rw [hnext, reserve_envelope]
        exact hstands.settled allowExpansion
      by_cases hopening : t.intent.reduceOnly = false
      · obtain ⟨view', facts', recent', hview', hfacts', hrecent', hnow⟩ :=
          Turn.Counts.stands_of_opening ⟨rfl, rfl, hfresh, hproper, hsent, halike⟩ hopening hverdict
        obtain rfl := ok.inj (hview.symm.trans hview')
        obtain rfl := ok.inj (hfacts.symm.trans hfacts')
        obtain rfl := ok.inj (hk.fills.symm.trans hrecent')
        refine ⟨hnow.total, ?_, hnow.settled, hnow.fills⟩
        by_cases hsame : t.order.symbol = symbol
        · obtain rfl := hsame
          rw [hsent hopening]
          exact hnow.onSymbol
        · rw [hnext]
          exact hstands.onSymbol.of_alike reserve_alike
            (reserve_other_symbolNotional hfresh' (.inl hsame))
      · have hexit : t.order.reduceOnly = true := by
          rw [hf.reduceOnly]
          simpa using hopening
        obtain ⟨asked, hasked, -⟩ := hf.quantity
        refine ⟨?_, ?_, hsettled', hfills'⟩
        · rw [hnext]
          refine hstands.total.of_alike reserve_alike fun totals htotals => ?_
          exact reserve_pendingTotals.mpr ⟨0, totals, rowRisk_exit
            (reservedRow_qty hasked hf.prices) hexit, (without_pendingTotals_iff hfresh').mpr htotals,
            (zero_add totals).symm⟩
        · rw [hnext]
          exact hstands.onSymbol.of_alike reserve_alike
            (reserve_other_symbolNotional hfresh' (.inr hexit))

theorem assessed_contributes_iff {intent : Intent} {nowNs : Nat} (id : String) (hopening : intent.reduceOnly = false)
    (hverdict : k.assessPortfolio b intent account portfolio nowNs = (k', .allow q v)) :
    ∃ view p, ViewFacts.read b account 0 = .ok view ∧ k.stopPrices b intent view = some p ∧
      (k'.Contributes b id intent account view ↔ p.Reaches intent.side k.envelope.disasterStopFraction) := by
  obtain ⟨⟨facts, e, interval, hfacts, hread, hbook, hcfg, hbranch, -, -⟩⟩ := assessPortfolio_allow hverdict
  obtain ⟨hexit, -⟩ | ⟨-, hchecks, -, henv⟩ := hbranch
  · rw [hopening] at hexit
    cases hexit
  obtain ⟨-, ⟨o⟩⟩ := openingChecks_ok hchecks
  obtain rfl := hread.intent_eq
  obtain ⟨p, j⟩ := o.judged hread.ask_eq hopening
  have hpx : k'.book.px = k.book.px := by rw [hbook, pruneThrough_px]
  have hdisaster : k'.envelope.disasterStopFraction = k.envelope.disasterStopFraction := by
    rw [henv]
    simp [observeReference]
  refine ⟨e.view, p, hread.view_eq, stopPrices_congr hpx j.prices, ?_⟩
  -- what was pending could be added up, or the order would have been refused
  have hprojected := o.projected_eq
  simp only [projected, hread.portfolio_eq] at hprojected
  obtain ⟨held, pending, -, hpending, -⟩ := projectedPortfolio_ok.mp hprojected
  have hsymbol := o.pending_eq
  rw [heldPrice_eq j] at hsymbol
  rw [← hdisaster]
  exact j.contributes_iff id hpending hsymbol

theorem Turn.run_within {ts : List Turn} (hopening : t.intent.reduceOnly = false)
    (hverdict : t.verdict b k = (k', .allow q v))
    (hrun : Turn.Throughout b (Turn.Counts b account portfolio) k (t :: ts)) :
    (Turn.run b k (t :: ts)).Within b account portfolio t.intent.symbol := by
  obtain ⟨ht, hts⟩ := hrun
  obtain ⟨view, facts, recent, hview, hfacts, -, hstands⟩ := ht.stands_of_opening hopening hverdict
  have hlast : (run b (t.next b k) ts).Stands b account view facts recent t.intent.symbol :=
    run_invariant (I := fun k => k.Stands b account view facts recent t.intent.symbol)
      (fun k u hu hk => hk.next hview hfacts hu) hts hstands
  exact ⟨view, facts, recent, hview, hfacts, hlast.fills, hlast.total, hlast.onSymbol⟩

/-- An admitted opening order is reserved for at least what was counted for it exactly at the prices that
reach its stop distance; and where every order of a run is reserved for what was counted for it, the run
never leaves the limits its first opening order was admitted under. -/
theorem reservedAsCounted (b : Binary64) (account : AccountView) (portfolio : PortfolioState) :
    (∀ (k k' : Kernel) (intent : Intent) (nowNs : Nat) (q : Exact) (v : Bool) (id : String),
      intent.reduceOnly = false → k.assessPortfolio b intent account portfolio nowNs = (k', .allow q v) →
      ∃ view p, ViewFacts.read b account 0 = .ok view ∧ k.stopPrices b intent view = some p ∧
        (k'.Contributes b id intent account view ↔ p.Reaches intent.side k.envelope.disasterStopFraction)) ∧
    (∀ (k k' : Kernel) (t : Turn) (ts : List Turn) (q : Exact) (v : Bool),
      t.intent.reduceOnly = false → t.verdict b k = (k', .allow q v) →
      Turn.Throughout b (Turn.Counts b account portfolio) k (t :: ts) →
      (Turn.run b k (t :: ts)).Within b account portfolio t.intent.symbol) :=
  ⟨fun _ _ _ _ _ _ id hopening hverdict => assessed_contributes_iff id hopening hverdict,
    fun _ _ _ _ _ _ hopening hverdict hrun => run_within hopening hverdict hrun⟩

end

section
open OneUnit

/-- A purchase at the account's own entry price, which is also the last one observed. -/
def purchase : Turn := turn 100 20 "eng-1-1" (order .buy 100 (some 80) false)

def cheapPurchase : Turn := turn 100 20 "eng-1-1" (order .buy 50 (some 45) false)

theorem purchase_counts :
    Turn.Throughout .unrounded (Turn.Counts .unrounded (account 100 20) (portfolio 100 20)) (kernel 100)
      [purchase] := by
  refine ⟨⟨rfl, rfl, by decide +kernel, ?_, fun _ => rfl, ?_⟩, trivial⟩
  · exact proper_of_verdict (q := 1) (v := false) (by decide +kernel) (follows_self rfl (by decide +kernel))
  · intro _ k' q v _ view p hview hp
    have hprices : ((read .unrounded (account 100 20) 0).toOption.bind
        (fun view => (kernel 100).stopPrices .unrounded purchase.intent view)).all (fun p =>
          p.Reaches purchase.intent.side (kernel 100).envelope.disasterStopFraction ∧
          p.StaysWithin purchase.intent.side (kernel 100).envelope.disasterStopFraction) = true := by
      decide +kernel
    rw [hview] at hprices
    simpa only [Except.toOption, Option.bind_some, hp, Option.all_some, decide_eq_true_eq] using hprices

/-- The purchase at the entry price leaves the account within its limits. -/
theorem reservedAsCounted_purchase :
    (Turn.run .unrounded (kernel 100) [purchase]).Within .unrounded (account 100 20) (portfolio 100 20) 0 :=
  (reservedAsCounted .unrounded (account 100 20) (portfolio 100 20)).2 (kernel 100)
    (purchase.verdict .unrounded (kernel 100)).1 purchase [] 1 false rfl
    (Prod.ext rfl (by decide +kernel)) purchase_counts

/-- The cheap purchase is admitted for a stop charge of 55 and reserved for one of 25. -/
theorem reservedShort : (cheapPurchase.verdict .unrounded (kernel 50)).2 = .allow 1 false ∧
    ∀ view, ViewFacts.read .unrounded cheapPurchase.account 0 = .ok view →
      (cheapPurchase.verdict .unrounded (kernel 50)).1.counted .unrounded cheapPurchase.intent view
        = .ok (100, 100, 55) ∧
      ((cheapPurchase.verdict .unrounded (kernel 50)).1.without cheapPurchase.id).pendingRisk view 0 100
        = .ok (0, 0, 0) ∧
      ((cheapPurchase.verdict .unrounded (kernel 50)).1.reserve .unrounded cheapPurchase.id cheapPurchase.intent
        cheapPurchase.account).pendingRisk view 0 100 = .ok (100, 100, 25) ∧
      ¬ (cheapPurchase.verdict .unrounded (kernel 50)).1.Contributes .unrounded cheapPurchase.id cheapPurchase.intent
        cheapPurchase.account view := by
  refine ⟨by decide +kernel, fun view hview => ?_⟩
  have hcounted : (read .unrounded cheapPurchase.account 0).bind (fun view =>
      (cheapPurchase.verdict .unrounded (kernel 50)).1.counted .unrounded cheapPurchase.intent view)
      = .ok (100, 100, 55) := by decide +kernel
  have hwithout : (read .unrounded cheapPurchase.account 0).bind (fun view =>
      ((cheapPurchase.verdict .unrounded (kernel 50)).1.without cheapPurchase.id).pendingRisk view 0 100)
      = .ok (0, 0, 0) := by decide +kernel
  have hreserved : (read .unrounded cheapPurchase.account 0).bind (fun view =>
      ((cheapPurchase.verdict .unrounded (kernel 50)).1.reserve .unrounded cheapPurchase.id cheapPurchase.intent
        cheapPurchase.account).pendingRisk view 0 100) = .ok (100, 100, 25) := by decide +kernel
  rw [hview] at hcounted hwithout hreserved
  refine ⟨hcounted, hwithout, hreserved, ?_⟩
  rintro ⟨px, notional, charge, before, after, hc, hbefore, hafter, hle⟩
  obtain ⟨rfl, hpair⟩ := Prod.mk.inj (ok.inj (hc.symm.trans hcounted))
  obtain ⟨rfl, rfl⟩ := Prod.mk.inj hpair
  obtain rfl := ok.inj (hbefore.symm.trans hwithout)
  obtain rfl := ok.inj (hafter.symm.trans hreserved)
  have hcharge : (0 : Exact) + 55 ≤ 25 := hle.2.2
  norm_num at hcharge

end

end LiquidityMigration.Risk
