import LiquidityMigration.Risk.StopPrices

/- What an opening order counts for once it is reserved, against what the assessment counted. The notional is the
   same: both value it at the highest price in sight. The stop charge follows the stop distance (`contributes_iff`).
   Where the reservation finds no readable distance, the pending orders cannot be added up, and every later opening
   order is refused until this one is gone. -/
namespace LiquidityMigration.Risk
open Numeric Portfolio Checks RowSums Kernel Except Option
open Std (ExtTreeMap)

theorem maxPrice_pos {x y : Option Exact} (hx : ∀ p ∈ x, 0 < p) (hy : ∀ p ∈ y, 0 < p) : ∀ p ∈ maxPrice x y, 0 < p := by
  intro p hp
  match x, y with
  | some a, some c =>
    obtain rfl : max a c = p := by simpa [maxPrice] using hp
    exact lt_max_of_lt_left (hx a rfl)
  | some a, none => exact hx p hp
  | none, some c => exact hy p hp
  | none, none => simp [maxPrice] at hp

theorem le_of_maxPrice {x y : Option Exact} {z : Exact} (h : maxPrice x y = some z) :
    (∀ p ∈ x, p ≤ z) ∧ ∀ p ∈ y, p ≤ z := by
  match x, y with
  | some a, some c =>
    obtain rfl : max a c = z := by simpa [maxPrice] using h
    simp
  | some a, none =>
    obtain rfl : a = z := by simpa [maxPrice] using h
    simp
  | none, some c =>
    obtain rfl : c = z := by simpa [maxPrice] using h
    simp
  | none, none => simp [maxPrice] at h

@[simp] theorem maxPrice_self (x : Option Exact) : maxPrice x x = x := by cases x <;> simp [maxPrice]

@[simp] theorem minPrice_self (x : Option Exact) : minPrice x x = x := by cases x <;> simp [minPrice]

theorem maxPrice_reference (named observed entry : Option Exact) :
    maxPrice (maxPrice observed entry) (maxPrice named observed) = maxPrice named (maxPrice observed entry) := by
  cases named <;> cases observed <;> cases entry <;> simp [maxPrice, max_comm, max_left_comm]

namespace Kernel
variable (b : Binary64)

def stopPrices (k : Kernel) (intent : Intent) (view : ViewFacts) : Option StopPrices :=
  match hnamed : intent.limitPrice b, htrigger : intent.stopPrice b with
  | .ok named, .ok (some trigger) => some
    { named := named
      observed := k.book.px[intent.symbol]?
      entry := view.entryPrice intent.symbol
      trigger := trigger
      named_pos := fun _ hp => Intent.limitPrice_pos (hnamed.trans (congrArg Except.ok hp))
      observed_pos := fun p hp => k.book.px_pos intent.symbol p hp
      entry_pos := fun _ hp => ViewFacts.entryPrice_pos hp
      trigger_pos := Intent.stopPrice_pos htrigger }
  | _, _ => none

/-- What the assessment counts for an opening intent: the price it is valued at, its notional and its
stop charge. -/
def counted (k : Kernel) (intent : Intent) (view : ViewFacts) : Except DenyReason (Exact × Exact × Exact) := do
  let ask ← readAsk b intent
  let (low, px) ← k.entryPrices b intent view
  let fraction ← readStop b intent low px
  .ok (px, k.charged (ask * px) fraction)

/-- What the pending orders come to: the gross notional, the notional of one symbol at a price, and
the stop charge. -/
def pendingRisk (k : Kernel) (view : ViewFacts) (symbol : SymbolId) (price : Exact) :
    Except DenyReason (Exact × Exact × Exact) := do
  let totals ← k.pendingTotals view
  let onSymbol ← (k.book.pendingSymbolNotional symbol price).mapError unknown
  .ok (totals.1, onSymbol, totals.2)

def without (k : Kernel) (id : String) : Kernel := { k with book := k.book.forget id }

/-- Once an opening order is registered, the pending orders come to more than without it, by at least
what was counted for it. -/
def Contributes (k : Kernel) (id : String) (intent : Intent) (account : AccountView) (view : ViewFacts) : Prop :=
  ∃ px notional charge before after, k.counted b intent view = .ok (px, notional, charge) ∧
    (k.without id).pendingRisk view intent.symbol px = .ok before ∧
    (k.reserve b id intent account).pendingRisk view intent.symbol px = .ok after ∧
    before + (notional, notional, charge) ≤ after

variable {b} {k : Kernel} {intent : Intent} {view : ViewFacts} {p : StopPrices}

theorem stopPrices_eq (h : k.stopPrices b intent view = some p) :
    intent.limitPrice b = .ok p.named ∧ intent.stopPrice b = .ok (some p.trigger) ∧
    p.observed = k.book.px[intent.symbol]? ∧ p.entry = view.entryPrice intent.symbol := by
  unfold stopPrices at h
  split at h
  · next named trigger hnamed htrigger =>
    cases h
    exact ⟨hnamed, htrigger, rfl, rfl⟩
  · cases h

theorem priceFor_eq (h : k.stopPrices b intent view = some p) : k.priceFor intent.symbol view = p.reference := by
  obtain ⟨-, -, hobserved, hentry⟩ := stopPrices_eq h
  rw [priceFor, StopPrices.reference, hobserved, hentry]

theorem ownPrice_eq {named : Option Exact} (h : intent.limitPrice b = .ok named) : ownPrice b intent = named := by
  unfold ownPrice reservationPrice
  cases hkind : intent.kind with
  | limit px => simp [h, Except.toOption]
  | market =>
    -- a market order is registered at the price zero, which is none
    have hnone : named = none := by
      rw [Intent.limitPrice, hkind, Intent.price] at h
      split at h
      · cases h
      · exact (Except.ok.inj h).symm
    simp [hnone, validPrice, fromLegacyF64, Except.toOption]

theorem reservedRow_px (h : k.stopPrices b intent view = some p) :
    (k.reservedRow b intent).px = maxPrice p.named p.observed := by
  obtain ⟨hnamed, -, hobserved, -⟩ := stopPrices_eq h
  simp [reservedRow, pendingRow, ownPrice_eq hnamed, hobserved]

theorem reservedRow_stopFraction (h : k.stopPrices b intent view = some p) (hopening : intent.reduceOnly = false) :
    (k.reservedRow b intent).stopFraction = p.reserved intent.side := by
  obtain ⟨hnamed, htrigger, hobserved, -⟩ := stopPrices_eq h
  have hpos := maxPrice_pos p.named_pos p.observed_pos
  simp only [reservedRow, pendingRow, ownPrice_eq hnamed, maxPrice_self, minPrice_self, ← hobserved,
    reservedFraction, hopening, StopPrices.reserved]
  cases minPrice p.named p.observed with
  | none => rfl
  | some low =>
    cases hhigh : maxPrice p.named p.observed with
    | none => rfl
    | some high => exact readStop_toOption (hpos high hhigh) htrigger

end Kernel

open StopPrices

theorem Book.rows_forget_subset (book : Book) (id : String) : (book.forget id).rows ⊆ book.rows := by
  obtain hrows | ⟨row, hrows⟩ := book.rows_forget id
  · rw [hrows]
    exact List.Subset.refl _
  · intro q hq
    exact hrows.mem_iff.mpr (List.mem_cons_of_mem row hq)

namespace Envelope
variable {env : Envelope} {price : SymbolId → Option Exact} {row : Pending} {q : Exact}

/-- An opening order counts, at the higher of its own price and the symbol's, where its stop distance is known. -/
theorem rowRisk_opening {px : Exact} {r : Exact × Exact} (hq : row.signedQty = some q) (hne : q ≠ 0)
    (hopening : row.reduceOnly = false) (hpx : maxPrice (price row.symbol) row.px = some px) :
    env.rowRisk price row = .ok r ↔
      ∃ f, row.stopFraction = some f ∧ r = (|q| * px, env.modelledStopChargeUsdt (|q| * px) f) := by
  simp only [rowRisk, map_eq_ok, Book.riskPart, hq, orError, hopening, hpx]
  cases row.stopFraction with
  | none => simp [bind, Except.bind, hne]
  | some f => simp [bind, Except.bind, hne, eq_comm]

theorem rowRisk_exit (hq : row.signedQty = some q) (hexit : row.reduceOnly = true) : env.rowRisk price row = .ok 0 := by
  simp [rowRisk, Book.riskPart, hq, hexit, orError, bind, Except.bind, Except.map]

end Envelope

namespace Kernel
variable {b : Binary64} {k : Kernel} {id : String} {order : Intent} {account : AccountView} {view : ViewFacts}
  {t : Exact × Exact} {price : Exact}

theorem pendingTotals_ok : k.pendingTotals view = .ok t ↔
    sumOk (k.envelope.rowRisk (k.priceFor · view)) k.book.rows = .ok t := by
  rw [← Envelope.pendingTotals_riskRows, pendingTotals]
  simp only [map_eq_ok, mapError_eq_ok]

theorem pendingRisk_ok {symbol : SymbolId} {r : Exact × Exact × Exact} : k.pendingRisk view symbol price = .ok r ↔
      ∃ t s, k.pendingTotals view = .ok t ∧ k.book.pendingSymbolNotional symbol price = .ok s ∧ r = (t.1, s, t.2) := by
  simp only [pendingRisk, ok_iff]
  constructor
  · rintro ⟨t, ht, s, hs, rfl⟩
    exact ⟨t, s, ht, hs, rfl⟩
  · rintro ⟨t, s, ht, hs, rfl⟩
    exact ⟨t, ht, s, hs, rfl⟩

@[simp] theorem reserve_priceFor (symbol : SymbolId) :
    (k.reserve b id order account).priceFor symbol view = k.priceFor symbol view := by
  rw [priceFor, reserve_px, priceFor]

@[simp] theorem without_priceFor (symbol : SymbolId) :
    (k.without id).priceFor symbol view = k.priceFor symbol view := by
  rw [priceFor, without, Book.forget_px, priceFor]

theorem reserve_pendingTotals : (k.reserve b id order account).pendingTotals view = .ok t ↔
    ∃ r t0, k.envelope.rowRisk (k.priceFor · view) (k.reservedRow b order) = .ok r ∧
      (k.without id).pendingTotals view = .ok t0 ∧ t = r + t0 := by
  simp only [pendingTotals_ok, reserve_priceFor, reserve_envelope, without_priceFor]
  refine Iff.trans ?_ sumOk_cons
  exact ⟨sumOk_perm rows_reserve, sumOk_perm rows_reserve.symm⟩

theorem without_pendingTotals (h : k.pendingTotals view = .ok t) (id : String) :
    ∃ t0, (k.without id).pendingTotals view = .ok t0 := by
  simp only [pendingTotals_ok, without_priceFor] at h ⊢
  exact sumOk_of_subset (k.book.rows_forget_subset id) h

theorem reserve_symbolNotional {s : Exact} (hopening : order.reduceOnly = false) :
    (k.reserve b id order account).book.pendingSymbolNotional order.symbol price = .ok s ↔
    ∃ r s0, Book.rowNotional price (k.reservedRow b order) = .ok r ∧
      (k.without id).book.pendingSymbolNotional order.symbol price = .ok s0 ∧ s = r + s0 := by
  have hrows : (k.reserve b id order account).book.rows.Perm (k.reservedRow b order :: (k.without id).book.rows) :=
    rows_reserve
  have hperm := hrows.filter fun p => p.symbol = order.symbol ∧ ¬ p.reduceOnly
  rw [List.filter_cons_of_pos (by simp [reservedRow, pendingRow, hopening])] at hperm
  refine Iff.trans ?_ sumOk_cons
  exact ⟨sumOk_perm hperm, sumOk_perm hperm.symm⟩

end Kernel

/-- An opening intent as an assessment has judged it: its quantity, the price it is valued at, and its
stop distance. -/
structure Judged (b : Binary64) (k : Kernel) (intent : Intent) (view : ViewFacts) (p : StopPrices)
    (ask px fraction : Exact) : Prop where
  opening : intent.reduceOnly = false
  prices : k.stopPrices b intent view = some p
  asked : intent.quantity b = .ok ask
  valid : intent.validatePriceProjection b = .ok ()
  px_eq : maxPrice p.named p.reference = some px
  fraction_eq : p.judged intent.side = some fraction
  counted_eq : k.counted b intent view = .ok (px, k.charged (ask * px) fraction)

namespace Judged
variable {b : Binary64} {k : Kernel} {intent : Intent} {view : ViewFacts} {p : StopPrices} {ask px fraction : Exact}
  (j : Judged b k intent view p ask px fraction)
include j

theorem ask_pos : 0 < ask := Intent.quantity_pos j.asked

theorem px_pos : 0 < px := maxPrice_pos p.named_pos (maxPrice_pos p.observed_pos p.entry_pos) px j.px_eq

theorem notional_pos : 0 < ask * px := mul_pos j.ask_pos j.px_pos

theorem reservedRow_qty : (k.reservedRow b intent).signedQty = some (signed intent.side ask) :=
  Kernel.reservedRow_qty j.asked j.valid

theorem rowRisk_iff {r : Exact × Exact} : k.envelope.rowRisk (k.priceFor · view) (k.reservedRow b intent) = .ok r ↔
      ∃ f, p.reserved intent.side = some f ∧ r = k.charged (ask * px) f := by
  have hne : signed intent.side ask ≠ 0 := by
    rw [← abs_pos, abs_signed, abs_pos]
    exact j.ask_pos.ne'
  have hpx : maxPrice (k.priceFor (k.reservedRow b intent).symbol view) (k.reservedRow b intent).px = some px := by
    show maxPrice (k.priceFor intent.symbol view) (k.reservedRow b intent).px = some px
    rw [priceFor_eq j.prices, reservedRow_px j.prices, reference, maxPrice_reference]
    exact j.px_eq
  rw [Envelope.rowRisk_opening j.reservedRow_qty hne j.opening hpx, reservedRow_stopFraction j.prices j.opening,
    abs_signed, abs_of_pos j.ask_pos]
  rfl

theorem px_le {high : Exact} (h : maxPrice p.named p.observed = some high) : high ≤ px := by
  have hpx := j.px_eq
  rw [reference, ← maxPrice_reference] at hpx
  exact (le_of_maxPrice hpx).2 high h

theorem reference_le : ∀ reference ∈ k.priceFor intent.symbol view, reference ≤ px := by
  rw [priceFor_eq j.prices]
  exact (le_of_maxPrice j.px_eq).2

theorem rowNotional_reference {f : Exact} (h : p.reserved intent.side = some f) :
    Book.rowNotional ((k.priceFor intent.symbol view).getD 0) (k.reservedRow b intent) = .ok (ask * px) := by
  simp only [reserved, bind_eq_bind, bind_eq_some_iff] at h
  obtain ⟨-, -, high, hhigh, -⟩ := h
  have hpos := maxPrice_pos p.named_pos p.observed_pos high hhigh
  have hpx := j.px_eq
  rw [reference, ← maxPrice_reference, hhigh, ← reference] at hpx
  have hmax : max high (p.reference.getD 0) = px := by
    cases href : p.reference with
    | none =>
      rw [href] at hpx
      rw [getD_none, max_eq_left hpos.le]
      exact some.inj hpx
    | some reference =>
      rw [href] at hpx
      rw [getD_some, max_comm]
      exact some.inj hpx
  simp only [Book.rowNotional, j.reservedRow_qty, reservedRow_px j.prices, hhigh, orError, priceFor_eq j.prices]
  show ok (|signed intent.side ask| * max high (p.reference.getD 0)) = ok (ask * px)
  rw [abs_signed, abs_of_pos j.ask_pos, hmax]

theorem rowNotional_eq {f : Exact} (h : p.reserved intent.side = some f) :
    Book.rowNotional px (k.reservedRow b intent) = .ok (ask * px) := by
  simp only [reserved, bind_eq_bind, bind_eq_some_iff] at h
  obtain ⟨-, -, high, hhigh, -⟩ := h
  simp only [Book.rowNotional, j.reservedRow_qty, reservedRow_px j.prices, hhigh, orError]
  show ok (|signed intent.side ask| * max high px) = ok (ask * px)
  rw [abs_signed, abs_of_pos j.ask_pos, max_eq_right (j.px_le hhigh)]

/-- A judged order contributes at least what was counted for it exactly where its reserved distance
reaches the judged one. -/
theorem contributes_iff {account : AccountView} {t : Exact × Exact} {s : Exact} (id : String)
    (htotals : k.pendingTotals view = .ok t) (hsymbol : k.book.pendingSymbolNotional intent.symbol px = .ok s) :
    k.Contributes b id intent account view ↔ p.Reaches intent.side k.envelope.disasterStopFraction := by
  obtain ⟨t0, ht0⟩ := without_pendingTotals htotals id
  obtain ⟨s0, hs0⟩ : ∃ s0, (k.without id).book.pendingSymbolNotional intent.symbol px = .ok s0 :=
    sumOk_of_subset (List.filter_subset _ (k.book.rows_forget_subset id)) hsymbol
  rw [reaches_iff j.fraction_eq]
  constructor
  · rintro ⟨px', notional, charge, before, after, hcounted, hbefore, hafter, hle⟩
    obtain ⟨rfl, hcharged⟩ := Prod.mk.inj (ok.inj (hcounted.symm.trans j.counted_eq))
    obtain ⟨rfl, rfl⟩ := Prod.mk.inj hcharged
    obtain ⟨t1, s1, ht1, -, rfl⟩ := pendingRisk_ok.mp hbefore
    obtain ⟨totals, s', htotals', -, rfl⟩ := pendingRisk_ok.mp hafter
    obtain ⟨r, t2, hr, ht2, rfl⟩ := reserve_pendingTotals.mp htotals'
    obtain rfl := ok.inj (ht1.symm.trans ht2)
    obtain ⟨f, hf, rfl⟩ := j.rowRisk_iff.mp hr
    refine ⟨f, hf, ?_⟩
    -- the charges compare as the distances do, on the same notional
    have hcharge : t1.2 + (k.charged (ask * px') fraction).2 ≤ (k.charged (ask * px') f).2 + t1.2 := hle.2.2
    rw [add_comm, add_le_add_iff_right] at hcharge
    exact le_of_mul_le_mul_left hcharge j.notional_pos
  · rintro ⟨f, hf, hreach⟩
    have hbefore := pendingRisk_ok.mpr ⟨t0, s0, ht0, hs0, rfl⟩
    have htotals' : (k.reserve b id intent account).pendingTotals view = .ok (k.charged (ask * px) f + t0) :=
      reserve_pendingTotals.mpr ⟨_, t0, j.rowRisk_iff.mpr ⟨f, hf, rfl⟩, ht0, rfl⟩
    have hsymbol' : (k.reserve b id intent account).book.pendingSymbolNotional intent.symbol px = .ok (ask * px + s0) :=
      (reserve_symbolNotional j.opening).mpr ⟨_, s0, j.rowNotional_eq hf, hs0, rfl⟩
    have hafter := pendingRisk_ok.mpr ⟨_, _, htotals', hsymbol', rfl⟩
    refine ⟨px, ask * px, _, _, _, j.counted_eq, hbefore, hafter, ?_, ?_, ?_⟩
    · exact (add_comm _ _).le
    · exact (add_comm _ _).le
    · show t0.2 + ask * px * max fraction _ ≤ ask * px * max f _ + t0.2
      rw [add_comm, add_le_add_iff_right]
      exact mul_le_mul_of_nonneg_left hreach j.notional_pos.le

end Judged

namespace Kernel
variable {b : Binary64} {k : Kernel}

theorem entryPrices_ok {intent : Intent} {view : ViewFacts} {low px : Exact}
    (h : k.entryPrices b intent view = .ok (low, px)) :
    ∃ named, intent.limitPrice b = .ok named ∧ minPrice named (k.priceFor intent.symbol view) = some low ∧
      maxPrice named (k.priceFor intent.symbol view) = some px := by
  simp only [entryPrices, ok_iff] at h
  obtain ⟨named, hnamed, h⟩ := h
  refine ⟨named, hnamed, ?_⟩
  cases hname : named with
  | none =>
    cases href : k.priceFor intent.symbol view with
    | none => simp [hname, href] at h
    | some y =>
      simp only [hname, href, ok.injEq, Prod.mk.injEq] at h
      obtain ⟨rfl, rfl⟩ := h
      exact ⟨rfl, rfl⟩
  | some x =>
    cases href : k.priceFor intent.symbol view with
    | none =>
      simp only [hname, href, ok.injEq, Prod.mk.injEq] at h
      obtain ⟨rfl, rfl⟩ := h
      exact ⟨rfl, rfl⟩
    | some y =>
      simp only [hname, href] at h
      split at h
      · next hle =>
        obtain ⟨rfl, rfl⟩ := Prod.mk.inj (ok.inj h)
        simp [minPrice, maxPrice, hle]
      · next hle =>
        obtain ⟨rfl, rfl⟩ := Prod.mk.inj (ok.inj h)
        simp [minPrice, maxPrice, (not_le.mp hle).le]

theorem stopPrices_of {intent : Intent} {view : ViewFacts} {named : Option Exact} {trigger : Exact}
    (hnamed : intent.limitPrice b = .ok named) (htrigger : intent.stopPrice b = .ok (some trigger)) :
    ∃ p, k.stopPrices b intent view = some p := by
  unfold stopPrices
  split
  · exact ⟨_, rfl⟩
  · next hnone => exact (hnone _ _ hnamed htrigger).elim

theorem Opened.judged {e : Evaluation} (o : Opened b k e) (hask : readAsk b e.intent = .ok e.ask)
    (hopening : e.intent.reduceOnly = false) :
    ∃ p, Judged b k e.intent e.view p e.ask o.px o.fraction := by
  obtain ⟨named, hnamed, hlow, hpx⟩ := entryPrices_ok o.prices
  -- a stop was read, so there is a trigger
  have hstop := o.stop
  simp only [readStop, ok_iff] at hstop
  obtain ⟨stop, htrigger, trigger, rfl, -⟩ := hstop
  obtain ⟨p, hp⟩ : ∃ p, k.stopPrices b e.intent e.view = some p := stopPrices_of hnamed htrigger
  obtain ⟨hnamed', htrigger', -, -⟩ := stopPrices_eq hp
  obtain rfl := ok.inj (hnamed.symm.trans hnamed')
  rw [priceFor_eq hp] at hlow hpx
  have hpos := maxPrice_pos p.named_pos (maxPrice_pos p.observed_pos p.entry_pos) o.px hpx
  refine ⟨p, hopening, hp, readAsk_ok hask, ?_, hpx, ?_, ?_⟩
  · simp [Intent.validatePriceProjection, hnamed, htrigger, bind, Except.bind]
  · have hshare : (readStop b e.intent o.low o.px).toOption = _ := readStop_toOption hpos htrigger'
    rw [o.stop] at hshare
    simp only [StopPrices.judged, hlow, hpx]
    exact hshare.symm
  · simp [counted, hask, o.prices, o.stop, bind, Except.bind]

end Kernel

end LiquidityMigration.Risk
