import LiquidityMigration.Numeric.Ieee

/- The rolling window of closed round trips. A trade is kept with its net, or as a debt where its asset has no price.
   Both expire; a trade whose time or valuation cannot be read never does, unless it is a row of an older log, which
   does not count (`kept`). Sum, number of debts and oldest time are carried along (`Counts`), and the rows are
   walked only when the oldest has expired, which changes nothing (`prune_spec`). -/
namespace LiquidityMigration.Risk
open Numeric Checks List
open Option hiding max_eq_left filter_filter map_map

inductive UnpricedTradeReason where
  | settlementAsset | feeValue
  deriving DecidableEq

structure ClosedTradeRow where
  unpriced : Option UnpricedTradeReason
  netUsdtExact : Option Exact
  closedMs : Int
  netUsdt : F64
  deriving DecidableEq

/-- Nothing for a trade that has no price. -/
def ClosedTradeRow.net (b : Binary64) (row : ClosedTradeRow) : Except ExactError (Option Exact) :=
  if row.unpriced.isSome then
    if row.netUsdtExact.isSome ∨ row.netUsdt ≠ .finite 0 ∨ row.closedMs ≤ 0 then .error .invalidProjection
    else .ok none
  else
    match row.netUsdtExact with
    | some value => do
      validateStorage value
      require (F64.finite (b.report value) = row.netUsdt) .invalidProjection
      .ok (some value)
    | none => (fromLegacyF64 row.netUsdt).map some

def rollingLossWindowMs : Int := 86400000

structure LossRow where
  trade : ClosedTradeRow
  net : Option Exact
  expires : Bool
  deriving DecidableEq

structure LossWindow where
  rows : List LossRow
  net : Exact
  invalid : Nat
  oldestClosedMs : Option Int
  /-- Only ever moves forward. -/
  latestWallMs : Option Int
  deriving DecidableEq

namespace LossWindow
variable (b : Binary64) (latest : Option Int)

def empty : LossWindow := ⟨[], 0, 0, none, none⟩

/-- `LossWindow::advance`, on the time alone. -/
def later (wallMs : Int) : Option Int :=
  if latest.all (fun latest => latest < wallMs) then some wallMs else latest

def earlier (oldest : Option Int) (closedMs : Int) : Option Int :=
  some (oldest.elim closedMs (fun oldest => min oldest closedMs))

/-- The valuation of `LossWindow::insert`: a trade with no time has none. -/
def valuation (trade : ClosedTradeRow) : Except ExactError (Option Exact) :=
  if 0 < trade.closedMs then trade.net b else .error .invalidProjection

def kept (trade : ClosedTradeRow) : Option LossRow :=
  let net := (valuation b trade).toOption.join
  if net.isSome ∨ trade.netUsdtExact.isSome ∨ trade.unpriced.isSome then
    some ⟨trade, net, (valuation b trade).isOk⟩
  else none

variable (window : LossWindow)

def add (row : LossRow) : LossWindow :=
  let window := match row.net with
    | some net => { window with net := window.net + net }
    | none => { window with invalid := window.invalid + 1 }
  let window := if row.expires then
      { window with
        latestWallMs := later window.latestWallMs row.trade.closedMs
        oldestClosedMs := earlier window.oldestClosedMs row.trade.closedMs }
    else window
  { window with rows := window.rows ++ [row] }

def insert (trade : ClosedTradeRow) : LossWindow := (kept b trade).elim window window.add

def expired (edge : Int) (row : LossRow) : Bool := row.expires ∧ row.trade.closedMs ≤ edge

/-- One turn of the `retain` loop of `prune`. -/
def retain (edge : Int) (window : LossWindow) (row : LossRow) : LossWindow :=
  if expired edge row then
    match row.net with
    | some net => { window with net := window.net - net }
    | none => { window with invalid := window.invalid - 1 }
  else
    { window with
      rows := window.rows ++ [row]
      oldestClosedMs := if row.expires then earlier window.oldestClosedMs row.trade.closedMs
        else window.oldestClosedMs }

def prune : LossWindow :=
  match window.latestWallMs with
  | none => window
  | some latest =>
    let edge := latest - rollingLossWindowMs
    if window.oldestClosedMs.all (fun oldest => edge < oldest) then window
    else window.rows.foldl (retain edge) { window with rows := [], oldestClosedMs := none }

def observeClock (wallMs : Int) : LossWindow :=
  if wallMs ≤ 0 then window else { window with latestWallMs := later window.latestWallMs wallMs }.prune

def observe (trade : ClosedTradeRow) : LossWindow := (window.insert b trade).prune

def restore (trades : List ClosedTradeRow) : LossWindow :=
  (trades.foldl (insert b) { empty with latestWallMs := window.latestWallMs }).prune

def valid : Bool := window.invalid = 0

def netUsdt : Option Exact :=
  if ¬ window.rows.isEmpty ∧ window.valid then some window.net else none

def trades : List ClosedTradeRow := window.rows.map LossRow.trade

def asBot (t : Option Int) : WithBot Int := t

def asTop (t : Option Int) : WithTop Int := t

def expiries (rows : List LossRow) : List Int := (rows.filter LossRow.expires).map fun row => row.trade.closedMs

/-- The sums are those of the rows and of the rows still to be walked over, the oldest time that of the rows. -/
structure Counts (window : LossWindow) (rest : List LossRow) : Prop where
  net : window.net = ((window.rows ++ rest).map (fun row => row.net.getD 0)).sum
  invalid : window.invalid = (window.rows ++ rest).countP fun row => row.net = none
  oldest : asTop window.oldestClosedMs = (expiries window.rows).minimum

variable {b} {window : LossWindow} {rest : List LossRow} {row : LossRow} {trade : ClosedTradeRow} {edge : Int}

theorem asBot_later (t : Int) : asBot (later latest t) = max (asBot latest) t := by
  cases latest with
  | none => exact (max_eq_right (bot_le (a := (t : WithBot Int)))).symm
  | some latest =>
    simp only [later, all_some, decide_eq_true_eq]
    split
    · next h => exact (max_eq_right (WithBot.coe_le_coe.mpr h.le)).symm
    · next h => exact (max_eq_left (WithBot.coe_le_coe.mpr (not_lt.mp h))).symm

theorem asTop_earlier (oldest : Option Int) (t : Int) : asTop (earlier oldest t) = min (asTop oldest) t := by
  cases oldest with
  | none => exact (min_eq_right (le_top (a := (t : WithTop Int)))).symm
  | some oldest => exact WithTop.coe_min oldest t

theorem expiries_concat (rows : List LossRow) (row : LossRow) :
    expiries (rows ++ [row]) = expiries rows ++ if row.expires then [row.trade.closedMs] else [] := by
  cases h : row.expires <;> simp [expiries, h]

variable {rows : List LossRow}

theorem oldest_concat {oldest : Option Int} (h : asTop oldest = (expiries rows).minimum) :
    asTop (if row.expires then earlier oldest row.trade.closedMs else oldest) = (expiries (rows ++ [row])).minimum := by
  rw [expiries_concat]
  cases row.expires with
  | false => simpa using h
  | true => simp [asTop_earlier, minimum_concat, h]

theorem Counts.retain (h : window.Counts (row :: rest)) (edge : Int) : (window.retain edge row).Counts rest := by
  obtain ⟨hnet, hinvalid, holdest⟩ := h
  unfold LossWindow.retain
  split
  · -- the row goes, and with it what it was counted for
    cases hr : row.net with
    | some net => exact ⟨by simp [hnet, hr]; ring, by simp [hinvalid, hr], holdest⟩
    | none => exact ⟨by simp [hnet, hr], by simp [hinvalid, hr], holdest⟩
  · exact ⟨by simp [hnet], by simp [hinvalid], oldest_concat holdest⟩

theorem Counts.walk (h : window.Counts rest) (edge : Int) : (rest.foldl (LossWindow.retain edge) window).Counts [] ∧
      (rest.foldl (LossWindow.retain edge) window).rows = window.rows ++ rest.filter (fun row => ¬ expired edge row) ∧
      (rest.foldl (LossWindow.retain edge) window).latestWallMs = window.latestWallMs := by
  induction rest generalizing window with
  | nil => exact ⟨h, (append_nil _).symm, rfl⟩
  | cons row rest ih =>
    obtain ⟨hcounts, hrows, hlatest⟩ := ih (h.retain edge)
    refine ⟨hcounts, ?_, ?_⟩
    · rw [foldl_cons, hrows]
      cases hx : expired edge row <;> cases hr : row.net <;> simp [LossWindow.retain, hx, hr]
    · rw [foldl_cons, hlatest]
      cases hx : expired edge row <;> cases hr : row.net <;> simp [LossWindow.retain, hx, hr]

def fresh (row : LossRow) : Bool :=
  latest.all fun latest => ¬ expired (latest - rollingLossWindowMs) row

theorem prune_spec (h : window.Counts []) : window.prune.Counts [] ∧
    window.prune.rows = window.rows.filter (fresh window.latestWallMs) ∧
    window.prune.latestWallMs = window.latestWallMs := by
  unfold prune
  cases hlatest : window.latestWallMs with
  | none => exact ⟨h, (filter_eq_self.mpr (fun _ _ => rfl)).symm, hlatest⟩
  | some latest =>
    dsimp only
    split
    · next hall =>
      refine ⟨h, (filter_eq_self.mpr ?_).symm, hlatest⟩
      intro row hrow
      simp only [fresh, all_some, expired, decide_eq_true_eq, not_and, not_le]
      intro hexpires
      have hmem : row.trade.closedMs ∈ expiries window.rows :=
        mem_map_of_mem (mem_filter.mpr ⟨hrow, hexpires⟩)
      have hle : asTop window.oldestClosedMs ≤ row.trade.closedMs := h.oldest ▸ minimum_le_of_mem' hmem
      cases hold : window.oldestClosedMs with
      | none =>
        rw [hold] at hle
        exact absurd (top_le_iff.mp hle) WithTop.coe_ne_top
      | some oldest =>
        rw [hold] at hle hall
        simp only [all_some, decide_eq_true_eq] at hall
        exact hall.trans_le (WithTop.coe_le_coe.mp hle)
    · have hstart : ({ window with rows := [], oldestClosedMs := none } : LossWindow).Counts window.rows :=
        ⟨by simpa using h.net, by simpa using h.invalid, rfl⟩
      rw [hlatest] at hstart
      exact hstart.walk (latest - rollingLossWindowMs)

theorem Counts.add (h : window.Counts []) (row : LossRow) : (window.add row).Counts [] := by
  obtain ⟨hnet, hinvalid, holdest⟩ := h
  have hconcat := @oldest_concat row _ _ holdest
  cases hr : row.net <;> cases he : row.expires <;> rw [he] at hconcat <;>
    exact ⟨by simp [LossWindow.add, hr, he, hnet], by simp [LossWindow.add, hr, he, hinvalid],
      by simpa [LossWindow.add, hr, he] using hconcat⟩

theorem kept_eq_some (h : kept b trade = some row) :
    row = ⟨trade, (valuation b trade).toOption.join, (valuation b trade).isOk⟩ := by
  simp only [kept, ite_none_right_eq_some, some.injEq] at h
  exact h.2.symm

theorem kept_isSome : (kept b trade).isSome =
    ((valuation b trade).isOk || trade.netUsdtExact.isSome || trade.unpriced.isSome) := by
  have hdebt : valuation b trade = .ok none → trade.unpriced.isSome = true := by
    intro h
    unfold valuation ClosedTradeRow.net at h
    split at h
    · split at h
      · assumption
      · split at h
        · simp only [ok_iff, reduceCtorEq, and_false, exists_false] at h
        · cases hv : fromLegacyF64 trade.netUsdt <;> simp [hv, Except.map] at h
    · cases h
  cases hv : valuation b trade with
  | error e =>
    simp only [kept, hv, Except.isOk, Except.toBool, Except.toOption, join_none, isSome_none, Bool.false_or]
    cases trade.netUsdtExact.isSome <;> cases trade.unpriced.isSome <;> rfl
  | ok net =>
    cases net with
    | some net => simp [kept, hv, Except.isOk, Except.toBool, Except.toOption]
    | none => simp [kept, hv, Except.isOk, Except.toBool, Except.toOption, hdebt hv]

variable (b trade) in
def closing : Option Int :=
  if (valuation b trade).isOk then some trade.closedMs else none

theorem insert_spec (h : window.Counts []) (trade : ClosedTradeRow) : (window.insert b trade).Counts [] ∧
    (window.insert b trade).rows = window.rows ++ (kept b trade).toList ∧
    asBot (window.insert b trade).latestWallMs = max (asBot window.latestWallMs) (asBot (closing b trade)) := by
  unfold insert
  cases hk : kept b trade with
  | none =>
    have hnone := @kept_isSome b trade
    rw [hk, isSome_none, eq_comm, Bool.or_eq_false_iff, Bool.or_eq_false_iff] at hnone
    refine ⟨h, (append_nil _).symm, ?_⟩
    rw [closing, if_neg (by simp [hnone.1.1])]
    exact (max_eq_left bot_le).symm
  | some row =>
    refine ⟨h.add row, ?_, ?_⟩
    · cases hr : row.net <;> cases he : row.expires <;> simp [LossWindow.add, hr, he]
    · obtain rfl := kept_eq_some hk
      rw [closing]
      cases hok : (valuation b trade).isOk with
      | false =>
        have hsame : (window.add ⟨trade, (valuation b trade).toOption.join, false⟩).latestWallMs =
            window.latestWallMs := by
          cases (valuation b trade).toOption.join <;> simp [LossWindow.add]
        exact hsame ▸ (max_eq_left bot_le).symm
      | true =>
        have hlater : (window.add ⟨trade, (valuation b trade).toOption.join, true⟩).latestWallMs =
            later window.latestWallMs trade.closedMs := by
          cases (valuation b trade).toOption.join <;> simp [LossWindow.add]
        exact (congrArg asBot hlater).trans (asBot_later _ _)

inductive LossEvent where
  | trade (row : ClosedTradeRow)
  | clock (wallMs : Int)

def step (b : Binary64) (window : LossWindow) : LossEvent → LossWindow
  | .trade row => window.observe b row
  | .clock wallMs => window.observeClock wallMs

def run (b : Binary64) (events : List LossEvent) : LossWindow := events.foldl (step b) empty

def LossEvent.observed : LossEvent → Option ClosedTradeRow
  | .trade row => some row
  | .clock _ => none

/-- The time an event shows: of the clock, or of a trade that has a valuation. -/
def LossEvent.seen (b : Binary64) : LossEvent → Option Int
  | .trade row => closing b row
  | .clock wallMs => if 0 < wallMs then some wallMs else none

def retains (b : Binary64) (latest : Option Int) (trade : ClosedTradeRow) : Bool :=
  if (valuation b trade).isOk then latest.all fun latest => latest - rollingLossWindowMs < trade.closedMs
  else trade.netUsdtExact.isSome || trade.unpriced.isSome

theorem fresh_of_le {latest latest' : Option Int} (hle : asBot latest ≤ asBot latest') (h : fresh latest' row = true) :
    fresh latest row = true := by
  cases latest with
  | none => rfl
  | some l =>
    cases latest' with
    | none => exact absurd (le_bot_iff.mp hle) WithBot.coe_ne_bot
    | some l' =>
      have hle : l ≤ l' := WithBot.coe_le_coe.mp hle
      simp only [fresh, all_some, expired, decide_eq_true_eq, not_and, not_le] at h ⊢
      exact fun hexpires => by have := h hexpires; omega

theorem filter_fresh {latest latest' : Option Int} (hle : asBot latest ≤ asBot latest') (rows new : List LossRow) :
    (rows.filter (fresh latest) ++ new).filter (fresh latest') = (rows ++ new).filter (fresh latest') := by
  rw [filter_append, filter_append, filter_filter]
  congr 1
  apply filter_congr
  intro row _
  cases h : fresh latest' row with
  | false => rfl
  | true => exact fresh_of_le hle h

variable (window rows) in
/-- A window that has seen these rows and this time as the latest. -/
structure Shows (latest : WithBot Int) : Prop where
  counts : window.Counts []
  latest_eq : asBot window.latestWallMs = latest
  rows_eq : window.rows = rows.filter (fresh window.latestWallMs)

theorem Shows.next {new : List LossRow} {latest time : WithBot Int} {window' : LossWindow}
    (h : window.Shows rows latest) (hcounts : window'.Counts []) (hrows : window'.rows = window.rows ++ new)
    (hlatest : asBot window'.latestWallMs = max latest time) : window'.prune.Shows (rows ++ new) (max latest time) := by
  obtain ⟨hpruned, hfiltered, hsame⟩ := prune_spec hcounts
  refine ⟨hpruned, hsame ▸ hlatest, ?_⟩
  rw [hfiltered, hsame, hrows, h.rows_eq]
  exact filter_fresh (by rw [h.latest_eq, hlatest]; exact le_max_left _ _) _ _

/-- **What a run leaves**: the rows that the latest time seen leaves in the window. -/
theorem run_shows (b : Binary64) (events : List LossEvent) :
    (run b events).Shows ((events.filterMap LossEvent.observed).filterMap (kept b))
      (events.filterMap (LossEvent.seen b)).maximum := by
  induction events using reverseRecOn with
  | nil => exact ⟨⟨rfl, rfl, rfl⟩, rfl, rfl⟩
  | append_singleton events event ih =>
    have hrun : run b (events ++ [event]) = step b (run b events) event := by rw [run, run, foldl_append]; rfl
    rw [hrun, filterMap_append, filterMap_append, filterMap_append, maximum_append]
    cases event with
    | trade trade =>
      obtain ⟨hinsert, hnew, htime⟩ := @insert_spec b _ ih.counts trade
      rw [ih.latest_eq] at htime
      have hseen : ([LossEvent.trade trade].filterMap (LossEvent.seen b)).maximum = asBot (closing b trade) := by
        cases h : closing b trade <;> simp [LossEvent.seen, h] <;> rfl
      have hkept : ([LossEvent.trade trade].filterMap LossEvent.observed).filterMap (kept b) =
          (kept b trade).toList := by
        cases h : kept b trade <;> simp [LossEvent.observed, h]
      rw [hseen, hkept]
      exact ih.next hinsert hnew htime
    | clock wallMs =>
      have hkept : ([LossEvent.clock wallMs].filterMap LossEvent.observed).filterMap (kept b) = [] := rfl
      rw [hkept, step, observeClock]
      split
      · next hpast => simpa [LossEvent.seen, not_lt.mpr hpast] using ih
      · next hpast =>
        let window : LossWindow := { run b events with latestWallMs := later (run b events).latestWallMs wallMs }
        have hlater : asBot window.latestWallMs = max _ (wallMs : WithBot Int) := ih.latest_eq ▸ asBot_later _ wallMs
        have hcounts : window.Counts [] := ⟨ih.counts.net, ih.counts.invalid, ih.counts.oldest⟩
        simpa [LossEvent.seen, not_le.mp hpast] using ih.next hcounts (append_nil _).symm hlater

theorem Counts.eq_of_perm {window' : LossWindow} (h : window.Counts []) (h' : window'.Counts [])
    (hrows : window'.rows.Perm window.rows) :
    window'.net = window.net ∧ window'.invalid = window.invalid ∧ window'.oldestClosedMs = window.oldestClosedMs := by
  refine ⟨?_, ?_, ?_⟩
  · rw [h'.net, h.net, append_nil, append_nil]
    exact (hrows.map _).sum_eq
  · rw [h'.invalid, h.invalid, append_nil, append_nil]
    exact hrows.countP_eq _
  · have hold : asTop window'.oldestClosedMs = asTop window.oldestClosedMs := by
      rw [h'.oldest, h.oldest]
      exact ((hrows.filter _).map _).minimum_eq
    exact hold

theorem restore_insert (trades : List ClosedTradeRow) (h : window.Counts []) :
    (trades.foldl (insert b) window).Counts [] ∧
    (trades.foldl (insert b) window).rows = window.rows ++ trades.filterMap (kept b) ∧
    asBot (trades.foldl (insert b) window).latestWallMs =
      max (asBot window.latestWallMs) (trades.filterMap (closing b)).maximum := by
  induction trades generalizing window with
  | nil => exact ⟨h, by simp, (max_eq_left bot_le).symm⟩
  | cons trade trades ih =>
    obtain ⟨hcounts, hrows, hlatest⟩ := @insert_spec b _ h trade
    obtain ⟨hcounts', hrows', hlatest'⟩ := ih hcounts
    refine ⟨hcounts', ?_, ?_⟩
    · rw [foldl_cons, hrows', hrows]
      cases hk : kept b trade <;> simp [hk]
    · rw [foldl_cons, hlatest', hlatest, max_assoc]
      cases hc : closing b trade with
      | none =>
        rw [filterMap_cons_none hc]
        exact congrArg _ (max_eq_right bot_le)
      | some t =>
        rw [filterMap_cons_some hc, maximum_cons]
        rfl

theorem kept_of_mem {trades : List ClosedTradeRow} (h : row ∈ trades.filterMap (kept b)) :
    kept b row.trade = some row := by
  obtain ⟨trade, -, hk⟩ := mem_filterMap.mp h
  obtain rfl := kept_eq_some hk
  exact hk

theorem trades_filter (trades : List ClosedTradeRow) :
    ((trades.filterMap (kept b)).filter (fresh latest)).map LossRow.trade = trades.filter (retains b latest) := by
  induction trades with
  | nil => rfl
  | cons trade trades ih =>
    have hsome := @kept_isSome b trade
    cases hk : kept b trade with
    | none =>
      rw [hk, isSome_none, eq_comm, Bool.or_eq_false_iff, Bool.or_eq_false_iff] at hsome
      rw [filterMap_cons_none hk, ih, filter_cons_of_neg]
      simp [retains, hsome.1.1, hsome.1.2, hsome.2]
    | some row =>
      obtain rfl := kept_eq_some hk
      have hsame : fresh latest ⟨trade, (valuation b trade).toOption.join, (valuation b trade).isOk⟩ =
          retains b latest trade := by
        rw [hk, isSome_some, eq_comm, Bool.or_assoc] at hsome
        cases hok : (valuation b trade).isOk with
        | false =>
          rw [hok, Bool.false_or] at hsome
          cases latest <;> simp [fresh, expired, retains, hok, hsome]
        | true => cases latest <;> simp [fresh, expired, retains, hok]
      rw [filterMap_cons_some hk, filter_cons, filter_cons, hsame]
      split
      · rw [map_cons, ih]
      · exact ih

theorem kept_trades {seen : List ClosedTradeRow} {latest : Option Int}
    (h : rows = (seen.filterMap (kept b)).filter (fresh latest)) :
    (rows.map LossRow.trade).filterMap (kept b) = rows := by
  rw [filterMap_map]
  conv_rhs => rw [← filterMap_some (l := rows)]
  refine filterMap_congr fun row hrow => ?_
  rw [h] at hrow
  exact kept_of_mem (mem_of_mem_filter hrow)

theorem closing_le_seen {events : List LossEvent} (h : trade ∈ events.filterMap LossEvent.observed) :
    asBot (closing b trade) ≤ (events.filterMap (LossEvent.seen b)).maximum := by
  obtain ⟨event, hevent, hobserved⟩ := mem_filterMap.mp h
  cases event with
  | clock => cases hobserved
  | trade row =>
    obtain rfl := some.inj hobserved
    cases hc : closing b row with
    | none => exact bot_le
    | some t => exact le_maximum_of_mem' (mem_filterMap.mpr ⟨_, hevent, hc⟩)

/-- Restoring its trades gives a window back, whatever earlier time the restored one had seen. -/
theorem Shows.restored {seen : List ClosedTradeRow} {other : LossWindow}
    (h : window.Shows (seen.filterMap (kept b)) (asBot window.latestWallMs))
    (hbound : ∀ trade ∈ seen, asBot (closing b trade) ≤ asBot window.latestWallMs)
    (hle : asBot other.latestWallMs ≤ asBot window.latestWallMs) :
    { other.restore b window.trades with latestWallMs := window.latestWallMs } = window ∧
    asBot other.latestWallMs ≤ asBot (other.restore b window.trades).latestWallMs ∧
    asBot (other.restore b window.trades).latestWallMs ≤ asBot window.latestWallMs := by
  obtain ⟨hcounts, hrows, hlatest⟩ :=
    @restore_insert b { empty with latestWallMs := other.latestWallMs } window.trades ⟨rfl, rfl, rfl⟩
  obtain ⟨hpruned, hfiltered, hsame⟩ := prune_spec hcounts
  have hfrom : window.trades = seen.filter (retains b window.latestWallMs) := by
    rw [LossWindow.trades, h.rows_eq, trades_filter]
  have hupper : asBot (other.restore b window.trades).latestWallMs ≤ asBot window.latestWallMs := by
    rw [restore, hsame, hlatest]
    apply max_le hle
    apply maximum_le_of_forall_le
    intro t ht
    obtain ⟨trade, htrade, hc⟩ := mem_filterMap.mp ht
    rw [hfrom] at htrade
    have := hbound trade (mem_of_mem_filter htrade)
    rwa [hc] at this
  have hrestored : (other.restore b window.trades).rows = window.rows := by
    have hkept : window.trades.filterMap (kept b) = window.rows := kept_trades h.rows_eq
    have hrows : (window.trades.foldl (insert b) { empty with latestWallMs := other.latestWallMs }).rows =
        window.rows :=
      hrows.trans hkept
    rw [restore, hfiltered, hrows, filter_eq_self]
    intro row hrow
    rw [h.rows_eq] at hrow
    exact fresh_of_le (hsame ▸ hupper) (mem_filter.mp hrow).2
  obtain ⟨hnet, hinvalid, holdest⟩ := h.counts.eq_of_perm hpruned (hrestored ▸ List.Perm.refl _)
  refine ⟨?_, ?_, hupper⟩
  · cases window
    exact LossWindow.mk.injEq .. ▸ ⟨hrestored, hnet, hinvalid, holdest, rfl⟩
  · rw [restore, hsame, hlatest]
    exact le_max_left _ _

/-- **The rolling window**: the trades still in it, what they add up to, and that neither the order in
which they came nor a restart changes it. -/
theorem rolling_loss_window (b : Binary64) (events : List LossEvent) :
    asBot (run b events).latestWallMs = (events.filterMap (LossEvent.seen b)).maximum ∧
    (run b events).trades = (events.filterMap LossEvent.observed).filter (retains b (run b events).latestWallMs) ∧
    (run b events).net = ((run b events).trades.map (fun trade => (valuation b trade).toOption.join.getD 0)).sum ∧
    (run b events).invalid = (run b events).trades.countP (fun trade => (valuation b trade).toOption.join = none) ∧
    asTop (run b events).oldestClosedMs = ((run b events).trades.filterMap (closing b)).minimum ∧
    (∀ others, (others.filterMap LossEvent.observed).Perm (events.filterMap LossEvent.observed) →
      (run b others).latestWallMs = (run b events).latestWallMs →
      (run b others).trades.Perm (run b events).trades ∧ (run b others).net = (run b events).net ∧
      (run b others).invalid = (run b events).invalid ∧
      (run b others).oldestClosedMs = (run b events).oldestClosedMs) ∧
    (run b events).restore b (run b events).trades = run b events ∧
    ∀ window : LossWindow, asBot window.latestWallMs ≤ asBot (run b events).latestWallMs →
      { window.restore b (run b events).trades with latestWallMs := (run b events).latestWallMs } = run b events := by
  have hshows := run_shows b events
  have htimes := hshows.latest_eq
  have hmade : ∀ row ∈ (run b events).rows,
      row = ⟨row.trade, (valuation b row.trade).toOption.join, (valuation b row.trade).isOk⟩ := by
    intro row hrow
    rw [hshows.rows_eq] at hrow
    exact kept_eq_some (kept_of_mem (mem_of_mem_filter hrow))
  have hclosing : ∀ trade ∈ events.filterMap LossEvent.observed,
      asBot (closing b trade) ≤ asBot (run b events).latestWallMs :=
    fun trade htrade => htimes ▸ closing_le_seen htrade
  rw [← htimes] at hshows
  refine ⟨htimes, ?_, ?_, ?_, ?_, ?_, ?_, ?_⟩
  · rw [trades, hshows.rows_eq]
    exact trades_filter _ _
  · rw [hshows.counts.net, append_nil, trades, map_map]
    refine congrArg _ (map_congr_left fun row hrow => ?_)
    rw [hmade row hrow]
    rfl
  · rw [hshows.counts.invalid, append_nil, trades, countP_map]
    refine countP_congr fun row hrow => ?_
    rw [hmade row hrow]
    rfl
  · rw [hshows.counts.oldest, trades, filterMap_map, expiries, ← filterMap_eq_map,
      ← filterMap_eq_filter, filterMap_filterMap]
    refine congrArg _ (filterMap_congr fun row hrow => ?_)
    rw [hmade row hrow]
    cases hok : (valuation b row.trade).isOk <;> simp [closing, hok]
  · intro others hperm hsame
    have hrows : (run b others).rows.Perm (run b events).rows := by
      rw [hshows.rows_eq, (run_shows b others).rows_eq, hsame]
      exact (hperm.filterMap _).filter _
    exact ⟨hrows.map _, hshows.counts.eq_of_perm (run_shows b others).counts hrows⟩
  · obtain ⟨heq, hlow, hhigh⟩ := hshows.restored hclosing le_rfl
    have hlatest := le_antisymm hhigh hlow
    exact Eq.trans (congrArg (fun t => { restore b _ _ with latestWallMs := t }) hlatest) heq
  · intro window hle
    exact (hshows.restored hclosing hle).1


def gain : ClosedTradeRow := ⟨none, some 3, 5, .finite 3⟩

def loss : ClosedTradeRow := ⟨none, some (-1), 7, .finite (-1)⟩

/-- A gain and a loss, in either order. -/
theorem rolling_loss_window_swapped : (run .nearestEven [.trade gain, .clock 9, .trade loss]).net =
      (run .nearestEven [.trade loss, .trade gain, .clock 9]).net := by
  obtain ⟨-, -, -, -, -, horder, -⟩ := rolling_loss_window .nearestEven [.trade loss, .trade gain, .clock 9]
  exact (horder [.trade gain, .clock 9, .trade loss] (List.Perm.swap _ _ _) (by decide +kernel)).2.1

/-- A row of an older log that has no time is dropped. -/
theorem legacy_row_dropped : valuation .nearestEven ⟨none, none, 0, .finite 1⟩ = .error .invalidProjection ∧
      (run .nearestEven [.trade ⟨none, none, 0, .finite 1⟩]).trades = [] := by
  decide +kernel

end LossWindow
end LiquidityMigration.Risk
