import LiquidityMigration.Risk.Envelope

/- Cash margin stays reserved until an account query that starts after the order was
   confirmed. An order's row goes from queued to attempted to working; once it is
   finished its row is merged into the retired row of its symbol, which an account
   query after the latest confirmation releases. -/
namespace LiquidityMigration.Risk
open Numeric Portfolio Checks RowSums
open Std (ExtTreeMap)

inductive Phase where
  | queued
  | attempted
  | working (confirmedNs : Nat)
  deriving DecidableEq

structure Reservation where
  symbol : SymbolId
  (quantity px : Option Exact)
  phase : Phase
  deriving DecidableEq

structure Retired where
  (quantity px : Option Exact)
  confirmedNs : Nat
  deriving DecidableEq

structure MarginBook where
  active : ExtTreeMap String Reservation
  retired : ExtTreeMap SymbolId Retired
  frontierNs : Nat

/-- The time an order's working phase was confirmed at, zero before that. -/
def Phase.earlier : Phase → Nat
  | .working confirmedNs => confirmedNs
  | _ => 0

namespace MarginBook

def empty : MarginBook := ⟨∅, ∅, 0⟩

variable (book : MarginBook) (id : String)

def register (symbol : SymbolId) (quantity px : Option Exact) : MarginBook :=
  { book with active := book.active.insert id ⟨symbol, quantity, px, .queued⟩ }

def modify (change : Reservation → Reservation) : MarginBook :=
  match book.active[id]? with
  | some row => { book with active := book.active.insert id (change row) }
  | none => book

def setQuantity (quantity : Option Exact) : MarginBook :=
  book.modify id fun row => { row with quantity := quantity }

def attempted (id : String) : MarginBook := book.modify id fun row => { row with phase := .attempted }

def accepted (confirmedNs : Nat) : MarginBook :=
  book.modify id fun row => { row with phase := .working (max confirmedNs row.phase.earlier) }

/-- A symbol's retired row with one order more: an unknown quantity or time stays unknown. -/
def merge (old : Retired) (row : Reservation) (confirmedNs : Nat) : Retired where
  quantity := do
    let a ← old.quantity
    let b ← row.quantity
    some (a + b)
  px := maxPrice old.px row.px
  confirmedNs := if old.confirmedNs = 0 ∨ confirmedNs = 0 then 0 else max old.confirmedNs confirmedNs

def retire (confirmedNs : Nat) : MarginBook :=
  match book.active[id]? with
  | none => book
  | some row =>
    let book := { book with active := book.active.erase id }
    let confirmedNs := max confirmedNs row.phase.earlier
    if 0 < confirmedNs ∧ confirmedNs ≤ book.frontierNs then book
    else
      { book with retired := book.retired.insert row.symbol (match book.retired[row.symbol]? with
        | some old => merge old row confirmedNs
        | none => ⟨row.quantity, row.px, confirmedNs⟩) }

def observe (ns : Nat) : MarginBook :=
  let frontierNs := max book.frontierNs ns
  { book with
    frontierNs := frontierNs
    retired := book.retired.filter (fun _ row => row.confirmedNs = 0 ∨ frontierNs < row.confirmedNs) }

/-- The part of one row in the margin: its price and its quantity. -/
def part (leverage : Exact) (price : SymbolId → Option Exact) (symbol : SymbolId) (quantity px : Option Exact) :
    Except String (Option (Exact × Exact)) := do
  let qty ← orError quantity "an order's incremental physical margin is unknown"
  require (0 ≤ qty) "an order's margin quantity is unreadable"
  if qty = 0 then .ok none
  else
    let px ← orError ((maxPrice px (price symbol)).filter (0 < ·)) "no price for unreflected order margin"
    require (leverage ≠ 0) "unreadable leverage"
    .ok (some (px, qty))

def required (ns : Nat) (leverage : Exact) (price : SymbolId → Option Exact) : Except String Exact := do
  require (book.frontierNs ≤ ns) "account query predates the margin confirmation frontier"
  -- a confirmed row that the query can already see is in the account's own figures
  let active ← collect (fun row : String × Reservation =>
    if 0 < row.2.phase.earlier ∧ row.2.phase.earlier ≤ ns then .ok none
    else part leverage price row.2.symbol row.2.quantity row.2.px) book.active.toList
  let retired ← collect (fun row : SymbolId × Retired =>
    if 0 < row.2.confirmedNs ∧ row.2.confirmedNs ≤ ns then .ok none
    else part leverage price row.1 row.2.quantity row.2.px) book.retired.toList
  let total := ((group compare (active ++ retired)).toList.map (fun row => row.2 * row.1)).sum
  if total = 0 then .ok total
  else (checkedDiv total leverage).mapError fun _ => "unreadable leverage"

end MarginBook

end LiquidityMigration.Risk
