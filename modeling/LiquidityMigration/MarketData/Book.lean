import LiquidityMigration.Lib.Checks
import LiquidityMigration.Lib.Ranked

/- The order books of a feed. A side is an array of fifty levels, the first `len` in use; a delta changes it row
   after row by shifting levels (`Side.change`). A frame either restates a book or changes it, and a change has to
   follow the update before it (`FeedState.applyBook`). Prices and quantities are any linear orders with a zero. -/
namespace LiquidityMigration.MarketData
open Checks List

def bookDepth : Nat := 50

structure BookLevel (P Q : Type) where
  px : P
  qty : Q
  deriving DecidableEq

instance {P Q : Type} [Zero P] [Zero Q] : Inhabited (BookLevel P Q) := ⟨⟨0, 0⟩⟩

section model
variable {P Q : Type} [LinearOrder P] [Zero P] [LinearOrder Q] [Zero Q]

/-- A row of a frame, `[price, quantity]`. -/
def readLevel (row : P × Q) : Except String (BookLevel P Q) := do
  require (¬ row.1 ≤ 0) "book price must be positive"
  require (¬ row.2 < 0) "book quantity cannot be negative"
  .ok ⟨row.1, row.2⟩

/-- The rows of one side, as many as the buffer has slots. -/
structure Levels (P Q : Type) where
  levels : List (BookLevel P Q)
  fits : levels.length ≤ bookDepth

/-- One more row: a row past the end of the buffer is read and left out. -/
def Levels.push (out : Levels P Q) (level : BookLevel P Q) : Levels P Q :=
  if h : out.levels.length < bookDepth then
    ⟨out.levels ++ [level], by rw [length_append]; exact h⟩
  else out

def Levels.deserialize (rows : List (P × Q)) : Except String (Levels P Q) :=
  rows.foldlM (fun out row => (readLevel row).map out.push) ⟨[], Nat.zero_le _⟩

/-- Levels in an array, the first `len` of them in use. -/
structure Side (P Q : Type) where
  levels : List (BookLevel P Q)
  len : Nat
  size : levels.length = bookDepth
  fits : len ≤ bookDepth

namespace Side

def empty : Side P Q := ⟨List.replicate bookDepth default, 0, length_replicate, Nat.zero_le _⟩

variable (bids : Bool) (side : Side P Q)

def active : List (BookLevel P Q) := side.levels.take side.len

/-- `copy_within(lo..hi, dest)` on a slice. -/
def copyWithin {α : Type} (out : List α) (lo hi dest : Nat) : List α :=
  out.mapIdx fun i x => if dest ≤ i ∧ i < dest + (hi - lo) then out.getD (i - dest + lo) x else x

/-- Whether a bid, or an ask, at one price stands ahead of one at another. -/
def ahead (px other : P) : Prop := if bids then other < px else px < other

instance (bids : Bool) : DecidableRel (ahead (P := P) bids) := fun px other =>
  inferInstanceAs (Decidable (if bids then other < px else px < other))

def requantify (index : Nat) (qty : Q) : Side P Q where
  levels := side.levels.modify index fun level => { level with qty := qty }
  len := side.len
  size := by rw [length_modify]; exact side.size
  fits := side.fits

def remove (index : Nat) : Side P Q where
  levels := (copyWithin side.levels (index + 1) side.len index).set (side.len - 1) default
  len := side.len - 1
  size := by rw [length_set, copyWithin, length_mapIdx]; exact side.size
  fits := (Nat.sub_le _ _).trans side.fits

/-- A level comes in: the ones behind it move down, the last one out of a full side. -/
def insert (index : Nat) (level : BookLevel P Q) : Side P Q :=
  let newLen := min (side.len + 1) bookDepth
  let moved := if index + 1 < newLen then copyWithin side.levels index (newLen - 1) (index + 1) else side.levels
  { levels := moved.set index level
    len := newLen
    size := by
      rw [length_set]
      show (if index + 1 < newLen then copyWithin side.levels index (newLen - 1) (index + 1)
        else side.levels).length = bookDepth
      split
      · rw [copyWithin, length_mapIdx]
        exact side.size
      · exact side.size
    fits := Nat.min_le_right _ _ }

/-- One row of `apply_side`. -/
def change (row : BookLevel P Q) : Side P Q :=
  match side.active.findIdx? (fun level => level.px = row.px) with
  | some index => if 0 < row.qty then side.requantify index row.qty else side.remove index
  | none =>
    if row.qty ≤ 0 then side
    else
      let index := (side.active.findIdx? (fun level => ahead bids row.px level.px)).getD side.len
      if bookDepth ≤ index then side else side.insert index row

def applySide (changes : Levels P Q) : Side P Q :=
  changes.levels.foldl (change bids) side

def replaceSide (changes : Levels P Q) : Side P Q := applySide bids empty changes

end Side

/-- A book of fifty levels a side. -/
structure Depth (P Q : Type) where
  (bids asks : Side P Q)
  (updateId seq : Nat)
  venueTsMs : Int
  recvNs : Nat

def Depth.empty : Depth P Q := ⟨.empty, .empty, 0, 0, 0, 0⟩

structure Quote (P Q : Type) where
  (bid ask : BookLevel P Q)
  venueTsMs : Int
  (recvNs seq : Nat)

def Side.best (side : Side P Q) : BookLevel P Q := if 0 < side.len then side.levels.headD default else default

def Depth.quote (depth : Depth P Q) : Quote P Q :=
  ⟨depth.bids.best, depth.asks.best, depth.venueTsMs, depth.recvNs, depth.seq⟩

structure BookState (P Q : Type) where
  depth : Depth P Q
  lastUpdateId : Nat
  hasSnapshot : Bool

def BookState.empty : BookState P Q := ⟨.empty, 0, false⟩

/-- A book message, still under the venue's name of the symbol. -/
structure BookFrame (P Q : Type) where
  symbol : String
  depth : Nat
  /-- Whether the message restates the book; so it does after a restart of the service. -/
  snapshot : Bool
  (updateId seq : Nat)
  /-- Absent where the message does not mention the side. -/
  (bids asks : Option (Levels P Q))
  venueTsMs : Int

inductive ResyncReason where
  | sequenceGap | deltaBeforeSnapshot
  deriving DecidableEq

/-- What the feed should do with a book frame. -/
inductive Applied (P Q : Type) where
  | quote (symbol : Nat) (quote : Quote P Q)
  | depth (symbol : Nat) (depth : Depth P Q)
  | nothing
  | resync (reason : ResyncReason)

/-- The running books, by the place of the symbol in the table. -/
structure FeedState (P Q : Type) where
  table : List String
  (books depths : List (BookState P Q))

namespace BookState

/-- A side of a snapshot: empty where the message does not mention it. -/
def restated (bids : Bool) (levels : Option (Levels P Q)) : Side P Q :=
  match levels with
  | some levels => .replaceSide bids levels
  | none => .empty

/-- A side after a delta: unchanged where the message does not mention it, or says `[]`. -/
def changed (bids : Bool) (depth : Nat) (side : Side P Q) (levels : Option (Levels P Q)) : Side P Q :=
  match levels with
  | some levels =>
    if levels.levels.isEmpty then side
    else if depth = 1 then .replaceSide bids levels
    else side.applySide bids levels
  | none => side

def stamped (frame : BookFrame P Q) (recvNs : Nat) (bids asks : Side P Q) : BookState P Q where
  depth := {
    bids := bids
    asks := asks
    updateId := frame.updateId
    seq := if frame.seq = 0 then frame.updateId else frame.seq
    venueTsMs := frame.venueTsMs
    recvNs := recvNs }
  lastUpdateId := frame.updateId
  hasSnapshot := true

/-- A frame on the book it is for: the next book, or why the stream has lost continuity. -/
def absorb (state : BookState P Q) (frame : BookFrame P Q) (recvNs : Nat) : Except ResyncReason (BookState P Q) :=
  if frame.snapshot then .ok (stamped frame recvNs (restated true frame.bids) (restated false frame.asks))
  else if ¬ state.hasSnapshot then .error .deltaBeforeSnapshot
  else if frame.updateId ≠ state.lastUpdateId + 1 then .error .sequenceGap
  else .ok (stamped frame recvNs (changed true frame.depth state.depth.bids frame.bids)
    (changed false frame.depth state.depth.asks frame.asks))

end BookState

namespace FeedState

def published (depth id : Nat) (state : BookState P Q) : Applied P Q :=
  if state.depth.bids.len = 0 ∨ state.depth.asks.len = 0 then .nothing
  else if depth = 1 then .quote id state.depth.quote
  else .depth id state.depth

def applyBook (state : FeedState P Q) (frame : BookFrame P Q) (recvNs : Nat) : FeedState P Q × Applied P Q :=
  match state.table.findIdx? (fun name => name = frame.symbol) with
  | none => (state, .nothing)
  | some id =>
    if frame.depth = 1 then
      match (state.books.getD id .empty).absorb frame recvNs with
      | .error reason => (state, .resync reason)
      | .ok book => ({ state with books := state.books.set id book }, published 1 id book)
    else if frame.depth = 50 then
      match (state.depths.getD id .empty).absorb frame recvNs with
      | .error reason => (state, .resync reason)
      | .ok book => ({ state with depths := state.depths.set id book }, published 50 id book)
    else (state, .nothing)

end FeedState

end model

end LiquidityMigration.MarketData
