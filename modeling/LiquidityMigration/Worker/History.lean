import LiquidityMigration.Worker.Model

/- The history the worker holds of a source, and how much of it is proven. Rows stand
   under their own clock and are never changed by a later row (`mergeRow`). Beside them
   stand the ranges that were fetched completely, as canonical intervals and again as
   the pair of ends of any symbol that has exactly one. Every change keeps both in step
   (`Held.reached`), and the readers answer for the set the intervals cover. -/
namespace LiquidityMigration.Worker
open Checks Signal Dict Span

class HistoryRow (ρ : Type) where
  label : String
  key : ρ → Int
  symbol : ρ → String
  availableAtMs : ρ → Int
  setAvailableAtMs : ρ → Int → ρ
  sameValue : ρ → ρ → Bool

instance : HistoryRow HourlyKline where
  label := "kline"
  key := HourlyKline.openTsMs
  symbol := HourlyKline.symbol
  availableAtMs := HourlyKline.availableAtMs
  setAvailableAtMs row atMs := { row with availableAtMs := atMs }
  sameValue row other := decide (row.symbol = other.symbol ∧ row.openTsMs = other.openTsMs ∧ row.open_ = other.open_ ∧
    row.high = other.high ∧ row.low = other.low ∧ row.close = other.close ∧ row.volumeBase = other.volumeBase ∧
    row.turnoverQuote = other.turnoverQuote)

-- the interval is stamped at fetch time, so it is not part of the settled value
instance : HistoryRow SettledFunding where
  label := "funding"
  key := SettledFunding.settlementTsMs
  symbol := SettledFunding.symbol
  availableAtMs := SettledFunding.availableAtMs
  setAvailableAtMs row atMs := { row with availableAtMs := atMs }
  sameValue row other := decide (row.symbol = other.symbol ∧ row.settlementTsMs = other.settlementTsMs ∧
    row.rate = other.rate)

instance : HistoryRow BinanceWhaleObservation where
  label := "whale"
  key := BinanceWhaleObservation.dayEndMs
  symbol := BinanceWhaleObservation.symbol
  availableAtMs := BinanceWhaleObservation.availableAtMs
  setAvailableAtMs row atMs := { row with availableAtMs := atMs }
  sameValue row other := decide (row.symbol = other.symbol ∧ row.dayEndMs = other.dayEndMs ∧
    row.longShortRatio = other.longShortRatio)

section Rows
open HistoryRow

variable {ρ : Type} [HistoryRow ρ] {rows rows' : Dict Int ρ} {row : ρ} {new : Bool}

/-- The rows with one more, and whether it was new. -/
def mergeRow (rows : Dict Int ρ) (row : ρ) : Except WorkerError (Dict Int ρ × Bool) :=
  match rows.find? (key row) with
  | some existing =>
    if sameValue existing row then
      .ok (rows.insert (key row) (setAvailableAtMs existing (min (availableAtMs existing) (availableAtMs row))), false)
    else .error (.ofInput (label ρ ++ " history rewrote " ++ symbol row ++ " at timestamp " ++ toString (key row)))
  | none => .ok (rows.insert (key row) row, true)

end Rows

def sole : Option (List CoverageInterval) → Option CoverageInterval
  | some [interval] => some interval
  | _ => none

namespace Coverage

variable (c : Coverage)

def syncLegacy (symbol : String) : Coverage :=
  match sole (c.intervals.find? symbol) with
  | some interval =>
    { c with checkedFrom := c.checkedFrom.insert symbol interval.lo
             checkedThrough := c.checkedThrough.insert symbol interval.hi }
  | none => { c with checkedFrom := c.checkedFrom.erase symbol, checkedThrough := c.checkedThrough.erase symbol }

/-- A fetched frontier is recorded. Both ends or neither. -/
def merge (label : String) (c : Coverage) (symbol : String) (newFrom newThrough : Option Int) (availableAt : Int)
    (replace : Bool) : Except WorkerError Coverage :=
  match newFrom, newThrough with
  | none, none => .ok c
  | some lo, some hi => do
    require (0 < lo ∧ lo % hourMs = 0 ∧ hi % hourMs = 0 ∧ lo < hi ∧ hi ≤ availableAt)
      (.ofInput (label ++ " coverage frontier has an invalid clock"))
    let kept := if replace then c.intervals.erase symbol else c.intervals
    let merged := Span.add ((kept.find? symbol).getD []) ⟨lo, hi⟩
    .ok ({ c with intervals := kept.insert symbol merged }.syncLegacy symbol)
  | _, _ => .error (.ofInput (label ++ " coverage frontier has only one boundary"))

def revoke (symbol : String) : Coverage :=
  ⟨c.checkedFrom.erase symbol, c.checkedThrough.erase symbol, c.intervals.erase symbol⟩

def retainSymbols (keep : String → Bool) : Coverage :=
  ⟨c.checkedFrom.retain (fun symbol _ => keep symbol), c.checkedThrough.retain (fun symbol _ => keep symbol),
    c.intervals.retain (fun symbol _ => keep symbol)⟩

/-- A symbol's coverage clipped to windows. -/
def retainWindows (windows : String → List (Span Int)) (c : Coverage) (symbol : String) : Coverage :=
  { c with intervals := c.intervals.adjust symbol (fun intervals => Span.clip intervals (windows symbol)) }.syncLegacy
    symbol

def dropEmpty : Coverage :=
  { c with intervals := c.intervals.retain (fun _ intervals => !intervals.isEmpty) }

section readers
variable (c : Coverage) (symbol : String)

def legacyContains (requiredFrom requiredThrough : Int) : Bool :=
  match c.checkedFrom.find? symbol, c.checkedThrough.find? symbol with
  | some lo, some hi => lo ≤ requiredFrom ∧ requiredThrough ≤ hi
  | _, _ => false

def contains (requiredFrom requiredThrough : Int) : Bool :=
  (c.intervals.find? symbol).any (fun intervals =>
      intervals.any fun interval => interval.lo ≤ requiredFrom ∧ requiredThrough ≤ interval.hi) ||
    c.legacyContains symbol requiredFrom requiredThrough

def coverageRepairStart (requiredStart endMs : Int) (checkedFrom checkedThrough : Option Int) : Int :=
  match checkedFrom, checkedThrough with
  | some lo, some hi => if lo ≤ requiredStart then min (max hi requiredStart) endMs else requiredStart
  | _, _ => requiredStart

/-- `repair_start`: where a fetch for the range must begin. -/
def repairStart (requiredStart requiredThrough : Int) : Int :=
  match (c.intervals.find? symbol).bind fun intervals =>
      intervals.find? fun interval => interval.lo ≤ requiredStart ∧ requiredStart < interval.hi with
  | some interval => min interval.hi requiredThrough
  | none => coverageRepairStart requiredStart requiredThrough (c.checkedFrom.find? symbol)
      (c.checkedThrough.find? symbol)

def covered : List CoverageInterval := (c.intervals.find? symbol).getD []

def Covers : Int → Prop := Span.Covers (c.covered symbol)

def pair : Option Int × Option Int := (c.checkedFrom.find? symbol, c.checkedThrough.find? symbol)

/-- What the pair of a symbol with these intervals has to be. -/
def solePair : List CoverageInterval → Option Int × Option Int
  | [interval] => (some interval.lo, some interval.hi)
  | _ => (none, none)

end readers

/-- Every symbol's intervals are canonical, and its pair is that of its sole interval. -/
structure Held (c : Coverage) : Prop where
  canonical : ∀ symbol, Span.Canonical (c.covered symbol)
  pair : ∀ symbol, c.pair symbol = solePair (c.covered symbol)

theorem held_empty : Held ∅ := ⟨fun _ => .nil, fun _ => rfl⟩

variable {c c' : Coverage} {symbol other : String} {lo hi : Int}

theorem covered_syncLegacy : (c.syncLegacy symbol).covered other = c.covered other := by
  unfold syncLegacy
  split
  · rfl
  · rfl

theorem pair_syncLegacy :
    (c.syncLegacy symbol).pair other = if symbol = other then solePair (c.covered other) else c.pair other := by
  have hsole : solePair (c.covered symbol) =
      ((sole (c.intervals.find? symbol)).map lo, (sole (c.intervals.find? symbol)).map hi) := by
    rw [covered]
    rcases c.intervals.find? symbol with _ | _ | ⟨i, _ | ⟨j, rest⟩⟩ <;> rfl
  unfold syncLegacy pair
  split
  · grind [find?_insert]
  · grind [find?_erase]

theorem Held.put (h : Held c) {intervals : Dict String (List CoverageInterval)} {spans : List CoverageInterval}
    (hspans : Span.Canonical spans)
    (hcovered : ∀ other, (intervals.find? other).getD [] = if symbol = other then spans else c.covered other) :
    Held ({ c with intervals := intervals }.syncLegacy symbol) := by
  constructor
  · intro other
    rw [covered_syncLegacy, covered, hcovered]
    split
    · exact hspans
    · exact h.canonical other
  · intro other
    rw [covered_syncLegacy, pair_syncLegacy]
    split
    · rfl
    · next ho =>
      rw [covered, hcovered, if_neg ho]
      exact h.pair other

theorem Held.merge {label : String} {availableAt : Int} {replace : Bool} (h : Held c)
    (hok : Coverage.merge label c symbol (some lo) (some hi) availableAt replace = .ok c') :
    Held c' ∧ ∀ other x, c'.Covers other x ↔
      if symbol = other then replace = false ∧ c.Covers other x ∨ lo ≤ x ∧ x < hi else c.Covers other x := by
  simp only [Coverage.merge, ok_iff] at hok
  obtain ⟨⟨-, -, -, hlt, -⟩, rfl⟩ := hok
  generalize hkept : (if replace = true then c.intervals.erase symbol else c.intervals) = kept
  have hprior : (kept.find? symbol).getD [] = if replace then [] else c.covered symbol := by
    grind [find?_erase, covered]
  have hcanonical : Span.Canonical ((kept.find? symbol).getD []) := by
    rw [hprior]
    split
    · exact .nil
    · exact h.canonical symbol
  obtain ⟨hspans, hcovers⟩ := hcanonical.add (s := ⟨lo, hi⟩) hlt
  have hcovered : ∀ other, ((kept.insert symbol (add ((kept.find? symbol).getD []) ⟨lo, hi⟩)).find? other).getD [] =
      if symbol = other then add ((kept.find? symbol).getD []) ⟨lo, hi⟩ else c.covered other := by
    intro other
    rw [find?_insert]
    grind [find?_erase, covered]
  refine ⟨h.put hspans hcovered, fun other x => ?_⟩
  rw [Covers, covered_syncLegacy, covered, hcovered]
  split
  · next ho =>
    subst ho
    rw [hcovers, hprior]
    cases replace <;> simp [Covers, Span.Covers]
  · rfl

theorem Held.retainWindows (h : Held c) (windows : String → List (Span Int)) (symbol : String) :
    Held (c.retainWindows windows symbol) ∧ ∀ other x, (c.retainWindows windows symbol).Covers other x ↔
      c.Covers other x ∧ (symbol = other → Span.Covers (windows symbol) x) := by
  obtain ⟨hspans, hcovers⟩ := clip_spec (c.covered symbol) (windows symbol)
  have hcovered : ∀ other, ((c.intervals.adjust symbol fun spans => clip spans (windows symbol)).find? other).getD [] =
      if symbol = other then clip (c.covered symbol) (windows symbol) else c.covered other := by
    intro other
    rw [find?_adjust, covered, covered]
    split
    · next ho =>
      subst ho
      cases c.intervals.find? symbol <;> rfl
    · rfl
  refine ⟨h.put hspans hcovered, fun other x => ?_⟩
  rw [Covers, Coverage.retainWindows, covered_syncLegacy, covered, hcovered]
  split
  · next ho => simp [hcovers, ← ho, Covers]
  · next ho => simp [ho, Covers]

theorem covered_retainSymbols {keep : String → Bool} :
    (c.retainSymbols keep).covered other = if keep other then c.covered other else [] := by
  simp only [covered, retainSymbols, find?_retain]
  cases keep other <;> cases c.intervals.find? other <;> rfl

theorem Held.retainSymbols (h : Held c) (keep : String → Bool) : Held (c.retainSymbols keep) := by
  constructor
  · intro other
    rw [covered_retainSymbols]
    split
    · exact h.canonical other
    · exact .nil
  · intro other
    have hpair := h.pair other
    rw [covered_retainSymbols]
    simp only [Coverage.pair, Coverage.retainSymbols, find?_retain] at hpair ⊢
    cases keep other
    · simp [solePair]
    · rw [if_pos rfl, ← hpair]
      cases c.checkedFrom.find? other <;> cases c.checkedThrough.find? other <;> rfl

theorem covered_dropEmpty : c.dropEmpty.covered other = c.covered other := by
  simp only [covered, dropEmpty, find?_retain]
  rcases c.intervals.find? other with _ | _ | _ <;> rfl

theorem Held.contains_iff (h : Held c) (hlt : lo < hi) :
    c.contains symbol lo hi = true ↔ ∀ x, lo ≤ x → x < hi → c.Covers symbol x := by
  have hlegacy : c.legacyContains symbol lo hi = true → ∃ s ∈ c.covered symbol, s.lo ≤ lo ∧ hi ≤ s.hi := by
    have hpair := h.pair symbol
    unfold Coverage.pair solePair at hpair
    unfold legacyContains
    grind
  rw [Covers, (h.canonical symbol).covers_range_iff hlt, contains, Bool.or_eq_true]
  rw [covered] at hlegacy ⊢
  generalize c.intervals.find? symbol = found at hlegacy ⊢
  cases found
  · simpa using hlegacy
  · simpa using hlegacy

theorem Held.repairStart_isGreatest (h : Held c) (hlt : lo < hi) :
    IsGreatest {p | lo ≤ p ∧ p ≤ hi ∧ ∀ x, lo ≤ x → x < p → c.Covers symbol x} (c.repairStart symbol lo hi) := by
  unfold repairStart
  split
  · next s hs =>
    obtain ⟨spans, hfound, hfind⟩ := Option.bind_eq_some_iff.mp hs
    have hmem : s ∈ c.covered symbol := by
      rw [covered, hfound]
      exact List.mem_of_find?_eq_some hfind
    have hin := List.find?_some hfind
    rw [decide_eq_true_eq] at hin
    refine ⟨⟨le_min hin.2.le hlt.le, min_le_right _ _, fun x hx hxp => ?_⟩, fun p hp => le_min ?_ hp.2.1⟩
    · exact ⟨s, hmem, hin.1.trans hx, hxp.trans_le (min_le_left _ _)⟩
    · by_contra hgt
      exact (h.canonical symbol).not_covers_hi hmem (hp.2.2 _ hin.2.le (not_le.mp hgt))
  · next hnone =>
    have hout : ¬ c.Covers symbol lo := by
      rintro ⟨s, hs, hcovers⟩
      rw [covered] at hs
      cases hfound : c.intervals.find? symbol <;> simp_all
      exact absurd hcovers.2 (not_lt.mpr (hnone s hs hcovers.1))
    have hstart : coverageRepairStart lo hi (c.checkedFrom.find? symbol) (c.checkedThrough.find? symbol) = lo := by
      have hpair := h.pair symbol
      unfold Coverage.pair solePair at hpair
      unfold Covers Span.Covers at hout
      unfold coverageRepairStart
      grind
    rw [hstart]
    refine ⟨⟨le_rfl, hlt.le, fun x hx hxp => absurd hxp (not_lt.mpr hx)⟩, fun p hp => ?_⟩
    by_contra hgt
    exact hout (hp.2.2 lo le_rfl (not_le.mp hgt))

/-- The coverage that changes lead to. A merge that is refused changes nothing. -/
inductive Reached (label : String) (start : Coverage) : Coverage → Prop
  | start : Reached label start start
  | merge {c c' : Coverage} {symbol : String} {newFrom newThrough : Option Int} {availableAt : Int} {replace : Bool}
      (h : Reached label start c) (hok : Coverage.merge label c symbol newFrom newThrough availableAt replace =
        .ok c') :
      Reached label start c'
  | retainWindows {c : Coverage} (h : Reached label start c) (windows : String → List (Span Int)) (symbol : String) :
      Reached label start (c.retainWindows windows symbol)
  | retainSymbols {c : Coverage} (h : Reached label start c) (keep : String → Bool) :
      Reached label start (c.retainSymbols keep)
  | dropEmpty {c : Coverage} (h : Reached label start c) : Reached label start c.dropEmpty

theorem Held.reached {label : String} {start : Coverage} (h : Held start) (hreached : Reached label start c) :
    Held c := by
  induction hreached with
  | start => exact h
  | @merge c c' symbol newFrom newThrough _ _ _ hok ih =>
    cases newFrom <;> cases newThrough
    · cases hok
      exact ih
    · cases hok
    · cases hok
    · exact (ih.merge hok).1
  | retainWindows _ windows symbol ih => exact (ih.retainWindows windows symbol).1
  | retainSymbols _ keep ih => exact ih.retainSymbols keep
  | dropEmpty _ ih =>
    refine ⟨fun other => ?_, fun other => ?_⟩ <;> rw [covered_dropEmpty]
    · exact ih.canonical other
    · exact ih.pair other

/-- **History coverage is a canonical interval set**, whatever the changes. -/
theorem coverage_canonical {label : String} {start : Coverage} (h : Held start) (hreached : Reached label start c) :
    (∀ symbol, Span.Canonical (c.covered symbol) ∧ c.pair symbol = solePair (c.covered symbol)) ∧
    (∀ symbol lo hi availableAt replace c', merge label c symbol (some lo) (some hi) availableAt replace = .ok c' →
      ∀ other x, c'.Covers other x ↔
        if symbol = other then replace = false ∧ c.Covers other x ∨ lo ≤ x ∧ x < hi else c.Covers other x) ∧
    (∀ windows symbol other x, (c.retainWindows windows symbol).Covers other x ↔
      c.Covers other x ∧ (symbol = other → Span.Covers (windows symbol) x)) ∧
    (∀ keep other, (c.retainSymbols keep).covered other = if keep other then c.covered other else []) ∧
    (∀ other, c.dropEmpty.covered other = c.covered other) ∧
    ∀ symbol lo hi, lo < hi → (c.contains symbol lo hi = true ↔ ∀ x, lo ≤ x → x < hi → c.Covers symbol x) ∧
      IsGreatest {p | lo ≤ p ∧ p ≤ hi ∧ ∀ x, lo ≤ x → x < p → c.Covers symbol x} (c.repairStart symbol lo hi) := by
  have hc := h.reached hreached
  exact ⟨fun symbol => ⟨hc.canonical symbol, hc.pair symbol⟩, fun _ _ _ _ _ _ hok => (hc.merge hok).2,
    fun windows symbol => (hc.retainWindows windows symbol).2, fun _ _ => covered_retainSymbols,
    fun _ => covered_dropEmpty, fun _ _ _ hlt => ⟨hc.contains_iff hlt, hc.repairStart_isGreatest hlt⟩⟩

/-- Two hours are fetched, with one missing between them, and kept up to half past the third. -/
theorem coverage_canonical_clipped : ∃ c₁ c₂,
    merge "kline" ∅ "BTCUSDT" (some hourMs) (some (2 * hourMs)) (2 * hourMs) false = .ok c₁ ∧
    merge "kline" c₁ "BTCUSDT" (some (3 * hourMs)) (some (4 * hourMs)) (4 * hourMs) false = .ok c₂ ∧
    let c := c₂.retainWindows (fun _ => [⟨0, 3 * hourMs + hourMs / 2⟩]) "BTCUSDT"
    c.covered "BTCUSDT" = [⟨hourMs, 2 * hourMs⟩, ⟨3 * hourMs, 3 * hourMs + hourMs / 2⟩] ∧
      Span.Canonical (c.covered "BTCUSDT") ∧ c.pair "BTCUSDT" = solePair (c.covered "BTCUSDT") ∧
      ∀ lo hi, lo < hi → (c.contains "BTCUSDT" lo hi = true ↔ ∀ x, lo ≤ x → x < hi → c.Covers "BTCUSDT" x) := by
  refine ⟨_, _, rfl, rfl, by decide +kernel, ?_⟩
  have hc := coverage_canonical held_empty (.retainWindows (.merge (.merge .start
    (rfl : merge "kline" ∅ "BTCUSDT" (some hourMs) (some (2 * hourMs)) (2 * hourMs) false = .ok _))
    (rfl : merge "kline" _ "BTCUSDT" (some (3 * hourMs)) (some (4 * hourMs)) (4 * hourMs) false = .ok _))
    (fun _ => [⟨0, 3 * hourMs + hourMs / 2⟩]) "BTCUSDT")
  exact ⟨(hc.1 _).1, (hc.1 _).2, fun lo hi hlt => (hc.2.2.2.2.2 "BTCUSDT" lo hi hlt).1⟩

theorem replacing_merge_drops : ∃ c c', merge "kline" ∅ "BTCUSDT" (some 3600000) (some 7200000) 7200000 false = .ok c ∧
    merge "kline" c "BTCUSDT" (some 10800000) (some 14400000) 14400000 true = .ok c' ∧
    c.contains "BTCUSDT" 3600000 7200000 = true ∧ c'.contains "BTCUSDT" 3600000 7200000 = false :=
  ⟨_, _, rfl, rfl, by decide +kernel, by decide +kernel⟩

end Coverage

end LiquidityMigration.Worker
