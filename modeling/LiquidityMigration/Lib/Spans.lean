import Mathlib

/- Sets of instants kept as lists of half-open spans. A list is canonical when its spans are not empty, in order and
   apart. Adding a span and clipping to windows leave canonical lists, described by what they cover (`Canonical.add`,
   `clip_spec`); what a canonical list covers of a range is in one of its spans (`Canonical.covers_range_iff`). -/

/-- The instants from `lo` up to and without `hi`. -/
structure Span (α : Type) where
  (lo hi : α)
  deriving DecidableEq

namespace Span
open List

variable {α : Type} [LinearOrder α] {s cur : Span α} {spans rest : List (Span α)} {x : α}

def Covers (spans : List (Span α)) (x : α) : Prop := ∃ s ∈ spans, s.lo ≤ x ∧ x < s.hi

theorem covers_cons : Covers (s :: spans) x ↔ (s.lo ≤ x ∧ x < s.hi) ∨ Covers spans x := exists_mem_cons_iff ..

/-- Spans that are not empty, in order, with a gap between neighbours. -/
structure Canonical (spans : List (Span α)) : Prop where
  pos : ∀ s ∈ spans, s.lo < s.hi
  apart : spans.Pairwise (fun a b => a.hi < b.lo)

theorem Canonical.nil : Canonical ([] : List (Span α)) := ⟨fun _ h => absurd h not_mem_nil, .nil⟩

theorem Canonical.not_covers_hi (h : Canonical spans) (hs : s ∈ spans) : ¬ Covers spans s.hi := by
  rintro ⟨t, ht, hlo, hhi⟩
  obtain ⟨i, hi, rfl⟩ := mem_iff_getElem.mp hs
  obtain ⟨j, hj, rfl⟩ := mem_iff_getElem.mp ht
  have hapart := pairwise_iff_getElem.mp h.apart
  obtain hlt | rfl | hlt := lt_trichotomy i j
  · exact not_le_of_gt (hapart i j hi hj hlt) hlo
  · exact lt_irrefl _ hhi
  · exact not_lt_of_gt (h.pos _ hs) ((hhi.trans (hapart j i hj hi hlt)))

/-- A range lies in a canonical list when it lies in one of its spans. -/
theorem Canonical.covers_range_iff (h : Canonical spans) {a b : α} (hab : a < b) :
    (∀ x, a ≤ x → x < b → Covers spans x) ↔ ∃ s ∈ spans, s.lo ≤ a ∧ b ≤ s.hi := by
  constructor
  · intro hrange
    obtain ⟨s, hs, hlo, hhi⟩ := hrange a le_rfl hab
    refine ⟨s, hs, hlo, not_lt.mp fun hlt => ?_⟩
    exact h.not_covers_hi hs (hrange s.hi hhi.le hlt)
  · rintro ⟨s, hs, hlo, hhi⟩ x hax hxb
    exact ⟨s, hs, hlo.trans hax, hxb.trans_le hhi⟩

/-- The spans behind `cur`, joined to it as long as they begin no later than it ends. -/
def coalesceFrom (cur : Span α) : List (Span α) → List (Span α)
  | [] => [cur]
  | s :: rest =>
    if s.lo ≤ cur.hi then coalesceFrom ⟨cur.lo, max cur.hi s.hi⟩ rest else cur :: coalesceFrom s rest

def coalesce : List (Span α) → List (Span α)
  | [] => []
  | s :: rest => coalesceFrom s rest

theorem coalesceFrom_spec (hpos : ∀ s ∈ cur :: rest, s.lo < s.hi)
    (hsorted : (cur :: rest).Pairwise (fun a b => a.lo ≤ b.lo)) :
    Canonical (coalesceFrom cur rest) ∧ (∀ t ∈ coalesceFrom cur rest, cur.lo ≤ t.lo) ∧
      ∀ x, Covers (coalesceFrom cur rest) x ↔ Covers (cur :: rest) x := by
  fun_induction coalesceFrom cur rest with
  | case1 cur => exact ⟨⟨hpos, pairwise_singleton _ _⟩, by simp, fun _ => Iff.rfl⟩
  | case2 cur s rest hjoin ih =>
    simp only [pairwise_cons, forall_mem_cons] at hpos hsorted ih
    obtain ⟨hcanonical, hbehind, hcovers⟩ := ih ⟨lt_max_of_lt_left hpos.1, hpos.2.2⟩ ⟨hsorted.1.2, hsorted.2.2⟩
    refine ⟨hcanonical, hbehind, fun x => ?_⟩
    rw [hcovers, covers_cons, covers_cons, covers_cons, ← or_assoc]
    grind
  | case3 cur s rest hgap ih =>
    simp only [pairwise_cons, forall_mem_cons] at hpos hsorted ih
    obtain ⟨hcanonical, hbehind, hcovers⟩ := ih hpos.2 hsorted.2
    refine ⟨⟨?_, pairwise_cons.mpr ⟨fun t ht => (not_le.mp hgap).trans_le (hbehind t ht), hcanonical.apart⟩⟩, ?_, ?_⟩
    · exact forall_mem_cons.mpr ⟨hpos.1, hcanonical.pos⟩
    · exact forall_mem_cons.mpr ⟨le_rfl, fun t ht => hsorted.1.1.trans (hbehind t ht)⟩
    · intro x
      rw [covers_cons, hcovers, ← covers_cons]

/-- The spans with one more, in the order of their beginnings and joined. -/
def add (spans : List (Span α)) (s : Span α) : List (Span α) :=
  coalesce ((spans ++ [s]).insertionSort (fun a b => a.lo ≤ b.lo))

instance : Std.Total (fun a b : Span α => a.lo ≤ b.lo) := ⟨fun a b => le_total a.lo b.lo⟩

instance : IsTrans (Span α) (fun a b => a.lo ≤ b.lo) := ⟨fun _ _ _ => le_trans⟩

theorem Canonical.add (h : Canonical spans) (hs : s.lo < s.hi) :
    Canonical (add spans s) ∧ ∀ x, Covers (add spans s) x ↔ Covers spans x ∨ s.lo ≤ x ∧ x < s.hi := by
  have hsorted := pairwise_insertionSort (fun a b : Span α => a.lo ≤ b.lo) (spans ++ [s])
  have hmem : ∀ t, t ∈ (spans ++ [s]).insertionSort (fun a b => a.lo ≤ b.lo) ↔ t ∈ spans ∨ t = s := by
    intro t
    rw [mem_insertionSort, mem_append, mem_singleton]
  rw [Span.add]
  generalize (spans ++ [s]).insertionSort (fun a b => a.lo ≤ b.lo) = sorted at hsorted hmem
  have hpos : ∀ t ∈ sorted, t.lo < t.hi := by
    intro t ht
    rcases (hmem t).mp ht with ht | rfl
    · exact h.pos t ht
    · exact hs
  have hcovers : ∀ x, Covers sorted x ↔ Covers spans x ∨ s.lo ≤ x ∧ x < s.hi := by
    intro x
    simp only [Covers, hmem, or_and_right, exists_or, exists_eq_left]
  cases sorted with
  | nil => exact ⟨.nil, hcovers⟩
  | cons t rest =>
    obtain ⟨hcanonical, -, hsame⟩ := coalesceFrom_spec hpos hsorted
    exact ⟨hcanonical, fun x => (hsame x).trans (hcovers x)⟩

theorem Canonical.foldl_add {parts : List (Span α)} (h : Canonical spans) (hpos : ∀ p ∈ parts, p.lo < p.hi) :
    Canonical (parts.foldl Span.add spans) ∧ ∀ x, Covers (parts.foldl Span.add spans) x ↔ Covers spans x ∨
      Covers parts x := by
  induction parts generalizing spans with
  | nil => exact ⟨h, fun x => by simp [Covers]⟩
  | cons p parts ih =>
    obtain ⟨hp, hpos⟩ := forall_mem_cons.mp hpos
    obtain ⟨hadded, hcovers⟩ := h.add hp
    obtain ⟨hall, hcovers'⟩ := ih hadded hpos
    exact ⟨hall, fun x => by rw [foldl_cons, hcovers', hcovers, covers_cons, or_assoc]⟩

def clipTo (s w : Span α) : Span α := ⟨max s.lo w.lo, min s.hi w.hi⟩

/-- The non-empty parts of the spans in the windows, span by span. -/
def pieces (spans windows : List (Span α)) : List (Span α) :=
  spans.flatMap fun s => (windows.map (clipTo s)).filter (fun p => p.lo < p.hi)

/-- The spans clipped to the windows, their parts added one after another. -/
def clip (spans windows : List (Span α)) : List (Span α) := (pieces spans windows).foldl add []

/-- Clipping to windows leaves the instants that lie in one of them. -/
theorem clip_spec (spans windows : List (Span α)) :
    Canonical (clip spans windows) ∧ ∀ x, Covers (clip spans windows) x ↔ Covers spans x ∧ Covers windows x := by
  have hmem : ∀ p, p ∈ pieces spans windows ↔ ∃ s ∈ spans, (∃ w ∈ windows, clipTo s w = p) ∧ p.lo < p.hi := by
    simp [pieces]
  obtain ⟨hcanonical, hcovers⟩ := Canonical.nil.foldl_add fun p hp => by
    obtain ⟨-, -, -, hpos⟩ := (hmem p).mp hp
    exact hpos
  refine ⟨hcanonical, fun x => ?_⟩
  rw [clip, hcovers]
  constructor
  · rintro (⟨p, hp, -⟩ | ⟨p, hp, hlo, hhi⟩)
    · cases hp
    · obtain ⟨s, hs, ⟨w, hw, rfl⟩, -⟩ := (hmem p).mp hp
      obtain ⟨hs', hw'⟩ := max_le_iff.mp hlo
      obtain ⟨hs'', hw''⟩ := lt_min_iff.mp hhi
      exact ⟨⟨s, hs, hs', hs''⟩, w, hw, hw', hw''⟩
  · rintro ⟨⟨s, hs, hs', hs''⟩, w, hw, hw', hw''⟩
    have hlo : (clipTo s w).lo ≤ x := max_le hs' hw'
    have hhi : x < (clipTo s w).hi := lt_min hs'' hw''
    exact .inr ⟨clipTo s w, (hmem _).mpr ⟨s, hs, ⟨w, hw, rfl⟩, hlo.trans_lt hhi⟩, hlo, hhi⟩

end Span
