import LiquidityMigration.Risk.Admission

/- The stop distance of an opening order, as judged and as reserved. The assessment measures it from the price the
   order names and the reference, the higher of the observed price and the account's entry price; the reservation
   leaves the entry price out. Each takes the worst of its prices and divides by its highest. `reaches_iff` says for
   which prices the reserved distance is no shorter than the judged one; `StaysWithin` keeps it from being longer. -/
namespace LiquidityMigration.Risk
open Numeric Portfolio Checks RowSums
open Std (ExtTreeMap)

/-- The share of the higher price that is lost at the stop, where the stop protects against both. -/
def stopShare (side : Side) (trigger low high : Exact) : Option Exact :=
  match side with
  | .buy => if trigger < low then some ((high - trigger) / high) else none
  | .sell => if high < trigger then some ((trigger - low) / high) else none

theorem readStop_ok {b : Binary64} {intent : Intent} {low high fraction : Exact} (hpos : 0 < high) :
    readStop b intent low high = .ok fraction ↔ ∃ trigger, intent.stopPrice b = .ok (some trigger) ∧
        stopShare intent.side trigger low high = some fraction := by
  have hdiv : ∀ x : Exact, checkedDiv x high = .ok (x / high) := fun x => if_neg hpos.ne'
  simp only [readStop, ok_iff]
  constructor
  · rintro ⟨stop, hstop, trigger, rfl, distance, hdistance, hfraction⟩
    refine ⟨trigger, hstop, ?_⟩
    rw [hdiv, Except.ok.injEq] at hfraction
    rw [← hfraction]
    unfold stopDistance at hdistance
    unfold stopShare
    cases hside : intent.side <;> simp only [hside] at hdistance ⊢ <;> split at hdistance <;> simp_all
  · rintro ⟨trigger, hstop, hshare⟩
    refine ⟨some trigger, hstop, trigger, rfl, ?_⟩
    unfold stopShare at hshare
    unfold stopDistance
    cases hside : intent.side <;> simp only [hside] at hshare ⊢ <;> split at hshare <;> simp_all

theorem readStop_toOption {b : Binary64} {intent : Intent} {low high trigger : Exact} (hpos : 0 < high)
    (htrigger : intent.stopPrice b = .ok (some trigger)) :
    (readStop b intent low high).toOption = stopShare intent.side trigger low high := by
  cases hstop : readStop b intent low high with
  | ok fraction =>
    obtain ⟨trigger', htrigger', hshare⟩ := (readStop_ok hpos).mp hstop
    obtain rfl : trigger = trigger' := by simpa [htrigger] using htrigger'
    exact hshare.symm
  | error reason =>
    cases hshare : stopShare intent.side trigger low high with
    | none => rfl
    | some fraction =>
      have hok := (readStop_ok hpos).mpr ⟨trigger, htrigger, hshare⟩
      rw [hstop] at hok
      cases hok

section
variable {trigger low low' high high' disaster fraction fraction' : Exact}

/-- With the disaster stop as the least of both, one distance reaches another when it is as long, or
when the disaster stop is. -/
theorem reach_iff : max fraction disaster ≤ max fraction' disaster ↔ fraction ≤ fraction' ∨ fraction ≤ disaster := by
  rw [max_le_iff, le_max_iff, and_iff_left (le_max_right _ _)]

theorem buyShare_le_iff (ht : 0 < trigger) (hh : 0 < high) (hh' : 0 < high') :
    (high - trigger) / high ≤ (high' - trigger) / high' ↔ high ≤ high' := by
  rw [div_le_div_iff₀ hh hh']
  constructor
  · intro h
    have hmul : trigger * high ≤ trigger * high' := by linarith
    exact le_of_mul_le_mul_left hmul ht
  · intro h
    have hmul := mul_le_mul_of_nonneg_left h ht.le
    linarith

theorem buyShare_le_disaster_iff (hh : 0 < high) :
    (high - trigger) / high ≤ disaster ↔ high * (1 - disaster) ≤ trigger := by
  rw [div_le_iff₀ hh]
  constructor <;> intro h <;> linarith

theorem buyShare_max_iff (e disaster : Exact) (ht : 0 < trigger) (hh : 0 < high) :
    (max high e - trigger) / max high e ≤ (high - trigger) / high ∨ (max high e - trigger) / max high e ≤ disaster ↔
      e ≤ high ∨ e * (1 - disaster) ≤ trigger := by
  have hmax : 0 < max high e := lt_max_of_lt_left hh
  rw [buyShare_le_iff ht hmax hh, buyShare_le_disaster_iff hmax, max_le_iff, and_iff_right le_rfl]
  by_cases he : e ≤ high
  · simp [he]
  · rw [max_eq_right (not_le.mp he).le]

theorem sellShare_le (ht : low ≤ trigger) (hh' : 0 < high') (hlow : low' ≤ low) (hhigh : high' ≤ high) :
    (trigger - low) / high ≤ (trigger - low') / high' :=
  div_le_div₀ (by linarith) (by linarith) hh' hhigh

end

/-- The prices an opening order is measured by. -/
structure StopPrices where
  (named observed entry : Option Exact)
  trigger : Exact
  named_pos : ∀ p ∈ named, 0 < p
  observed_pos : ∀ p ∈ observed, 0 < p
  entry_pos : ∀ p ∈ entry, 0 < p
  trigger_pos : 0 < trigger

namespace StopPrices
variable (p : StopPrices) (side : Side) (disaster : Exact)

/-- The higher of the last observed price and the account's entry price. -/
def reference : Option Exact := maxPrice p.observed p.entry

def judged : Option Exact := do
  let low ← minPrice p.named p.reference
  let high ← maxPrice p.named p.reference
  stopShare side p.trigger low high

def reserved : Option Exact := do
  let low ← minPrice p.named p.observed
  let high ← maxPrice p.named p.observed
  stopShare side p.trigger low high

/-- The entry price does not take the order further from its stop than the prices it is reserved by. -/
def Reaches : Prop :=
  (p.named.isSome ∨ p.observed.isSome) ∧
  match side with
  | .buy => (∀ o ∈ p.observed, p.trigger < o) ∧
      ∀ e ∈ p.entry, (∃ a ∈ p.named, e ≤ a) ∨ (∃ o ∈ p.observed, e ≤ o) ∨ e * (1 - disaster) ≤ p.trigger
  | .sell => p.observed.isSome ∨
      ∀ e ∈ p.entry, ∀ a ∈ p.named, a ≤ e ∨ p.trigger - e ≤ disaster * a

/-- The entry price does not bring the order nearer to its stop than the prices it is reserved by. -/
def StaysWithin : Prop :=
  match side with
  | .buy => True
  | .sell => ∀ e ∈ p.entry, (∃ r ∈ p.observed.or p.named, e ≤ r) ∨
      ∀ low ∈ minPrice p.named p.observed, ∀ high ∈ maxPrice p.named p.observed, p.trigger - low ≤ disaster * high

instance : Decidable (p.Reaches side disaster) :=
  match side with
  | .buy => inferInstanceAs (Decidable (_ ∧ _ ∧ _))
  | .sell => inferInstanceAs (Decidable (_ ∧ (_ ∨ _)))

instance : Decidable (p.StaysWithin side disaster) :=
  match side with
  | .buy => inferInstanceAs (Decidable True)
  | .sell => inferInstanceAs (Decidable (∀ e ∈ p.entry, _ ∨ _))

variable {p side disaster} {fraction : Exact}

/-- An order to buy is reserved at its judged distance unless the entry price is the highest of its
prices; then only the disaster stop can make up for it. -/
theorem buy_reaches_iff (h : p.judged .buy = some fraction) :
    p.Reaches .buy disaster ↔ ∃ f, p.reserved .buy = some f ∧ max fraction disaster ≤ max f disaster := by
  obtain ⟨named, observed, entry, trigger, hnamed, hobserved, hentry, htrigger⟩ := p
  simp only [reach_iff]
  rcases named with _ | a <;> rcases observed with _ | o <;> rcases entry with _ | e <;>
    simp only [judged, reserved, Reaches, reference, minPrice, maxPrice, stopShare] at *
  case none.none.none => simp at h
  case none.none.some => simp
  case none.some.none =>
    simp at h ⊢
    exact fun _ => .inl h.2.ge
  case none.some.some =>
    have := buyShare_max_iff e disaster htrigger (hobserved o rfl)
    simp at h ⊢
    rw [← h.2, this]
    simp
  case some.none.none =>
    simp at h ⊢
    exact ⟨h.1, .inl h.2.ge⟩
  case some.none.some =>
    have := buyShare_max_iff e disaster htrigger (hnamed a rfl)
    simp at h ⊢
    rw [← h.2, this, and_iff_right h.1.1]
  case some.some.none =>
    simp at h ⊢
    rw [and_iff_right h.1.1]
    exact (and_iff_left (.inl h.2.ge)).symm
  case some.some.some =>
    have := buyShare_max_iff e disaster htrigger (lt_max_of_lt_left (b := a) (c := o) (hnamed a rfl))
    simp at h ⊢
    rw [← max_assoc] at h
    rw [← h.2, this, and_iff_right h.1.1, le_max_iff, or_assoc]

/-- An order to sell is reserved at its judged distance at least where a price was observed. Where none
was, an entry price below the order's own is further from the stop. -/
theorem sell_reaches_iff (h : p.judged .sell = some fraction) :
    p.Reaches .sell disaster ↔ ∃ f, p.reserved .sell = some f ∧ max fraction disaster ≤ max f disaster := by
  obtain ⟨named, observed, entry, trigger, hnamed, hobserved, hentry, htrigger⟩ := p
  simp only [reach_iff]
  rcases named with _ | a <;> rcases observed with _ | o <;> rcases entry with _ | e <;>
    simp only [judged, reserved, Reaches, reference, minPrice, maxPrice, stopShare] at *
  case none.none.none => simp at h
  case none.none.some => simp
  case none.some.none =>
    simp at h ⊢
    exact ⟨h.1, .inl h.2.ge⟩
  case none.some.some =>
    simp at h ⊢
    refine ⟨h.1.1, .inl (h.2.ge.trans ?_)⟩
    exact sellShare_le (max_le h.1.1.le h.1.2.le) (hobserved o rfl) (le_max_left o e) (le_max_left o e)
  case some.none.none =>
    simp at h ⊢
    exact ⟨h.1, .inl h.2.ge⟩
  case some.none.some =>
    have ha := hnamed a rfl
    simp at h ⊢
    rw [← h.2, and_iff_right h.1.1]
    by_cases hle : a ≤ e
    · have : (trigger - a) / e ≤ (trigger - a) / a := sellShare_le h.1.1.le ha le_rfl hle
      simp [hle, this]
    · have hlt := not_le.mp hle
      have hnear : ¬ trigger - e ≤ trigger - a := by linarith
      rw [min_eq_right hlt.le, max_eq_left hlt.le, div_le_div_iff_of_pos_right ha, div_le_iff₀ ha]
      simp only [hle, hnear, false_or, sub_le_iff_le_add]
  case some.some.none =>
    simp at h ⊢
    exact ⟨h.1, .inl h.2.ge⟩
  case some.some.some =>
    simp at h ⊢
    refine ⟨⟨h.1.1, h.1.2.1⟩, .inl (h.2.ge.trans ?_)⟩
    apply sellShare_le
    · exact (min_le_left a _).trans h.1.1.le
    · exact lt_max_of_lt_left (hnamed a rfl)
    · exact min_le_min_left a (le_max_left o e)
    · exact max_le_max_left a (le_max_left o e)

theorem reaches_iff (h : p.judged side = some fraction) :
    p.Reaches side disaster ↔ ∃ f, p.reserved side = some f ∧ max fraction disaster ≤ max f disaster := by
  cases side with
  | buy => exact buy_reaches_iff h
  | sell => exact sell_reaches_iff h

theorem buy_reserved_le {f : Exact} (h : p.judged .buy = some fraction) (hf : p.reserved .buy = some f) :
    f ≤ fraction := by
  obtain ⟨named, observed, entry, trigger, hnamed, hobserved, hentry, htrigger⟩ := p
  rcases named with _ | a <;> rcases observed with _ | o <;> rcases entry with _ | e <;>
    simp [judged, reserved, reference, minPrice, maxPrice, stopShare] at h hf
  case none.some.none => exact (hf.2.symm.trans h.2).le
  case none.some.some =>
    have ho := hobserved o rfl
    rw [← hf.2, ← h.2, buyShare_le_iff htrigger ho (lt_max_of_lt_left ho)]
    exact le_max_left o e
  case some.none.none => exact (hf.2.symm.trans h.2).le
  case some.none.some =>
    have ha := hnamed a rfl
    rw [← hf.2, ← h.2, buyShare_le_iff htrigger ha (lt_max_of_lt_left ha)]
    exact le_max_left a e
  case some.some.none => exact (hf.2.symm.trans h.2).le
  case some.some.some =>
    have ha := hnamed a rfl
    rw [← hf.2, ← h.2, buyShare_le_iff htrigger (lt_max_of_lt_left ha) (lt_max_of_lt_left ha)]
    exact max_le_max_left a (le_max_left o e)

theorem sell_reserved_le {f : Exact} (hwithin : p.StaysWithin .sell disaster) (h : p.judged .sell = some fraction)
    (hf : p.reserved .sell = some f) : f ≤ fraction ∨ f ≤ disaster := by
  obtain ⟨named, observed, entry, trigger, hnamed, hobserved, hentry, htrigger⟩ := p
  rcases named with _ | a <;> rcases observed with _ | o <;> rcases entry with _ | e <;>
    simp [judged, reserved, StaysWithin, reference, minPrice, maxPrice, stopShare] at h hf hwithin
  case none.some.none => exact .inl (hf.2.symm.trans h.2).le
  case none.some.some =>
    rcases hwithin with hle | hfar
    · rw [max_eq_left hle] at h
      exact .inl (hf.2.symm.trans h.2).le
    · right
      rw [← hf.2, div_le_iff₀ (hobserved o rfl)]
      linarith
  case some.none.none => exact .inl (hf.2.symm.trans h.2).le
  case some.none.some =>
    have ha := hnamed a rfl
    rcases hwithin with hle | hfar
    · rw [min_eq_right hle, max_eq_left hle] at h
      rw [← hf.2, ← h.2]
      exact .inl (sellShare_le hf.1.le ha hle le_rfl)
    · right
      rw [← hf.2, div_le_iff₀ ha]
      linarith
  case some.some.none => exact .inl (hf.2.symm.trans h.2).le
  case some.some.some =>
    rcases hwithin with hle | hfar
    · rw [max_eq_left hle] at h
      exact .inl (hf.2.symm.trans h.2).le
    · right
      rw [← hf.2, div_le_iff₀ (lt_max_of_lt_left (hnamed a rfl))]
      linarith

theorem StaysWithin.reserved_le {f : Exact} (hwithin : p.StaysWithin side disaster) (h : p.judged side = some fraction)
    (hf : p.reserved side = some f) : max f disaster ≤ max fraction disaster := by
  rw [reach_iff]
  cases side with
  | buy => exact .inl (buy_reserved_le h hf)
  | sell => exact sell_reserved_le hwithin h hf

end StopPrices

end LiquidityMigration.Risk
