import Mathlib

/- Average-cost accounting of one signed position, over any ordered field. A `Lot` is a signed quantity and the
   absolute cost of its units; a `trade` opens, grows, reduces, closes or flips it, and reducing relieves cost in
   proportion. Realized amounts are cash flow plus the signed cost still carried (`Lot.trade_realized`), and the cost
   of a held lot stays between the lowest and the highest price that entered it (`Lot.Between.trade`). -/
namespace AverageCost
open List

variable {K : Type} [Field K] [LinearOrder K]

structure Lot (K : Type) where
  (qty cost : K)
  deriving DecidableEq

def Lot.flat : Lot K := ⟨0, 0⟩

/-- A trade of `d` units at the price `p`: what is held after it, and what it realizes. -/
def Lot.trade (l : Lot K) (d p : K) : Lot K × K :=
  if l.qty = 0 then (⟨d, |d| * p⟩, 0)
  else if 0 < l.qty * d then (⟨l.qty + d, l.cost + |d| * p⟩, 0)
  else
    let closed := min |d| |l.qty|
    let relieved := l.cost * closed / |l.qty|
    let gain := closed * p - relieved
    let amount := if 0 < l.qty then gain else -gain
    if |d| < |l.qty| then (⟨l.qty + d, l.cost - relieved⟩, amount)
    else if |d| = |l.qty| then (.flat, amount)
    else (⟨l.qty + d, (|d| - |l.qty|) * p⟩, amount)

/-- The prices of the units held, after a trade: those of the trades that entered
the position since it was last flat or changed sign. -/
def entered (l : Lot K) (d p : K) (prices : List K) : List K :=
  if l.qty = 0 then [p]
  else if 0 < l.qty * d then p :: prices
  else if |d| < |l.qty| then prices
  else if |d| = |l.qty| then []
  else [p]

def Lot.signedCost (l : Lot K) : K := if 0 < l.qty then l.cost else if l.qty < 0 then -l.cost else 0

variable {l : Lot K}

theorem Lot.signedCost_pos (h : 0 < l.qty) : l.signedCost = l.cost := by rw [signedCost, if_pos h]

theorem Lot.signedCost_neg (h : l.qty < 0) : l.signedCost = -l.cost := by
  rw [signedCost, if_neg (not_lt.mpr h.le), if_pos h]

theorem Lot.signedCost_zero (h : l.qty = 0) : l.signedCost = 0 := by
  rw [signedCost, h, if_neg (lt_irrefl _), if_neg (lt_irrefl _)]

def Lot.Sound (l : Lot K) : Prop := (l.qty = 0 → l.cost = 0) ∧ (l.qty ≠ 0 → 0 < l.cost)

/-- The cost of a held lot lies between the bounds of the prices that entered it. -/
def Lot.Between (l : Lot K) (prices : List K) : Prop :=
  l.qty ≠ 0 → prices ≠ [] ∧ ∀ lo hi, (∀ p ∈ prices, lo ≤ p ∧ p ≤ hi) → lo * |l.qty| ≤ l.cost ∧ l.cost ≤ hi * |l.qty|

variable [IsStrictOrderedRing K]

/-- On opposite sides the smaller amount is taken off the larger one. -/
theorem abs_add_of_mul_neg {q d : K} (h : q * d < 0) : |q + d| = abs (|q| - |d|) := by
  obtain ⟨hq, hd⟩ | ⟨hq, hd⟩ := mul_neg_iff.mp h
  · rw [abs_of_pos hq, abs_of_neg hd, sub_neg_eq_add]
  · rw [abs_of_neg hq, abs_of_pos hd, ← abs_neg, neg_add']

theorem Lot.trade_cases (l : Lot K) {d : K} (p : K) (hd : d ≠ 0) (prices : List K) :
    (l.qty = 0 ∧ l.trade d p = (⟨d, |d| * p⟩, 0) ∧ entered l d p prices = [p]) ∨
    (0 < l.qty * d ∧ l.trade d p = (⟨l.qty + d, l.cost + |d| * p⟩, 0) ∧ entered l d p prices = p :: prices) ∨
    (l.qty * d < 0 ∧ |d| < |l.qty| ∧ l.trade d p = (⟨l.qty + d, l.cost - l.cost * |d| / |l.qty|⟩,
        if 0 < l.qty then |d| * p - l.cost * |d| / |l.qty| else -(|d| * p - l.cost * |d| / |l.qty|)) ∧
      entered l d p prices = prices) ∨
    (l.qty * d < 0 ∧ |d| = |l.qty| ∧
      l.trade d p = (.flat, if 0 < l.qty then |d| * p - l.cost else -(|d| * p - l.cost)) ∧
      entered l d p prices = []) ∨
    (l.qty * d < 0 ∧ |l.qty| < |d| ∧ l.trade d p = (⟨l.qty + d, (|d| - |l.qty|) * p⟩,
        if 0 < l.qty then |l.qty| * p - l.cost else -(|l.qty| * p - l.cost)) ∧
      entered l d p prices = [p]) := by
  by_cases hq : l.qty = 0
  · exact .inl ⟨hq, by simp only [trade, hq, if_true], by simp only [entered, hq, if_true]⟩
  have habs : |l.qty| ≠ 0 := abs_ne_zero.mpr hq
  by_cases hs : 0 < l.qty * d
  · exact .inr (.inl ⟨hs, by simp [trade, hq, hs],
      by simp only [entered, hq, hs, if_true, if_false]⟩)
  have hopp : l.qty * d < 0 := lt_of_le_of_ne (not_lt.mp hs) (mul_ne_zero hq hd)
  have hcancel : l.cost * |l.qty| / |l.qty| = l.cost := by field_simp
  rcases lt_trichotomy |d| |l.qty| with hlt | heq | hgt
  · refine .inr (.inr (.inl ⟨hopp, hlt, ?_, ?_⟩))
    · simp [trade, hq, hs, hlt, min_eq_left hlt.le]
    · simp [entered, hq, hs, hlt]
  · refine .inr (.inr (.inr (.inl ⟨hopp, heq, ?_, ?_⟩)))
    · simp [trade, hq, hs, heq, min_self, hcancel]
    · simp [entered, hq, hs, heq]
  · have hnlt : ¬ |d| < |l.qty| := not_lt.mpr hgt.le
    have hne : ¬ |d| = |l.qty| := hgt.ne'
    refine .inr (.inr (.inr (.inr ⟨hopp, hgt, ?_, ?_⟩)))
    · simp [trade, hq, hs, hnlt, hne, min_eq_right hgt.le, hcancel]
    · simp [entered, hq, hs, hnlt, hne]

variable {d p : K}

theorem Lot.trade_qty (hd : d ≠ 0) : (l.trade d p).1.qty = l.qty + d := by
  obtain ⟨hq, h, _⟩ | ⟨_, h, _⟩ | ⟨_, _, h, _⟩ | ⟨hopp, heq, h, _⟩ | ⟨_, _, h, _⟩ := l.trade_cases p hd []
  · rw [h, hq, zero_add]
  · rw [h]
  · rw [h]
  · rw [h]
    have hsum := abs_add_of_mul_neg hopp
    rw [heq, sub_self, abs_zero] at hsum
    exact (abs_eq_zero.mp hsum).symm
  · rw [h]

/-- What a trade realizes is its cash flow and the change of the cost carried. -/
theorem Lot.trade_realized (hd : d ≠ 0) : (l.trade d p).2 + l.signedCost = -(d * p) + (l.trade d p).1.signedCost := by
  have hqty : (l.trade d p).1.qty = l.qty + d := trade_qty hd
  obtain ⟨hq, h, _⟩ | ⟨hs, h, _⟩ | ⟨hopp, hlt, h, _⟩ | ⟨hopp, heq, h, _⟩ | ⟨hopp, hgt, h, _⟩ := l.trade_cases p hd []
  · rw [signedCost_zero hq, h]
    rcases lt_or_gt_of_ne hd with hd | hd
    · rw [signedCost_neg (l := ⟨d, |d| * p⟩) hd, abs_of_neg hd]
      ring
    · rw [signedCost_pos (l := ⟨d, |d| * p⟩) hd, abs_of_pos hd]
      ring
  · rw [h] at hqty ⊢
    obtain ⟨hq, hd⟩ | ⟨hq, hd⟩ := mul_pos_iff.mp hs
    · rw [signedCost_pos hq, signedCost_pos (by rw [hqty]; linarith), abs_of_pos hd]
      ring
    · rw [signedCost_neg hq, signedCost_neg (by rw [hqty]; linarith), abs_of_neg hd]
      ring
  · rw [h] at hqty ⊢
    obtain ⟨hq, hd⟩ | ⟨hq, hd⟩ := mul_neg_iff.mp hopp
    · rw [abs_of_neg hd, abs_of_pos hq] at hlt
      rw [signedCost_pos hq, signedCost_pos (by rw [hqty]; linarith), if_pos hq, abs_of_neg hd]
      ring
    · rw [abs_of_pos hd, abs_of_neg hq] at hlt
      rw [signedCost_neg hq, signedCost_neg (by rw [hqty]; linarith), if_neg (not_lt.mpr hq.le), abs_of_pos hd]
      ring
  · rw [h, signedCost_zero (l := .flat) rfl]
    obtain ⟨hq, hd⟩ | ⟨hq, hd⟩ := mul_neg_iff.mp hopp
    · rw [signedCost_pos hq, if_pos hq, abs_of_neg hd]
      ring
    · rw [signedCost_neg hq, if_neg (not_lt.mpr hq.le), abs_of_pos hd]
      ring
  · rw [h] at hqty ⊢
    obtain ⟨hq, hd⟩ | ⟨hq, hd⟩ := mul_neg_iff.mp hopp
    · rw [abs_of_neg hd, abs_of_pos hq] at hgt
      rw [signedCost_pos hq, signedCost_neg (by rw [hqty]; linarith), if_pos hq, abs_of_neg hd, abs_of_pos hq]
      ring
    · rw [abs_of_pos hd, abs_of_neg hq] at hgt
      rw [signedCost_neg hq, signedCost_pos (by rw [hqty]; linarith), if_neg (not_lt.mpr hq.le), abs_of_pos hd,
        abs_of_neg hq]
      ring

theorem Lot.Sound.trade (h : l.Sound) (hd : d ≠ 0) (hp : 0 < p) : (l.trade d p).1.Sound := by
  have hdpos : 0 < |d| := abs_pos.mpr hd
  obtain ⟨hq, ht, _⟩ | ⟨hs, ht, _⟩ | ⟨hopp, hlt, ht, _⟩ | ⟨_, _, ht, _⟩ | ⟨_, hgt, ht, _⟩ := l.trade_cases p hd []
  · rw [ht]
    exact ⟨fun h0 => absurd h0 hd, fun _ => mul_pos hdpos hp⟩
  · rw [ht]
    have hq : l.qty ≠ 0 := left_ne_zero_of_mul hs.ne'
    refine ⟨fun h0 => absurd ?_ hs.not_gt, fun _ => add_pos (h.2 hq) (mul_pos hdpos hp)⟩
    rw [eq_neg_of_add_eq_zero_right h0, mul_neg, neg_lt_zero]
    exact mul_self_pos.mpr hq
  · rw [ht]
    have hq : l.qty ≠ 0 := left_ne_zero_of_mul hopp.ne
    have hqpos : 0 < |l.qty| := abs_pos.mpr hq
    have hrelief : l.cost * |d| / |l.qty| < l.cost := by
      rw [div_lt_iff₀ hqpos]
      exact mul_lt_mul_of_pos_left hlt (h.2 hq)
    refine ⟨fun h0 => absurd hlt ?_, fun _ => sub_pos.mpr hrelief⟩
    rw [eq_neg_of_add_eq_zero_right h0, abs_neg]
    exact lt_irrefl _
  · rw [ht]
    exact ⟨fun _ => rfl, fun h0 => absurd rfl h0⟩
  · rw [ht]
    refine ⟨fun h0 => absurd hgt ?_, fun _ => mul_pos (sub_pos.mpr hgt) hp⟩
    rw [eq_neg_of_add_eq_zero_right h0, abs_neg]
    exact lt_irrefl _

theorem Lot.Between.trade {prices : List K} (h : l.Between prices) (hd : d ≠ 0) :
    (l.trade d p).1.Between (entered l d p prices) := by
  have hdpos : 0 < |d| := abs_pos.mpr hd
  obtain ⟨hq, ht, he⟩ | ⟨hs, ht, he⟩ | ⟨hopp, hlt, ht, he⟩ | ⟨_, _, ht, _⟩ | ⟨hopp, hgt, ht, he⟩ :=
    l.trade_cases p hd prices
  · rw [ht, he]
    intro _
    refine ⟨by simp, fun lo hi hb => ?_⟩
    obtain ⟨hlo, hhi⟩ := hb p (by simp)
    rw [mul_comm |d| p]
    exact ⟨mul_le_mul_of_nonneg_right hlo hdpos.le, mul_le_mul_of_nonneg_right hhi hdpos.le⟩
  · rw [ht, he]
    have hq : l.qty ≠ 0 := left_ne_zero_of_mul hs.ne'
    have habs : |l.qty + d| = |l.qty| + |d| :=
      abs_add_eq_add_abs_iff _ _ |>.mpr
        ((mul_pos_iff.mp hs).imp (And.imp le_of_lt le_of_lt) (And.imp le_of_lt le_of_lt))
    intro _
    refine ⟨by simp, fun lo hi hb => ?_⟩
    obtain ⟨hlo, hhi⟩ := hb p (by simp)
    obtain ⟨hl, hu⟩ := (h hq).2 lo hi (fun p hp => hb p (by simp [hp]))
    have h1 := mul_le_mul_of_nonneg_right hlo hdpos.le
    have h2 := mul_le_mul_of_nonneg_right hhi hdpos.le
    show lo * |l.qty + d| ≤ l.cost + |d| * p ∧ l.cost + |d| * p ≤ hi * |l.qty + d|
    rw [habs]
    constructor <;> linarith
  · rw [ht, he]
    have hq : l.qty ≠ 0 := left_ne_zero_of_mul hopp.ne
    have hqpos : 0 < |l.qty| := abs_pos.mpr hq
    have habs : |l.qty + d| = |l.qty| - |d| := by
      rw [abs_add_of_mul_neg hopp, abs_of_pos (sub_pos.mpr hlt)]
    intro _
    refine ⟨(h hq).1, fun lo hi hb => ?_⟩
    obtain ⟨hl, hu⟩ := (h hq).2 lo hi hb
    -- what is left is the held share of the cost
    have hshare : l.cost - l.cost * |d| / |l.qty| = l.cost / |l.qty| * (|l.qty| - |d|) := by field_simp
    have hrest : 0 ≤ |l.qty| - |d| := (sub_pos.mpr hlt).le
    show lo * |l.qty + d| ≤ l.cost - _ ∧ l.cost - _ ≤ hi * |l.qty + d|
    rw [habs, hshare]
    exact ⟨mul_le_mul_of_nonneg_right ((le_div_iff₀ hqpos).mpr hl) hrest,
      mul_le_mul_of_nonneg_right ((div_le_iff₀ hqpos).mpr hu) hrest⟩
  · rw [ht]
    exact fun h0 => absurd rfl h0
  · rw [ht, he]
    have habs : |l.qty + d| = |d| - |l.qty| := by
      rw [abs_add_of_mul_neg hopp, abs_sub_comm, abs_of_pos (sub_pos.mpr hgt)]
    have hrest : 0 ≤ |d| - |l.qty| := (sub_pos.mpr hgt).le
    intro _
    refine ⟨by simp, fun lo hi hb => ?_⟩
    obtain ⟨hlo, hhi⟩ := hb p (by simp)
    show lo * |l.qty + d| ≤ (|d| - |l.qty|) * p ∧ (|d| - |l.qty|) * p ≤ hi * |l.qty + d|
    rw [habs, mul_comm (|d| - |l.qty|) p]
    exact ⟨mul_le_mul_of_nonneg_right hlo hrest, mul_le_mul_of_nonneg_right hhi hrest⟩

theorem Lot.Between.average {prices : List K} (h : l.Between prices) (hq : l.qty ≠ 0) :
    ∃ lo ∈ prices, ∃ hi ∈ prices, (∀ p ∈ prices, lo ≤ p ∧ p ≤ hi) ∧ lo ≤ l.cost / |l.qty| ∧ l.cost / |l.qty| ≤ hi := by
  obtain ⟨hne, hbounds⟩ := h hq
  have hqpos : 0 < |l.qty| := abs_pos.mpr hq
  have hset : prices.toFinset.Nonempty := toFinset_nonempty_iff prices |>.mpr hne
  obtain ⟨lo, hlo, hmin⟩ := prices.toFinset.exists_min_image id hset
  obtain ⟨hi, hhi, hmax⟩ := prices.toFinset.exists_max_image id hset
  have hall : ∀ p ∈ prices, lo ≤ p ∧ p ≤ hi := by
    intro p hp
    have := mem_toFinset.mpr hp
    exact ⟨hmin p this, hmax p this⟩
  obtain ⟨hl, hu⟩ := hbounds lo hi hall
  exact ⟨lo, mem_toFinset.mp hlo, hi, mem_toFinset.mp hhi, hall,
    (le_div_iff₀ hqpos).mpr hl, (div_le_iff₀ hqpos).mpr hu⟩

/-- The books of a position: what is held, the prices that entered it, and what
has been realized. -/
structure Books (K : Type) where
  lot : Lot K
  prices : List K
  realized : K

def Books.new : Books K := ⟨.flat, [], 0⟩

def Books.trade (b : Books K) (d p : K) : Books K :=
  ⟨(b.lot.trade d p).1, entered b.lot d p b.prices, b.realized + (b.lot.trade d p).2⟩

/-- The books after a list of trades, each a signed quantity and a price. -/
def Books.run (trades : List (K × K)) : Books K := trades.foldl (fun b t => b.trade t.1 t.2) .new

omit [IsStrictOrderedRing K] in
theorem Books.run_concat (trades : List (K × K)) (d p : K) : run (trades ++ [(d, p)]) = (run trades).trade d p := by
  rw [run, foldl_append]
  rfl

/-- Quantity, identity, sign and average of a position after any trades. -/
structure Books.Balanced (b : Books K) (trades : List (K × K)) : Prop where
  qty : b.lot.qty = (trades.map (·.1)).sum
  realized : b.realized = (trades.map (fun t => -(t.1 * t.2))).sum + b.lot.signedCost
  sound : b.lot.Sound
  between : b.lot.Between b.prices

theorem Books.run_balanced {trades : List (K × K)} (h : ∀ t ∈ trades, t.1 ≠ 0 ∧ 0 < t.2) :
    (run trades).Balanced trades := by
  induction trades using reverseRecOn with
  | nil =>
    refine ⟨rfl, ?_, ⟨fun _ => rfl, fun h0 => absurd rfl h0⟩, fun h0 => absurd rfl h0⟩
    show (0 : K) = 0 + Lot.signedCost .flat
    rw [Lot.signedCost_zero (l := .flat) rfl, add_zero]
  | append_singleton trades t ih =>
    obtain ⟨d, p⟩ := t
    have hb := ih fun t ht => h t (by simp [ht])
    obtain ⟨hd, hp⟩ := h (d, p) (by simp)
    rw [run_concat]
    refine ⟨?_, ?_, hb.sound.trade hd hp, hb.between.trade hd⟩
    · show ((run trades).lot.trade d p).1.qty = _
      rw [Lot.trade_qty hd, hb.qty, map_append, sum_append]
      simp
    · have hstep := Lot.trade_realized (l := (run trades).lot) (p := p) hd
      show (run trades).realized + ((run trades).lot.trade d p).2 = _ + ((run trades).lot.trade d p).1.signedCost
      rw [hb.realized, map_append, sum_append]
      simp only [map_cons, map_nil, sum_cons, sum_nil]
      linarith

end AverageCost
