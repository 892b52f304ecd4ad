import LiquidityMigration.Lib.AverageCost

/- How finely relief in proportion divides a cost. Quantities and prices are
   multiples of a unit `u`. Closing part of a position divides its cost by the size
   of the position in units, and nothing else divides it: what is carried, and what
   a trade realizes, are multiples of `u * u` once multiplied by the sizes of the
   positions from which part was closed (`Lot.trade_divided`, `divisor_run`). -/
namespace AverageCost
open List Books

section Multiples
variable {K : Type} [Field K] {u v x y : K}

abbrev multiples (u : K) : AddSubgroup K := AddSubgroup.zmultiples u

theorem mem_multiples : x ∈ multiples u ↔ ∃ n : ℤ, x = n * u := by
  simp only [AddSubgroup.mem_zmultiples_iff, zsmul_eq_mul, eq_comm]

theorem mul_mem_multiples (hx : x ∈ multiples u) (hy : y ∈ multiples v) : x * y ∈ multiples (u * v) := by
  obtain ⟨n, rfl⟩ := mem_multiples.mp hx
  obtain ⟨m, rfl⟩ := mem_multiples.mp hy
  apply mem_multiples.mpr
  refine ⟨n * m, ?_⟩
  push_cast
  ring

theorem whole_mul_mem (hx : x ∈ multiples (1 : K)) (hy : y ∈ multiples v) : x * y ∈ multiples v := by
  have h := mul_mem_multiples hx hy
  rwa [one_mul] at h

theorem div_unit_whole (hu : u ≠ 0) (hx : x ∈ multiples u) : x / u ∈ multiples (1 : K) := by
  obtain ⟨n, rfl⟩ := mem_multiples.mp hx
  apply mem_multiples.mpr
  exact ⟨n, by field_simp⟩

theorem one_mem_whole : (1 : K) ∈ multiples (1 : K) := AddSubgroup.mem_zmultiples 1

theorem mul_ite_neg_mem {c : Prop} [Decidable c] {a : K} {s : AddSubgroup K} (h : a * x ∈ s) :
    a * (if c then x else -x) ∈ s := by
  split
  · exact h
  · rw [mul_neg]
    exact neg_mem h

variable [LinearOrder K] [IsStrictOrderedRing K]

omit [IsStrictOrderedRing K] in
theorem abs_mem_multiples (hx : x ∈ multiples u) : |x| ∈ multiples u := by
  rcases abs_choice x with h | h
  · rw [h]
    exact hx
  · rw [h]
    exact neg_mem hx

theorem unit_le_abs (hu : 0 < u) (hx : x ∈ multiples u) (h0 : x ≠ 0) : u ≤ |x| := by
  obtain ⟨n, rfl⟩ := mem_multiples.mp hx
  have hn : n ≠ 0 := by
    intro hn
    apply h0
    rw [hn, Int.cast_zero, zero_mul]
  have h1 : (1 : K) ≤ |(n : K)| := by
    rw [← Int.cast_abs]
    exact_mod_cast Int.one_le_abs hn
  calc u = 1 * u := (one_mul u).symm
    _ ≤ |(n : K)| * u := mul_le_mul_of_nonneg_right h1 hu.le
    _ = |(n : K) * u| := by rw [abs_mul, abs_of_pos hu]

end Multiples

variable {K : Type} [Field K] [LinearOrder K]

def Reduces (q d : K) : Prop := q ≠ 0 ∧ ¬ 0 < q * d ∧ |d| < |q|
  deriving Decidable

/-- The divisor a trade brings with it: what the cost is divided by already, and the
size in units of a position from which part is closed. -/
def dividedBy (u q d m : K) : K := if Reduces q d then m * (|q| / u) else m

/-- The position and the divisor of its cost, after a trade. Nothing is left of the
divisor where nothing is left of the cost. -/
def divisorStep (u : K) (s : K × K) (d : K) : K × K :=
  (s.1 + d,
    if s.1 = 0 then 1
    else if 0 < s.1 * d then s.2
    else if |d| < |s.1| then s.2 * (|s.1| / u)
    else 1)

/-- The product of the sizes, in units, from which part was closed since the
position was last flat or changed sign; with the position. -/
def divisor (u : K) (quantities : List K) : K × K := quantities.foldl (divisorStep u) (0, 1)

variable {u d p m : K} {l : Lot K}

theorem divisor_concat (u : K) (quantities : List K) (d : K) :
    divisor u (quantities ++ [d]) = divisorStep u (divisor u quantities) d := by
  rw [divisor, foldl_append]
  rfl

variable [IsStrictOrderedRing K]

/-- The cost carried after a trade, and what the trade realizes, are multiples of
`u * u` up to the divisor. -/
theorem Lot.trade_divided (hu : 0 < u) (hd0 : d ≠ 0) (hq : l.qty ∈ multiples u) (hd : d ∈ multiples u)
    (hp : p ∈ multiples u) (hm : m ∈ multiples (1 : K)) (hc : m * l.cost ∈ multiples (u * u)) :
    (divisorStep u (l.qty, m) d).2 * (l.trade d p).1.cost ∈ multiples (u * u) ∧
    dividedBy u l.qty d m * (l.trade d p).2 ∈ multiples (u * u) := by
  have hdp : |d| * p ∈ multiples (u * u) := mul_mem_multiples (abs_mem_multiples hd) hp
  have hqp : |l.qty| * p ∈ multiples (u * u) := mul_mem_multiples (abs_mem_multiples hq) hp
  have hgain : ∀ {a x c : K}, a ∈ multiples (1 : K) → x ∈ multiples (u * u) → a * c ∈ multiples (u * u) →
      a * (if 0 < l.qty then x - c else -(x - c)) ∈ multiples (u * u) := by
    intro a x c ha hx hc
    apply mul_ite_neg_mem
    rw [mul_sub]
    exact sub_mem (whole_mul_mem ha hx) hc
  obtain ⟨h0, ht, _⟩ | ⟨hs, ht, _⟩ | ⟨hopp, hlt, ht, _⟩ | ⟨hopp, heq, ht, _⟩ | ⟨hopp, hgt, ht, _⟩ :=
    l.trade_cases p hd0 []
  · rw [ht]
    have hstep : (divisorStep u (l.qty, m) d).2 = 1 := by simp [divisorStep, h0]
    refine ⟨?_, by simp⟩
    rw [hstep, one_mul]
    exact hdp
  · rw [ht]
    have h0 : l.qty ≠ 0 := left_ne_zero_of_mul hs.ne'
    have hstep : (divisorStep u (l.qty, m) d).2 = m := by simp [divisorStep, h0, hs]
    refine ⟨?_, by simp⟩
    rw [hstep, mul_add]
    exact add_mem hc (whole_mul_mem hm hdp)
  · have h0 := left_ne_zero_of_mul hopp.ne
    have hs := hopp.not_gt
    have hqpos : |l.qty| ≠ 0 := abs_ne_zero.mpr h0
    have hstep : (divisorStep u (l.qty, m) d).2 = m * (|l.qty| / u) := by simp [divisorStep, h0, hs, hlt]
    have hby : dividedBy u l.qty d m = m * (|l.qty| / u) := if_pos ⟨h0, hs, hlt⟩
    have hsize := div_unit_whole hu.ne' (abs_mem_multiples hq)
    have hpart := div_unit_whole hu.ne' (abs_mem_multiples hd)
    -- the size cancels the division of the relief
    have hcost : m * (|l.qty| / u) * (l.cost * |d| / |l.qty|) = |d| / u * (m * l.cost) := by field_simp
    have hrelief : m * (|l.qty| / u) * (l.cost * |d| / |l.qty|) ∈ multiples (u * u) := by
      rw [hcost]
      exact whole_mul_mem hpart hc
    have hwhole : m * (|l.qty| / u) ∈ multiples (1 : K) := whole_mul_mem hm hsize
    have hheld : m * (|l.qty| / u) * l.cost ∈ multiples (u * u) := by
      have hswap : m * (|l.qty| / u) * l.cost = |l.qty| / u * (m * l.cost) := by ring
      rw [hswap]
      exact whole_mul_mem hsize hc
    rw [ht, hstep, hby]
    refine ⟨?_, ?_⟩
    · rw [mul_sub]
      exact sub_mem hheld hrelief
    · exact hgain hwhole hdp hrelief
  · have h0 := left_ne_zero_of_mul hopp.ne
    have hs := hopp.not_gt
    have hstep : (divisorStep u (l.qty, m) d).2 = 1 := by simp [divisorStep, h0, hs, heq]
    have hby : dividedBy u l.qty d m = m := if_neg fun h => absurd h.2.2 (by rw [heq]; exact lt_irrefl _)
    rw [ht, hstep, hby]
    exact ⟨by simp [Lot.flat], hgain hm hdp hc⟩
  · have h0 := left_ne_zero_of_mul hopp.ne
    have hs := hopp.not_gt
    have hnlt : ¬ |d| < |l.qty| := not_lt.mpr hgt.le
    have hstep : (divisorStep u (l.qty, m) d).2 = 1 := by simp [divisorStep, h0, hs, hnlt]
    have hby : dividedBy u l.qty d m = m := if_neg fun h => hnlt h.2.2
    rw [ht, hstep, hby]
    refine ⟨?_, ?_⟩
    · rw [one_mul, sub_mul]
      exact sub_mem hdp hqp
    · exact hgain hm hqp hc

theorem dividedBy_whole (hu : 0 < u) {q : K} (hq : q ∈ multiples u) (hm : m ∈ multiples (1 : K)) (h1 : 1 ≤ m) :
    dividedBy u q d m ∈ multiples (1 : K) ∧ m ≤ dividedBy u q d m := by
  unfold dividedBy
  split
  · next h =>
    have hsize : 1 ≤ |q| / u := (one_le_div₀ hu).mpr (unit_le_abs hu hq h.1)
    refine ⟨whole_mul_mem hm (div_unit_whole hu.ne' (abs_mem_multiples hq)), ?_⟩
    exact le_mul_of_one_le_right (zero_le_one.trans h1) hsize
  · exact ⟨hm, le_refl m⟩

omit [IsStrictOrderedRing K] in
theorem divisorStep_eq (u : K) (s : K × K) (d : K) :
    (divisorStep u s d).2 = dividedBy u s.1 d s.2 ∨ (divisorStep u s d).2 = 1 := by
  unfold divisorStep dividedBy Reduces
  by_cases h0 : s.1 = 0
  · exact .inr (by simp [h0])
  · by_cases hs : 0 < s.1 * d
    · exact .inl (by simp [h0, hs])
    · by_cases hlt : |d| < |s.1|
      · exact .inl (by simp [h0, hs, hlt])
      · exact .inr (by simp [h0, hs, hlt])

/-- What is known of the cost of a lot, and of its divisor. -/
structure Lot.Divided (l : Lot K) (u : K) (s : K × K) : Prop where
  position : s.1 = l.qty
  qty : l.qty ∈ multiples u
  whole : s.2 ∈ multiples (1 : K)
  one_le : 1 ≤ s.2
  cost : s.2 * l.cost ∈ multiples (u * u)

theorem Lot.Divided.trade {s : K × K} (h : l.Divided u s) (hu : 0 < u) (hd0 : d ≠ 0) (hd : d ∈ multiples u)
    (hp : p ∈ multiples u) : (l.trade d p).1.Divided u (divisorStep u s d) := by
  obtain ⟨q, m⟩ := s
  obtain ⟨hpos, hq, hm, h1, hc⟩ := h
  dsimp only at hpos hm h1 hc
  subst hpos
  have hstep := (Lot.trade_divided hu hd0 hq hd hp hm hc).1
  obtain ⟨hwhole, hle⟩ := dividedBy_whole (d := d) hu hq hm h1
  refine ⟨(Lot.trade_qty hd0).symm, ?_, ?_, ?_, hstep⟩
  · rw [Lot.trade_qty hd0]
    exact add_mem hq hd
  · obtain h | h := divisorStep_eq u (l.qty, m) d
    · rw [h]
      exact hwhole
    · rw [h]
      exact one_mem_whole
  · obtain h | h := divisorStep_eq u (l.qty, m) d
    · rw [h]
      exact h1.trans hle
    · rw [h]

theorem divisor_run (hu : 0 < u) {trades : List (K × K)}
    (h : ∀ t ∈ trades, t.1 ≠ 0 ∧ t.1 ∈ multiples u ∧ t.2 ∈ multiples u) :
    (Books.run trades).lot.Divided u (divisor u (trades.map (·.1))) := by
  induction trades using List.reverseRecOn with
  | nil => exact ⟨rfl, zero_mem _, one_mem_whole, le_refl _, by simp [run, new, Lot.flat]⟩
  | append_singleton trades t ih =>
    obtain ⟨hd0, hd, hp⟩ := h t (by simp)
    have hprev := ih fun t ht => h t (by simp [ht])
    rw [map_append, map_cons, map_nil, divisor_concat, run_concat trades t.1 t.2]
    exact hprev.trade hu hd0 hd hp

/-- A trade realizes less than any bound on the cost and on the value of what is held. -/
theorem Lot.abs_realized_lt {b : K} (hd0 : d ≠ 0) (hp : 0 ≤ p) (hc : 0 ≤ l.cost) (hcost : l.cost < b)
    (hvalue : |l.qty| * p < b) : |(l.trade d p).2| < b := by
  have hb : 0 < b := hc.trans_lt hcost
  have hsigned {c : Prop} [Decidable c] {x y : K} (hx : 0 ≤ x ∧ x < b) (hy : 0 ≤ y ∧ y < b) :
      |if c then x - y else -(x - y)| < b := by
    have h : |x - y| < b := abs_sub_lt_of_nonneg_of_lt hx.1 hx.2 hy.1 hy.2
    split
    · exact h
    · rw [abs_neg]
      exact h
  have hqp : 0 ≤ |l.qty| * p := mul_nonneg (abs_nonneg _) hp
  obtain ⟨_, ht, _⟩ | ⟨_, ht, _⟩ | ⟨hopp, hlt, ht, _⟩ | ⟨_, heq, ht, _⟩ | ⟨_, _, ht, _⟩ := l.trade_cases p hd0 []
  · rw [ht, abs_zero]
    exact hb
  · rw [ht, abs_zero]
    exact hb
  · rw [ht]
    have hq : 0 < |l.qty| := (abs_nonneg d).trans_lt hlt
    have hle : |d| * p ≤ |l.qty| * p := mul_le_mul_of_nonneg_right hlt.le hp
    have hrelief : l.cost * |d| / |l.qty| ≤ l.cost := by
      rw [div_le_iff₀ hq]
      exact mul_le_mul_of_nonneg_left hlt.le hc
    exact hsigned ⟨mul_nonneg (abs_nonneg d) hp, hle.trans_lt hvalue⟩
      ⟨div_nonneg (mul_nonneg hc (abs_nonneg d)) hq.le, hrelief.trans_lt hcost⟩
  · rw [ht, heq]
    exact hsigned ⟨hqp, hvalue⟩ ⟨hc, hcost⟩
  · rw [ht]
    exact hsigned ⟨hqp, hvalue⟩ ⟨hc, hcost⟩

omit [IsStrictOrderedRing K] in
theorem mem_entered {prices : List K} {x : K} (h : x ∈ entered l d p prices) : x = p ∨ x ∈ prices := by
  unfold entered at h
  split at h
  · exact .inl (mem_singleton.mp h)
  · split at h
    · exact mem_cons.mp h
    · split at h
      · exact .inr h
      · split at h
        · cases h
        · exact .inl (mem_singleton.mp h)

omit [IsStrictOrderedRing K] in
theorem Books.prices_mem {trades : List (K × K)} : ∀ p ∈ (Books.run trades).prices, ∃ t ∈ trades, t.2 = p := by
  induction trades using List.reverseRecOn with
  | nil => simp [run, new]
  | append_singleton trades t ih =>
    rw [run_concat trades t.1 t.2]
    intro p hp
    obtain rfl | hold := mem_entered hp
    · exact ⟨t, by simp, rfl⟩
    · obtain ⟨t', ht', rfl⟩ := ih p hold
      exact ⟨t', by simp [ht'], rfl⟩

end AverageCost
