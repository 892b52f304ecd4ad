import Mathlib

/- Arithmetic on numbers held as limbs in base `B`, least significant first, read by `Nat.ofDigits`. What the limbs
   hold after a loop and the carry above them add up to what went in (`ofDigits_addWith`, `ofDigits_subWith`,
   `ofDigits_row`). A round of Montgomery's multiplication adds a multiple of the modulus that makes the lowest limb
   zero and drops it, so it divides by `B` exactly (`round_spec`). -/
namespace Limbs
open List
open Nat (ofDigits ofDigits_cons)

variable {B : Nat}

theorem paired_induction {α β : Type} {motive : (as : List α) → (bs : List β) → as.length = bs.length → Prop}
    (nil : motive [] [] rfl) (cons : ∀ a as b bs h, motive as bs h → motive (a :: as) (b :: bs) (congrArg (· + 1) h)) :
    ∀ as bs h, motive as bs h
  | [], [], _ => nil
  | a :: as, b :: bs, h => cons a as b bs (Nat.succ.inj h) (paired_induction nil cons as bs _)

variable (B) in
def addWith : Nat → List Nat → List Nat → List Nat × Nat
  | c, a :: as, b :: bs =>
    let rest := addWith ((a + b + c) / B) as bs
    ((a + b + c) % B :: rest.1, rest.2)
  | c, _, _ => ([], c)

variable {as bs rs ns : List Nat}

theorem length_addWith (h : as.length = bs.length) (c : Nat) : (addWith B c as bs).1.length = as.length := by
  induction as, bs, h using paired_induction generalizing c with
  | nil => rfl
  | cons a as b bs h ih => rw [addWith, length_cons, length_cons, ih]

theorem addWith_lt (hB : 0 < B) {c d : Nat} (hd : d ∈ (addWith B c as bs).1) : d < B := by
  fun_induction addWith B c as bs with
  | case1 c a as b bs rest ih =>
    obtain rfl | hd := mem_cons.mp hd
    · exact Nat.mod_lt _ hB
    · exact ih hd
  | case2 => cases hd

theorem ofDigits_addWith (h : as.length = bs.length) (c : Nat) :
    ofDigits B (addWith B c as bs).1 + B ^ as.length * (addWith B c as bs).2 = ofDigits B as + ofDigits B bs + c := by
  induction as, bs, h using paired_induction generalizing c with
  | nil => simp [addWith]
  | cons a as b bs h ih =>
    have hrest := ih ((a + b + c) / B)
    have hdigit := Nat.mod_add_div (a + b + c) B
    rw [addWith, length_cons]
    simp only [ofDigits_cons, pow_succ]
    calc (a + b + c) % B + B * ofDigits B (addWith B ((a + b + c) / B) as bs).1 +
          B ^ as.length * B * (addWith B ((a + b + c) / B) as bs).2
        = (a + b + c) % B + B * (ofDigits B (addWith B ((a + b + c) / B) as bs).1 +
          B ^ as.length * (addWith B ((a + b + c) / B) as bs).2) := by ring
      _ = (a + b + c) % B + B * ((a + b + c) / B) + B * (ofDigits B as + ofDigits B bs) := by
          rw [hrest]
          ring
      _ = a + b + c + B * (ofDigits B as + ofDigits B bs) := by rw [hdigit]
      _ = a + B * ofDigits B as + (b + B * ofDigits B bs) + c := by ring

variable (B) in
def subWith : Nat → List Nat → List Nat → List Nat × Nat
  | w, a :: as, b :: bs =>
    let diff : Int := a - b - w
    let rest := subWith (if diff < 0 then 1 else 0) as bs
    ((diff % B).toNat :: rest.1, rest.2)
  | w, _, _ => ([], w)

theorem length_subWith (h : as.length = bs.length) (w : Nat) : (subWith B w as bs).1.length = as.length := by
  induction as, bs, h using paired_induction generalizing w with
  | nil => rfl
  | cons a as b bs h ih => rw [subWith, length_cons, length_cons, ih]

theorem subWith_lt (hB : 0 < B) {w d : Nat} (hd : d ∈ (subWith B w as bs).1) : d < B := by
  fun_induction subWith B w as bs with
  | case1 w a as b bs diff rest ih =>
    obtain rfl | hd := mem_cons.mp hd
    · have hlt := Int.emod_lt_of_pos diff (Int.natCast_pos.mpr hB)
      omega
    · exact ih hd
  | case2 => cases hd

theorem subWith_borrow_le {w : Nat} (hw : w ≤ 1) : (subWith B w as bs).2 ≤ 1 := by
  fun_induction subWith B w as bs with
  | case1 w a as b bs diff rest ih =>
    apply ih
    split
    · exact le_refl 1
    · exact Nat.zero_le 1
  | case2 => exact hw

theorem sub_digit {a b w : Nat} (ha : a < B) (hb : b < B) (hw : w ≤ 1) :
    ((((a : Int) - b - w) % B).toNat : Int) = a - b - w + B * (if (a : Int) - b - w < 0 then 1 else 0 : Nat) := by
  split
  · next hneg =>
    have hmod : ((a : Int) - b - w) % B = a - b - w + B := by
      rw [← Int.add_emod_right]
      exact Int.emod_eq_of_lt (by omega) (by omega)
    rw [hmod]
    push_cast
    omega
  · next hpos =>
    have hmod : ((a : Int) - b - w) % B = a - b - w := Int.emod_eq_of_lt (by omega) (by omega)
    rw [hmod]
    push_cast
    omega

theorem ofDigits_subWith (h : as.length = bs.length) (has : ∀ a ∈ as, a < B) (hbs : ∀ b ∈ bs, b < B)
    {w : Nat} (hw : w ≤ 1) :
    ofDigits B (subWith B w as bs).1 + ofDigits B bs + w =
      ofDigits B as + B ^ as.length * (subWith B w as bs).2 := by
  induction as, bs, h using paired_induction generalizing w with
  | nil => simp [subWith]
  | cons a as b bs h ih =>
    rw [forall_mem_cons] at has hbs
    have hborrow : (if (a : Int) - b - w < 0 then 1 else 0) ≤ 1 := by
      split
      · exact le_refl 1
      · exact Nat.zero_le 1
    have hrest := ih has.2 hbs.2 hborrow
    have hdigit := sub_digit has.1 hbs.1 hw
    rw [subWith, length_cons]
    simp only [ofDigits_cons, pow_succ]
    zify at hrest hdigit ⊢
    linear_combination hdigit + B * hrest

theorem ofDigits_injective (h : as.length = bs.length) (has : ∀ a ∈ as, a < B)
    (hbs : ∀ b ∈ bs, b < B) (heq : ofDigits B as = ofDigits B bs) : as = bs := by
  induction as, bs, h using paired_induction with
  | nil => rfl
  | cons a as b bs h ih =>
    rw [forall_mem_cons] at has hbs
    rw [ofDigits_cons, ofDigits_cons] at heq
    have hlow : a = b := by
      have hmod := congrArg (· % B) heq
      simpa [Nat.add_mul_mod_self_left, Nat.mod_eq_of_lt has.1, Nat.mod_eq_of_lt hbs.1] using hmod
    have hhigh : ofDigits B as = ofDigits B bs :=
      Nat.eq_of_mul_eq_mul_left (Nat.zero_lt_of_lt has.1) (by omega)
    rw [hlow, ih has.2 hbs.2 hhigh]

/-- Pairs of limbs, most significant first: the first pair that differs decides. -/
def lessFrom : List (Nat × Nat) → Bool
  | [] => false
  | (a, b) :: rest => if a ≠ b then decide (a < b) else lessFrom rest

theorem lessFrom_concat (pairs : List (Nat × Nat)) (a b : Nat) :
    lessFrom (pairs ++ [(a, b)]) = (lessFrom pairs || (pairs.all (fun p => p.1 == p.2) && decide (a < b))) := by
  induction pairs with
  | nil =>
    by_cases h : a = b
    · simp [lessFrom, h]
    · simp [lessFrom, h]
  | cons p pairs ih =>
    rw [cons_append, lessFrom, lessFrom, ih, all_cons]
    by_cases h : p.1 = p.2
    · simp [h]
    · simp [h]

theorem all_zip_eq (h : as.length = bs.length) : (as.zip bs).all (fun p => p.1 == p.2) = decide (as = bs) := by
  induction as, bs, h using paired_induction with
  | nil => rfl
  | cons a as b bs h ih =>
    rw [zip_cons_cons, all_cons, ih]
    by_cases hab : a = b
    · simp [hab]
    · simp [hab]

theorem lessFrom_eq (h : as.length = bs.length) (has : ∀ a ∈ as, a < B) (hbs : ∀ b ∈ bs, b < B) :
    lessFrom (as.zip bs).reverse = decide (ofDigits B as < ofDigits B bs) := by
  induction as, bs, h using paired_induction with
  | nil => rfl
  | cons a as b bs h ih =>
    rw [forall_mem_cons] at has hbs
    rw [zip_cons_cons, reverse_cons, lessFrom_concat, all_reverse, ih has.2 hbs.2,
      all_zip_eq h, ofDigits_cons, ofDigits_cons]
    by_cases heq : as = bs
    · subst heq
      simp
    · have hne : ofDigits B as ≠ ofDigits B bs :=
        fun hval => heq (ofDigits_injective h has.2 hbs.2 hval)
      obtain hlt | hgt := Nat.lt_or_gt_of_ne hne
      · have hstep : B * ofDigits B as + B ≤ B * ofDigits B bs := by
          rw [← Nat.mul_succ]
          exact Nat.mul_le_mul_left B hlt
        simp [heq, hlt]
        omega
      · have hstep : B * ofDigits B bs + B ≤ B * ofDigits B as := by
          rw [← Nat.mul_succ]
          exact Nat.mul_le_mul_left B hgt
        simp [heq, Nat.not_lt_of_gt hgt]
        omega

variable (B) in
/-- One row: `m` times the limbs of `as`, `f` times those of `ns`, and what was there,
with a carry for each of the two products. -/
def row (m f : Nat) : Nat → Nat → List Nat → List Nat → List Nat → List Nat × Nat × Nat
  | c₁, c₂, a :: as, r :: rs, n :: ns =>
    let z := a * m + r + c₁
    let z₂ := f * n + z % B + c₂
    let rest := row m f (z / B) (z₂ / B) as rs ns
    (z₂ % B :: rest.1, rest.2)
  | c₁, c₂, _, _, _ => ([], c₁, c₂)

theorem length_row {m f : Nat} (hr : rs.length = as.length) (hn : ns.length = as.length)
    (c₁ c₂ : Nat) : (row B m f c₁ c₂ as rs ns).1.length = as.length := by
  induction as generalizing rs ns c₁ c₂ with
  | nil => rfl
  | cons a as ih =>
    cases rs with
    | nil => cases hr
    | cons r rs =>
      cases ns with
      | nil => cases hn
      | cons n ns =>
        rw [row, length_cons, length_cons, ih (Nat.succ.inj hr) (Nat.succ.inj hn)]

theorem row_lt (hB : 0 < B) {m f : Nat} {c₁ c₂ d : Nat} (hd : d ∈ (row B m f c₁ c₂ as rs ns).1) : d < B := by
  fun_induction row B m f c₁ c₂ as rs ns with
  | case1 c₁ c₂ a as r rs n ns z z₂ rest ih =>
    obtain rfl | hd := mem_cons.mp hd
    · exact Nat.mod_lt _ hB
    · exact ih hd
  | case2 => cases hd

theorem ofDigits_row {m f : Nat} (hr : rs.length = as.length) (hn : ns.length = as.length) (c₁ c₂ : Nat) :
    ofDigits B (row B m f c₁ c₂ as rs ns).1 +
        B ^ as.length * ((row B m f c₁ c₂ as rs ns).2.1 + (row B m f c₁ c₂ as rs ns).2.2) =
      ofDigits B as * m + ofDigits B rs + f * ofDigits B ns + (c₁ + c₂) := by
  induction as generalizing rs ns c₁ c₂ with
  | nil =>
    rw [length_nil, length_eq_zero_iff] at hr hn
    subst hr hn
    simp [row]
  | cons a as ih =>
    cases rs with
    | nil => cases hr
    | cons r rs =>
      cases ns with
      | nil => cases hn
      | cons n ns =>
        have hrest := ih (Nat.succ.inj hr) (Nat.succ.inj hn) ((a * m + r + c₁) / B)
          ((f * n + (a * m + r + c₁) % B + c₂) / B)
        have hz := Nat.mod_add_div (a * m + r + c₁) B
        have hz₂ := Nat.mod_add_div (f * n + (a * m + r + c₁) % B + c₂) B
        rw [row, length_cons]
        simp only [ofDigits_cons, pow_succ]
        zify at hrest hz hz₂ ⊢
        linear_combination B * hrest + hz + hz₂

variable (B) in
def quotient (n0i : Nat) (as rs : List Nat) (m : Nat) : Nat :=
  ((as.headD 0 * m % B + rs.headD 0) % B * n0i) % B

variable (B) in
/-- One round, for the limb `m` of the other factor. -/
def round (n0i : Nat) (ns as rs : List Nat) (m : Nat) : List Nat :=
  let out := row B m (quotient B n0i as rs m) 0 0 as rs ns
  out.1.tail ++ [(out.2.1 + out.2.2) % B]

section
variable {n0i m : Nat} {ns as rs : List Nat}

section
variable (hn0i : n0i * ns.headD 0 + 1 ≡ 0 [MOD B])
include hn0i

theorem headD_row (hr : rs.length = as.length) (hn : ns.length = as.length) :
    (row B m (quotient B n0i as rs m) 0 0 as rs ns).1.headD 0 = 0 := by
  cases as with
  | nil => rfl
  | cons a as =>
    cases rs with
    | nil => cases hr
    | cons r rs =>
      cases ns with
      | nil => cases hn
      | cons n ns =>
        have hquotient : quotient B n0i (a :: as) (r :: rs) m ≡ (a * m + r) * n0i [MOD B] := by
          refine (Nat.mod_modEq _ B).trans (Nat.ModEq.mul_right n0i ?_)
          exact (Nat.mod_modEq _ B).trans (Nat.ModEq.add_right r (Nat.mod_modEq _ B))
        have hzero : quotient B n0i (a :: as) (r :: rs) m * n + (a * m + r + 0) % B + 0 ≡ 0 [MOD B] :=
          calc quotient B n0i (a :: as) (r :: rs) m * n + (a * m + r + 0) % B + 0
              ≡ (a * m + r) * n0i * n + (a * m + r) [MOD B] := (hquotient.mul_right n).add (Nat.mod_modEq _ B)
            _ = (a * m + r) * (n0i * n + 1) := by ring
            _ ≡ (a * m + r) * 0 [MOD B] := hn0i.mul_left (a * m + r)
            _ = 0 := mul_zero _
        exact Nat.mod_eq_zero_of_dvd ((Nat.modEq_zero_iff_dvd).mp hzero)

/-- Before the top limb is cut to its width, a round has divided exactly. -/
theorem mul_tail_row (has : as ≠ []) (hr : rs.length = as.length)
    (hn : ns.length = as.length) {out : List Nat × Nat × Nat}
    (hout : out = row B m (quotient B n0i as rs m) 0 0 as rs ns) :
    B * (ofDigits B out.1.tail + B ^ (as.length - 1) * (out.2.1 + out.2.2)) =
      ofDigits B as * m + ofDigits B rs + quotient B n0i as rs m * ofDigits B ns := by
  have hvalue := ofDigits_row (B := B) (m := m) (f := quotient B n0i as rs m) hr hn 0 0
  have hhead := headD_row (m := m) hn0i hr hn
  have hlength := length_row (B := B) (m := m) (f := quotient B n0i as rs m) hr hn 0 0
  rw [← hout] at hvalue hhead hlength
  have hpositive : 0 < as.length := length_pos_iff.mpr has
  cases hdigits : out.1 with
  | nil =>
    rw [hdigits, length_nil] at hlength
    omega
  | cons d ds =>
    rw [hdigits] at hvalue hhead
    obtain rfl : d = 0 := hhead
    have hpow : B ^ as.length = B * B ^ (as.length - 1) := by
      rw [← pow_succ', Nat.sub_add_cancel hpositive]
    rw [ofDigits_cons, hpow] at hvalue
    rw [tail_cons]
    linarith

/-- What a round leaves: with both factor and running value within bounds, it has
divided exactly, the running value is within its bound again, and the carries fit in
the top limb. -/
theorem round_spec (has : as ≠ []) (hr : rs.length = as.length)
    (hn : ns.length = as.length) (hm : m < B) (hfits : ofDigits B as + ofDigits B ns ≤ B ^ as.length)
    (hrunning : ofDigits B rs < ofDigits B as + ofDigits B ns) :
    B * ofDigits B (round B n0i ns as rs m) =
        ofDigits B as * m + ofDigits B rs + quotient B n0i as rs m * ofDigits B ns ∧
      ofDigits B (round B n0i ns as rs m) < ofDigits B as + ofDigits B ns ∧
      (row B m (quotient B n0i as rs m) 0 0 as rs ns).2.1 + (row B m (quotient B n0i as rs m) 0 0 as rs ns).2.2 <
        B := by
  have hB : 0 < B := Nat.zero_lt_of_lt hm
  have hpositive : 0 < as.length := length_pos_iff.mpr has
  have hquotient : quotient B n0i as rs m < B := Nat.mod_lt _ hB
  generalize hout : row B m (quotient B n0i as rs m) 0 0 as rs ns = out
  have hdivided := mul_tail_row hn0i has hr hn hout.symm
  have hlength := length_row (B := B) (m := m) (f := quotient B n0i as rs m) hr hn 0 0
  rw [hout] at hlength
  set total := ofDigits B out.1.tail + B ^ (as.length - 1) * (out.2.1 + out.2.2) with htotal
  have hbound : total < ofDigits B as + ofDigits B ns := by
    apply Nat.lt_of_mul_lt_mul_left (a := B)
    calc B * total = ofDigits B as * m + ofDigits B rs + quotient B n0i as rs m * ofDigits B ns := hdivided
      _ < ofDigits B as * m + (ofDigits B as + ofDigits B ns) +
          quotient B n0i as rs m * ofDigits B ns := by omega
      _ = ofDigits B as * (m + 1) + (quotient B n0i as rs m + 1) * ofDigits B ns := by ring
      _ ≤ ofDigits B as * B + B * ofDigits B ns :=
          Nat.add_le_add (Nat.mul_le_mul_left _ hm) (Nat.mul_le_mul_right _ hquotient)
      _ = B * (ofDigits B as + ofDigits B ns) := by ring
  have hcarry : out.2.1 + out.2.2 < B := by
    apply Nat.lt_of_mul_lt_mul_left (a := B ^ (as.length - 1))
    calc B ^ (as.length - 1) * (out.2.1 + out.2.2) ≤ total := Nat.le_add_left _ _
      _ < B ^ as.length := lt_of_lt_of_le hbound hfits
      _ = B ^ (as.length - 1) * B := by rw [← pow_succ, Nat.sub_add_cancel hpositive]
  have hround : ofDigits B (round B n0i ns as rs m) = total := by
    unfold round
    rw [hout]
    dsimp only
    rw [Nat.ofDigits_append, Nat.ofDigits_singleton, Nat.mod_eq_of_lt hcarry, length_tail, hlength]
  rw [hround]
  exact ⟨hdivided, hbound, hcarry⟩

end

theorem length_round (has : as ≠ []) (hr : rs.length = as.length) (hn : ns.length = as.length) :
    (round B n0i ns as rs m).length = as.length := by
  have hpositive : 0 < as.length := length_pos_iff.mpr has
  unfold round
  rw [length_append, length_tail, length_row hr hn, length_singleton, Nat.sub_add_cancel hpositive]

theorem round_lt (hB : 0 < B) {d : Nat} (hd : d ∈ round B n0i ns as rs m) : d < B := by
  unfold round at hd
  rw [mem_append, mem_singleton] at hd
  obtain hd | rfl := hd
  · exact row_lt hB (mem_of_mem_tail hd)
  · exact Nat.mod_lt _ hB

/-- All rounds together: the product, divided by a power of the base, up to multiples
of the modulus. -/
theorem rounds_spec (hn0i : n0i * ns.headD 0 + 1 ≡ 0 [MOD B]) (has : as ≠ []) (hr : rs.length = as.length)
    (hn : ns.length = as.length) (hfits : ofDigits B as + ofDigits B ns ≤ B ^ as.length)
    (hrunning : ofDigits B rs < ofDigits B as + ofDigits B ns) {ms : List Nat} (hms : ∀ m ∈ ms, m < B) :
    B ^ ms.length * ofDigits B (ms.foldl (round B n0i ns as) rs) ≡
        ofDigits B rs + ofDigits B as * ofDigits B ms [MOD ofDigits B ns] ∧
      ofDigits B (ms.foldl (round B n0i ns as) rs) < ofDigits B as + ofDigits B ns := by
  induction ms generalizing rs with
  | nil =>
    refine ⟨?_, hrunning⟩
    rw [length_nil, pow_zero, one_mul, foldl_nil, Nat.ofDigits_nil, mul_zero, add_zero]
  | cons m ms ih =>
    rw [forall_mem_cons] at hms
    obtain ⟨hdivided, hbound, _⟩ := round_spec hn0i has hr hn hms.1 hfits hrunning
    obtain ⟨hrest, hlast⟩ := ih (length_round has hr hn) hbound hms.2
    refine ⟨?_, hlast⟩
    rw [length_cons, foldl_cons, ofDigits_cons]
    calc B ^ (ms.length + 1) * ofDigits B (ms.foldl (round B n0i ns as) (round B n0i ns as rs m))
        = B * (B ^ ms.length * ofDigits B (ms.foldl (round B n0i ns as) (round B n0i ns as rs m))) := by ring
      _ ≡ B * (ofDigits B (round B n0i ns as rs m) + ofDigits B as * ofDigits B ms)
          [MOD ofDigits B ns] := hrest.mul_left B
      _ = ofDigits B rs + ofDigits B as * (m + B * ofDigits B ms) +
          quotient B n0i as rs m * ofDigits B ns := by
        rw [mul_add, hdivided]
        ring
      _ ≡ ofDigits B rs + ofDigits B as * (m + B * ofDigits B ms) [MOD ofDigits B ns] :=
        Nat.add_mul_mod_self_right _ _ _

end

end Limbs
