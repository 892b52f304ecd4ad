import LiquidityMigration.Lib.BigEndian
import LiquidityMigration.Lib.Limbs

/- The scalar field of Lighter's signatures: numbers below the order of the group, as five 64-bit limbs. Sums and
   differences are folded once into the field, products go through Montgomery's multiplication twice, and what comes
   from outside is folded twice, which is enough for any 320 bits (`two_pow_lt_three_orders`). Each operation is
   described by the number it leaves: `value_add`, `value_sub`, `value_mul`, `value_fromNonCanonical`. -/
namespace LiquidityMigration.Venue.Lighter
open Limbs List Nat Option BigEndian

def base : Nat := 2 ^ 64

/-- Five 64-bit words, least significant first. -/
structure Words where
  limbs : List Nat
  length_eq : limbs.length = 5
  small : ∀ limb ∈ limbs, limb < base
  deriving DecidableEq

def Words.value (w : Words) : Nat := Nat.ofDigits base w.limbs

theorem base_pos : 0 < base := by decide

theorem Words.value_lt (w : Words) : w.value < base ^ 5 := by
  have h := ofDigits_lt_base_pow_length (by decide : 1 < base) w.small
  rwa [w.length_eq] at h

theorem Words.value_injective : Function.Injective Words.value := by
  intro a b h
  have hlimbs : a.limbs = b.limbs :=
    ofDigits_injective (a.length_eq.trans b.length_eq.symm) a.small b.small h
  cases a
  cases b
  cases hlimbs
  rfl

abbrev Scalar := Words

namespace Scalar

def order : Scalar where
  limbs := [0xE80FD996948BFFE1, 0xE8885C39D724A09C, 0x7FFFFFE6CFB80639, 0x7FFFFFF100000016, 0x7FFFFFFD80000007]
  length_eq := rfl
  small := by decide

/-- `-1/n[0] mod 2^64`. -/
def n0i : Nat := 0xD78BEF72057B7BDF

/-- `2^640 mod n`. -/
def r2 : Scalar where
  limbs := [0xA01001DCE33DC739, 0x6C3228D33F62ACCF, 0xD1D796CC91CF8525, 0xAADFFF5D1574C1D8, 0x4ACA13B28CA251F5]
  length_eq := rfl
  small := by decide

def zero : Scalar := ⟨List.replicate 5 0, rfl, by decide⟩

def isCanonical (s : Scalar) : Bool := Limbs.lessFrom (s.limbs.zip order.limbs).reverse

def selectWord (c a₀ a₁ : Nat) : Nat := a₀ ^^^ (c &&& (a₀ ^^^ a₁))

theorem selectWord_lt {c a₀ a₁ : Nat} (h₀ : a₀ < base) (h₁ : a₁ < base) : selectWord c a₀ a₁ < base := by
  have hdiff : c &&& (a₀ ^^^ a₁) < base := and_lt_two_pow c (xor_lt_two_pow h₀ h₁)
  exact xor_lt_two_pow h₀ hdiff

def select (c : Nat) (a₀ a₁ : Scalar) : Scalar where
  limbs := List.zipWith (selectWord c) a₀.limbs a₁.limbs
  length_eq := by rw [length_zipWith, a₀.length_eq, a₁.length_eq, Nat.min_self]
  small := by
    intro limb hlimb
    obtain ⟨i, hi⟩ := mem_iff_getElem?.mp hlimb
    rw [List.getElem?_zipWith_eq_some] at hi
    obtain ⟨x, y, hx, hy, rfl⟩ := hi
    exact selectWord_lt (a₀.small x (mem_of_getElem? hx)) (a₁.small y (mem_of_getElem? hy))

variable (a b : Scalar)

def addInner : Scalar where
  limbs := (Limbs.addWith base 0 a.limbs b.limbs).1
  length_eq := by rw [Limbs.length_addWith (a.length_eq.trans b.length_eq.symm), a.length_eq]
  small := fun _ h => Limbs.addWith_lt base_pos h

/-- The carry `add_inner` drops. -/
def droppedCarry : Nat := (Limbs.addWith base 0 a.limbs b.limbs).2

def mask (borrow : Nat) : Nat := if borrow ≠ 0 then base - 1 else 0

def subInner : Scalar × Nat :=
  (⟨(Limbs.subWith base 0 a.limbs b.limbs).1,
    by rw [Limbs.length_subWith (a.length_eq.trans b.length_eq.symm), a.length_eq],
    fun _ h => Limbs.subWith_lt base_pos h⟩,
   mask (Limbs.subWith base 0 a.limbs b.limbs).2)

/-- One conditional fold: the difference to the order, unless that borrows. -/
def fold : Scalar := select (subInner a order).2 (subInner a order).1 a

def add : Scalar := fold (addInner a b)

def sub : Scalar :=
  select (subInner a b).2 (subInner a b).1 (addInner (subInner a b).1 order)

theorem rounds_words (ms : List Nat) {rs : List Nat} (hlength : rs.length = 5) (hsmall : ∀ r ∈ rs, r < base) :
    (ms.foldl (Limbs.round base n0i order.limbs a.limbs) rs).length = 5 ∧
      ∀ r ∈ ms.foldl (Limbs.round base n0i order.limbs a.limbs) rs, r < base := by
  have ha : a.limbs ≠ [] := by
    intro hnil
    have hlength := a.length_eq
    rw [hnil] at hlength
    cases hlength
  induction ms generalizing rs with
  | nil => exact ⟨hlength, hsmall⟩
  | cons m ms ih =>
    apply ih
    · rw [length_round ha (hlength.trans a.length_eq.symm) (order.length_eq.trans a.length_eq.symm), a.length_eq]
    · exact fun r hr => round_lt base_pos hr

/-- The running value of `monty_mul` after its last round. -/
def rounds : Scalar where
  limbs := b.limbs.foldl (Limbs.round base n0i order.limbs a.limbs) zero.limbs
  length_eq := (rounds_words a b.limbs zero.length_eq zero.small).1
  small := (rounds_words a b.limbs zero.length_eq zero.small).2

def montyMul : Scalar := fold (rounds a b)

def mul : Scalar := montyMul (montyMul a r2) b

def fromNonCanonical (value : Scalar) : Scalar := fold (fold value)

theorem two_orders_le : order.value + order.value ≤ base ^ 5 := by decide

theorem two_pow_lt_three_orders : base ^ 5 < order.value + order.value + order.value := by decide

theorem order_pos : 0 < order.value := by decide

theorem coprime_order_base : Nat.Coprime order.value base := by decide

theorem n0i_spec : n0i * order.limbs.headD 0 + 1 ≡ 0 [MOD base] := by decide

theorem value_r2 : r2.value = base ^ 10 % order.value := by decide

@[simp] theorem value_zero : zero.value = 0 := by decide

theorem isCanonical_iff {s : Scalar} : isCanonical s = true ↔ s.value < order.value := by
  unfold isCanonical
  rw [lessFrom_eq (s.length_eq.trans order.length_eq.symm) s.small order.small, decide_eq_true_eq]
  exact Iff.rfl

theorem selectWord_zero (a₀ a₁ : Nat) : selectWord 0 a₀ a₁ = a₀ := by simp [selectWord]

theorem selectWord_ones {a₀ a₁ : Nat} (h₀ : a₀ < base) (h₁ : a₁ < base) : selectWord (base - 1) a₀ a₁ = a₁ := by
  have hall : (base - 1) &&& (a₀ ^^^ a₁) = a₀ ^^^ a₁ := by
    rw [Nat.and_comm, base, Nat.and_two_pow_sub_one_eq_mod]
    exact Nat.mod_eq_of_lt (Nat.xor_lt_two_pow h₀ h₁)
  rw [selectWord, hall, ← Nat.xor_assoc, Nat.xor_self, Nat.zero_xor]

theorem zipWith_selectWord_zero {as bs : List Nat} (h : as.length = bs.length) :
    List.zipWith (selectWord 0) as bs = as := by
  induction as, bs, h using paired_induction with
  | nil => rfl
  | cons a as b bs h ih => rw [zipWith_cons_cons, selectWord_zero, ih]

theorem zipWith_selectWord_ones {as bs : List Nat} (h : as.length = bs.length) (has : ∀ a ∈ as, a < base)
    (hbs : ∀ b ∈ bs, b < base) : List.zipWith (selectWord (base - 1)) as bs = bs := by
  induction as, bs, h using paired_induction with
  | nil => rfl
  | cons a as b bs h ih =>
    rw [forall_mem_cons] at has hbs
    rw [zipWith_cons_cons, selectWord_ones has.1 hbs.1, ih has.2 hbs.2]

theorem value_select (borrow : Nat) (a₀ a₁ : Scalar) :
    (select (mask borrow) a₀ a₁).value = if borrow ≠ 0 then a₁.value else a₀.value := by
  have hlength := a₀.length_eq.trans a₁.length_eq.symm
  unfold mask Words.value select
  split
  · next h =>
    show ofDigits base (zipWith (selectWord (base - 1)) a₀.limbs a₁.limbs) = _
    rw [zipWith_selectWord_ones hlength a₀.small a₁.small]
  · next h =>
    show ofDigits base (zipWith (selectWord 0) a₀.limbs a₁.limbs) = _
    rw [zipWith_selectWord_zero hlength]

theorem value_addInner : (addInner a b).value + base ^ 5 * droppedCarry a b = a.value + b.value := by
  have h := Limbs.ofDigits_addWith (B := base) (a.length_eq.trans b.length_eq.symm) 0
  rw [a.length_eq, add_zero] at h
  exact h

variable {a : Scalar} {bytes : List UInt8}

theorem droppedCarry_add {b : Scalar} (ha : a.value < order.value) (hb : b.value < order.value) :
    droppedCarry a b = 0 := by
  have hsum := value_addInner a b
  have htwo := two_orders_le
  by_contra hcarry
  have hmore : base ^ 5 * 1 ≤ base ^ 5 * droppedCarry a b := mul_le_mul_left _ (pos_of_ne_zero hcarry)
  omega

theorem value_subInner (a b : Scalar) : ∃ borrow, borrow ≤ 1 ∧ (subInner a b).2 = mask borrow ∧
      (subInner a b).1.value + b.value = a.value + base ^ 5 * borrow := by
  have h := ofDigits_subWith (a.length_eq.trans b.length_eq.symm) a.small b.small (zero_le 1)
  rw [a.length_eq, add_zero] at h
  exact ⟨_, subWith_borrow_le (zero_le 1), rfl, h⟩

theorem value_fold (a : Scalar) :
    (fold a).value = if a.value < order.value then a.value else a.value - order.value := by
  obtain ⟨borrow, hborrow, hmask, hvalue⟩ := value_subInner a order
  have hless := (subInner a order).1.value_lt
  unfold fold
  rw [hmask, value_select]
  obtain rfl | rfl : borrow = 0 ∨ borrow = 1 := by omega
  · rw [if_neg (by decide), if_neg (by omega)]
    omega
  · rw [if_pos (by decide), if_pos (by omega)]

theorem value_fold_of_lt (h : a.value < order.value + order.value) : (fold a).value = a.value % order.value := by
  rw [value_fold]
  split
  · next hless => exact (mod_eq_of_lt hless).symm
  · next hmore =>
    rw [mod_eq_sub_mod (not_lt.mp hmore), mod_eq_of_lt (by omega)]

theorem value_fromNonCanonical (a : Scalar) : (fromNonCanonical a).value = a.value % order.value := by
  have hless := a.value_lt
  have hthree := two_pow_lt_three_orders
  have hfirst := value_fold a
  have htwo : (fold a).value < order.value + order.value := by
    rw [hfirst]
    split
    · omega
    · omega
  unfold fromNonCanonical
  rw [value_fold_of_lt htwo, hfirst]
  split
  · rfl
  · next hmore => exact (mod_eq_sub_mod (not_lt.mp hmore)).symm

section
variable (ha : a.value < order.value)
include ha

theorem value_add {b : Scalar} (hb : b.value < order.value) : (add a b).value = (a.value + b.value) % order.value := by
  have hsum := value_addInner a b
  rw [droppedCarry_add ha hb, mul_zero, add_zero] at hsum
  unfold add
  rw [value_fold_of_lt (by omega), hsum]

theorem droppedCarry_sub {b : Scalar} (hb : b.value < order.value) :
    droppedCarry (subInner a b).1 order = if a.value < b.value then 1 else 0 := by
  obtain ⟨borrow, hborrow, _, hvalue⟩ := value_subInner a b
  have hsum := value_addInner (subInner a b).1 order
  have hless := (addInner (subInner a b).1 order).value_lt
  have hdiff := (subInner a b).1.value_lt
  have htwo := two_orders_le
  have hone : droppedCarry (subInner a b).1 order ≤ 1 := by
    by_contra hcarry
    have hmore : base ^ 5 * 2 ≤ base ^ 5 * droppedCarry (subInner a b).1 order :=
      mul_le_mul_left _ (not_le.mp hcarry)
    omega
  obtain h | h : droppedCarry (subInner a b).1 order = 0 ∨ droppedCarry (subInner a b).1 order = 1 := by omega
  · rw [h] at hsum ⊢
    obtain rfl | rfl : borrow = 0 ∨ borrow = 1 := by omega
    · rw [if_neg (by omega)]
    · omega
  · rw [h] at hsum ⊢
    obtain rfl | rfl : borrow = 0 ∨ borrow = 1 := by omega
    · omega
    · rw [if_pos (by omega)]

theorem value_sub {b : Scalar} (hb : b.value < order.value) :
    (sub a b).value = (a.value + (order.value - b.value)) % order.value := by
  obtain ⟨borrow, hborrow, hmask, hvalue⟩ := value_subInner a b
  have hfolded := value_addInner (subInner a b).1 order
  rw [droppedCarry_sub ha hb] at hfolded
  have hless := (subInner a b).1.value_lt
  unfold sub
  rw [hmask, value_select]
  obtain rfl | rfl : borrow = 0 ∨ borrow = 1 := by omega
  · rw [if_neg (by decide), mod_eq_sub_mod (by omega), mod_eq_of_lt (by omega)]
    omega
  · -- the order makes up for the borrow, and the carry out of the top goes with it
    rw [if_pos (by omega)] at hfolded
    rw [if_pos (by decide), mod_eq_of_lt (by omega)]
    omega

theorem montgomery_bounds : a.limbs ≠ [] ∧ ofDigits base a.limbs + ofDigits base order.limbs ≤ base ^ a.limbs.length ∧
      ofDigits base zero.limbs < ofDigits base a.limbs + ofDigits base order.limbs := by
  have hzero : ofDigits base zero.limbs = 0 := value_zero
  refine ⟨ne_nil_of_length_eq_add_one a.length_eq, ?_, ?_⟩
  · rw [a.length_eq]
    exact le_trans (Nat.add_le_add_right ha.le _) two_orders_le
  · rw [hzero]
    exact lt_of_lt_of_le order_pos (le_add_left _ _)

theorem value_montyMul (b : Scalar) :
    base ^ 5 * (montyMul a b).value ≡ a.value * b.value [MOD order.value] ∧ (montyMul a b).value < order.value := by
  obtain ⟨hnil, hfits, hrunning⟩ := montgomery_bounds ha
  have hzero : ofDigits base zero.limbs = 0 := value_zero
  obtain ⟨hproduct, hbound⟩ := rounds_spec n0i_spec hnil (zero.length_eq.trans a.length_eq.symm)
    (order.length_eq.trans a.length_eq.symm) hfits hrunning b.small
  rw [b.length_eq, hzero, zero_add] at hproduct
  have hrounds : (rounds a b).value < order.value + order.value := lt_of_lt_of_le hbound (Nat.add_le_add_right ha.le _)
  unfold montyMul
  rw [value_fold_of_lt hrounds]
  refine ⟨?_, mod_lt _ order_pos⟩
  exact ((mod_modEq _ _).mul_left _).trans hproduct

theorem value_mul (b : Scalar) : (mul a b).value = a.value * b.value % order.value := by
  obtain ⟨hfirst, hless⟩ := value_montyMul ha r2
  obtain ⟨hsecond, hlast⟩ := value_montyMul hless b
  -- both divisions are undone by the constant
  have hscaled : base ^ 10 * (mul a b).value ≡ base ^ 10 * (a.value * b.value) [MOD order.value] :=
    calc base ^ 10 * (mul a b).value = base ^ 5 * (base ^ 5 * (montyMul (montyMul a r2) b).value) := by
          rw [mul, ← mul_assoc, ← pow_add]
      _ ≡ base ^ 5 * ((montyMul a r2).value * b.value) [MOD order.value] := hsecond.mul_left _
      _ = base ^ 5 * (montyMul a r2).value * b.value := by rw [mul_assoc]
      _ ≡ a.value * r2.value * b.value [MOD order.value] := hfirst.mul_right _
      _ ≡ a.value * base ^ 10 * b.value [MOD order.value] := by
          rw [value_r2]
          exact ((mod_modEq _ _).mul_left _).mul_right _
      _ = base ^ 10 * (a.value * b.value) := by ring
  have hcancel : (mul a b).value ≡ a.value * b.value [MOD order.value] :=
    Nat.ModEq.cancel_left_of_coprime (coprime_order_base.pow_right 10) hscaled
  have hless : (mul a b).value < order.value := hlast
  rw [← mod_eq_of_lt hless]
  exact hcancel

end

/-- `u64::from_le_bytes`. -/
def leWord (bytes : List UInt8) : Nat := BigEndian.ofBytes bytes.reverse

/-- `u64::to_le_bytes`. -/
def leBytes (word : Nat) : List UInt8 := (BigEndian.toBytes 8 word).reverse

def wordsOf : Nat → List UInt8 → List Nat
  | 0, _ => []
  | k + 1, bytes => leWord (bytes.take 8) :: wordsOf k (bytes.drop 8)

theorem length_wordsOf (k : Nat) (bytes : List UInt8) : (wordsOf k bytes).length = k := by
  induction k generalizing bytes with
  | zero => rfl
  | succ k ih => rw [wordsOf, length_cons, ih]

theorem leWord_lt (h : bytes.length ≤ 8) : leWord bytes < base := by
  have hless := ofBytes_lt bytes.reverse
  rw [length_reverse] at hless
  calc leWord bytes < 256 ^ bytes.length := hless
    _ ≤ 256 ^ 8 := Nat.pow_le_pow_right (by decide) h
    _ = base := by decide

theorem wordsOf_lt {k : Nat} {word : Nat} (h : word ∈ wordsOf k bytes) : word < base := by
  induction k generalizing bytes with
  | zero => cases h
  | succ k ih =>
    rw [wordsOf, mem_cons] at h
    obtain rfl | h := h
    · exact leWord_lt (length_take_le 8 bytes)
    · exact ih h

def wordsFromLe (bytes : List UInt8) : Words := ⟨wordsOf 5 bytes, length_wordsOf 5 bytes, fun _ h => wordsOf_lt h⟩

def fromLeBytes (bytes : List UInt8) : Option Scalar :=
  if bytes.length ≠ 40 then none else some (fromNonCanonical (wordsFromLe bytes))

def fromBeBytes (bytes : List UInt8) : Option Scalar :=
  if bytes.length ≠ 40 then none else fromLeBytes bytes.reverse

variable (s : Scalar)

def toLeBytes : List UInt8 := s.limbs.flatMap leBytes

def fromLeBytesCanonical (bytes : List UInt8) : Option Scalar := do
  let read ← fromLeBytes bytes
  if toLeBytes read = bytes then some read else none

theorem length_leBytes (word : Nat) : (leBytes word).length = 8 := by simp [leBytes]

theorem leWord_leBytes {word : Nat} (h : word < base) : leWord (leBytes word) = word := by
  rw [leWord, leBytes, reverse_reverse, ofBytes_toBytes]
  exact mod_eq_of_lt h

theorem wordsOf_flatMap {words : List Nat} (h : ∀ word ∈ words, word < base) :
    wordsOf words.length (words.flatMap leBytes) = words := by
  induction words with
  | nil => rfl
  | cons word words ih =>
    rw [forall_mem_cons] at h
    have hlength := length_leBytes word
    rw [flatMap_cons, length_cons, wordsOf, take_left' hlength, drop_left' hlength, leWord_leBytes h.1, ih h.2]

theorem length_toLeBytes : (toLeBytes s).length = 40 := by
  have hsum : ∀ words : List Nat, (words.flatMap leBytes).length = 8 * words.length := by
    intro words
    induction words with
    | nil => rfl
    | cons word words ih =>
      rw [flatMap_cons, length_append, length_leBytes, ih, length_cons]
      omega
  rw [toLeBytes, hsum, s.length_eq]

theorem wordsFromLe_toLeBytes : wordsFromLe (toLeBytes s) = s := by
  apply Words.value_injective
  have hlimbs := wordsOf_flatMap s.small
  rw [s.length_eq] at hlimbs
  exact congrArg (ofDigits base) hlimbs

theorem fromLeBytes_of_length (h : bytes.length = 40) : ∃ s, fromLeBytes bytes = some s ∧ s.value < order.value := by
  refine ⟨fromNonCanonical (wordsFromLe bytes), if_neg (not_not.mpr h), ?_⟩
  rw [value_fromNonCanonical]
  exact mod_lt _ order_pos

theorem fromLeBytesCanonical_eq_some {s : Scalar} :
    fromLeBytesCanonical bytes = some s ↔ s.value < order.value ∧ bytes = toLeBytes s := by
  simp only [fromLeBytesCanonical, bind_eq_bind, bind_eq_some_iff, ite_none_right_eq_some, some.injEq]
  constructor
  · rintro ⟨read, hread, hbytes, rfl⟩
    have hlength : bytes.length = 40 := by
      rw [← hbytes]
      exact length_toLeBytes read
    obtain ⟨s, hs, hcanonical⟩ := fromLeBytes_of_length hlength
    rw [hread, some.injEq] at hs
    exact ⟨hs ▸ hcanonical, hbytes.symm⟩
  · rintro ⟨hcanonical, rfl⟩
    refine ⟨s, ?_, rfl, rfl⟩
    rw [fromLeBytes, if_neg (not_not.mpr (length_toLeBytes s)), wordsFromLe_toLeBytes, some.injEq]
    apply Words.value_injective
    rw [value_fromNonCanonical, mod_eq_of_lt hcanonical]

theorem ofDigits_wordsOf {k : Nat} (h : bytes.length = 8 * k) :
    ofDigits base (wordsOf k bytes) = ofBytes bytes.reverse := by
  induction k generalizing bytes with
  | zero =>
    rw [length_eq_zero_iff.mp h]
    rfl
  | succ k ih =>
    have hlow : (bytes.take 8).reverse.length = 8 := by
      rw [length_reverse, length_take]
      omega
    rw [wordsOf, ofDigits_cons, ih (by rw [length_drop]; omega)]
    conv_rhs => rw [← take_append_drop 8 bytes, reverse_append, ofBytes_append, hlow]
    rw [leWord, add_comm, mul_comm]
    rfl

theorem value_fromLeBytes (h : bytes.length = 40) :
    ∃ s, fromLeBytes bytes = some s ∧ s.value = ofBytes bytes.reverse % order.value := by
  refine ⟨_, if_neg (not_not.mpr h), ?_⟩
  rw [value_fromNonCanonical]
  exact congrArg (· % order.value) (ofDigits_wordsOf h)

theorem value_fromBeBytes (h : bytes.length = 40) :
    ∃ s, fromBeBytes bytes = some s ∧ s.value = ofBytes bytes % order.value := by
  obtain ⟨s, hs, hvalue⟩ := value_fromLeBytes (by rw [length_reverse, h])
  rw [reverse_reverse] at hvalue
  exact ⟨s, by rw [fromBeBytes, if_neg (not_not.mpr h), hs], hvalue⟩

/-- The sum a round of `monty_mul` wraps into the top limb. -/
def topCarries (a : Scalar) (running : List Nat) (m : Nat) : Nat :=
  let out := Limbs.row base m (Limbs.quotient base n0i a.limbs running m) 0 0 a.limbs running order.limbs
  out.2.1 + out.2.2

/-- No round of `monty_mul` wraps in the top limb. -/
def KeepsTop (a b : Scalar) : Prop :=
  ∀ done m rest, b.limbs = done ++ m :: rest →
    topCarries a (done.foldl (Limbs.round base n0i order.limbs a.limbs) zero.limbs) m < base

theorem keepsTop (ha : a.value < order.value) (b : Scalar) : KeepsTop a b := by
  intro done m rest hb
  obtain ⟨hnil, hfits, hrunning⟩ := montgomery_bounds ha
  have hsmall := b.small
  rw [hb, forall_mem_append, forall_mem_cons] at hsmall
  obtain ⟨_, hbound⟩ := Limbs.rounds_spec n0i_spec hnil (zero.length_eq.trans a.length_eq.symm)
    (order.length_eq.trans a.length_eq.symm) hfits hrunning hsmall.1
  have hlength := (rounds_words a done zero.length_eq zero.small).1
  exact (Limbs.round_spec n0i_spec hnil (hlength.trans a.length_eq.symm) (order.length_eq.trans a.length_eq.symm)
    hsmall.2.1 hfits hbound).2.2

/-- **The scalar field.** Any five limbs or forty bytes are read as their representative below the
order; sums, differences and products of canonical scalars are exact, and drop no carry but the one a
borrow is made up with; and the canonical reader accepts what a scalar below the order is written as,
and nothing else. -/
theorem scalar_arithmetic : (∀ value : Scalar, (fromNonCanonical value).value = value.value % order.value) ∧
    (∀ bytes : List UInt8, bytes.length = 40 →
      (∃ s, fromLeBytes bytes = some s ∧ s.value = BigEndian.ofBytes bytes.reverse % order.value) ∧
      ∃ s, fromBeBytes bytes = some s ∧ s.value = BigEndian.ofBytes bytes % order.value) ∧
    (∀ a b : Scalar, isCanonical a = true → isCanonical b = true →
      (add a b).value = (a.value + b.value) % order.value ∧ droppedCarry a b = 0 ∧
      ((sub a b).value : Int) = ((a.value : Int) - b.value) % order.value ∧
      (droppedCarry (subInner a b).1 order = if a.value < b.value then 1 else 0) ∧
      (mul a b).value = a.value * b.value % order.value ∧ KeepsTop a r2 ∧ KeepsTop (montyMul a r2) b) ∧
    ∀ (bytes : List UInt8) (s : Scalar),
      fromLeBytesCanonical bytes = some s ↔ isCanonical s = true ∧ bytes = toLeBytes s := by
  refine ⟨value_fromNonCanonical, fun bytes h => ⟨value_fromLeBytes h, value_fromBeBytes h⟩, ?_, ?_⟩
  · intro a b ha hb
    rw [isCanonical_iff] at ha hb
    refine ⟨value_add ha hb, droppedCarry_add ha hb, ?_, droppedCarry_sub ha hb, value_mul ha b, keepsTop ha r2,
      keepsTop (value_montyMul ha r2).2 b⟩
    rw [value_sub ha hb]
    push_cast [hb.le]
    rw [← add_sub_assoc, add_comm, add_sub_assoc, Int.add_emod_left]
  · intro bytes s
    rw [isCanonical_iff]
    exact fromLeBytesCanonical_eq_some

/-- Zero less one: the fold of the difference carries out of the top limb. -/
theorem sub_drops_carry : isCanonical zero = true ∧ isCanonical ⟨[1, 0, 0, 0, 0], rfl, by decide⟩ = true ∧
      droppedCarry (subInner zero ⟨[1, 0, 0, 0, 0], rfl, by decide⟩).1 order = 1 := by
  decide +kernel

/-- `bits`, least significant first. -/
def bits : List Bool :=
  (List.range 320).map fun i => (s.limbs.getD (i / 64) 0 >>> (i % 64)) &&& 1 == 1

theorem testBit_ofDigits {limbs : List Nat} (h : ∀ limb ∈ limbs, limb < base) (i : Nat) :
    (Nat.ofDigits base limbs).testBit i = (limbs.getD (i / 64) 0).testBit (i % 64) := by
  induction limbs generalizing i with
  | nil => simp
  | cons limb limbs ih =>
    rw [forall_mem_cons] at h
    rw [ofDigits_cons, add_comm, base, testBit_two_pow_mul_add _ h.1]
    split
    · next hlow =>
      rw [div_eq_of_lt hlow, mod_eq_of_lt hlow, getD_cons_zero]
    · next hhigh =>
      have hdiv : i / 64 = (i - 64) / 64 + 1 := by omega
      have hmod : i % 64 = (i - 64) % 64 := by omega
      rw [hdiv, hmod, getD_cons_succ]
      exact ih h.2 (i - 64)

theorem bits_eq : bits s = (List.range 320).map s.value.testBit := by
  unfold bits
  apply map_congr_left
  intro i _
  rw [Words.value, testBit_ofDigits s.small, testBit_eq_decide_div_mod_eq, and_one_is_mod, shiftRight_eq_div_pow]
  rfl

end Scalar

end LiquidityMigration.Venue.Lighter
