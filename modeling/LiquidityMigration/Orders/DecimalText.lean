import LiquidityMigration.Numeric.Ieee
import LiquidityMigration.Orders.Magnitude

/- Decimal text and the exact values it denotes. A `DecimalText` is a text of the grammar: an optional sign, digits
   with at most one point, an optional exponent. What is read is exactly such texts within the limits
   (`parseDecimal_eq_ok`), and what is printed is one without an exponent (`scaledText_denotes`). Lengths that the
   source counts in bytes are counted in bytes. -/
namespace LiquidityMigration.Orders
open Numeric Checks Decimal List Text Option Nat

def isMarker (c : Char) : Bool := c = 'e' ∨ c = 'E'

/-- `parse_decimal`: the mantissa and the exponent. -/
def splitExponent (text : List Char) : Except ExactError (List Char × Int) :=
  match text.dropWhile (fun c => !isMarker c) with
  | [] => .ok (text, 0)
  | _ :: rest => do
    let exponent ← orError (Decimal.parseSigned (2 ^ 31) rest) .exponentOutOfRange
    require (exponent.natAbs ≤ maxDecimalExponent) .exponentOutOfRange
    .ok (text.takeWhile (fun c => !isMarker c), exponent)

/-- `parse_decimal`: whether there is a minus sign, and what follows the sign. -/
def splitSign : List Char → Bool × List Char
  | '-' :: cs => (true, cs)
  | '+' :: cs => (false, cs)
  | cs => (false, cs)

def parseDecimal (text : List Char) : Except ExactError Exact := do
  require (Text.byteLength text ≤ maxNumericDigits + 16) .inputTooLarge
  let (mantissa, exponent) ← splitExponent text
  let (negative, mantissa) := splitSign mantissa
  let (whole, fraction) := (Text.splitOnce '.' mantissa).getD (mantissa, [])
  let digits := Text.byteLength whole + Text.byteLength fraction
  require (digits ≤ maxNumericDigits) .inputTooLarge
  require (digits ≠ 0 ∧ ∀ c ∈ whole ++ fraction, c.isDigit = true) .invalidDecimal
  let power := exponent - Text.byteLength fraction
  require (power.natAbs ≤ maxDecimalExponent) .exponentOutOfRange
  let coefficient : Int := Nat.ofDigitChars 10 (whole ++ fraction) 0
  let coefficient := if negative then -coefficient else coefficient
  if coefficient = 0 then .ok 0
  else if 0 ≤ power then .ok (coefficient * 10 ^ power.natAbs : Int)
  else .ok (Rat.divInt coefficient (10 ^ power.natAbs))

inductive Sign where
  | none | plus | minus
  deriving DecidableEq

def Sign.text : Sign → List Char
  | .none => []
  | .plus => ['+']
  | .minus => ['-']

def Sign.apply (sign : Sign) (n : Int) : Int := if sign = .minus then -n else n

variable (exponent : Option (Char × Sign × List Char))

/-- An exponent: its marker, its sign and its digits. -/
def exponentText : List Char :=
  exponent.elim [] fun e => e.1 :: (e.2.1.text ++ e.2.2)

def exponentValue : Int :=
  exponent.elim 0 fun e => e.2.1.apply (Nat.ofDigitChars 10 e.2.2 0)

def ExponentOk : Prop :=
  ∀ e ∈ exponent, isMarker e.1 = true ∧ e.2.2 ≠ [] ∧ ∀ c ∈ e.2.2, c.isDigit = true

/-- A text of the grammar, part by part. -/
structure DecimalText where
  sign : Sign
  whole : List Char
  /-- What follows the point, where there is one. -/
  fraction : Option (List Char)
  exponent : Option (Char × Sign × List Char)
  digits : ∀ c ∈ whole ++ fraction.getD [], c.isDigit = true
  some_digit : whole ++ fraction.getD [] ≠ []
  exponent_ok : ExponentOk exponent

namespace DecimalText
variable (t : DecimalText)

def mantissa : List Char := t.whole ++ t.fraction.elim [] fun fraction => '.' :: fraction

def text : List Char := t.sign.text ++ t.mantissa ++ exponentText t.exponent

def power : Int := exponentValue t.exponent - (t.fraction.getD []).length

def value : Exact := t.sign.apply (Nat.ofDigitChars 10 (t.whole ++ t.fraction.getD []) 0) * 10 ^ t.power

/-- The limits on length, digits and exponents. -/
structure Within : Prop where
  text : t.text.length ≤ maxNumericDigits + 16
  digits : (t.whole ++ t.fraction.getD []).length ≤ maxNumericDigits
  exponent : (exponentValue t.exponent).natAbs ≤ maxDecimalExponent
  power : t.power.natAbs ≤ maxDecimalExponent

end DecimalText

variable {cs rest text front whole fraction : List Char} {bound n : Nat} {e : Int} {negative : Bool}

theorem not_isMarker_of_isDigit {c : Char} (h : c.isDigit = true) : isMarker c = false := by
  by_contra hm
  simp only [isMarker, Bool.not_eq_false, decide_eq_true_eq] at hm
  obtain rfl | rfl := hm <;> exact absurd h (by decide)

theorem Sign.mem_text {sign : Sign} {c : Char} (h : c ∈ sign.text) : c = '+' ∨ c = '-' := by
  cases sign <;> simp_all [Sign.text]

theorem digits_eq_some : Decimal.digits cs = some n ↔
    cs ≠ [] ∧ (∀ c ∈ cs, c.isDigit = true) ∧ Nat.ofDigitChars 10 cs 0 = n := by
  simp [Decimal.digits, ite_none_right_eq_some, and_assoc]

theorem parseSigned_minus : Decimal.parseSigned bound ('-' :: cs) = some e ↔
    ∃ n : Nat, (Decimal.digits cs = some n ∧ n ≤ bound) ∧ -(n : Int) = e := by
  simp [parseSigned, bind_eq_some_iff, filter_eq_some_iff]

theorem parseSigned_other (h : rest.head? ≠ some '-') : Decimal.parseSigned bound rest = some e ↔
      ∃ n : Nat, (Decimal.digits (Decimal.unsigned rest) = some n ∧ n < bound) ∧ (n : Int) = e := by
  unfold parseSigned
  split
  · exact absurd rfl h
  · simp [parse, bind_eq_some_iff, filter_eq_some_iff]

theorem parseSigned_eq_some (he : e.natAbs ≤ maxDecimalExponent) : Decimal.parseSigned (2 ^ 31) rest = some e ↔
    ∃ (sign : Sign) (ds : List Char), ds ≠ [] ∧
      (∀ c ∈ ds, c.isDigit = true) ∧ rest = sign.text ++ ds ∧ e = sign.apply (Nat.ofDigitChars 10 ds 0) := by
  have hsmall : maxDecimalExponent < 2 ^ 31 := by decide
  constructor
  · intro h
    by_cases hminus : rest.head? = some '-'
    · obtain ⟨cs, rfl⟩ := head?_eq_some_iff.mp hminus
      obtain ⟨n, ⟨hread, -⟩, rfl⟩ := parseSigned_minus.mp h
      obtain ⟨hne, hdigits, rfl⟩ := digits_eq_some.mp hread
      exact ⟨.minus, cs, hne, hdigits, rfl, rfl⟩
    · obtain ⟨n, ⟨hread, -⟩, rfl⟩ := (parseSigned_other hminus).mp h
      obtain ⟨hne, hdigits, rfl⟩ := digits_eq_some.mp hread
      by_cases hplus : rest.head? = some '+'
      · obtain ⟨cs, rfl⟩ := head?_eq_some_iff.mp hplus
        exact ⟨.plus, cs, hne, hdigits, rfl, rfl⟩
      · have hsame : unsigned rest = rest := by
          unfold unsigned
          split
          · exact absurd rfl hplus
          · rfl
        exact ⟨.none, rest, hsame ▸ hne, hsame ▸ hdigits, rfl, by rw [hsame]; rfl⟩
  · rintro ⟨sign, ds, hne, hdigits, rfl, rfl⟩
    have hread := digits_eq_some.mpr ⟨hne, hdigits, rfl⟩
    have hlt : ofDigitChars 10 ds 0 < 2 ^ 31 := by
      cases sign <;> simp [Sign.apply] at he <;> omega
    cases sign with
    | minus => exact parseSigned_minus.mpr ⟨_, ⟨hread, hlt.le⟩, rfl⟩
    | plus => exact (parseSigned_other (by simp [Sign.text])).mpr ⟨_, ⟨hread, hlt⟩, rfl⟩
    | none =>
      have hhead : ds.head? ≠ some '-' :=
        fun h => absurd (hdigits '-' (mem_of_mem_head? h)) (by decide)
      exact (parseSigned_other hhead).mpr ⟨_, ⟨(unsigned_of_digits hdigits).symm ▸ hread, hlt⟩, rfl⟩

theorem splitExponent_eq_ok : splitExponent text = .ok (front, e) ↔
    (∀ c ∈ front, isMarker c = false) ∧ ∃ exponent, ExponentOk exponent ∧
      text = front ++ exponentText exponent ∧ e = exponentValue exponent ∧ e.natAbs ≤ maxDecimalExponent := by
  constructor
  · intro h
    have hfront : ∀ c ∈ text.takeWhile (fun c => !isMarker c), isMarker c = false := by
      intro c hc
      simpa using mem_takeWhile_imp hc
    have hsplit := takeWhile_append_dropWhile (p := fun c => !isMarker c) (l := text)
    unfold splitExponent at h
    split at h
    · next hnil =>
      cases h
      rw [hnil, append_nil] at hsplit
      exact ⟨hsplit ▸ hfront, none, nofun, (append_nil _).symm, rfl, zero_le _⟩
    · next marker rest hcons =>
      simp only [ok_iff, Prod.mk.injEq] at h
      obtain ⟨e, hparse, hle, rfl, rfl⟩ := h
      obtain ⟨sign, ds, hne, hdigits, rfl, he⟩ := (parseSigned_eq_some hle).mp hparse
      have hmarker : isMarker marker = true := by
        have := head?_dropWhile_not (fun c => !isMarker c) text
        rw [hcons] at this
        simpa using this
      rw [hcons] at hsplit
      refine ⟨hfront, some (marker, sign, ds), ?_, hsplit.symm, he, hle⟩
      rintro _ ⟨⟩
      exact ⟨hmarker, hne, hdigits⟩
  · rintro ⟨hfront, exponent, hok, rfl, rfl, hle⟩
    have hfront' : ∀ c ∈ front, (!isMarker c) = true := fun c hc => by simp [hfront c hc]
    rw [splitExponent, dropWhile_append_of_pos hfront', takeWhile_append_of_pos hfront']
    cases exponent with
    | none => simp [exponentText, exponentValue]
    | some e =>
      obtain ⟨marker, sign, ds⟩ := e
      obtain ⟨hmarker, hne, hdigits⟩ := hok _ rfl
      have hparse := (parseSigned_eq_some hle).mpr ⟨sign, ds, hne, hdigits, rfl, rfl⟩
      have hstop : ¬ (!isMarker marker) = true := by simp [hmarker]
      dsimp only [exponentText, elim_some]
      rw [dropWhile_cons_of_neg (p := fun c => !isMarker c) hstop,
        takeWhile_cons_of_neg (p := fun c => !isMarker c) hstop]
      exact bind_eq_ok.mpr ⟨_, orError_eq_ok.mpr hparse, bind_eq_ok.mpr ⟨(), require_eq_ok.mpr hle, by simp⟩⟩

theorem splitSign_eq (h : splitSign cs = (negative, rest)) :
    ∃ sign : Sign, cs = sign.text ++ rest ∧ negative = decide (sign = .minus) := by
  unfold splitSign at h
  split at h
  · cases h
    exact ⟨.minus, rfl, rfl⟩
  · cases h
    exact ⟨.plus, rfl, rfl⟩
  · cases h
    exact ⟨.none, rfl, rfl⟩

theorem splitSign_text (sign : Sign) (h : ∀ c, cs.head? = some c → c ≠ '-' ∧ c ≠ '+') :
    splitSign (sign.text ++ cs) = (decide (sign = .minus), cs) := by
  cases sign with
  | minus => rfl
  | plus => rfl
  | none =>
    cases cs with
    | nil => rfl
    | cons c cs =>
      obtain ⟨hminus, hplus⟩ := h c rfl
      show splitSign (c :: cs) = _
      unfold splitSign
      split
      · next heq => exact absurd (cons.inj heq).1 hminus
      · next heq => exact absurd (cons.inj heq).1 hplus
      · rfl

theorem splitPoint_eq (h : (Text.splitOnce '.' cs).getD (cs, []) = (whole, fraction)) :
    ∃ point : Option (List Char), cs = whole ++ point.elim [] (fun f => '.' :: f) ∧ point.getD [] = fraction := by
  cases hcut : splitOnce '.' cs with
  | none =>
    rw [hcut] at h
    cases h
    exact ⟨none, (append_nil _).symm, rfl⟩
  | some parts =>
    rw [hcut] at h
    obtain rfl : parts = (whole, fraction) := h
    exact ⟨some fraction, (splitOnce_eq_some.mp hcut).2, rfl⟩

theorem splitPoint_text (point : Option (List Char)) (h : '.' ∉ whole) :
    (Text.splitOnce '.' (whole ++ point.elim [] (fun f => '.' :: f))).getD
      (whole ++ point.elim [] (fun f => '.' :: f), []) = (whole, point.getD []) := by
  cases point with
  | none =>
    rw [elim_none, append_nil, splitOnce_eq_none h]
    rfl
  | some fraction =>
    rw [elim_some, splitOnce_append _ h]
    rfl

theorem coefficient_value (c power : Int) :
    (if c = 0 then .ok 0 else if 0 ≤ power then .ok ((c * 10 ^ power.natAbs : Int) : Exact)
      else .ok (Rat.divInt c (10 ^ power.natAbs))) = (Except.ok (c * 10 ^ power) : Except ExactError Exact) := by
  split
  · next h => simp [h]
  · split
    · next h =>
      obtain ⟨n, rfl⟩ := Int.eq_ofNat_of_zero_le h
      simp
    · next h =>
      obtain ⟨n, hn⟩ := Int.eq_ofNat_of_zero_le (show 0 ≤ -power by omega)
      obtain rfl : power = -n := by omega
      simp [Rat.divInt_eq_div, div_eq_mul_inv]

namespace DecimalText
variable (t : DecimalText)

theorem mem_mantissa {c : Char} (h : c ∈ t.mantissa) : c.isDigit = true ∨ c = '.' := by
  rcases mem_append.mp h with hw | hf
  · exact .inl (t.digits c (mem_append_left _ hw))
  · cases hfraction : t.fraction with
    | none => simp [hfraction] at hf
    | some fraction =>
      simp only [hfraction, elim_some, mem_cons] at hf
      have := t.digits c
      simp only [hfraction, getD_some, mem_append] at this
      tauto

theorem byteLength_text : Text.byteLength t.text = t.text.length := by
  have hsign {sign : Sign} {c : Char} (hc : c ∈ sign.text) : c.utf8Size = 1 := by
    obtain rfl | rfl := Sign.mem_text hc <;> rfl
  apply byteLength_of_utf8Size
  intro c hc
  simp only [text, exponentText, mem_append] at hc
  obtain (hc | hc) | hc := hc
  · exact hsign hc
  · obtain hdigit | rfl := t.mem_mantissa hc
    · exact utf8Size_of_isDigit hdigit
    · rfl
  · cases he : t.exponent with
    | none => simp [he] at hc
    | some e =>
      obtain ⟨hmarker, -, hdigits⟩ := t.exponent_ok e he
      simp only [he, elim_some, mem_cons, mem_append] at hc
      obtain rfl | hc | hc := hc
      · simp only [isMarker, decide_eq_true_eq] at hmarker
        obtain h | h := hmarker <;> rw [h] <;> rfl
      · exact hsign hc
      · exact utf8Size_of_isDigit (hdigits c hc)

theorem parseDecimal_text (h : t.Within) : parseDecimal t.text = .ok t.value := by
  have hwhole : ∀ c ∈ t.whole, c.isDigit = true := fun c hc => t.digits c (mem_append_left _ hc)
  have hfraction : ∀ c ∈ t.fraction.getD [], c.isDigit = true := fun c hc => t.digits c (mem_append_right _ hc)
  have hexponent : splitExponent t.text = .ok (t.sign.text ++ t.mantissa, exponentValue t.exponent) := by
    refine splitExponent_eq_ok.mpr ⟨?_, t.exponent, t.exponent_ok, rfl, rfl, h.exponent⟩
    intro c hc
    obtain hc | hc := mem_append.mp hc
    · obtain rfl | rfl := Sign.mem_text hc <;> rfl
    · obtain hdigit | rfl := t.mem_mantissa hc
      · exact not_isMarker_of_isDigit hdigit
      · rfl
  have hsign : splitSign (t.sign.text ++ t.mantissa) = (decide (t.sign = .minus), t.mantissa) := by
    apply splitSign_text
    intro c hc
    obtain hdigit | rfl := t.mem_mantissa (mem_of_mem_head? hc)
    · constructor <;> rintro rfl <;> exact absurd hdigit (by decide)
    · decide
  have hpoint : (splitOnce '.' t.mantissa).getD (t.mantissa, []) = (t.whole, t.fraction.getD []) :=
    splitPoint_text t.fraction fun hdot => absurd (hwhole '.' hdot) (by decide)
  simp only [parseDecimal, ok_iff, coefficient_value]
  refine ⟨t.byteLength_text ▸ h.text, _, hexponent, ?_⟩
  simp only [hsign, hpoint, byteLength_digits hwhole, byteLength_digits hfraction, decide_eq_true_eq, ← length_append]
  exact ⟨h.digits, ⟨fun h0 => t.some_digit (length_eq_zero_iff.mp h0), t.digits⟩, h.power, rfl⟩

end DecimalText

theorem parseDecimal_eq_ok {x : Exact} :
    parseDecimal text = .ok x ↔ ∃ t : DecimalText, t.text = text ∧ t.Within ∧ t.value = x := by
  constructor
  · intro h
    simp only [parseDecimal, ok_iff, coefficient_value] at h
    obtain ⟨hlength, ⟨front, e⟩, hexponent, hcount, ⟨hne, hall⟩, hpower, rfl⟩ := h
    rcases hsign : splitSign front with ⟨negative, mantissa⟩
    rcases hpoint : (splitOnce '.' mantissa).getD (mantissa, []) with ⟨whole, fraction⟩
    simp only [hsign, hpoint] at hcount hne hall hpower ⊢
    obtain ⟨-, exponent, hok, rfl, rfl, hle⟩ := splitExponent_eq_ok.mp hexponent
    obtain ⟨sign, rfl, rfl⟩ := splitSign_eq hsign
    obtain ⟨point, rfl, rfl⟩ := splitPoint_eq hpoint
    have hwhole := byteLength_digits (fun c hc => hall c (mem_append_left _ hc))
    have hfraction := byteLength_digits fun c hc => hall c (mem_append_right _ hc)
    rw [hwhole, hfraction, ← length_append] at hcount hne
    rw [hfraction] at hpower ⊢
    let t : DecimalText := ⟨sign, whole, point, exponent, hall, fun h0 => hne (by rw [h0]; rfl), hok⟩
    refine ⟨t, rfl, ⟨t.byteLength_text ▸ hlength, hcount, hle, hpower⟩, ?_⟩
    simp only [decide_eq_true_eq]
    rfl
  · rintro ⟨t, rfl, hwithin, rfl⟩
    exact t.parseDecimal_text hwithin

/-- The digits of a printed number, zeros in front or not, with a point `scale` places from the right. -/
theorem printed_denotes (n : ℤ) (zeros : ℕ) {scale : ℕ} (whole : List Char) (fraction : Option (List Char))
    (hdigits : whole ++ fraction.getD [] = List.replicate zeros '0' ++ Nat.toDigits 10 n.natAbs)
    (hscale : (fraction.getD []).length = scale) : ∃ t : DecimalText, t.exponent = none ∧ t.value = n / 10 ^ scale ∧
      t.text = (if n < 0 then ['-'] else []) ++ (whole ++ fraction.elim [] (fun f => '.' :: f)) := by
  have hall : ∀ c ∈ whole ++ fraction.getD [], c.isDigit = true := by
    rw [hdigits]
    intro c hc
    obtain hc | hc := mem_append.mp hc
    · rw [eq_of_mem_replicate hc]
      rfl
    · exact isDigit_toDigits _ c hc
  have hne : whole ++ fraction.getD [] ≠ [] := by
    rw [hdigits]
    exact append_ne_nil_of_right_ne_nil _ toDigits_ne_nil
  have hread : ofDigitChars 10 (whole ++ fraction.getD []) 0 = n.natAbs := by
    rw [hdigits, ofDigitChars_append, ofDigitChars_replicate_zero, mul_zero, ofDigitChars_ten_toDigits]
  refine ⟨⟨if n < 0 then .minus else .none, whole, fraction, none, hall, hne, nofun⟩, rfl, ?_, ?_⟩
  · have hn : Sign.apply (if n < 0 then .minus else .none) n.natAbs = n := by
      unfold Sign.apply
      split
      · rw [if_pos rfl]
        omega
      · rw [if_neg (by decide)]
        omega
    simp only [DecimalText.value, DecimalText.power, exponentValue, elim_none, hread, hn, hscale]
    rw [zero_sub, zpow_neg, zpow_natCast, div_eq_mul_inv]
  · simp only [DecimalText.text, DecimalText.mantissa, exponentText, elim_none, append_nil]
    split <;> rfl

theorem scaledText_denotes (n : ℤ) (scale : ℕ) :
    ∃ t : DecimalText, t.exponent = none ∧ t.value = n / 10 ^ scale ∧ t.text = scaledText n scale := by
  unfold scaledText
  dsimp only
  split
  · next h0 =>
    obtain ⟨t, hexponent, hvalue, htext⟩ := printed_denotes n 0 (toDigits 10 n.natAbs) none (append_nil _) rfl
    exact ⟨t, hexponent, h0 ▸ hvalue, by simpa using htext⟩
  · split
    · next hlen =>
      have hlength : (replicate (scale - (Nat.toDigits 10 n.natAbs).length) '0' ++
          Nat.toDigits 10 n.natAbs).length = scale := by
        rw [length_append, length_replicate, Nat.sub_add_cancel hlen]
      obtain ⟨t, hexponent, hvalue, htext⟩ := printed_denotes n (_ + 1) ['0'] (some _) rfl hlength
      exact ⟨t, hexponent, hvalue, by simpa using htext⟩
    · have hlength : ((Nat.toDigits 10 n.natAbs).drop ((Nat.toDigits 10 n.natAbs).length - scale)).length = scale := by
        rw [length_drop]
        omega
      obtain ⟨t, hexponent, hvalue, htext⟩ := printed_denotes n 0 _ (some _) (take_append_drop _ _) hlength
      exact ⟨t, hexponent, hvalue, by simpa using htext⟩

/-- **Decimal text and exact values.** -/
theorem decimal_text_exact (x : Exact) (text : List Char) :
    (parseDecimal text = .ok x ↔ ∃ t : DecimalText, t.text = text ∧ t.Within ∧ t.value = x) ∧
    ((toDecimalString x).isSome = true ↔ ∃ a b, x.den = 2 ^ a * 5 ^ b) ∧
    (toDecimalString x = some text → ∃ t : DecimalText, t.text = text ∧ t.exponent = none ∧ t.value = x ∧
      (t.Within → parseDecimal text = .ok x)) := by
  refine ⟨parseDecimal_eq_ok, ?_, ?_⟩
  · rw [toDecimalString_isSome]
    exact Binary64.isDecimal_iff
  · intro h
    obtain ⟨n, scale, rfl, rfl⟩ := toDecimalString_eq_some h
    obtain ⟨t, hexponent, hvalue, htext⟩ := scaledText_denotes n scale
    exact ⟨t, htext, hexponent, hvalue, fun hwithin => htext ▸ hvalue ▸ t.parseDecimal_text hwithin⟩

end LiquidityMigration.Orders
