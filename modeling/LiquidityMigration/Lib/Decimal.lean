import Mathlib

/- Decimal text. `padded w` prints a number with zeros on the left up to `w` characters; `parse` reads what an
   unsigned type of `bound` values accepts: digits after at most one plus sign, below the bound; `parseSigned` reads
   the signed type. A text is the print of its number when it has no zero in front (`toDigits_ofDigitChars`), and
   among texts of one length (`padded_ofDigitChars`). -/
namespace Decimal
open List Nat Option

def padded (w n : Nat) : List Char :=
  List.replicate (w - (Nat.toDigits 10 n).length) '0' ++ Nat.toDigits 10 n

def digits (cs : List Char) : Option Nat :=
  if cs ≠ [] ∧ ∀ c ∈ cs, c.isDigit = true then some (Nat.ofDigitChars 10 cs 0) else none

def unsigned : List Char → List Char
  | '+' :: cs => cs
  | cs => cs

def parse (bound : Nat) (cs : List Char) : Option Nat :=
  (digits (unsigned cs)).filter fun n => n < bound

def parseSigned (bound : Nat) : List Char → Option Int
  | '-' :: cs => ((digits cs).filter (fun n => n ≤ bound)).map fun n => -(n : Int)
  | cs => (parse bound cs).map fun n => (n : Int)

theorem isDigit_toDigits (n : Nat) : ∀ c ∈ Nat.toDigits 10 n, c.isDigit = true :=
  fun _ hc => isDigit_of_mem_toDigits (by decide) (by decide) hc

theorem isDigit_padded (w n : Nat) : ∀ c ∈ padded w n, c.isDigit = true := by
  intro c hc
  rcases mem_append.mp hc with h | h
  · rw [eq_of_mem_replicate h]; rfl
  · exact isDigit_toDigits n c h

theorem padded_ne_nil (w n : Nat) : padded w n ≠ [] := by
  intro h
  exact toDigits_ne_nil (append_eq_nil_iff.mp h).2

theorem digits_padded (w n : Nat) : digits (padded w n) = some n := by
  rw [digits, if_pos ⟨padded_ne_nil w n, isDigit_padded w n⟩, padded, ofDigitChars_append,
    ofDigitChars_replicate_zero, mul_zero, ofDigitChars_ten_toDigits]

variable {cs : List Char}

theorem unsigned_of_digits (h : ∀ c ∈ cs, c.isDigit = true) : unsigned cs = cs := by
  unfold unsigned
  split
  · next cs => exact absurd (h '+' (by simp)) (by decide)
  · rfl

theorem parse_padded {bound : Nat} (w : Nat) {n : Nat} (h : n < bound) : parse bound (padded w n) = some n := by
  rw [parse, unsigned_of_digits (isDigit_padded w n), digits_padded]
  simp [h]

theorem parse_lt {bound n : Nat} (h : parse bound cs = some n) : n < bound := by
  simpa using (filter_eq_some_iff.mp h).2

/-- Digits alone are read as a machine integer when their number fits. -/
theorem parse_eq_some {bound n : Nat} (hne : cs ≠ []) (hdigits : ∀ c ∈ cs, c.isDigit = true) :
    parse bound cs = some n ↔ Nat.ofDigitChars 10 cs 0 = n ∧ n < bound := by
  rw [parse, unsigned_of_digits hdigits, digits, if_pos ⟨hne, hdigits⟩, filter_eq_some_iff,
    some.injEq, decide_eq_true_eq]

theorem padded_injective (w : Nat) : Function.Injective (padded w) := by
  intro m n h
  have := congrArg digits h
  rw [digits_padded, digits_padded] at this
  exact some.inj this

theorem toDigits_injective : Function.Injective (Nat.toDigits 10) := by
  intro m n h
  rw [← ofDigitChars_ten_toDigits (n := m), h, ofDigitChars_ten_toDigits]

theorem dash_not_mem_toDigits (n : Nat) : '-' ∉ Nat.toDigits 10 n :=
  fun h => absurd (isDigit_toDigits n _ h) (by decide)

theorem digitChar_sub {c : Char} (h : c.isDigit = true) :
    c.toNat - '0'.toNat < 10 ∧ Nat.digitChar (c.toNat - '0'.toNat) = c := by
  simp only [Char.isDigit, Bool.and_eq_true, decide_eq_true_eq, ge_iff_le] at h
  have hlow : 48 ≤ c.toNat := UInt32.le_iff_toNat_le.mp h.1
  have hhigh : c.toNat ≤ 57 := UInt32.le_iff_toNat_le.mp h.2
  refine ⟨by show c.toNat - 48 < 10; omega, ?_⟩
  rw [← Char.ofNat_toNat c]
  generalize c.toNat = n at hlow hhigh
  interval_cases n <;> rfl

def LeadingZero (cs : List Char) : Prop := cs.head? = some '0' ∧ 1 < cs.length
  deriving Decidable

theorem not_leadingZero_toDigits (n : Nat) : ¬ LeadingZero (Nat.toDigits 10 n) := by
  induction n using Nat.strongRecOn with
  | ind n ih =>
    rintro ⟨hhead, hlength⟩
    rcases lt_or_ge n 10 with hlt | hge
    · rw [toDigits_of_lt_base hlt] at hlength
      simp at hlength
    · rw [toDigits_of_base_le (by decide) hge] at hhead
      have hfront : (toDigits 10 (n / 10)).head? = some '0' := by
        rcases hdigits : toDigits 10 (n / 10) with _ | ⟨c, cs⟩
        · exact absurd hdigits toDigits_ne_nil
        · rw [hdigits] at hhead
          exact hhead
      -- what stands in front of the last digit is a single zero, so there is no front
      have hsingle : (toDigits 10 (n / 10)).length ≤ 1 :=
        Nat.le_of_not_lt (fun h => ih (n / 10) (by omega) ⟨hfront, h⟩)
      have hsmall : n / 10 < 10 := (length_toDigits_le_iff (by decide) (by decide)).mp hsingle
      rw [toDigits_of_lt_base hsmall] at hfront
      have hzero : n / 10 = 0 := digitChar_eq_zero.mp (some.inj hfront)
      omega

/-- Digits with no zero in front are the digits their number is printed with. -/
theorem toDigits_ofDigitChars (hne : cs ≠ []) (hdigits : ∀ c ∈ cs, c.isDigit = true)
    (hzero : ¬ LeadingZero cs) : Nat.toDigits 10 (Nat.ofDigitChars 10 cs 0) = cs := by
  induction cs using reverseRecOn with
  | nil => exact absurd rfl hne
  | append_singleton front c ih =>
    obtain ⟨hlt, hc⟩ := digitChar_sub (hdigits c (by simp))
    rw [ofDigitChars_append, ofDigitChars_cons, ofDigitChars_nil]
    rcases front.eq_nil_or_concat with rfl | hfront
    · rw [ofDigitChars_nil, mul_zero, zero_add, toDigits_of_lt_base hlt, hc, nil_append]
    · have hfront : front ≠ [] := by rintro rfl; simp at hfront
      -- the front is the print of its value, which is not zero: it would be a zero in front
      have hhead : front.head? ≠ some '0' := by
        intro h
        refine hzero ⟨by rw [head?_append, h]; rfl, ?_⟩
        have := length_pos_iff.mpr hfront
        rw [length_append, length_singleton]
        omega
      have hprint := ih hfront (fun d hd => hdigits d (by simp [hd])) (fun h => hhead h.1)
      have hpos : 0 < ofDigitChars 10 front 0 := by
        apply pos_of_ne_zero
        intro h
        rw [h, toDigits_zero] at hprint
        exact hhead (by rw [← hprint]; rfl)
      rw [← toDigits_append_toDigits (by decide) hpos hlt, hprint, toDigits_of_lt_base hlt, hc]

theorem ofDigitChars_lt (hdigits : ∀ c ∈ cs, c.isDigit = true) : Nat.ofDigitChars 10 cs 0 < 10 ^ cs.length := by
  induction cs using reverseRecOn with
  | nil => simp
  | append_singleton front c ih =>
    have hlt := (digitChar_sub (hdigits c (by simp))).1
    have hfront := ih fun d hd => hdigits d (by simp [hd])
    rw [ofDigitChars_append, ofDigitChars_cons, ofDigitChars_nil, length_append, length_singleton, pow_succ]
    omega

theorem length_padded {w n : Nat} (hw : 0 < w) (h : n < 10 ^ w) : (padded w n).length = w := by
  have hle : (toDigits 10 n).length ≤ w := (length_toDigits_le_iff (by decide) hw).mpr h
  rw [padded, length_append, length_replicate]
  omega

theorem eq_of_ofDigitChars_eq {ds : List Char} (hcs : ∀ c ∈ cs, c.isDigit = true)
    (hds : ∀ c ∈ ds, c.isDigit = true) (hlength : cs.length = ds.length)
    (h : Nat.ofDigitChars 10 cs 0 = Nat.ofDigitChars 10 ds 0) : cs = ds := by
  induction cs using reverseRecOn generalizing ds with
  | nil => exact (length_eq_zero_iff.mp hlength.symm).symm
  | append_singleton front c ih =>
    rcases ds.eq_nil_or_concat with rfl | ⟨front', c', rfl⟩
    · simp at hlength
    · rw [concat_eq_append] at hds hlength h ⊢
      obtain ⟨hlt, hc⟩ := digitChar_sub (hcs c (by simp))
      obtain ⟨hlt', hc'⟩ := digitChar_sub (hds c' (by simp))
      rw [ofDigitChars_append, ofDigitChars_cons, ofDigitChars_nil, ofDigitChars_append,
        ofDigitChars_cons, ofDigitChars_nil] at h
      -- the last digit and what stands in front of it are read off the number
      have hlast : c.toNat - '0'.toNat = c'.toNat - '0'.toNat := by omega
      have hfront : front = front' := by
        apply ih (fun d hd => hcs d (by simp [hd])) fun d hd => hds d (by simp [hd])
        · simpa using hlength
        · omega
      rw [hfront, ← hc, ← hc', hlast]

theorem padded_ofDigitChars {w : Nat} (hw : 0 < w) (hlength : cs.length = w)
    (hdigits : ∀ c ∈ cs, c.isDigit = true) : padded w (Nat.ofDigitChars 10 cs 0) = cs := by
  have hlt : ofDigitChars 10 cs 0 < 10 ^ w := hlength ▸ ofDigitChars_lt hdigits
  apply eq_of_ofDigitChars_eq (isDigit_padded w _) hdigits
  · rw [length_padded hw hlt, hlength]
  · have hread := digits_padded w (ofDigitChars 10 cs 0)
    rw [digits, if_pos ⟨padded_ne_nil w _, isDigit_padded w _⟩] at hread
    exact some.inj hread

end Decimal
