import LiquidityMigration.Lib.Decimal

/- Hexadecimal text. A number is printed by `Nat.toDigits 16`, in lower case and
   with no zero in front, or `padded` with zeros; `parse` reads what an unsigned
   integer type of `bound` values accepts: digits of either case after at most one
   plus sign. `encode` and `decode` are two digits for each byte. Whatever is
   printed is read back (`parse_toDigits`, `parse_padded`, `decode_encode`). -/
namespace Hex
open List Nat Option

def digitValue (c : Char) : Option Nat :=
  if '0' ≤ c ∧ c ≤ '9' then some (c.toNat - '0'.toNat)
  else if 'a' ≤ c ∧ c ≤ 'f' then some (c.toNat - 'a'.toNat + 10)
  else if 'A' ≤ c ∧ c ≤ 'F' then some (c.toNat - 'A'.toNat + 10)
  else none

/-- The number of a run of digits read after those of `acc`. -/
def value (acc : Nat) : List Char → Option Nat
  | [] => some acc
  | c :: cs => (digitValue c).bind fun d => value (16 * acc + d) cs

def parse (bound : Nat) (cs : List Char) : Option Nat :=
  let digits := Decimal.unsigned cs
  if digits.isEmpty then none else (value 0 digits).filter fun n => n < bound

def padded (w n : Nat) : List Char :=
  List.replicate (w - (Nat.toDigits 16 n).length) '0' ++ Nat.toDigits 16 n

def encode (bytes : List UInt8) : List Char :=
  bytes.flatMap fun b => [Nat.digitChar (b.toNat / 16), Nat.digitChar (b.toNat % 16)]

def decode : List Char → Option (List UInt8)
  | [] => some []
  | [_] => none
  | high :: low :: rest => do
    let h ← digitValue high
    let l ← digitValue low
    return UInt8.ofNat (16 * h + l) :: (← decode rest)

theorem digitValue_digitChar : ∀ d < 16, digitValue (Nat.digitChar d) = some d := by decide

def IsDigit (c : Char) : Prop := ∃ d < 16, c = Nat.digitChar d

theorem IsDigit.ne {c d : Char} (h : IsDigit c) (hd : ∀ n < 16, Nat.digitChar n ≠ d) : c ≠ d := by
  obtain ⟨n, hn, rfl⟩ := h
  exact hd n hn

theorem IsDigit.utf8Size {c : Char} (h : IsDigit c) : c.utf8Size = 1 := by
  obtain ⟨n, hn, rfl⟩ := h
  revert n
  decide

theorem isDigit_toDigits (n : Nat) : ∀ c ∈ Nat.toDigits 16 n, IsDigit c := by
  induction n using Nat.strongRecOn with
  | ind n ih =>
    intro c hc
    rw [toDigits_eq_if (by decide)] at hc
    split at hc
    · next hlt => exact ⟨n, hlt, mem_singleton.mp hc⟩
    · rcases mem_append.mp hc with hc | hc
      · exact ih (n / 16) (by omega) c hc
      · exact ⟨n % 16, mod_lt _ (by decide), mem_singleton.mp hc⟩

theorem isDigit_padded (w n : Nat) : ∀ c ∈ padded w n, IsDigit c := by
  intro c hc
  rcases mem_append.mp hc with h | h
  · exact ⟨0, by decide, eq_of_mem_replicate h⟩
  · exact isDigit_toDigits n c h

theorem padded_ne_nil (w n : Nat) : padded w n ≠ [] :=
  fun h => toDigits_ne_nil (append_eq_nil_iff.mp h).2

theorem value_append (acc : Nat) (cs ds : List Char) :
    value acc (cs ++ ds) = (value acc cs).bind (fun n => value n ds) := by
  induction cs generalizing acc with
  | nil => rfl
  | cons c cs ih =>
    rw [cons_append, value, value]
    cases digitValue c with
    | none => rfl
    | some d => exact ih _

theorem value_toDigits (n : Nat) : value 0 (Nat.toDigits 16 n) = some n := by
  induction n using Nat.strongRecOn with
  | ind n ih =>
    rw [toDigits_eq_if (by decide)]
    split
    · next hlt => simp [value, digitValue_digitChar n hlt]
    · have hdigit := digitValue_digitChar (n % 16) (mod_lt _ (by decide))
      rw [value_append, ih (n / 16) (by omega), bind_some, value, hdigit, bind_some, value, div_add_mod]

theorem value_padded (w n : Nat) : value 0 (padded w n) = some n := by
  unfold padded
  generalize w - (toDigits 16 n).length = k
  induction k with
  | zero => exact value_toDigits n
  | succ k ih => exact ih

variable {cs : List Char}

theorem unsigned_of_isDigit (h : ∀ c ∈ cs, IsDigit c) : Decimal.unsigned cs = cs := by
  unfold Decimal.unsigned
  split
  · next cs => exact absurd rfl ((h '+' (by simp)).ne (by decide))
  · rfl

theorem parse_of_value {bound n : Nat} (hdigits : ∀ c ∈ cs, IsDigit c) (hne : cs ≠ [])
    (hvalue : value 0 cs = some n) (hn : n < bound) : parse bound cs = some n := by
  simp only [parse, unsigned_of_isDigit hdigits, List.isEmpty_iff, if_neg hne, hvalue]
  simp [hn]

theorem parse_toDigits {bound n : Nat} (hn : n < bound) : parse bound (Nat.toDigits 16 n) = some n :=
  parse_of_value (isDigit_toDigits n) toDigits_ne_nil (value_toDigits n) hn

theorem parse_padded {bound n : Nat} (w : Nat) (hn : n < bound) : parse bound (padded w n) = some n :=
  parse_of_value (isDigit_padded w n) (padded_ne_nil w n) (value_padded w n) hn

theorem parse_lt {bound n : Nat} (h : parse bound cs = some n) : n < bound := by
  simp only [parse] at h
  split at h
  · cases h
  · simpa using (filter_eq_some_iff.mp h).2

theorem decode_encode (bytes : List UInt8) : decode (encode bytes) = some bytes := by
  induction bytes with
  | nil => rfl
  | cons b bytes ih =>
    have hb : b.toNat < 256 := b.toNat_lt
    have hhigh := digitValue_digitChar (b.toNat / 16) (by omega)
    have hlow := digitValue_digitChar (b.toNat % 16) (by omega)
    have hencode : encode (b :: bytes) =
        digitChar (b.toNat / 16) :: digitChar (b.toNat % 16) :: encode bytes := rfl
    have hbyte : UInt8.ofNat (16 * (b.toNat / 16) + b.toNat % 16) = b := by
      rw [div_add_mod, UInt8.ofNat_toNat]
    rw [hencode, decode, hhigh, hlow, ih]
    simp only [bind_eq_bind, bind_some, Option.pure_def, hbyte]

theorem isDigit_encode (bytes : List UInt8) : ∀ c ∈ encode bytes, IsDigit c := by
  intro c hc
  obtain ⟨b, -, hc⟩ := mem_flatMap.mp hc
  have hb : b.toNat < 256 := b.toNat_lt
  simp only [mem_cons, not_mem_nil, or_false] at hc
  rcases hc with rfl | rfl
  · exact ⟨_, by omega, rfl⟩
  · exact ⟨_, by omega, rfl⟩

end Hex
