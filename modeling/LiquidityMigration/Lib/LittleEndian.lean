import Mathlib

/- Little-endian 32-bit words as four bytes. `toBytes` is total on the naturals
   and keeps the low 32 bits, which is what a narrowing cast followed by a byte
   split does; `ofBytes` reads four bytes back. The two meet at the residue
   (`ofBytes_toBytes`), so a word that fits is read back as written and one that
   does not is read back reduced. -/
namespace LittleEndian
open List

/-- The four little-endian bytes of `n` reduced to 32 bits. -/
def toBytes (n : Nat) : List UInt8 :=
  [UInt8.ofNat n, UInt8.ofNat (n / 2^8), UInt8.ofNat (n / 2^16), UInt8.ofNat (n / 2^24)]

/-- The word held by the first four bytes; missing bytes read as zero. -/
def ofBytes (b : List UInt8) : Nat :=
  (b.getD 0 0).toNat + (b.getD 1 0).toNat * 2^8 + (b.getD 2 0).toNat * 2^16 + (b.getD 3 0).toNat * 2^24

@[simp] theorem toBytes_length (n : Nat) : (toBytes n).length = 4 := rfl

theorem ofBytes_append {b : List UInt8} (h : 4 ≤ b.length) (c : List UInt8) : ofBytes (b ++ c) = ofBytes b := by
  unfold ofBytes
  rw [getD_append _ _ _ _ (by omega), getD_append _ _ _ _ (by omega),
    getD_append _ _ _ _ (by omega), getD_append _ _ _ _ (by omega)]

theorem ofBytes_toBytes (n : Nat) : ofBytes (toBytes n) = n % 2^32 := by
  simp only [ofBytes, toBytes, getD_cons_zero, getD_cons_succ, UInt8.toNat_ofNat']
  omega

theorem ofBytes_toBytes_append (n : Nat) (c : List UInt8) : ofBytes (toBytes n ++ c) = n % 2^32 := by
  rw [ofBytes_append (by simp), ofBytes_toBytes]

end LittleEndian
