import Mathlib

/- Numbers as big-endian bytes. `toBytes w` writes the low `w` bytes, most
   significant first, and `ofBytes` reads any run of bytes. Written and read back, a
   number is reduced to the width (`ofBytes_toBytes`); read and written back, bytes
   are themselves (`toBytes_ofBytes`). -/
namespace BigEndian

def toBytes : Nat → Nat → List UInt8
  | 0, _ => []
  | w + 1, n => UInt8.ofNat (n / 256^w) :: toBytes w n

def ofBytes : List UInt8 → Nat
  | [] => 0
  | b :: bs => b.toNat * 256^bs.length + ofBytes bs

@[simp] theorem toBytes_length (w n : Nat) : (toBytes w n).length = w := by
  induction w with
  | zero => rfl
  | succ w ih => rw [toBytes, List.length_cons, ih]

@[simp] theorem ofBytes_zero_cons (bs : List UInt8) : ofBytes (0 :: bs) = ofBytes bs := by
  simp [ofBytes]

theorem ofBytes_append (as bs : List UInt8) : ofBytes (as ++ bs) = ofBytes as * 256^bs.length + ofBytes bs := by
  induction as with
  | nil => simp [ofBytes]
  | cons a as ih =>
    rw [List.cons_append, ofBytes, ih, ofBytes, List.length_append]
    ring

theorem ofBytes_lt (bs : List UInt8) : ofBytes bs < 256^bs.length := by
  induction bs with
  | nil => decide
  | cons b bs ih =>
    have hb : b.toNat + 1 ≤ 256 := b.toNat_lt
    calc ofBytes (b :: bs) < b.toNat * 256^bs.length + 256^bs.length := by rw [ofBytes]; omega
      _ = (b.toNat + 1) * 256^bs.length := by ring
      _ ≤ 256 * 256^bs.length := Nat.mul_le_mul_right _ hb
      _ = 256^(bs.length + 1) := by ring

theorem ofBytes_toBytes (w n : Nat) : ofBytes (toBytes w n) = n % 256^w := by
  induction w with
  | zero => simp [toBytes, ofBytes, Nat.mod_one]
  | succ w ih =>
    rw [toBytes, ofBytes, ih, toBytes_length, UInt8.toNat_ofNat', Nat.mod_pow_succ (b := 256), Nat.add_comm,
      Nat.mul_comm]

theorem toBytes_add_mul (w k n : Nat) : toBytes w (k * 256^w + n) = toBytes w n := by
  induction w generalizing k with
  | zero => rfl
  | succ w ih =>
    have hshift : k * 256^(w + 1) + n = (k * 256) * 256^w + n := by ring
    have hdiv : ((k * 256) * 256^w + n) / 256^w = k * 256 + n / 256^w := by
      rw [Nat.mul_comm, Nat.mul_add_div (Nat.pow_pos (by decide))]
    rw [toBytes, toBytes, hshift, ih, hdiv]
    congr 1
    apply UInt8.toNat_inj.mp
    rw [UInt8.toNat_ofNat', UInt8.toNat_ofNat']
    omega

theorem toBytes_ofBytes (bs : List UInt8) : toBytes bs.length (ofBytes bs) = bs := by
  induction bs with
  | nil => rfl
  | cons b bs ih =>
    have hlt := ofBytes_lt bs
    have hhead : (b.toNat * 256^bs.length + ofBytes bs) / 256^bs.length = b.toNat := by
      rw [Nat.mul_comm, Nat.mul_add_div (Nat.pow_pos (by decide)), Nat.div_eq_of_lt hlt, Nat.add_zero]
    rw [List.length_cons, toBytes, ofBytes, hhead, toBytes_add_mul, ih, UInt8.ofNat_toNat]

end BigEndian
