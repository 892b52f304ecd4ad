import LiquidityMigration.Venue.Lighter.Scalar

/- Schnorr signatures as Lighter checks them: `s = k - e·sk` with the challenge `e = H(r ‖ H(m))` and `r` the
   encoding of `k·G`. Of the hash nothing is assumed; of the curve, where at all, that its points stand for the
   elements of a group of the right order (`Curve.Group`), since a point has many representations.
   1. `Curve.Group.mul`: double-and-add over 320 bits gives the multiple.
   2. `verify_signWithNonce`: the point recovered from a signature is `k·G` again.
   3. `Signature.fromBytes_eq_some`: bytes are read as what is written as them. -/
namespace LiquidityMigration.Venue.Lighter
open List Nat Option
open Scalar (order order_pos bits bits_eq value_mul value_sub value_fromNonCanonical two_orders_le fromLeBytes
  fromLeBytes_of_length fromLeBytesCanonical fromLeBytesCanonical_eq_some toLeBytes length_toLeBytes)

abbrev Element := Words

/-- The curve: its points, their sum and double, and the one element a point is sent as. -/
structure Curve where
  Point : Type
  (neutral generator : Point)
  add : Point → Point → Point
  double : Point → Point
  encode : Point → Element
  decode : Element → Option Point

namespace Curve

variable (curve : Curve)

def mulStep (p acc : curve.Point) (bit : Bool) : curve.Point :=
  if bit then curve.add (curve.double acc) p else curve.double acc

/-- `Point::mul`, most significant bit first. -/
def mul (p : curve.Point) (s : Scalar) : curve.Point := (bits s).reverse.foldl (curve.mulStep p) curve.neutral

def mulAddG (p : curve.Point) (a b : Scalar) : curve.Point := curve.add (curve.mul curve.generator a) (curve.mul p b)

/-- The points of the curve stand for the elements of a group of the scalars' order, and
an element is sent as the same five words whichever point stands for it. -/
structure Group (G : Type) [AddCommGroup G] where
  stands : curve.Point → G → Prop
  g : G
  neutral : stands curve.neutral 0
  generator : stands curve.generator g
  add : ∀ {p q x y}, stands p x → stands q y → stands (curve.add p q) (x + y)
  double : ∀ {p x}, stands p x → stands (curve.double p) (x + x)
  card : Nat.card G = order.value
  encode : ∀ {p q x}, stands p x → stands q x → curve.encode p = curve.encode q
  decode : ∀ {p x}, stands p x → ∃ q, curve.decode (curve.encode p) = some q ∧ stands q x

end Curve

theorem shiftRight_step (v k : Nat) : v >>> k = v >>> (k + 1) + v >>> (k + 1) + (v.testBit k).toNat := by
  rw [shiftRight_succ, testBit_eq_decide_div_mod_eq, ← shiftRight_eq_div_pow]
  by_cases h : v >>> k % 2 = 1
  · rw [decide_eq_true h, Bool.toNat_true]
    omega
  · rw [decide_eq_false h, Bool.toNat_false]
    omega

theorem shiftRight_of_lt {v k : Nat} (h : v < 2 ^ k) : v >>> k = 0 := shiftRight_eq_zero v k h

namespace Curve.Group

variable {curve : Curve} {G : Type} [AddCommGroup G] (group : curve.Group G) {x : G}

theorem mulStep {p acc : curve.Point} {n : Nat} (hp : group.stands p x) (hacc : group.stands acc (n • x))
    (bit : Bool) : group.stands (curve.mulStep p acc bit) ((n + n + bit.toNat) • x) := by
  have hdouble := group.double hacc
  rw [← add_nsmul] at hdouble
  cases bit with
  | false => exact hdouble
  | true =>
    rw [Bool.toNat_true, succ_nsmul]
    exact group.add hdouble hp

theorem mul_bits {p acc : curve.Point} (v k : Nat) (hp : group.stands p x) (hacc : group.stands acc ((v >>> k) • x)) :
    group.stands (((List.range k).map v.testBit).reverse.foldl (curve.mulStep p) acc) (v • x) := by
  induction k generalizing acc with
  | zero => exact hacc
  | succ k ih =>
    rw [range_succ, map_append, reverse_append]
    apply ih
    have hstep := group.mulStep hp hacc (v.testBit k)
    rw [← shiftRight_step] at hstep
    exact hstep

theorem mul {p : curve.Point} (hp : group.stands p x) (s : Scalar) : group.stands (curve.mul p s) (s.value • x) := by
  have hless := s.value_lt
  rw [base, ← pow_mul] at hless
  have hhigh : s.value >>> (64 * 5) = 0 := shiftRight_of_lt hless
  unfold Curve.mul
  rw [bits_eq]
  apply group.mul_bits s.value (64 * 5) hp
  rw [hhigh, zero_nsmul]
  exact group.neutral

include group in
theorem nsmul_congr {a b : Nat} (h : a ≡ b [MOD order.value]) (x : G) : a • x = b • x := by
  have horder : order.value • x = 0 := by
    rw [← group.card]
    exact card_nsmul_eq_zero'
  have hreduce : ∀ n : Nat, n • x = (n % order.value) • x := by
    intro n
    conv_lhs => rw [← mod_add_div n order.value]
    rw [add_nsmul, mul_nsmul, horder, smul_zero, add_zero]
  rw [hreduce a, hreduce b, h]

end Curve.Group

structure Signature where
  (s e : Scalar)
  deriving DecidableEq

namespace Signature

def isCanonical (signature : Signature) : Bool :=
  Scalar.isCanonical signature.s && Scalar.isCanonical signature.e

def toBytes (signature : Signature) : List UInt8 := toLeBytes signature.s ++ toLeBytes signature.e

def fromBytes (bytes : List UInt8) : Option Signature :=
  if bytes.length ≠ 80 then none
  else do
    let s ← fromLeBytesCanonical (bytes.take 40)
    let e ← fromLeBytesCanonical (bytes.drop 40)
    some ⟨s, e⟩

theorem isCanonical_iff {signature : Signature} :
    signature.isCanonical = true ↔ signature.s.value < order.value ∧ signature.e.value < order.value := by
  rw [isCanonical, Bool.and_eq_true, Scalar.isCanonical_iff, Scalar.isCanonical_iff]

theorem fromBytes_eq_some {bytes : List UInt8} {signature : Signature} :
    fromBytes bytes = some signature ↔ signature.isCanonical = true ∧ bytes = signature.toBytes := by
  rw [isCanonical_iff]
  unfold fromBytes
  constructor
  · intro h
    split at h
    · cases h
    · simp only [bind_eq_bind, bind_eq_some_iff, fromLeBytesCanonical_eq_some, some.injEq] at h
      obtain ⟨s, ⟨hs, hfirst⟩, e, ⟨he, hsecond⟩, rfl⟩ := h
      refine ⟨⟨hs, he⟩, ?_⟩
      rw [toBytes, ← hfirst, ← hsecond, take_append_drop]
  · rintro ⟨⟨hs, he⟩, rfl⟩
    have hlength : signature.toBytes.length = 80 := by
      rw [toBytes, length_append, length_toLeBytes, length_toLeBytes]
    rw [if_neg (not_not.mpr hlength), toBytes, take_left' (length_toLeBytes _), drop_left' (length_toLeBytes _)]
    simp only [bind_eq_bind, bind_eq_some_iff, fromLeBytesCanonical_eq_some]
    exact ⟨signature.s, ⟨hs, rfl⟩, signature.e, ⟨he, rfl⟩, rfl⟩

end Signature

/-- `2^64 - 2^32 + 1`. -/
def goldilocks : Nat := 0xFFFFFFFF00000001

/-- `goldilocks::canonical`. -/
def canonicalWord (x : Nat) : Nat := if goldilocks ≤ x then x - goldilocks else x

theorem canonicalWord_le (x : Nat) : canonicalWord x ≤ x := by
  unfold canonicalWord
  split
  · exact sub_le _ _
  · exact le_refl _

def canonicalWords (x : Element) : Words where
  limbs := x.limbs.map canonicalWord
  length_eq := by rw [length_map, x.length_eq]
  small := by
    intro limb hlimb
    obtain ⟨word, hword, rfl⟩ := mem_map.mp hlimb
    exact lt_of_le_of_lt (canonicalWord_le word) (x.small word hword)

def fromGfp5 (x : Element) : Scalar := Scalar.fromNonCanonical (canonicalWords x)

theorem value_fromGfp5_lt (x : Element) : (fromGfp5 x).value < order.value := by
  rw [fromGfp5, value_fromNonCanonical]
  exact mod_lt _ order_pos

section
variable (curve : Curve) (hash : List Nat → Element)

def publicKey (secret : Scalar) : Element := curve.encode (curve.mul curve.generator secret)

def challenge (r hashedMessage : Element) : Scalar := fromGfp5 (hash (r.limbs ++ hashedMessage.limbs))

def signWithNonce (hashedMessage : Element) (secret nonce : Scalar) : Signature :=
  let r := curve.encode (curve.mul curve.generator nonce)
  let e := challenge hash r hashedMessage
  ⟨Scalar.sub nonce (Scalar.mul e secret), e⟩

def verify (publicKey hashedMessage : Element) (signature : Signature) : Bool :=
  if !signature.isCanonical then false
  else match curve.decode publicKey with
    | none => false
    | some point =>
      let recovered := curve.encode (curve.mulAddG point signature.s signature.e)
      challenge hash recovered hashedMessage == signature.e

end

section
variable {curve : Curve} {hash : List Nat → Element} {hashedMessage : Element} {secret nonce : Scalar}

theorem value_s (hnonce : nonce.value < order.value) {e : Scalar} (he : e.value < order.value) :
    (Scalar.sub nonce (Scalar.mul e secret)).value < order.value ∧
      (Scalar.sub nonce (Scalar.mul e secret)).value + e.value * secret.value ≡ nonce.value [MOD order.value] := by
  have hproduct := value_mul he secret
  have hless : (Scalar.mul e secret).value < order.value := by
    rw [hproduct]
    exact mod_lt _ order_pos
  rw [value_sub hnonce hless, hproduct]
  refine ⟨mod_lt _ order_pos, ?_⟩
  rw [hproduct] at hless
  calc (nonce.value + (order.value - e.value * secret.value % order.value)) % order.value + e.value * secret.value
      ≡ nonce.value + (order.value - e.value * secret.value % order.value) +
        e.value * secret.value % order.value [MOD order.value] :=
          (mod_modEq _ _).add (mod_modEq _ _).symm
    _ = nonce.value + order.value := by omega
    _ ≡ nonce.value [MOD order.value] := add_mod_right _ _

theorem isCanonical_signWithNonce (hnonce : nonce.value < order.value) :
    (signWithNonce curve hash hashedMessage secret nonce).isCanonical = true := by
  have he := value_fromGfp5_lt (hash ((curve.encode (curve.mul curve.generator nonce)).limbs ++ hashedMessage.limbs))
  exact Signature.isCanonical_iff.mpr ⟨(value_s hnonce he).1, he⟩

theorem verify_signWithNonce {G : Type} [AddCommGroup G] (group : curve.Group G) (hnonce : nonce.value < order.value) :
    verify curve hash (publicKey curve secret) hashedMessage (signWithNonce curve hash hashedMessage secret nonce) =
      true := by
  set signature := signWithNonce curve hash hashedMessage secret nonce
  have hcanonical : signature.isCanonical = true := isCanonical_signWithNonce hnonce
  have he : signature.e.value < order.value := (Signature.isCanonical_iff.mp hcanonical).2
  obtain ⟨point, hpoint, hstands⟩ := group.decode (group.mul group.generator secret)
  have hrecovered := group.add (group.mul group.generator signature.s) (group.mul hstands signature.e)
  have hmultiple : signature.s.value • group.g + signature.e.value • secret.value • group.g =
      nonce.value • group.g := by
    rw [← mul_nsmul', ← add_nsmul]
    exact group.nsmul_congr (value_s hnonce he).2 group.g
  rw [hmultiple] at hrecovered
  have hencoded := group.encode hrecovered (group.mul group.generator nonce)
  have hdecoded : curve.decode (publicKey curve secret) = some point := hpoint
  have hchallenge : signature.e = challenge hash (curve.encode (curve.mul curve.generator nonce)) hashedMessage := rfl
  unfold verify
  rw [hcanonical, hdecoded]
  dsimp only
  rw [Curve.mulAddG, hencoded, ← hchallenge]
  simp

end

/-- Under the group law of the curve, whatever forty bytes secret and nonce are given as,
the signature with that nonce has canonical halves and is accepted under the secret's
public key; and bytes are read as a signature only when they are its canonical
encoding. -/
theorem signingComplete (curve : Curve) (hash : List Nat → Element) {G : Type} [AddCommGroup G]
    (group : curve.Group G) :
    (∀ (secretBytes nonceBytes : List UInt8) (hashedMessage : Element),
      secretBytes.length = 40 → nonceBytes.length = 40 →
      ∃ secret nonce, fromLeBytes secretBytes = some secret ∧ fromLeBytes nonceBytes = some nonce ∧
        (signWithNonce curve hash hashedMessage secret nonce).isCanonical = true ∧
          verify curve hash (publicKey curve secret) hashedMessage
            (signWithNonce curve hash hashedMessage secret nonce) = true) ∧
    ∀ (bytes : List UInt8) (signature : Signature),
      Signature.fromBytes bytes = some signature ↔ signature.isCanonical = true ∧ bytes = signature.toBytes := by
  constructor
  · intro secretBytes nonceBytes hashedMessage hsecretBytes hnonceBytes
    obtain ⟨secret, hsecret, -⟩ := fromLeBytes_of_length hsecretBytes
    obtain ⟨nonce, hnonce, hless⟩ := fromLeBytes_of_length hnonceBytes
    exact ⟨secret, nonce, hsecret, hnonce, isCanonical_signWithNonce hless, verify_signWithNonce group hless⟩
  · intro bytes signature
    exact Signature.fromBytes_eq_some

def lowWords : Nat → Nat → List Nat
  | 0, _ => []
  | k + 1, v => v % base :: lowWords k (v / base)

theorem ofDigits_lowWords (k v : Nat) : Nat.ofDigits base (lowWords k v) = v % base ^ k := by
  induction k generalizing v with
  | zero => simp [lowWords, mod_one]
  | succ k ih => rw [lowWords, ofDigits_cons, ih, pow_succ', mod_mul]

theorem length_lowWords (k v : Nat) : (lowWords k v).length = k := by
  induction k generalizing v with
  | zero => rfl
  | succ k ih => rw [lowWords, length_cons, ih]

theorem lowWords_lt {k v word : Nat} (h : word ∈ lowWords k v) : word < base := by
  induction k generalizing v with
  | zero => cases h
  | succ k ih =>
    rw [lowWords, mem_cons] at h
    obtain rfl | h := h
    · exact mod_lt _ base_pos
    · exact ih h

def Words.ofNat (v : Nat) : Words := ⟨lowWords 5 v, length_lowWords 5 v, fun _ h => lowWords_lt h⟩

open Words

theorem Words.value_ofNat {v : Nat} (h : v < base ^ 5) : (ofNat v).value = v := by
  rw [value, ofNat, ofDigits_lowWords, mod_eq_of_lt h]

instance : NeZero order.value := ⟨order_pos.ne'⟩

def cyclic : Curve where
  Point := ZMod order.value
  neutral := 0
  generator := 1
  add p q := p + q
  double p := p + p
  encode p := Words.ofNat p.val
  decode w := some (w.value : ZMod order.value)

theorem decode_encode_cyclic (p : ZMod order.value) : cyclic.decode (cyclic.encode p) = some p := by
  have hless : p.val < base ^ 5 := lt_of_lt_of_le p.val_lt (le_trans (le_add_left _ _) two_orders_le)
  show some (((ofNat p.val).value : ℕ) : ZMod order.value) = some p
  rw [value_ofNat hless, ZMod.natCast_zmod_val]

def cyclicGroup : cyclic.Group (ZMod order.value) where
  stands p x := p = x
  g := 1
  neutral := rfl
  generator := rfl
  add := by
    rintro p q x y rfl rfl
    rfl
  double := by
    rintro p x rfl
    rfl
  card := Nat.card_zmod _
  encode := by
    rintro p q x rfl rfl
    rfl
  decode := by
    rintro p x rfl
    exact ⟨p, decode_encode_cyclic p, rfl⟩

theorem signingComplete_cyclic :
    ∃ secret nonce, fromLeBytes (List.replicate 40 255) = some secret ∧ fromLeBytes (List.replicate 40 7) = some nonce ∧
      verify cyclic (fun words => Words.ofNat words.sum) (publicKey cyclic secret) Scalar.zero
        (signWithNonce cyclic (fun words => Words.ofNat words.sum) Scalar.zero secret nonce) = true := by
  obtain ⟨secret, nonce, hsecret, hnonce, -, hverify⟩ :=
    (signingComplete cyclic (fun words => ofNat words.sum) cyclicGroup).1 (List.replicate 40 255)
      (List.replicate 40 7) Scalar.zero rfl rfl
  exact ⟨secret, nonce, hsecret, hnonce, hverify⟩

end LiquidityMigration.Venue.Lighter
