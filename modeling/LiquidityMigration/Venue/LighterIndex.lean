import LiquidityMigration.Venue.EngineId

/- The engine's order id inside Lighter's 48-bit client order index: a flag, 29 bits of seconds since 2020 and 18 bits
   of counter, or for any other id a hash of 47 bits. The hash is any function to five words. The fields do not
   overlap (`pack_eq`, `unpack_pack`); what comes back is the print of second and counter, and nothing from a hash
   (`fromIndex_toIndex`). -/
namespace LiquidityMigration.Venue.Lighter
open Option Nat Decimal

def maxIndex : Int := 2^48 - 1

def packedFlag : Nat := 2^47

def epochS : Nat := 1600000000

def secondsBits : Nat := 29

def counterBits : Nat := 18

def maxSeconds : Nat := 2^secondsBits - 1

def maxCounter : Nat := 2^counterBits - 1

def splitEngineId (id : String) : Option (Nat × Nat) := do
  let (boot, counter) ← engineNumerals id
  return (← Decimal.parse (2^64) boot, ← Decimal.parse (2^64) counter)

def limb (chunk : List UInt8) : UInt64 :=
  UInt64.ofNat (chunk.foldr (fun b acc => b.toNat + 2^8 * acc) 0)

def bytesAsFields (bytes : List UInt8) : List UInt64 := (bytes.toChunks 8).map limb

def pack (since counter : Nat) : Nat := packedFlag ||| (since <<< counterBits) ||| counter

/-- The second and the counter are within the bits the index has for them. -/
def InRange (bootMs counter : Nat) : Prop :=
  epochS ≤ bootMs / 1000 ∧ bootMs / 1000 - epochS ≤ maxSeconds ∧ counter ≤ maxCounter
  deriving Decidable

/-- The seconds since 2020 and the counter an id is packed as, where it is. -/
def packed (id : String) : Option (Nat × Nat) := do
  let (bootMs, counter) ← splitEngineId id
  if InRange bootMs counter then some (bootMs / 1000 - epochS, counter) else none

/-- The `hash_to_quintic_extension` of the venue's crypto. -/
abbrev Hash := List UInt64 → Fin 5 → UInt64

variable (hash : Hash)

/-- The hashed index: the low 47 bits of the first limb, never zero. -/
def hashed (id : String) : Nat :=
  let digest := hash (bytesAsFields id.toUTF8.data.toList)
  let low := (digest 0).toNat &&& (2^47 - 1)
  if low = 0 then 1 else low

def toIndex (id : String) : Int :=
  match packed id with
  | some (since, counter) => (pack since counter : Nat)
  | none => (hashed hash id : Nat)

def fromIndex (index : Int) : Option String :=
  if index ≤ 0 ∨ maxIndex < index ∨ index.toNat &&& packedFlag = 0 then none
  else
    let body := index.toNat &&& (packedFlag - 1)
    let since := body >>> counterBits
    let counter := body &&& maxCounter
    some (engineId ((since + epochS) * 1000) counter)

section
variable {since counter : Nat} (hsince : since ≤ maxSeconds) (hcounter : counter ≤ maxCounter)
include hsince hcounter

theorem pack_eq : pack since counter = 2^47 + (since * 2^18 + counter) := by
  have hcounter' : counter < 2^18 := Nat.lt_of_le_sub_one (by decide) hcounter
  have hsince' : since < 2^29 := Nat.lt_of_le_sub_one (by decide) hsince
  have hbody : since <<< 18 ||| counter = since * 2^18 + counter := by
    rw [← Nat.shiftLeft_add_eq_or_of_lt hcounter', Nat.shiftLeft_eq]
  have hfits : since * 2^18 + counter < 2^47 := by omega
  rw [pack, counterBits, Nat.or_assoc, hbody, packedFlag]
  exact (Nat.two_pow_add_eq_or_of_lt hfits 1).symm

theorem pack_lt : pack since counter < 2^48 := by
  rw [pack_eq hsince hcounter]
  unfold maxSeconds secondsBits at hsince
  unfold maxCounter counterBits at hcounter
  omega

theorem unpack_pack : pack since counter &&& packedFlag ≠ 0 ∧
    (pack since counter &&& (packedFlag - 1)) >>> counterBits = since ∧
    (pack since counter &&& (packedFlag - 1)) &&& maxCounter = counter := by
  have heq := pack_eq hsince hcounter
  unfold maxSeconds secondsBits at hsince
  unfold maxCounter counterBits at hcounter
  have hbody : pack since counter &&& (packedFlag - 1) = since * 2^18 + counter := by
    rw [packedFlag, and_two_pow_sub_one_eq_mod, heq]
    omega
  refine ⟨?_, ?_, ?_⟩
  · have hbit : (pack since counter).testBit 47 = true := by
      rw [heq, testBit_eq_decide_div_mod_eq]
      exact decide_eq_true (by omega)
    rw [packedFlag, and_two_pow, hbit]
    decide
  · rw [hbody, counterBits, shiftRight_eq_div_pow]
    omega
  · rw [hbody, maxCounter, counterBits, and_two_pow_sub_one_eq_mod]
    omega

end

theorem hashed_range (id : String) : 1 ≤ hashed hash id ∧ hashed hash id < 2^47 := by
  simp only [hashed, and_two_pow_sub_one_eq_mod]
  split
  · decide
  · next hne => exact ⟨pos_of_ne_zero hne, mod_lt _ (by decide)⟩

theorem and_packedFlag_eq_zero {n : Nat} (h : n < 2^47) : n &&& packedFlag = 0 := by
  rw [packedFlag, and_two_pow, testBit_lt_two_pow h]
  rfl

variable {id : String} {counter : Nat}

theorem packed_eq_some {since : Nat} (h : packed id = some (since, counter)) :
    since ≤ maxSeconds ∧ counter ≤ maxCounter := by
  simp only [packed, bind_eq_bind, bind_eq_some_iff] at h
  obtain ⟨⟨bootMs, n⟩, -, h⟩ := h
  split at h
  · next hrange =>
    rw [some.injEq, Prod.mk.injEq] at h
    rw [← h.1, ← h.2]
    exact hrange.2
  · cases h

theorem toIndex_range (id : String) : 1 ≤ toIndex hash id ∧ toIndex hash id ≤ maxIndex := by
  have hnat : ∀ n : Nat, 1 ≤ n ∧ n < 2^48 → (1 : Int) ≤ n ∧ (n : Int) ≤ maxIndex := by
    intro n hn
    unfold maxIndex
    omega
  unfold toIndex
  split
  · next since counter hpacked =>
    obtain ⟨hsince, hcounter⟩ := packed_eq_some hpacked
    refine hnat _ ⟨?_, pack_lt hsince hcounter⟩
    rw [pack_eq hsince hcounter]
    exact le_add_right_of_le (by decide)
  · obtain ⟨hpos, hlt⟩ := hashed_range hash id
    exact hnat _ ⟨hpos, hlt.trans (by decide)⟩

theorem fromIndex_toIndex (id : String) : fromIndex (toIndex hash id) =
      (packed id).map (fun p => engineId ((p.1 + epochS) * 1000) p.2) := by
  have hrange := toIndex_range hash id
  cases hpacked : packed id with
  | none =>
    have hindex : toIndex hash id = (hashed hash id : Nat) := by rw [toIndex, hpacked]
    rw [fromIndex, if_pos, map_none]
    right; right
    rw [hindex, Int.toNat_natCast]
    exact and_packedFlag_eq_zero (hashed_range hash id).2
  | some p =>
    obtain ⟨since, counter⟩ := p
    obtain ⟨hsince, hcounter⟩ := packed_eq_some hpacked
    have hindex : toIndex hash id = (pack since counter : Nat) := by rw [toIndex, hpacked]
    obtain ⟨hflag, hseconds, hcount⟩ := unpack_pack hsince hcounter
    rw [hindex] at hrange ⊢
    rw [fromIndex, if_neg, Int.toNat_natCast, map_some]
    · simp only [hseconds, hcount]
    · rw [Int.toNat_natCast]
      rintro (h | h | h)
      · omega
      · omega
      · exact hflag h

/-- An id of the engine's shape and within range has no zero in front of either
number, and its stamp is a whole second. -/
def Reproducible (id : String) : Prop := ∀ p ∈ engineNumerals id,
  InRange (Nat.ofDigitChars 10 p.1 0) (Nat.ofDigitChars 10 p.2 0) →
    ¬ Decimal.LeadingZero p.1 ∧ ¬ Decimal.LeadingZero p.2 ∧ Nat.ofDigitChars 10 p.1 0 % 1000 = 0
  deriving Decidable

theorem InRange.lt {bootMs : Nat} (h : InRange bootMs counter) : bootMs < 2^64 ∧ counter < 2^64 := by
  unfold InRange epochS maxSeconds secondsBits maxCounter counterBits at h
  omega

theorem InRange.second_eq {bootMs : Nat} (h : InRange bootMs counter) :
    (bootMs / 1000 - epochS + epochS) * 1000 = bootMs / 1000 * 1000 := by
  rw [Nat.sub_add_cancel h.1]

theorem packed_of_inRange {boot counter : List Char} (h : engineNumerals id = some (boot, counter))
    (hrange : InRange (Nat.ofDigitChars 10 boot 0) (Nat.ofDigitChars 10 counter 0)) :
    packed id = some (Nat.ofDigitChars 10 boot 0 / 1000 - epochS, Nat.ofDigitChars 10 counter 0) := by
  obtain ⟨hboot, hcounter, -⟩ := engineNumerals_eq_some.mp h
  have hb := (parse_eq_some hboot.1 hboot.2).mpr ⟨rfl, hrange.lt.1⟩
  have hc := (parse_eq_some hcounter.1 hcounter.2).mpr ⟨rfl, hrange.lt.2⟩
  simp only [packed, splitEngineId, h, bind_eq_bind, bind_some, hb, hc, pure_def, if_pos hrange]

theorem inRange_of_packed {p : Nat × Nat} (h : packed id = some p) :
    ∃ boot counter, engineNumerals id = some (boot, counter) ∧
      InRange (Nat.ofDigitChars 10 boot 0) (Nat.ofDigitChars 10 counter 0) := by
  simp only [packed, splitEngineId, bind_eq_bind, bind_eq_some_iff, pure_def, some.injEq] at h
  obtain ⟨-, ⟨⟨boot, counter⟩, hnumerals, bootMs, hb, n, hc, rfl⟩, h⟩ := h
  obtain ⟨hboot, hcounter, -⟩ := engineNumerals_eq_some.mp hnumerals
  obtain ⟨rfl, -⟩ := (parse_eq_some hboot.1 hboot.2).mp hb
  obtain ⟨rfl, -⟩ := (parse_eq_some hcounter.1 hcounter.2).mp hc
  split at h
  · next hrange => exact ⟨boot, counter, hnumerals, hrange⟩
  · cases h

/-- An id in range comes back as itself exactly when it prints back from its whole
second and its counter. -/
theorem eq_print_iff {boot counter : List Char} (h : engineNumerals id = some (boot, counter)) :
    id = engineId (Nat.ofDigitChars 10 boot 0 / 1000 * 1000) (Nat.ofDigitChars 10 counter 0) ↔
      ¬ Decimal.LeadingZero boot ∧ ¬ Decimal.LeadingZero counter ∧ Nat.ofDigitChars 10 boot 0 % 1000 = 0 := by
  obtain ⟨hboot, hcounter, -⟩ := engineNumerals_eq_some.mp h
  rw [eq_engineId_iff h]
  constructor
  · rintro ⟨hb, hc⟩
    have hvalue : ofDigitChars 10 boot 0 = ofDigitChars 10 boot 0 / 1000 * 1000 := by
      conv_lhs => rw [hb, ofDigitChars_ten_toDigits]
    refine ⟨?_, ?_, by omega⟩
    · rw [hb]; exact not_leadingZero_toDigits _
    · rw [hc]; exact not_leadingZero_toDigits _
  · rintro ⟨hb, hc, hwhole⟩
    have hvalue : ofDigitChars 10 boot 0 / 1000 * 1000 = ofDigitChars 10 boot 0 := by omega
    rw [hvalue]
    exact ⟨(hboot.toDigits_eq hb).symm, (hcounter.toDigits_eq hc).symm⟩

theorem reproducible_iff (id : String) :
    (fromIndex (toIndex hash id) = none ∨ fromIndex (toIndex hash id) = some id) ↔ Reproducible id := by
  rw [fromIndex_toIndex]
  constructor
  · rintro h ⟨boot, counter⟩ hp hrange
    rw [packed_of_inRange hp hrange, map_some] at h
    simp only [hrange.second_eq, reduceCtorEq, false_or, some.injEq] at h
    exact (eq_print_iff hp).mp h.symm
  · intro h
    cases hpacked : packed id with
    | none => exact Or.inl rfl
    | some p =>
      obtain ⟨boot, counter, hnumerals, hrange⟩ := inRange_of_packed hpacked
      have hprint := (eq_print_iff hnumerals).mpr (h _ hnumerals hrange)
      right
      rw [← hpacked, packed_of_inRange hnumerals hrange, map_some, hrange.second_eq, ← hprint]

theorem fromIndex_minted {seconds n : Nat} (hlow : epochS ≤ seconds)
    (hhigh : seconds - epochS ≤ maxSeconds) (hn : n ≤ maxCounter) :
    fromIndex (toIndex hash (engineId (seconds * 1000) n)) = some (engineId (seconds * 1000) n) := by
  have hseconds : seconds * 1000 / 1000 = seconds := Nat.mul_div_cancel _ (by decide)
  have hrange : InRange (seconds * 1000) n := by
    unfold InRange
    rw [hseconds]
    exact ⟨hlow, hhigh, hn⟩
  have hpacked : packed (engineId (seconds * 1000) n) = some (seconds - epochS, n) := by
    rw [packed_of_inRange (engineNumerals_engineId _ _) (by simpa using hrange)]
    simp [ofDigitChars_ten_toDigits, hseconds]
  rw [fromIndex_toIndex, hpacked, map_some, Nat.sub_add_cancel hlow]

/-- Whatever the hash: an id comes back as itself or not at all exactly when it is
reproducible; among those, ids that come back never share an index; every index is
in the venue's range; and what the engine mints comes back. -/
theorem indexReproduces (hash : Hash) :
    (∀ id, (fromIndex (toIndex hash id) = none ∨ fromIndex (toIndex hash id) = some id) ↔ Reproducible id) ∧
    (∀ a b, Reproducible a → Reproducible b → (fromIndex (toIndex hash a)).isSome →
      (fromIndex (toIndex hash b)).isSome → toIndex hash a = toIndex hash b → a = b) ∧
    (∀ id, 1 ≤ toIndex hash id ∧ toIndex hash id ≤ 2^48 - 1) ∧
    (∀ seconds n : Nat, 1600000000 ≤ seconds → seconds ≤ 1600000000 + (2^29 - 1) → 1 ≤ n → n ≤ 262143 →
      fromIndex (toIndex hash (Engine.bootPrefix (seconds * 1000 : Nat) ++ toString n)) =
        some (Engine.bootPrefix (seconds * 1000 : Nat) ++ toString n)) := by
  refine ⟨reproducible_iff hash, ?_, toIndex_range hash, ?_⟩
  · intro a b ha hb hsa hsb hindex
    have hself : ∀ id, Reproducible id → (fromIndex (toIndex hash id)).isSome →
        fromIndex (toIndex hash id) = some id := by
      intro id hid hsome
      rcases (reproducible_iff hash id).mpr hid with hnone | hback
      · rw [hnone] at hsome
        cases hsome
      · exact hback
    have hback := hself a ha hsa
    rw [hindex, hself b hb hsb] at hback
    exact (some.inj hback).symm
  · intro seconds n hlow hhigh _ hn
    rw [minted_eq_engineId (by omega)]
    exact fromIndex_minted hash hlow (sub_le_of_le_add (by rw [add_comm]; exact hhigh)) hn

/-- The last second and the last counter the index has room for. -/
theorem indexReproduces_last :
    fromIndex (toIndex (fun _ _ => 0) (Engine.bootPrefix (2136870911 * 1000 : Nat) ++ toString 262143)) =
      some (Engine.bootPrefix (2136870911 * 1000 : Nat) ++ toString 262143) :=
  (indexReproduces (fun _ _ => 0)).2.2.2 2136870911 262143 (by decide) (by decide) (by decide) (by decide)

/-- Two ids, one with a zero in front of its stamp, share an index; both come back,
and the one with the zero comes back changed. -/
theorem indexRounds :
    toIndex (fun _ _ => 0) "eng-01700000000000-1" = toIndex (fun _ _ => 0) "eng-1700000000000-1" ∧
    fromIndex (toIndex (fun _ _ => 0) "eng-01700000000000-1") = some "eng-1700000000000-1" := by
  have hzero : packed "eng-01700000000000-1" = some (100000000, 1) :=
    (packed_of_inRange (by decide : engineNumerals _ = some ("01700000000000".toList, "1".toList))
      (by decide)).trans (by decide)
  have hplain : packed "eng-1700000000000-1" = some (100000000, 1) :=
    (packed_of_inRange (by decide : engineNumerals _ = some ("1700000000000".toList, "1".toList))
      (by decide)).trans (by decide)
  refine ⟨?_, ?_⟩
  · rw [toIndex, toIndex, hzero, hplain]
  · rw [fromIndex_toIndex, hzero]
    decide

end LiquidityMigration.Venue.Lighter
