import LiquidityMigration.Lib.BigEndian
import LiquidityMigration.Lib.Hex
import LiquidityMigration.Venue.EngineId

/- The engine's order id inside Hyperliquid's 16-byte client id. The first byte says how the others were made: a
   48-bit stamp and a 40-bit counter, a canary's stamp, process and nonce, or a hash. The packed forms are read only
   with their zeros in place. `keccak` is any function to 32 bytes. What is packed is the print of numbers within
   bounds (`splitEngineId_eq_some`, `splitCanaryId_eq_some`); packing and reading are inverse, and a hash does not
   come back (`fromBytes_toBytes`, `toBytes_fromBytes`). -/
namespace LiquidityMigration.Venue.Hyperliquid
open BigEndian Hex List Nat
open Option hiding or_self

def schemePacked : UInt8 := 0x01

def schemeHashed : UInt8 := 0x02

/-- The canary's two ids: for its order and for the close after a fill. -/
inductive Canary where
  | order
  | close
  deriving DecidableEq

/-- `SCHEME_CANARY`, `SCHEME_CANARY_CLOSE`. -/
def Canary.scheme : Canary → UInt8
  | .order => 0x03
  | .close => 0x04

/-- `CANARY_PREFIX`, `CANARY_CLOSE_PREFIX`. -/
def Canary.text : Canary → String
  | .order => "lmcan-"
  | .close => "lmcls-"

def Canary.ofScheme (scheme : UInt8) : Option Canary :=
  if scheme = Canary.order.scheme then some .order
  else if scheme = Canary.close.scheme then some .close
  else none

def maxBootMs : Nat := 2^48 - 1

def maxCounter : Nat := 2^40 - 1

/-- `lmcan-<hex ms>-<pid>-<nonce>` or `lmcls-…`. -/
def canaryId (kind : Canary) (stampMs process nonce : Nat) : String :=
  String.ofList (kind.text.toList ++
    (Nat.toDigits 16 stampMs ++ '-' :: (Hex.padded 4 process ++ '-' :: Hex.padded 4 nonce)))

def splitEngineId (id : String) : Option (Nat × Nat) := do
  let (boot, counter) ← engineNumerals id
  if Decimal.LeadingZero boot ∨ Decimal.LeadingZero counter then none
  else
    let bootMs ← Decimal.parse (2^64) boot
    let n ← Decimal.parse (2^64) counter
    if bootMs ≤ maxBootMs ∧ n ≤ maxCounter then some (bootMs, n) else none

/-- Which of the canary's ids a text begins like, and the rest of it. -/
def canaryRest (cs : List Char) : Option (Canary × List Char) :=
  match Canary.order.text.toList.isPrefixOf? cs with
  | some rest => some (.order, rest)
  | none => (Canary.close.text.toList.isPrefixOf? cs).map fun rest => (.close, rest)

def splitCanaryId (id : String) : Option (Canary × Nat × Nat × Nat) := do
  let (kind, rest) ← canaryRest id.toList
  match rest.splitOn '-' with
  | [stamp, process, nonce] =>
    if stamp.isEmpty || 12 < Text.byteLength stamp then none
    else
      let stampMs ← Hex.parse (2^64) stamp
      let process ← Hex.parse (2^16) process
      let nonce ← Hex.parse (2^16) nonce
      -- the id must print back from the numbers, or it is not packed
      if stampMs ≤ maxBootMs ∧ canaryId kind stampMs process nonce = id then
        some (kind, stampMs, process, nonce)
      else none
  | _ => none

abbrev Digest := {bytes : List UInt8 // bytes.length = 32}

def packEngine (bootMs counter : Nat) : List UInt8 :=
  schemePacked :: ((BigEndian.toBytes 8 bootMs).drop 2 ++ ((BigEndian.toBytes 8 counter).drop 3 ++
    List.replicate 4 0))

def packCanary (kind : Canary) (stampMs process nonce : Nat) : List UInt8 :=
  kind.scheme :: ((BigEndian.toBytes 8 stampMs).drop 2 ++ (BigEndian.toBytes 2 process ++
    (BigEndian.toBytes 2 nonce ++ List.replicate 5 0)))

variable (keccak : List UInt8 → Digest)

def toBytes (id : String) : List UInt8 :=
  match splitEngineId id with
  | some (bootMs, counter) => packEngine bootMs counter
  | none =>
    match splitCanaryId id with
    | some (kind, stampMs, process, nonce) => packCanary kind stampMs process nonce
    | none => schemeHashed :: (keccak id.toUTF8.data.toList).val.take 15

def cloidText (bytes : List UInt8) : String := String.ofList ("0x".toList ++ Hex.encode bytes)

def toCloid (id : String) : String := cloidText (toBytes keccak id)

def slice (bytes : List UInt8) (start stop : Nat) : List UInt8 := (bytes.drop start).take (stop - start)

def fromBytes (bytes : List UInt8) : Option String :=
  let scheme := bytes.headD 0
  if scheme = schemePacked ∧ bytes.drop 12 = List.replicate 4 0 then
    some (engineId (BigEndian.ofBytes ([0, 0] ++ slice bytes 1 7))
      (BigEndian.ofBytes ([0, 0, 0] ++ slice bytes 7 12)))
  else
    match Canary.ofScheme scheme with
    | some kind =>
      if bytes.drop 11 = List.replicate 5 0 then
        some (canaryId kind (BigEndian.ofBytes ([0, 0] ++ slice bytes 1 7))
          (BigEndian.ofBytes (slice bytes 7 9)) (BigEndian.ofBytes (slice bytes 9 11)))
      else none
    | none => none

/-- The characters `trim` drops: Unicode's white space. -/
def isWhitespace (c : Char) : Bool :=
  (0x9 ≤ c.toNat && c.toNat ≤ 0xd) || c.toNat == 0x20 || c.toNat == 0x85 || c.toNat == 0xa0 ||
  c.toNat == 0x1680 || (0x2000 ≤ c.toNat && c.toNat ≤ 0x200a) || c.toNat == 0x2028 ||
  c.toNat == 0x2029 || c.toNat == 0x202f || c.toNat == 0x205f || c.toNat == 0x3000

def fromCloid (cloid : String) : Option String := do
  let trimmed := Text.trim isWhitespace cloid.toList
  let body ← ("0x".toList.isPrefixOf? trimmed).or ("0X".toList.isPrefixOf? trimmed)
  let bytes ← Hex.decode body
  if bytes.length = 16 then fromBytes bytes else none

variable {id : String}

theorem splitEngineId_eq_some {bootMs n : Nat} : splitEngineId id = some (bootMs, n) ↔
    bootMs ≤ maxBootMs ∧ n ≤ maxCounter ∧ id = engineId bootMs n := by
  have hboot64 : ∀ k, k ≤ maxBootMs → k < 2^64 := fun k hk => lt_of_le_of_lt hk (by decide)
  have hcount64 : ∀ k, k ≤ maxCounter → k < 2^64 := fun k hk => lt_of_le_of_lt hk (by decide)
  constructor
  · intro h
    simp only [splitEngineId, bind_eq_bind, bind_eq_some_iff] at h
    obtain ⟨⟨boot, counter⟩, hnumerals, h⟩ := h
    obtain ⟨hboot, hcounter, -⟩ := engineNumerals_eq_some.mp hnumerals
    split at h
    · cases h
    · next hzero =>
      simp only [bind_eq_some_iff] at h
      obtain ⟨b, hb, c, hc, h⟩ := h
      obtain ⟨rfl, -⟩ := (Decimal.parse_eq_some hboot.1 hboot.2).mp hb
      obtain ⟨rfl, -⟩ := (Decimal.parse_eq_some hcounter.1 hcounter.2).mp hc
      split at h
      · next hbound =>
        rw [some.injEq, Prod.mk.injEq] at h
        obtain ⟨rfl, rfl⟩ := h
        rw [not_or] at hzero
        refine ⟨hbound.1, hbound.2, (eq_engineId_iff hnumerals).mpr ⟨?_, ?_⟩⟩
        · exact (hboot.toDigits_eq hzero.1).symm
        · exact (hcounter.toDigits_eq hzero.2).symm
      · cases h
  · rintro ⟨hb, hn, rfl⟩
    have hparse : ∀ k, k < 2^64 → Decimal.parse (2^64) (toDigits 10 k) = some k := fun k hk =>
      (Decimal.parse_eq_some toDigits_ne_nil (Decimal.isDigit_toDigits k)).mpr ⟨by simp, hk⟩
    simp only [splitEngineId, engineNumerals_engineId, bind_eq_bind, bind_some,
      hparse bootMs (hboot64 bootMs hb), hparse n (hcount64 n hn), Decimal.not_leadingZero_toDigits, or_self,
      if_false, if_pos (And.intro hb hn)]

variable {kind : Canary}

theorem canaryRest_eq_some {cs rest : List Char} : canaryRest cs = some (kind, rest) ↔
    cs = kind.text.toList ++ rest := by
  unfold canaryRest
  constructor
  · intro h
    split at h
    · next r hr =>
      cases h
      exact (isPrefixOf?_eq_some_iff_append_eq.mp hr).symm
    · obtain ⟨r, hr, hpair⟩ := map_eq_some_iff.mp h
      cases hpair
      exact (isPrefixOf?_eq_some_iff_append_eq.mp hr).symm
  · rintro rfl
    cases kind <;> rfl

theorem splitOn_dashes {a b c : List Char} (ha : ∀ d ∈ a, Hex.IsDigit d) (hb : ∀ d ∈ b, Hex.IsDigit d)
    (hc : ∀ d ∈ c, Hex.IsDigit d) : (a ++ '-' :: (b ++ '-' :: c)).splitOn '-' = [a, b, c] := by
  have hdash : ∀ cs : List Char, (∀ d ∈ cs, Hex.IsDigit d) → '-' ∉ cs :=
    fun cs h hmem => (h _ hmem).ne (by decide) rfl
  rw [splitOn_append_cons_self, splitOn_append_cons_self, splitOn_eq_singleton (hdash a ha),
    splitOn_eq_singleton (hdash b hb), splitOn_eq_singleton (hdash c hc)]
  rfl

theorem splitCanaryId_eq_some {stampMs process nonce : Nat} : splitCanaryId id = some (kind, stampMs, process, nonce) ↔
      stampMs ≤ maxBootMs ∧ process < 2^16 ∧ nonce < 2^16 ∧ id = canaryId kind stampMs process nonce := by
  constructor
  · intro h
    simp only [splitCanaryId, bind_eq_bind, bind_eq_some_iff] at h
    obtain ⟨⟨k, rest⟩, -, h⟩ := h
    split at h
    · next stamp proc non _ =>
      split at h
      · cases h
      · simp only [bind_eq_some_iff] at h
        obtain ⟨s, -, p, hp, n, hn, h⟩ := h
        split at h
        · next hprint =>
          cases h
          exact ⟨hprint.1, parse_lt hp, parse_lt hn, hprint.2.symm⟩
        · cases h
    · cases h
  · rintro ⟨hs, hp, hn, rfl⟩
    have hstamp : stampMs < 16^12 := lt_of_le_of_lt hs (by decide)
    have hlength : Text.byteLength (toDigits 16 stampMs) ≤ 12 := by
      rw [Text.byteLength_of_utf8Size (fun c hc => (isDigit_toDigits stampMs c hc).utf8Size)]
      exact (length_toDigits_le_iff (by decide) (by decide)).mpr hstamp
    have hshort : ((toDigits 16 stampMs).isEmpty || decide (12 < Text.byteLength (toDigits 16 stampMs))) =
        false := by
      rw [Bool.or_eq_false_iff]
      exact ⟨isEmpty_eq_false_iff.mpr Nat.toDigits_ne_nil, decide_eq_false (Nat.not_lt_of_le hlength)⟩
    have htext : (canaryId kind stampMs process nonce).toList = kind.text.toList ++
        (toDigits 16 stampMs ++ '-' :: (padded 4 process ++ '-' :: padded 4 nonce)) :=
      String.toList_ofList
    simp only [splitCanaryId, canaryRest_eq_some.mpr htext, bind_eq_bind, bind_some,
      splitOn_dashes (isDigit_toDigits _) (isDigit_padded _ _) (isDigit_padded _ _), hshort,
      parse_toDigits (hstamp.trans (by decide : 16^12 < 2^64)), parse_padded 4 hp, parse_padded 4 hn,
      Bool.false_eq_true, if_false, hs, and_self, if_true]

theorem splitEngineId_canaryId (kind : Canary) (stampMs process nonce : Nat) :
    splitEngineId (canaryId kind stampMs process nonce) = none := by
  cases h : splitEngineId (canaryId kind stampMs process nonce) with
  | none => rfl
  | some p =>
    have htext := congrArg String.toList (splitEngineId_eq_some.mp h).2.2
    rw [engineId_toList, canaryId, String.toList_ofList] at htext
    cases kind <;> cases htext

theorem packEngine_eq (bootMs counter : Nat) : packEngine bootMs counter =
    schemePacked :: (BigEndian.toBytes 6 bootMs ++ (BigEndian.toBytes 5 counter ++ List.replicate 4 0)) := rfl

theorem packCanary_eq (kind : Canary) (stampMs process nonce : Nat) : packCanary kind stampMs process nonce =
    kind.scheme :: (BigEndian.toBytes 6 stampMs ++ (BigEndian.toBytes 2 process ++
      (BigEndian.toBytes 2 nonce ++ List.replicate 5 0))) := rfl

theorem toBytes_length (id : String) : (toBytes keccak id).length = 16 := by
  unfold toBytes
  split
  · rw [packEngine_eq]; simp
  · split
    · rw [packCanary_eq]; simp
    · rw [length_cons, length_take, (keccak id.toUTF8.data.toList).property]
      rfl

theorem ofScheme_scheme (kind : Canary) : Canary.ofScheme kind.scheme = some kind := by
  cases kind <;> rfl

theorem ofScheme_eq_some {scheme : UInt8} (h : Canary.ofScheme scheme = some kind) : scheme = kind.scheme := by
  unfold Canary.ofScheme at h
  split at h
  · next heq => cases h; exact heq
  · split at h
    · next heq => cases h; exact heq
    · cases h

theorem ofBytes_toBytes {w n : Nat} (h : n < 256^w) : BigEndian.ofBytes (BigEndian.toBytes w n) = n := by
  rw [BigEndian.ofBytes_toBytes, mod_eq_of_lt h]

theorem fromBytes_packEngine {bootMs counter : Nat} (hb : bootMs ≤ maxBootMs) (hc : counter ≤ maxCounter) :
    fromBytes (packEngine bootMs counter) = some (engineId bootMs counter) := by
  have hboot : slice (packEngine bootMs counter) 1 7 = BigEndian.toBytes 6 bootMs := by
    simp [packEngine_eq, slice]
  have hcount : slice (packEngine bootMs counter) 7 12 = BigEndian.toBytes 5 counter := by
    simp [packEngine_eq, slice]
  have htail : (packEngine bootMs counter).drop 12 = replicate 4 0 := by
    simp [packEngine_eq, drop_append]
  have hhead : (packEngine bootMs counter).headD 0 = schemePacked := rfl
  have hb' : bootMs < 256^6 := lt_of_le_of_lt hb (by decide)
  have hc' : counter < 256^5 := lt_of_le_of_lt hc (by decide)
  simp only [fromBytes, hboot, hcount, htail, hhead, and_self, if_true, cons_append, nil_append,
    ofBytes_zero_cons, ofBytes_toBytes hb', ofBytes_toBytes hc']

theorem fromBytes_packCanary {stampMs process nonce : Nat} (hs : stampMs ≤ maxBootMs)
    (hp : process < 2^16) (hn : nonce < 2^16) :
    fromBytes (packCanary kind stampMs process nonce) = some (canaryId kind stampMs process nonce) := by
  have hstamp : slice (packCanary kind stampMs process nonce) 1 7 = BigEndian.toBytes 6 stampMs := by
    simp [packCanary_eq, slice]
  have hproc : slice (packCanary kind stampMs process nonce) 7 9 = BigEndian.toBytes 2 process := by
    simp [packCanary_eq, slice]
  have hnon : slice (packCanary kind stampMs process nonce) 9 11 = BigEndian.toBytes 2 nonce := by
    simp [packCanary_eq, slice, drop_append, drop_eq_nil_of_le]
  have htail : (packCanary kind stampMs process nonce).drop 11 = replicate 5 0 := by
    simp [packCanary_eq, drop_append, drop_eq_nil_of_le]
  have hhead : (packCanary kind stampMs process nonce).headD 0 = kind.scheme := rfl
  have hscheme : kind.scheme ≠ schemePacked := by cases kind <;> decide
  have hs' : stampMs < 256^6 := lt_of_le_of_lt hs (by decide)
  have hp' : process < 256^2 := lt_of_lt_of_le hp (by decide)
  have hn' : nonce < 256^2 := lt_of_lt_of_le hn (by decide)
  simp only [fromBytes, hstamp, hproc, hnon, htail, hhead, hscheme, false_and, if_false, ofScheme_scheme, if_true,
    cons_append, nil_append, ofBytes_zero_cons, ofBytes_toBytes hs', ofBytes_toBytes hp',
    ofBytes_toBytes hn']

/-- The canonical ids: the engine's shape and the canary's, within their bounds. -/
def Canonical (id : String) : Prop :=
  (∃ bootMs n, bootMs ≤ maxBootMs ∧ n ≤ maxCounter ∧ id = engineId bootMs n) ∨
  ∃ kind stampMs process nonce, stampMs ≤ maxBootMs ∧ process < 2^16 ∧ nonce < 2^16 ∧
    id = canaryId kind stampMs process nonce

theorem fromBytes_toBytes (id : String) : (Canonical id ∧ fromBytes (toBytes keccak id) = some id) ∨
    (¬ Canonical id ∧ fromBytes (toBytes keccak id) = none) := by
  unfold toBytes
  cases hengine : splitEngineId id with
  | some p =>
    obtain ⟨hb, hn, hid⟩ := splitEngineId_eq_some.mp hengine
    refine Or.inl ⟨Or.inl ⟨_, _, hb, hn, hid⟩, ?_⟩
    show fromBytes (packEngine p.1 p.2) = some id
    rw [fromBytes_packEngine hb hn, ← hid]
  | none =>
    cases hcanary : splitCanaryId id with
    | some p =>
      obtain ⟨kind, stampMs, process, nonce⟩ := p
      obtain ⟨hs, hp, hn, hid⟩ := splitCanaryId_eq_some.mp hcanary
      refine Or.inl ⟨Or.inr ⟨_, _, _, _, hs, hp, hn, hid⟩, ?_⟩
      show fromBytes (packCanary kind stampMs process nonce) = some id
      rw [fromBytes_packCanary hs hp hn, ← hid]
    | none =>
      refine Or.inr ⟨?_, rfl⟩
      rintro (⟨bootMs, n, hb, hn, hid⟩ | ⟨kind, s, p, n, hs, hp, hn, hid⟩)
      · rw [splitEngineId_eq_some.mpr ⟨hb, hn, hid⟩] at hengine
        cases hengine
      · rw [splitCanaryId_eq_some.mpr ⟨hs, hp, hn, hid⟩] at hcanary
        cases hcanary

theorem toBytes_engineId {bootMs n : Nat} (hb : bootMs ≤ maxBootMs)
    (hn : n ≤ maxCounter) : toBytes keccak (engineId bootMs n) = packEngine bootMs n := by
  rw [toBytes, splitEngineId_eq_some.mpr ⟨hb, hn, rfl⟩]

theorem toBytes_canaryId (keccak : List UInt8 → Digest) {stampMs process nonce : Nat}
    (hs : stampMs ≤ maxBootMs) (hp : process < 2^16) (hn : nonce < 2^16) :
    toBytes keccak (canaryId kind stampMs process nonce) = packCanary kind stampMs process nonce := by
  rw [toBytes, splitEngineId_canaryId, splitCanaryId_eq_some.mpr ⟨hs, hp, hn, rfl⟩]

variable {bytes : List UInt8}

theorem slice_append_drop {start stop : Nat} (h : start ≤ stop) :
    slice bytes start stop ++ bytes.drop stop = bytes.drop start := by
  have hdrop : bytes.drop stop = (bytes.drop start).drop (stop - start) := by
    rw [drop_drop, Nat.add_sub_cancel' h]
  rw [slice, hdrop, take_append_drop]

section
variable {bytes : List UInt8} (hlength : bytes.length = 16)
include hlength

theorem slice_length (start stop : Nat) (h : start ≤ stop) (hstop : stop ≤ 16) :
    (slice bytes start stop).length = stop - start := by
  rw [slice, length_take, length_drop, hlength]
  omega

theorem toBytes_ofBytes_slice (start stop : Nat) (h : start ≤ stop) (hstop : stop ≤ 16) :
    BigEndian.toBytes (stop - start) (BigEndian.ofBytes (slice bytes start stop)) = slice bytes start stop := by
  rw [← slice_length hlength start stop h hstop, toBytes_ofBytes]

theorem ofBytes_slice_lt (start stop : Nat) (h : start ≤ stop) (hstop : stop ≤ 16) :
    BigEndian.ofBytes (slice bytes start stop) < 256^(stop - start) := by
  rw [← slice_length hlength start stop h hstop]
  exact ofBytes_lt _

theorem headD_cons_drop : bytes.headD 0 :: bytes.drop 1 = bytes := by
  cases bytes with
  | nil => cases hlength
  | cons b bs => rfl

end

theorem toBytes_fromBytes (hlength : bytes.length = 16) (h : fromBytes bytes = some id) :
    toBytes keccak id = bytes := by
  have hstamp := ofBytes_slice_lt hlength 1 7 (by decide) (by decide)
  have hwhole := headD_cons_drop hlength
  simp only [fromBytes, cons_append, nil_append, ofBytes_zero_cons] at h
  split at h
  · next hpacked =>
    cases h
    have hcount := ofBytes_slice_lt hlength 7 12 (by decide) (by decide)
    rw [toBytes_engineId keccak (le_sub_one_of_lt hstamp) (le_sub_one_of_lt hcount), packEngine_eq]
    have hfirst := toBytes_ofBytes_slice hlength 1 7 (by decide) (by decide)
    have hsecond := toBytes_ofBytes_slice hlength 7 12 (by decide) (by decide)
    rw [show BigEndian.toBytes 6 _ = _ from hfirst, show BigEndian.toBytes 5 _ = _ from hsecond, ← hpacked.2,
      slice_append_drop (by decide), slice_append_drop (by decide), ← hpacked.1, hwhole]
  · split at h
    · next kind hkind =>
      split at h
      · next htail =>
        cases h
        have hprocess := ofBytes_slice_lt hlength 7 9 (by decide) (by decide)
        have hnonce := ofBytes_slice_lt hlength 9 11 (by decide) (by decide)
        rw [toBytes_canaryId keccak (le_sub_one_of_lt hstamp) hprocess hnonce, packCanary_eq]
        have hfirst := toBytes_ofBytes_slice hlength 1 7 (by decide) (by decide)
        have hsecond := toBytes_ofBytes_slice hlength 7 9 (by decide) (by decide)
        have hthird := toBytes_ofBytes_slice hlength 9 11 (by decide) (by decide)
        rw [show BigEndian.toBytes 6 _ = _ from hfirst, show BigEndian.toBytes 2 _ = _ from hsecond,
          show BigEndian.toBytes 2 _ = _ from hthird, ← htail, slice_append_drop (by decide),
          slice_append_drop (by decide), slice_append_drop (by decide),
          ← ofScheme_eq_some hkind, hwhole]
      · cases h
    · cases h

theorem fromCloid_cloidText (hlength : bytes.length = 16) : fromCloid (cloidText bytes) = fromBytes bytes := by
  have hblank : ∀ c ∈ "0x".toList ++ encode bytes, isWhitespace c = false := by
    intro c hc
    rcases mem_append.mp hc with hc | hc
    · have hc : c = '0' ∨ c = 'x' := by simpa using hc
      rcases hc with rfl | rfl <;> rfl
    · obtain ⟨d, hd, rfl⟩ := isDigit_encode bytes c hc
      interval_cases d <;> rfl
  have hbody : "0x".toList.isPrefixOf? ("0x".toList ++ encode bytes) = some (encode bytes) :=
    isPrefixOf?_eq_some_iff_append_eq.mpr rfl
  simp only [fromCloid, cloidText, String.toList_ofList, Text.trim_eq_self hblank, hbody, some_or,
    bind_eq_bind, bind_some, decode_encode, if_pos hlength]

/-- Whatever the hash: an id comes back as itself or not at all; it comes back
exactly when it is canonical; canonical ids have different client ids; and a client
id that comes back is the one its id has. -/
theorem cloidRoundTrips (keccak : List UInt8 → Digest) :
    (∀ id, fromCloid (toCloid keccak id) = none ∨ fromCloid (toCloid keccak id) = some id) ∧
    (∀ id, fromCloid (toCloid keccak id) = some id ↔ Canonical id) ∧
    (∀ a b, Canonical a → Canonical b → a ≠ b → toCloid keccak a ≠ toCloid keccak b) ∧
    (∀ (bytes : List UInt8) (id : String), bytes.length = 16 → fromCloid (cloidText bytes) = some id →
      toBytes keccak id = bytes ∧ toCloid keccak id = cloidText bytes) := by
  have hback : ∀ id, (Canonical id ∧ fromCloid (toCloid keccak id) = some id) ∨
      (¬ Canonical id ∧ fromCloid (toCloid keccak id) = none) := by
    intro id
    rw [toCloid, fromCloid_cloidText (toBytes_length keccak id)]
    exact fromBytes_toBytes keccak id
  have hcanonical : ∀ id, fromCloid (toCloid keccak id) = some id ↔ Canonical id := by
    intro id
    rcases hback id with ⟨hc, hsome⟩ | ⟨hc, hnone⟩
    · exact ⟨fun _ => hc, fun _ => hsome⟩
    · rw [hnone]
      exact ⟨fun h => (by cases h), fun h => absurd h hc⟩
  refine ⟨?_, hcanonical, ?_, ?_⟩
  · intro id
    rcases hback id with ⟨-, hsome⟩ | ⟨-, hnone⟩
    · exact Or.inr hsome
    · exact Or.inl hnone
  · intro a b ha hb hne heq
    have hsome := (hcanonical a).mpr ha
    rw [heq, (hcanonical b).mpr hb] at hsome
    exact hne (some.inj hsome).symm
  · intro bytes id hlength h
    rw [fromCloid_cloidText hlength] at h
    have hbytes := toBytes_fromBytes keccak hlength h
    exact ⟨hbytes, congrArg cloidText hbytes⟩

/-- An order id of the canary's, of a given stamp, process and nonce. -/
theorem cloidRoundTrips_canary :
    fromCloid (toCloid (fun _ => ⟨List.replicate 32 0, rfl⟩) "lmcan-18bcfe56800-04d2-00ff") =
      some "lmcan-18bcfe56800-04d2-00ff" :=
  ((cloidRoundTrips (fun _ => ⟨replicate 32 0, rfl⟩)).2.1 "lmcan-18bcfe56800-04d2-00ff").mpr
    (Or.inr ⟨.order, 1700000000000, 1234, 255, by decide, by decide, by decide, by decide +kernel⟩)

end LiquidityMigration.Venue.Hyperliquid
