import LiquidityMigration.Lib.LittleEndian

/- The records of the engine's append-only log, and how one becomes a frame. Only what the log code tells apart is a
   constructor or a field; the rest is a body of an arbitrary type. `serde_json`, the record decoder and `crc32c`
   come in as `Deps`. `Deps.Lawful`: a serialized record is decoded to itself, and no bytes at all decode to nothing. -/
namespace LiquidityMigration.Wal

abbrev Bytes := List UInt8

inductive WalError where
  | io : String → WalError
  | corrupt : Nat → String → WalError
  deriving DecidableEq

/-- One record of the log. `body` is what the log never looks at. -/
inductive WalRecord (β : Type) where
  /-- A kind that is read from old logs and never written. -/
  | retained (body : β)
  | orderSent (dispatch : Option β) (clientOrderId : String) (body : β)
  | amendSent (exactTerms : Option β) (body : β)
  | amendResolved (exactEffectivePx : Option β) (body : β)
  | segmentBase (orderIdEpochMs : Option Int) (wallTsMs : Int) (openOrders : List String) (body : β)
  | orderIdEpoch (epochMs : Int)
  | boot (wallTsMs : Int) (body : β)
  | other (body : β)
  deriving DecidableEq

variable {β : Type}

def WalRecord.isSegmentBase : WalRecord β → Bool
  | .segmentBase .. => true
  | _ => false

/-- The value handed to the serializer: the record itself under its own tag, or
one of the three shapes kept for readers older than the versioned kinds. -/
inductive WireForm (β : Type) where
  | tagged (record : WalRecord β)
  | legacyOrder (clientOrderId : String) (body : β)
  | legacyAmend (body : β)
  | legacyResolution (body : β)

/-- What the log calls and does not define. `debugAssertions` is the build's
own switch: with it every append reads its payload back. -/
structure Deps (β : Type) where
  toWriter : WireForm β → Except String Bytes
  readRecord : Bytes → Except String (WalRecord β)
  crc32c : Bytes → UInt32
  debugAssertions : Bool

def writeRecord (deps : Deps β) : WalRecord β → Except WalError Bytes
  | .retained _ => .error (.io "retained WAL record kinds are read-only")
  | .orderSent none id body => (deps.toWriter (.legacyOrder id body)).mapError .io
  | .amendSent none body => (deps.toWriter (.legacyAmend body)).mapError .io
  | .amendResolved none body => (deps.toWriter (.legacyResolution body)).mapError .io
  | record => (deps.toWriter (.tagged record)).mapError .io

/-- The two assumptions on what the log calls. -/
structure Deps.Lawful (deps : Deps β) : Prop where
  round_trip : ∀ {record payload}, writeRecord deps record = .ok payload →
    deps.readRecord payload = .ok record
  empty_unreadable : ∀ record, deps.readRecord [] ≠ .ok record

/-- Whether `pattern` occurs in `payload`. -/
def hasWindow (pattern payload : Bytes) : Bool := payload.tails.any fun t => pattern.isPrefixOf t

def asciiBytes (s : String) : Bytes := s.toList.map fun c => UInt8.ofNat c.toNat

/-- The check a debug build makes before a record becomes a frame.
Only a payload with a null or a compatibility field can come back changed. -/
def readsBack [DecidableEq β] (deps : Deps β) (record : WalRecord β) (payload : Bytes) : Except WalError Unit :=
  if !hasWindow (asciiBytes "null") payload && !hasWindow (asciiBytes "fee_known") payload
      && !hasWindow (asciiBytes "execution_history_through_ms") payload then .ok ()
  else match deps.readRecord payload with
    | .error e => .error (.io s!"this record does not read back, so it is not written: {e}")
    | .ok restored =>
      if restored = record then .ok ()
      else .error (.io "this record does not read back unchanged, so it is not written")

/-- The payload that goes under a frame header: the serialized record, after the
debug build's check. -/
def encodePayload [DecidableEq β] (deps : Deps β) (record : WalRecord β) : Except WalError Bytes := do
  let payload ← writeRecord deps record
  if deps.debugAssertions then readsBack deps record payload
  return payload

def frameHeaderLen : Nat := 8

/-- One frame. The length field is the payload length cast to 32 bits. -/
def frame (deps : Deps β) (payload : Bytes) : Bytes :=
  LittleEndian.toBytes payload.length ++ LittleEndian.toBytes (deps.crc32c payload).toNat ++ payload

@[simp] theorem frame_length (deps : Deps β) (payload : Bytes) :
    (frame deps payload).length = frameHeaderLen + payload.length := by
  simp only [frame, frameHeaderLen, List.length_append, LittleEndian.toBytes_length]

theorem payload_ne_nil {deps : Deps β} {record : WalRecord β} {payload : Bytes} (hd : deps.Lawful)
    (h : writeRecord deps record = .ok payload) : 0 < payload.length := by
  rcases payload with _ | ⟨b, bs⟩
  · exact absurd (hd.round_trip h) (hd.empty_unreadable record)
  · simp

section
variable [DecidableEq β] {deps : Deps β} {record : WalRecord β} {payload : Bytes}

theorem encodePayload_eq (hd : deps.Lawful) : encodePayload deps record = writeRecord deps record := by
  unfold encodePayload
  cases hw : writeRecord deps record with
  | error e => rfl
  | ok p =>
    have hr : readsBack deps record p = .ok () := by
      unfold readsBack
      rw [hd.round_trip hw]
      simp
    simp [bind, Except.bind, hr, pure, Except.pure]

end
end LiquidityMigration.Wal
