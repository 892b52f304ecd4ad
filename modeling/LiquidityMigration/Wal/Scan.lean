import LiquidityMigration.Lib.Framing
import LiquidityMigration.Wal.Record

/- Reading a log file. `scanFrames` is the loop every reader shares: the magic, then frames until a short, empty or
   overlong one, which is a torn tail and not an error. A bad header or checksum, or a payload that does not decode,
   is an error at its offset. `Holds bytes rs` says that `bytes` is the magic and whole frames carrying `rs`
   (`scanFile_of_holds`, `holds_of_scanFile`). -/
namespace LiquidityMigration.Wal
open Framing LittleEndian List

variable {β τ κ σ : Type}

/-- `EWAL0001`: the trailing digits are the format version. -/
def magic : Bytes := [0x45, 0x57, 0x41, 0x4c, 0x30, 0x30, 0x30, 0x31]

def headerLen : Nat := 8

theorem magic_length : magic.length = headerLen := rfl

theorem take_magic_append (b : Bytes) : (magic ++ b).take headerLen = magic := rfl

theorem drop_magic_append (b : Bytes) : (magic ++ b).drop headerLen = b := rfl

variable (deps : Deps β)

/-- One turn of the loop of `scan_frames`, on what is left of the file. -/
def frameHead (offset : Nat) (rest : Bytes) : Head (Bytes × WalRecord β) WalError :=
  if rest.length < frameHeaderLen then .stop
  else
    let payloadLen := LittleEndian.ofBytes rest
    let wantCrc := LittleEndian.ofBytes (rest.drop 4)
    -- No record is empty, and a torn write usually leaves a run of zero bytes.
    if payloadLen = 0 then .stop
    else if rest.length - frameHeaderLen < payloadLen then .stop
    else
      let payload := (rest.drop frameHeaderLen).take payloadLen
      if (deps.crc32c payload).toNat ≠ wantCrc then .fail (.corrupt offset "frame checksum does not match")
      else match deps.readRecord payload with
        | .error e =>
          .fail (.corrupt offset s!"frame passed its checksum but is not a readable record: {e}")
        | .ok record => .frame (payload, record) (frameHeaderLen + payloadLen)

variable {off : Nat} {s : Bytes} {record : WalRecord β} {rs' : List (WalRecord β)} {payload bytes : Bytes} {n : Nat}

theorem frameHead_eq_frame {deps : Deps β} : frameHead deps off s = .frame (payload, record) n ↔
      n = frameHeaderLen + LittleEndian.ofBytes s ∧ 0 < LittleEndian.ofBytes s ∧ n ≤ s.length ∧
      payload = (s.drop frameHeaderLen).take (LittleEndian.ofBytes s) ∧
      (deps.crc32c payload).toNat = LittleEndian.ofBytes (s.drop 4) ∧
      deps.readRecord payload = .ok record := by
  unfold frameHead
  constructor
  · intro h
    split at h
    · cases h
    · dsimp only at h
      split at h
      · cases h
      · split at h
        · cases h
        · split at h
          · cases h
          · next hcrc =>
            split at h
            · cases h
            · next hr =>
              simp only [Head.frame.injEq, Prod.mk.injEq] at h
              obtain ⟨⟨rfl, rfl⟩, rfl⟩ := h
              exact ⟨rfl, by omega, by omega, rfl, by simpa using hcrc, hr⟩
  · rintro ⟨rfl, hpos, hle, rfl, hcrc, hread⟩
    rw [if_neg (by omega)]
    dsimp only
    rw [if_neg (by omega), if_neg (by omega), if_neg (by simpa using hcrc), hread]

theorem frameHead_short {deps : Deps β} (h : s.length < frameHeaderLen) : frameHead deps off s = .stop := by
  rw [frameHead, if_pos h]

theorem frameHead_torn {deps : Deps β} (h8 : frameHeaderLen ≤ s.length)
    (h : s.length - frameHeaderLen < LittleEndian.ofBytes s) : frameHead deps off s = .stop := by
  rw [frameHead, if_neg (by omega)]
  dsimp only
  rw [if_neg (by omega), if_pos h]

theorem frameHead_zero {deps : Deps β} (h : LittleEndian.ofBytes s = 0) : frameHead deps off s = .stop := by
  unfold frameHead
  split
  · rfl
  · dsimp only
    rw [if_pos h]

theorem frameHead_congr {deps : Deps β} {t : Bytes} {a : Bytes × WalRecord β}
    (h : frameHead deps off s = .frame a n) (ht : t.take n = s.take n) (hn : n ≤ t.length) :
    frameHead deps off t = .frame a n := by
  obtain ⟨payload, record⟩ := a
  obtain ⟨rfl, hpos, hle, rfl, hcrc, hread⟩ := frameHead_eq_frame.mp h
  have hlen : ofBytes t = ofBytes s := by
    have hs := ofBytes_append (b := s.take (frameHeaderLen + ofBytes s))
      (by rw [length_take, Nat.min_eq_left hle]; simp only [frameHeaderLen]; omega)
    have h1 := hs (s.drop (frameHeaderLen + ofBytes s))
    have h2 := hs (t.drop (frameHeaderLen + ofBytes s))
    rw [take_append_drop] at h1
    rw [← ht, take_append_drop, ht] at h2
    rw [h1, h2]
  have hcut : ∀ k, k ≤ frameHeaderLen → (t.drop k).take (frameHeaderLen + ofBytes s - k) =
      (s.drop k).take (frameHeaderLen + ofBytes s - k) := by
    intro k _
    rw [← drop_take, ← drop_take, ht]
  have hpay : (t.drop frameHeaderLen).take (ofBytes s) =
      (s.drop frameHeaderLen).take (ofBytes s) := by
    simpa using hcut frameHeaderLen (Nat.le_refl _)
  have hcrcField : ofBytes (t.drop 4) = ofBytes (s.drop 4) := by
    have h4 := hcut 4 (by decide)
    have hb : ∀ u : Bytes, frameHeaderLen + ofBytes s ≤ u.length →
        ofBytes ((u.drop 4).take (frameHeaderLen + ofBytes s - 4)) =
        ofBytes (u.drop 4) := by
      intro u hu
      have := ofBytes_append
        (b := (u.drop 4).take (frameHeaderLen + ofBytes s - 4))
        (by rw [length_take, length_drop]; simp only [frameHeaderLen] at hu ⊢; omega)
        ((u.drop 4).drop (frameHeaderLen + ofBytes s - 4))
      rw [take_append_drop] at this
      exact this.symm
    rw [← hb t hn, ← hb s hle, h4]
  refine frameHead_eq_frame.mpr ⟨by rw [hlen], by rw [hlen]; exact hpos, hn, by rw [hlen, hpay], ?_, hread⟩
  rw [hcrcField]
  exact hcrc

/-- Short of a whole frame nothing is found, and nothing is refused that was not
refused before the cut. -/
theorem frameHead_cut {deps : Deps β} {k : Nat} (hfail : ∀ e, frameHead deps off s ≠ .fail e)
    (hk : ∀ a n, frameHead deps off s = .frame a n → k < n) : frameHead deps off (s.take k) = .stop := by
  rcases Nat.lt_or_ge (s.take k).length frameHeaderLen with hshort | h8
  · exact frameHead_short hshort
  have hle : (s.take k).length ≤ s.length ∧ (s.take k).length ≤ k := by rw [length_take]; omega
  have hlen : ofBytes s = ofBytes (s.take k) := by
    have := ofBytes_append (b := s.take k) (by simp only [frameHeaderLen] at h8; omega) (s.drop k)
    rwa [take_append_drop] at this
  by_cases hz : ofBytes s = 0
  · exact frameHead_zero (by rw [← hlen, hz])
  apply frameHead_torn h8
  rw [← hlen]
  by_contra hfits
  cases hh : frameHead deps off s with
  | stop =>
    unfold frameHead at hh
    rw [if_neg (by omega)] at hh
    dsimp only at hh
    rw [if_neg hz, if_neg (by omega)] at hh
    split at hh
    · cases hh
    · split at hh <;> cases hh
  | fail e => exact hfail e hh
  | frame a n =>
    have hn := hk a n hh
    rw [(frameHead_eq_frame.mp hh).1] at hn
    omega

theorem frameHead_fail {deps : Deps β} {e : WalError}
    (h : frameHead deps off s = .fail e) : ∃ detail, e = .corrupt off detail := by
  unfold frameHead at h
  dsimp only at h
  split at h
  · cases h
  · split at h
    · cases h
    · split at h
      · cases h
      · split at h
        · cases h; exact ⟨_, rfl⟩
        · split at h
          · cases h; exact ⟨_, rfl⟩
          · cases h

def frameReader : Reader UInt8 (Bytes × WalRecord β) WalError where
  head := frameHead deps
  head_nil := fun _ => frameHead_short (by decide)
  size_pos := by
    rintro off s ⟨payload, record⟩ n h
    obtain ⟨rfl, _⟩ := frameHead_eq_frame.mp h
    exact Nat.lt_of_lt_of_le (by decide) (Nat.le_add_right _ _)
  size_le := by
    rintro off s ⟨payload, record⟩ n h
    exact (frameHead_eq_frame.mp h).2.2.1
  head_append := by
    rintro off s ⟨payload, record⟩ n t h
    have hle := (frameHead_eq_frame.mp h).2.2.1
    exact frameHead_congr h (take_append_of_le_length hle) (by rw [length_append]; omega)
  head_take := by
    rintro off s ⟨payload, record⟩ n h
    have hle := (frameHead_eq_frame.mp h).2.2.1
    exact frameHead_congr h (by rw [take_take, Nat.min_self]) (by rw [length_take]; omega)
  head_cut := frameHead_cut

/-- The header, then the frames, each handed to `visit` with its
sequence, its offset and its payload. -/
def scanFrames (visit : Nat → Nat → Bytes → WalRecord β → σ → Except WalError Unit × σ)
    (bytes : Bytes) (st : σ) : Except WalError Nat × σ :=
  if bytes.length < headerLen then
    (.error (.corrupt 0 "file is too short to carry the log header"), st)
  else if bytes.take headerLen ≠ magic then
    (.error (.corrupt 0 "not an engine log: the magic at the start does not match"), st)
  else
    (frameReader deps).visit (fun sequence offset a => visit sequence offset a.1 a.2) 1 headerLen
      (bytes.drop headerLen) st

structure Scan (τ : Type) where
  /-- What the caller kept. -/
  records : List τ
  /-- Offset just past the last good frame. -/
  goodEnd : Nat
  decoded : Nat
  startsWithBase : Bool
  deriving DecidableEq

def Scan.empty : Scan τ := { records := [], goodEnd := headerLen, decoded := 0, startsWithBase := false }

/-- What `scan_file_with` carries from frame to frame; `keep` is the state of
the caller's own filter. -/
structure Collect (τ κ : Type) where
  records : List τ
  decoded : Nat
  startsWithBase : Bool
  keep : κ

/-- The visitor of `scan_file_with`. -/
def collect (keep : Nat → WalRecord β → κ → Option τ × κ) (sequence : Nat) (record : WalRecord β)
    (st : Collect τ κ) : Collect τ κ :=
  let kept := keep sequence record st.keep
  { records := st.records ++ kept.1.toList
    decoded := sequence
    startsWithBase := if st.decoded = 0 then record.isSegmentBase else st.startsWithBase
    keep := kept.2 }

def scanFileWith (keep : Nat → WalRecord β → κ → Option τ × κ) (bytes : Bytes) (k : κ) : Except WalError (Scan τ) × κ :=
  let out := scanFrames deps (fun sequence _ _ record st => (.ok (), collect keep sequence record st)) bytes
    { records := [], decoded := 0, startsWithBase := false, keep := k }
  (out.1.map (fun goodEnd => ⟨out.2.records, goodEnd, out.2.decoded, out.2.startsWithBase⟩), out.2.keep)

def keepAll (sequence : Nat) (record : WalRecord β) (u : Unit) : Option (Nat × WalRecord β) × Unit :=
  (some (sequence, record), u)

def scanFile (bytes : Bytes) : Except WalError (Scan (Nat × WalRecord β)) :=
  (scanFileWith deps keepAll bytes ()).1

/-- Records numbered as the log numbers them: by position, from 1. -/
def sequenced (rs : List (WalRecord β)) : List (Nat × WalRecord β) := (rs.zipIdx 1).map Prod.swap

def startsWithBase (rs : List (WalRecord β)) : Bool := rs.head?.any WalRecord.isSegmentBase

/-- The scan of a file whose whole frames carry `rs` and end at `goodEnd`. -/
def Scan.ofRecords (rs : List (WalRecord β)) (goodEnd : Nat) : Scan (Nat × WalRecord β) :=
  { records := sequenced rs
    goodEnd := goodEnd
    decoded := rs.length
    startsWithBase := Wal.startsWithBase rs }

theorem sequenced_records (rs : List (WalRecord β)) : (sequenced rs).map Prod.snd = rs := by
  simp [sequenced, Function.comp_def]

theorem sequenced_injective {rs : List (WalRecord β)} (h : sequenced rs = sequenced rs') : rs = rs' := by
  rw [← sequenced_records rs, h, sequenced_records]

theorem records_of_ofRecords {rs : List (WalRecord β)} {e e' : Nat}
    (h : Scan.ofRecords rs e = Scan.ofRecords rs' e') : rs = rs' := by
  have := congrArg (fun s => s.records.map Prod.snd) h
  simpa only [Scan.ofRecords, sequenced_records] using this

def frames (bytes : Bytes) : List (Nat × Bytes × WalRecord β) × Except WalError Nat :=
  (frameReader deps).run headerLen (bytes.drop headerLen)

/-- What a filter makes of some rows, one after another, and the state it is in then. -/
def keptFrom (keep : Nat → WalRecord β → κ → Option τ × κ) : List (Nat × WalRecord β) → κ → List τ × κ
  | [], k => ([], k)
  | (sequence, record) :: rows, k =>
    let kept := keep sequence record k
    let rest := keptFrom keep rows kept.2
    (kept.1.toList ++ rest.1, rest.2)

theorem keptFrom_keepAll (rows : List (Nat × WalRecord β)) (u : Unit) : keptFrom keepAll rows u = (rows, ()) := by
  induction rows with
  | nil => rfl
  | cons row rows ih => simp [keptFrom, keepAll, ih]

theorem foldl_collect (keep : Nat → WalRecord β → κ → Option τ × κ) (items : List (Nat × Bytes × WalRecord β))
    (seq : Nat) (st : Collect τ κ) (hseq : st.decoded + 1 = seq) :
    (items.zipIdx seq).foldl (fun st x => collect keep x.2 x.1.2.2 st) st =
      { records := st.records ++ (keptFrom keep (((items.map (·.2.2)).zipIdx seq).map Prod.swap) st.keep).1
        decoded := st.decoded + items.length
        startsWithBase := if st.decoded = 0 then startsWithBase (items.map (·.2.2)) ||
          (items.isEmpty && st.startsWithBase)
          else st.startsWithBase
        keep := (keptFrom keep (((items.map (·.2.2)).zipIdx seq).map Prod.swap) st.keep).2 } := by
  induction items generalizing seq st with
  | nil => cases st; simp [startsWithBase, keptFrom]
  | cons x xs ih =>
    rw [zipIdx_cons, foldl_cons, ih (seq + 1) _ (by simp [collect])]
    subst hseq
    simp only [collect, keptFrom, map_cons, zipIdx_cons, append_assoc, Prod.swap_prod_mk,
      length_cons, Nat.add_one_ne_zero, if_false]
    congr 1
    · omega
    · split <;> simp [startsWithBase]

theorem length_of_header (h : bytes.take headerLen = magic) : headerLen ≤ bytes.length := by
  have := congrArg length h
  rw [length_take, magic_length] at this
  omega

theorem scanFrames_pure {deps : Deps β} (h : bytes.take headerLen = magic)
    (g : Nat → Nat → Bytes → WalRecord β → σ → σ) (st : σ) :
    scanFrames deps (fun sequence offset payload record st => (.ok (), g sequence offset payload record st)) bytes st =
      ((frames deps bytes).2,
        ((frames deps bytes).1.zipIdx 1).foldl (fun st x => g x.2 x.1.1 x.1.2.1 x.1.2.2 st) st) := by
  have hlen := length_of_header h
  rw [scanFrames, if_neg (by omega), if_neg (by simpa using h)]
  exact (frameReader deps).visit_eq_foldl _ (fun seq off a st => g seq off a.1 a.2 st) (fun _ _ _ _ => rfl) _ _ _ _

theorem scanFrames_bad_header (h : bytes.take headerLen ≠ magic)
    (visit : Nat → Nat → Bytes → WalRecord β → σ → Except WalError Unit × σ) (st : σ) :
    ∃ detail, scanFrames deps visit bytes st = (.error (.corrupt 0 detail), st) := by
  unfold scanFrames
  by_cases hl : bytes.length < headerLen
  · exact ⟨_, if_pos hl⟩
  · rw [if_neg hl, if_pos h]
    exact ⟨_, rfl⟩

theorem scanFileWith_eq {deps : Deps β} (h : bytes.take headerLen = magic)
    (keep : Nat → WalRecord β → κ → Option τ × κ) (k : κ) :
    scanFileWith deps keep bytes k =
      let kept := keptFrom keep (sequenced ((frames deps bytes).1.map (·.2.2))) k
      ((frames deps bytes).2.map (fun goodEnd =>
        ⟨kept.1, goodEnd, (frames deps bytes).1.length, startsWithBase ((frames deps bytes).1.map (·.2.2))⟩),
          kept.2) := by
  unfold scanFileWith
  rw [scanFrames_pure h (fun sequence _ _ record st => collect keep sequence record st), foldl_collect _ _ _ _ rfl]
  cases (frames deps bytes).2 <;> simp [Except.map, sequenced]

theorem scanFile_eq {deps : Deps β} (h : bytes.take headerLen = magic) : scanFile deps bytes =
      (frames deps bytes).2.map (Scan.ofRecords ((frames deps bytes).1.map (·.2.2))) := by
  rw [scanFile, scanFileWith_eq h, keptFrom_keepAll]
  cases (frames deps bytes).2 <;> simp [Except.map, Scan.ofRecords]

theorem scanFile_bad_header (h : bytes.take headerLen ≠ magic) :
    ∃ detail, scanFile deps bytes = .error (.corrupt 0 detail) := by
  unfold scanFile scanFileWith
  obtain ⟨detail, hs⟩ := scanFrames_bad_header deps h
    (fun sequence _ _ record st => (.ok (), collect keepAll sequence record st))
    { records := [], decoded := 0, startsWithBase := false, keep := () }
  rw [hs]
  exact ⟨detail, rfl⟩

/-- `bytes` is the header and whole frames carrying `rs`, and nothing else. -/
structure Holds (deps : Deps β) (bytes : Bytes) (rs : List (WalRecord β)) : Prop where
  header : bytes.take headerLen = magic
  clean : ∃ items, (frameReader deps).Clean headerLen (bytes.drop headerLen) items ∧ items.map (·.2.2) = rs

variable {deps : Deps β} {bytes : Bytes} {rs : List (WalRecord β)}

theorem scanFile_of_holds (h : Holds deps bytes rs) : scanFile deps bytes = .ok (.ofRecords rs bytes.length) := by
  obtain ⟨items, hclean, rfl⟩ := h.clean
  have h8 := length_of_header h.header
  have hrun : frames deps bytes = (items, .ok bytes.length) := by
    rw [frames, hclean.run_eq, length_drop]
    congr 2
    omega
  rw [scanFile_eq h.header, hrun]
  rfl

theorem header_of_scanFile {s : Scan (Nat × WalRecord β)} (h : scanFile deps bytes = .ok s) :
    bytes.take headerLen = magic := by
  by_contra hne
  obtain ⟨_, he⟩ := scanFile_bad_header deps hne
  rw [he] at h
  cases h

theorem holds_of_scanFile {s : Scan (Nat × WalRecord β)} (h : scanFile deps bytes = .ok s) :
    ∃ rs, Holds deps (bytes.take s.goodEnd) rs ∧ headerLen ≤ s.goodEnd ∧ s.goodEnd ≤ bytes.length ∧
      s = .ofRecords rs s.goodEnd := by
  have hmagic := header_of_scanFile h
  have h8 := length_of_header hmagic
  rw [scanFile_eq hmagic] at h
  cases hend : (frames deps bytes).2 with
  | error e => rw [hend] at h; cases h
  | ok e =>
    rw [hend] at h
    simp only [Except.map, Except.ok.injEq] at h
    subst h
    obtain ⟨h1, h2, h3⟩ := Reader.clean_of_run (R := frameReader deps) (Prod.ext rfl hend)
    rw [length_drop] at h2
    have h4 : e ≤ bytes.length := by omega
    refine ⟨_, ⟨?_, _, ?_, rfl⟩, h1, h4, rfl⟩
    · change (bytes.take e).take headerLen = magic
      rw [take_take, Nat.min_eq_left h1]
      exact hmagic
    · change (frameReader deps).Clean headerLen ((bytes.take e).drop headerLen) _
      rw [drop_take]
      exact h3

theorem scanFile_take {goodEnd : Nat} (h : scanFile deps bytes = .ok (.ofRecords rs goodEnd))
    (hn : headerLen ≤ n) : ∃ m e, scanFile deps (bytes.take n) = .ok (.ofRecords (rs.take m) e) := by
  have hmagic := header_of_scanFile h
  have hcut : (bytes.take n).take headerLen = magic := by
    rw [take_take, Nat.min_eq_left hn]; exact hmagic
  rw [scanFile_eq hmagic] at h
  cases hend : (frames deps bytes).2 with
  | error e => rw [hend] at h; cases h
  | ok e =>
    rw [hend] at h
    have hrs := records_of_ofRecords (Except.ok.inj h)
    obtain ⟨m, e', hrun⟩ := Reader.run_take (R := frameReader deps) (Prod.ext rfl hend) (n - headerLen)
    refine ⟨m, e', ?_⟩
    have hframes : frames deps (bytes.take n) = ((frames deps bytes).1.take m, .ok e') := by
      rw [frames, drop_take]
      exact hrun
    rw [scanFile_eq hcut, hframes, ← hrs, ← map_take]
    rfl

theorem Holds.prefix_of_scanFile {t : Bytes} {e : Nat} (h : Holds deps bytes rs)
    (hscan : scanFile deps (bytes ++ t) = .ok (.ofRecords rs' e)) : rs <+: rs' := by
  have h8 := length_of_header h.header
  have hmagic := header_of_scanFile hscan
  obtain ⟨items, hclean, rfl⟩ := h.clean
  have hrun := hclean.run_append t
  rw [← drop_append_of_le_length h8] at hrun
  rw [scanFile_eq hmagic, show frames deps (bytes ++ t) = _ from hrun] at hscan
  cases hend : ((frameReader deps).run (headerLen + (bytes.drop headerLen).length) t).2 with
  | error err => rw [hend] at hscan; cases hscan
  | ok e' =>
    rw [hend] at hscan
    rw [← records_of_ofRecords (Except.ok.inj hscan), map_append]
    exact prefix_append _ _

theorem bad_header_of_scanFile {detail : String} (h : scanFile deps bytes = .error (.corrupt 0 detail)) :
    bytes.take headerLen ≠ magic := by
  intro hmagic
  rw [scanFile_eq hmagic] at h
  cases hend : (frames deps bytes).2 with
  | ok e => rw [hend] at h; cases h
  | error e =>
    rw [hend] at h
    cases h
    obtain ⟨off, s, hle, hf⟩ := Reader.head_of_run_error (R := frameReader deps) (Prod.ext rfl hend)
    obtain ⟨_, he⟩ := frameHead_fail (show frameHead deps off s = _ from hf)
    injection he with h0 _
    subst h0
    exact absurd hle (by decide)

theorem holds_magic (deps : Deps β) : Holds deps magic [] :=
  ⟨rfl, [], .nil _, rfl⟩

def Fits (payload : Bytes) : Prop := payload.length < 2^32
  deriving Decidable

theorem ofBytes_frame (payload : Bytes) : LittleEndian.ofBytes (frame deps payload) = payload.length % 2^32 := by
  rw [frame, append_assoc, ofBytes_toBytes_append]

theorem ofBytes_frame_crc (payload : Bytes) :
    LittleEndian.ofBytes ((frame deps payload).drop 4) = (deps.crc32c payload).toNat := by
  have hdrop : (frame deps payload).drop 4 = toBytes (deps.crc32c payload).toNat ++ payload := rfl
  rw [hdrop, ofBytes_toBytes_append]
  exact Nat.mod_eq_of_lt (deps.crc32c payload).toNat_lt

theorem drop_frame (payload : Bytes) : (frame deps payload).drop frameHeaderLen = payload := rfl

/-- A payload its record is read back from: not empty, inside the length field, and
decoded to the record. -/
structure Recoverable (deps : Deps β) (record : WalRecord β) (payload : Bytes) : Prop where
  nonempty : 0 < payload.length
  fits : Fits payload
  reads : deps.readRecord payload = .ok record

theorem Deps.Lawful.recoverable (hd : deps.Lawful) (hw : writeRecord deps record = .ok payload)
    (hfit : Fits payload) : Recoverable deps record payload :=
  ⟨payload_ne_nil hd hw, hfit, hd.round_trip hw⟩

theorem frameHead_frame_torn (hfit : Fits payload) {k : Nat} (hk : k < (frame deps payload).length) :
    frameHead deps off ((frame deps payload).take k) = .stop := by
  rw [frame_length] at hk
  have hcut : ((frame deps payload).take k).length = k := by
    rw [length_take, frame_length]
    omega
  rcases Nat.lt_or_ge k frameHeaderLen with hshort | h8
  · exact frameHead_short (by rw [hcut]; exact hshort)
  have hlen : ofBytes ((frame deps payload).take k) = payload.length := by
    have := ofBytes_append (b := (frame deps payload).take k) (by rw [hcut]; exact Nat.le_trans (by decide) h8)
      ((frame deps payload).drop k)
    rw [take_append_drop, ofBytes_frame, Nat.mod_eq_of_lt hfit] at this
    exact this.symm
  apply frameHead_torn (by rw [hcut]; exact h8)
  rw [hcut, hlen]
  omega

theorem frameHead_frame {found : WalRecord β} (hfit : Fits payload)
    (h : frameHead deps off (frame deps payload) = .frame (bytes, found) n) : Recoverable deps found payload := by
  have hlen : ofBytes (frame deps payload) = payload.length := by
    rw [ofBytes_frame, Nat.mod_eq_of_lt hfit]
  obtain ⟨-, hpos, -, hbytes, -, hread⟩ := frameHead_eq_frame.mp h
  rw [hlen] at hpos hbytes
  rw [drop_frame, take_length] at hbytes
  exact ⟨hpos, hfit, by rw [← hbytes]; exact hread⟩

theorem Recoverable.encodes (h : Recoverable deps record payload) :
    (frameReader deps).Encodes (payload, record) (frame deps payload) := by
  have hlen : ofBytes (frame deps payload) = payload.length := by
    rw [ofBytes_frame, Nat.mod_eq_of_lt h.fits]
  have hpos := h.nonempty
  intro off
  refine frameHead_eq_frame.mpr ⟨by rw [hlen, frame_length], by omega, Nat.le_refl _, ?_, ?_, h.reads⟩
  · rw [drop_frame, hlen, take_length]
  · rw [ofBytes_frame_crc]

theorem Holds.append (h : Holds deps bytes rs) (hr : Recoverable deps record payload) :
    Holds deps (bytes ++ frame deps payload) (rs ++ [record]) := by
  have h8 := length_of_header h.header
  obtain ⟨items, hclean, rfl⟩ := h.clean
  refine ⟨by rw [take_append_of_le_length h8]; exact h.header, ?_⟩
  rw [drop_append_of_le_length h8]
  exact ⟨_, hclean.append (hr.encodes.clean _), by simp⟩

end LiquidityMigration.Wal
