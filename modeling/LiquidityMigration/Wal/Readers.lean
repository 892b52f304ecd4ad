import LiquidityMigration.Wal.Writer

/- The readers that decide which segment of a family is trusted: segment 1 always, a later one only if its first
   record reads back as a complete restatement. `openCurrent` and `replayCurrent` walk down from the newest,
   `firstRecord` decodes one frame, `replayChain` walks up. `Selected family d index rs` is the decision in terms of
   the files, and all four make it (`readersSelect_of_selected`). -/
namespace LiquidityMigration.Wal
open Framing Disk List Nat Except

variable {β τ κ σ : Type}

def trusted (index : Nat) (startsWithBase : Bool) : Bool :=
  if index ≤ 1 then true else startsWithBase

/-! ## Walking down from the newest -/

/-- The loop of `open_current_kept`, over the candidates from the newest down.
The caller's filter is run over every candidate that is scanned. -/
def openFrom (deps : Deps β) (keep : Nat → WalRecord β → κ → Option τ × κ) (family : Name) (d : Dir) :
    List (Nat × Name) → κ → Except WalError (Log × List τ)
  | [], k => openSegmentWith deps keep family family true d k
  | (index, path) :: older, k =>
    if (fileAt d path).length = 0 then
      if index ≤ 1 then openSegmentWith deps keep path family true d k
      else openFrom deps keep family d older k
    else
      match scanFileWith deps keep (fileAt d path) k with
      | (.error (.corrupt 0 detail), k') =>
        if 1 < index then openFrom deps keep family d older k' else .error (.corrupt 0 detail)
      | (.error e, _) => .error e
      | (.ok scan, k') =>
        if trusted index scan.startsWithBase then .ok (fromScan d path family true scan)
        else openFrom deps keep family d older k'

variable (deps : Deps β) (visit : Nat → WalRecord β → σ → Except WalError Unit × σ)

def openCurrentKept (keep : Nat → WalRecord β → κ → Option τ × κ) (family : Name) (d : Dir)
    (k : κ) : Except WalError (Log × List τ) :=
  openFrom deps keep family d (segments family d).reverse k

def openCurrent (family : Name) (d : Dir) : Except WalError (Log × List (Nat × WalRecord β)) :=
  openCurrentKept deps keepAll family d ()

def replayScan (bytes : Bytes) : Except WalError (List (Nat × WalRecord β) × Bool) :=
  if bytes.length = 0 then .ok ([], false)
  else (scanFile deps bytes).map fun scan => (scan.records, decide (scan.goodEnd < bytes.length))

/-- A numbered segment whose header never finished reads as empty. -/
def scanCandidate (index : Nat) (bytes : Bytes) : Except WalError (List (Nat × WalRecord β) × Bool) :=
  match replayScan deps bytes with
  | .ok read => .ok read
  | .error (.corrupt 0 detail) => if 1 < index then .ok ([], false) else .error (.corrupt 0 detail)
  | .error e => .error e

def replayFrom (deps : Deps β) (d : Dir) : List (Nat × Name) → Except WalError (List (Nat × WalRecord β) × Bool)
  | [] => .ok ([], false)
  | (index, path) :: older =>
    match scanCandidate deps index (fileAt d path) with
    | .error e => .error e
    | .ok (records, damaged) =>
      if trusted index (startsWithBase (records.map Prod.snd)) then .ok (records, damaged)
      else replayFrom deps d older

def replayCurrent (family : Name) (d : Dir) : Except WalError (List (Nat × WalRecord β) × Bool) :=
  replayFrom deps d (segments family d).reverse

/-! ## One frame -/

def firstRecord (bytes : Bytes) : Except WalError (Option (WalRecord β)) :=
  if bytes.length < headerLen + frameHeaderLen then .ok none
  else if bytes.take headerLen ≠ magic then .ok none
  else
    let payloadLen := LittleEndian.ofBytes (bytes.drop headerLen)
    let wantCrc := LittleEndian.ofBytes ((bytes.drop headerLen).drop 4)
    if payloadLen = 0 ∨ bytes.length - headerLen - frameHeaderLen < payloadLen then .ok none
    else
      let payload := ((bytes.drop headerLen).drop frameHeaderLen).take payloadLen
      if (deps.crc32c payload).toNat ≠ wantCrc then
        .error (.corrupt headerLen "frame checksum does not match")
      else match deps.readRecord payload with
        | .ok record => .ok (some record)
        | .error e =>
          .error (.corrupt headerLen s!"frame passed its checksum but is not a readable record: {e}")

/-! ## Walking up from the oldest -/

/-- What `replay_chain_visit` carries through one segment. -/
structure ChainState (σ : Type) where
  (trusted decided : Bool)
  sequence : Nat
  user : σ

/-- Its visitor: the first record decides, and only a trusted segment is visited. -/
def chainStep (index : Nat)
    (record : WalRecord β) (st : ChainState σ) : Except WalError Unit × ChainState σ :=
  let st := if st.decided then st else
    { st with decided := true, trusted := if 1 < index then record.isSegmentBase else st.trusted }
  if !st.trusted then (.ok (), st)
  else
    let out := visit (st.sequence + 1) record st.user
    (out.1, { st with sequence := st.sequence + 1, user := out.2 })

/-- One turn of its loop: whether the segment was damaged, and the sequence and
the visitor's state after it. -/
def chainSegment (index : Nat)
    (bytes : Bytes) (sequence : Nat) (user : σ) : Except WalError Bool × Nat × σ :=
  if bytes.length = 0 then (.ok false, sequence, user)
  else
    let out := scanFrames deps (fun _ _ _ record st => chainStep visit index record st) bytes
      { trusted := decide (index ≤ 1), decided := false, sequence := sequence, user := user }
    match out.1 with
    | .ok goodEnd => (.ok (out.2.trusted && decide (goodEnd < bytes.length)), out.2.sequence, out.2.user)
    | .error (.corrupt 0 detail) =>
      (if 1 < index then .ok false else .error (.corrupt 0 detail), out.2.sequence, out.2.user)
    | .error e => (.error e, out.2.sequence, out.2.user)

def chainFrom (deps : Deps β) (visit : Nat → WalRecord β → σ → Except WalError Unit × σ) (d : Dir) :
    List (Nat × Name) → Bool → Nat → σ → Except WalError Bool × σ
  | [], damaged, _, user => (.ok damaged, user)
  | (index, path) :: newer, damaged, sequence, user =>
    match chainSegment deps visit index (fileAt d path) sequence user with
    | (.error e, _, user') => (.error e, user')
    | (.ok torn, sequence', user') => chainFrom deps visit d newer (damaged || torn) sequence' user'

def pushRecord (sequence : Nat) (record : WalRecord β) (out : List (Nat × WalRecord β)) :
    Except WalError Unit × List (Nat × WalRecord β) := (.ok (), out ++ [(sequence, record)])

/-- `replay_chain` over a list of segments. -/
def chainOver (d : Dir) (list : List (Nat × Name)) : Except WalError (List (Nat × WalRecord β) × Bool) :=
  let out := chainFrom deps pushRecord d list false 0 []
  out.1.map fun damaged => (out.2, damaged)

def replayChain (family : Name) (d : Dir) : Except WalError (List (Nat × WalRecord β) × Bool) :=
  chainOver deps d (segments family d)

/-! ## What makes a later segment untrusted -/

/-- The bytes are not those of a segment that boot may replay alone: no header
yet, or a first record that is not a restatement. -/
def Untrusted (bytes : Bytes) : Prop :=
  bytes.take headerLen = magic →
    ∃ rs e, scanFile deps bytes = .ok (.ofRecords rs e) ∧ startsWithBase rs = false

variable {deps : Deps β} {family path : Name} {d : Dir} {index : Nat} {bytes : Bytes} {rs : List (WalRecord β)}

theorem trusted_of_untrusted (hi : 1 < index) (h : startsWithBase rs = false) :
    trusted index (startsWithBase rs) = false := by
  rw [trusted, if_neg (by omega), h]

theorem startsWithBase_take {m : Nat} (h : startsWithBase rs = false) : startsWithBase (rs.take m) = false := by
  cases rs with
  | nil => rw [take_nil]; exact h
  | cons r rs =>
    cases m with
    | zero => rfl
    | succ m => exact h

theorem Untrusted.take (h : Untrusted deps bytes) (n : Nat) : Untrusted deps (bytes.take n) := by
  intro hmagic
  have hn : headerLen ≤ n := by
    have := length_of_header hmagic
    rw [length_take] at this
    omega
  rw [take_take, min_eq_left hn] at hmagic
  obtain ⟨rs, e, hscan, hbase⟩ := h hmagic
  obtain ⟨m, e', hcut⟩ := scanFile_take hscan hn
  exact ⟨_, e', hcut, startsWithBase_take hbase⟩

theorem Untrusted.of_lookup {d' : Dir}
    (hlook : d'.lookup (segmentName family index) = d.lookup (segmentName family index))
    (h : (index, segmentName family index) ∈ segments family d → Untrusted deps (fileAt d (segmentName family index)))
    (hmem : (index, segmentName family index) ∈ segments family d') :
    Untrusted deps (fileAt d' (segmentName family index)) := by
  obtain ⟨h1, hb, _, hin⟩ := mem_segments.mp hmem
  rw [fileAt, hlook]
  exact h (mem_segments.mpr ⟨h1, hb, rfl, mem_congr hlook hin⟩)

theorem Untrusted.scan_cases (h : Untrusted deps bytes) : (∃ detail, scanFile deps bytes = .error (.corrupt 0 detail)) ∨
    ∃ rs e, scanFile deps bytes = .ok (.ofRecords rs e) ∧ startsWithBase rs = false := by
  by_cases hmagic : bytes.take headerLen = magic
  · exact .inr (h hmagic)
  · exact .inl (scanFile_bad_header deps hmagic)

/-! ## One candidate, walking down -/

theorem scanFileWith_keepAll (deps : Deps β) (bytes : Bytes) :
    scanFileWith deps keepAll bytes () = (scanFile deps bytes, ()) := rfl

theorem ne_nil_of_header (h : bytes.take headerLen = magic) : bytes.length ≠ 0 := by
  have h8 := length_of_header h
  simp only [headerLen] at h8
  omega

theorem ne_nil_of_scanFile {s : Scan (Nat × WalRecord β)} (h : scanFile deps bytes = .ok s) : bytes.length ≠ 0 :=
  ne_nil_of_header (header_of_scanFile h)

variable {older newer list : List (Nat × Name)} {old : List (WalRecord β)}

theorem openFrom_untrusted (hi : 1 < index) (h : Untrusted deps (fileAt d path)) :
    openFrom deps keepAll family d ((index, path) :: older) () = openFrom deps keepAll family d older () := by
  rw [openFrom]
  by_cases h0 : (fileAt d path).length = 0
  · rw [if_pos h0, if_neg (by omega)]
  · rw [if_neg h0, scanFileWith_keepAll]
    obtain ⟨detail, hs⟩ | ⟨rs, e, hs, hb⟩ := h.scan_cases
    · rw [hs]
      exact if_pos hi
    · rw [hs]
      have hf : trusted index (Scan.ofRecords rs e).startsWithBase = false := trusted_of_untrusted hi hb
      simp [hf]

theorem openFrom_trusted {s : Scan (Nat × WalRecord β)}
    (hscan : scanFile deps (fileAt d path) = .ok s) (ht : trusted index s.startsWithBase = true) :
    openFrom deps keepAll family d ((index, path) :: older) () = .ok (fromScan d path family true s) := by
  rw [openFrom, if_neg (ne_nil_of_scanFile hscan), scanFileWith_keepAll, hscan]
  simp only [ht, if_true]

theorem openFrom_skip (h : ∀ c ∈ newer, 1 < c.1 ∧ Untrusted deps (fileAt d c.2)) :
    openFrom deps keepAll family d (newer ++ older) () = openFrom deps keepAll family d older () := by
  induction newer with
  | nil => rfl
  | cons c newer ih =>
    rw [forall_mem_cons] at h
    rw [cons_append, openFrom_untrusted h.1.1 h.1.2]
    exact ih h.2

theorem scanCandidate_untrusted (hi : 1 < index) (h : Untrusted deps bytes) :
    ∃ found damaged, scanCandidate deps index bytes = .ok (found, damaged) ∧
      startsWithBase (found.map Prod.snd) = false := by
  unfold scanCandidate replayScan
  by_cases h0 : bytes.length = 0
  · rw [if_pos h0]
    exact ⟨[], false, rfl, rfl⟩
  · rw [if_neg h0]
    obtain ⟨detail, hs⟩ | ⟨rs, e, hs, hb⟩ := h.scan_cases
    · rw [hs]
      exact ⟨[], false, if_pos hi, rfl⟩
    · rw [hs]
      refine ⟨sequenced rs, _, rfl, ?_⟩
      rw [sequenced_records]
      exact hb

theorem replayFrom_skip (h : ∀ c ∈ newer, 1 < c.1 ∧ Untrusted deps (fileAt d c.2)) :
    replayFrom deps d (newer ++ older) = replayFrom deps d older := by
  induction newer with
  | nil => rfl
  | cons c newer ih =>
    obtain ⟨⟨hi, hu⟩, hrest⟩ := forall_mem_cons.mp h
    obtain ⟨found, damaged, hs, hb⟩ := scanCandidate_untrusted hi hu
    rw [cons_append, replayFrom, hs]
    simp only [trusted_of_untrusted hi hb, Bool.false_eq_true, if_false]
    exact ih hrest

theorem replayFrom_trusted {e : Nat} (hscan : scanFile deps (fileAt d path) = .ok (.ofRecords rs e))
    (ht : trusted index (startsWithBase rs) = true) :
    replayFrom deps d ((index, path) :: older) = .ok (sequenced rs, decide (e < (fileAt d path).length)) := by
  have hcand : scanCandidate deps index (fileAt d path) =
      .ok (sequenced rs, decide (e < (fileAt d path).length)) := by
    rw [scanCandidate, replayScan, if_neg (ne_nil_of_scanFile hscan), hscan]
    rfl
  rw [replayFrom, hcand]
  simp [sequenced_records, ht]

/-! ## The first frame -/

theorem frames_of_scanFile {e : Nat} (h : scanFile deps bytes = .ok (.ofRecords rs e)) :
    (frames deps bytes).2 = .ok e ∧ (frames deps bytes).1.map (·.2.2) = rs := by
  rw [scanFile_eq (header_of_scanFile h)] at h
  cases hend : (frames deps bytes).2 with
  | error err => rw [hend] at h; cases h
  | ok e' =>
    rw [hend] at h
    have hs := ok.inj h
    exact ⟨congrArg ok (congrArg Scan.goodEnd hs), records_of_ofRecords hs⟩

theorem firstRecord_eq (hmagic : bytes.take headerLen = magic) : firstRecord deps bytes =
      match frameHead deps headerLen (bytes.drop headerLen) with
      | .stop => .ok none
      | .fail e => .error e
      | .frame a _ => .ok (some a.2) := by
  have hlen : (bytes.drop headerLen).length = bytes.length - headerLen := length_drop
  have h8 := length_of_header hmagic
  unfold firstRecord frameHead
  rw [hlen]
  by_cases hshort : bytes.length < headerLen + frameHeaderLen
  · rw [if_pos hshort, if_pos (by omega)]
  · have hlong : ¬ bytes.length - headerLen < frameHeaderLen := by omega
    simp only [hshort, hmagic, hlong, ne_eq, not_true_eq_false, if_false]
    by_cases hz : LittleEndian.ofBytes (bytes.drop headerLen) = 0
    · simp only [hz, true_or, if_true]
    · by_cases hover : bytes.length - headerLen - frameHeaderLen < LittleEndian.ofBytes (bytes.drop headerLen)
      · simp [hover]
      · simp only [hz, hover, or_self, if_false]
        split
        · rfl
        · split
          · next h => rw [h]
          · next h => rw [h]

/-- Where the segment scans, `first_record` is the scan's own first record. -/
theorem firstRecord_of_scanFile {e : Nat} (h : scanFile deps bytes = .ok (.ofRecords rs e)) :
    firstRecord deps bytes = .ok rs.head? := by
  obtain ⟨hend, hrs⟩ := frames_of_scanFile h
  rw [firstRecord_eq (header_of_scanFile h), ← hrs]
  cases hh : frameHead deps headerLen (bytes.drop headerLen) with
  | stop =>
    have : frames deps bytes = ([], .ok headerLen) := Reader.run_stop (frameReader deps) hh
    rw [this]
    rfl
  | fail err =>
    have : frames deps bytes = ([], .error err) := Reader.run_fail (frameReader deps) hh
    rw [this] at hend
    cases hend
  | frame a n =>
    have : frames deps bytes = _ := Reader.run_frame (frameReader deps) hh
    rw [this]
    rfl

/-- An untrusted segment has no restatement for `first_record` to find. -/
theorem Untrusted.firstRecord (h : Untrusted deps bytes) :
    ∃ found, Wal.firstRecord deps bytes = .ok found ∧ found.any WalRecord.isSegmentBase = false := by
  by_cases hmagic : bytes.take headerLen = magic
  · obtain ⟨rs, e, hscan, hbase⟩ := h hmagic
    exact ⟨_, firstRecord_of_scanFile hscan, hbase⟩
  · refine ⟨none, ?_, rfl⟩
    simp [Wal.firstRecord, hmagic]

/-! ## One segment, walking up -/

theorem sequenced_append (rs rs' : List (WalRecord β)) :
    sequenced (rs ++ rs') = sequenced rs ++ (rs'.zipIdx (rs.length + 1)).map Prod.swap := by
  rw [sequenced, sequenced, zipIdx_append, map_append, add_comm]

theorem sequenced_concat (rs : List (WalRecord β)) (r : WalRecord β) :
    sequenced (rs ++ [r]) = sequenced rs ++ [(rs.length + 1, r)] := sequenced_append rs [r]

/-- The chain state after the records `rs`, the first of which decided. -/
def ChainState.after (verdict decided : Bool) (rs : List (WalRecord β)) : ChainState (List (Nat × WalRecord β)) :=
  { trusted := verdict, decided := decided, sequence := rs.length, user := sequenced rs }

theorem chainStep_ok (index : Nat) (record : WalRecord β) (st : ChainState (List (Nat × WalRecord β))) :
    chainStep pushRecord index record st = (.ok (), (chainStep pushRecord index record st).2) := by
  unfold chainStep
  dsimp only
  generalize (if st.decided = true then st else _) = st'
  split <;> rfl

theorem chainStep_decided (index : Nat) (verdict : Bool) (old : List (WalRecord β)) (r : WalRecord β) :
    (chainStep pushRecord index r (.after verdict true old)).2 =
      .after verdict true (if verdict then old ++ [r] else old) := by
  cases verdict with
  | false => rfl
  | true =>
    show ChainState.mk true true (old.length + 1) (sequenced old ++ [(old.length + 1, r)]) = _
    simp only [if_true, ChainState.after, sequenced_concat, length_append, length_singleton]

theorem foldl_chainStep_decided (index : Nat) (verdict : Bool) (old rs : List (WalRecord β)) :
    rs.foldl (fun st r => (chainStep pushRecord index r st).2) (.after verdict true old) =
      .after verdict true (if verdict then old ++ rs else old) := by
  induction rs generalizing old with
  | nil => simp
  | cons r rs ih =>
    rw [foldl_cons, chainStep_decided, ih]
    cases verdict <;> simp

theorem foldl_chainStep (index : Nat) (old rs : List (WalRecord β)) :
    ∃ decided, rs.foldl (fun st r => (chainStep pushRecord index r st).2) (.after (decide (index ≤ 1)) false old) =
      .after (trusted index (startsWithBase rs)) decided
        (if trusted index (startsWithBase rs) then old ++ rs else old) := by
  cases rs with
  | nil =>
    refine ⟨false, ?_⟩
    have ht : trusted index (startsWithBase ([] : List (WalRecord β))) = decide (index ≤ 1) := by
      by_cases hi : index ≤ 1 <;> simp [trusted, startsWithBase, hi]
    simp [ht]
  | cons r rs =>
    refine ⟨true, ?_⟩
    have ht : trusted index (startsWithBase (r :: rs)) =
        if 1 < index then r.isSegmentBase else decide (index ≤ 1) := by
      by_cases hi : index ≤ 1
      · simp [trusted, hi, Nat.not_lt.mpr hi]
      · simp [trusted, startsWithBase, hi, Nat.lt_of_not_le hi]
    have hfirst : chainStep pushRecord index r (.after (decide (index ≤ 1)) false old) =
        chainStep pushRecord index r (.after (trusted index (startsWithBase (r :: rs))) true old) := by
      rw [ht]
      rfl
    rw [foldl_cons, hfirst, chainStep_decided, foldl_chainStep_decided]
    cases trusted index (startsWithBase (r :: rs)) <;> simp

theorem scanFrames_chainStep (deps : Deps β) (hmagic : bytes.take headerLen = magic) (index : Nat)
    (old : List (WalRecord β)) :
    ∃ decided, scanFrames deps (fun _ _ _ record st => chainStep pushRecord index record st) bytes
        (.after (decide (index ≤ 1)) false old) =
      ((frames deps bytes).2, .after (trusted index (startsWithBase ((frames deps bytes).1.map (·.2.2)))) decided
          (if trusted index (startsWithBase ((frames deps bytes).1.map (·.2.2)))
            then old ++ (frames deps bytes).1.map (·.2.2) else old)) := by
  have hvisit : (fun (_ _ : Nat) (_ : Bytes) (record : WalRecord β) st => chainStep pushRecord index record st) =
      fun _ _ _ record st => (.ok (), (chainStep pushRecord index record st).2) := by
    funext _ _ _ record st
    exact chainStep_ok index record st
  have hfold : ∀ (items : List (Nat × Bytes × WalRecord β)) st,
      (items.zipIdx 1).foldl (fun st x => (chainStep pushRecord index x.1.2.2 st).2) st =
      (items.map (·.2.2)).foldl (fun st r => (chainStep pushRecord index r st).2) st := by
    intro items st
    conv => rhs; rw [← zipIdx_map_fst 1 items, map_map, foldl_map]
    rfl
  obtain ⟨decided, hrun⟩ := foldl_chainStep index old ((frames deps bytes).1.map (·.2.2))
  refine ⟨decided, ?_⟩
  rw [hvisit, scanFrames_pure hmagic (fun _ _ _ record st => (chainStep pushRecord index record st).2), hfold, hrun]

theorem chainSegment_scanned {e : Nat} (h : scanFile deps bytes = .ok (.ofRecords rs e)) (old : List (WalRecord β)) :
    chainSegment deps pushRecord index bytes old.length (sequenced old) =
      (.ok (trusted index (startsWithBase rs) && decide (e < bytes.length)),
        (if trusted index (startsWithBase rs) then old ++ rs else old).length,
        sequenced (if trusted index (startsWithBase rs) then old ++ rs else old)) := by
  obtain ⟨hend, hrs⟩ := frames_of_scanFile h
  obtain ⟨decided, hrun⟩ := scanFrames_chainStep deps (header_of_scanFile h) index old
  rw [hend, hrs] at hrun
  unfold chainSegment
  rw [if_neg (ne_nil_of_scanFile h)]
  dsimp only
  rw [show (ChainState.mk (decide (index ≤ 1)) false old.length (sequenced old)) =
    ChainState.after (decide (index ≤ 1)) false old from rfl, hrun]
  rfl

theorem chainSegment_bad_header (h : bytes.take headerLen ≠ magic) (old : List (WalRecord β)) :
    ∃ res, chainSegment deps pushRecord index bytes old.length (sequenced old) = (res, old.length, sequenced old) ∧
      (1 < index → res = .ok false) := by
  unfold chainSegment
  by_cases h0 : bytes.length = 0
  · rw [if_pos h0]
    exact ⟨_, rfl, fun _ => rfl⟩
  · rw [if_neg h0]
    obtain ⟨detail, hs⟩ := scanFrames_bad_header deps h (fun _ _ _ record st => chainStep pushRecord index record st)
      { trusted := decide (index ≤ 1), decided := false, sequence := old.length, user := sequenced old }
    dsimp only
    rw [hs]
    exact ⟨_, rfl, fun hi => if_pos hi⟩

theorem chainSegment_untrusted (hi : 1 < index) (h : Untrusted deps bytes) (old : List (WalRecord β)) :
    chainSegment deps pushRecord index bytes old.length (sequenced old) = (.ok false, old.length, sequenced old) := by
  by_cases hmagic : bytes.take headerLen = magic
  · obtain ⟨rs, e, hscan, hbase⟩ := h hmagic
    rw [chainSegment_scanned hscan, trusted_of_untrusted hi hbase]
    rfl
  · obtain ⟨res, hout, hres⟩ := chainSegment_bad_header hmagic old
    rw [hout, hres hi]

theorem chainSegment_sequenced {torn : Bool} {sequence : Nat} {user : List (Nat × WalRecord β)}
    (h : chainSegment deps pushRecord index bytes old.length (sequenced old) = (.ok torn, sequence, user)) :
    ∃ rs, sequence = rs.length ∧ user = sequenced rs := by
  by_cases hmagic : bytes.take headerLen = magic
  · cases hend : (frames deps bytes).2 with
    | ok e =>
      have hscan : scanFile deps bytes = .ok (.ofRecords ((frames deps bytes).1.map (·.2.2)) e) := by
        rw [scanFile_eq hmagic, hend]
        rfl
      rw [chainSegment_scanned hscan] at h
      simp only [Prod.mk.injEq] at h
      exact ⟨_, h.2.1.symm, h.2.2.symm⟩
    | error err =>
      -- only the header is refused at offset 0, so this error ends the chain
      obtain ⟨off, s, hle, hf⟩ := Reader.head_of_run_error (R := frameReader deps) (Prod.ext rfl hend)
      obtain ⟨detail, rfl⟩ := frameHead_fail (show frameHead deps off s = _ from hf)
      obtain ⟨decided, hrun⟩ := scanFrames_chainStep deps hmagic index old
      unfold chainSegment at h
      rw [if_neg (ne_nil_of_header hmagic)] at h
      dsimp only at h
      rw [show (ChainState.mk (decide (index ≤ 1)) false old.length (sequenced old)) =
        ChainState.after (decide (index ≤ 1)) false old from rfl, hrun, hend] at h
      cases off with
      | zero => exact absurd hle (by decide)
      | succ off => cases h
  · obtain ⟨res, hout, _⟩ := chainSegment_bad_header hmagic old
    cases hout.symm.trans h
    exact ⟨old, rfl, rfl⟩

theorem chainFrom_append (newer : List (Nat × Name)) {before after : Bool} {user : List (Nat × WalRecord β)}
    (h : chainFrom deps pushRecord d list before old.length (sequenced old) = (.ok after, user)) :
    ∃ rs, user = sequenced rs ∧ chainFrom deps pushRecord d (list ++ newer) before old.length (sequenced old) =
      chainFrom deps pushRecord d newer after rs.length (sequenced rs) := by
  induction list generalizing before old with
  | nil =>
    cases h
    exact ⟨old, rfl, rfl⟩
  | cons c list ih =>
    rw [chainFrom] at h
    cases hstep : chainSegment deps pushRecord c.1 (fileAt d c.2) old.length (sequenced old) with
    | mk res rest =>
      obtain ⟨sequence, user'⟩ := rest
      rw [hstep] at h
      cases res with
      | error e => cases h
      | ok torn =>
        obtain ⟨rs, rfl, rfl⟩ := chainSegment_sequenced hstep
        obtain ⟨rs', hu, hrun⟩ := ih h
        refine ⟨rs', hu, ?_⟩
        rw [cons_append, chainFrom, hstep]
        exact hrun

theorem chainFrom_untrusted {damaged : Bool} (h : ∀ c ∈ list, 1 < c.1 ∧ Untrusted deps (fileAt d c.2)) :
    chainFrom deps pushRecord d list damaged old.length (sequenced old) = (.ok damaged, sequenced old) := by
  induction list generalizing damaged with
  | nil => rfl
  | cons c list ih =>
    rw [forall_mem_cons] at h
    rw [chainFrom, chainSegment_untrusted h.1.1 h.1.2]
    simp only [Bool.or_false]
    exact ih h.2

/-! ## The four readers agree -/

variable (deps family d index rs) in
/-- Segment `index` is the newest one that may be replayed, and holds `rs`. -/
structure Selected : Prop where
  mem : (index, segmentName family index) ∈ segments family d
  scans : ∃ e, scanFile deps (fileAt d (segmentName family index)) = .ok (.ofRecords rs e)
  trust : trusted index (startsWithBase rs) = true
  later : ∀ j, index < j → (j, segmentName family j) ∈ segments family d →
    Untrusted deps (fileAt d (segmentName family j))

variable (deps family d index rs) in
/-- What it means for the readers to select segment `index` with the records `rs`. -/
structure ReadersSelect :
    Prop where
  /-- `open_current` hands out its records and appends to it from there. -/
  openCurrent : ∃ log, Wal.openCurrent deps family d = .ok (log, sequenced rs) ∧
    log.writer.segmentIndex = index ∧ log.writer.path = segmentName family index
  replayCurrent : ∃ damaged, Wal.replayCurrent deps family d = .ok (sequenced rs, damaged)
  /-- `first_record` finds a restatement in it, and in no later one. -/
  firstRecord : ∀ j, index ≤ j → 1 < j → (j, segmentName family j) ∈ segments family d →
    ∃ found, Wal.firstRecord deps (fileAt d (segmentName family j)) = .ok found ∧
      (found.any WalRecord.isSegmentBase = true ↔ j = index)
  /-- The chain is the older segments, then its records, and nothing after them. -/
  chain : ∀ older damaged, chainOver deps d ((segments family d).filter (fun c => c.1 < index)) = .ok (older, damaged) →
    ∃ damaged', replayChain deps family d = .ok (sequenced (older.map Prod.snd ++ rs), damaged')

section
variable (h : (index, path) ∈ segments family d)
include h

theorem segments_split : ∃ older newer, segments family d = older ++ (index, path) :: newer ∧
      (∀ c ∈ newer, index < c.1) ∧ (segments family d).filter (fun c => c.1 < index) = older := by
  obtain ⟨older, newer, hsplit⟩ := append_of_mem h
  have hasc := segments_ascending family d
  rw [hsplit, pairwise_append, pairwise_cons] at hasc
  refine ⟨older, newer, hsplit, fun c hc => hasc.2.1.1 c hc, ?_⟩
  have hlt : ∀ c ∈ older, c.1 < index := fun c hc => hasc.2.2 c hc (index, path) (by simp)
  have hnot : ∀ c ∈ (index, path) :: newer, ¬ c.1 < index :=
    forall_mem_cons.mpr ⟨lt_irrefl _, fun c hc => not_lt.mpr (le_of_lt (hasc.2.1.1 c hc))⟩
  rw [hsplit, filter_append, filter_eq_self.mpr (by simpa using hlt),
    filter_eq_nil_iff.mpr (by simpa using hnot), append_nil]

theorem find_segment : ((segments family d).find? (fun candidate => candidate.2 = path)).map Prod.fst = some index := by
  cases hf : (segments family d).find? (fun candidate => candidate.2 = path) with
  | none =>
    have := find?_eq_none.mp hf _ h
    simp at this
  | some c =>
    have hmem := mem_of_find?_eq_some hf
    have hpath := find?_some hf
    simp only [decide_eq_true_eq] at hpath
    obtain ⟨j, name⟩ := c
    rw [mem_segments] at h hmem
    simp only at hpath
    rw [Option.map_some, segmentName_injective hmem.1 h.1 (by rw [← hmem.2.2.1, hpath, ← h.2.2.1])]

theorem fromScan_writer (scan : Scan τ) : (fromScan d path family true scan).1.writer.segmentIndex = index ∧
    path ∈ (fromScan d path family true scan).1.dir ∧
    ∀ name, name ≠ path → (fromScan d path family true scan).1.dir.lookup name = d.lookup name := by
  have hmem : path ∈ d := (mem_segments.mp h).2.2.2
  have hdir : path ∈ (fromScan d path family true scan).1.dir := by
    unfold fromScan
    dsimp only
    split
    · simp [setLen]
    · exact hmem
  refine ⟨?_, hdir, ?_⟩
  · have hlisted : (index, path) ∈ segments family (fromScan d path family true scan).1.dir := by
      obtain ⟨h1, h2, h3, _⟩ := mem_segments.mp h
      exact mem_segments.mpr ⟨h1, h2, h3, hdir⟩
    have hfind := find_segment hlisted
    show Option.getD (((segments family (fromScan d path family true scan).1.dir).find?
      (fun candidate => candidate.2 = path)).map Prod.fst) 1 = index
    rw [hfind]
    rfl
  · intro name hne
    unfold fromScan
    dsimp only
    split
    · exact AList.lookup_insert_ne hne
    · rfl

end

theorem Selected.newer_untrusted (h : Selected deps family d index rs)
    (hsub : ∀ c ∈ newer, c ∈ segments family d) (hgt : ∀ c ∈ newer, index < c.1) :
    ∀ c ∈ newer, 1 < c.1 ∧ Untrusted deps (fileAt d c.2) := by
  intro c hc
  obtain ⟨j, name⟩ := c
  have hmem := hsub _ hc
  have hj := hgt _ hc
  obtain ⟨_, _, rfl, _⟩ := mem_segments.mp hmem
  exact ⟨lt_of_le_of_lt (mem_segments.mp h.mem).1 hj, h.later j hj hmem⟩

theorem readersSelect_of_selected (h : Selected deps family d index rs) : ReadersSelect deps family d index rs := by
  obtain ⟨older, newer, hsplit, hgt, hfilter⟩ := segments_split h.mem
  have hlisted : ∀ c ∈ newer, c ∈ segments family d := fun c hc => by rw [hsplit]; simp [hc]
  have hnewer := h.newer_untrusted hlisted hgt
  obtain ⟨e, hscan⟩ := h.scans
  have hdown : (segments family d).reverse =
      newer.reverse ++ (index, segmentName family index) :: older.reverse := by
    rw [hsplit]
    simp
  refine ⟨?_, ?_, ?_, ?_⟩
  · refine ⟨_, ?_, (fromScan_writer h.mem (Scan.ofRecords rs e)).1, rfl⟩
    unfold openCurrent openCurrentKept
    rw [hdown, openFrom_skip (fun c hc => hnewer c (mem_reverse.mp hc)), openFrom_trusted hscan h.trust]
    rfl
  · refine ⟨decide (e < (fileAt d (segmentName family index)).length), ?_⟩
    unfold replayCurrent
    rw [hdown, replayFrom_skip (fun c hc => hnewer c (mem_reverse.mp hc)), replayFrom_trusted hscan h.trust]
  · intro j hj h1 hmem
    rcases lt_or_eq_of_le hj with hlt | rfl
    · obtain ⟨found, hf, hnone⟩ := (h.later j hlt hmem).firstRecord
      refine ⟨found, hf, ?_⟩
      rw [hnone]
      exact ⟨fun hc => absurd hc (by decide), fun hc => by omega⟩
    · refine ⟨_, firstRecord_of_scanFile hscan, fun _ => rfl, fun _ => ?_⟩
      have ht := h.trust
      rw [trusted, if_neg (by omega)] at ht
      exact ht
  · intro found damaged hchain
    rw [hfilter] at hchain
    cases hrun : chainFrom deps pushRecord d older false ([] : List (WalRecord β)).length (sequenced []) with
    | mk res user =>
      have hrun' : chainFrom deps pushRecord d older false 0 ([] : List (Nat × WalRecord β)) = (res, user) := hrun
      unfold chainOver at hchain
      dsimp only at hchain
      rw [hrun'] at hchain
      cases res with
      | error err => cases hchain
      | ok before =>
        cases hchain
        obtain ⟨old, rfl, happ⟩ := chainFrom_append ((index, segmentName family index) :: newer) hrun
        rw [← hsplit, chainFrom, chainSegment_scanned hscan] at happ
        simp only [h.trust, if_true] at happ
        rw [chainFrom_untrusted hnewer] at happ
        rw [sequenced_records]
        refine ⟨damaged || (true && decide (e < (fileAt d (segmentName family index)).length)), ?_⟩
        unfold replayChain chainOver
        dsimp only
        rw [show chainFrom deps pushRecord d (segments family d) false 0 ([] : List (Nat × WalRecord β)) = _
          from happ]
        rfl

/-! ## What `openCurrent` leaves -/

/-- How `out` came from the first of the candidates: nothing was left, the
family file was still empty, or a trusted segment was scanned. -/
inductive Opened (deps : Deps β) (family : Name) (d : Dir) (out : Log × List (Nat × WalRecord β)) :
    List (Nat × Name) → Prop where
  | fresh (h : openSegmentWith deps keepAll family family true d () = .ok out) : Opened deps family d out []
  | empty {path : Name} {rest : List (Nat × Name)} (empty : (fileAt d path).length = 0)
      (h : openSegmentWith deps keepAll path family true d () = .ok out) :
      Opened deps family d out ((1, path) :: rest)
  | scanned {index : Nat} {path : Name} {rest : List (Nat × Name)} {s : Scan (Nat × WalRecord β)}
      (scans : scanFile deps (fileAt d path) = .ok s) (trust : trusted index s.startsWithBase = true)
      (h : out = fromScan d path family true s) : Opened deps family d out ((index, path) :: rest)

theorem openFrom_cases {out : Log × List (Nat × WalRecord β)}
    (hpos : ∀ c ∈ list, 1 ≤ c.1) (h : openFrom deps keepAll family d list () = .ok out) :
    ∃ newer older, list = newer ++ older ∧ (∀ c ∈ newer, 1 < c.1 ∧ Untrusted deps (fileAt d c.2)) ∧
      Opened deps family d out older := by
  induction list with
  | nil => exact ⟨[], [], rfl, by simp, .fresh h⟩
  | cons c list ih =>
    obtain ⟨index, path⟩ := c
    have hskip : 1 < index → Untrusted deps (fileAt d path) →
        openFrom deps keepAll family d list () = .ok out →
        ∃ newer older, (index, path) :: list = newer ++ older ∧
          (∀ c ∈ newer, 1 < c.1 ∧ Untrusted deps (fileAt d c.2)) ∧ Opened deps family d out older := by
      intro hi hu hrest
      obtain ⟨newer, older, hlist, hun, hopen⟩ := ih (forall_mem_cons.mp hpos).2 hrest
      exact ⟨(index, path) :: newer, older, by rw [hlist]; rfl, forall_mem_cons.mpr ⟨⟨hi, hu⟩, hun⟩, hopen⟩
    rw [openFrom] at h
    by_cases h0 : (fileAt d path).length = 0
    · rw [if_pos h0] at h
      by_cases hi : index ≤ 1
      · rw [if_pos hi] at h
        obtain rfl : index = 1 := le_antisymm hi (hpos (index, path) (by simp))
        exact ⟨[], _, rfl, by simp, .empty h0 h⟩
      · rw [if_neg hi] at h
        refine hskip (by omega) ?_ h
        intro hmagic
        rw [length_eq_zero_iff.mp h0] at hmagic
        exact absurd hmagic (by decide)
    · rw [if_neg h0, scanFileWith_keepAll] at h
      cases hs : scanFile deps (fileAt d path) with
      | ok s =>
        rw [hs] at h
        dsimp only at h
        by_cases ht : trusted index s.startsWithBase = true
        · rw [if_pos ht] at h
          exact ⟨[], _, rfl, by simp, .scanned hs ht (ok.inj h).symm⟩
        · rw [if_neg ht] at h
          rw [trusted] at ht
          split at ht
          · exact absurd rfl ht
          · obtain ⟨rs, _, _, _, hrs⟩ := holds_of_scanFile hs
            refine hskip (by omega) ?_ h
            intro _
            rw [hrs] at hs ht
            exact ⟨rs, _, hs, by simpa [Scan.ofRecords] using ht⟩
      | error e =>
        rw [hs] at h
        split at h
        · next detail _ heq =>
          cases heq
          split at h
          · next hi =>
            refine hskip hi ?_ h
            intro hmagic
            exact absurd hmagic (bad_header_of_scanFile hs)
          · cases h
        · cases h
        · next heq => cases heq

theorem selected_fresh (deps : Deps β) (d : Dir) {dir : Dir} (hempty : (fileAt dir family).length = 0)
    (hsame : ∀ name, name ≠ family → dir.lookup name = d.lookup name)
    (hlater : ∀ j, 1 < j → (j, segmentName family j) ∈ segments family d →
      Untrusted deps (fileAt d (segmentName family j))) :
    Selected deps family (writeAt dir family 0 magic) 1 [] ∧
    scanFile deps (fileAt (writeAt dir family 0 magic) (segmentName family 1)) = .ok (.ofRecords [] headerLen) := by
  set started := writeAt dir family 0 magic
  have hfile : fileAt started family = magic := by
    have := fileAt_writeAt_end dir family magic
    rw [hempty, length_eq_zero_iff.mp hempty] at this
    exact this
  have hlisted : (1, family) ∈ segments family started :=
    mem_segments.mpr ⟨le_refl _, by decide, rfl, (mem_writeAt _ _ _ _ _).mpr (.inl rfl)⟩
  have hscan : scanFile deps (fileAt started (segmentName family 1)) =
      .ok (.ofRecords [] headerLen) := by
    show scanFile deps (fileAt started family) = _
    rw [hfile]
    exact scanFile_of_holds (holds_magic deps)
  refine ⟨⟨hlisted, ⟨_, hscan⟩, rfl, ?_⟩, hscan⟩
  intro j hj hjl
  have hne := segmentName_ne hlisted (mem_segments.mp hjl).1 rfl (Nat.ne_of_lt hj)
  have hlook : started.lookup (segmentName family j) = d.lookup (segmentName family j) := by
    rw [lookup_writeAt_ne _ hne, hsame _ hne]
  exact .of_lookup hlook (hlater j hj) hjl

theorem openCurrent_selected {out : Log × List (Nat × WalRecord β)} (h : openCurrent deps family d = .ok out) :
    ∃ d' index rs e, Selected deps family d' index rs ∧
      scanFile deps (fileAt d' (segmentName family index)) = .ok (.ofRecords rs e) ∧
      out = fromScan d' (segmentName family index) family true (.ofRecords rs e) := by
  obtain ⟨newer, older, hlist, hun, hopen⟩ := openFrom_cases
    (fun c hc => (mem_segments.mp (show (c.1, c.2) ∈ segments family d from mem_reverse.mp hc)).1) h
  have hup : segments family d = older.reverse ++ newer.reverse := by
    rw [← reverse_append, ← hlist, reverse_reverse]
  -- the candidates before the opened one are exactly the segments above it
  have hlater : ∀ i path rest, older = (i, path) :: rest → ∀ j, i < j →
      (j, segmentName family j) ∈ segments family d → Untrusted deps (fileAt d (segmentName family j)) := by
    intro i path rest hcons j hj hjl
    have hasc := segments_ascending family d
    rw [hup, hcons, reverse_cons, append_assoc, pairwise_append] at hasc
    rw [hup, hcons, mem_append, mem_reverse, mem_reverse, mem_cons] at hjl
    obtain (heq | hin) | hin := hjl
    · rw [(Prod.mk.inj heq).1] at hj
      exact absurd hj (lt_irrefl _)
    · have hlt : j < i := hasc.2.2 _ (mem_reverse.mpr hin) (i, path) (by simp)
      omega
    · exact (hun _ hin).2
  cases hopen with
  | fresh hseg =>
    have hall : ∀ j, (j, segmentName family j) ∈ segments family d →
        1 < j ∧ Untrusted deps (fileAt d (segmentName family j)) := by
      intro j hj
      rw [hup] at hj
      exact hun _ (by simpa using hj)
    have hnone : family ∉ d := by
      intro hmem
      have hone := (hall 1 (mem_segments.mpr ⟨le_refl _, by decide, rfl, hmem⟩)).1
      exact absurd hone (lt_irrefl 1)
    unfold openSegmentWith at hseg
    simp only [hnone, if_false, fileAt_insert, length_nil, if_true] at hseg
    obtain ⟨hsel, hscan⟩ := selected_fresh deps d
      (show (fileAt (d.insert family []) family).length = 0 by rw [fileAt_insert]; rfl)
      (fun name hn => AList.lookup_insert_ne hn) fun j _ hjl => (hall j hjl).2
    exact ⟨_, _, _, _, hsel, hscan, (ok.inj hseg).symm⟩
  | @empty path rest hempty hseg =>
    have hmem : (1, path) ∈ segments family d := by rw [hup]; simp
    obtain ⟨_, _, rfl, hin⟩ := mem_segments.mp hmem
    unfold openSegmentWith at hseg
    simp only [hin, if_true, hempty] at hseg
    obtain ⟨hsel, hscan⟩ := selected_fresh deps d hempty (fun _ _ => rfl) (hlater _ _ _ rfl)
    exact ⟨_, _, _, _, hsel, hscan, (ok.inj hseg).symm⟩
  | @scanned index path rest s hscan htrust hout =>
    have hmem : (index, path) ∈ segments family d := by rw [hup]; simp
    obtain ⟨_, _, rfl, _⟩ := mem_segments.mp hmem
    obtain ⟨rs, _, _, _, hs⟩ := holds_of_scanFile hscan
    rw [hs] at hscan htrust hout
    exact ⟨d, index, rs, _, ⟨hmem, ⟨_, hscan⟩, htrust, hlater _ _ _ rfl⟩, hscan, hout⟩

end LiquidityMigration.Wal
