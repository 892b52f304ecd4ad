import LiquidityMigration.Wal.Writer

/- What survives a cut of the log. Cut anywhere after its header, a file is read back as the records whose frames lie
   wholly inside, and goes on from there (`CutsRecover`). That holds exactly when every payload fits the 32-bit
   length field (`cutsRecover_of_fits`, `fits_of_cutsRecover`): `append` casts the length and checks nothing. -/
namespace LiquidityMigration.Wal
open Framing Disk List Reader

variable {β : Type}

/-- The payloads `ps` are what the records `rs` serialize to. -/
def Serialized (deps : Deps β) (rs : List (WalRecord β)) (ps : List Bytes) : Prop :=
  List.Forall₂ (fun r p => writeRecord deps r = .ok p) rs ps

/-- Where the frame of the `k`-th record ends. -/
def boundary (deps : Deps β) (ps : List Bytes) (k : Nat) : Nat :=
  headerLen + ((ps.take k).map (frame deps)).flatten.length

/-! ## Frames cut and appended -/

section frames
variable {deps : Deps β} {rs old : List (WalRecord β)} {ps : List Bytes} {bytes : Bytes}

theorem Serialized.take (h : Serialized deps rs ps) (k : Nat) : Serialized deps (rs.take k) (ps.take k) :=
  forall₂_take k h

theorem fits_of_scanFile_append {payload : Bytes} {new : List (WalRecord β)}
    (hold : Holds deps bytes old) (hlen : new.length = old.length + 1)
    (hscan : scanFile deps (bytes ++ frame deps payload) =
      .ok (.ofRecords new (bytes ++ frame deps payload).length)) : Fits payload := by
  have h8 := length_of_header hold.header
  obtain ⟨items, hclean, rfl⟩ := hold.clean
  have hhead : (bytes ++ frame deps payload).take headerLen = magic := by
    rw [take_append_of_le_length h8]; exact hold.header
  have hend : headerLen + (bytes.drop headerLen).length = bytes.length := by rw [length_drop]; omega
  have hframes : frames deps (bytes ++ frame deps payload) =
      (items ++ ((frameReader deps).run bytes.length (frame deps payload)).1,
        ((frameReader deps).run bytes.length (frame deps payload)).2) := by
    rw [frames, drop_append_of_le_length h8, hclean.run_append, hend]
  rw [scanFile_eq hhead, hframes] at hscan
  -- the frame is read as one item, so the reading ends where that item ends
  cases hh : (frameReader deps).head bytes.length (frame deps payload) with
  | stop =>
    rw [run_stop _ hh] at hscan
    have := congrArg (Except.map Scan.decoded) hscan
    simp [Except.map, Scan.ofRecords] at this
    rw [length_map] at hlen
    omega
  | fail e => rw [run_fail _ hh] at hscan; cases hscan
  | frame a n =>
    rw [run_frame _ hh] at hscan
    cases hrest : (frameReader deps).run (bytes.length + n) ((frame deps payload).drop n) with
    | mk more ending =>
      rw [hrest] at hscan
      cases ending with
      | error e => cases hscan
      | ok e =>
        simp only [Except.map, Except.ok.injEq] at hscan
        have hdec := congrArg Scan.decoded hscan
        have hge := congrArg Scan.goodEnd hscan
        simp only [Scan.ofRecords, length_map, length_append, length_cons] at hdec hge hlen
        have hnil : more = [] := length_eq_zero_iff.mp (by omega)
        subst hnil
        have hstop : e = bytes.length + n := by
          rw [Reader.run] at hrest
          split at hrest
          · cases hrest; rfl
          · cases hrest
          · cases hrest
        obtain ⟨p, r⟩ := a
        have hn := (frameHead_eq_frame.mp (show frameHead deps bytes.length (frame deps payload) = _ from hh)).1
        rw [ofBytes_frame] at hn
        rw [frame_length] at hge
        unfold Fits
        omega

section
variable (hd : deps.Lawful) (h : Serialized deps rs ps)
include hd h

theorem encodes_frames (hfit : ∀ p ∈ ps, Fits p) :
    List.Forall₂ (frameReader deps).Encodes (ps.zip rs) (ps.map (frame deps)) := by
  induction h with
  | nil => exact .nil
  | @cons r p rs ps hw _ ih =>
    exact .cons (hd.recoverable hw (hfit p (by simp))).encodes (ih (fun q hq => hfit q (by simp [hq])))

theorem Holds.appendFrames (hold : Holds deps bytes old) (hfit : ∀ p ∈ ps, Fits p) :
    Holds deps (bytes ++ (ps.map (frame deps)).flatten) (old ++ rs) := by
  induction h generalizing bytes old with
  | nil => simpa using hold
  | @cons r p rs ps hw _ ih =>
    have := ih (hold.append (hd.recoverable hw (hfit p (by simp)))) fun q hq => hfit q (by simp [hq])
    simpa [append_assoc] using this

theorem scanFile_cut (hfit : ∀ p ∈ ps, Fits p) {len : Nat} (hlen : headerLen ≤ len) :
    ∃ k ≤ rs.length, boundary deps ps k ≤ len ∧ (k < rs.length → len < boundary deps ps (k + 1)) ∧
      scanFile deps ((magic ++ (ps.map (frame deps)).flatten).take len) =
        .ok (.ofRecords (rs.take k) (boundary deps ps k)) := by
  set framed := ps.map (frame deps)
  have hlens : ps.length = rs.length := h.length_eq.symm
  have hk := inside_le_length framed (len - headerLen)
  have hfits := inside_fits framed (len - headerLen)
  have hnext := inside_next framed (len - headerLen)
  have hrun := run_take_flatten (encodes_frames hd h hfit) headerLen (len - headerLen)
  generalize inside framed (len - headerLen) = k at hk hfits hnext hrun
  rw [length_map] at hk hnext
  rw [← map_take] at hfits hrun
  refine ⟨k, by omega, by simp only [boundary]; omega, ?_, ?_⟩
  · intro hlt
    have := hnext (by omega)
    rw [← map_take] at this
    simp only [boundary]
    omega
  · have hcut : (magic ++ framed.flatten).take len =
        magic ++ framed.flatten.take (len - headerLen) := by
      rw [take_append, take_of_length_le (by rw [magic_length]; exact hlen), magic_length]
    rw [hcut, scanFile_eq (take_magic_append _)]
    have hframes : frames deps (magic ++ framed.flatten.take (len - headerLen)) =
        ((offsets headerLen ((ps.take k).map (frame deps))).zip ((ps.zip rs).take k),
          .ok (boundary deps ps k)) := by
      rw [frames, drop_magic_append]
      exact hrun
    rw [hframes]
    simp only [Except.map]
    congr 2
    have hoff : (offsets headerLen ((ps.take k).map (frame deps))).length = ((ps.zip rs).take k).length := by
      rw [offsets_length, length_map, length_take, length_take, length_zip]
      omega
    have hmap : ((offsets headerLen ((ps.take k).map (frame deps))).zip ((ps.zip rs).take k)).map (·.2.2) =
        ((ps.zip rs).take k).map Prod.snd := by
      have := congrArg (map Prod.snd) (map_snd_zip (Nat.le_of_eq hoff.symm))
      rw [map_map] at this
      exact this
    rw [hmap, map_take, map_snd_zip (by omega)]

theorem fits_of_every_part (hold : Holds deps bytes old)
    (hscan : ∀ j, scanFile deps (bytes ++ ((ps.take j).map (frame deps)).flatten) =
      .ok (.ofRecords (old ++ rs.take j) (bytes ++ ((ps.take j).map (frame deps)).flatten).length)) :
    ∀ p ∈ ps, Fits p := by
  induction h generalizing bytes old with
  | nil => simp
  | @cons r p rs ps hw _ ih =>
    have hfit : Fits p := by
      have h1 := hscan 1
      simp only [take_succ_cons, take_zero, map_cons, map_nil, flatten_cons, flatten_nil, append_nil] at h1
      exact fits_of_scanFile_append hold (by simp) h1
    intro q hq
    rcases mem_cons.mp hq with rfl | hq
    · exact hfit
    · refine ih (hold.append (hd.recoverable hw hfit)) ?_ q hq
      intro j
      have := hscan (j + 1)
      simp only [take_succ_cons, map_cons, flatten_cons] at this
      simpa [append_assoc] using this

end

theorem boundary_lt (deps : Deps β) (ps : List Bytes) {j k : Nat} (hjk : j < k) (hk : k ≤ ps.length) :
    boundary deps ps j < boundary deps ps k := by
  have hsplit : ps.take k = ps.take j ++ (ps.drop j).take (k - j) := by
    rw [← take_append_drop j (ps.take k), take_take, Nat.min_eq_left (by omega), drop_take]
  obtain ⟨p, rest, hcons⟩ : ∃ p rest, (ps.drop j).take (k - j) = p :: rest := by
    cases hc : (ps.drop j).take (k - j) with
    | nil =>
      have := congrArg length hc
      rw [length_take, length_drop, length_nil] at this
      omega
    | cons p rest => exact ⟨p, rest, rfl⟩
  simp only [boundary, hsplit, hcons, map_append, map_cons, flatten_append, flatten_cons, length_append, frame_length]
  have : 0 < frameHeaderLen := by decide
  omega

theorem take_boundary (ps : List Bytes) (k : Nat) : (magic ++ (ps.map (frame deps)).flatten).take (boundary deps ps k) =
      magic ++ ((ps.take k).map (frame deps)).flatten := by
  have hsplit : (ps.map (frame deps)).flatten =
      ((ps.take k).map (frame deps)).flatten ++ ((ps.drop k).map (frame deps)).flatten := by
    rw [← flatten_append, ← map_append, take_append_drop]
  rw [hsplit, ← append_assoc, take_left' (by rw [length_append, magic_length]; rfl)]

end frames

/-! ## The writer over a cut -/

variable [DecidableEq β]

/-- One life of a writer: open the file, append, push the buffer out. -/
def session (deps : Deps β) (path : Name) (d : Dir) (rs : List (WalRecord β)) : Except WalError Log := do
  let opened ← openFile deps path d
  let log ← opened.1.appendAll deps rs
  return log.flushed

/-- Cut at any length, the log of `rs` is read as the records whole inside the
cut, up to the boundary after the last of them; and reopened there it takes any
number of the records `rs'` and is read as the survivors followed by those. -/
def CutsRecover (deps : Deps β) (path : Name) (d : Dir) (rs rs' : List (WalRecord β)) (ps : List Bytes) : Prop :=
  ∃ log, session deps path d rs = .ok log ∧ ∀ len, headerLen ≤ len →
    ∃ k ≤ rs.length, boundary deps ps k ≤ len ∧ (k < rs.length → len < boundary deps ps (k + 1)) ∧
      scanFile deps (log.file.take len) = .ok (.ofRecords (rs.take k) (boundary deps ps k)) ∧
      ∀ j, ∃ next, session deps path (setLen log.dir path len) (rs'.take j) = .ok next ∧
        scanFile deps next.file = .ok (.ofRecords (rs.take k ++ rs'.take j) next.file.length)

variable {deps : Deps β} {path : Name} {d : Dir} {rs rs' : List (WalRecord β)} {ps ps' : List Bytes} {text : Bytes}

section
variable (hd : deps.Lawful) (h : Serialized deps rs ps)
include hd h

theorem Serialized.encoded : List.Forall₂ (fun r p => encodePayload deps r = .ok p) rs ps :=
  h.imp fun _ _ hw => by rw [encodePayload_eq hd, hw]

theorem session_of_open {log : Log} {found : List (Nat × WalRecord β)}
    (hopen : openFile deps path d = .ok (log, found)) (hend : log.AtEnd) :
    ∃ next, session deps path d rs = .ok next ∧ log.SameSegment next ∧
      next.file = log.contents ++ (ps.map (frame deps)).flatten := by
  obtain ⟨mid, hmid, hend', hsame, hcont, _⟩ := Log.appendAll_ok (h.encoded hd) hend
  refine ⟨mid.flushed, ?_, hsame.trans mid.flushed_same, ?_⟩
  · simp [session, hopen, hmid, bind, Except.bind, pure, Except.pure]
  · rw [Log.flushed_file hend', hcont]

theorem session_fresh (hpath : path ∉ d) :
    ∃ log, session deps path d rs = .ok log ∧ log.writer.path = path ∧ path ∈ log.dir ∧
      log.file = magic ++ (ps.map (frame deps)).flatten := by
  obtain ⟨log, hopen, hend, hcont, hp, _, hmem⟩ := openFile_fresh deps hpath
  obtain ⟨next, hnext, hsame, hfile⟩ := session_of_open hd h hopen hend
  refine ⟨next, hnext, hsame.path.trans hp, ?_, by rw [hfile, hcont]⟩
  have := hsame.here (by rw [hp]; exact hmem)
  rwa [hp] at this

theorem session_scanned (hmem : path ∈ d) {s : Scan (Nat × WalRecord β)}
    (hscan : scanFile deps (fileAt d path) = .ok s) :
    ∃ next, session deps path d rs = .ok next ∧
      next.file = (fileAt d path).take s.goodEnd ++ (ps.map (frame deps)).flatten := by
  obtain ⟨_, _, _, hle, _⟩ := holds_of_scanFile hscan
  obtain ⟨hend, hcont⟩ := fromScan_atEnd d path path true s hle
  have hopen : openFile deps path d = .ok ((fromScan d path path true s).1, s.records) :=
    openFile_of_scan hmem hscan
  obtain ⟨next, hnext, _, hfile⟩ := session_of_open hd h hopen hend
  exact ⟨next, hnext, by rw [hfile, hcont]⟩

theorem cutsRecover_of_fits (hpath : path ∉ d) (h' : Serialized deps rs' ps') (hfit : ∀ p ∈ ps ++ ps', Fits p) :
    CutsRecover deps path d rs rs' ps := by
  obtain ⟨log, hlog, hp, hmem, hfile⟩ := session_fresh hd h hpath
  refine ⟨log, hlog, ?_⟩
  intro len hlen
  obtain ⟨k, hk, hle, hlt, hscan⟩ := scanFile_cut hd h (fun p hp => hfit p (by simp [hp])) hlen
  rw [← hfile] at hscan
  refine ⟨k, hk, hle, hlt, hscan, ?_⟩
  intro j
  have hcutFile : fileAt (setLen log.dir path len) path = log.file.take len := by
    rw [setLen, fileAt_insert, Log.file, hp]
  have hcutMem : path ∈ setLen log.dir path len := by simp [setLen]
  obtain ⟨next, hnext, hnextFile⟩ := session_scanned hd (h'.take j) hcutMem (by rw [hcutFile]; exact hscan)
  refine ⟨next, hnext, ?_⟩
  -- the reopened file is whole frames carrying the survivors, so the later frames only extend it
  obtain ⟨old, hold, _, _, hs⟩ := holds_of_scanFile hscan
  obtain rfl : old = rs.take k := (records_of_ofRecords hs).symm
  rw [hnextFile, hcutFile]
  exact scanFile_of_holds (hold.appendFrames hd (h'.take j)
    (fun p hp => hfit p (by simp [mem_of_mem_take hp])))

theorem fits_of_cutsRecover (hpath : path ∉ d) (h' : Serialized deps rs' ps')
    (hrec : CutsRecover deps path d rs rs' ps) : ∀ p ∈ ps ++ ps', Fits p := by
  have hlens : ps.length = rs.length := h.length_eq.symm
  obtain ⟨log, hlog, hall⟩ := hrec
  obtain ⟨log', hlog', hp, hmem, hfile⟩ := session_fresh hd h hpath
  obtain rfl : log = log' := Except.ok.inj (hlog.symm.trans hlog')
  -- cut at the boundary after `j` records, exactly those survive
  have hparts : ∀ j, scanFile deps (magic ++ ((ps.take j).map (frame deps)).flatten) =
      .ok (.ofRecords ([] ++ rs.take j) (magic ++ ((ps.take j).map (frame deps)).flatten).length) := by
    intro j
    have hj : ps.take j = ps.take (min j ps.length) := by rw [take_eq_take_min]
    have hj' : rs.take j = rs.take (min j ps.length) := by rw [take_eq_take_min, hlens]
    rw [hj, hj']
    generalize hm : min j ps.length = m
    have hmle : m ≤ ps.length := by omega
    obtain ⟨k, hk, hle, hlt, hscan, _⟩ := hall (boundary deps ps m) (Nat.le_add_right _ _)
    have hkm : k = m := by
      rcases Nat.lt_trichotomy k m with hc | hc | hc
      · have h1 := hlt (by omega)
        rcases Nat.lt_or_eq_of_le (show k + 1 ≤ m by omega) with h2 | h2
        · have := boundary_lt deps ps h2 hmle
          omega
        · rw [h2] at h1; omega
      · exact hc
      · have := boundary_lt deps ps hc (by omega)
        omega
    subst hkm
    rw [hfile, take_boundary] at hscan
    rw [hscan]
    congr 2
    rw [length_append, magic_length]
    rfl
  have hfit : ∀ p ∈ ps, Fits p := fits_of_every_part hd h (holds_magic deps) hparts
  have hwhole : Holds deps log.file rs := by
    rw [hfile]
    simpa using (holds_magic deps).appendFrames hd h hfit
  -- and reopened uncut, the log takes the later records one by one
  have hlater : ∀ j, scanFile deps (log.file ++ ((ps'.take j).map (frame deps)).flatten) =
      .ok (.ofRecords (rs ++ rs'.take j) (log.file ++ ((ps'.take j).map (frame deps)).flatten).length) := by
    intro j
    obtain ⟨k, hk, hle, hlt, hscan, hnext⟩ := hall log.file.length (length_of_header hwhole.header)
    rw [take_length, scanFile_of_holds hwhole] at hscan
    have hkrs : rs = rs.take k := records_of_ofRecords (Except.ok.inj hscan)
    obtain ⟨next, hs, hsc⟩ := hnext j
    have hcutFile : fileAt (setLen log.dir path log.file.length) path = log.file := by
      rw [setLen, fileAt_insert, Log.file, hp, take_length]
    have hcutMem : path ∈ setLen log.dir path log.file.length := by simp [setLen]
    obtain ⟨next', hs', hf'⟩ := session_scanned hd (h'.take j) hcutMem
      (by rw [hcutFile]; exact scanFile_of_holds hwhole)
    obtain rfl : next = next' := Except.ok.inj (hs.symm.trans hs')
    have hnf : next.file = log.file ++ ((ps'.take j).map (frame deps)).flatten := by
      rw [hf', hcutFile]
      congr 1
      exact take_length
    rw [hnf, ← hkrs] at hsc
    exact hsc
  have hfit' : ∀ p ∈ ps', Fits p := fits_of_every_part hd h' hwhole hlater
  intro p hp
  rcases mem_append.mp hp with hp | hp
  · exact hfit p hp
  · exact hfit' p hp

end

/-- Cut anywhere, the log of `rs` recovers and goes on with `rs'` exactly when
every payload fits the frame's length field. -/
theorem cutsRecover_iff_fits (hd : deps.Lawful) (hpath : path ∉ d) (h : Serialized deps rs ps)
    (h' : Serialized deps rs' ps') : CutsRecover deps path d rs rs' ps ↔ ∀ p ∈ ps ++ ps', Fits p :=
  ⟨fits_of_cutsRecover hd h hpath h', cutsRecover_of_fits hd h hpath h'⟩

def castagnoli (bytes : Bytes) : UInt32 :=
  let shift := fun (crc : UInt32) (_ : Nat) => if crc &&& 1 = 1 then (crc >>> 1) ^^^ 0x82f63b78 else crc >>> 1
  (bytes.foldl (fun crc b => (List.range 8).foldl shift (crc ^^^ b.toUInt32)) 0xffffffff) ^^^ 0xffffffff

def noteKind : Bytes := asciiBytes "\x7b\"kind\":\"note\""

def baseKind : Bytes := asciiBytes "\x7b\"kind\":\"segment_base_v7\""

/-- A log whose notes and restatements carry their own JSON text as their body. -/
def textDeps : Deps Bytes where
  toWriter := fun
    | .tagged (.other text) => if noteKind <+: text then .ok text else .error "not a note"
    | .tagged (.segmentBase none 0 [] text) =>
      if baseKind <+: text then .ok text else .error "not a restatement"
    | _ => .error "not a kind of this log"
  readRecord := fun payload =>
    if baseKind <+: payload then .ok (.segmentBase none 0 [] payload)
    else if noteKind <+: payload then .ok (.other payload)
    else .error "unknown variant"
  crc32c := castagnoli
  debugAssertions := false

theorem note_not_base (h : noteKind <+: text) : ¬ baseKind <+: text := by
  obtain ⟨t, rfl⟩ := h
  intro ⟨u, hu⟩
  have := congrArg (fun l => l[9]?) hu
  rw [getElem?_append_left (by decide), getElem?_append_left (by decide)] at this
  exact absurd this (by decide)

theorem textDeps_base (h : baseKind <+: text) : writeRecord textDeps (.segmentBase none 0 [] text) = .ok text := by
  simp [writeRecord, textDeps, h, Except.mapError]

theorem textDeps_cases {record : WalRecord Bytes} {payload : Bytes} (h : writeRecord textDeps record = .ok payload) :
    (record = .other payload ∧ noteKind <+: payload) ∨
    (record = .segmentBase none 0 [] payload ∧ baseKind <+: payload) := by
  unfold writeRecord textDeps at h
  split at h
  · cases h
  · cases h
  · cases h
  · cases h
  · dsimp only at h
    split at h
    · next text heq =>
      cases heq
      split at h
      · next hk => cases h; exact .inl ⟨rfl, hk⟩
      · cases h
    · next text heq =>
      cases heq
      split at h
      · next hk => cases h; exact .inr ⟨rfl, hk⟩
      · cases h
    · cases h

theorem textDeps_lawful : textDeps.Lawful where
  round_trip := by
    intro record payload h
    obtain ⟨rfl, hk⟩ | ⟨rfl, hk⟩ := textDeps_cases h
    · simp [textDeps, hk, note_not_base hk]
    · simp [textDeps, hk]
  empty_unreadable := by
    intro record h
    have hb : ¬ baseKind <+: [] := by decide
    have hn : ¬ noteKind <+: [] := by decide
    simp only [textDeps, hb, hn, if_false] at h
    cases h

/-- A note of the engine with `n` characters of text. -/
def noteText (n : Nat) : Bytes :=
  noteKind ++ asciiBytes ",\"source\":\"engine\",\"text\":\"" ++ List.replicate n 0x61 ++ asciiBytes "\"\x7d"

theorem noteText_kind (n : Nat) : noteKind <+: noteText n :=
  ⟨_, by rw [noteText, append_assoc, append_assoc]⟩

theorem noteText_length (n : Nat) : (noteText n).length = n + 43 := by
  rw [noteText, length_append, length_append, length_append, length_replicate]
  have h1 : noteKind.length = 14 := by decide
  have h2 : (asciiBytes ",\"source\":\"engine\",\"text\":\"").length = 27 := by decide
  have h3 : (asciiBytes "\"\x7d").length = 2 := by decide
  omega

def logName : Name := "engine.wal".toList

theorem serialized_notes (ns : List Nat) :
    Serialized textDeps (ns.map fun n => .other (noteText n)) (ns.map noteText) := by
  induction ns with
  | nil => exact .nil
  | cons n ns ih => exact .cons (by simp [writeRecord, textDeps, noteText_kind n, Except.mapError]) ih

theorem cutsRecover_short_notes : CutsRecover textDeps logName ∅
    [.other (noteText 1), .other (noteText 0), .other (noteText 40)] [.other (noteText 2), .other (noteText 3)]
    [noteText 1, noteText 0, noteText 40] :=
  (cutsRecover_iff_fits textDeps_lawful (AList.notMem_empty _) (serialized_notes [1, 0, 40])
    (serialized_notes [2, 3])).mpr (by decide)

/-- A note of 2^32 characters is appended, flushed and never read back. -/
theorem not_cutsRecover_long_note :
    ¬ CutsRecover textDeps logName ∅ [.other (noteText (2^32))] [] [noteText (2^32)] := by
  intro h
  have hfit := fits_of_cutsRecover textDeps_lawful (serialized_notes [2^32]) (AList.notMem_empty _) .nil h
    (noteText (2^32)) (by simp)
  unfold Fits at hfit
  rw [noteText_length] at hfit
  omega

end LiquidityMigration.Wal
