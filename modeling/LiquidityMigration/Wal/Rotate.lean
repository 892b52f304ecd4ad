import LiquidityMigration.Wal.Readers

/- Rotation: finish the current segment, write a new one that starts with a restatement of the state, and go on
   there. Every step that touches the disk may fail (`Faults`), a write after some bytes. `Live log rs` says that a
   writer stands at the end of the newest segment boot can trust, which holds `rs`. Opening, appending, flushing and
   a rotation that succeeds keep it (`Run.live`). -/
namespace LiquidityMigration.Wal
open Framing Disk List Log Nat Option Prod

inductive RotateStep where
  | list | push | archiveSync | create | header | base | baseSync | openDir | syncDir
  deriving DecidableEq

/-- Which steps fail. A write fails after the given number of bytes. -/
abbrev Faults := RotateStep → Option Nat

def noFaults : Faults := fun _ => none

/-- Only `step` fails, a write after `n` bytes. -/
def failsAt (step : RotateStep) (n : Nat) : Faults := fun taken => if taken = step then some n else none

def syncFails (faults : Faults) : Bool :=
  (faults .baseSync).isSome || (faults .openDir).isSome || (faults .syncDir).isSome

variable {β : Type}

/-- Step 1 of `rotate_measured`: finish the archive. -/
def Log.finishArchive (faults : Faults) (log : Log) : Except WalError Unit × Log :=
  match log.pushToOs (faults .push) with
  | (.error e, pushed) => (.error e, pushed)
  | (.ok (), pushed) =>
    if pushed.writer.durable && (faults .archiveSync).isSome then (.error (.io "fdatasync failed"), pushed)
    else (.ok (), pushed)

/-- Steps 2 and 3 of `rotate_measured`: a new file with the header and the frame
of the restatement, made durable. The frame is what the caller goes on with. -/
def writeNext [DecidableEq β] (deps : Deps β) (faults : Faults) (base : WalRecord β) (path : Name) (durable : Bool)
    (d : Dir) :
    Except WalError Bytes × Dir :=
  -- `create_new` refuses a name that exists
  if (faults .create).isSome || decide (path ∈ d) then (.error (.io "create failed"), d)
  else
    let header := writeAll (faults .header) magic
    let started := writeAt (d.insert path []) path 0 header.2
    if !header.1 then (.error (.io "write failed"), started)
    else match encodePayload deps base with
      | .error e => (.error e, started)
      | .ok payload =>
        let body := writeAll (faults .base) (frame deps payload)
        let written := writeAt started path headerLen body.2
        if !body.1 then (.error (.io "write failed"), written)
        else if durable && syncFails faults then (.error (.io "fsync failed"), written)
        else (.ok (frame deps payload), written)

/-- `rotate`. The writer keeps its segment unless every step went through. -/
def Log.rotate [DecidableEq β] (deps : Deps β) (faults : Faults) (base : WalRecord β) (log : Log) :
    Except WalError Bool × Log :=
  if (faults .list).isSome then (.error (.io "read_dir failed"), log)
  else if u64Bound ≤ lastIndex log.writer.family log.dir + 1 then
    (.error (.io "WAL segment ordinal exhausted"), log)
  else
    let nextIndex := lastIndex log.writer.family log.dir + 1
    match log.finishArchive faults with
    | (.error e, archived) => (.error e, archived)
    | (.ok (), archived) =>
      let path := segmentName log.writer.family nextIndex
      match writeNext deps faults base path archived.writer.durable archived.dir with
      | (.error e, d) => (.error e, ⟨d, archived.writer⟩)
      | (.ok bytes, d) =>
        (.ok true, ⟨d, { archived.writer with
          path := path
          pos := headerLen + bytes.length
          fileBytes := headerLen + bytes.length
          nextSeq := 2
          segmentIndex := nextIndex }⟩)

def Log.nextName (log : Log) : Name :=
  segmentName log.writer.family (lastIndex log.writer.family log.dir + 1)

theorem Log.ne_nextName {log : Log} {name : Name} (hroom : lastIndex log.writer.family log.dir + 1 < u64Bound)
    (hin : name ∈ log.dir) : name ≠ log.nextName := by
  rintro rfl
  exact freshIndex_free hroom hin

/-! ## A writer in use -/

/-- The writer stands at the end of the newest segment that may be replayed, and
that segment holds `rs` once the buffer is out. -/
structure Live (deps : Deps β) (log : Log) (rs : List (WalRecord β)) : Prop where
  atEnd : log.AtEnd
  durable : log.writer.durable = true
  mem : (log.writer.segmentIndex, log.writer.path) ∈ segments log.writer.family log.dir
  holds : Holds deps log.contents rs
  seq : log.writer.nextSeq = rs.length + 1
  /-- What is already in the file is whole frames too, the restatement among them. -/
  written : ∃ old new, rs = old ++ new ∧ Holds deps log.file old ∧
    trusted log.writer.segmentIndex (startsWithBase old) = true
  later : ∀ j, log.writer.segmentIndex < j → (j, segmentName log.writer.family j) ∈ segments log.writer.family log.dir →
    Untrusted deps (fileAt log.dir (segmentName log.writer.family j))

variable {deps : Deps β} {family path : Name} {log : Log} {rs : List (WalRecord β)} {faults : Faults}
  {base : WalRecord β} {d : Dir} {payload : Bytes}

theorem trusted_append {index : Nat} {old : List (WalRecord β)} (h : trusted index (startsWithBase old) = true)
    (new : List (WalRecord β)) : trusted index (startsWithBase (old ++ new)) = true := by
  unfold trusted at h ⊢
  split at h
  · next hi => rw [if_pos hi]
  · next hi =>
    rw [if_neg hi]
    cases old with
    | nil => cases h
    | cons r old => exact h

section
variable (h : Live deps log rs)
include h

theorem Live.path_eq :
    log.writer.path = segmentName log.writer.family log.writer.segmentIndex := (mem_segments.mp h.mem).2.2.1

theorem Live.here : log.writer.path ∈ log.dir := (mem_segments.mp h.mem).2.2.2

theorem Live.of_same {next : Log} (hs : log.SameSegment next) (hend : next.AtEnd)
    {rs' : List (WalRecord β)} (hholds : Holds deps next.contents rs') (hseq : next.writer.nextSeq = rs'.length + 1)
    (hwritten : ∃ old new, rs' = old ++ new ∧ Holds deps next.file old ∧
      trusted next.writer.segmentIndex (startsWithBase old) = true) : Live deps next rs' := by
  obtain ⟨h1, hb, hname, hmem⟩ := mem_segments.mp h.mem
  refine ⟨hend, hs.durable.trans h.durable, ?_, hholds, hseq, hwritten, ?_⟩
  · rw [hs.family, hs.path, hs.segmentIndex]
    exact mem_segments.mpr ⟨h1, hb, hname, hs.here hmem⟩
  · intro j hj hlisted
    rw [hs.segmentIndex] at hj
    rw [hs.family] at hlisted ⊢
    have hne : segmentName log.writer.family j ≠ log.writer.path :=
      segmentName_ne h.mem (mem_segments.mp hlisted).1 rfl (Nat.ne_of_lt hj)
    exact .of_lookup (hs.others _ hne) (h.later j hj) hlisted

theorem Live.flushed : Live deps log.flushed rs := by
  obtain ⟨_, hend, hfile, hbuf⟩ := pushToOs_none h.atEnd
  obtain ⟨old, new, rfl, _, ht⟩ := h.written
  have hcont : log.flushed.contents = log.contents := push_contents h.atEnd
  refine h.of_same log.flushed_same hend (by rw [hcont]; exact h.holds) ?_ ?_
  · show (log.pushToOs none).2.writer.nextSeq = _
    rw [(pushToOs_same none log).2]
    exact h.seq
  · refine ⟨old ++ new, [], by simp, ?_, ?_⟩
    · show Holds deps (log.pushToOs none).2.file _
      rw [hfile]
      exact h.holds
    · rw [log.flushed_same.segmentIndex]
      exact trusted_append ht new

theorem Live.selected (hbuf : log.writer.buf = []) :
    Selected deps log.writer.family log.dir log.writer.segmentIndex rs := by
  obtain ⟨old, new, rfl, _, ht⟩ := h.written
  have hfile : fileAt log.dir (segmentName log.writer.family log.writer.segmentIndex) = log.contents := by
    rw [← h.path_eq, contents, hbuf, append_nil]
    rfl
  refine ⟨?_, ⟨_, by rw [hfile]; exact scanFile_of_holds h.holds⟩, trusted_append ht new, h.later⟩
  rw [← h.path_eq]
  exact h.mem

end

/-! ## Opening -/

theorem live_fromScan {d : Dir} {index e : Nat} (h : Selected deps family d index rs)
    (hscan : scanFile deps (fileAt d (segmentName family index)) = .ok (.ofRecords rs e)) :
    Live deps (fromScan d (segmentName family index) family true (.ofRecords rs e)).1 rs := by
  generalize hpath : segmentName family index = path at hscan
  have hmem : (index, path) ∈ segments family d := by rw [← hpath]; exact h.mem
  obtain ⟨h1, hb, hname, _⟩ := mem_segments.mp hmem
  obtain ⟨rs', hholds, _, hle, hs⟩ := holds_of_scanFile hscan
  obtain rfl : rs = rs' := records_of_ofRecords hs
  obtain ⟨hend, hcont⟩ := fromScan_atEnd d path family true (.ofRecords rs e) hle
  obtain ⟨hindex, hhere, hothers⟩ := fromScan_writer hmem (.ofRecords rs e)
  have hholds' : Holds deps (fromScan d path family true (.ofRecords rs e)).1.contents rs := by
    rw [hcont]; exact hholds
  refine ⟨hend, rfl, ?_, hholds', rfl, ?_, ?_⟩
  · rw [hindex]
    exact mem_segments.mpr ⟨h1, hb, hname, hhere⟩
  · refine ⟨rs, [], by simp, ?_, by rw [hindex]; exact h.trust⟩
    have hbuf : (fromScan d path family true (.ofRecords rs e)).1.writer.buf = [] := rfl
    rwa [contents, hbuf, append_nil] at hholds'
  · intro j hj hjl
    rw [hindex] at hj
    have hne := segmentName_ne hmem (mem_segments.mp hjl).1 rfl (Nat.ne_of_lt hj)
    exact .of_lookup (hothers _ hne) (h.later j hj) hjl

/-- What `openCurrent` hands out is live, and its records are the log's. -/
theorem live_of_openCurrent {d : Dir} {found : List (Nat × WalRecord β)}
    (h : openCurrent deps family d = .ok (log, found)) :
    ∃ rs, found = sequenced rs ∧ Live deps log rs ∧ log.writer.family = family := by
  obtain ⟨d', index, rs, e, hsel, hscan, hout⟩ := openCurrent_selected h
  obtain ⟨rfl, rfl⟩ := mk.inj hout
  exact ⟨rs, rfl, live_fromScan hsel hscan, rfl⟩

/-! ## The archive -/

/-- The push of the buffer goes through, or fails before its first byte. -/
def CleanPush (faults : Faults) (log : Log) : Prop :=
  ∀ n, faults .push = some n → n = 0 ∨ log.writer.buf.length ≤ n

theorem Live.pushToOs (h : Live deps log rs) (hclean : CleanPush faults log) :
    Live deps (log.pushToOs (faults .push)).2 rs ∧
    ((log.pushToOs (faults .push)).1 = .ok () → (log.pushToOs (faults .push)).2.writer.buf = []) := by
  cases hw : (writeAll (faults .push) log.writer.buf).1 with
  | true =>
    rw [pushToOs_ok hw]
    exact ⟨h.flushed, fun _ => (pushToOs_none h.atEnd).2.2.2⟩
  | false =>
    obtain ⟨n, hf, hn, hpush⟩ := pushToOs_torn hw
    obtain rfl : n = 0 := by
      obtain h0 | hle := hclean n hf
      · exact h0
      · omega
    -- nothing was written: the file, the cursor and the buffer are as they were
    rw [take_zero, length_nil, Nat.add_zero] at hpush
    have hsame := (pushToOs_same (faults .push) log).1
    rw [hpush] at hsame ⊢
    have hfile : fileAt (writeAt log.dir log.writer.path log.writer.pos []) log.writer.path = log.file := by
      rw [h.atEnd.pos_eq, file, fileAt_writeAt_end, append_nil]
    refine ⟨h.of_same hsame ⟨?_, ?_⟩ ?_ h.seq ?_, fun hok => (by cases hok)⟩
    · show log.writer.pos = (fileAt _ _).length
      rw [hfile, h.atEnd.pos_eq]
    · show log.writer.fileBytes = (fileAt _ _).length
      rw [hfile, h.atEnd.bytes_eq]
    · show Holds deps (fileAt _ _ ++ log.writer.buf) rs
      rw [hfile]
      exact h.holds
    · obtain ⟨old, new, hrs, hold, ht⟩ := h.written
      refine ⟨old, new, hrs, ?_, ht⟩
      show Holds deps (fileAt _ _) old
      rw [hfile]
      exact hold

theorem finishArchive_cases (faults : Faults) (log : Log) :
    (log.finishArchive faults).2 = (log.pushToOs (faults .push)).2 ∧
    ((log.finishArchive faults).1 = .ok () → (log.pushToOs (faults .push)).1 = .ok ()) := by
  unfold finishArchive
  split
  · next e pushed hp => exact ⟨by rw [hp], nofun⟩
  · next pushed hp =>
    split
    · exact ⟨by rw [hp], nofun⟩
    · exact ⟨by rw [hp], fun _ => by rw [hp]⟩

theorem cleanPush_of_writeAll (h : (writeAll (faults .push) log.writer.buf).1 = true) : CleanPush faults log := by
  intro n hn
  rw [hn] at h
  simp only [writeAll] at h
  split at h
  · cases h
  · exact .inr (by omega)

theorem Live.finishArchive_ok_iff (h : Live deps log rs) : (log.finishArchive faults).1 = .ok () ↔
    (writeAll (faults .push) log.writer.buf).1 = true ∧ faults .archiveSync = none := by
  unfold finishArchive
  cases hw : (writeAll (faults .push) log.writer.buf).1 with
  | false =>
    obtain ⟨_, _, _, hpush⟩ := pushToOs_torn hw
    simp [hpush]
  | true =>
    have hdur := (pushToOs_same none log).1.durable
    rw [pushToOs_ok hw, fst_eq_iff.mp (pushToOs_none h.atEnd).1]
    cases faults .archiveSync <;> simp [hdur, h.durable]

/-- No segment of the family has a number from `next` on. -/
def Fresh (family : Name) (d : Dir) (next : Nat) : Prop :=
  ∀ j name, (j, name) ∈ segments family d → j < next

theorem fresh_lastIndex (family : Name) (d : Dir) : Fresh family d (lastIndex family d + 1) :=
  fun _ _ h => lt_succ_of_le (le_lastIndex h)

theorem Live.add_untrusted (h : Live deps log rs) {next : Nat} (hfresh : Fresh log.writer.family log.dir next) {d : Dir}
    (hothers : ∀ name, name ≠ segmentName log.writer.family next → d.lookup name = log.dir.lookup name)
    (hun : Untrusted deps (fileAt d (segmentName log.writer.family next))) : Live deps ⟨d, log.writer⟩ rs := by
  have hlt := hfresh _ _ h.mem
  have hpath : log.writer.path ≠ segmentName log.writer.family next :=
    (segmentName_ne h.mem (by omega) rfl (Nat.ne_of_lt hlt)).symm
  have hlook := hothers _ hpath
  have hfile : (⟨d, log.writer⟩ : Log).file = log.file := by
    show fileAt d log.writer.path = _
    rw [fileAt, hlook]
    rfl
  obtain ⟨old, new, hrs, hold, ht⟩ := h.written
  obtain ⟨h1, hb, hname, hmem⟩ := mem_segments.mp h.mem
  refine ⟨⟨?_, ?_⟩, h.durable, ?_, ?_, h.seq, ⟨old, new, hrs, by rw [hfile]; exact hold, ht⟩, ?_⟩
  · rw [hfile]; exact h.atEnd.pos_eq
  · rw [hfile]; exact h.atEnd.bytes_eq
  · exact mem_segments.mpr ⟨h1, hb, hname, mem_congr hlook.symm hmem⟩
  · show Holds deps ((⟨d, log.writer⟩ : Log).file ++ log.writer.buf) rs
    rw [hfile]
    exact h.holds
  · intro j hj hjl
    by_cases hjn : segmentName log.writer.family j = segmentName log.writer.family next
    · rw [hjn]
      exact hun
    · exact .of_lookup (hothers _ hjn) (h.later j hj) hjl

/-- The archived log: same segment, nothing buffered, the next name still free. -/
structure Archived (deps : Deps β) (log archived : Log) (rs : List (WalRecord β)) : Prop where
  live : Live deps archived rs
  same : log.SameSegment archived
  buf : archived.writer.buf = []
  file : archived.file = log.contents
  fresh : Fresh log.writer.family archived.dir (lastIndex log.writer.family log.dir + 1)

theorem Live.archived (h : Live deps log rs) (hclean : CleanPush faults log)
    (hok : (log.finishArchive faults).1 = .ok ()) : Archived deps log (log.finishArchive faults).2 rs := by
  obtain ⟨heq, hpush⟩ := finishArchive_cases faults log
  obtain ⟨hlive, hbuf⟩ := h.pushToOs hclean
  have hsame := (pushToOs_same (faults .push) log).1
  rw [heq]
  refine ⟨hlive, hsame, hbuf (hpush hok), ?_, ?_⟩
  · rw [pushToOs_ok (h.finishArchive_ok_iff.mp hok).1]
    exact (pushToOs_none h.atEnd).2.2.1
  intro j name hj
  exact fresh_lastIndex _ _ j name ((hsame.mem_segments h.here).mp hj)

theorem Archived.next_free {archived : Log} (h : Archived deps log archived rs)
    (hroom : lastIndex log.writer.family log.dir + 1 < u64Bound) : log.nextName ∉ archived.dir := by
  intro hmem
  have := h.fresh _ _ (mem_segments.mpr ⟨succ_pos _, hroom, rfl, hmem⟩)
  exact absurd this (lt_irrefl _)

/-! ## The new segment -/

theorem untrusted_magic (deps : Deps β) : Untrusted deps magic :=
  fun _ => ⟨[], _, scanFile_of_holds (holds_magic deps), rfl⟩

theorem untrusted_torn (hfit : Fits payload) {m : Nat} (hm : m < (magic ++ frame deps payload).length) :
    Untrusted deps ((magic ++ frame deps payload).take m) := by
  intro hmagic
  have h8 := length_of_header hmagic
  rw [length_take] at h8
  rw [length_append, magic_length] at hm
  have hcut : (magic ++ frame deps payload).take m = magic ++ (frame deps payload).take (m - headerLen) := by
    rw [take_append, take_of_length_le (by rw [magic_length]; omega), magic_length]
  have htorn : frameHead deps headerLen ((frame deps payload).take (m - headerLen)) = .stop :=
    frameHead_frame_torn hfit (by omega)
  have hframes : frames deps ((magic ++ frame deps payload).take m) = ([], .ok headerLen) := by
    rw [frames, hcut, drop_magic_append]
    exact Reader.run_stop _ htorn
  refine ⟨[], headerLen, ?_, rfl⟩
  rw [scanFile_eq hmagic, hframes]
  rfl

theorem holds_base (hr : Recoverable deps base payload) : Holds deps (magic ++ frame deps payload) [base] :=
  (holds_magic deps).append hr

theorem selected_next (hr : Recoverable deps base payload) (hbase : base.isSegmentBase = true)
    {next : Nat} (hroom : next < u64Bound) (hpos : 1 ≤ next)
    (hlook : d.lookup (segmentName family next) = some (magic ++ frame deps payload))
    (hlast : ∀ j, (j, segmentName family j) ∈ segments family d → j ≤ next) :
    Selected deps family d next [base] := by
  refine ⟨mem_segments.mpr ⟨hpos, hroom, rfl, mem_of_lookup hlook⟩, ?_, ?_, ?_⟩
  · rw [fileAt_of_lookup hlook]
    exact ⟨_, scanFile_of_holds (holds_base hr)⟩
  · unfold trusted
    split
    · rfl
    · exact hbase
  · intro j hj hjl
    have := hlast j hjl
    omega

/-! ## Appending -/

variable [DecidableEq β]

theorem append_file (h : log.AtEnd) {record : WalRecord β} (hp : encodePayload deps record = .ok payload) :
    (log.append deps none record).2.file = log.file ∨
    (log.append deps none record).2.file = (log.append deps none record).2.contents := by
  unfold append
  rw [hp]
  dsimp only
  split
  · right
    have hend : (⟨log.dir, { log.writer with
        buf := log.writer.buf ++ frame deps payload
        nextSeq := log.writer.nextSeq + 1 }⟩ : Log).AtEnd := ⟨h.pos_eq, h.bytes_eq⟩
    obtain ⟨_, _, _, hbuf⟩ := pushToOs_none hend
    rw [contents, hbuf, append_nil]
  · left
    rfl

theorem Live.append (h : Live deps log rs) {record : WalRecord β} (hp : encodePayload deps record = .ok payload)
    (hr : Recoverable deps record payload) : Live deps (log.append deps none record).2 (rs ++ [record]) := by
  obtain ⟨_, hend, hcont, hseq⟩ := append_ok h.atEnd hp
  have hholds : Holds deps (log.append deps none record).2.contents (rs ++ [record]) := by
    rw [hcont]
    exact h.holds.append hr
  have hsame : log.SameSegment (log.append deps none record).2 := append_same none
  refine h.of_same hsame hend hholds ?_ ?_
  · rw [hseq, h.seq, length_append, length_singleton]
  · obtain ⟨old, new, rfl, hold, ht⟩ := h.written
    rw [hsame.segmentIndex]
    obtain hf | hf := append_file h.atEnd hp
    · exact ⟨old, new ++ [record], by simp, by rw [hf]; exact hold, ht⟩
    · refine ⟨old ++ new ++ [record], [], by simp, by rw [hf]; exact hholds, ?_⟩
      rw [append_assoc]
      exact trusted_append ht _

theorem Live.appendAll {new : List (WalRecord β)} {ps : List Bytes}
    (hw : List.Forall₂ (fun r p => encodePayload deps r = .ok p ∧ Recoverable deps r p) new ps) :
    ∀ {log : Log} {rs : List (WalRecord β)}, Live deps log rs →
      ∃ next, log.appendAll deps new = .ok next ∧ Live deps next (rs ++ new) ∧ log.SameSegment next := by
  induction hw with
  | nil =>
    intro log rs h
    exact ⟨log, rfl, by simpa using h, .refl log⟩
  | @cons r p new ps hr _ ih =>
    intro log rs h
    have hlive := h.append hr.1 hr.2
    have hok := (append_ok h.atEnd hr.1).1
    have hsame : log.SameSegment (log.append deps none r).2 := append_same none
    obtain ⟨next, hnext, hlive', hsame'⟩ := ih hlive
    refine ⟨next, ?_, by simpa using hlive', hsame.trans hsame'⟩
    rw [Log.appendAll, fst_eq_iff.mp hok]
    exact hnext

/-! ## Writing the new segment -/

/-- The new segment's file gets its header and the whole frame. -/
structure NextWritten (deps : Deps β) (faults : Faults) (base : WalRecord β) (payload : Bytes) : Prop where
  create : faults .create = none
  header : (writeAll (faults .header) magic).1 = true
  encoded : encodePayload deps base = .ok payload
  base : (writeAll (faults .base) (frame deps payload)).1 = true

variable (deps faults base) in
theorem writeNext_others (durable : Bool) (d : Dir)
    {name : Name} (hne : name ≠ path) :
    (writeNext deps faults base path durable d).2.lookup name = d.lookup name := by
  have hstarted : ∀ bytes, (writeAt (d.insert path []) path 0 bytes).lookup name = d.lookup name := by
    intro bytes
    rw [lookup_writeAt_ne _ hne, AList.lookup_insert_ne hne]
  unfold writeNext
  split
  · rfl
  · dsimp only
    split
    · exact hstarted _
    · split
      · exact hstarted _
      · split
        · rw [lookup_writeAt_ne _ hne, hstarted]
        · split <;> rw [lookup_writeAt_ne _ hne, hstarted]

theorem fileAt_base (d : Dir) (path : Name) (bytes : Bytes) :
    fileAt (writeAt (writeAt (d.insert path []) path 0 magic) path headerLen bytes) path = magic ++ bytes := by
  have := fileAt_writeAt_end (writeAt (d.insert path []) path 0 magic) path bytes
  rwa [fileAt_writeAt_new] at this

theorem lookup_base (d : Dir) (path : Name) (bytes : Bytes) :
    (writeAt (writeAt (d.insert path []) path 0 magic) path headerLen bytes).lookup path = some (magic ++ bytes) := by
  rw [lookup_of_mem ((mem_writeAt _ _ _ _ _).mpr (.inl rfl)), fileAt_base]

theorem writeNext_written (durable : Bool) (h : NextWritten deps faults base payload) (hnew : path ∉ d) :
    (writeNext deps faults base path durable d).2.lookup path = some (magic ++ frame deps payload) ∧
    (writeNext deps faults base path durable d).1 =
      if durable && syncFails faults then .error (.io "fsync failed") else .ok (frame deps payload) := by
  have hlook := lookup_base d path (frame deps payload)
  unfold writeNext
  simp only [h.create, hnew, isSome_none, decide_false, Bool.or_self, Bool.false_eq_true, if_false,
    writeAll_ok h.header, writeAll_ok h.base, h.encoded, Bool.not_true]
  split
  · exact ⟨hlook, rfl⟩
  · exact ⟨hlook, rfl⟩

theorem writeNext_unwritten (durable : Bool) (hnew : path ∉ d)
    (hfit : ∀ p, encodePayload deps base = .ok p → Fits p) (h : ∀ p, ¬ NextWritten deps faults base p) :
    Untrusted deps (fileAt (writeNext deps faults base path durable d).2 path) ∧
    ∃ e, (writeNext deps faults base path durable d).1 = .error e := by
  unfold writeNext
  by_cases hc : (faults .create).isSome
  · simp only [hc, Bool.true_or, if_true]
    refine ⟨?_, _, rfl⟩
    intro hmagic
    have hnone : d.lookup path = none := AList.lookup_eq_none.mpr hnew
    rw [fileAt, hnone] at hmagic
    cases hmagic
  have hcreate : faults .create = none := not_isSome_iff_eq_none.mp hc
  simp only [hcreate, hnew, isSome_none, decide_false, Bool.or_self, Bool.false_eq_true, if_false]
  cases hh : (writeAll (faults .header) magic).1 with
  | false =>
    obtain ⟨n, _, _, hw⟩ := writeAll_torn hh
    rw [hw]
    refine ⟨?_, _, rfl⟩
    show Untrusted deps (fileAt (writeAt (d.insert path []) path 0 (magic.take n)) path)
    rw [fileAt_writeAt_new]
    exact (untrusted_magic deps).take n
  | true =>
    rw [writeAll_ok hh]
    cases he : encodePayload deps base with
    | error e =>
      refine ⟨?_, e, rfl⟩
      show Untrusted deps (fileAt (writeAt (d.insert path []) path 0 magic) path)
      rw [fileAt_writeAt_new]
      exact untrusted_magic deps
    | ok payload =>
      cases hb : (writeAll (faults .base) (frame deps payload)).1 with
      | true => exact absurd ⟨hcreate, hh, he, hb⟩ (h payload)
      | false =>
        obtain ⟨n, hn, _, hw⟩ := writeAll_torn hb
        simp only [hw, Bool.not_true, Bool.not_false, Bool.false_eq_true, if_false, if_true]
        refine ⟨?_, _, rfl⟩
        rw [fileAt_base]
        have htake : magic ++ (frame deps payload).take n =
            (magic ++ frame deps payload).take (headerLen + n) := by
          rw [← magic_length, take_length_add_append]
        rw [htake]
        apply untrusted_torn (hfit _ he)
        rw [length_append, magic_length]
        omega

/-! ## A rotation as a whole -/

/-- Every step up to the last byte of the new segment goes through. -/
structure BaseWritten (deps : Deps β) (faults : Faults) (base : WalRecord β) (log : Log) (payload : Bytes) :
    Prop where
  list : faults .list = none
  room : lastIndex log.writer.family log.dir + 1 < u64Bound
  push : (writeAll (faults .push) log.writer.buf).1 = true
  archiveSync : faults .archiveSync = none
  next : NextWritten deps faults base payload

theorem rotate_eq (hlist : faults .list = none) (hroom : lastIndex log.writer.family log.dir + 1 < u64Bound)
    (hok : (log.finishArchive faults).1 = .ok ()) {durable : Bool}
    (hdur : (log.finishArchive faults).2.writer.durable = durable) :
    log.rotate deps faults base =
      match writeNext deps faults base log.nextName durable (log.finishArchive faults).2.dir with
      | (.error e, d) => (.error e, ⟨d, (log.finishArchive faults).2.writer⟩)
      | (.ok bytes, d) =>
        (.ok true, ⟨d, { (log.finishArchive faults).2.writer with
          path := log.nextName
          pos := headerLen + bytes.length
          fileBytes := headerLen + bytes.length
          nextSeq := 2
          segmentIndex := lastIndex log.writer.family log.dir + 1 }⟩) := by
  unfold Log.rotate
  rw [hlist, if_neg (by simp), if_neg (by omega)]
  dsimp only
  rw [← hdur, fst_eq_iff.mp hok]
  rfl

theorem rotate_family : (log.rotate deps faults base).2.writer.family = log.writer.family := by
  have harch : (log.finishArchive faults).2.writer.family = log.writer.family := by
    rw [(finishArchive_cases faults log).1]
    exact (pushToOs_same (faults .push) log).1.family
  unfold Log.rotate
  split
  · rfl
  · split
    · rfl
    · dsimp only
      split
      · next h => rw [h] at harch; exact harch
      · next h =>
        rw [h] at harch
        split <;> exact harch

theorem Live.rotate_unwritten (h : Live deps log rs) (hclean : CleanPush faults log)
    (hfit : ∀ p, encodePayload deps base = .ok p → Fits p) (hun : ∀ p, ¬ BaseWritten deps faults base log p) :
    Live deps (log.rotate deps faults base).2 rs ∧ ∃ e, (log.rotate deps faults base).1 = .error e := by
  by_cases hlist : faults .list = none
  swap
  · have hsome : (faults .list).isSome = true := isSome_iff_ne_none.mpr hlist
    unfold Log.rotate
    rw [if_pos hsome]
    exact ⟨h, _, rfl⟩
  by_cases hroom : lastIndex log.writer.family log.dir + 1 < u64Bound
  swap
  · unfold Log.rotate
    rw [hlist, if_neg (by simp), if_pos (by omega)]
    exact ⟨h, _, rfl⟩
  cases hres : (log.finishArchive faults).1 with
  | error e =>
    have heq : log.rotate deps faults base = (.error e, (log.finishArchive faults).2) := by
      unfold Log.rotate
      rw [hlist, if_neg (by simp), if_neg (by omega), fst_eq_iff.mp hres]
    rw [heq, (finishArchive_cases faults log).1]
    exact ⟨(h.pushToOs hclean).1, e, rfl⟩
  | ok u =>
    have harch := h.archived hclean hres
    have hnext : ∀ p, ¬ NextWritten deps faults base p := by
      intro p hn
      obtain ⟨hpush, hsync⟩ := h.finishArchive_ok_iff.mp hres
      exact hun p ⟨hlist, hroom, hpush, hsync, hn⟩
    obtain ⟨huntr, e, herr⟩ := writeNext_unwritten true (harch.next_free hroom) hfit hnext
    rw [rotate_eq hlist hroom hres harch.live.durable]
    cases hwn : writeNext deps faults base log.nextName true (log.finishArchive faults).2.dir with
    | mk res d' =>
      rw [hwn] at huntr herr
      simp only at herr
      subst herr
      refine ⟨?_, e, rfl⟩
      have hfam := harch.same.family
      have hfresh := harch.fresh
      rw [← hfam] at hfresh
      refine harch.live.add_untrusted hfresh ?_ ?_
      · intro name hn
        rw [hfam] at hn
        have := writeNext_others deps faults base true (log.finishArchive faults).2.dir hn
        rwa [← nextName, hwn] at this
      · rw [hfam]
        exact huntr

theorem Live.rotate_written (h : Live deps log rs) (hw : BaseWritten deps faults base log payload) :
    ∃ archived, Archived deps log archived rs ∧
      (log.rotate deps faults base).2.dir.lookup log.nextName = some (magic ++ frame deps payload) ∧
      (∀ name, name ≠ log.nextName → (log.rotate deps faults base).2.dir.lookup name = archived.dir.lookup name) ∧
      if syncFails faults then
        (log.rotate deps faults base).1 = .error (.io "fsync failed") ∧
          (log.rotate deps faults base).2.writer = archived.writer
      else (log.rotate deps faults base).1 = .ok true ∧ (log.rotate deps faults base).2.writer =
          { archived.writer with
            path := log.nextName
            pos := headerLen + (frame deps payload).length
            fileBytes := headerLen + (frame deps payload).length
            nextSeq := 2
            segmentIndex := lastIndex log.writer.family log.dir + 1 } := by
  have hok : (log.finishArchive faults).1 = .ok () := h.finishArchive_ok_iff.mpr ⟨hw.push, hw.archiveSync⟩
  have harch := h.archived (cleanPush_of_writeAll hw.push) hok
  obtain ⟨hlook, hres⟩ := writeNext_written true hw.next (harch.next_free hw.room)
  have hothers : ∀ name, name ≠ log.nextName →
      (writeNext deps faults base log.nextName true (log.finishArchive faults).2.dir).2.lookup name =
        (log.finishArchive faults).2.dir.lookup name := fun name hn => writeNext_others _ _ _ _ _ hn
  refine ⟨(log.finishArchive faults).2, harch, ?_⟩
  rw [rotate_eq hw.list hw.room hok harch.live.durable]
  cases hwn : writeNext deps faults base log.nextName true (log.finishArchive faults).2.dir with
  | mk res d' =>
    rw [hwn] at hlook hothers hres
    simp only [Bool.true_and] at hlook hothers hres
    by_cases hsync : syncFails faults = true
    · rw [if_pos hsync] at hres ⊢
      subst hres
      exact ⟨hlook, hothers, rfl, rfl⟩
    · rw [if_neg hsync] at hres ⊢
      subst hres
      exact ⟨hlook, hothers, rfl, rfl⟩

theorem Live.rotate_ok (h : Live deps log rs) (hbase : base.isSegmentBase = true)
    (hr : ∀ p, encodePayload deps base = .ok p → Recoverable deps base p) {next : Log}
    (hrot : log.rotate deps noFaults base = (.ok true, next)) :
    Live deps next [base] ∧ next.writer.family = log.writer.family := by
  have hclean : CleanPush noFaults log := nofun
  by_cases hex : ∃ p, BaseWritten deps noFaults base log p
  swap
  · obtain ⟨_, e, herr⟩ := h.rotate_unwritten hclean (fun p hp => (hr p hp).fits) (fun p hp => hex ⟨p, hp⟩)
    rw [hrot] at herr
    cases herr
  obtain ⟨payload, hw⟩ := hex
  obtain ⟨archived, harch, hlook, hothers, hres⟩ := h.rotate_written hw
  rw [hrot] at hlook hothers hres
  have hsync : ¬ syncFails noFaults = true := by decide
  rw [if_neg hsync] at hres
  have hwriter := hres.2
  simp only at hwriter hlook hothers
  have hholds := holds_base (hr _ hw.next.encoded)
  have hfam : next.writer.family = log.writer.family := by rw [hwriter]; exact harch.same.family
  have hpath : next.writer.path = log.nextName := by rw [hwriter]
  have hindex : next.writer.segmentIndex = lastIndex log.writer.family log.dir + 1 := by rw [hwriter]
  have hfile : next.file = magic ++ frame deps payload := by
    rw [file, hpath]
    exact fileAt_of_lookup hlook
  have hbuf : next.writer.buf = [] := by rw [hwriter]; exact harch.buf
  have hlen : next.file.length = headerLen + (frame deps payload).length := by
    rw [hfile, length_append, magic_length]
  refine ⟨⟨⟨?_, ?_⟩, ?_, ?_, ?_, ?_, ⟨[base], [], rfl, by rw [hfile]; exact hholds, ?_⟩, ?_⟩, hfam⟩
  · rw [hlen, hwriter]
  · rw [hlen, hwriter]
  · rw [hwriter]; exact harch.live.durable
  · rw [hfam, hpath, hindex]
    exact mem_segments.mpr ⟨succ_pos _, hw.room, rfl, mem_of_lookup hlook⟩
  · rw [contents, hbuf, append_nil, hfile]
    exact hholds
  · rw [hwriter]; rfl
  · unfold trusted
    split
    · rfl
    · exact hbase
  · intro j hj hjl
    exfalso
    rw [hfam] at hjl
    rw [hindex] at hj
    obtain ⟨hj1, hjb, _, hjmem⟩ := mem_segments.mp hjl
    have hne : segmentName log.writer.family j ≠ log.nextName := by
      intro heq
      have := segmentName_injective hj1 (succ_pos _) heq
      omega
    have := harch.fresh j _ (mem_segments.mpr ⟨hj1, hjb, rfl, mem_congr (hothers _ hne) hjmem⟩)
    omega

/-! ## Every state a writer reaches -/

/-- The logs a process works on, each with the records of its current segment:
one that `openCurrent` handed out, whatever the directory held, and what appends,
flushes and rotations of it lead to. What is written is read back as it was. -/
inductive Run (deps : Deps β) (family : Name) : Log → List (WalRecord β) → Prop where
  | opened {d : Dir} {log : Log} {rs : List (WalRecord β)} (h : openCurrent deps family d = .ok (log, sequenced rs)) :
      Run deps family log rs
  | appended {log : Log} {rs : List (WalRecord β)} {record : WalRecord β} {payload : Bytes}
      (run : Run deps family log rs) (hp : encodePayload deps record = .ok payload)
      (hr : Recoverable deps record payload) : Run deps family (log.append deps none record).2 (rs ++ [record])
  | flushed {log : Log} {rs : List (WalRecord β)} (run : Run deps family log rs) : Run deps family log.flushed rs
  | rotated {log next : Log} {rs : List (WalRecord β)} {base : WalRecord β} (run : Run deps family log rs)
      (hbase : base.isSegmentBase = true) (hr : ∀ p, encodePayload deps base = .ok p → Recoverable deps base p)
      (h : log.rotate deps noFaults base = (.ok true, next)) : Run deps family next [base]
  | refused {log : Log} {rs : List (WalRecord β)} {base : WalRecord β} {faults : Faults}
      (run : Run deps family log rs) (hclean : CleanPush faults log)
      (hfit : ∀ p, encodePayload deps base = .ok p → Fits p) (h : ∀ p, ¬ BaseWritten deps faults base log p) :
      Run deps family (log.rotate deps faults base).2 rs

theorem Run.live (h : Run deps family log rs) : Live deps log rs ∧ log.writer.family = family := by
  induction h with
  | opened h =>
    obtain ⟨rs', hseq, hlive, hfam⟩ := live_of_openCurrent h
    obtain rfl := sequenced_injective hseq
    exact ⟨hlive, hfam⟩
  | appended _ hp hr ih => exact ⟨ih.1.append hp hr, (append_same none).family.trans ih.2⟩
  | @flushed log _ _ ih => exact ⟨ih.1.flushed, log.flushed_same.family.trans ih.2⟩
  | rotated _ hbase hr h ih =>
    obtain ⟨hlive, hfam⟩ := ih.1.rotate_ok hbase hr h
    exact ⟨hlive, hfam.trans ih.2⟩
  | refused _ hclean hfit h ih =>
    exact ⟨(ih.1.rotate_unwritten hclean hfit h).1, rotate_family.trans ih.2⟩

end LiquidityMigration.Wal
