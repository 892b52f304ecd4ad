import LiquidityMigration.Wal.Scan
import LiquidityMigration.Wal.Segments

/- The log writer: buffered appends, the push to the operating system, and opening a segment after its last good
   frame. A `Log` is the directory with the one writer that has a segment open. Every write may stop after some bytes
   (`fault`), which stay in the file. `Log.contents` is the file once the buffer is pushed: an append adds one frame
   to it (`append_ok`), a push leaves it alone (`push_contents`). -/
namespace LiquidityMigration.Wal
open Disk List

/-- Buffered bytes go to the operating system once they pass this. -/
def bufferHighWater : Nat := 64 * 1024

structure WalWriter where
  path : Name
  pos : Nat
  /-- Whether a barrier waits for the disk. -/
  durable : Bool
  buf : Bytes
  (nextSeq segmentIndex : Nat)
  family : Name
  fileBytes : Nat
  deriving DecidableEq

structure Log where
  dir : Dir
  writer : WalWriter

namespace Log
variable {β : Type} [DecidableEq β]

def file (log : Log) : Bytes := fileAt log.dir log.writer.path

def contents (log : Log) : Bytes := log.file ++ log.writer.buf

def pushToOs (fault : Option Nat) (log : Log) : Except WalError Unit × Log :=
  let w := log.writer
  if w.buf = [] then (.ok (), log)
  else
    let out := writeAll fault w.buf
    let dir := writeAt log.dir w.path w.pos out.2
    let pos := w.pos + out.2.length
    if out.1 then
      (.ok (), ⟨dir, { w with pos := pos, fileBytes := w.fileBytes + w.buf.length, buf := [] }⟩)
    else (.error (.io "write failed"), ⟨dir, { w with pos := pos }⟩)

/-- The bytes reach the operating system and no further. -/
def flush (fault : Option Nat) (log : Log) : Except WalError Unit × Log := log.pushToOs fault

/-- `append`. A record that does not serialize leaves the buffer as it was. -/
def append (deps : Deps β) (fault : Option Nat) (record : WalRecord β) (log : Log) : Except WalError Nat × Log :=
  match encodePayload deps record with
  | .error e => (.error e, log)
  | .ok payload =>
    let seq := log.writer.nextSeq
    let next : Log := ⟨log.dir, { log.writer with
      buf := log.writer.buf ++ frame deps payload
      nextSeq := seq + 1 }⟩
    if bufferHighWater ≤ next.writer.buf.length then
      let out := next.pushToOs fault
      (out.1.map (fun _ => seq), out.2)
    else (.ok seq, next)

/-- Appending record after record on a device that takes every write. -/
def appendAll (deps : Deps β) : List (WalRecord β) → Log → Except WalError Log
  | [], log => .ok log
  | record :: rest, log =>
    match log.append deps none record with
    | (.error e, _) => .error e
    | (.ok _, next) => next.appendAll deps rest

def flushed (log : Log) : Log := (log.flush none).2

end Log

/-- Cut the file at the good end and stand there. -/
def fromScan {τ : Type} (d : Dir) (path family : Name) (durable : Bool) (scan : Scan τ) : Log × List τ :=
  let dir := if scan.goodEnd < (fileAt d path).length then setLen d path scan.goodEnd else d
  let index := ((segments family dir).find? (fun candidate => candidate.2 = path)).map Prod.fst
  (⟨dir, { path := path
           pos := scan.goodEnd
           durable := durable
           buf := []
           nextSeq := scan.decoded + 1
           segmentIndex := index.getD 1
           family := family
           fileBytes := scan.goodEnd }⟩, scan.records)

/-- An absent file is created, an empty one gets
its header, any other is scanned. -/
def openSegmentWith {β τ κ : Type} (deps : Deps β) (keep : Nat → WalRecord β → κ → Option τ × κ)
    (path family : Name) (durable : Bool) (d : Dir) (k : κ) : Except WalError (Log × List τ) :=
  let dir := if path ∈ d then d else d.insert path []
  if (fileAt dir path).length = 0 then
    .ok (fromScan (writeAt dir path 0 magic) path family durable Scan.empty)
  else (scanFileWith deps keep (fileAt dir path) k).1.map (fromScan dir path family durable)

def openFile {β : Type} (deps : Deps β) (path : Name) (d : Dir) : Except WalError (Log × List (Nat × WalRecord β)) :=
  openSegmentWith deps keepAll path path true d ()

namespace Log
variable {β : Type} {log : Log}

/-- The cursor stands at the end of the file and the byte count is the file's. -/
structure AtEnd (log : Log) : Prop where
  pos_eq : log.writer.pos = log.file.length
  bytes_eq : log.writer.fileBytes = log.file.length

theorem pushToOs_none (h : log.AtEnd) : (log.pushToOs none).1 = .ok () ∧
    (log.pushToOs none).2.AtEnd ∧ (log.pushToOs none).2.file = log.contents ∧
    (log.pushToOs none).2.writer.buf = [] := by
  unfold pushToOs
  by_cases hb : log.writer.buf = []
  · simp only [hb, if_true]
    exact ⟨trivial, h, by simp [contents, hb], trivial⟩
  · simp only [hb, if_false, writeAll, if_true]
    have hfile : fileAt (writeAt log.dir log.writer.path log.writer.pos log.writer.buf) log.writer.path =
        log.contents := by
      rw [h.pos_eq, file, fileAt_writeAt_end]
      rfl
    refine ⟨trivial, ⟨?_, ?_⟩, hfile, trivial⟩
    · change log.writer.pos + log.writer.buf.length = (fileAt _ log.writer.path).length
      rw [hfile, contents, length_append, h.pos_eq]
    · change log.writer.fileBytes + log.writer.buf.length = (fileAt _ log.writer.path).length
      rw [hfile, contents, length_append, h.bytes_eq]

/-- The writer still has the same segment open, and no other file was touched. -/
structure SameSegment (a b : Log) : Prop where
  path : b.writer.path = a.writer.path
  segmentIndex : b.writer.segmentIndex = a.writer.segmentIndex
  family : b.writer.family = a.writer.family
  durable : b.writer.durable = a.writer.durable
  others : ∀ name, name ≠ a.writer.path → b.dir.lookup name = a.dir.lookup name
  here : a.writer.path ∈ a.dir → a.writer.path ∈ b.dir

theorem SameSegment.refl (log : Log) : log.SameSegment log :=
  ⟨rfl, rfl, rfl, rfl, fun _ _ => rfl, id⟩

theorem SameSegment.trans {a b c : Log} (h : a.SameSegment b) (k : b.SameSegment c) : a.SameSegment c := by
  refine ⟨k.path.trans h.path, k.segmentIndex.trans h.segmentIndex, k.family.trans h.family,
    k.durable.trans h.durable, ?_, ?_⟩
  · intro name hn
    rw [k.others name (by rw [h.path]; exact hn), h.others name hn]
  · intro ha
    have := k.here (by rw [h.path]; exact h.here ha)
    rwa [h.path] at this

theorem pushToOs_same (fault : Option Nat) (log : Log) : log.SameSegment (log.pushToOs fault).2 ∧
    (log.pushToOs fault).2.writer.nextSeq = log.writer.nextSeq := by
  unfold pushToOs
  dsimp only
  split
  · exact ⟨.refl log, rfl⟩
  · split <;> exact ⟨⟨rfl, rfl, rfl, rfl, fun name hn => AList.lookup_insert_ne hn, fun _ => by simp [writeAt]⟩, rfl⟩

theorem pushToOs_ok {fault : Option Nat} (h : (writeAll fault log.writer.buf).1 = true) :
    log.pushToOs fault = log.pushToOs none := by
  have hw := writeAll_ok h
  unfold pushToOs
  dsimp only
  rw [hw]
  rfl

theorem pushToOs_torn {fault : Option Nat} (h : (writeAll fault log.writer.buf).1 = false) :
    ∃ n, fault = some n ∧ n < log.writer.buf.length ∧ log.pushToOs fault = (.error (.io "write failed"),
      ⟨writeAt log.dir log.writer.path log.writer.pos (log.writer.buf.take n),
        { log.writer with pos := log.writer.pos + (log.writer.buf.take n).length }⟩) := by
  obtain ⟨n, hn, hfault, hw⟩ := writeAll_torn h
  have hne : log.writer.buf ≠ [] := ne_nil_of_length_pos (Nat.zero_lt_of_lt hn)
  refine ⟨n, hfault, hn, ?_⟩
  unfold pushToOs
  simp [hne, hw]

theorem pushToOs_grows (h : log.AtEnd) (fault : Option Nat) :
    ∃ added, (log.pushToOs fault).2.file = log.file ++ added := by
  have hgrow : ∀ bytes, fileAt (writeAt log.dir log.writer.path log.writer.pos bytes) log.writer.path =
      log.file ++ bytes := by
    intro bytes
    rw [h.pos_eq]
    exact fileAt_writeAt_end _ _ _
  unfold pushToOs
  dsimp only
  split
  · exact ⟨[], (append_nil _).symm⟩
  · split <;> exact ⟨_, hgrow _⟩

theorem SameSegment.mem_dir {a b : Log} (h : a.SameSegment b) (ha : a.writer.path ∈ a.dir) (name : Name) :
    name ∈ b.dir ↔ name ∈ a.dir := by
  by_cases hn : name = a.writer.path
  · rw [hn]
    exact ⟨fun _ => ha, fun _ => h.here ha⟩
  · exact ⟨mem_congr (h.others name hn), mem_congr (h.others name hn).symm⟩

theorem SameSegment.mem_segments {a b : Log} (h : a.SameSegment b) (ha : a.writer.path ∈ a.dir)
    {family name : Name} {j : Nat} : (j, name) ∈ segments family b.dir ↔ (j, name) ∈ segments family a.dir := by
  rw [Wal.mem_segments, Wal.mem_segments, h.mem_dir ha]

theorem push_contents (h : log.AtEnd) : (log.pushToOs none).2.contents = log.contents := by
  obtain ⟨_, _, hf, hb⟩ := pushToOs_none h
  rw [contents, hf, hb, append_nil]

theorem flushed_file (h : log.AtEnd) : log.flushed.file = log.contents := (pushToOs_none h).2.2.1

theorem flushed_same (log : Log) : log.SameSegment log.flushed := (pushToOs_same none log).1

variable [DecidableEq β] {deps : Deps β} {record : WalRecord β} {payload : Bytes}

theorem append_ok (h : log.AtEnd) (hp : encodePayload deps record = .ok payload) :
    (log.append deps none record).1 = .ok log.writer.nextSeq ∧
    (log.append deps none record).2.AtEnd ∧
    (log.append deps none record).2.contents = log.contents ++ frame deps payload ∧
    (log.append deps none record).2.writer.nextSeq = log.writer.nextSeq + 1 := by
  unfold append
  rw [hp]
  dsimp only
  have hmid : ∀ w, w = ({ log.writer with
      buf := log.writer.buf ++ frame deps payload
      nextSeq := log.writer.nextSeq + 1 } : WalWriter) → (⟨log.dir, w⟩ : Log).AtEnd ∧
      (⟨log.dir, w⟩ : Log).contents = log.contents ++ frame deps payload := by
    rintro w rfl
    exact ⟨⟨h.pos_eq, h.bytes_eq⟩, by simp [contents, file]⟩
  obtain ⟨hend, hcont⟩ := hmid _ rfl
  split
  · obtain ⟨hok, hend', _, _⟩ := pushToOs_none hend
    refine ⟨by rw [hok]; rfl, hend', by rw [push_contents hend, hcont], ?_⟩
    rw [(pushToOs_same none _).2]
  · exact ⟨rfl, hend, hcont, rfl⟩

theorem append_same (fault : Option Nat) : log.SameSegment (log.append deps fault record).2 := by
  unfold append
  split
  · exact .refl log
  · next payload _ =>
    have hmid : log.SameSegment ⟨log.dir, { log.writer with
        buf := log.writer.buf ++ frame deps payload
        nextSeq := log.writer.nextSeq + 1 }⟩ := ⟨rfl, rfl, rfl, rfl, fun _ _ => rfl, id⟩
    dsimp only
    split
    · exact hmid.trans (pushToOs_same fault _).1
    · exact hmid

theorem appendAll_ok {rs : List (WalRecord β)} {ps : List Bytes}
    (hp : List.Forall₂ (fun r p => encodePayload deps r = .ok p) rs ps) :
    ∀ {log : Log}, log.AtEnd → ∃ next, log.appendAll deps rs = .ok next ∧ next.AtEnd ∧
      log.SameSegment next ∧ next.contents = log.contents ++ (ps.map (frame deps)).flatten ∧
      next.writer.nextSeq = log.writer.nextSeq + rs.length := by
  induction hp with
  | nil =>
    intro log h
    exact ⟨log, rfl, h, .refl log, by simp, by simp⟩
  | @cons r p rs ps hr _ ih =>
    intro log h
    obtain ⟨hok, hend, hcont, hseq⟩ := append_ok h hr
    obtain ⟨next, hn, hend', hsame, hcont', hseq'⟩ := ih hend
    refine ⟨next, ?_, hend', (append_same none).trans hsame, ?_, ?_⟩
    · rw [appendAll]
      cases hstep : log.append deps none r with
      | mk res mid =>
        rw [hstep] at hok hn
        simp only at hok hn
        rw [hok]
        exact hn
    · rw [hcont', hcont]
      simp [append_assoc]
    · rw [hseq', hseq, length_cons]
      omega

end Log

section
variable {β τ : Type}

theorem fromScan_atEnd (d : Dir) (path family : Name) (durable : Bool) (scan : Scan τ)
    (h : scan.goodEnd ≤ (fileAt d path).length) :
    (fromScan d path family durable scan).1.AtEnd ∧
    (fromScan d path family durable scan).1.contents = (fileAt d path).take scan.goodEnd := by
  have hfile : fileAt (if scan.goodEnd < (fileAt d path).length then setLen d path scan.goodEnd else d) path =
      (fileAt d path).take scan.goodEnd := by
    split
    · rw [setLen, fileAt_insert]
    · rw [take_of_length_le (by omega)]
  have hlen : ((fileAt d path).take scan.goodEnd).length = scan.goodEnd := by
    rw [length_take, Nat.min_eq_left h]
  refine ⟨⟨?_, ?_⟩, ?_⟩
  · simp [fromScan, Log.file, hfile, hlen]
  · simp [fromScan, Log.file, hfile, hlen]
  · simp [fromScan, Log.contents, Log.file, hfile]

theorem openFile_of_scan {deps : Deps β} {path : Name} {d : Dir} {s : Scan (Nat × WalRecord β)}
    (hmem : path ∈ d) (hscan : scanFile deps (fileAt d path) = .ok s) :
    openFile deps path d = .ok (fromScan d path path true s) := by
  have hne : ¬ (fileAt d path).length = 0 := by
    intro h0
    rw [length_eq_zero_iff.mp h0] at hscan
    cases hscan
  unfold openFile openSegmentWith
  simp only [hmem, if_true, hne, if_false]
  unfold scanFile at hscan
  rw [hscan]
  rfl

theorem openFile_fresh (deps : Deps β) {path : Name} {d : Dir} (hmem : path ∉ d) :
    ∃ log, openFile deps path d = .ok (log, []) ∧ log.AtEnd ∧ log.contents = magic ∧
      log.writer.path = path ∧ log.writer.nextSeq = 1 ∧ path ∈ log.dir := by
  have hfile : fileAt (writeAt (d.insert path []) path 0 magic) path = magic := fileAt_writeAt_new d path magic
  have hlen : (Scan.empty (τ := Nat × WalRecord β)).goodEnd ≤
      (fileAt (writeAt (d.insert path []) path 0 magic) path).length := by
    rw [hfile]; exact Nat.le_refl _
  obtain ⟨hend, hcont⟩ := fromScan_atEnd (writeAt (d.insert path []) path 0 magic) path path true
    (Scan.empty (τ := Nat × WalRecord β)) hlen
  refine ⟨_, ?_, hend, ?_, rfl, rfl, ?_⟩
  · unfold openFile openSegmentWith
    simp only [hmem, if_false, fileAt_insert, length_nil, if_true]
    rfl
  · rw [hcont, hfile]
    rfl
  · simp only [fromScan]
    split
    · simp [setLen]
    · simp [writeAt]

end
end LiquidityMigration.Wal
