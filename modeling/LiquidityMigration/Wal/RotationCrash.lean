import LiquidityMigration.Wal.Recovery
import LiquidityMigration.Wal.Rotate

/- A crash during a rotation, after any number of its operations (`rotateEffects`; `rotatesBy` ties them to `rotate`),
   which may lose what was not synced by then (`Disk.CrashImage`). `RotationSafe` says that the readers agree on the
   old segment with all its records or, once it is whole, on the new one, and that nothing that exists is written over
   afterwards. The restatement has to be read back from its payload for that: `rotate` casts the length to 32 bits,
   and only a debug build reads the payload back. -/
namespace LiquidityMigration.Wal
open Framing Disk List Nat Log Function Option

variable {β : Type} [DecidableEq β]

/-- Steps 2 and 3: the new file, its header and frame, its sync, and the directory's. -/
def baseSteps (deps : Deps β) (path : Name) (payload : Bytes) : List (RotateStep × Option (Effect Name UInt8)) :=
  [(.create, some (.create path)), (.header, some (.write path 0 magic)),
    (.base, some (.write path headerLen (frame deps payload))), (.baseSync, some (.syncData path)), (.openDir, none),
    (.syncDir, some .syncDir)]

/-- The steps of a rotation, each with what it does to the disk. -/
def rotateSteps (deps : Deps β) (log : Log) (payload : Bytes) : List (RotateStep × Option (Effect Name UInt8)) :=
  [(.list, none), (.push, some (.write log.writer.path log.writer.pos log.writer.buf)),
    (.archiveSync, some (.syncData log.writer.path))] ++ baseSteps deps log.nextName payload

def rotateEffects (deps : Deps β) (log : Log) (payload : Bytes) : List (Effect Name UInt8) :=
  (rotateSteps deps log payload).filterMap Prod.snd

def archiveEffects (log : Log) : List (Effect Name UInt8) :=
  [.write log.writer.path log.writer.pos log.writer.buf, .syncData log.writer.path]

def baseEffects (deps : Deps β) (path : Name) (payload : Bytes) : List (Effect Name UInt8) :=
  [.create path, .write path 0 magic, .write path headerLen (frame deps payload), .syncData path, .syncDir]

/-- Carried out over the log's directory, the operations leave the files of `d`. -/
def Leaves (log : Log) (effects : List (Effect Name UInt8)) (d : Dir) : Prop :=
  ∀ s, s.files = log.dir → SameFiles (run s effects).files d

/-- The operations are those of `rotate`, step by step: whatever fails, it leaves what
the steps leave up to there. -/
structure RotatesBy (deps : Deps β) (log : Log) (base : WalRecord β) (payload : Bytes) : Prop where
  succeeds : (log.rotate deps noFaults base).1 = .ok true
  leaves : ∀ faults, Leaves log (upTo faults (rotateSteps deps log payload)) (log.rotate deps faults base).2.dir

/-- The disk under a log in use. Of the current segment the records `kept` are
synced, its restatement among them, and its name is; nothing is asked of any other
file. -/
structure Standing (deps : Deps β) (log : Log) (s : State Name UInt8) (kept : List (WalRecord β)) : Prop where
  files : s.files = log.dir
  linked : s.linked log.writer.path = true
  synced_le : s.synced log.writer.path ≤ log.file.length
  holds : Holds deps (log.file.take (s.synced log.writer.path)) kept
  trust : trusted log.writer.segmentIndex (startsWithBase kept) = true

/-- No rotation of `log` writes over a file of its directory: a file stays as it
is, the current segment may grow, and the name to be created is new. -/
def RotationKeeps (deps : Deps β) (log : Log) : Prop :=
  (lastIndex log.writer.family log.dir + 1 < u64Bound → log.nextName ∉ log.dir) ∧
  ∀ faults base name, name ∈ log.dir → ∃ added,
    (log.rotate deps faults base).2.dir.lookup name = some (fileAt log.dir name ++ added) ∧
      (name ≠ log.writer.path → added = [])

/-- What the next open finds after a crash anywhere in a rotation, on any disk the log may stand on.
Once the archive is synced (the first two operations) the old segment has all its records; before that
it has at least the synced ones. -/
def RotationSafe (deps : Deps β) (log : Log) (rs : List (WalRecord β)) (base : WalRecord β) (payload : Bytes) : Prop :=
  ∀ s kept, Standing deps log s kept → ∀ k d, CrashImage (run s ((rotateEffects deps log payload).take k)) d →
    (if d.lookup log.nextName = some (magic ++ frame deps payload) then
      ReadersSelect deps log.writer.family d (lastIndex log.writer.family log.dir + 1) [base]
    else ∃ found, ReadersSelect deps log.writer.family d log.writer.segmentIndex found ∧
      kept <+: found ∧ found <+: rs ∧ (2 ≤ k → found = rs)) ∧
    ∀ next found, openCurrent deps log.writer.family d = .ok (next, found) → RotationKeeps deps next

variable {deps : Deps β} {family : Name} {log : Log} {rs kept : List (WalRecord β)} {base : WalRecord β}
  {payload : Bytes} {s : State Name UInt8} {k : Nat} {d : Dir}

theorem archive_state (hend : log.AtEnd) (hfiles : s.files = log.dir) (hhere : log.writer.path ∈ log.dir)
    (hsync : s.synced log.writer.path ≤ log.file.length) (k : Nat) :
    log.writer.path ∈ (run s ((archiveEffects log).take k)).files ∧
    (run s ((archiveEffects log).take k)).linked = s.linked ∧
    s.synced log.writer.path ≤ (run s ((archiveEffects log).take k)).synced log.writer.path ∧
    (∃ m, log.file.length ≤ m ∧
      fileAt (run s ((archiveEffects log).take k)).files log.writer.path = log.contents.take m) ∧
    (2 ≤ k → fileAt (run s ((archiveEffects log).take k)).files log.writer.path = log.contents ∧
      (run s ((archiveEffects log).take k)).synced log.writer.path = log.contents.length) := by
  have hfile : fileAt s.files log.writer.path = log.file := by rw [hfiles]; rfl
  have hwrite : fileAt (writeAt s.files log.writer.path log.writer.pos log.writer.buf) log.writer.path =
      log.contents := by
    rw [hend.pos_eq, ← hfile, fileAt_writeAt_end, hfile]
    rfl
  have hmem : log.writer.path ∈ writeAt s.files log.writer.path log.writer.pos log.writer.buf :=
    (mem_writeAt _ _ _ _ _).mpr (.inl rfl)
  have hle : log.file.length ≤ log.contents.length := by rw [contents, length_append]; omega
  rcases k with _ | _ | k
  · refine ⟨by rw [← hfiles] at hhere; exact hhere, rfl, le_refl _, ⟨log.file.length, le_refl _, ?_⟩,
      fun h => absurd h (by decide)⟩
    show fileAt s.files log.writer.path = _
    rw [hfile, contents, take_left]
  · refine ⟨hmem, rfl, ?_, ⟨log.contents.length, hle, ?_⟩, fun h => absurd h (by decide)⟩
    · show _ ≤ update s.synced log.writer.path _ log.writer.path
      rw [update_self, hend.pos_eq]
      exact Nat.le_min.mpr ⟨Nat.le_refl _, hsync⟩
    · rw [take_length]
      exact hwrite
  · have hall : (archiveEffects log).take (k + 1 + 1) = archiveEffects log :=
      take_of_length_le (by simp [archiveEffects])
    rw [hall]
    have hsynced : (run s (archiveEffects log)).synced log.writer.path = log.contents.length := by
      show update (Effect.apply s (.write log.writer.path log.writer.pos log.writer.buf)).synced
        log.writer.path (fileAt (writeAt s.files log.writer.path log.writer.pos log.writer.buf)
          log.writer.path).length log.writer.path = _
      rw [update_self, hwrite]
    refine ⟨hmem, rfl, by rw [hsynced]; omega, ⟨log.contents.length, hle, ?_⟩, fun _ => ⟨hwrite, hsynced⟩⟩
    rw [take_length]
    exact hwrite

omit [DecidableEq β] in
theorem base_state (deps : Deps β) {path : Name} (payload : Bytes) (hnew : path ∉ s.files) (k : Nat) :
    path ∉ (run s ((baseEffects deps path payload).take k)).files ∨
    ∃ m, fileAt (run s ((baseEffects deps path payload).take k)).files path = (magic ++ frame deps payload).take m := by
  have hwhole : (magic ++ frame deps payload).take (magic ++ frame deps payload).length =
      magic ++ frame deps payload := take_length
  match k with
  | 0 => exact .inl hnew
  | 1 => exact .inr ⟨0, fileAt_insert _ _ _⟩
  | 2 => exact .inr ⟨headerLen, fileAt_writeAt_new _ _ _⟩
  | k + 3 =>
    have hfiles : (run s ((baseEffects deps path payload).take (k + 3))).files =
        writeAt (writeAt (s.files.insert path []) path 0 magic) path headerLen (frame deps payload) := by
      match k with
      | 0 => rfl
      | 1 => rfl
      | k + 2 => rw [take_of_length_le (by simp [baseEffects])]; rfl
    rw [hfiles, fileAt_base]
    exact .inr ⟨_, hwhole.symm⟩

theorem archive_concerns {e : Effect Name UInt8} {name : Name} (hne : name ≠ log.writer.path)
    (he : e ∈ archiveEffects log) : e.concerns ≠ some name := by
  simp only [archiveEffects, mem_cons, not_mem_nil, or_false] at he
  obtain rfl | rfl := he <;> exact fun h => hne (some.inj h).symm

omit [DecidableEq β] in
theorem base_concerns {e : Effect Name UInt8} {path name : Name} (hne : name ≠ path)
    (he : e ∈ baseEffects deps path payload) : e.concerns ≠ some name := by
  simp only [baseEffects, mem_cons, not_mem_nil, or_false] at he
  obtain rfl | rfl | rfl | rfl | rfl := he
  · exact fun h => hne (some.inj h).symm
  · exact fun h => hne (some.inj h).symm
  · exact fun h => hne (some.inj h).symm
  · exact fun h => hne (some.inj h).symm
  · exact fun h => by cases h

omit [DecidableEq β] in
variable (deps log payload s k) in
theorem rotate_take :
    run s ((rotateEffects deps log payload).take k) =
      run (run s ((archiveEffects log).take k)) ((baseEffects deps log.nextName payload).take (k - 2)) := by
  rw [show rotateEffects deps log payload = archiveEffects log ++ baseEffects deps log.nextName payload from rfl,
    take_append, run_append]
  rfl

theorem Live.rotationKeeps (h : Live deps log rs) : RotationKeeps deps log := by
  refine ⟨freshIndex_free, ?_⟩
  intro faults base name hin
  -- the archive step only adds to the current segment
  have harch : ∃ added, (log.finishArchive faults).2.dir.lookup name = some (fileAt log.dir name ++ added) ∧
      (name ≠ log.writer.path → added = []) := by
    rw [(finishArchive_cases faults log).1]
    by_cases hp : name = log.writer.path
    · obtain ⟨added, hadd⟩ := pushToOs_grows h.atEnd (faults .push)
      have hsame := (pushToOs_same (faults .push) log).1
      refine ⟨added, ?_, fun hc => absurd hp hc⟩
      rw [hp, lookup_of_mem (hsame.here h.here)]
      rw [file, hsame.path] at hadd
      rw [hadd]
      rfl
    · refine ⟨[], ?_, fun _ => rfl⟩
      rw [(pushToOs_same (faults .push) log).1.others name hp, lookup_of_mem hin, append_nil]
  have hself : ∃ added, log.dir.lookup name = some (fileAt log.dir name ++ added) ∧
      (name ≠ log.writer.path → added = []) := ⟨[], by rw [lookup_of_mem hin, append_nil], fun _ => rfl⟩
  unfold Log.rotate
  split
  · exact hself
  · split
    · exact hself
    · next hroom =>
      have hne := ne_nextName (by omega) hin
      dsimp only
      split
      · next hf => rw [hf] at harch; exact harch
      · next archived hf =>
        rw [hf] at harch
        have hnext := writeNext_others deps faults base archived.writer.durable archived.dir hne
        split
        · next hw =>
          rw [nextName, hw] at hnext
          rw [hnext]
          exact harch
        · next hw =>
          rw [nextName, hw] at hnext
          rw [hnext]
          exact harch

omit [DecidableEq β] in
theorem Live.standing (h : Live deps log rs) : ∃ kept, Standing deps log (settled log.dir) kept := by
  obtain ⟨old, new, _, hold, ht⟩ := h.written
  refine ⟨old, rfl, rfl, le_refl _, ?_, ht⟩
  show Holds deps (log.file.take log.file.length) old
  rw [take_length]
  exact hold

section
variable (h : Live deps log rs) (hroom : lastIndex log.writer.family log.dir + 1 < u64Bound)
include h hroom

omit [DecidableEq β] in
theorem crash_cases (hs : Standing deps log s kept)
    (hcrash : CrashImage (run s ((rotateEffects deps log payload).take k)) d) :
    (∃ n, s.synced log.writer.path ≤ n ∧ d.lookup log.writer.path = some (log.contents.take n) ∧
      (2 ≤ k → log.contents.length ≤ n)) ∧
    (log.nextName ∈ d → ∃ m, d.lookup log.nextName = some ((magic ++ frame deps payload).take m)) ∧
    ∀ name, name ≠ log.nextName → name ∈ d → name ∈ log.dir ∧
      (name ≠ log.writer.path → ∃ n, fileAt d name = (fileAt log.dir name).take n) := by
  have hne := ne_nextName hroom h.here
  rw [rotate_take] at hcrash
  obtain ⟨hmem, hlinked, hsynced, ⟨m, hm, hfile⟩, hdone⟩ := archive_state h.atEnd hs.files h.here hs.synced_le k
  generalize hmid : run s ((archiveEffects log).take k) = mid at hcrash hmem hlinked hsynced hfile hdone
  -- the operations on the new file leave the old one alone, and the other way round
  have hold : Kept mid (run mid ((baseEffects deps log.nextName payload).take (k - 2))) log.writer.path :=
    kept_run (fun e he => base_concerns hne (mem_of_mem_take he))
  have hnextMid : log.nextName ∉ mid.files := by
    have hkept : Kept s mid log.nextName := by
      rw [← hmid]
      exact kept_run fun e he => archive_concerns (Ne.symm hne) (mem_of_mem_take he)
    intro hin
    apply freshIndex_free hroom
    have := mem_congr hkept.lookup hin
    rwa [hs.files] at this
  refine ⟨?_, ?_, ?_⟩
  · obtain ⟨n, hn, hlook⟩ := hcrash.linked (mem_congr hold.lookup.symm hmem)
      (hold.linked (by rw [hlinked]; exact hs.linked))
    have hfileAt : fileAt (run mid ((baseEffects deps log.nextName payload).take (k - 2))).files log.writer.path =
        log.contents.take m := by
      rw [fileAt, hold.lookup]
      exact hfile
    rw [hfileAt, take_take] at hlook
    rw [hold.synced] at hn
    by_cases hk : 2 ≤ k
    · refine ⟨max n log.contents.length, ?_, ?_, fun _ => le_max_right _ _⟩
      · exact le_trans (le_trans hsynced hn) (le_max_left _ _)
      · have hwhole : log.contents.take m = log.contents := by rw [← hfile]; exact (hdone hk).1
        have hlong : log.contents.length ≤ n := by rw [← (hdone hk).2]; exact hn
        have hm' : log.contents.length ≤ m := by
          have := congrArg length hwhole
          rw [length_take] at this
          omega
        rw [hlook, take_of_length_le (Nat.le_min.mpr ⟨hlong, hm'⟩), take_of_length_le (Nat.le_max_right _ _)]
    · refine ⟨min n m, ?_, hlook, fun hc => absurd hc hk⟩
      exact Nat.le_min.mpr ⟨Nat.le_trans hsynced hn, Nat.le_trans hs.synced_le hm⟩
  · intro hin
    obtain ⟨hfiles, n, hcut⟩ := hcrash.found hin
    obtain hout | ⟨m', hm'⟩ := base_state deps payload hnextMid (k - 2)
    · exact absurd hfiles hout
    · exact ⟨min n m', by rw [lookup_of_mem hin, hcut, hm', take_take]⟩
  · intro name hnn hin
    obtain ⟨hfiles, n, hcut⟩ := hcrash.found hin
    have hkept : Kept mid (run mid ((baseEffects deps log.nextName payload).take (k - 2))) name :=
      kept_run fun e he => base_concerns hnn (mem_of_mem_take he)
    by_cases hp : name = log.writer.path
    · exact ⟨hp ▸ h.here, fun hc => absurd hp hc⟩
    · have hkept' : Kept s mid name := by
        rw [← hmid]
        exact kept_run (fun e he => archive_concerns hp (mem_of_mem_take he))
      have hlook := hkept.lookup.trans hkept'.lookup
      refine ⟨by rw [← hs.files]; exact mem_congr hlook hfiles, fun _ => ⟨n, ?_⟩⟩
      rw [hcut, fileAt, hlook, hs.files]
      rfl

omit h hroom in
theorem writeNext_files (hp : encodePayload deps base = .ok payload) {path : Name} (hnew : path ∉ s.files)
    (faults : Faults) : (run s (upTo faults (baseSteps deps path payload))).files =
      (writeNext deps faults base path true s.files).2 := by
  unfold writeNext baseSteps
  simp only [upTo, hp, hnew, decide_false, Bool.or_false]
  cases (faults .create).isSome with
  | true => rfl
  | false =>
    cases hh : (writeAll (faults .header) magic).1 with
    | false => rfl
    | true =>
      rw [writeAll_ok hh]
      cases (writeAll (faults .base) (frame deps payload)).1 with
      | false => rfl
      | true =>
        -- the syncs at the end leave the files alone
        simp only [Bool.not_true, Bool.false_eq_true, if_false, if_true]
        split_ifs <;> rfl

omit [DecidableEq β] hroom in
theorem pushToOs_files (fault : Option Nat) :
    SameFiles (writeAt log.dir log.writer.path log.writer.pos (writeAll fault log.writer.buf).2)
      (log.pushToOs fault).2.dir := by
  unfold pushToOs
  dsimp only
  split
  · next hbuf =>
    have hnone : (writeAll fault log.writer.buf).2 = [] := by cases fault <;> simp [writeAll, hbuf]
    intro name
    by_cases hn : name = log.writer.path
    · rw [hn, hnone, lookup_of_mem ((mem_writeAt _ _ _ _ _).mpr (.inl rfl)), h.atEnd.pos_eq, file, fileAt_writeAt_end,
        append_nil, lookup_of_mem h.here]
    · exact lookup_writeAt_ne _ hn _ _
  · split <;> exact fun _ => rfl

theorem rotatesBy (hp : encodePayload deps base = .ok payload) : RotatesBy deps log base payload := by
  have hw : BaseWritten deps noFaults base log payload := ⟨rfl, hroom, rfl, rfl, ⟨rfl, rfl, hp, rfl⟩⟩
  obtain ⟨_, _, _, _, hout⟩ := h.rotate_written hw
  rw [if_neg (by decide)] at hout
  refine ⟨hout.1, ?_⟩
  rintro faults s hfiles
  have hpushed := pushToOs_files h (faults .push)
  rw [← hfiles] at hpushed
  show SameFiles (run s (if (faults .list).isSome then [] else .write log.writer.path log.writer.pos
    (writeAll (faults .push) log.writer.buf).2 :: if (writeAll (faults .push) log.writer.buf).1 then
      if (faults .archiveSync).isSome then [] else
        .syncData log.writer.path :: upTo faults (baseSteps deps log.nextName payload) else [])).files _
  cases hlist : faults .list with
  | some n =>
    have hrot : log.rotate deps faults base = (.error (.io "read_dir failed"), log) := by
      unfold Log.rotate
      rw [hlist]
      rfl
    rw [hrot, ← hfiles]
    exact fun _ => rfl
  | none =>
    cases hres : (log.finishArchive faults).1 with
    | error e =>
      have hrot : log.rotate deps faults base = (.error e, (log.pushToOs (faults .push)).2) := by
        unfold Log.rotate
        rw [hlist, if_neg (by simp), if_neg (by omega), Prod.fst_eq_iff.mp hres, (finishArchive_cases faults log).1]
      -- the push is torn, or the archive is not synced
      have hstop : ∀ rest : List (Effect Name UInt8), (if (writeAll (faults .push) log.writer.buf).1 then
          if (faults .archiveSync).isSome then [] else rest else []) = [] := by
        intro rest
        have hnot := h.finishArchive_ok_iff.not.mp (by rw [hres]; nofun)
        cases hw : (writeAll (faults .push) log.writer.buf).1 <;> simp_all
      rw [hrot, hstop]
      exact hpushed
    | ok _ =>
      obtain ⟨hw, hsync⟩ := h.finishArchive_ok_iff.mp hres
      have harch := h.archived (cleanPush_of_writeAll hw) hres
      rw [← (finishArchive_cases faults log).1] at hpushed
      have hnext := SameFiles.run (s := run s [.write log.writer.path log.writer.pos
          (writeAll (faults .push) log.writer.buf).2, .syncData log.writer.path])
        (t := settled (log.finishArchive faults).2.dir) hpushed (upTo faults (baseSteps deps log.nextName payload))
      rw [writeNext_files (s := settled _) hp (harch.next_free hroom)] at hnext
      rw [rotate_eq hlist hroom hres harch.live.durable, hw, hsync]
      refine fun name => (hnext name).trans ?_
      rw [show (settled (log.finishArchive faults).2.dir).files = (log.finishArchive faults).2.dir from rfl]
      split <;> next heq => rw [heq]

omit [DecidableEq β] in
theorem crash_last (hs : Standing deps log s kept)
    (hcrash : CrashImage (run s ((rotateEffects deps log payload).take k)) d) {j : Nat}
    (hj : (j, segmentName log.writer.family j) ∈ segments log.writer.family d) :
    j ≤ lastIndex log.writer.family log.dir + 1 := by
  obtain ⟨_, _, hothers⟩ := crash_cases h hroom hs hcrash
  obtain ⟨hj1, hjb, _, hjmem⟩ := mem_segments.mp hj
  by_cases hjn : segmentName log.writer.family j = log.nextName
  · exact le_of_eq (segmentName_injective hj1 (succ_pos _) hjn)
  · have hin := (hothers _ hjn hjmem).1
    exact le_succ_of_le (le_lastIndex (mem_segments.mpr ⟨hj1, hjb, rfl, hin⟩))

/-- When the restatement is read back from its payload, no crash during the rotation loses anything. -/
theorem rotationSafe_of_recoverable (hbase : base.isSegmentBase = true) (hr : Recoverable deps base payload) :
    RotationSafe deps log rs base payload := by
  intro s kept hs k d hcrash
  obtain ⟨⟨n, hn, hlook, hdone⟩, hnext, hothers⟩ := crash_cases h hroom hs hcrash
  have hmem := mem_of_lookup hlook
  refine ⟨?_, ?_⟩
  · split
    · next hwhole =>
      apply readersSelect_of_selected
      exact selected_next hr hbase hroom (succ_pos _) hwhole fun j hj => crash_last h hroom hs hcrash hj
    · next htorn =>
      -- the old segment, cut past its synced part
      have hkept : log.file.take (s.synced log.writer.path) = log.contents.take (s.synced log.writer.path) := by
        rw [contents, take_append_of_le_length hs.synced_le]
      have h8 : headerLen ≤ n := by
        have := length_of_header hs.holds.header
        rw [length_take] at this
        omega
      obtain ⟨m, e, hscan⟩ := scanFile_take (scanFile_of_holds h.holds) h8
      have hsplit : log.contents.take n = log.file.take (s.synced log.writer.path) ++
          (log.contents.drop (s.synced log.writer.path)).take (n - s.synced log.writer.path) := by
        rw [hkept]
        conv => lhs; rw [show n = s.synced log.writer.path + (n - s.synced log.writer.path) by omega, take_add]
      have hprefix : kept <+: rs.take m := by
        rw [hsplit] at hscan
        exact hs.holds.prefix_of_scanFile hscan
      refine ⟨rs.take m, readersSelect_of_selected ⟨?_, ⟨e, ?_⟩, ?_, ?_⟩, hprefix, take_prefix _ _, ?_⟩
      · obtain ⟨h1, hb, hname, _⟩ := mem_segments.mp h.mem
        exact mem_segments.mpr ⟨h1, hb, rfl, by rw [← h.path_eq]; exact hmem⟩
      · rw [← h.path_eq, fileAt_of_lookup hlook]
        exact hscan
      · obtain ⟨more, hmore⟩ := hprefix
        rw [← hmore]
        exact trusted_append hs.trust more
      · intro j hj hjl
        obtain ⟨hj1, hjb, _, hjmem⟩ := mem_segments.mp hjl
        by_cases hjn : segmentName log.writer.family j = log.nextName
        · rw [hjn] at hjmem ⊢
          obtain ⟨m', hm'⟩ := hnext hjmem
          rw [fileAt_of_lookup hm']
          apply untrusted_torn hr.fits
          by_contra hlong
          rw [take_of_length_le (by omega)] at hm'
          exact htorn hm'
        · obtain ⟨hin, hcut⟩ := hothers _ hjn hjmem
          obtain ⟨n', hn'⟩ := hcut (segmentName_ne h.mem hj1 rfl (Nat.ne_of_lt hj))
          rw [hn']
          exact (h.later j hj (mem_segments.mpr ⟨hj1, hjb, rfl, hin⟩)).take n'
      · intro hk
        rw [take_of_length_le (hdone hk), scanFile_of_holds h.holds] at hscan
        exact (records_of_ofRecords (Except.ok.inj hscan)).symm
  · intro next found hopen
    obtain ⟨rs', _, hlive, _⟩ := live_of_openCurrent hopen
    exact hlive.rotationKeeps

omit [DecidableEq β] h hroom in
/-- From the fifth operation on the new file is whole. -/
theorem lookup_next (deps : Deps β) (log : Log) (payload : Bytes) (j : Nat) : (run (settled log.dir)
    ((rotateEffects deps log payload).take (j + 5))).files.lookup log.nextName =
      some (magic ++ frame deps payload) := by
  have hfiles : (run (settled log.dir) ((rotateEffects deps log payload).take (j + 5))).files =
      writeAt (writeAt ((writeAt log.dir log.writer.path log.writer.pos log.writer.buf).insert log.nextName [])
        log.nextName 0 magic) log.nextName headerLen (frame deps payload) := by
    match j with
    | 0 => rfl
    | 1 => rfl
    | j + 2 => rw [take_of_length_le (by simp [rotateEffects, rotateSteps, baseSteps])]; rfl
  rw [hfiles, lookup_base]

omit hroom in
/-- Carried out in full, the readers have to agree on the new file. -/
theorem selects_of_rotationSafe (hsafe : RotationSafe deps log rs base payload) :
    ReadersSelect deps log.writer.family (run (settled log.dir) ((rotateEffects deps log payload).take 7)).files
      (lastIndex log.writer.family log.dir + 1) [base] := by
  obtain ⟨kept, hs⟩ := h.standing
  obtain ⟨hwhole, _⟩ := hsafe _ kept hs 7 _ (crashImage_self _)
  rwa [if_pos (lookup_next deps log payload 2)] at hwhole

/-- So `first_record` has to find a restatement in it. -/
theorem frame_of_rotationSafe (hsafe : RotationSafe deps log rs base payload) :
    ∃ bytes found n, frameHead deps headerLen (frame deps payload) = .frame (bytes, found) n ∧
      found.isSegmentBase = true := by
  have hlast : log.writer.segmentIndex ≤ lastIndex log.writer.family log.dir := le_lastIndex h.mem
  have hpos := (mem_segments.mp h.mem).1
  have hlook := lookup_next deps log payload 2
  obtain ⟨first, hfirst, hbase⟩ := (selects_of_rotationSafe h hsafe).firstRecord _ (le_refl _) (by omega)
    (mem_segments.mpr ⟨by omega, hroom, rfl, mem_of_lookup hlook⟩)
  rw [← nextName, fileAt_of_lookup hlook, firstRecord_eq (take_magic_append _), drop_magic_append] at hfirst
  have hfound := hbase.mpr rfl
  cases hh : frameHead deps headerLen (frame deps payload) with
  | stop => rw [hh] at hfirst; cases hfirst; cases hfound
  | fail e => rw [hh] at hfirst; cases hfirst
  | frame a n =>
    rw [hh] at hfirst
    cases hfirst
    exact ⟨a.1, a.2, n, rfl, hfound⟩

/-- A restatement longer than the length field: a part of the new segment already
starts with a restatement. -/
theorem fits_of_rotationSafe (hsafe : RotationSafe deps log rs base payload) : Fits payload := by
  by_contra hlong
  have hlast : log.writer.segmentIndex ≤ lastIndex log.writer.family log.dir := le_lastIndex h.mem
  have hpos := (mem_segments.mp h.mem).1
  obtain ⟨kept, hs⟩ := h.standing
  obtain ⟨bytes, first, n, hh, hfirst⟩ := frame_of_rotationSafe h hroom hsafe
  -- that frame is shorter than the file, and a crash can leave exactly it
  have hn := (frameHead_eq_frame.mp hh).1
  rw [ofBytes_frame] at hn
  have hshort : n < (frame deps payload).length := by
    rw [frame_length]
    unfold Fits at hlong
    omega
  have hlook := lookup_next deps log payload 0
  have hsynced : (run (settled log.dir)
      ((rotateEffects deps log payload).take 5)).synced log.nextName ≤ headerLen + n := by
    have hmin : (run (settled log.dir) ((rotateEffects deps log payload).take 5)).synced log.nextName =
        min ((run (settled log.dir)
          ((rotateEffects deps log payload).take 4)).synced log.nextName) headerLen := update_self _ _ _
    omega
  obtain ⟨htorn, _⟩ := hsafe _ kept hs 5 _ (crashImage_cut (mem_of_lookup hlook) hsynced)
  have hcut : (setLen (run (settled log.dir)
      ((rotateEffects deps log payload).take 5)).files log.nextName (headerLen + n)).lookup log.nextName =
      some (magic ++ (frame deps payload).take n) := by
    rw [setLen, AList.lookup_insert, fileAt_of_lookup hlook, ← magic_length, take_length_add_append]
  have hne : ¬ some (magic ++ (frame deps payload).take n) = some (magic ++ frame deps payload) := by
    intro he
    have := congrArg length (some.inj he)
    rw [length_append, length_append, length_take] at this
    omega
  rw [hcut, if_neg hne] at htorn
  obtain ⟨found, hsel, _⟩ := htorn
  obtain ⟨again, hagain, hbase⟩ := hsel.firstRecord (lastIndex log.writer.family log.dir + 1) (by omega) (by omega)
    (mem_segments.mpr ⟨by omega, hroom, rfl, mem_of_lookup hcut⟩)
  rw [← nextName, fileAt_of_lookup hcut, firstRecord_eq (take_magic_append _), drop_magic_append,
    show frameHead deps headerLen ((frame deps payload).take n) = .frame (bytes, first) n from
      (frameReader deps).head_take hh] at hagain
  cases hagain
  have := hbase.mp hfirst
  omega

/-- The open that follows a rotation carried out in full has read the restatement. -/
theorem recoverable_of_rotationSafe (hsafe : RotationSafe deps log rs base payload) :
    Recoverable deps base payload := by
  obtain ⟨kept, hs⟩ := h.standing
  obtain ⟨bytes, first, n, hh, hfirst⟩ := frame_of_rotationSafe h hroom hsafe
  have hread := frameHead_frame (fits_of_rotationSafe h hroom hsafe) hh
  obtain ⟨_, hopen, _⟩ := (selects_of_rotationSafe h hsafe).openCurrent
  have hsel := selected_next hread hfirst hroom (succ_pos _) (lookup_next deps log payload 2)
    fun j hj => crash_last h hroom hs (crashImage_self _) hj
  obtain ⟨_, hopen', _⟩ := (readersSelect_of_selected hsel).openCurrent
  have hrecords := sequenced_injective (Prod.mk.inj (Except.ok.inj (hopen.symm.trans hopen'))).2
  obtain rfl : base = first := (List.cons.inj hrecords).1
  exact hread

end

/-- With the ordinals used up, a rotation is refused before it touches a file. -/
theorem rotate_exhausted (faults : Faults) (base : WalRecord β)
    (hfull : ¬ lastIndex log.writer.family log.dir + 1 < u64Bound) :
    ∃ e, log.rotate deps faults base = (.error e, log) := by
  unfold Log.rotate
  split
  · exact ⟨_, rfl⟩
  · rw [if_pos (by omega)]
    exact ⟨_, rfl⟩

/-- Rotating a log in use: the operations are those `rotate` carries out, and a crash
at any point among them loses nothing exactly when the restatement is read back from
its payload. -/
theorem rotationSafe_iff_recoverable (hrun : Run deps family log rs) (hbase : base.isSegmentBase = true)
    (hp : encodePayload deps base = .ok payload) :
    if lastIndex log.writer.family log.dir + 1 < u64Bound then
      RotatesBy deps log base payload ∧ (RotationSafe deps log rs base payload ↔ Recoverable deps base payload)
    else ∀ faults, ∃ e, log.rotate deps faults base = (.error e, log) := by
  have hlive := hrun.live.1
  split
  · next hroom =>
    exact ⟨rotatesBy hlive hroom hp,
      recoverable_of_rotationSafe hlive hroom, rotationSafe_of_recoverable hlive hroom hbase⟩
  · next hfull => exact fun faults => rotate_exhausted faults base hfull

/-- The log `openCurrent` makes where there is none. -/
def newLog : Log :=
  (fromScan (writeAt ((∅ : Dir).insert logName []) logName 0 magic) logName logName true
    (Scan.empty (τ := Nat × WalRecord Bytes))).1

theorem run_newLog : Run textDeps logName newLog [] := by
  have hnone : segments logName (∅ : Dir) = [] := by simp [segments]
  apply Run.opened (d := ∅)
  unfold openCurrent openCurrentKept
  rw [hnone]
  rfl

theorem newLog_room : lastIndex newLog.writer.family newLog.dir + 1 < u64Bound := by decide +kernel

/-- A restatement whose text has `n` characters more than it needs. -/
def baseText (n : Nat) : Bytes := baseKind ++ List.replicate n 0x20 ++ asciiBytes "\x7d"

theorem baseText_kind (n : Nat) : baseKind <+: baseText n := by
  rw [baseText, append_assoc]
  exact prefix_append _ _

theorem baseText_length (n : Nat) : (baseText n).length = n + 26 := by
  rw [baseText, length_append, length_append, length_replicate]
  have h1 : baseKind.length = 25 := by decide
  have h2 : (asciiBytes "\x7d").length = 1 := by decide
  omega

/-- A log with one note in its file and one in the buffer. -/
def noteLog : Log :=
  ((newLog.append textDeps none (.other (noteText 1))).2.flushed.append textDeps none (.other (noteText 2))).2

theorem note_recoverable {n : Nat} (h : n < 2^31) : encodePayload textDeps (.other (noteText n)) = .ok (noteText n) ∧
    Recoverable textDeps (.other (noteText n)) (noteText n) := by
  have hw : writeRecord textDeps (.other (noteText n)) = .ok (noteText n) := by
    cases serialized_notes [n] with
    | cons hw _ => exact hw
  refine ⟨by rw [encodePayload_eq textDeps_lawful, hw], textDeps_lawful.recoverable hw ?_⟩
  unfold Fits
  rw [noteText_length]
  omega

theorem run_noteLog : Run textDeps logName noteLog [.other (noteText 1), .other (noteText 2)] := by
  have h1 := note_recoverable (n := 1) (by decide)
  have h2 := note_recoverable (n := 2) (by decide)
  exact ((run_newLog.appended h1.1 h1.2).flushed).appended h2.1 h2.2

theorem base_recoverable {n : Nat} (h : n < 2^31) :
    encodePayload textDeps (.segmentBase none 0 [] (baseText n)) = .ok (baseText n) ∧
      Recoverable textDeps (.segmentBase none 0 [] (baseText n)) (baseText n) := by
  have hw := textDeps_base (baseText_kind n)
  refine ⟨by rw [encodePayload_eq textDeps_lawful, hw], textDeps_lawful.recoverable hw ?_⟩
  unfold Fits
  rw [baseText_length]
  omega

theorem rotationSafe_noteLog : RotatesBy textDeps noteLog (.segmentBase none 0 [] (baseText 0)) (baseText 0) ∧
    RotationSafe textDeps noteLog [.other (noteText 1), .other (noteText 2)] (.segmentBase none 0 [] (baseText 0))
      (baseText 0) := by
  have hbase := base_recoverable (n := 0) (by decide)
  have hsafe := rotationSafe_iff_recoverable run_noteLog rfl hbase.1
  rw [if_pos (by decide +kernel)] at hsafe
  exact ⟨hsafe.1, hsafe.2.mpr hbase.2⟩

/-- A restatement of more than 2^32 characters is written, synced, and not trusted as a whole. -/
theorem not_rotationSafe_long_base :
    ¬ RotationSafe textDeps newLog [] (.segmentBase none 0 [] (baseText (2^32))) (baseText (2^32)) := by
  intro h
  have hfit := fits_of_rotationSafe run_newLog.live.1 newLog_room h
  unfold Fits at hfit
  rw [baseText_length] at hfit
  omega

end LiquidityMigration.Wal
