import LiquidityMigration.Wal.RotationCrash

/- A rotation that returns an error. The writer keeps the old segment and may go on appending, so the next open must
   not select the new file (`KeepsAppends`). That holds exactly when a step up to the last byte of the new segment
   failed (`failedRotation_keepsAppends_iff`); a sync that fails after it leaves a whole restatement under the
   highest number. -/
namespace LiquidityMigration.Wal
open Framing Disk List Log

variable {β : Type} [DecidableEq β]

/-- Whatever is appended to the log from here on and flushed, if only it is read back
as it was written, the next `openCurrent` replays it, under the sequence the append
returned. -/
def KeepsAppends (deps : Deps β) (log : Log) : Prop :=
  ∀ new ps, List.Forall₂ (fun r p => encodePayload deps r = .ok p ∧ Recoverable deps r p) new ps →
    ∃ next, log.appendAll deps new = .ok next ∧
      ∃ opened found, openCurrent deps log.writer.family next.flushed.dir = .ok (opened, found) ∧
        ∀ i r, new[i]? = some r → (log.writer.nextSeq + i, r) ∈ found

variable {deps : Deps β} {family : Name} {log after : Log} {rs : List (WalRecord β)} {base : WalRecord β}
  {payload : Bytes} {faults : Faults} {e : WalError}

omit [DecidableEq β] in
theorem mem_sequenced_append {new : List (WalRecord β)} {i : Nat} {r : WalRecord β} (h : new[i]? = some r) :
    (rs.length + 1 + i, r) ∈ sequenced (rs ++ new) := by
  rw [sequenced_append]
  apply mem_append_right
  apply mem_map.mpr
  exact ⟨(r, rs.length + 1 + i), mk_add_mem_zipIdx_iff_getElem?.mpr h, rfl⟩

theorem Live.keepsAppends (h : Live deps log rs) : KeepsAppends deps log := by
  intro new ps hnew
  obtain ⟨next, happ, hlive, hsame⟩ := h.appendAll hnew
  have hsel := hlive.flushed.selected (pushToOs_none hlive.atEnd).2.2.2
  rw [next.flushed_same.family, hsame.family] at hsel
  obtain ⟨opened, hopen, _⟩ := (readersSelect_of_selected hsel).openCurrent
  refine ⟨next, happ, opened, _, hopen, ?_⟩
  intro i r hr
  rw [h.seq]
  exact mem_sequenced_append hr

/-- With the new segment whole and the writer still in the old one, two records
appended there are not both replayed. -/
theorem not_keepsAppends_of_written (h : Live deps log rs) (hbase : base.isSegmentBase = true)
    (hr : Recoverable deps base payload) (hw : BaseWritten deps faults base log payload)
    (hsync : syncFails faults = true) :
    ¬ KeepsAppends deps (log.rotate deps faults base).2 := by
  intro hkeep
  have hp := hw.next.encoded
  obtain ⟨archived, harch, hnext, hothers, hres⟩ := h.rotate_written hw
  rw [if_pos hsync] at hres
  generalize log.rotate deps faults base = out at hnext hothers hres hkeep
  obtain ⟨res, after⟩ := out
  simp only at hnext hothers hres hkeep
  obtain ⟨_, hwriter⟩ := hres
  have hpath : after.writer.path = log.writer.path := by rw [hwriter, harch.same.path]
  have hfam : after.writer.family = log.writer.family := by rw [hwriter, harch.same.family]
  have hne := ne_nextName hw.room h.here
  have hlook : after.dir.lookup after.writer.path = archived.dir.lookup archived.writer.path := by
    rw [hothers _ (by rw [hpath]; exact hne), hwriter]
  have hend : after.AtEnd := by
    have hfile : after.file = archived.file := by rw [file, fileAt, hlook]; rfl
    refine ⟨?_, ?_⟩
    · rw [hfile, hwriter]; exact harch.live.atEnd.pos_eq
    · rw [hfile, hwriter]; exact harch.live.atEnd.bytes_eq
  obtain ⟨next, happ, opened, found, hopen, hfound⟩ := hkeep [base, base] [payload, payload]
    (.cons ⟨hp, hr⟩ (.cons ⟨hp, hr⟩ .nil))
  -- the appends touch the old segment only, so the whole restatement is still there
  obtain ⟨next', happ', _, hsame, _, _⟩ := appendAll_ok (.cons hp (.cons hp .nil)) hend
  obtain rfl : next = next' := Except.ok.inj (happ.symm.trans happ')
  have hsame' := hsame.trans next.flushed_same
  have hkept : ∀ name, name ≠ log.writer.path → next.flushed.dir.lookup name = after.dir.lookup name := by
    intro name hn
    exact hsame'.others name (by rw [hpath]; exact hn)
  have hsel : Selected deps log.writer.family next.flushed.dir (lastIndex log.writer.family log.dir + 1) [base] := by
    refine selected_next hr hbase hw.room (Nat.succ_pos _) ?_ ?_
    · show next.flushed.dir.lookup log.nextName = _
      rw [hkept _ (Ne.symm hne), hnext]
    · intro j hj
      obtain ⟨hj1, hjb, _, hjmem⟩ := mem_segments.mp hj
      by_cases hjn : segmentName log.writer.family j = log.nextName
      · exact Nat.le_of_eq (segmentName_injective hj1 (Nat.succ_pos _) hjn)
      · by_cases hjp : segmentName log.writer.family j = log.writer.path
        · have hlt := fresh_lastIndex _ _ _ _ h.mem
          rw [h.path_eq] at hjp
          rw [segmentName_injective hj1 (mem_segments.mp h.mem).1 hjp]
          exact Nat.le_of_lt hlt
        · have hin := mem_congr ((hkept _ hjp).trans (hothers _ hjn)) hjmem
          exact Nat.le_of_lt (harch.fresh j _ (mem_segments.mpr ⟨hj1, hjb, rfl, hin⟩))
  obtain ⟨opened', hopen', _⟩ := (readersSelect_of_selected hsel).openCurrent
  rw [hfam] at hopen
  have hrecords := (Prod.mk.inj (Except.ok.inj (hopen.symm.trans hopen'))).2
  have hsecond := hfound 1 base rfl
  have hseq := harch.live.seq
  rw [← hwriter] at hseq
  rw [hrecords, hseq] at hsecond
  simp only [sequenced, zipIdx_cons, zipIdx_nil, map_cons, map_nil, mem_singleton,
    Prod.swap_prod_mk, Prod.mk.injEq] at hsecond
  omega

/-- After a rotation that returned an error, whose push of the buffer was not
torn: everything appended afterwards is replayed exactly when one of the steps up
to the last byte of the new segment had failed. -/
theorem failedRotation_keepsAppends_iff (hrun : Run deps family log rs) (hbase : base.isSegmentBase = true)
    (hr : ∀ p, encodePayload deps base = .ok p → Recoverable deps base p)
    (hclean : CleanPush faults log) (herr : log.rotate deps faults base = (.error e, after)) :
    KeepsAppends deps after ↔ ∀ p, ¬ BaseWritten deps faults base log p := by
  have hlive := hrun.live.1
  have hafter : after = (log.rotate deps faults base).2 := by rw [herr]
  constructor
  · intro hkeep p hw
    rw [hafter] at hkeep
    have hsync : syncFails faults = true := by
      obtain ⟨_, _, _, _, hres⟩ := hlive.rotate_written hw
      by_contra hno
      rw [if_neg hno, herr] at hres
      cases hres.1
    exact not_keepsAppends_of_written hlive hbase (hr p hw.next.encoded) hw hsync hkeep
  · intro hun
    rw [hafter]
    exact (hlive.rotate_unwritten hclean (fun p hp => (hr p hp).fits) hun).1.keepsAppends

def dirSyncFails : Faults := failsAt .syncDir 0

def createFails : Faults := failsAt .create 0

def shortBase : WalRecord Bytes := .segmentBase none 0 [] (baseText 0)

theorem shortBase_recoverable : ∀ p, encodePayload textDeps shortBase = .ok p → Recoverable textDeps shortBase p := by
  intro p hp
  obtain ⟨hbase, hr⟩ := base_recoverable (n := 0) (by decide)
  cases hbase.symm.trans hp
  exact hr

theorem keepsAppends_createFails : (∃ e, (noteLog.rotate textDeps createFails shortBase).1 = .error e) ∧
      KeepsAppends textDeps (noteLog.rotate textDeps createFails shortBase).2 := by
  have hclean : CleanPush createFails noteLog := fun n hn => by cases hn
  have hun : ∀ p, ¬ BaseWritten textDeps createFails shortBase noteLog p := by
    intro p hw
    cases hw.next.create
  obtain ⟨_, e, he⟩ := run_noteLog.live.1.rotate_unwritten hclean (fun p hp => (shortBase_recoverable p hp).fits) hun
  exact ⟨⟨e, he⟩, (failedRotation_keepsAppends_iff run_noteLog rfl shortBase_recoverable hclean
    (Prod.ext he rfl)).mpr hun⟩

/-- The directory sync fails after the new segment is whole: the rotation returns
an error, and what is then appended is not replayed. -/
theorem not_keepsAppends_dirSyncFails :
    (newLog.rotate textDeps dirSyncFails shortBase).1 = .error (.io "fsync failed") ∧
      ¬ KeepsAppends textDeps (newLog.rotate textDeps dirSyncFails shortBase).2 := by
  have hlive := run_newLog.live.1
  have hp : encodePayload textDeps shortBase = .ok (baseText 0) := (base_recoverable (by decide)).1
  have hw : BaseWritten textDeps dirSyncFails shortBase newLog (baseText 0) :=
    ⟨rfl, newLog_room, rfl, rfl, ⟨rfl, rfl, hp, rfl⟩⟩
  have hsync : syncFails dirSyncFails = true := rfl
  obtain ⟨_, _, _, _, hres⟩ := hlive.rotate_written hw
  rw [if_pos hsync] at hres
  exact ⟨hres.1, not_keepsAppends_of_written hlive rfl (shortBase_recoverable _ hp) hw hsync⟩

end LiquidityMigration.Wal
