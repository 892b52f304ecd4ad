import LiquidityMigration.Wal.Readers
import LiquidityMigration.Wal.Recovery

/- Boot opens its log through a filter and holds only the records that it reads. The filter changes what a scan
   returns and nothing the writer is made from (`scanFileWith_cases`), and which segment is opened does not depend on
   it (`openFrom_eq`). Walking down it is asked about the records of the newer segments too, and one with a state
   comes to the opened segment in the state these have left (`filtered_open_same_boot`); `bootFilter` may have spent
   its one survivor on them (`bootFilter_survivor_spent`). -/
namespace LiquidityMigration.Wal
open Framing Disk List

variable {β τ κ : Type} {deps : Deps β} {bytes : Bytes} {family : Name} {d : Dir}

/-- A predicate as the pair-building form that a scan takes. -/
def kept (keep : WalRecord β → κ → Bool × κ) (sequence : Nat) (record : WalRecord β) (k : κ) :
    Option (Nat × WalRecord β) × κ :=
  (if (keep record k).1 then some (sequence, record) else none, (keep record k).2)

def openCurrentWith (deps : Deps β) (keep : WalRecord β → κ → Bool × κ) (family : Name) (d : Dir) (k : κ) :
    Except WalError (Log × List (Nat × WalRecord β)) :=
  openCurrentKept deps (kept keep) family d k

/-- What a predicate answers about records, asked about one after another. -/
def answers (keep : WalRecord β → κ → Bool × κ) : κ → List (WalRecord β) → List Bool
  | _, [] => []
  | k, record :: rest => (keep record k).1 :: answers keep (keep record k).2 rest

/-- The state it is in then. -/
def stateAfter (keep : WalRecord β → κ → Bool × κ) (k : κ) (records : List (WalRecord β)) : κ :=
  records.foldl (fun k record => (keep record k).2) k

/-- The rows that are answered with yes. -/
def accepted (rows : List (Nat × WalRecord β)) (bs : List Bool) : List (Nat × WalRecord β) :=
  ((rows.zip bs).filter Prod.snd).map Prod.fst

/-- The records that are read from a file; none, where it is no log. -/
def recordsIn (deps : Deps β) (bytes : Bytes) : List (WalRecord β) :=
  match scanFile deps bytes with
  | .ok scan => scan.records.map Prod.snd
  | .error _ => []

/-- The records of the segments above one of the family, the newest first. -/
def newerRecords (deps : Deps β) (family : Name) (d : Dir) (index : Nat) : List (WalRecord β) :=
  ((segments family d).reverse.filter (fun c => index < c.1)).flatMap (fun c => recordsIn deps (fileAt d c.2))

/-- The rows of the candidates that are scanned and not trusted, up to the one that is opened. -/
def passedOver (deps : Deps β) (d : Dir) : List (Nat × Name) → List (Nat × WalRecord β)
  | [] => []
  | (index, path) :: older =>
    if (fileAt d path).length = 0 then
      if index ≤ 1 then [] else passedOver deps d older
    else
      match scanFile deps (fileAt d path) with
      | .error (.corrupt 0 _) => if 1 < index then passedOver deps d older else []
      | .error _ => []
      | .ok scan => if trusted index scan.startsWithBase then [] else scan.records ++ passedOver deps d older

variable (keep : Nat → WalRecord β → κ → Option τ × κ)

/-- The scan with what a filter keeps of its rows. -/
def Scan.filtered (k : κ) (scan : Scan (Nat × WalRecord β)) : Scan τ :=
  ⟨(keptFrom keep scan.records k).1, scan.goodEnd, scan.decoded, scan.startsWithBase⟩

theorem scanFileWith_bad_header (h : bytes.take headerLen ≠ magic) (keep : Nat → WalRecord β → κ → Option τ × κ)
    (k : κ) : ∃ detail, scanFile deps bytes = .error (.corrupt 0 detail) ∧
      scanFileWith deps keep bytes k = (.error (.corrupt 0 detail), k) := by
  by_cases hl : bytes.length < headerLen
  · exact ⟨"file is too short to carry the log header", by
      simp [scanFile, scanFileWith, scanFrames, hl, Except.map]⟩
  · exact ⟨"not an engine log: the magic at the start does not match", by
      simp [scanFile, scanFileWith, scanFrames, hl, h, Except.map]⟩

theorem scanFileWith_cases (deps : Deps β) (bytes : Bytes) (keep : Nat → WalRecord β → κ → Option τ × κ) (k : κ) :
    (∃ detail, scanFile deps bytes = .error (.corrupt 0 detail) ∧
      scanFileWith deps keep bytes k = (.error (.corrupt 0 detail), k)) ∨
    (∃ e k', (∀ detail, e ≠ .corrupt 0 detail) ∧ scanFile deps bytes = .error e ∧
      scanFileWith deps keep bytes k = (.error e, k')) ∨
    ∃ scan, scanFile deps bytes = .ok scan ∧
      scanFileWith deps keep bytes k = (.ok (scan.filtered keep k), (keptFrom keep scan.records k).2) := by
  by_cases h : bytes.take headerLen = magic
  · right
    have hfile := @scanFile_eq β bytes deps h
    have hwith := @scanFileWith_eq β τ κ bytes deps h keep k
    cases hend : (frames deps bytes).2 with
    | error e =>
      rw [hend] at hfile hwith
      refine .inl ⟨e, _, ?_, hfile, hwith⟩
      rintro detail rfl
      exact bad_header_of_scanFile hfile h
    | ok goodEnd =>
      rw [hend] at hfile hwith
      exact .inr ⟨_, hfile, by simpa [Except.map, Scan.filtered, Scan.ofRecords] using hwith⟩
  · exact .inl (scanFileWith_bad_header h keep k)

theorem openSegmentWith_eq (path : Name) (k : κ) : openSegmentWith deps keep path family true d k =
      (openSegmentWith deps keepAll path family true d ()).map (fun opened =>
        (opened.1, (keptFrom keep opened.2 k).1)) := by
  unfold openSegmentWith
  dsimp only
  generalize (if path ∈ d then d else d.insert path []) = dir
  split
  · rfl
  · rw [scanFileWith_keepAll]
    obtain ⟨detail, hfile, hwith⟩ | ⟨e, k', -, hfile, hwith⟩ | ⟨scan, hfile, hwith⟩ :=
      scanFileWith_cases deps (fileAt dir path) keep k
    all_goals
      rw [hfile, hwith]
      rfl

theorem keptFrom_append (rows rows' : List (Nat × WalRecord β)) (k : κ) :
    (keptFrom keep (rows ++ rows') k).2 = (keptFrom keep rows' (keptFrom keep rows k).2).2 := by
  induction rows generalizing k with
  | nil => rfl
  | cons row rows ih => exact ih _

theorem openFrom_eq (candidates : List (Nat × Name)) (k : κ) : openFrom deps keep family d candidates k =
      (openFrom deps keepAll family d candidates ()).map (fun opened =>
        (opened.1, (keptFrom keep opened.2 (keptFrom keep (passedOver deps d candidates) k).2).1)) := by
  induction candidates generalizing k with
  | nil => exact openSegmentWith_eq keep family k
  | cons candidate older ih =>
    obtain ⟨index, path⟩ := candidate
    simp only [openFrom, passedOver]
    split
    · split
      · exact openSegmentWith_eq keep path k
      · exact ih k
    · rw [scanFileWith_keepAll]
      obtain ⟨detail, hfile, hwith⟩ | ⟨e, k', hne, hfile, hwith⟩ | ⟨scan, hfile, hwith⟩ :=
        scanFileWith_cases deps (fileAt d path) keep k
      · rw [hfile, hwith]
        by_cases hi : 1 < index
        · simp only [if_pos hi]
          exact ih k
        · simp only [if_neg hi]
          rfl
      · -- a segment that cannot be read ends the walk, whatever the filter has seen of it
        rw [hfile, hwith]
        cases e with
        | io text => rfl
        | corrupt offset detail =>
          cases offset with
          | zero => exact absurd rfl (hne detail)
          | succ offset => rfl
      · rw [hfile, hwith]
        dsimp only
        rw [show (scan.filtered keep k).startsWithBase = scan.startsWithBase from rfl]
        split
        · rfl
        · rw [keptFrom_append]
          exact ih _

theorem keptFrom_kept (keep : WalRecord β → κ → Bool × κ) (rows : List (Nat × WalRecord β)) (k : κ) :
    keptFrom (kept keep) rows k =
      (accepted rows (answers keep k (rows.map Prod.snd)), stateAfter keep k (rows.map Prod.snd)) := by
  induction rows generalizing k with
  | nil => rfl
  | cons row rows ih =>
    simp only [keptFrom, kept, ih, map_cons, answers, stateAfter, foldl_cons, accepted, zip_cons_cons]
    cases (keep row.2 k).1 <;> rfl

/-! ## The segments above the opened one -/

theorem passedOver_untrusted {index : Nat} {path : Name} {older : List (Nat × Name)} (hi : 1 < index)
    (h : Untrusted deps (fileAt d path)) : (passedOver deps d ((index, path) :: older)).map Prod.snd =
      recordsIn deps (fileAt d path) ++ (passedOver deps d older).map Prod.snd := by
  obtain ⟨detail, hscan⟩ | ⟨rs, e, hscan, hbase⟩ := h.scan_cases
  · simp only [passedOver, recordsIn, hscan, if_pos hi, nil_append]
    split
    · rw [if_neg (by omega)]
    · rfl
  · have htrust : trusted index (Scan.ofRecords rs e).startsWithBase = false := trusted_of_untrusted hi hbase
    simp [passedOver, recordsIn, hscan, ne_nil_of_scanFile hscan, htrust]

theorem passedOver_opened {out : Log × List (Nat × WalRecord β)} {older : List (Nat × Name)}
    (h : Opened deps family d out older) : passedOver deps d older = [] := by
  cases h with
  | fresh _ => rfl
  | empty hempty _ => simp [passedOver, hempty]
  | scanned hscan htrust _ =>
    simp [passedOver, ne_nil_of_scanFile hscan, hscan, htrust]

theorem passedOver_append {older newer : List (Nat × Name)} {out : Log × List (Nat × WalRecord β)}
    (hun : ∀ c ∈ newer, 1 < c.1 ∧ Untrusted deps (fileAt d c.2)) (h : Opened deps family d out older) :
    (passedOver deps d (newer ++ older)).map Prod.snd = newer.flatMap (fun c => recordsIn deps (fileAt d c.2)) := by
  induction newer with
  | nil => simp [passedOver_opened h]
  | cons c newer ih =>
    obtain ⟨⟨hi, hc⟩, hrest⟩ := forall_mem_cons.mp hun
    rw [cons_append, passedOver_untrusted hi hc, ih hrest, flatMap_cons]

theorem openSegmentWith_path {path : Name} {k : κ} {out : Log × List τ}
    (h : openSegmentWith deps keep path family true d k = .ok out) : out.1.writer.path = path := by
  unfold openSegmentWith at h
  dsimp only at h
  generalize (if path ∈ d then d else d.insert path []) = dir at h
  split at h
  · cases h
    rfl
  · cases hscan : (scanFileWith deps keep (fileAt dir path) k).1 with
    | error e => rw [hscan] at h; cases h
    | ok scan => rw [hscan] at h; cases h; rfl

/-- The opened segment is the first candidate that was not passed over, or the family's first. -/
theorem Opened.index_eq {out : Log × List (Nat × WalRecord β)} {older : List (Nat × Name)} {index : Nat}
    (h : Opened deps family d out older) (hmem : ∀ c ∈ older, c ∈ segments family d) (hindex : 1 ≤ index)
    (hpath : out.1.writer.path = segmentName family index) : index = (older.head?.map Prod.fst).getD 1 := by
  cases h with
  | fresh hseg =>
    rw [openSegmentWith_path keepAll hseg] at hpath
    exact (segmentName_injective (le_refl 1) hindex hpath).symm
  | @empty path rest _ hseg =>
    have hin := mem_segments.mp (hmem (1, path) (by simp))
    rw [openSegmentWith_path keepAll hseg, hin.2.2.1] at hpath
    exact (segmentName_injective hin.1 hindex hpath).symm
  | @scanned i path rest scan _ _ hout =>
    have hin := mem_segments.mp (hmem (i, path) (by simp))
    rw [hout] at hpath
    have hname : path = segmentName family index := hpath
    rw [hin.2.2.1] at hname
    exact (segmentName_injective hin.1 hindex hname).symm

/-- What the walk passes over before it opens a segment are the records of those above it. -/
theorem passedOver_eq {out : Log × List (Nat × WalRecord β)} (h : openCurrent deps family d = .ok out) :
    (passedOver deps d (segments family d).reverse).map Prod.snd =
      newerRecords deps family d out.1.writer.segmentIndex := by
  obtain ⟨newer, older, hlist, hun, hopen⟩ := openFrom_cases
    (fun c hc => (mem_segments.mp (show (c.1, c.2) ∈ segments family d from mem_reverse.mp hc)).1) h
  obtain ⟨d', index, rs, e, hsel, hscan, hout⟩ := openCurrent_selected h
  have hindex : out.1.writer.segmentIndex = index := by
    rw [hout]
    exact (fromScan_writer hsel.mem _).1
  have hhead : index = (older.head?.map Prod.fst).getD 1 := by
    refine hopen.index_eq (fun c hc => mem_reverse.mp (by rw [hlist]; exact mem_append_right _ hc))
      (mem_segments.mp hsel.mem).1 ?_
    rw [hout]
    rfl
  have hdown : (newer ++ older).Pairwise (fun a b => b.1 < a.1) := by
    rw [← hlist, pairwise_reverse]
    exact segments_ascending family d
  have habove : ∀ c ∈ newer, index < c.1 := by
    intro c hc
    rw [hhead]
    cases older with
    | nil => exact (hun c hc).1
    | cons first older => exact (pairwise_append.mp hdown).2.2 c hc first (by simp)
  have hbelow : ∀ c ∈ older, ¬ index < c.1 := by
    intro c hc
    rw [hhead]
    cases older with
    | nil => cases hc
    | cons first older =>
      obtain rfl | hrest := mem_cons.mp hc
      · exact lt_irrefl _
      · exact not_lt.mpr (le_of_lt ((pairwise_cons.mp (pairwise_append.mp hdown).2.1).1 c hrest))
  rw [hlist, passedOver_append hun hopen, newerRecords, hindex, hlist, filter_append,
    filter_eq_self.mpr (by simpa using habove), filter_eq_nil_iff.mpr (by simpa using hbelow), append_nil]

/-- **A filtered boot is the same boot**: it fails as the unfiltered one does, or makes the same writer
over the same files, and it returns those of the unfiltered rows that the predicate answers with yes,
asked about the records of the newer segments first. -/
theorem filtered_open_same_boot (deps : Deps β) (keep : WalRecord β → κ → Bool × κ) (family : Name) (d : Dir) (k : κ) :
    openCurrentWith deps keep family d k = (openCurrent deps family d).map (fun opened =>
      (opened.1, accepted opened.2 (answers keep
        (stateAfter keep k (newerRecords deps family d opened.1.writer.segmentIndex)) (opened.2.map Prod.snd)))) := by
  have heq : openCurrentWith deps keep family d k = _ := openFrom_eq (kept keep) (segments family d).reverse k
  cases hopen : openCurrent deps family d with
  | error e => rw [heq, show openFrom deps keepAll family d (segments family d).reverse () = _ from hopen]; rfl
  | ok opened =>
    rw [heq, show openFrom deps keepAll family d (segments family d).reverse () = _ from hopen]
    simp only [Except.map, keptFrom_kept, passedOver_eq hopen]

/-! ## The filter of boot -/

/-- Whether a reader on the boot path matches the record's kind. `telemetry` marks the
bodies of the seven kinds that none does; all of them are `other` here. -/
def bootReads (telemetry : β → Bool) : WalRecord β → Bool
  | .other body => !telemetry body
  | _ => true

/-- `bootReads`, plus the first record it refuses. The state is `kept_refused`. -/
def bootFilter (telemetry : β → Bool) (record : WalRecord β) (keptRefused : Bool) : Bool × Bool :=
  if bootReads telemetry record then (true, keptRefused) else (!keptRefused, true)

def verdictText : Bytes := asciiBytes "\x7b\"kind\":\"verdict\"\x7d"

/-- A log of verdicts, which carry their own JSON text as their body. -/
def verdictDeps : Deps Bytes where
  toWriter := fun
    | .tagged (.other text) => .ok text
    | _ => .error "not a kind of this log"
  readRecord := fun payload => if payload = [] then .error "EOF while parsing a value" else .ok (.other payload)
  crc32c := castagnoli
  debugAssertions := false

/-- A first segment with one verdict, and a second one that starts with a verdict in place of a restatement. -/
def twoSegments : Dir :=
  ((∅ : Dir).insert logName (magic ++ frame verdictDeps verdictText)).insert (segmentName logName 2)
    (magic ++ frame verdictDeps verdictText)

theorem verdict_holds : Holds verdictDeps (magic ++ frame verdictDeps verdictText) [.other verdictText] :=
  (holds_magic verdictDeps).append ⟨by decide, by decide, by decide⟩

theorem twoSegments_listed : segments logName twoSegments = [(1, logName), (2, segmentName logName 2)] := by
  have hperm : (segments logName twoSegments).Perm [(1, logName), (2, segmentName logName 2)] := by
    refine (perm_ext_iff_of_nodup (segments_nodup _ _) (by simp)).mpr ?_
    rintro ⟨j, name⟩
    rw [mem_segments]
    constructor
    · rintro ⟨hj, -, rfl, hin⟩
      simp only [twoSegments, AList.mem_insert, AList.notMem_empty, or_false] at hin
      obtain htwo | hone := hin
      · obtain rfl := segmentName_injective hj (by decide) htwo
        simp
      · obtain rfl := segmentName_injective hj (le_refl 1) hone
        simp [segmentName]
    · intro hin
      obtain ⟨rfl, rfl⟩ | ⟨rfl, rfl⟩ : (j = 1 ∧ name = logName) ∨ j = 2 ∧ name = segmentName logName 2 := by
        simpa using hin
      · exact ⟨le_refl 1, by decide, rfl, (AList.mem_insert _).mpr (.inr ((AList.mem_insert _).mpr (.inl rfl)))⟩
      · exact ⟨by decide, by decide, rfl, (AList.mem_insert _).mpr (.inl rfl)⟩
  exact hperm.eq_of_pairwise (fun _ _ _ _ hab hba => absurd hab (lt_asymm hba)) (segments_ascending _ _) (by simp)

theorem twoSegments_open : ∃ log, openCurrent verdictDeps logName twoSegments = .ok (log, [(1, .other verdictText)]) ∧
    log.writer.segmentIndex = 1 := by
  have hsel : Selected verdictDeps logName twoSegments 1 [.other verdictText] := by
    refine ⟨by rw [twoSegments_listed]; simp [segmentName], ⟨_, scanFile_of_holds verdict_holds⟩, rfl, ?_⟩
    intro j hj hlisted
    rw [twoSegments_listed] at hlisted
    obtain rfl : j = 2 := by simp at hlisted; omega
    exact fun _ => ⟨_, _, scanFile_of_holds verdict_holds, rfl⟩
  obtain ⟨log, hopen, hindex, _⟩ := (readersSelect_of_selected hsel).openCurrent
  exact ⟨log, hopen, hindex⟩

/-- The survivor goes to the segment that is not opened, and the replay is empty; asked about the opened
segment alone, the filter keeps its verdict. -/
theorem bootFilter_survivor_spent :
    (∃ log, openCurrent verdictDeps logName twoSegments = .ok (log, [(1, .other verdictText)]) ∧
      openCurrentWith verdictDeps (bootFilter fun _ => true) logName twoSegments false = .ok (log, [])) ∧
    accepted [(1, .other verdictText)] (answers (bootFilter fun _ => true) false [.other verdictText]) =
      [(1, .other verdictText)] := by
  refine ⟨?_, rfl⟩
  obtain ⟨log, hopen, hindex⟩ := twoSegments_open
  have hnewer : newerRecords verdictDeps logName twoSegments 1 = [.other verdictText] := by
    have hread : recordsIn verdictDeps (fileAt twoSegments (segmentName logName 2)) = [.other verdictText] := by
      rw [recordsIn, show scanFile verdictDeps (fileAt twoSegments (segmentName logName 2)) = _ from
        scanFile_of_holds verdict_holds]
      rfl
    rw [newerRecords, twoSegments_listed]
    simp [hread]
  have hpassed := passedOver_eq hopen
  rw [hindex, hnewer] at hpassed
  have heq : openCurrentWith verdictDeps (bootFilter fun _ => true) logName twoSegments false = _ :=
    openFrom_eq (kept (bootFilter fun _ => true)) (segments logName twoSegments).reverse false
  simp only [show openFrom verdictDeps keepAll logName twoSegments (segments logName twoSegments).reverse () = _ from
    hopen, keptFrom_kept, hpassed] at heq
  exact ⟨log, hopen, heq⟩

end LiquidityMigration.Wal
