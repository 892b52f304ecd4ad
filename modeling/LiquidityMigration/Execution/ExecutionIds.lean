import LiquidityMigration.Lib.Checks

/- The memory of execution ids that keeps a fill from being booked twice: a set that answers, a queue that expires by
   age and a byte count that bounds. Every test first moves the frontier, the highest clock so far. The model runs any
   tests, inserts and restarts under any clock: the three copies agree after every step (`Consistent.handle`), an id
   goes only by age (`handle_forgets`), and a memory rebuilt from a rotation's rows answers alike while the clock is
   not behind their frontier (`Agree.answers_eq`). -/
namespace LiquidityMigration.Execution
open Checks List Function

/-- A clock reading or a stamp in milliseconds, an `i64`. -/
abbrev Millis : Type := Set.Icc (-2^63 : Int) (2^63 - 1)

/-- The order of the numbers, by the computable instances of the integers. -/
instance Millis.linearOrder : LinearOrder Millis :=
  @Subtype.instLinearOrder Int Int.instLinearOrder (· ∈ Set.Icc (-2^63 : Int) (2^63 - 1))

instance : DecidableLE Millis := Millis.linearOrder.toDecidableLE

instance : DecidableLT Millis := Millis.linearOrder.toDecidableLT

instance : Max Millis := Millis.linearOrder.toMax

instance : Min Millis := Millis.linearOrder.toMin

def Millis.least : Millis := ⟨-2^63, by decide⟩

def saturatingSub (a b : Millis) : Millis := Set.projIcc (-2^63) (2^63 - 1) (by decide) (a.val - b.val)

structure RecentExecutionId where
  execId : String
  seenMs : Millis
deriving DecidableEq

inductive ExecutionRecord where
  | segmentBase (recentExecutionIds : List RecentExecutionId)
  | recoveredFill (execId : String) (recoveredWallTsMs : Millis)
  | orderUpdateFill (execId : String) (venueTsMs : Millis)
  | other
deriving DecidableEq

structure Full where
  capacity : Nat
  retentionMs : Millis
  byteCapacity : Nat
deriving DecidableEq

def Full.display (f : Full) : String :=
  "execution-id dedup reached its " ++ toString f.capacity ++ "-id / " ++ toString f.byteCapacity ++
    "-byte cap inside the " ++ toString f.retentionMs.val ++ " ms recovery window"

structure ExecutionIds where
  ids : Finset String
  oldestFirst : List (Millis × String)
  newestMs : Millis
  capacity : Nat
  retentionMs : Millis
  (byteCapacity retainedBytes : Nat)
deriving DecidableEq

namespace ExecutionIds

def empty (capacity : Nat) (retentionMs : Millis) (byteCapacity : Nat) : ExecutionIds where
  ids := ∅
  oldestFirst := []
  newestMs := Millis.least
  capacity := capacity
  retentionMs := retentionMs
  byteCapacity := byteCapacity
  retainedBytes := 0

variable (s : ExecutionIds) (execId : String) (nowMs : Millis)

def full : Full := ⟨s.capacity, s.retentionMs, s.byteCapacity⟩

/-! ## Tests and inserts -/

/-- The loop of `prune`: pop the front of the queue while it lies before `cutoff`. -/
def popExpired (cutoff : Millis) : List (Millis × String) → Finset String → Nat →
    List (Millis × String) × Finset String × Nat
  | [], ids, bytes => ([], ids, bytes)
  | (seenMs, execId) :: rest, ids, bytes =>
    if seenMs < cutoff then popExpired cutoff rest (ids.erase execId) (bytes - execId.utf8ByteSize)
    else ((seenMs, execId) :: rest, ids, bytes)

/-- The stamp a memory with frontier `newestMs` still keeps. -/
def cutoff (newestMs : Millis) : Millis := saturatingSub newestMs s.retentionMs

def prune : ExecutionIds :=
  let newestMs := max s.newestMs nowMs
  let left := popExpired (s.cutoff newestMs) s.oldestFirst s.ids s.retainedBytes
  { s with newestMs := newestMs, oldestFirst := left.1, ids := left.2.1, retainedBytes := left.2.2 }

def contains : Bool × ExecutionIds :=
  let s := s.prune nowMs
  (execId ∈ s.ids, s)

def Crowded (count bytes : Nat) (execId : String) : Prop :=
  s.capacity ≤ count ∨ s.byteCapacity - bytes < execId.utf8ByteSize
  deriving Decidable

def canInsert : Except Full (Bool × ExecutionIds) :=
  let (known, s) := s.contains execId nowMs
  if known then .ok (false, s)
  else if s.Crowded s.ids.card s.retainedBytes execId then .error s.full
  else .ok (true, s)

def insertAt (seenMs : Millis) : ExecutionIds :=
  { s with
    retainedBytes := s.retainedBytes + execId.utf8ByteSize
    ids := insert execId s.ids
    oldestFirst := s.oldestFirst ++ [(seenMs, execId)]
    newestMs := max s.newestMs seenMs }

def insert : ExecutionIds :=
  s.insertAt execId (max s.newestMs nowMs)

/-- What every caller does with a new execution: `can_insert`, and `insert` at the same reading where it may. -/
def remember : Except Full ExecutionIds := do
  let (new, s) ← s.canInsert execId nowMs
  return if new then s.insert execId nowMs else s

/-- What a rotation writes into the base. -/
def rows : List RecentExecutionId :=
  (s.oldestFirst.filter fun e => s.cutoff nowMs ≤ e.1).map fun e => ⟨e.2, e.1⟩

end ExecutionIds

/-! ## Rebuilding from a log -/

/-- An id being rebuilt, with the place of the row its stamp comes from. -/
structure Rebuilt where
  execId : String
  seenMs : Millis
  position : Nat
deriving DecidableEq

open Rebuilt

def Rebuilt.NotAfter (a b : Rebuilt) : Prop := toLex (a.seenMs, a.position) ≤ toLex (b.seenMs, b.position)

instance : DecidableRel Rebuilt.NotAfter :=
  fun a b => inferInstanceAs (Decidable (toLex (a.seenMs, a.position) ≤ toLex (b.seenMs, b.position)))

instance : Std.Total Rebuilt.NotAfter := ⟨fun _ _ => le_total _ _⟩

instance : IsTrans Rebuilt Rebuilt.NotAfter := ⟨fun _ _ _ => le_trans⟩

/-- What `restore` carries along the log. -/
structure Rebuild where
  entries : List Rebuilt
  (ordinal retainedBytes : Nat)
deriving DecidableEq

/-- The closure `remember` of `restore`: the stamp is pulled down to the clock, an id met again keeps the
    smaller stamp. -/
def Rebuild.remember (limits : ExecutionIds) (nowMs : Millis) (m : Rebuild) (row : RecentExecutionId) :
    Except Full Rebuild :=
  let position := m.ordinal
  let seenMs := min row.seenMs nowMs
  if seenMs < limits.cutoff nowMs then .ok { m with ordinal := position + 1 }
  else if m.entries.any (·.execId = row.execId) then
    .ok { m with
      ordinal := position + 1
      entries := m.entries.map fun prior =>
        if prior.execId = row.execId ∧ seenMs < prior.seenMs then ⟨prior.execId, seenMs, position⟩ else prior }
  else if limits.Crowded m.entries.length m.retainedBytes row.execId then .error limits.full
  else .ok ⟨m.entries ++ [⟨row.execId, seenMs, position⟩], position + 1, m.retainedBytes + row.execId.utf8ByteSize⟩

namespace ExecutionRecord

def isSegmentBase : ExecutionRecord → Bool
  | segmentBase _ => true
  | _ => false

def rows : ExecutionRecord → List RecentExecutionId
  | segmentBase recentExecutionIds => recentExecutionIds
  | recoveredFill execId recoveredWallTsMs => if execId = "" then [] else [⟨execId, recoveredWallTsMs⟩]
  | orderUpdateFill execId venueTsMs => if execId = "" then [] else [⟨execId, venueTsMs⟩]
  | other => []

def sinceBase : List ExecutionRecord → List ExecutionRecord
  | [] => []
  | record :: rest => if rest.any isSegmentBase then sinceBase rest else record :: rest

end ExecutionRecord

namespace ExecutionIds

def restore (records : List ExecutionRecord) (nowMs : Millis) (s : ExecutionIds) : Except Full ExecutionIds := do
  let m ← ((ExecutionRecord.sinceBase records).flatMap ExecutionRecord.rows).foldlM (Rebuild.remember s nowMs)
    ⟨[], 0, s.retainedBytes⟩
  let entries := m.entries.insertionSort Rebuilt.NotAfter
  return { s with
    ids := entries.foldl (fun ids e => Insert.insert e.execId ids) s.ids
    oldestFirst := s.oldestFirst ++ entries.map fun e => (e.seenMs, e.execId)
    newestMs := nowMs
    retainedBytes := m.retainedBytes }

variable (s : ExecutionIds)

/-- A rotation at one reading and a boot from its base at another. -/
def restart (rotatedMs bootedMs : Millis) : Except Full ExecutionIds :=
  restore [.segmentBase (s.rows rotatedMs)] bootedMs (empty s.capacity s.retentionMs s.byteCapacity)

/-! ## Runs -/

inductive Event where
  | contains (execId : String) (nowMs : Millis)
  | insert (execId : String) (nowMs : Millis)
  | restart (rotatedMs bootedMs : Millis)

def Event.clocks : Event → List Millis
  | contains _ nowMs => [nowMs]
  | insert _ nowMs => [nowMs]
  | restart rotatedMs bootedMs => [rotatedMs, bootedMs]

def handle : Event → Except Full ExecutionIds
  | .contains execId nowMs => .ok (s.contains execId nowMs).2
  | .insert execId nowMs => s.remember execId nowMs
  | .restart rotatedMs bootedMs => s.restart rotatedMs bootedMs

def run (events : List Event) : Except Full ExecutionIds := events.foldlM handle s

def highestClock (event : Event) : Millis := event.clocks.foldl max s.newestMs

/-- The answers to a list of membership tests, each at its own reading. -/
def answers (s : ExecutionIds) : List (String × Millis) → List Bool
  | [] => []
  | (execId, nowMs) :: rest => (s.contains execId nowMs).1 :: (s.contains execId nowMs).2.answers rest

def Started : Prop :=
  ∃ capacity retentionMs byteCapacity,
    s = empty capacity retentionMs byteCapacity ∨
      ∃ records nowMs, restore records nowMs (empty capacity retentionMs byteCapacity) = .ok s

/-! ## The three copies -/

/-- The set and the queue hold the same ids, the queue in the order of age and each id once, no stamp above the
    frontier; the byte total is that of the queue, and both caps are kept. -/
structure Consistent (s : ExecutionIds) : Prop where
  aged : s.oldestFirst.Pairwise fun a b => a.1 ≤ b.1
  distinct : (s.oldestFirst.map Prod.snd).Nodup
  same : s.ids = (s.oldestFirst.map Prod.snd).toFinset
  bytes : s.retainedBytes = (s.oldestFirst.map fun e => e.2.utf8ByteSize).sum
  count : s.ids.card ≤ s.capacity
  size : s.retainedBytes ≤ s.byteCapacity
  stamped : ∀ e ∈ s.oldestFirst, e.1 ≤ s.newestMs

theorem lt_of_lt_saturatingSub {x a b : Millis} (h : x < saturatingSub a b) : b.val < a.val - x.val := by
  have hx := x.2.1
  have hlt : x.val < max (-2^63) (min (2^63 - 1) (a.val - b.val)) := h
  rcases lt_max_iff.mp hlt with hlow | hhigh
  · omega
  · have := lt_min_iff.mp hhigh
    omega

theorem cutoff_mono {a a' : Millis} (h : a ≤ a') : s.cutoff a ≤ s.cutoff a' :=
  Set.monotone_projIcc (by decide) (Int.sub_le_sub_right h _)

section prune
variable {s : ExecutionIds} {execId : String} {nowMs : Millis}

/-- On a queue in the order of age the loop keeps what is not before the cutoff. -/
theorem popExpired_eq {cut : Millis} {queue : List (Millis × String)} {ids : Finset String} {bytes : Nat}
    (haged : queue.Pairwise (fun a b => a.1 ≤ b.1)) (hdistinct : (queue.map Prod.snd).Nodup)
    (hids : ids = (queue.map Prod.snd).toFinset) (hbytes : bytes = (queue.map fun e => e.2.utf8ByteSize).sum) :
    let kept := queue.filter fun e => cut ≤ e.1
    popExpired cut queue ids bytes =
      (kept, (kept.map Prod.snd).toFinset, (kept.map fun e => e.2.utf8ByteSize).sum) := by
  induction queue generalizing ids bytes with
  | nil => simp [popExpired, hids, hbytes]
  | cons e rest ih =>
    obtain ⟨seenMs, id⟩ := e
    obtain ⟨hhead, hrest⟩ := pairwise_cons.mp haged
    simp only [map_cons, nodup_cons] at hdistinct
    simp only [popExpired]
    split
    · next hlt =>
      rw [filter_cons_of_neg (by simpa using hlt)]
      apply ih hrest hdistinct.2
      · rw [hids, map_cons, toFinset_cons, Finset.erase_insert]
        simpa using hdistinct.1
      · simp [hbytes]
    · next hge =>
      -- the front is not before the cutoff, so nothing behind it is
      have hall : ∀ e ∈ (seenMs, id) :: rest, decide (cut ≤ e.1) = true := by
        intro e he
        rcases mem_cons.mp he with rfl | he
        · simpa using hge
        · simpa using le_trans (not_lt.mp hge) (hhead e he)
      rw [filter_eq_self.mpr hall, hids, hbytes]

theorem prune_eq (h : s.Consistent) :
    let kept := s.oldestFirst.filter fun e => s.cutoff (max s.newestMs nowMs) ≤ e.1
    s.prune nowMs =
      { s with
        newestMs := max s.newestMs nowMs
        oldestFirst := kept
        ids := (kept.map Prod.snd).toFinset
        retainedBytes := (kept.map fun e => e.2.utf8ByteSize).sum } := by
  simp [prune, popExpired_eq h.aged h.distinct h.same h.bytes]

theorem Consistent.card (h : s.Consistent) : s.ids.card = s.oldestFirst.length := by
  rw [h.same, toFinset_card_of_nodup h.distinct, length_map]

theorem Consistent.prune (h : s.Consistent) : (s.prune nowMs).Consistent := by
  rw [prune_eq h]
  have hsub : (s.oldestFirst.filter fun e => s.cutoff (max s.newestMs nowMs) ≤ e.1).Sublist s.oldestFirst :=
    filter_sublist
  have hdistinct := h.distinct.sublist (hsub.map Prod.snd)
  refine ⟨h.aged.sublist hsub, hdistinct, rfl, rfl, ?_, ?_, ?_⟩
  · have hcount := h.count
    rw [h.card] at hcount
    rw [toFinset_card_of_nodup hdistinct, length_map]
    exact hsub.length_le.trans hcount
  · have hsize := h.size
    rw [h.bytes] at hsize
    exact ((hsub.map _).sum_le_sum (by simp)).trans hsize
  · intro e he
    exact (h.stamped e (mem_of_mem_filter he)).trans (le_max_left _ _)

theorem contains_iff (h : s.Consistent) : (s.contains execId nowMs).1 = true ↔
      ∃ stamp, (stamp, execId) ∈ s.oldestFirst ∧ s.cutoff (max s.newestMs nowMs) ≤ stamp := by
  simp only [contains, prune_eq h]
  simp

end prune

section insert
variable {s : ExecutionIds} {execId : String} {nowMs : Millis}

theorem Consistent.insert (h : s.Consistent) (hnew : execId ∉ s.ids)
    (hroom : ¬ s.Crowded s.ids.card s.retainedBytes execId) : (s.insert execId nowMs).Consistent := by
  obtain ⟨hcount, hbytes⟩ := not_or.mp hroom
  have hqueue : execId ∉ s.oldestFirst.map Prod.snd := by
    intro hmem
    exact hnew (by rw [h.same]; exact mem_toFinset.mpr hmem)
  constructor
  case aged =>
    refine pairwise_append.mpr ⟨h.aged, pairwise_singleton _ _, ?_⟩
    intro a ha b hb
    rw [mem_singleton.mp hb]
    exact (h.stamped a ha).trans (le_max_left _ _)
  case distinct =>
    simp only [ExecutionIds.insert, insertAt, map_append, map_cons, map_nil]
    exact List.Nodup.append h.distinct (nodup_singleton _) (by simpa using hqueue)
  case same =>
    ext id
    simp [ExecutionIds.insert, insertAt, h.same]
  case bytes => simp [ExecutionIds.insert, insertAt, h.bytes]
  case count =>
    simp only [ExecutionIds.insert, insertAt]
    rw [Finset.card_insert_of_notMem hnew]
    omega
  case size =>
    have := h.size
    simp only [ExecutionIds.insert, insertAt]
    omega
  case stamped =>
    intro e he
    rcases mem_append.mp he with he | he
    · exact (h.stamped e he).trans (le_max_left _ _)
    · rw [mem_singleton.mp he]
      exact le_max_right _ _

theorem remember_eq : s.remember execId nowMs = if execId ∈ (s.prune nowMs).ids then .ok (s.prune nowMs)
      else if (s.prune nowMs).Crowded (s.prune nowMs).ids.card (s.prune nowMs).retainedBytes execId then
        .error (s.prune nowMs).full
      else .ok ((s.prune nowMs).insert execId nowMs) := by
  unfold remember canInsert contains
  by_cases hknown : execId ∈ (s.prune nowMs).ids
  · simp [hknown, pure, Except.pure, bind, Except.bind]
  · by_cases hfull : (s.prune nowMs).Crowded (s.prune nowMs).ids.card (s.prune nowMs).retainedBytes execId
    · simp [hknown, hfull, bind, Except.bind]
    · simp [hknown, hfull, pure, Except.pure, bind, Except.bind]

theorem remember_eq_ok {s' : ExecutionIds} (h : s.remember execId nowMs = .ok s') : s' = s.prune nowMs ∨
      s' = (s.prune nowMs).insert execId nowMs ∧ execId ∉ (s.prune nowMs).ids ∧
        ¬ (s.prune nowMs).Crowded (s.prune nowMs).ids.card (s.prune nowMs).retainedBytes execId := by
  rw [remember_eq] at h
  split at h
  · injection h with h
    exact .inl h.symm
  · next hnew =>
    split at h
    · cases h
    · next hroom =>
      injection h with h
      exact .inr ⟨h.symm, hnew, hroom⟩

theorem Consistent.remember {s' : ExecutionIds} (hs : s.Consistent) (h : s.remember execId nowMs = .ok s') :
    s'.Consistent := by
  rcases remember_eq_ok h with rfl | ⟨rfl, hnew, hroom⟩
  · exact hs.prune
  · exact hs.prune.insert hnew hroom

end insert

/-! ## A rebuilt memory -/

/-- What `restore` keeps on its way along the log. -/
structure Held (limits : ExecutionIds) (nowMs : Millis) (m : Rebuild) : Prop where
  distinct : (m.entries.map Rebuilt.execId).Nodup
  bytes : m.retainedBytes = (m.entries.map fun e => e.execId.utf8ByteSize).sum
  count : m.entries.length ≤ limits.capacity
  size : m.retainedBytes ≤ limits.byteCapacity
  stamped : ∀ e ∈ m.entries, e.seenMs ≤ nowMs

section restore
variable {limits s : ExecutionIds} {nowMs : Millis} {m m' : Rebuild} {row : RecentExecutionId}

theorem map_execId_of_known (entries : List Rebuilt) (id : String) (seenMs : Millis) (position : Nat) :
    (entries.map fun prior =>
      if prior.execId = id ∧ seenMs < prior.seenMs then ⟨prior.execId, seenMs, position⟩ else prior).map
        execId = entries.map execId := by
  rw [map_map]
  apply map_congr_left
  intro e _
  simp only [comp]
  split <;> rfl

theorem Held.remember (hm : Held limits nowMs m) (h : m.remember limits nowMs row = .ok m') : Held limits nowMs m' := by
  have hnow : min row.seenMs nowMs ≤ nowMs := min_le_right _ _
  simp only [Rebuild.remember] at h
  split at h
  · injection h with h
    rw [← h]
    exact ⟨hm.distinct, hm.bytes, hm.count, hm.size, hm.stamped⟩
  · split at h
    · injection h with h
      rw [← h]
      have hsame := map_execId_of_known m.entries row.execId (min row.seenMs nowMs) m.ordinal
      have hbytes := hm.bytes
      rw [← comp_def String.utf8ByteSize, ← map_map] at hbytes
      refine ⟨?_, ?_, ?_, hm.size, ?_⟩
      · rw [hsame]
        exact hm.distinct
      · simp only
        rw [← comp_def String.utf8ByteSize, ← map_map, hsame]
        exact hbytes
      · rw [length_map]
        exact hm.count
      · intro e he
        obtain ⟨prior, hprior, rfl⟩ := mem_map.mp he
        split
        · exact hnow
        · exact hm.stamped prior hprior
    · next hnew =>
      split at h
      · cases h
      · next hroom =>
        injection h with h
        rw [← h]
        obtain ⟨hcount, hbytes⟩ := not_or.mp hroom
        have hsize := hm.size
        refine ⟨?_, ?_, ?_, ?_, ?_⟩
        · simp only [map_append, map_cons, map_nil]
          refine List.Nodup.append hm.distinct (nodup_singleton _) ?_
          simpa using hnew
        · simp [hm.bytes]
        · simp only [length_append, length_singleton]
          omega
        · simp only
          omega
        · intro e he
          rcases mem_append.mp he with he | he
          · exact hm.stamped e he
          · rw [mem_singleton.mp he]
            exact hnow

theorem foldl_insert (entries : List Rebuilt) (ids : Finset String) :
    entries.foldl (fun ids e => Insert.insert e.execId ids) ids = ids ∪ (entries.map execId).toFinset := by
  induction entries generalizing ids with
  | nil => simp
  | cons e entries ih =>
    rw [foldl_cons, ih]
    ext id
    simp only [Finset.mem_union, Finset.mem_insert, map_cons, mem_toFinset, mem_cons]
    tauto

variable {capacity byteCapacity : Nat} {retentionMs : Millis} {records : List ExecutionRecord}

theorem restore_eq_ok : restore records nowMs (empty capacity retentionMs byteCapacity) = .ok s ↔
      ∃ m, ((ExecutionRecord.sinceBase records).flatMap ExecutionRecord.rows).foldlM
          (Rebuild.remember (empty capacity retentionMs byteCapacity) nowMs) ⟨[], 0, 0⟩ = .ok m ∧
        s = { ids := ((m.entries.insertionSort Rebuilt.NotAfter).map execId).toFinset
              oldestFirst := (m.entries.insertionSort Rebuilt.NotAfter).map fun e => (e.seenMs, e.execId)
              newestMs := nowMs
              capacity := capacity
              retentionMs := retentionMs
              byteCapacity := byteCapacity
              retainedBytes := m.retainedBytes } := by
  simp only [restore, bind_eq_ok, foldl_insert]
  simp [empty, pure, Except.pure, Finset.empty_union, eq_comm]

theorem restore_consistent (h : restore records nowMs (empty capacity retentionMs byteCapacity) = .ok s) :
    s.Consistent := by
  obtain ⟨m, hm, rfl⟩ := restore_eq_ok.mp h
  have hstart : Held (empty capacity retentionMs byteCapacity) nowMs ⟨[], 0, 0⟩ :=
    ⟨nodup_nil, rfl, Nat.zero_le _, Nat.zero_le _, by simp⟩
  have hheld := foldlM_invariant Held.remember hstart hm
  have hperm := perm_insertionSort Rebuilt.NotAfter m.entries
  have hdistinct : ((m.entries.insertionSort Rebuilt.NotAfter).map execId).Nodup :=
    (hperm.map _).nodup_iff.mpr hheld.distinct
  have hsnd : ((m.entries.insertionSort Rebuilt.NotAfter).map fun e => (e.seenMs, e.execId)).map Prod.snd =
      (m.entries.insertionSort Rebuilt.NotAfter).map execId := map_map
  constructor
  case aged =>
    refine pairwise_map.mpr ((pairwise_insertionSort Rebuilt.NotAfter m.entries).imp ?_)
    intro a b hab
    rcases Prod.Lex.toLex_le_toLex.mp hab with hlt | ⟨heq, _⟩
    · exact hlt.le
    · exact heq.le
  case distinct => rwa [hsnd]
  case same => rw [hsnd]
  case bytes =>
    simp only [map_map, comp_def]
    rw [hheld.bytes]
    exact ((hperm.map _).sum_eq).symm
  case count =>
    simp only
    rw [toFinset_card_of_nodup hdistinct, length_map, hperm.length_eq]
    exact hheld.count
  case size => exact hheld.size
  case stamped =>
    intro e he
    obtain ⟨r, hr, rfl⟩ := mem_map.mp he
    exact hheld.stamped r (hperm.mem_iff.mp hr)

theorem Started.consistent (h : Started s) : s.Consistent := by
  obtain ⟨capacity, retentionMs, byteCapacity, rfl | ⟨records, nowMs, h⟩⟩ := h
  · exact ⟨.nil, .nil, rfl, rfl, Nat.zero_le _, Nat.zero_le _, by simp [empty]⟩
  · exact restore_consistent h

end restore

section run
variable {s s' : ExecutionIds} {event : Event}

theorem Consistent.handle (hs : s.Consistent) (h : s.handle event = .ok s') : s'.Consistent := by
  cases event with
  | contains execId nowMs =>
    injection h with h
    rw [← h]
    exact hs.prune
  | insert execId nowMs => exact hs.remember h
  | restart rotatedMs bootedMs => exact restore_consistent h

theorem Consistent.run {events : List Event} (hs : s.Consistent) (h : s.run events = .ok s') : s'.Consistent :=
  foldlM_invariant Consistent.handle hs h

end run

/-! ## Restarting through a rotation -/

/-- What a boot at `nowMs` makes of a row. -/
def carried (limits : ExecutionIds) (nowMs : Millis) (row : RecentExecutionId) : Option (Millis × String) :=
  if min row.seenMs nowMs < limits.cutoff nowMs then none else some (min row.seenMs nowMs, row.execId)

section restart
variable {limits s r : ExecutionIds} {nowMs rotatedMs bootedMs : Millis}

/-- Rows of distinct ids that fit the caps are carried over one by one. -/
theorem foldlM_remember_rows {rows : List RecentExecutionId} {m : Rebuild}
    (hdistinct : (rows.map RecentExecutionId.execId).Nodup)
    (hnew : ∀ row ∈ rows, row.execId ∉ m.entries.map execId)
    (hcount : m.entries.length + rows.length ≤ limits.capacity)
    (hsize : m.retainedBytes + (rows.map fun row => row.execId.utf8ByteSize).sum ≤ limits.byteCapacity) :
    ∃ m', rows.foldlM (Rebuild.remember limits nowMs) m = .ok m' ∧ m'.entries.map (fun e => (e.seenMs, e.execId)) =
        m.entries.map (fun e => (e.seenMs, e.execId)) ++ rows.filterMap (carried limits nowMs) := by
  induction rows generalizing m with
  | nil => exact ⟨m, rfl, by simp⟩
  | cons row rows ih =>
    simp only [map_cons, nodup_cons] at hdistinct
    simp only [length_cons] at hcount
    simp only [map_cons, sum_cons] at hsize
    rw [foldlM_cons]
    by_cases hold : min row.seenMs nowMs < limits.cutoff nowMs
    · obtain ⟨m', hm', hentries⟩ := @ih { m with ordinal := m.ordinal + 1 } hdistinct.2
        (fun row' hrow' => hnew row' (mem_cons_of_mem _ hrow')) (by simp only; omega) (by simp only; omega)
      refine ⟨m', ?_, ?_⟩
      · simp only [Rebuild.remember, if_pos hold]
        exact hm'
      · rw [hentries, filterMap_cons, carried, if_pos hold]
    · have hknown : m.entries.any (fun e => e.execId = row.execId) = false := by
        simpa using hnew row mem_cons_self
      have hroom : ¬ limits.Crowded m.entries.length m.retainedBytes row.execId := by
        refine not_or.mpr ⟨?_, ?_⟩ <;> omega
      obtain ⟨m', hm', hentries⟩ := @ih ⟨m.entries ++ [⟨row.execId, min row.seenMs nowMs, m.ordinal⟩],
          m.ordinal + 1, m.retainedBytes + row.execId.utf8ByteSize⟩ hdistinct.2
        (by
          intro row' hrow' hmem
          rw [map_append, mem_append] at hmem
          rcases hmem with hmem | hmem
          · exact hnew row' (mem_cons_of_mem _ hrow') hmem
          · have heq : row'.execId = row.execId := by simpa using hmem
            exact hdistinct.1 (heq ▸ mem_map_of_mem hrow'))
        (by simp only [length_append, length_singleton]; omega) (by simp only; omega)
      refine ⟨m', ?_, ?_⟩
      · simp only [Rebuild.remember, if_neg hold, hknown, if_neg hroom]
        exact hm'
      · rw [hentries, filterMap_cons, carried, if_neg hold]
        simp

/-- A restart is never refused, and carries over what neither the rotation nor the boot finds expired. -/
theorem restart_eq_ok (hs : s.Consistent) :
    ∃ r, s.restart rotatedMs bootedMs = .ok r ∧ r.newestMs = bootedMs ∧ r.retentionMs = s.retentionMs ∧
      ∀ stamp execId, (stamp, execId) ∈ r.oldestFirst ↔
        ∃ seenMs, (seenMs, execId) ∈ s.oldestFirst ∧ s.cutoff rotatedMs ≤ seenMs ∧
          stamp = min seenMs bootedMs ∧ s.cutoff bootedMs ≤ stamp := by
  have hsub : (s.oldestFirst.filter fun e => s.cutoff rotatedMs ≤ e.1).Sublist s.oldestFirst := filter_sublist
  have hids : (s.rows rotatedMs).map RecentExecutionId.execId =
      (s.oldestFirst.filter fun e => s.cutoff rotatedMs ≤ e.1).map Prod.snd := by
    simp [rows, comp_def]
  have hbytes : (s.rows rotatedMs).map (fun row => row.execId.utf8ByteSize) =
      (s.oldestFirst.filter fun e => s.cutoff rotatedMs ≤ e.1).map fun e => e.2.utf8ByteSize := by
    simp [rows, comp_def]
  have hcount : (s.rows rotatedMs).length ≤ s.capacity := by
    have := hs.count
    rw [hs.card] at this
    rw [rows, length_map]
    exact hsub.length_le.trans this
  have hsize : ((s.rows rotatedMs).map fun row => row.execId.utf8ByteSize).sum ≤ s.byteCapacity := by
    rw [hbytes]
    exact ((hsub.map _).sum_le_sum (by simp)).trans (hs.bytes ▸ hs.size)
  obtain ⟨m, hm, hentries⟩ := @foldlM_remember_rows (empty s.capacity s.retentionMs s.byteCapacity) bootedMs
    (s.rows rotatedMs) ⟨[], 0, 0⟩ (hids ▸ hs.distinct.sublist (hsub.map _)) (by simp)
    (by simpa [empty] using hcount) (by simpa [empty] using hsize)
  refine ⟨_, restore_eq_ok.mpr ⟨m, by simpa [ExecutionRecord.sinceBase, ExecutionRecord.rows] using hm, rfl⟩,
    rfl, rfl, ?_⟩
  intro stamp execId
  have hperm := (perm_insertionSort Rebuilt.NotAfter m.entries).map fun e => (e.seenMs, e.execId)
  rw [hperm.mem_iff, hentries]
  simp only [map_nil, nil_append, mem_filterMap, rows, mem_map, mem_filter, decide_eq_true_eq]
  have hcut : (empty s.capacity s.retentionMs s.byteCapacity).cutoff bootedMs = s.cutoff bootedMs := rfl
  refine ⟨?_, ?_⟩
  · intro h
    obtain ⟨row, ⟨e, ⟨he, hrotated⟩, rfl⟩, hcarried⟩ := h
    simp only [carried, hcut, Option.ite_none_left_eq_some, Option.some.injEq, Prod.mk.injEq] at hcarried
    obtain ⟨hbooted, rfl, rfl⟩ := hcarried
    exact ⟨e.1, he, hrotated, rfl, not_lt.mp hbooted⟩
  · intro h
    obtain ⟨seenMs, he, hrotated, rfl, hbooted⟩ := h
    refine ⟨⟨execId, seenMs⟩, ⟨(seenMs, execId), ⟨he, hrotated⟩, rfl⟩, ?_⟩
    simp only [carried, hcut, if_neg (not_lt.mpr hbooted)]

/-- A memory and the one rebuilt from it, from the reading `sinceMs` on: what the second has the first has,
    and what the first has besides is expired. -/
structure Agree (sinceMs : Millis) (s r : ExecutionIds) : Prop where
  original : s.Consistent
  rebuilt : r.Consistent
  retention : r.retentionMs = s.retentionMs
  frontier : s.newestMs ≤ sinceMs
  frontier' : r.newestMs ≤ sinceMs
  kept : ∀ e ∈ r.oldestFirst, e ∈ s.oldestFirst
  keeps : ∀ e ∈ s.oldestFirst, s.cutoff sinceMs ≤ e.1 → e ∈ r.oldestFirst

variable {sinceMs : Millis}

theorem Agree.cutoff (h : Agree sinceMs s r) (newestMs : Millis) : r.cutoff newestMs = s.cutoff newestMs := by
  unfold ExecutionIds.cutoff
  rw [h.retention]

theorem Agree.contains_eq {execId : String} (h : Agree sinceMs s r) (hnow : sinceMs ≤ nowMs) :
    (r.contains execId nowMs).1 = (s.contains execId nowMs).1 := by
  rw [Bool.eq_iff_iff, contains_iff h.rebuilt, contains_iff h.original, h.cutoff,
    max_eq_right (h.frontier.trans hnow), max_eq_right (h.frontier'.trans hnow)]
  refine ⟨?_, ?_⟩
  · intro hr
    obtain ⟨stamp, hmem, hcut⟩ := hr
    exact ⟨stamp, h.kept _ hmem, hcut⟩
  · intro hr
    obtain ⟨stamp, hmem, hcut⟩ := hr
    exact ⟨stamp, h.keeps _ hmem ((cutoff_mono s hnow).trans hcut), hcut⟩

theorem Agree.prune (h : Agree sinceMs s r) (hnow : sinceMs ≤ nowMs) : Agree nowMs (s.prune nowMs) (r.prune nowMs) := by
  have hs := max_eq_right (h.frontier.trans hnow)
  have hr := max_eq_right (h.frontier'.trans hnow)
  refine ⟨h.original.prune, h.rebuilt.prune, h.retention, ?_, ?_, ?_, ?_⟩
  · exact hs.le
  · exact hr.le
  · simp only [prune_eq h.original, prune_eq h.rebuilt, hs, hr, h.cutoff, mem_filter]
    intro e he
    exact ⟨h.kept e he.1, he.2⟩
  · simp only [prune_eq h.original, prune_eq h.rebuilt, hs, hr, h.cutoff, mem_filter]
    intro e he _
    exact ⟨h.keeps e he.1 ((cutoff_mono s hnow).trans (by simpa using he.2)), he.2⟩

theorem Agree.answers_eq {tests : List (String × Millis)} (h : Agree sinceMs s r)
    (hordered : tests.Pairwise (fun a b => a.2 ≤ b.2)) (hsince : ∀ test ∈ tests, sinceMs ≤ test.2) :
    r.answers tests = s.answers tests := by
  induction tests generalizing s r sinceMs with
  | nil => rfl
  | cons test tests ih =>
    obtain ⟨hhead, hrest⟩ := pairwise_cons.mp hordered
    have hnow := hsince test mem_cons_self
    have hanswer := @Agree.contains_eq _ _ _ _ test.1 h hnow
    simp only [answers]
    rw [hanswer]
    exact congrArg _ (ih (h.prune hnow) hrest hhead)

theorem restart_agree (hs : s.Consistent) (hrotated : rotatedMs ≤ bootedMs) (hfrontier : s.newestMs ≤ bootedMs) :
    ∃ r, s.restart rotatedMs bootedMs = .ok r ∧ Agree bootedMs s r := by
  obtain ⟨r, hr, hnewest, hretention, hrows⟩ := @restart_eq_ok s rotatedMs bootedMs hs
  have hunclamped : ∀ {seenMs execId}, (seenMs, execId) ∈ s.oldestFirst → min seenMs bootedMs = seenMs := by
    intro seenMs execId he
    exact min_eq_left ((hs.stamped _ he).trans hfrontier)
  refine ⟨r, hr, hs, restore_consistent hr, hretention, hfrontier, hnewest.le, ?_, ?_⟩
  · intro e he
    obtain ⟨seenMs, hmem, _, hstamp, _⟩ := (hrows e.1 e.2).mp he
    rw [hunclamped hmem] at hstamp
    rwa [← hstamp] at hmem
  · intro e he hcut
    exact (hrows e.1 e.2).mpr ⟨e.1, he, (cutoff_mono s hrotated).trans hcut, (hunclamped he).symm, hcut⟩

end restart

/-! ## Forgetting -/

section forget
variable {s s' : ExecutionIds} {execId : String} {nowMs : Millis}

theorem Consistent.mem_ids (hs : s.Consistent) : execId ∈ s.ids ↔ ∃ stamp, (stamp, execId) ∈ s.oldestFirst := by
  rw [hs.same]
  simp

theorem prune_forgets (hs : s.Consistent) (hmem : execId ∈ s.ids) (hgone : execId ∉ (s.prune nowMs).ids) :
    ∃ stamp, (stamp, execId) ∈ s.oldestFirst ∧ s.retentionMs.val < (max s.newestMs nowMs).val - stamp.val := by
  obtain ⟨stamp, hstamp⟩ := hs.mem_ids.mp hmem
  refine ⟨stamp, hstamp, lt_of_lt_saturatingSub (not_le.mp ?_)⟩
  intro hcut
  apply hgone
  rw [hs.prune.mem_ids, prune_eq hs]
  exact ⟨stamp, mem_filter.mpr ⟨hstamp, decide_eq_true hcut⟩⟩

theorem restart_forgets {rotatedMs bootedMs : Millis} (hs : s.Consistent)
    (h : s.restart rotatedMs bootedMs = .ok s') (hmem : execId ∈ s.ids) (hgone : execId ∉ s'.ids) :
    ∃ stamp, (stamp, execId) ∈ s.oldestFirst ∧
      s.retentionMs.val < (max (max s.newestMs rotatedMs) bootedMs).val - stamp.val := by
  obtain ⟨stamp, hstamp⟩ := hs.mem_ids.mp hmem
  have hnewest : s.newestMs.val ≤ (max (max s.newestMs rotatedMs) bootedMs).val :=
    le_trans (le_max_left s.newestMs rotatedMs) (le_max_left _ _)
  have hrotated : rotatedMs.val ≤ (max (max s.newestMs rotatedMs) bootedMs).val :=
    le_trans (le_max_right s.newestMs rotatedMs) (le_max_left _ _)
  have hbooted : bootedMs.val ≤ (max (max s.newestMs rotatedMs) bootedMs).val :=
    le_max_right (max s.newestMs rotatedMs) bootedMs
  have hfrontier : stamp.val ≤ s.newestMs.val := hs.stamped _ hstamp
  obtain ⟨r, hr, _, _, hrows⟩ := @restart_eq_ok s rotatedMs bootedMs hs
  rw [h] at hr
  injection hr with hr
  refine ⟨stamp, hstamp, ?_⟩
  by_cases hearly : s.cutoff rotatedMs ≤ stamp
  · by_cases hlate : s.cutoff bootedMs ≤ min stamp bootedMs
    · refine absurd ((restore_consistent h).mem_ids.mpr ⟨min stamp bootedMs, ?_⟩) hgone
      rw [hr]
      exact (hrows _ _).mpr ⟨stamp, hstamp, hearly, rfl, hlate⟩
    · -- pulled down to the boot's clock or not, the stamp is not above it by more than the frontier is
      have hlt := lt_of_lt_saturatingSub (not_le.mp hlate)
      rcases le_total stamp bootedMs with hle | hle
      · rw [min_eq_left hle] at hlt
        omega
      · rw [min_eq_right hle] at hlt
        omega
  · have hlt := lt_of_lt_saturatingSub (not_le.mp hearly)
    omega

/-- An event lets go of an id only where the highest clock is past its stamp by more than the retention. -/
theorem handle_forgets {event : Event} (hs : s.Consistent) (h : s.handle event = .ok s') (hmem : execId ∈ s.ids)
    (hgone : execId ∉ s'.ids) :
    ∃ stamp, (stamp, execId) ∈ s.oldestFirst ∧ s.retentionMs.val < (s.highestClock event).val - stamp.val := by
  cases event with
  | contains id nowMs =>
    injection h with h
    rw [← h] at hgone
    exact prune_forgets hs hmem hgone
  | insert id nowMs =>
    rcases remember_eq_ok h with rfl | ⟨rfl, _, _⟩
    · exact prune_forgets hs hmem hgone
    · apply prune_forgets hs hmem
      intro hkept
      exact hgone (Finset.mem_insert_of_mem hkept)
  | restart rotatedMs bootedMs => exact restart_forgets hs h hmem hgone

end forget

/-! ## Whole runs -/

/-- Under any clock the three copies agree and keep both caps; an id is forgotten only once the highest
clock is past its stamp by more than the retention; and a memory rebuilt from a rotation's rows answers
as the one that wrote them, when the boot's clock is behind neither the rotation's nor the highest seen.
-/
theorem execution_ids_kept {start s : ExecutionIds} {events : List Event} (hstart : Started start)
    (hrun : start.run events = .ok s) :
    s.Consistent ∧ (∀ event s' execId, s.handle event = .ok s' → execId ∈ s.ids → execId ∉ s'.ids →
        ∃ stamp, (stamp, execId) ∈ s.oldestFirst ∧ s.retentionMs.val < (s.highestClock event).val - stamp.val) ∧
      ∀ rotatedMs bootedMs, rotatedMs ≤ bootedMs → s.newestMs ≤ bootedMs → ∃ r, s.restart rotatedMs bootedMs = .ok r ∧
          ∀ tests : List (String × Millis), tests.Pairwise (fun a b => a.2 ≤ b.2) →
            (∀ test ∈ tests, bootedMs ≤ test.2) → r.answers tests = s.answers tests := by
  have hs := hstart.consistent.run hrun
  refine ⟨hs, ?_, ?_⟩
  · intro event s' execId h hmem hgone
    exact handle_forgets hs h hmem hgone
  · intro rotatedMs bootedMs hrotated hfrontier
    obtain ⟨r, hr, hagree⟩ := restart_agree hs hrotated hfrontier
    refine ⟨r, hr, ?_⟩
    intro tests hordered hsince
    exact hagree.answers_eq hordered hsince

def millis (n : Fin (2^16)) : Millis := ⟨(n.val : Int), Set.mem_Icc.mpr ⟨by omega, by omega⟩⟩

/-- Two ids, a test, and a boot at the frontier. -/
theorem execution_ids_kept_two : ∃ s, (empty 2 (millis 100) 16).run
        [.insert "a" (millis 10), .insert "b" (millis 50), .contains "a" (millis 60)] = .ok s ∧ s.Consistent ∧
      ∃ r, s.restart (millis 60) (millis 60) = .ok r ∧
        r.answers [("a", millis 110), ("a", millis 111)] = s.answers [("a", millis 110), ("a", millis 111)] := by
  have hrun : (empty 2 (millis 100) 16).run
      [.insert "a" (millis 10), .insert "b" (millis 50), .contains "a" (millis 60)] =
        .ok ⟨{"b", "a"}, [(millis 10, "a"), (millis 50, "b")], millis 60, 2, millis 100, 16, 2⟩ := by
    decide +kernel
  obtain ⟨hs, _, hrestart⟩ := execution_ids_kept ⟨2, millis 100, 16, .inl rfl⟩ hrun
  obtain ⟨r, hr, hanswers⟩ := hrestart (millis 60) (millis 60) (by decide +kernel) (by decide +kernel)
  exact ⟨_, hrun, hs, r, hr, hanswers _ (by decide +kernel) (by decide +kernel)⟩

/-- An id stamped before the clock went back: the boot pulls the stamp down to its own clock, and forgets the id
    where the memory that wrote the rows still has it. -/
theorem restart_with_clock_back :
    ∃ s r, (empty 2 (millis 100) 16).run [.insert "a" (millis 1000)] = .ok s ∧
      s.restart (millis 1000) (millis 500) = .ok r ∧
      s.answers [("a", millis 500), ("a", millis 601)] = [true, true] ∧
      r.answers [("a", millis 500), ("a", millis 601)] = [true, false] :=
  ⟨⟨{"a"}, [(millis 1000, "a")], millis 1000, 2, millis 100, 16, 1⟩,
    ⟨{"a"}, [(millis 500, "a")], millis 500, 2, millis 100, 16, 1⟩, by decide +kernel⟩

end ExecutionIds
end LiquidityMigration.Execution
