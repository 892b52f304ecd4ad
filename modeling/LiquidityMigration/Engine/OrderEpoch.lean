import LiquidityMigration.Lib.Checks
import LiquidityMigration.Lib.Decimal
import LiquidityMigration.Lib.Text
import LiquidityMigration.Wal.Record

/- Order ids over the whole life of a log. An id is an epoch, a stamp in whole seconds, and a counter under it. Boot
   makes durable an epoch above all the log remembers; a rollover only appends its record, and a rotation restates the
   epoch. The model runs any number of lives on one log, each under any clock and cut short anywhere. The archive
   reader comes in as its answer. `Session.Sound` is kept within a life, `Ledger.Sound` between lives. -/
namespace LiquidityMigration.Engine
open Wal Checks List Nat

variable {β : Type}

def maxCounter : Nat := 2^18 - 1

def i64Min : Int := -2^63

def i64Max : Int := 2^63 - 1

def idEpoch (id : String) : Option Int := do
  let rest ← "eng-".toList.isPrefixOf? id.toList
  let (epoch, counter) ← Text.splitOnce '-' rest
  let _ ← Decimal.parse (2^64) counter
  Decimal.parseSigned (2^63) epoch

/-- The newest stamp a record of an older log gives away. -/
def recordEpoch : WalRecord β → Option Int
  | .orderIdEpoch epochMs => some epochMs
  | .boot wallTsMs _ => some wallTsMs
  | .orderSent _ clientOrderId _ => idEpoch clientOrderId
  | .segmentBase orderIdEpochMs wallTsMs openOrders _ =>
    (orderIdEpochMs.toList ++ wallTsMs :: openOrders.filterMap idEpoch).max?
  | _ => none

def persistedEpoch : WalRecord β → Option Int
  | .orderIdEpoch epochMs => some epochMs
  | .segmentBase orderIdEpochMs _ _ _ => orderIdEpochMs
  | _ => none

/-- The whole second a clock shows, or the first one after the second of `prior`
when the clock is not past it. -/
def secondAfter (nowMs : Int) : Option Int → Except String Int
  | none => .ok nowMs
  | some prior =>
    let floor := prior - prior % 1000
    -- below the smallest `i64` the subtraction wraps to the top of the range, where
    -- the addition is refused
    if i64Min ≤ floor ∧ floor + 1000 ≤ i64Max then .ok (max nowMs (floor + 1000))
    else .error "order ID epoch exhausted"

def nextEpoch (nowMs : Int) (prior : Option Int) : Except String Int := do
  let epoch ← secondAfter (nowMs - nowMs % 1000) prior
  require (¬ epoch < 0) "order ID epoch is negative"
  return epoch

/-- The newest epoch boot knows of. `reader` is what reading the archived segments
gave, where the log offers a reader for them. -/
def priorEpoch (reader : Option (Except String (Option Int))) (replayed : List (WalRecord β)) :
    Except String (Option Int) :=
  let persisted := (replayed.filterMap persistedEpoch).max?
  if persisted.isSome then .ok persisted
  else match reader with
    | some answer => answer
    | none => .ok (replayed.filterMap recordEpoch).max?

def selectBootEpoch (reader : Option (Except String (Option Int))) (replayed : List (WalRecord β))
    (nowMs : Int) : Except String Int := do
  let prior ← priorEpoch reader replayed
  nextEpoch nowMs prior

def bootPrefix (bootMs : Int) : String := "eng-" ++ toString (bootMs - bootMs % 1000) ++ "-"

/-- An id as it was handed out, with the epoch and the counter it was made of. -/
structure Minted where
  epochMs : Int
  counter : Nat
  id : String
  deriving DecidableEq

/-- What has happened on a log so far: the epochs begun and the ids handed out,
oldest first. The engine keeps no such record; the results are about it. -/
structure History where
  epochs : List Int := []
  minted : List Minted := []
  deriving DecidableEq

def History.enter (h : History) (epochMs : Int) : History := { h with epochs := h.epochs ++ [epochMs] }

def History.hand (h : History) (m : Minted) : History := { h with minted := h.minted ++ [m] }

/-- The running engine, as far as ids go: the log's durable and buffered records
and the fields `mint_id` works on. -/
structure Session (β : Type) where
  (durable buffered : List (WalRecord β))
  orderIdEpochMs : Int
  bootPrefix : String
  nextOrderN : Nat
  history : History

open Session

/-- What one turn of the minting loop may read: the wall clock, which never shows
a time before 1970, and the log's answer to an append. -/
structure Reading where
  nowMs : Nat
  appended : Except String Unit

def Session.rollOver (r : Reading) (s : Session β) : Except String (Session β) :=
  if maxCounter ≤ s.nextOrderN then do
    let epochMs ← nextEpoch r.nowMs (some s.orderIdEpochMs)
    r.appended
    return { s with
      buffered := s.buffered ++ [.orderIdEpoch epochMs]
      orderIdEpochMs := epochMs
      bootPrefix := Engine.bootPrefix epochMs
      nextOrderN := 0
      history := s.history.enter epochMs }
  else return s

/-- One turn of the loop in `mint_id`, up to the id it proposes. -/
def Session.propose (r : Reading) (s : Session β) : Except String (String × Session β) := do
  let s ← s.rollOver r
  let s := { s with nextOrderN := s.nextOrderN + 1 }
  return (s.bootPrefix ++ toString s.nextOrderN, s)

/-- Propose until an id is not taken. The loop makes one turn for each
reading; `none` is a loop that is still going when they end. -/
def Session.mintId (taken : String → Bool) : List Reading → Session β → Option (Except String String) × Session β
  | [], s => (none, s)
  | r :: rs, s =>
    match s.propose r with
    | .error e => (some (.error e), s)
    | .ok (id, s) => if taken id then s.mintId taken rs else (some (.ok id), s)

/-- What a life consists of, as far as ids and the log go. Records other than the
boot's and the rollover's state no epoch. -/
inductive Event (β : Type) where
  | mint (taken : String → Bool) (readings : List Reading)
  | append (record : {r : WalRecord β // persistedEpoch r = none})
  | barrier
  | rotate (wallTsMs : Int) (openOrders : List String) (body : β)

def Session.handle (s : Session β) : Event β → Session β
  | .mint taken readings =>
    match s.mintId taken readings with
    | (some (.ok id), s) => { s with history := s.history.hand ⟨s.orderIdEpochMs, s.nextOrderN, id⟩ }
    | (_, s) => s
  | .append record => { s with buffered := s.buffered ++ [record.val] }
  | .barrier => { s with durable := s.durable ++ s.buffered, buffered := [] }
  | .rotate wallTsMs openOrders body =>
    -- `rotation_base` restates the epoch, and boot reads no further back than the base
    { s with durable := [.segmentBase (some s.orderIdEpochMs) wallTsMs openOrders body], buffered := [] }

structure Ledger (β : Type) where
  log : List (WalRecord β)
  history : History := {}

/-- A life: its clock and archive at boot, what it does, and how many of the
records it leaves buffered outlive the interruption. -/
structure Life (β : Type) where
  reader : Option (Except String (Option Int))
  nowMs : Nat
  events : List (Event β)
  kept : Nat

/-- Boot up to the barrier behind the epoch record. `precision` is the body of the
execution-precision marker appended in front of it. -/
def Session.boot (precision : β) (reader : Option (Except String (Option Int))) (nowMs : Nat) (w : Ledger β) :
    Except String (Session β) := do
  let orderIdEpochMs ← selectBootEpoch reader w.log nowMs
  return {
    durable := w.log ++ [.other precision, .orderIdEpoch orderIdEpochMs]
    buffered := []
    orderIdEpochMs
    bootPrefix := Engine.bootPrefix orderIdEpochMs
    nextOrderN := 0
    history := w.history.enter orderIdEpochMs }

def Life.session (precision : β) (life : Life β) (w : Ledger β) : Except String (Session β) :=
  (Session.boot precision life.reader life.nowMs w).map (life.events.foldl Session.handle)

def Life.lost (precision : β) (life : Life β) (w : Ledger β) : List (WalRecord β) :=
  match life.session precision w with
  | .ok s => s.buffered.drop life.kept
  | .error _ => []

/-- The log the interruption leaves. A boot that is refused appends nothing. -/
def Life.after (precision : β) (life : Life β) (w : Ledger β) : Ledger β :=
  match life.session precision w with
  | .ok s => ⟨s.durable ++ s.buffered.take life.kept, s.history⟩
  | .error _ => w

def runLives (precision : β) (lives : List (Life β)) (w : Ledger β) : Ledger β :=
  lives.foldl (fun w life => life.after precision w) w

def EpochsKept (precision : β) : List (Life β) → Ledger β → Prop
  | [], _ => True
  | life :: rest, w => (∀ r ∈ life.lost precision w, persistedEpoch r = none) ∧
    EpochsKept precision rest (life.after precision w)

instance EpochsKept.decidable (precision : β) :
    (lives : List (Life β)) → (w : Ledger β) → Decidable (EpochsKept precision lives w)
  | [], _ => isTrue trivial
  | life :: rest, w =>
    have := EpochsKept.decidable precision rest (life.after precision w)
    inferInstanceAs (Decidable ((∀ r ∈ life.lost precision w, persistedEpoch r = none) ∧ _))

theorem nextEpoch_eq_ok {nowMs e : Int} {prior : Option Int} (h : nextEpoch nowMs prior = .ok e) :
    secondAfter (nowMs - nowMs % 1000) prior = .ok e ∧ 0 ≤ e := by
  simp only [nextEpoch, bind_eq_ok, require_eq_ok] at h
  obtain ⟨epoch, hepoch, u, hneg, h⟩ := h
  cases h
  exact ⟨hepoch, by omega⟩

theorem nextEpoch_whole {nowMs e : Int} {prior : Option Int} (h : nextEpoch nowMs prior = .ok e) :
    0 ≤ e ∧ e % 1000 = 0 := by
  obtain ⟨hsecond, hpos⟩ := nextEpoch_eq_ok h
  refine ⟨hpos, ?_⟩
  cases prior with
  | none => cases hsecond; omega
  | some prior =>
    simp only [secondAfter] at hsecond
    split at hsecond
    · cases hsecond; omega
    · cases hsecond

theorem nextEpoch_gt {nowMs e prior : Int} (h : nextEpoch nowMs (some prior) = .ok e) : prior < e := by
  obtain ⟨hsecond, -⟩ := nextEpoch_eq_ok h
  simp only [secondAfter] at hsecond
  split at hsecond
  · cases hsecond; omega
  · cases hsecond

theorem selectBootEpoch_eq_ok {reader : Option (Except String (Option Int))} {replayed : List (WalRecord β)}
    {nowMs e : Int} (h : selectBootEpoch reader replayed nowMs = .ok e) :
    (0 ≤ e ∧ e % 1000 = 0) ∧ ∀ r ∈ replayed, ∀ p, persistedEpoch r = some p → p < e := by
  simp only [selectBootEpoch, bind_eq_ok] at h
  obtain ⟨prior, hprior, h⟩ := h
  refine ⟨nextEpoch_whole h, ?_⟩
  intro r hr p hp
  have hmem : p ∈ replayed.filterMap persistedEpoch := mem_filterMap.mpr ⟨r, hr, hp⟩
  obtain ⟨newest, hnewest⟩ := Option.isSome_iff_exists.mp (isSome_max?_of_mem hmem)
  simp only [priorEpoch, hnewest, Option.isSome_some, if_true] at hprior
  cases hprior
  have hle : p ≤ newest := (max?_eq_some_iff.mp hnewest).2 p hmem
  have hgt := nextEpoch_gt h
  omega

theorem bootPrefix_toList {e : Nat} (he : e % 1000 = 0) (n : Nat) :
    (bootPrefix e ++ toString n).toList = "eng-".toList ++ (Nat.toDigits 10 e ++ '-' :: Nat.toDigits 10 n) := by
  have hfloor : (e : Int) - (e : Int) % 1000 = (e : Int) := by omega
  have hprint : toString (e : Int) = toString e := rfl
  simp only [bootPrefix, hfloor, hprint, toString_eq_ofList_toDigits]
  simp

theorem orderId_inj {e e' : Int} {n n' : Nat} (he : 0 ≤ e ∧ e % 1000 = 0) (he' : 0 ≤ e' ∧ e' % 1000 = 0)
    (h : bootPrefix e ++ toString n = bootPrefix e' ++ toString n') : e = e' ∧ n = n' := by
  obtain ⟨a, rfl⟩ := Int.eq_ofNat_of_zero_le he.1
  obtain ⟨b, rfl⟩ := Int.eq_ofNat_of_zero_le he'.1
  have htext := congrArg String.toList h
  rw [bootPrefix_toList (by omega), bootPrefix_toList (by omega)] at htext
  obtain ⟨hstamp, hcounter⟩ := Text.append_sep_inj (Decimal.dash_not_mem_toDigits a)
    (Decimal.dash_not_mem_toDigits b) (append_cancel_left htext)
  exact ⟨congrArg _ (Decimal.toDigits_injective hstamp), Decimal.toDigits_injective hcounter⟩

/-- Handed out under an older epoch, or under the same one with a smaller counter. -/
def Minted.before (a b : Minted) : Prop :=
  a.epochMs < b.epochMs ∨ a.epochMs = b.epochMs ∧ a.counter < b.counter

structure History.Sound (h : History) : Prop where
  ascending : h.epochs.Pairwise (· < ·)
  whole : ∀ e ∈ h.epochs, 0 ≤ e ∧ e % 1000 = 0
  minted : ∀ m ∈ h.minted, m.epochMs ∈ h.epochs ∧ (1 ≤ m.counter ∧ m.counter ≤ maxCounter) ∧
    m.id = bootPrefix m.epochMs ++ toString m.counter
  ordered : h.minted.Pairwise Minted.before

namespace History.Sound
variable {h : History} {e : Int} {m : Minted}

theorem empty : History.Sound {} := ⟨.nil, by simp, by simp, .nil⟩

theorem enter (hs : h.Sound) (hwhole : 0 ≤ e ∧ e % 1000 = 0) (hnew : ∀ e' ∈ h.epochs, e' < e) : (h.enter e).Sound where
  ascending := pairwise_append.mpr ⟨hs.ascending, pairwise_singleton _ _, by simpa using hnew⟩
  whole := by
    intro e' he'
    rcases mem_append.mp he' with he' | he'
    · exact hs.whole e' he'
    · rw [mem_singleton.mp he']; exact hwhole
  minted := fun m hm => ⟨mem_append_left _ (hs.minted m hm).1, (hs.minted m hm).2⟩
  ordered := hs.ordered

theorem hand (hs : h.Sound) (hepoch : m.epochMs ∈ h.epochs) (hcounter : 1 ≤ m.counter ∧ m.counter ≤ maxCounter)
    (hid : m.id = bootPrefix m.epochMs ++ toString m.counter) (hnew : ∀ m' ∈ h.minted, m'.before m) :
    (h.hand m).Sound where
  ascending := hs.ascending
  whole := hs.whole
  minted := by
    intro m' hm'
    rcases mem_append.mp hm' with hm' | hm'
    · exact hs.minted m' hm'
    · rw [mem_singleton.mp hm']; exact ⟨hepoch, hcounter, hid⟩
  ordered := pairwise_append.mpr ⟨hs.ordered, pairwise_singleton _ _, by simpa using hnew⟩

theorem ids_nodup (hs : h.Sound) : (h.minted.map Minted.id).Nodup := by
  rw [List.Nodup, pairwise_map]
  refine hs.ordered.imp_of_mem ?_
  intro a b ha hb hbefore hids
  obtain ⟨ha, -, hida⟩ := hs.minted a ha
  obtain ⟨hb, -, hidb⟩ := hs.minted b hb
  rw [hida, hidb] at hids
  obtain ⟨hepoch, hcounter⟩ := orderId_inj (hs.whole _ ha) (hs.whole _ hb) hids
  rcases hbefore with hlt | ⟨-, hlt⟩
  · omega
  · omega

end History.Sound

structure Session.Sound (s : Session β) : Prop where
  history : s.history.Sound
  stamped : s.bootPrefix = Engine.bootPrefix s.orderIdEpochMs
  counter_le : s.nextOrderN ≤ maxCounter
  recorded : ∃ r ∈ s.durable ++ s.buffered, persistedEpoch r = some s.orderIdEpochMs
  current : s.orderIdEpochMs ∈ s.history.epochs
  newest : ∀ e ∈ s.history.epochs, e ≤ s.orderIdEpochMs
  spent : ∀ m ∈ s.history.minted, m.epochMs = s.orderIdEpochMs → m.counter ≤ s.nextOrderN

namespace Session.Sound
variable {s s' : Session β}

theorem rollOver {r : Reading} (hs : s.Sound) (h : s.rollOver r = .ok s') : s'.Sound ∧ s'.nextOrderN < maxCounter := by
  unfold Session.rollOver at h
  split at h
  · simp only [bind_eq_ok] at h
    obtain ⟨epochMs, hepoch, u, happend, h⟩ := h
    cases h
    have hgt := nextEpoch_gt hepoch
    have hnew : ∀ e ∈ s.history.epochs, e < epochMs := fun e he => lt_of_le_of_lt (hs.newest e he) hgt
    refine ⟨?_, show 0 < maxCounter by decide⟩
    exact {
      history := hs.history.enter (nextEpoch_whole hepoch) hnew
      stamped := rfl
      counter_le := zero_le _
      recorded := ⟨.orderIdEpoch epochMs, by simp, rfl⟩
      current := by simp [History.enter]
      newest := by
        intro e he
        rcases mem_append.mp he with he | he
        · exact (hnew e he).le
        · exact (mem_singleton.mp he).le
      -- nothing has been handed out under the epoch that only begins here
      spent := fun m hm heq => absurd heq (hnew _ (hs.history.minted m hm).1).ne }
  · next hlt =>
    cases h
    exact ⟨hs, by omega⟩

theorem propose {r : Reading} {id : String} (hs : s.Sound) (h : s.propose r = .ok (id, s')) :
    s'.Sound ∧ id = Engine.bootPrefix s'.orderIdEpochMs ++ toString s'.nextOrderN ∧ 1 ≤ s'.nextOrderN ∧
      ∀ m ∈ s'.history.minted, m.before ⟨s'.orderIdEpochMs, s'.nextOrderN, id⟩ := by
  simp only [Session.propose, bind_eq_ok] at h
  obtain ⟨t, hroll, h⟩ := h
  cases h
  obtain ⟨ht, hlt⟩ := hs.rollOver hroll
  refine ⟨?_, ?_, ?_, ?_⟩
  · exact { ht with
      counter_le := hlt
      spent := fun m hm heq => (ht.spent m hm heq).trans (le_succ _) }
  · show t.bootPrefix ++ _ = _
    rw [ht.stamped]
  · exact succ_le_succ (zero_le _)
  · intro m hm
    have hepoch := ht.newest _ (ht.history.minted m hm).1
    rcases hepoch.lt_or_eq with holder | hsame
    · exact Or.inl holder
    · exact Or.inr ⟨hsame, lt_succ_of_le (ht.spent m hm hsame)⟩

/-- Whatever the loop passes over, it stops in a sound session, and an id it
returns is newer than every id before. -/
theorem mintId {taken : String → Bool} {readings : List Reading} {answer : Option (Except String String)}
    (hs : s.Sound) (h : s.mintId taken readings = (answer, s')) :
    s'.Sound ∧ ∀ id, answer = some (.ok id) →
      id = Engine.bootPrefix s'.orderIdEpochMs ++ toString s'.nextOrderN ∧ 1 ≤ s'.nextOrderN ∧
        ∀ m ∈ s'.history.minted, m.before ⟨s'.orderIdEpochMs, s'.nextOrderN, id⟩ := by
  induction readings generalizing s with
  | nil =>
    cases h
    exact ⟨hs, fun id hid => by cases hid⟩
  | cons r rs ih =>
    rw [mintId] at h
    split at h
    · cases h
      exact ⟨hs, fun id hid => by cases hid⟩
    · next id t hpropose =>
      obtain ⟨ht, hid, hpos, hnew⟩ := hs.propose hpropose
      split at h
      · exact ih ht h
      · cases h
        refine ⟨ht, ?_⟩
        intro id' hid'
        cases hid'
        exact ⟨hid, hpos, hnew⟩

theorem handle (hs : s.Sound) (event : Event β) : (s.handle event).Sound := by
  cases event with
  | mint taken readings =>
    simp only [Session.handle]
    split
    · next id t hmint =>
      obtain ⟨ht, hid⟩ := hs.mintId hmint
      obtain ⟨hid, hpos, hnew⟩ := hid id rfl
      exact { ht with
        history := ht.history.hand ht.current ⟨hpos, ht.counter_le⟩ hid hnew
        spent := by
          intro m hm heq
          rcases mem_append.mp hm with hm | hm
          · exact ht.spent m hm heq
          · rw [mem_singleton.mp hm] }
    · next answer t hmint => exact (hs.mintId hmint).1
  | append record =>
    obtain ⟨r, hr, hepoch⟩ := hs.recorded
    have hr' : r ∈ s.durable ++ (s.buffered ++ [record.val]) := by
      rw [← append_assoc]
      exact mem_append_left _ hr
    exact { hs with recorded := ⟨r, hr', hepoch⟩ }
  | barrier =>
    obtain ⟨r, hr, hepoch⟩ := hs.recorded
    exact { hs with recorded := ⟨r, by simpa [Session.handle] using hr, hepoch⟩ }
  | rotate wallTsMs openOrders body =>
    exact { hs with recorded := ⟨_, mem_singleton.mpr rfl, rfl⟩ }

theorem run (hs : s.Sound) (events : List (Event β)) : (events.foldl Session.handle s).Sound := by
  induction events generalizing s with
  | nil => exact hs
  | cons event events ih => exact ih (hs.handle event)

end Session.Sound

/-- What the log and its history maintain between lives: no epoch is newer than
what the log remembers. -/
structure Ledger.Sound (w : Ledger β) : Prop where
  history : w.history.Sound
  remembered : ∀ e ∈ w.history.epochs, ∃ r ∈ w.log, ∃ p, persistedEpoch r = some p ∧ e ≤ p

variable {precision : β} {s : Session β} {w : Ledger β}

theorem Session.boot_sound {reader : Option (Except String (Option Int))} {nowMs : Nat} (hw : w.Sound)
    (h : boot precision reader nowMs w = .ok s) : s.Sound := by
  simp only [boot, bind_eq_ok] at h
  obtain ⟨e, hselect, h⟩ := h
  cases h
  obtain ⟨hwhole, hgt⟩ := selectBootEpoch_eq_ok hselect
  have hnew : ∀ e' ∈ w.history.epochs, e' < e := by
    intro e' he'
    obtain ⟨r, hr, p, hp, hle⟩ := hw.remembered e' he'
    exact lt_of_le_of_lt hle (hgt r hr p hp)
  exact {
    history := hw.history.enter hwhole hnew
    stamped := rfl
    counter_le := zero_le _
    recorded := ⟨.orderIdEpoch e, by simp, rfl⟩
    current := by simp [History.enter]
    newest := by
      intro e' he'
      rcases mem_append.mp he' with he' | he'
      · exact (hnew e' he').le
      · exact (mem_singleton.mp he').le
    spent := fun m hm heq => absurd heq (hnew _ (hw.history.minted m hm).1).ne }

theorem Life.after_sound {life : Life β} (hw : w.Sound)
    (hkept : ∀ r ∈ life.lost precision w, persistedEpoch r = none) : (life.after precision w).Sound := by
  unfold Life.after
  unfold Life.lost at hkept
  split
  · next s hsession =>
    rw [hsession] at hkept
    obtain ⟨start, hboot, hrun⟩ := map_eq_ok.mp hsession
    have hs : s.Sound := hrun ▸ (Session.boot_sound hw hboot).run life.events
    refine ⟨hs.history, ?_⟩
    intro e he
    obtain ⟨r, hr, hepoch⟩ := hs.recorded
    -- the record of the current epoch is not among those that are lost
    rw [← take_append_drop life.kept s.buffered, ← append_assoc, mem_append] at hr
    rcases hr with hr | hr
    · exact ⟨r, hr, _, hepoch, hs.newest e he⟩
    · rw [hkept r hr] at hepoch
      cases hepoch
  · exact hw

theorem runLives_sound {lives : List (Life β)} (hw : w.Sound)
    (hkept : EpochsKept precision lives w) : (runLives precision lives w).Sound := by
  induction lives generalizing w with
  | nil => exact hw
  | cons life rest ih => exact ih (Life.after_sound hw hkept.1) hkept.2

theorem Ledger.sound_of_log (log : List (WalRecord β)) : Ledger.Sound ⟨log, {}⟩ :=
  ⟨.empty, by simp⟩

/-- On any log, over any number of lives under any clocks, interrupted anywhere as
long as no epoch record is lost: no id is handed out twice, every epoch is a whole
second above all epochs before it, and every counter is in range. -/
theorem mintedOnce (precision : β) (log : List (WalRecord β)) (lives : List (Life β))
    (hkept : EpochsKept precision lives ⟨log, {}⟩) :
    ((runLives precision lives ⟨log, {}⟩).history.minted.map Minted.id).Nodup ∧
    (runLives precision lives ⟨log, {}⟩).history.epochs.Pairwise (· < ·) ∧
    (∀ e ∈ (runLives precision lives ⟨log, {}⟩).history.epochs, e % 1000 = 0) ∧
    ∀ m ∈ (runLives precision lives ⟨log, {}⟩).history.minted, 1 ≤ m.counter ∧ m.counter ≤ 262143 := by
  have hs := (runLives_sound (Ledger.sound_of_log log) hkept).history
  exact ⟨hs.ids_nodup, hs.ascending, fun e he => (hs.whole e he).2, fun m hm => (hs.minted m hm).2.1⟩

/-- One turn under a clock that stands at `nowMs`, with a log that takes the append
and no id taken. -/
def plainMint (nowMs : Nat) : Event β := .mint (fun _ => false) [⟨nowMs, .ok ()⟩]

/-- A second life whose clock has gone back by a year mints under a later second. -/
theorem mintedOnce_clockBack : EpochsKept () [⟨none, 1700000000123, [plainMint 1700000000124, .rotate 0 [] ()], 0⟩,
      ⟨none, 1668464000000, [plainMint 1668464000001], 0⟩] ⟨[], {}⟩ ∧
    ((runLives () [⟨none, 1700000000123, [plainMint 1700000000124, .rotate 0 [] ()], 0⟩,
      ⟨none, 1668464000000, [plainMint 1668464000001], 0⟩] ⟨[], {}⟩).history.minted.map Minted.id).Nodup :=
  ⟨by decide +kernel, (mintedOnce () [] _ (by decide +kernel)).1⟩

theorem handle_plainMint (nowMs : Nat) (h : s.nextOrderN < maxCounter) : s.handle (plainMint nowMs) = { s with
      nextOrderN := s.nextOrderN + 1
      history := s.history.hand ⟨s.orderIdEpochMs, s.nextOrderN + 1,
        s.bootPrefix ++ toString (s.nextOrderN + 1)⟩ } := by
  simp only [handle, plainMint, mintId, propose, rollOver, if_neg (Nat.not_le_of_lt h)]
  rfl

theorem handle_plainMints (k nowMs : Nat) (h : s.nextOrderN + k ≤ maxCounter) :
    ∃ minted, (List.replicate k (plainMint nowMs)).foldl handle s = { s with
      nextOrderN := s.nextOrderN + k
      history := ⟨s.history.epochs, minted⟩ } := by
  induction k generalizing s with
  | zero => exact ⟨s.history.minted, rfl⟩
  | succ k ih =>
    have hone := handle_plainMint nowMs (s := s) (by omega)
    have hroom : (s.handle (plainMint nowMs)).nextOrderN + k ≤ maxCounter := by
      rw [hone]
      show s.nextOrderN + 1 + k ≤ maxCounter
      omega
    obtain ⟨minted, hrun⟩ := ih hroom
    refine ⟨minted, ?_⟩
    rw [replicate_succ, foldl_cons, hrun, hone]
    simp [History.hand, add_assoc, add_comm 1 k]

/-- Every id of the first epoch, then one of the next, then a crash that keeps
nothing buffered. -/
def spentLife : Life Unit := ⟨none, 0, List.replicate maxCounter (plainMint 0) ++ [plainMint 0], 0⟩

def firstOfSecond : Minted := ⟨1000, 1, bootPrefix 1000 ++ toString 1⟩

theorem spentLife_after : ∃ minted, spentLife.after () ⟨[], {}⟩ =
    ⟨[.other (), .orderIdEpoch 0], [0, 1000], minted ++ [firstOfSecond]⟩ := by
  have hboot : boot () none 0 ⟨[], {}⟩ = .ok
      ⟨[.other (), .orderIdEpoch 0], [], 0, bootPrefix 0, 0, ⟨[0], []⟩⟩ := by rfl
  obtain ⟨minted, hrun⟩ := handle_plainMints maxCounter 0
    (s := ⟨[.other (), .orderIdEpoch 0], [], 0, bootPrefix 0, 0, ⟨[0], []⟩⟩) (by simp)
  refine ⟨minted, ?_⟩
  have hsession : spentLife.session () ⟨[], {}⟩ = .ok
      ⟨[.other (), .orderIdEpoch 0], [.orderIdEpoch 1000], 1000, bootPrefix 1000, 1,
        ⟨[0, 1000], minted ++ [firstOfSecond]⟩⟩ := by
    rw [Life.session, spentLife, hboot]
    simp only [Except.map, foldl_append, foldl_cons, foldl_nil, hrun]
    simp only [handle, plainMint, mintId, propose, rollOver, zero_add, le_refl, if_true]
    rfl
  rw [Life.after, hsession]
  rfl

/-- The boot records of both lives are durable and the clock never goes back, and
still the second life mints an id of the first: the crash lost the record of the
epoch the first had rolled over into. -/
theorem mintedAgain :
    ¬ ((runLives () [spentLife, ⟨none, 0, [plainMint 0], 0⟩] ⟨[], {}⟩).history.minted.map Minted.id).Nodup := by
  obtain ⟨minted, hafter⟩ := spentLife_after
  have hminted : (runLives () [spentLife, ⟨none, 0, [plainMint 0], 0⟩] ⟨[], {}⟩).history.minted =
      minted ++ [firstOfSecond, firstOfSecond] := by
    have hboot : boot () none 0
        ⟨[.other (), .orderIdEpoch 0], [0, 1000], minted ++ [firstOfSecond]⟩ = .ok
          ⟨[.other (), .orderIdEpoch 0, .other (), .orderIdEpoch 1000], [], 1000, bootPrefix 1000, 0,
            ⟨[0, 1000, 1000], minted ++ [firstOfSecond]⟩⟩ := by rfl
    rw [runLives, foldl_cons, hafter, foldl_cons, foldl_nil, Life.after, Life.session, hboot]
    simp only [Except.map, foldl_cons, foldl_nil]
    rw [handle_plainMint 0 (s := ⟨_, _, _, _, 0, _⟩) (by show 0 < maxCounter; decide)]
    show (minted ++ [firstOfSecond]) ++ [firstOfSecond] = _
    rw [append_assoc, singleton_append]
  intro hnodup
  rw [hminted, map_append] at hnodup
  simpa using (nodup_append.mp hnodup).2.1

end LiquidityMigration.Engine
