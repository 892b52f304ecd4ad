import LiquidityMigration.Ledger.Fills

/- The cache of ended orders. A trim drops ended orders, oldest sent first, until both limits hold (`trim_eq_ok`),
   but only where a record has set the flag since the last trim to the same limits; while it is clear the ended
   orders fit them (`Trimmed`). A note that ends an order does not set the flag: `FlaggedEnd` says that it comes only
   while it is set, and then every trim leaves the cache within its limits. -/
namespace LiquidityMigration.Ledger
open Numeric Checks Orders Portfolio LedgerOfOrders List

/-- When an order was sent; those of one time are told apart by id. -/
def OrderRec.sent (row : OrderRec) : ℕ ×ₗ String := toLex (row.wireNs, row.id)

namespace LedgerOfOrders
variable {b : Binary64} {size : OpenOrderState → Except String Nat} {ledger ledger' after : LedgerOfOrders}
  {record : Record} {capacity byteCapacity : Nat}

def ended (ledger : LedgerOfOrders) : List OrderRec := ledger.orders.rows.filter fun row => !row.inFlight

theorem mem_ended {row : OrderRec} : row ∈ ledger.ended ↔ row ∈ ledger.orders ∧ row.inFlight = false := by
  rw [ended, mem_filter, Table.mem_rows, Bool.not_eq_true_eq_eq_false]

variable (b size capacity byteCapacity) in
structure Fits (ledger : LedgerOfOrders) : Prop where
  count : ledger.ended.length ≤ capacity
  bytes : ∃ terminals, ledger.ended.mapM (terminalOf b size) = .ok terminals ∧
    (terminals.map Terminal.size).sum ≤ byteCapacity

theorem terminalOf_eq_ok {row : OrderRec} {terminal : Terminal} (h : terminalOf b size row = .ok terminal) :
    terminal.wireNs = row.wireNs ∧ terminal.id = row.id := by
  simp only [terminalOf, bind_eq_ok] at h
  obtain ⟨snapshot, _, length, _, heq⟩ := h
  injection heq with heq
  rw [← heq]
  exact ⟨rfl, rfl⟩

/-- The loop drops the terminals from the front, up to where what is left is within the limits. -/
theorem evict_eq (terminals : List Terminal) (count bytes : Nat) (orders : Table OrderRec.id) :
    ∃ gone kept, terminals = gone ++ kept ∧ evict capacity byteCapacity terminals count bytes orders =
        (gone.map Terminal.id, orders.eraseAll (gone.map Terminal.id)) ∧
      (kept = [] ∨ count - gone.length ≤ capacity ∧ bytes - (gone.map Terminal.size).sum ≤ byteCapacity) := by
  induction terminals generalizing count bytes orders with
  | nil => exact ⟨[], [], rfl, rfl, .inl rfl⟩
  | cons terminal rest ih =>
    by_cases hfits : count ≤ capacity ∧ bytes ≤ byteCapacity
    · refine ⟨[], terminal :: rest, rfl, ?_, .inr (by simpa using hfits)⟩
      rw [evict, if_pos hfits]
      rfl
    · obtain ⟨gone, kept, hsplit, hevict, hleft⟩ := ih (count - 1) (bytes - terminal.size) (orders.erase terminal.id)
      refine ⟨terminal :: gone, kept, by rw [hsplit, cons_append], ?_, ?_⟩
      · rw [evict, if_neg hfits, hevict]
        rfl
      · rcases hleft with hnone | hleft
        · exact .inl hnone
        · right
          rw [length_cons, map_cons, sum_cons]
          omega

variable (b size capacity byteCapacity) in
/-- What a trim that looks does: it splits the ended orders, and keeps those sent later. -/
structure Split (ledger : LedgerOfOrders) (gone kept : List OrderRec) : Prop where
  perm : (gone ++ kept).Perm ledger.ended
  sorted : (gone ++ kept).Pairwise fun x y => x.sent < y.sent
  count : kept.length ≤ capacity
  bytes : ∃ terminals, List.Forall₂ (fun row terminal => terminalOf b size row = .ok terminal) kept terminals ∧
    (terminals.map Terminal.size).sum ≤ byteCapacity

def trimmed (ledger : LedgerOfOrders) (capacity byteCapacity : Nat) (removed : List String) : LedgerOfOrders :=
  { ledger with
    orders := ledger.orders.eraseAll removed
    terminalCacheDirty := false
    terminalCacheLimits := some (capacity, byteCapacity) }

theorem nodup_ended (ledger : LedgerOfOrders) : (ledger.ended.map OrderRec.id).Nodup :=
  ledger.orders.nodup_keys.sublist (filter_sublist.map _)

theorem sorted_of_ranked {rows : List OrderRec} {terminals : List Terminal} (hrows : rows.Perm ledger.ended)
    (hread : List.Forall₂ (fun row terminal => terminalOf b size row = .ok terminal) rows terminals)
    (hranked : terminals.Pairwise Terminal.NotAfter) : rows.Pairwise (fun x y => x.sent < y.sent) := by
  have hranks : rows.map OrderRec.sent = terminals.map (fun terminal => toLex (terminal.wireNs, terminal.id)) := by
    rw [← forall₂_eq_eq_eq, forall₂_map_left_iff, forall₂_map_right_iff]
    refine hread.imp ?_
    intro row terminal hterminal
    obtain ⟨hwire, hid⟩ := terminalOf_eq_ok hterminal
    rw [hwire, hid]
    rfl
  have hle : (rows.map OrderRec.sent).Pairwise (· ≤ ·) := by
    rw [hranks]
    refine pairwise_map.mpr (hranked.imp ?_)
    intro x y hxy
    rcases Prod.Lex.toLex_le_toLex.mp hxy with hlt | ⟨heq, hrest⟩
    · exact Prod.Lex.toLex_le_toLex.mpr (.inl hlt)
    · rcases Prod.Lex.toLex_le_toLex.mp hrest with hlt | ⟨hid, _⟩
      · exact Prod.Lex.toLex_le_toLex.mpr (.inr ⟨heq, hlt.le⟩)
      · exact Prod.Lex.toLex_le_toLex.mpr (.inr ⟨heq, hid.le⟩)
  have hne : rows.Pairwise (fun x y => x.id ≠ y.id) :=
    pairwise_map.mp ((hrows.map OrderRec.id).nodup_iff.mpr ledger.nodup_ended)
  refine ((pairwise_map.mp hle).and hne).imp ?_
  intro x y hxy
  refine lt_of_le_of_ne hxy.1 ?_
  intro heq
  exact hxy.2 (congrArg (fun sent => (ofLex sent).2) heq)

variable {removed : List String}

theorem trim_eq_ok (h : ledger.trimTerminalCache b size capacity byteCapacity = .ok (removed, after)) :
    (ledger.terminalCacheDirty = false ∧ ledger.terminalCacheLimits = some (capacity, byteCapacity) ∧
        removed = [] ∧ after = ledger) ∨
      ∃ gone kept, Split b size capacity byteCapacity ledger gone kept ∧
        removed = gone.map OrderRec.id ∧ after = ledger.trimmed capacity byteCapacity removed := by
  unfold trimTerminalCache at h
  split at h
  · next hclean =>
    injection h with h
    obtain ⟨rfl, rfl⟩ : [] = removed ∧ ledger = after := by simpa using h
    exact .inl ⟨hclean.1, hclean.2, rfl, rfl⟩
  · rw [bind_eq_ok] at h
    obtain ⟨terminals, hterminals, h⟩ := h
    obtain ⟨gone, kept, hsplit, hevict, hleft⟩ := @evict_eq capacity byteCapacity
      (terminals.insertionSort Terminal.NotAfter) (terminals.insertionSort Terminal.NotAfter).length
      ((terminals.insertionSort Terminal.NotAfter).map Terminal.size).sum ledger.orders
    simp only [hevict] at h
    injection h with h
    obtain ⟨rfl, rfl⟩ : gone.map Terminal.id = removed ∧ _ = after := by simpa using h
    -- the rows in the order of the ranked terminals
    have hperm := perm_insertionSort Terminal.NotAfter terminals
    obtain ⟨rows, hrows, hended⟩ := perm_comp_forall₂ hperm (mapM_eq_ok.mp hterminals).flip
    rw [hsplit] at hrows hperm
    have hread := hrows.flip
    have hgone := forall₂_take_append rows gone kept hread
    have hkept := forall₂_drop_append rows gone kept hread
    refine .inr ⟨rows.take gone.length, rows.drop gone.length, ⟨?_, ?_, ?_, kept, hkept, ?_⟩, ?_, rfl⟩
    · rwa [take_append_drop]
    · rw [take_append_drop]
      refine sorted_of_ranked hended hread ?_
      rw [← hsplit]
      exact pairwise_insertionSort _ _
    · rw [hkept.length_eq]
      rcases hleft with rfl | ⟨hcount, _⟩
      · exact Nat.zero_le _
      · rw [hsplit, length_append] at hcount
        omega
    · rcases hleft with rfl | ⟨_, hbytes⟩
      · exact Nat.zero_le _
      · rw [hsplit, map_append, sum_append] at hbytes
        omega
    · rw [← forall₂_eq_eq_eq, forall₂_map_left_iff, forall₂_map_right_iff]
      exact hgone.flip.imp fun terminal row hterminal => (terminalOf_eq_ok hterminal).2

namespace Split
variable {gone kept : List OrderRec}

section
variable (h : Split b size capacity byteCapacity ledger gone kept)
include h

theorem nodup : ((gone ++ kept).map OrderRec.id).Nodup :=
  (h.perm.map OrderRec.id).nodup_iff.mpr ledger.nodup_ended

theorem ended_trimmed : (ledger.trimmed capacity byteCapacity (gone.map OrderRec.id)).ended.Perm kept := by
  have hcomm : (ledger.trimmed capacity byteCapacity (gone.map OrderRec.id)).ended =
      ledger.ended.filter (fun row => row.id ∉ gone.map OrderRec.id) := by
    unfold ended trimmed
    dsimp only
    rw [Table.rows_eraseAll, filter_filter, filter_filter]
    apply filter_congr
    intro row _
    rw [Bool.and_comm, contains_eq_mem, decide_not]
  have hnodup := h.nodup
  rw [map_append, nodup_append] at hnodup
  have hgone : gone.filter (fun row => row.id ∉ gone.map OrderRec.id) = [] := by
    apply filter_eq_nil_iff.mpr
    intro row hrow
    simp only [decide_eq_true_eq, not_not]
    exact mem_map_of_mem hrow
  have hkept : kept.filter (fun row => row.id ∉ gone.map OrderRec.id) = kept := by
    apply filter_eq_self.mpr
    intro row hrow
    apply decide_eq_true
    intro hmem
    exact hnodup.2.2 _ hmem _ (mem_map_of_mem hrow) rfl
  have hfiltered := h.perm.filter fun row => row.id ∉ gone.map OrderRec.id
  rw [filter_append, hgone, hkept, nil_append] at hfiltered
  rw [hcomm]
  exact hfiltered.symm

theorem fits : Fits b size capacity byteCapacity (ledger.trimmed capacity byteCapacity (gone.map OrderRec.id)) := by
  have hperm := h.ended_trimmed
  obtain ⟨terminals, hread, hbytes⟩ := h.bytes
  obtain ⟨left, hleft, hsame⟩ := perm_comp_forall₂ hperm hread
  refine ⟨hperm.length_eq.le.trans h.count, left, mapM_eq_ok.mpr hleft, ?_⟩
  rw [(hsame.map Terminal.size).sum_eq]
  exact hbytes

end

end Split

inductive Event where
  | record (record : Record)
  | trim (capacity byteCapacity : Nat)

variable (b size ledger) in
/-- One event: a record is accepted, a trim that fails leaves the ledger as it is. -/
def handle :
    Event → Except Failure LedgerOfOrders
  | .record record => ledger.accept b record
  | .trim capacity byteCapacity =>
    match ledger.trimTerminalCache b size capacity byteCapacity with
    | .ok (_, after) => .ok after
    | .error _ => .ok ledger

variable (b size ledger) in
/-- The ledger after records that are all accepted, with trims between them. -/
def live (events : List Event) :
    Except Failure LedgerOfOrders := events.foldlM (handle b size) ledger

/-- A note that an order of the ledger was never sent comes only while the flag is set. -/
def FlaggedEnd (ledger : LedgerOfOrders) : Event → Prop
  | .record (.note source text) =>
    ∀ id, neverSentId source text = some id → ledger.orders.get? id ≠ none → ledger.terminalCacheDirty = true
  | _ => True

def FlaggedEnds (b : Binary64) (size : OpenOrderState → Except String Nat) : LedgerOfOrders → List Event → Prop
  | _, [] => True
  | ledger, event :: events =>
    ledger.FlaggedEnd event ∧ ∀ next, ledger.handle b size event = .ok next → FlaggedEnds b size next events

variable (b size ledger) in
/-- While the flag is clear, the ended orders fit the limits they were last trimmed to. -/
def Trimmed : Prop :=
  ledger.terminalCacheDirty = false → ∀ capacity byteCapacity,
    ledger.terminalCacheLimits = some (capacity, byteCapacity) → Fits b size capacity byteCapacity ledger

def cacheState (ledger : LedgerOfOrders) : Bool × Option (Nat × Nat) :=
  (ledger.terminalCacheDirty, ledger.terminalCacheLimits)

theorem applyValidated_cacheState (h : ledger.applyValidated b record = .ok ledger') :
    ledger'.cacheState = ledger.cacheState := by
  rcases applyValidated_cases h with ⟨boots, rfl⟩ | ⟨k, f, -, hon⟩ | ⟨row, rfl⟩ | ⟨orders, -, hall⟩
  · rfl
  · rcases onOrder_eq_ok hon with ⟨_, rfl⟩ | ⟨_, _, _, _, rfl⟩ <;> rfl
  · rfl
  · have hrows : ∀ (ledger : LedgerOfOrders) order next, ledger.restoreSnapshotOrder b order = .ok next →
        next.cacheState = ledger.cacheState := by
      intro ledger order next hnext
      obtain ⟨row, _, rfl⟩ := restoreSnapshotOrder_eq_ok hnext
      rfl
    exact (foldlM_keeps cacheState hrows hall :)

theorem accept_clean (hflag : ledger.FlaggedEnd (.record record)) (h : ledger.accept b record = .ok ledger')
    (hclean : ledger'.terminalCacheDirty = false) : ledger'.orders = ledger.orders ∧
      ledger'.cacheState = ledger.cacheState := by
  have happly := (accept_eq_ok.mp h).2
  have hstate := applyValidated_cacheState happly
  have hdirty : (ledger.flag record).terminalCacheDirty = false := (congrArg Prod.fst hstate).symm.trans hclean
  have hunflagged : flagged record = false := by
    cases hkind : flagged record with
    | false => rfl
    | true =>
      unfold flag at hdirty
      rw [hkind] at hdirty
      cases hdirty
  have hsame : ledger.flag record = ledger := by
    unfold flag
    rw [hunflagged]
    rfl
  rw [hsame] at happly hstate hdirty
  refine ⟨?_, hstate⟩
  cases record with
  | boot =>
    injection happly with happly
    exact happly ▸ rfl
  | other =>
    injection happly with happly
    exact happly ▸ rfl
  | note source text =>
    simp only [applyValidated] at happly
    split at happly
    · injection happly with happly
      exact happly ▸ rfl
    · next id hid =>
      rcases onOrder_eq_ok happly with ⟨_, rfl⟩ | ⟨row, _, hrow, _, _⟩
      · rfl
      · have hset := hflag id hid (by rw [hrow]; exact Option.some_ne_none _)
        rw [hdirty] at hset
        cases hset
  | _ => cases hunflagged

theorem Trimmed.accept (hflag : ledger.FlaggedEnd (.record record)) (ht : ledger.Trimmed b size)
    (h : ledger.accept b record = .ok ledger') : ledger'.Trimmed b size := by
  intro hclean capacity byteCapacity hlimits
  obtain ⟨horders, hstate⟩ := accept_clean hflag h hclean
  have hfits := ht ((congrArg Prod.fst hstate).symm.trans hclean) capacity byteCapacity
    ((congrArg Prod.snd hstate).symm.trans hlimits)
  have hended : ledger'.ended = ledger.ended := by
    unfold ended
    rw [horders]
  exact ⟨hended ▸ hfits.count, hended ▸ hfits.bytes⟩

theorem Trimmed.trim_fits (ht : ledger.Trimmed b size)
    (h : ledger.trimTerminalCache b size capacity byteCapacity = .ok (removed, after)) :
    Fits b size capacity byteCapacity after := by
  rcases trim_eq_ok h with ⟨hclean, hlimits, _, rfl⟩ | ⟨gone, kept, hsplit, rfl, rfl⟩
  · exact ht hclean capacity byteCapacity hlimits
  · exact hsplit.fits

theorem Trimmed.trim (ht : ledger.Trimmed b size)
    (h : ledger.trimTerminalCache b size capacity byteCapacity = .ok (removed, after)) : after.Trimmed b size := by
  have hfits := ht.trim_fits h
  rcases trim_eq_ok h with ⟨_, _, _, rfl⟩ | ⟨gone, kept, _, rfl, rfl⟩
  · exact ht
  · intro _ capacity' byteCapacity' hlimits
    injection hlimits with hlimits
    obtain ⟨rfl, rfl⟩ : capacity = capacity' ∧ byteCapacity = byteCapacity' := by simpa using hlimits
    exact hfits

theorem Trimmed.handle {event : Event} (hflag : ledger.FlaggedEnd event) (ht : ledger.Trimmed b size)
    (h : ledger.handle b size event = .ok ledger') : ledger'.Trimmed b size := by
  cases event with
  | record record => exact ht.accept hflag h
  | trim capacity byteCapacity =>
    simp only [LedgerOfOrders.handle] at h
    split at h
    · next removed after htrim =>
      injection h with h
      exact h ▸ ht.trim htrim
    · injection h with h
      exact h ▸ ht

theorem Trimmed.live {events : List Event} (hflags : FlaggedEnds b size ledger events) (ht : ledger.Trimmed b size)
    (h : ledger.live b size events = .ok ledger') : ledger'.Trimmed b size := by
  induction events generalizing ledger with
  | nil =>
    injection h with h
    exact h ▸ ht
  | cons event events ih =>
    unfold live at h
    rw [foldlM_cons, bind_eq_ok] at h
    obtain ⟨next, hnext, hrest⟩ := h
    exact ih (hflags.2 next hnext) (ht.handle hflags.1 hnext) hrest

/-- **Where no order ends behind the flag, every trim leaves the cache within its limits.** It removes ended orders
    only, those sent first, in the order they were sent, and touches neither index. -/
theorem terminal_cache_bounded {events : List Event} (hflags : FlaggedEnds b size LedgerOfOrders.empty events)
    (hrun : LedgerOfOrders.empty.live b size events = .ok ledger) {removed : List String}
    (htrim : ledger.trimTerminalCache b size capacity byteCapacity = .ok (removed, after)) :
    Fits b size capacity byteCapacity after ∧ (∀ row, row ∈ after.orders ↔ row ∈ ledger.orders ∧ row.id ∉ removed) ∧
      (∀ row ∈ ledger.orders, row.inFlight = true → row ∈ after.orders) ∧
      (∃ gone : List OrderRec, removed = gone.map OrderRec.id ∧ (∀ row ∈ gone, row ∈ ledger.orders) ∧
        gone.Pairwise (fun x y => x.sent < y.sent) ∧ ∀ row ∈ gone, ∀ left ∈ after.ended, row.sent < left.sent) ∧
      after.openingSymbols = ledger.openingSymbols ∧ after.openingStopLevels = ledger.openingStopLevels := by
  have hempty : empty.Trimmed b size := by
    intro _ capacity byteCapacity hlimits
    cases hlimits
  refine ⟨(hempty.live hflags hrun).trim_fits htrim, ?_⟩
  rcases trim_eq_ok htrim with ⟨_, _, rfl, rfl⟩ | ⟨gone, kept, hsplit, rfl, rfl⟩
  · exact ⟨fun row => by simp, fun row hrow _ => hrow, ⟨[], rfl, by simp, .nil, by simp⟩, rfl, rfl⟩
  · have hgone : ∀ row ∈ gone, row ∈ ledger.orders ∧ row.inFlight = false :=
      fun row hrow => mem_ended.mp (hsplit.perm.mem_iff.mp (mem_append_left _ hrow))
    refine ⟨fun row => Table.mem_eraseAll, ?_, ⟨gone, rfl, fun row hrow => (hgone row hrow).1, ?_, ?_⟩, rfl, rfl⟩
    · intro row hrow hlive
      refine Table.mem_eraseAll.mpr ⟨hrow, ?_⟩
      intro hmem
      -- the order under a removed id has ended
      obtain ⟨old, hold, hid⟩ := mem_map.mp hmem
      obtain ⟨holdMem, hended⟩ := hgone old hold
      rw [Table.eq_of_key holdMem hrow hid, hlive] at hended
      cases hended
    · exact (pairwise_append.mp hsplit.sorted).1
    · intro row hrow left hleft
      exact (pairwise_append.mp hsplit.sorted).2.2 row hrow left (hsplit.ended_trimmed.mem_iff.mp hleft)

/-- An order is sent, the cache is trimmed to nothing, and the order is noted as never sent. -/
def neverSentBehind : List Event :=
  [.record (.orderSent none marketOrder 7 (.finite 3)), .trim 0 0, .record (.note "shadow" "no send: a")]

/-- Two orders, both cancelled. -/
def twoCancelled : List Event :=
  [.record (.orderSent none marketOrder 7 (.finite 3)),
    .record (.orderSent none { marketOrder with clientOrderId := "b" } 8 (.finite 3)),
    .record (.orderUpdate (.cancelled "b")), .record (.orderUpdate (.cancelled "a"))]

def endedOrder (ending : OrderEnding) (dirty : Bool) (limits : Option (Nat × Nat)) : LedgerOfOrders :=
  { LedgerOfOrders.empty with
    orders := (∅ : Table OrderRec.id).put { freshRow none marketOrder 7 (.finite 3) with ending := some ending }
    terminalCacheDirty := dirty
    terminalCacheLimits := limits }

/-- With room for one of them, the order sent first goes. -/
theorem terminal_cache_bounded_older : ∃ ledger after,
    LedgerOfOrders.empty.live Binary64.nearestEven (fun _ => .ok 1) twoCancelled = .ok ledger ∧
      ledger.trimTerminalCache Binary64.nearestEven (fun _ => .ok 1) 1 8 = .ok (["a"], after) ∧
      Fits Binary64.nearestEven (fun _ => .ok 1) 1 8 after ∧ ∀ row ∈ after.orders, row.id ≠ "a" := by
  have hrun : (empty.live Binary64.nearestEven (fun _ => .ok 1) twoCancelled >>= fun ledger =>
      (ledger.trimTerminalCache Binary64.nearestEven (fun _ => .ok 1) 1 8).map Prod.fst) = .ok ["a"] := by
    decide +kernel
  obtain ⟨ledger, hlive, htrim⟩ := bind_eq_ok.mp hrun
  obtain ⟨⟨removed, after⟩, htrim, rfl⟩ := map_eq_ok.mp htrim
  have hflags : FlaggedEnds Binary64.nearestEven (fun _ => .ok 1) empty twoCancelled :=
    ⟨trivial, fun _ _ => ⟨trivial, fun _ _ => ⟨trivial, fun _ _ => ⟨trivial, fun _ _ => trivial⟩⟩⟩⟩
  obtain ⟨hfits, hrows, -⟩ := terminal_cache_bounded hflags hlive htrim
  exact ⟨ledger, after, hlive, htrim, hfits, fun row hrow hid => ((hrows row).mp hrow).2 (by rw [hid]; simp)⟩

/-- The note ends an order and the flag stays clear, so a trim to nothing does not look and leaves it. -/
theorem ended_behind_the_flag : LedgerOfOrders.empty.live Binary64.nearestEven (fun _ => .ok 1) neverSentBehind =
        .ok (endedOrder .neverSent false (some (0, 0))) ∧
      (endedOrder .neverSent false (some (0, 0))).trimTerminalCache Binary64.nearestEven (fun _ => .ok 1) 0 0 =
        .ok ([], endedOrder .neverSent false (some (0, 0))) ∧
      (endedOrder .neverSent false (some (0, 0))).ended.length = 1 := by
  decide +kernel

end LedgerOfOrders
end LiquidityMigration.Ledger
