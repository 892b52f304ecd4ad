import LiquidityMigration.Identity.Planning

/- Boots cut short, on a log that was empty at first. A boot plans the registry and only then writes: the precision
   marker and the order epoch, durable together; the registry, where changed; its record and a note; checkpoints; the
   registry again once the venue has named the instruments. The registries of such a log are in order, and each keeps
   the ones before it (`Recovered`); with marker and epoch alone it is taken for a log of the time before registries.
   -/
namespace LiquidityMigration.Identity
open Checks Interning List LogRecord

/-- What a boot is started with and what the venue and the clock tell it. -/
structure BootConfig where
  /-- The names of the sleeves, one for each strategy. -/
  names : List String
  /-- The venue and environment of the account; only tests boot without. -/
  scope : Option InstrumentScope
  wanted : List String
  nativeSymbols : List (String × String)
  (bootMs epochMs : Int)
  /-- The strategies that start with a checkpoint of their own. -/
  checkpoints : List Nat
  /-- Whether the catalog of instruments differs from the one in the log. -/
  newCatalog : Bool
  /-- What the rest of the boot writes, by kind; the registry is not among it. -/
  later : List String

/-- The table of symbols: the registered ones, then the others in order of appearance. -/
def symbolTable (registered wanted : List String) : List String :=
  wanted.foldl (fun table symbol => if symbol ∈ table then table else table ++ [symbol]) registered

/-- The part of `restore_configuration` that is about identities: the sleeves' places
and the table of symbols. -/
def restoreIdentities (replayed : List LogRecord) (config : BootConfig) :
    Except IdentityError (IdentityPlan × List String) := do
  let plan ← planIdentities replayed config.names none [] []
  let registered := plan.state.instruments.map InstrumentBinding.symbol
  require (¬ denseIdCapacity < (registered ++ config.wanted).toFinset.card) .symbolIdsExhausted
  .ok (plan, symbolTable registered config.wanted)

def planBoot (replayed : List LogRecord) (config : BootConfig) : Except IdentityError IdentityPlan := do
  let restored ← restoreIdentities replayed config
  let plan ← planIdentities replayed config.names config.scope [] []
  reserveSymbolNames plan restored.2

/-- The strategies are built in the order of their sleeves' places, or boot ends. -/
def inDurableOrder (plan : IdentityPlan) : Prop := plan.slotConfigs = (List.range plan.slotConfigs.length).map some
  deriving Decidable

/-- The registry once the venue has named the instruments, and what follows. -/
def namedRecords (config : BootConfig) (reserved : IdentityState) : List LogRecord :=
  match planIdentities [.identityState config.bootMs reserved] config.names config.scope config.nativeSymbols [] with
  | .error _ => []
  | .ok plan =>
    (if plan.changed then [.identityState config.bootMs plan.state] else []) ++ config.later.map .other

/-- The records a boot appends, in their order, as far as it gets. -/
def bootRecords (replayed : List LogRecord) (config : BootConfig) : List LogRecord :=
  match planBoot replayed config with
  | .error _ => []
  | .ok reserved =>
    if inDurableOrder reserved then
      [.executionPrecisionV1, .orderIdEpoch config.epochMs] ++
      (if reserved.changed then [.identityState config.bootMs reserved.state] else []) ++
      [.boot config.bootMs, .note "live: orders are sent, each one gated by the risk kernel"] ++
      config.checkpoints.map (.strategyGlobalCheckpoint config.bootMs) ++
      (if config.newCatalog then [.instrumentCatalogCheckpoint config.bootMs] else []) ++
      namedRecords config reserved.state
    else []

/-- A boot that stops after its first `kept` records. -/
structure Boot where
  config : BootConfig
  kept : Nat

def stopped (log : List LogRecord) (boot : Boot) : List LogRecord := log ++ (bootRecords log boot.config).take boot.kept

def surviving (boots : List Boot) : List LogRecord := boots.foldl stopped []

def registries (log : List LogRecord) : List IdentityState :=
  log.filterMap (fun record => match record with
    | .identityState _ state => some state
    | _ => none)

def LogRecord.isWritten : LogRecord → Bool
  | .names _ _ => false
  | .segmentBase _ _ _ => false
  | _ => true

/-- A log in which registries are in order and each keeps those before it. -/
structure Recovered (log : List LogRecord) : Prop where
  written : ∀ record ∈ log, record.isWritten = true
  valid : ∀ state ∈ registries log, state.Valid
  keeps : (registries log).Pairwise fun old new => new.Keeps old
  marked : log ≠ [] → log.all LogRecord.isBootOrNote = false

theorem registries_append (log log' : List LogRecord) : registries (log ++ log') = registries log ++ registries log' :=
  filterMap_append

theorem step_of_written {replay : Replay} {record : LogRecord} (hwritten : record.isWritten = true)
    (hnone : registries [record] = []) : Replay.step replay record = .ok replay := by
  cases record with
  | identityState wallTsMs state => simp [registries] at hnone
  | names strategies symbols => cases hwritten
  | segmentBase strategies symbols identities => cases hwritten
  | executionPrecisionV1 => rfl
  | orderIdEpoch epochMs => rfl
  | boot wallTsMs => rfl
  | note text => rfl
  | strategyGlobalCheckpoint wallTsMs strategy => rfl
  | instrumentCatalogCheckpoint wallTsMs => rfl
  | other kind => rfl

variable {state : IdentityState} {log : List LogRecord} {config : BootConfig}

theorem step_identityState {registry : Option IdentityState} {wallTsMs : Int}
    (hvalid : state.Valid) (hkeeps : ∀ prior ∈ registry, prior.Valid ∧ state.Keeps prior) :
    Replay.step ⟨registry, none⟩ (.identityState wallTsMs state) = .ok ⟨some state, none⟩ := by
  have hadopt : Replay.adopt ⟨registry, none⟩ state = .ok ⟨some state, none⟩ := by
    simp only [Replay.adopt, ok_iff, IdentityState.validate_eq_ok, checkSome_eq_ok,
      IdentityState.validateExtension_eq_ok]
    exact ⟨hvalid, fun prior hprior => ⟨hvalid, hkeeps prior hprior⟩, by simp, trivial⟩
  simp only [Replay.step, bind_eq_ok]
  exact ⟨some state, rfl, ⟨some state, none⟩, hadopt, rfl⟩

theorem foldlM_step {registry : Option IdentityState} (hwritten : ∀ record ∈ log, record.isWritten = true)
    (hvalid : ∀ state ∈ registry.toList ++ registries log, state.Valid)
    (hkeeps : (registry.toList ++ registries log).Pairwise (fun old new => new.Keeps old)) :
    log.foldlM Replay.step ⟨registry, none⟩ = .ok ⟨(registry.toList ++ registries log).getLast?, none⟩ := by
  induction log generalizing registry with
  | nil =>
    cases registry <;> rfl
  | cons record log ih =>
    rw [forall_mem_cons] at hwritten
    have hsplit : registries (record :: log) = registries [record] ++ registries log := registries_append [record] log
    rw [foldlM_cons]
    by_cases hnone : registries [record] = []
    · rw [hsplit, hnone, nil_append] at hvalid hkeeps ⊢
      rw [step_of_written hwritten.1 hnone]
      exact ih hwritten.2 hvalid hkeeps
    · -- the only records that state a registry
      obtain ⟨wallTsMs, state, rfl⟩ : ∃ wallTsMs state, record = .identityState wallTsMs state := by
        cases record with
        | identityState wallTsMs state => exact ⟨wallTsMs, state, rfl⟩
        | _ => exact absurd rfl hnone
      have hstate : registries [identityState wallTsMs state] = [state] := rfl
      rw [hsplit, hstate] at hvalid hkeeps ⊢
      have hprior : ∀ prior ∈ registry, prior.Valid ∧ state.Keeps prior := by
        intro prior hmem
        obtain rfl : registry = some prior := hmem
        exact ⟨hvalid prior (by simp), (pairwise_cons.mp hkeeps).1 state (by simp)⟩
      rw [step_identityState (hvalid state (by simp)) hprior]
      have hlast : (registry.toList ++ ([state] ++ registries log)).getLast? =
          ((some state).toList ++ registries log).getLast? := by
        cases registry <;> simp [getLast?_cons_cons]
      rw [hlast]
      apply ih hwritten.2
      · intro s hs
        exact hvalid s (mem_append_right _ hs)
      · exact hkeeps.sublist (sublist_append_right _ _)

theorem replayIdentities_of_recovered (h : Recovered log) {prior : Option IdentityState} :
    replayIdentities log = .ok prior ↔ (log = [] ∨ registries log ≠ []) ∧ prior = (registries log).getLast? := by
  have hread := @foldlM_step log none h.written (by simpa using h.valid) (by simpa using h.keeps)
  simp only [Option.toList_none, nil_append] at hread
  simp only [replayIdentities, hread, ok_iff, exists_eq_left']
  cases hlast : (registries log).getLast? with
  | some state =>
    have hsome : registries log ≠ [] := by
      intro hnil
      rw [hnil] at hlast
      cases hlast
    simp [hsome, eq_comm]
  | none =>
    have hnil : registries log = [] := getLast?_eq_none_iff.mp hlast
    simp only [hnil, ok_iff, ne_eq, not_true_eq_false, or_false]
    constructor
    · rintro ⟨hall, rfl⟩
      refine ⟨?_, rfl⟩
      by_contra hne
      rw [h.marked hne] at hall
      cases hall
    · rintro ⟨rfl, rfl⟩
      exact ⟨rfl, rfl⟩

theorem replayIdentities_singleton (ms : Int) (hvalid : state.Valid) :
    replayIdentities [.identityState ms state] = .ok (some state) := by
  have hlog : Recovered [.identityState ms state] :=
    ⟨by simp [isWritten], by simpa [registries] using hvalid, by simp [registries], fun _ => rfl⟩
  exact (replayIdentities_of_recovered hlog).mpr ⟨.inr (by simp [registries]), rfl⟩

theorem Recovered.keeps_all (h : Recovered log)
    (hlast : ∀ last ∈ (registries log).getLast?, state.Keeps last) : ∀ old ∈ registries log, state.Keeps old := by
  intro old hold
  obtain ⟨init, last, hsplit⟩ := (registries log).eq_nil_or_concat.resolve_left (ne_nil_of_mem hold)
  rw [concat_eq_append] at hsplit
  rw [hsplit] at hold
  have hkept := hlast last (by rw [hsplit]; simp)
  rw [mem_append, mem_singleton] at hold
  obtain hinit | rfl := hold
  · have hpair := h.keeps
    rw [hsplit, pairwise_append] at hpair
    exact hkept.trans (hpair.2.2 old hinit last (by simp))
  · exact hkept

theorem mem_symbolTable {registered wanted : List String} {symbol : String} :
    symbol ∈ symbolTable registered wanted ↔ symbol ∈ registered ∨ symbol ∈ wanted := by
  unfold symbolTable
  induction wanted generalizing registered with
  | nil => simp
  | cons first wanted ih =>
    rw [foldl_cons, ih, mem_cons]
    split
    · next hknown =>
      constructor
      · tauto
      · rintro (h | rfl | h)
        · exact .inl h
        · exact .inl hknown
        · exact .inr h
    · simp only [mem_append, mem_singleton]
      tauto

/-- What the registry already holds leaves room for a configuration. -/
structure Fits (registered : IdentityState) (config : BootConfig) : Prop where
  sleeves : SleevesFit registered config.names config.scope
  symbols : SymbolsFit registered.instruments config.wanted

theorem planBoot_ok (h : Recovered log) {reserved : IdentityPlan} (hplan : planBoot log config = .ok reserved) :
    reserved.state.Valid ∧ (∀ old ∈ registries log, reserved.state.Keeps old) ∧
      (reserved.changed = false → (registries log).getLast? = some reserved.state) ∧
        (log = [] ∨ registries log ≠ []) ∧ Fits ((registries log).getLast?.getD .empty) config := by
  simp only [planBoot, bind_eq_ok] at hplan
  obtain ⟨restored, hrestored, plan, hplan, hreserve⟩ := hplan
  obtain ⟨prior, hprior, -, hkeeps, hsame⟩ := planIdentities_keeps hplan
  obtain ⟨hreadable, rfl⟩ := (replayIdentities_of_recovered h).mp hprior
  obtain ⟨hsleeves, hinstruments⟩ := planIdentities_nil_ok hprior hplan
  obtain ⟨hvalid, hkept, hunchanged, hsymbols⟩ := reserveSymbolNames_ok hreserve
  refine ⟨hvalid, h.keeps_all fun last hlast => hkept.trans (hkeeps last hlast), ?_, hreadable, hsleeves, ?_, ?_⟩
  · intro hchanged
    obtain rfl := hunchanged hchanged
    exact hsame hchanged
  · simp only [restoreIdentities, bind_eq_ok, exists_unit, require_eq_ok] at hrestored
    obtain ⟨first, -, -, hrestored⟩ := hrestored
    obtain rfl := Except.ok.inj hrestored
    intro symbol hsymbol
    exact hsymbols.text symbol (mem_symbolTable.mpr (.inr hsymbol))
  · simp only [restoreIdentities, bind_eq_ok, exists_unit, require_eq_ok] at hrestored
    obtain ⟨first, hfirst, hroom, -⟩ := hrestored
    obtain ⟨-, hsymbols⟩ := planIdentities_nil_ok hprior hfirst
    rw [hsymbols] at hroom
    exact not_lt.mp hroom

theorem exists_planBoot (h : Recovered log)
    (hreadable : log = [] ∨ registries log ≠ []) (hfits : Fits ((registries log).getLast?.getD .empty) config) :
    ∃ reserved, planBoot log config = .ok reserved := by
  have hprior : replayIdentities log = .ok (registries log).getLast? :=
    (replayIdentities_of_recovered h).mpr ⟨hreadable, rfl⟩
  have hvalid : ∀ p ∈ (registries log).getLast?, p.Valid := fun p hp => h.valid p (mem_of_getLast? hp)
  -- the first plan is made without the venue
  have hwithout : SleevesFit ((registries log).getLast?.getD .empty) config.names none :=
    ⟨hfits.sleeves.text, hfits.sleeves.nodup, hfits.sleeves.room, by simp⟩
  obtain ⟨first, hfirst⟩ := exists_planIdentities_nil hprior hvalid hwithout
  obtain ⟨plan, hplan⟩ := exists_planIdentities_nil hprior hvalid hfits.sleeves
  obtain ⟨-, hsame⟩ := planIdentities_nil_ok hprior hfirst
  obtain ⟨-, hsame'⟩ := planIdentities_nil_ok hprior hplan
  obtain ⟨-, -, hstate, -⟩ := planIdentities_keeps hplan
  have hroom : ¬ denseIdCapacity <
      (first.state.instruments.map InstrumentBinding.symbol ++ config.wanted).toFinset.card := by
    rw [hsame]
    exact not_lt.mpr hfits.symbols.room
  have hsymbols : SymbolsFit plan.state.instruments
      (symbolTable (first.state.instruments.map InstrumentBinding.symbol) config.wanted) := by
    constructor
    · intro symbol hsymbol
      obtain hold | hnew := mem_symbolTable.mp hsymbol
      · rw [hsame, ← hsame'] at hold
        obtain ⟨binding, hbinding, rfl⟩ := mem_map.mp hold
        exact (hstate.bindings binding hbinding).text
      · exact hfits.symbols.text symbol hnew
    · refine le_trans (Finset.card_le_card ?_) hfits.symbols.room
      intro symbol hsymbol
      rw [mem_toFinset, mem_append, mem_symbolTable, hsame, hsame'] at hsymbol
      rw [mem_toFinset, mem_append]
      tauto
  obtain ⟨reserved, hreserved⟩ := exists_reserveSymbolNames hstate hsymbols
  refine ⟨reserved, ?_⟩
  simp only [planBoot, restoreIdentities, ok_iff]
  exact ⟨_, ⟨first, hfirst, hroom, rfl⟩, plan, hplan, hreserved⟩

@[simp] theorem registries_other (kinds : List String) : registries (kinds.map .other) = [] := by
  induction kinds with
  | nil => rfl
  | cons kind kinds ih => exact ih

@[simp] theorem registries_checkpoints (bootMs : Int) (strategies : List Nat) :
    registries (strategies.map (.strategyGlobalCheckpoint bootMs)) = [] := by
  induction strategies with
  | nil => rfl
  | cons strategy strategies ih => exact ih

theorem registries_ite (changed : Bool) (wallTsMs : Int) (state : IdentityState) :
    registries (if changed then [.identityState wallTsMs state] else []) = if changed then [state] else [] := by
  cases changed <;> rfl

theorem registries_namedRecords (config : BootConfig) {reserved : IdentityState} (hvalid : reserved.Valid) :
    registries (namedRecords config reserved) = [] ∨
      ∃ state, registries (namedRecords config reserved) = [state] ∧ state.Valid ∧ state.Keeps reserved := by
  unfold namedRecords
  split
  · exact .inl rfl
  · next plan hplan =>
    obtain ⟨prior, hprior, hstate, hkeeps, -⟩ := planIdentities_keeps hplan
    obtain rfl := Except.ok.inj ((replayIdentities_singleton config.bootMs hvalid).symm.trans hprior)
    rw [registries_append, registries_ite, registries_other, append_nil]
    cases plan.changed with
    | false => exact .inl rfl
    | true => exact .inr ⟨plan.state, rfl, hstate, hkeeps reserved rfl⟩

theorem written_namedRecords (config : BootConfig) (reserved : IdentityState) :
    ∀ record ∈ namedRecords config reserved, record.isWritten = true := by
  intro record hrecord
  unfold namedRecords at hrecord
  split at hrecord
  · cases hrecord
  · rw [mem_append] at hrecord
    obtain hrecord | hrecord := hrecord
    · split at hrecord
      · rw [mem_singleton] at hrecord
        subst hrecord
        rfl
      · cases hrecord
    · obtain ⟨kind, -, rfl⟩ := mem_map.mp hrecord
      rfl

/-- What one boot appends when nothing stops it. -/
structure Appended (log records : List LogRecord) : Prop where
  written : ∀ record ∈ records, record.isWritten = true
  valid : ∀ state ∈ registries records, state.Valid
  keeps : (registries log ++ registries records).Pairwise fun old new => new.Keeps old
  marked : records = [] ∨ records.head? = some .executionPrecisionV1

theorem appended_nil (h : Recovered log) : Appended log [] :=
  ⟨by simp, by simp [registries], by simpa [registries] using h.keeps, .inl rfl⟩

theorem boot_registries (h : Recovered log) {reserved : IdentityPlan}
    (hplan : planBoot log config = .ok reserved) {states : List IdentityState}
    (hstates : states = [] ∨ ∃ state, states = [state] ∧ state.Valid ∧ state.Keeps reserved.state) :
    (∀ state ∈ (if reserved.changed then [reserved.state] else []) ++ states, state.Valid) ∧
      (registries log ++ ((if reserved.changed then [reserved.state] else []) ++ states)).Pairwise
        (fun old new => new.Keeps old) := by
  obtain ⟨hvalid, hkeeps, hunchanged, -, -⟩ := planBoot_ok h hplan
  have hlater : ∀ state ∈ states, state.Valid ∧ state.Keeps reserved.state := by
    intro state hmem
    obtain rfl | ⟨only, rfl, honly⟩ := hstates
    · cases hmem
    · rw [mem_singleton] at hmem
      subst hmem
      exact honly
  have hsingle : states.Pairwise (fun old new => new.Keeps old) := by
    obtain rfl | ⟨only, rfl, -⟩ := hstates
    · exact List.Pairwise.nil
    · exact pairwise_singleton _ _
  cases hchanged : reserved.changed with
  | true =>
    simp only [if_true, singleton_append]
    refine ⟨?_, pairwise_append.mpr ⟨h.keeps, pairwise_cons.mpr ⟨?_, hsingle⟩, ?_⟩⟩
    · intro state hmem
      obtain rfl | hmem := mem_cons.mp hmem
      · exact hvalid
      · exact (hlater state hmem).1
    · intro state hmem
      exact (hlater state hmem).2
    · intro old hold state hmem
      obtain rfl | hmem := mem_cons.mp hmem
      · exact hkeeps old hold
      · exact (hlater state hmem).2.trans (hkeeps old hold)
  | false =>
    simp only [Bool.false_eq_true, if_false, nil_append]
    refine ⟨fun state hmem => (hlater state hmem).1, pairwise_append.mpr ⟨h.keeps, hsingle, ?_⟩⟩
    intro old hold state hmem
    exact (hlater state hmem).2.trans (hkeeps old hold)

theorem appended_bootRecords (h : Recovered log) (config : BootConfig) : Appended log (bootRecords log config) := by
  unfold bootRecords
  split
  · exact appended_nil h
  · next reserved hplan =>
    split
    · have hregistries := boot_registries h hplan (registries_namedRecords config (planBoot_ok h hplan).1)
      have hfirst : registries [.executionPrecisionV1, .orderIdEpoch config.epochMs] = [] := rfl
      have hboot : registries [.boot config.bootMs,
        .note "live: orders are sent, each one gated by the risk kernel"] = [] := rfl
      have hcatalog : registries (if config.newCatalog then [.instrumentCatalogCheckpoint config.bootMs] else []) =
          [] := by
        cases config.newCatalog <;> rfl
      refine ⟨?_, ?_, ?_, .inr rfl⟩
      · simp only [forall_mem_append]
        refine ⟨⟨⟨⟨⟨?_, ?_⟩, ?_⟩, ?_⟩, ?_⟩, written_namedRecords config reserved.state⟩
        · simp [isWritten]
        · cases reserved.changed <;> simp [isWritten]
        · simp [isWritten]
        · simp [isWritten]
        · cases config.newCatalog <;> simp [isWritten]
      · simp only [registries_append, registries_ite, registries_checkpoints, hfirst, hboot, hcatalog, nil_append,
          append_nil]
        exact hregistries.1
      · simp only [registries_append, registries_ite, registries_checkpoints, hfirst, hboot, hcatalog, nil_append,
          append_nil]
        exact hregistries.2
    · exact appended_nil h

theorem marked_take {records : List LogRecord} {kept : Nat}
    (h : records = [] ∨ records.head? = some .executionPrecisionV1) (hne : records.take kept ≠ []) :
    (records.take kept).all LogRecord.isBootOrNote = false := by
  cases records with
  | nil => exact absurd take_nil hne
  | cons first rest =>
    obtain hnil | hhead := h
    · cases hnil
    · obtain rfl := Option.some.inj hhead
      cases kept with
      | zero => exact absurd take_zero hne
      | succ kept => rfl

theorem Recovered.stopped (h : Recovered log) (boot : Boot) : Recovered (stopped log boot) := by
  have happended := appended_bootRecords h boot.config
  have htake := take_sublist boot.kept (bootRecords log boot.config)
  have hregistries : (registries ((bootRecords log boot.config).take boot.kept)).Sublist
      (registries (bootRecords log boot.config)) := htake.filterMap _
  unfold Identity.stopped
  refine ⟨?_, ?_, ?_, ?_⟩
  · rw [forall_mem_append]
    exact ⟨h.written, fun record hrecord => happended.written record (htake.subset hrecord)⟩
  · rw [registries_append, forall_mem_append]
    exact ⟨h.valid, fun state hstate => happended.valid state (hregistries.subset hstate)⟩
  · rw [registries_append]
    exact happended.keeps.sublist ((List.Sublist.refl _).append hregistries)
  · intro hne
    rw [all_append, Bool.and_eq_false_iff]
    by_cases hlog : log = []
    · subst hlog
      exact .inr (marked_take happended.marked hne)
    · exact .inl (h.marked hlog)

theorem recovered_surviving (boots : List Boot) : Recovered (surviving boots) := by
  have hrun : ∀ log, Recovered log → Recovered (boots.foldl Identity.stopped log) := by
    induction boots with
    | nil => exact fun _ h => h
    | cons boot boots ih => exact fun log h => ih _ (h.stopped boot)
  apply hrun []
  exact ⟨by simp, by simp [registries], by simp [registries], fun h => absurd rfl h⟩

/-- After any boots, each cut short anywhere, on a log that was empty at first, the next boot can plan
its registry, and keeps every dense id of every registry written, exactly when the log is empty or holds
a registry and the last one has room for the configuration. -/
theorem crashedBoots (boots : List Boot) (next : BootConfig) :
    (∃ plan, planBoot (surviving boots) next = .ok plan ∧ ∀ old ∈ registries (surviving boots), plan.state.Keeps old) ↔
      (surviving boots = [] ∨ registries (surviving boots) ≠ []) ∧
        Fits ((registries (surviving boots)).getLast?.getD .empty) next := by
  have h := recovered_surviving boots
  constructor
  · rintro ⟨plan, hplan, -⟩
    obtain ⟨-, -, -, hreadable, hfits⟩ := planBoot_ok h hplan
    exact ⟨hreadable, hfits⟩
  · rintro ⟨hreadable, hfits⟩
    obtain ⟨plan, hplan⟩ := exists_planBoot h hreadable hfits
    exact ⟨plan, hplan, (planBoot_ok h hplan).2.1⟩

def oneSleeve : BootConfig where
  names := ["alpha"]
  scope := some ⟨"bybit", "mainnet"⟩
  wanted := ["BTCUSDT"]
  nativeSymbols := [("BTCUSDT", "BTCUSDT")]
  bootMs := 1000
  epochMs := 1000
  checkpoints := []
  newCatalog := false
  later := []

example : (planBoot (surviving [⟨oneSleeve, 3⟩]) oneSleeve).isOk = true := by decide

/-- The first boot, stopped after the marker and the epoch have become durable: the same
configuration that could be planned on the empty log cannot be planned again. -/
theorem marker_locks_log : (planBoot [] oneSleeve).isOk = true ∧
      surviving [⟨oneSleeve, 2⟩] = [.executionPrecisionV1, .orderIdEpoch 1000] ∧
        planBoot (surviving [⟨oneSleeve, 2⟩]) oneSleeve =
          .error (.invalid "legacy WAL has state but no Names table; dense ownership cannot be inferred" []) := by
  refine ⟨?_, ?_, ?_⟩
  · decide
  · decide
  · decide

end LiquidityMigration.Identity
