import LiquidityMigration.Identity.Registry

/- The registry read back from the log, and the registry a run is planned with. A log states it in records and in the
   base of a rotated segment, an older one as two tables of names; one that states neither is taken for empty only
   while it holds nothing but boots and notes (`replayIdentities`). A plan is checked against what was read before it
   is given back (`planIdentities_keeps`). -/
namespace LiquidityMigration.Identity
open Checks Interning IdentityState List SleeveKey Except

/-- A record of the log, by what the registry is read from and what boot writes. -/
inductive LogRecord where
  | executionPrecisionV1
  | orderIdEpoch (epochMs : Int)
  | identityState (wallTsMs : Int) (state : IdentityState)
  | boot (wallTsMs : Int)
  | note (text : String)
  | strategyGlobalCheckpoint (wallTsMs : Int) (strategy : Nat)
  | instrumentCatalogCheckpoint (wallTsMs : Int)
  /-- A kind that is read from old logs and never written. -/
  | names (strategies symbols : List String)
  | segmentBase (strategies symbols : List String) (identities : Option IdentityState)
  | other (kind : String)
  deriving DecidableEq

/-- The tables are the beginning of the registry's. -/
def namesMatch (state : IdentityState) (strategies symbols : List String) : Prop :=
  strategies <+: state.sleeves.map SleeveKey.text ∧ symbols <+: state.instruments.map InstrumentBinding.symbol
  deriving Decidable

def legacyNames (strategies symbols : List String) : Except IdentityError IdentityState := do
  let sleeves ← strategies.mapM SleeveKey.new
  let state : IdentityState :=
    { IdentityState.empty with sleeves, instruments := symbols.map (fun symbol => ⟨symbol, .unresolved⟩) }
  state.validate
  .ok state

structure Replay where
  registry : Option IdentityState
  names : Option (List String × List String)

namespace Replay

def candidate (registry : Option IdentityState) : LogRecord → Except IdentityError (Option IdentityState)
  | .identityState _ state => .ok (some state)
  | .segmentBase _ _ (some state) => .ok (some state)
  | .segmentBase _ _ none =>
    if registry.isSome then .error (.invalid "rotation discarded the registered identity table" []) else .ok none
  | _ => .ok none

def adopt (replay : Replay) (state : IdentityState) : Except IdentityError Replay := do
  state.validate
  checkSome replay.registry fun prior => state.validateExtension prior
  checkSome replay.names (fun names => require (namesMatch state names.1 names.2)
    (.invalid "registry reinterprets an earlier Names table" []))
  .ok { replay with registry := some state }

def named : LogRecord → Option (List String × List String)
  | .names strategies symbols => some (strategies, symbols)
  | .segmentBase strategies symbols _ => some (strategies, symbols)
  | _ => none

def learn (replay : Replay) (names : List String × List String) : Except IdentityError Replay := do
  let _ ← legacyNames names.1 names.2
  checkSome replay.names (fun old => require (old.1 <+: names.1 ∧ old.2 <+: names.2)
    (.invalid "legacy Names changed or removed an existing dense id; ownership is ambiguous" []))
  checkSome replay.registry (fun state => require (namesMatch state names.1 names.2)
    (.invalid "Names uses an unregistered or reassigned dense id" []))
  .ok { replay with names := some names }

def maybe {τ : Type} (replay : Replay) (o : Option τ) (step : Replay → τ → Except IdentityError Replay) :
    Except IdentityError Replay :=
  match o with
  | some value => step replay value
  | none => .ok replay

def step (replay : Replay) (record : LogRecord) : Except IdentityError Replay := do
  let state ← candidate replay.registry record
  let replay ← replay.maybe state adopt
  replay.maybe (named record) learn

end Replay

def LogRecord.isBootOrNote : LogRecord → Bool
  | .boot _ => true
  | .note _ => true
  | _ => false

def replayIdentities (replayed : List LogRecord) : Except IdentityError (Option IdentityState) := do
  let replay ← replayed.foldlM Replay.step ⟨none, none⟩
  match replay.registry, replay.names with
  | some registry, _ => .ok (some registry)
  | none, some (strategies, symbols) => (legacyNames strategies symbols).map some
  | none, none => do
    require (replayed.all LogRecord.isBootOrNote)
      (.invalid "legacy WAL has state but no Names table; dense ownership cannot be inferred" [])
    .ok none

structure IdentityPlan where
  state : IdentityState
  /-- For each place, the configured sleeve that has it; the others need passive owners. -/
  slotConfigs : List (Option Nat)
  /-- For each configured sleeve, its place. -/
  configuredIds : List Nat
  changed : Bool
  deriving DecidableEq

/-- The registry under the scope of the venue, where there is one. -/
def withScope (state : IdentityState) : Option InstrumentScope → Except IdentityError IdentityState
  | none => .ok state
  | some scope => do
    scope.validate
    require (¬ state.scope.any (fun old => old ≠ scope))
      (.invalid "authenticated venue/environment differs from the WAL registry" [])
    .ok { state with scope := some scope }

/-- The configured sleeves met so far, with their numbers, and the registered ones. -/
structure Configured where
  configs : List (SleeveKey × Nat)
  sleeves : List SleeveKey

def configure (acc : Configured) (named : String × Nat) : Except IdentityError Configured := do
  let key ← SleeveKey.new named.1
  require (key ∉ acc.configs.map Prod.fst) (.invalid "configured sleeve key is ambiguous" [key.text])
  let sleeves ← orError (Interning.add SleeveKey.text denseIdCapacity acc.sleeves key) .sleeveIdsExhausted
  .ok ⟨(key, named.2) :: acc.configs, sleeves⟩

def assignId (ids : List Nat) (slot : Option Nat × Nat) : Except IdentityError (List Nat) :=
  match slot.1 with
  | none => .ok ids
  | some config => do
    require (slot.2 < denseIdCapacity) .sleeveIdsExhausted
    .ok (ids.set config slot.2)

def bindNative (scope : InstrumentScope) (nativeSymbols : List (String × String)) (binding : InstrumentBinding) :
    Except IdentityError InstrumentBinding :=
  match nativeSymbols.lookup binding.symbol with
  | none => .ok binding
  | some native => do
    require (¬ binding.identity.key?.any (fun old => old ≠ InstrumentKey.inScope scope native))
      (.invalid "native symbol changed for registered alias" [binding.symbol])
    .ok { binding with identity := .resolved (InstrumentKey.inScope scope native) }

def bindNatives (state : IdentityState) (nativeSymbols : List (String × String)) : Except IdentityError IdentityState :=
  match state.scope with
  | none => .ok state
  | some scope => do
    let instruments ← state.instruments.mapM (bindNative scope nativeSymbols)
    .ok { state with instruments }

def requestedIdentity (scope : Option InstrumentScope) (nativeSymbols : List (String × String)) (symbol : String) :
    Except IdentityError InstrumentIdentity :=
  match scope with
  | none => .ok .unresolved
  | some scope => do
    let native ← orError (nativeSymbols.lookup symbol) (.unresolvedInstrument symbol)
    .ok (.resolved (InstrumentKey.inScope scope native))

def request (nativeSymbols : List (String × String)) (state : IdentityState) (symbol : String) :
    Except IdentityError IdentityState :=
  if symbol ∈ state.instruments.map InstrumentBinding.symbol then .ok state
  else do
    require (state.instruments.length ≠ denseIdCapacity) .symbolIdsExhausted
    let identity ← requestedIdentity state.scope nativeSymbols symbol
    .ok { state with instruments := state.instruments ++ [⟨symbol, identity⟩] }

def LogRecord.statesRegistry : LogRecord → Bool
  | .identityState _ _ => true
  | .segmentBase _ _ (some _) => true
  | _ => false

def planIdentities (replayed : List LogRecord) (configuredSleeves : List String) (scope : Option InstrumentScope)
    (nativeSymbols : List (String × String)) (requestedSymbols : List String) : Except IdentityError IdentityPlan := do
  let prior ← replayIdentities replayed
  let start ← withScope (prior.getD .empty) scope
  let configured ← configuredSleeves.zipIdx.foldlM configure ⟨[], start.sleeves⟩
  let slotConfigs := configured.sleeves.map fun key => configured.configs.lookup key
  let configuredIds ← slotConfigs.zipIdx.foldlM assignId (List.replicate configuredSleeves.length 0)
  let bound ← bindNatives { start with sleeves := configured.sleeves } nativeSymbols
  let state ← requestedSymbols.foldlM (request nativeSymbols) bound
  state.validate
  checkSome prior fun prior => state.validateExtension prior
  .ok ⟨state, slotConfigs, configuredIds, !replayed.any LogRecord.statesRegistry || decide (prior ≠ some state)⟩

def reserve (plan : IdentityPlan) (symbol : String) : Except IdentityError IdentityPlan :=
  if symbol ∈ plan.state.instruments.map InstrumentBinding.symbol then .ok plan
  else do
    require (plan.state.instruments.length ≠ denseIdCapacity) .symbolIdsExhausted
    .ok { plan with
      state := { plan.state with instruments := plan.state.instruments ++ [⟨symbol, .unresolved⟩] }, changed := true }

def reserveSymbolNames (plan : IdentityPlan) (symbols : List String) : Except IdentityError IdentityPlan := do
  let plan ← symbols.foldlM reserve plan
  plan.state.validate
  .ok plan

variable {state : IdentityState} {plan plan' : IdentityPlan} {instruments : List InstrumentBinding}
  {symbols : List String} {scope : Option InstrumentScope}

theorem withScope_eq_ok {state' : IdentityState} : withScope state scope = .ok state' ↔
      (∀ s ∈ scope, s.Valid ∧ ∀ old ∈ state.scope, old = s) ∧
        state' = { state with scope := scope.or state.scope } := by
  cases scope with
  | none =>
    simp only [withScope, ok.injEq, Option.none_or]
    constructor
    · rintro rfl
      exact ⟨by simp, rfl⟩
    · rintro ⟨-, rfl⟩
      rfl
  | some s =>
    simp only [withScope, ok_iff, InstrumentScope.validate_eq_ok, Option.some_or, Option.mem_def, Option.some.injEq,
      forall_eq']
    have hsame : ¬ state.scope.any (fun old => old ≠ s) = true ↔ ∀ old, state.scope = some old → old = s := by
      cases state.scope <;> simp
    rw [hsame]
    constructor
    · rintro ⟨hvalid, hold, rfl⟩
      exact ⟨⟨hvalid, hold⟩, rfl⟩
    · rintro ⟨⟨hvalid, hold⟩, rfl⟩
      exact ⟨hvalid, hold, rfl⟩

theorem configure_eq_ok {named : List String} {first : Nat} {acc : Configured} {sleeves : List SleeveKey} :
    (∃ acc', (named.zipIdx first).foldlM configure acc = .ok acc' ∧ acc'.sleeves = sleeves) ↔
      ∃ keys, keys.map SleeveKey.text = named ∧ Fresh (acc.configs.map Prod.fst) keys ∧
        addAll SleeveKey.text denseIdCapacity acc.sleeves keys = some sleeves := by
  induction named generalizing first acc with
  | nil =>
    constructor
    · rintro ⟨acc', hacc, rfl⟩
      cases hacc
      exact ⟨[], rfl, fresh_nil, rfl⟩
    · rintro ⟨keys, hkeys, -, hadd⟩
      rw [map_eq_nil_iff] at hkeys
      subst hkeys
      exact ⟨acc, rfl, Option.some.inj hadd⟩
  | cons name named ih =>
    rw [zipIdx_cons]
    simp only [foldlM_cons, configure, ok_iff, new_eq_ok]
    constructor
    · rintro ⟨acc', ⟨next, ⟨key, hkey, hnew, placed, hplaced, rfl⟩, hrest⟩, hsleeves⟩
      obtain ⟨keys, hkeys, hfresh, hadd⟩ := ih.mp ⟨acc', hrest, hsleeves⟩
      refine ⟨key :: keys, by rw [map_cons, hkey, hkeys], fresh_cons.mpr ⟨hnew, hfresh⟩, ?_⟩
      rw [addAll_cons, hplaced]
      exact hadd
    · rintro ⟨keys, hkeys, hfresh, hadd⟩
      cases keys with
      | nil => simp at hkeys
      | cons key keys =>
        rw [map_cons, cons.injEq] at hkeys
        rw [fresh_cons] at hfresh
        obtain ⟨placed, hplaced, hadd⟩ := addAll_cons_eq_some hadd
        obtain ⟨acc', hrest, hsleeves⟩ := (@ih (first + 1) ⟨(key, first) :: acc.configs, placed⟩).mpr
          ⟨keys, hkeys.2, hfresh.2, hadd⟩
        exact ⟨acc', ⟨_, ⟨key, hkeys.1, hfresh.1, placed, hplaced, rfl⟩, hrest⟩, hsleeves⟩

theorem assignId_ok {slots : List (Option Nat × Nat)} (hslots : ∀ slot ∈ slots, slot.2 < denseIdCapacity)
    (ids : List Nat) : ∃ ids', slots.foldlM assignId ids = .ok ids' := by
  induction slots generalizing ids with
  | nil => exact ⟨ids, rfl⟩
  | cons slot slots ih =>
    rw [forall_mem_cons] at hslots
    have hstep : ∃ next, assignId ids slot = .ok next := by
      unfold assignId
      split
      · exact ⟨ids, rfl⟩
      · next config _ => exact ⟨ids.set config slot.2, by simp [require, hslots.1, bind, Except.bind]⟩
    obtain ⟨next, hnext⟩ := hstep
    rw [foldlM_cons, hnext]
    exact ih hslots.2 next

theorem bindNatives_nil (state : IdentityState) : bindNatives state [] = .ok state := by
  unfold bindNatives
  split
  · rfl
  · next scope _ =>
    have hsame : ∀ bindings : List InstrumentBinding, bindings.mapM (bindNative scope []) = .ok bindings := by
      intro bindings
      induction bindings with
      | nil => rfl
      | cons binding rest ih =>
        rw [mapM_cons, ih]
        rfl
    rw [hsame]
    rfl

theorem planIdentities_keeps {replayed : List LogRecord} {sleeves : List String}
    {natives : List (String × String)} {requested : List String}
    (h : planIdentities replayed sleeves scope natives requested = .ok plan) :
    ∃ prior, replayIdentities replayed = .ok prior ∧ plan.state.Valid ∧ (∀ p ∈ prior, plan.state.Keeps p) ∧
      (plan.changed = false → prior = some plan.state) := by
  simp only [planIdentities, bind_eq_ok, exists_unit, validate_eq_ok, checkSome_eq_ok, validateExtension_eq_ok] at h
  obtain ⟨prior, hprior, _, -, _, -, _, -, _, -, state, -, hvalid, hkeeps, hplan⟩ := h
  obtain rfl := ok.inj hplan
  refine ⟨prior, hprior, hvalid, fun p hp => (hkeeps p hp).2.2, ?_⟩
  intro hchanged
  rw [Bool.or_eq_false_iff, decide_eq_false_iff_not, not_not] at hchanged
  exact hchanged.2

/-- What the registry already holds leaves room for the sleeves and the venue of a
configuration. -/
structure SleevesFit (registered : IdentityState) (sleeves : List String) (scope : Option InstrumentScope) : Prop where
  text : ∀ name ∈ sleeves, ValidText name
  nodup : sleeves.Nodup
  room : (registered.sleeves.map SleeveKey.text ++ sleeves).toFinset.card ≤ denseIdCapacity
  scope : ∀ s ∈ scope, s.Valid ∧ ∀ old ∈ registered.scope, old = s

theorem exists_keys {sleeves : List String} (h : ∀ name ∈ sleeves, ValidText name) :
    ∃ keys : List SleeveKey, keys.map SleeveKey.text = sleeves := by
  induction sleeves with
  | nil => exact ⟨[], rfl⟩
  | cons name sleeves ih =>
    rw [forall_mem_cons] at h
    obtain ⟨keys, hkeys⟩ := ih h.2
    exact ⟨⟨name, h.1⟩ :: keys, by rw [map_cons, hkeys]⟩

theorem IdentityState.Valid.extend (h : state.Valid)
    {sleeves keys : List SleeveKey} (hscope : ∀ s ∈ scope, s.Valid ∧ ∀ old ∈ state.scope, old = s)
    (hadd : addAll SleeveKey.text denseIdCapacity state.sleeves keys = some sleeves) :
    ({ state with scope := scope.or state.scope, sleeves } : IdentityState).Valid ∧
      ({ state with scope := scope.or state.scope, sleeves } : IdentityState).Keeps state := by
  -- a scope that was there is the one that is there
  have hkept : ∀ s, state.scope = some s → scope.or state.scope = some s := by
    intro s hs
    cases hcases : scope with
    | none => simpa using hs
    | some t => rw [Option.some_or, (hscope t (by simp [hcases])).2 s hs]
  refine ⟨⟨h.schema, addAll_length_le h.sleeves_le hadd, h.instruments_le, ?_, ?_, ?_, h.symbols, h.natives⟩, hkept,
    addAll_begins hadd, (Keeps.refl state).instruments⟩
  · intro s hs
    cases hcases : scope with
    | none =>
      rw [hcases, Option.none_or] at hs
      exact h.scope s hs
    | some t =>
      rw [hcases, Option.some_or, Option.mem_some_iff] at hs
      exact hs ▸ (hscope t (by simp [hcases])).1
  · have hnodup := h.sleeves.map text_injective
    exact (addAll_nodup hnodup hadd).of_map
  · intro binding hbinding
    have hvalid := h.bindings binding hbinding
    refine ⟨hvalid.text, fun key hkey => ?_⟩
    obtain ⟨s, hs, hnative⟩ := hvalid.native key hkey
    exact ⟨s, hkept s hs, hnative⟩

theorem IdentityState.valid_empty : IdentityState.empty.Valid :=
  ⟨rfl, Nat.zero_le _, Nat.zero_le _, by simp [empty], nodup_nil, by simp [empty], nodup_nil, nodup_nil⟩

section
variable {replayed : List LogRecord} {prior : Option IdentityState} {sleeves : List String}
  {scope : Option InstrumentScope}

theorem planIdentities_nil_ok {plan : IdentityPlan} (hprior : replayIdentities replayed = .ok prior)
    (h : planIdentities replayed sleeves scope [] [] = .ok plan) :
    SleevesFit (prior.getD .empty) sleeves scope ∧ plan.state.instruments = (prior.getD .empty).instruments := by
  have hvalid : plan.state.Valid := (planIdentities_keeps h).choose_spec.2.1
  simp only [planIdentities, hprior, ok_iff, exists_eq_left', withScope_eq_ok, bindNatives_nil] at h
  obtain ⟨start, ⟨hscope, rfl⟩, configured, hconfigured, ids, -, hrest⟩ := h
  obtain ⟨state, hstate, -, -, rfl⟩ := hrest
  obtain rfl := ok.inj hstate
  obtain ⟨keys, rfl, hfresh, hadd⟩ := configure_eq_ok.mp ⟨configured, hconfigured, rfl⟩
  refine ⟨⟨?_, hfresh.1.map text_injective, ?_, hscope⟩, rfl⟩
  · intro name hname
    obtain ⟨key, -, rfl⟩ := mem_map.mp hname
    exact key.valid
  · exact le_trans (card_keys_le hadd) hvalid.sleeves_le

theorem exists_planIdentities_nil (hprior : replayIdentities replayed = .ok prior) (hvalid : ∀ p ∈ prior, p.Valid)
    (hfit : SleevesFit (prior.getD .empty) sleeves scope) :
    ∃ plan, planIdentities replayed sleeves scope [] [] = .ok plan := by
  have hregistered : (prior.getD .empty).Valid := by
    cases prior with
    | none => exact valid_empty
    | some p => exact hvalid p rfl
  obtain ⟨keys, rfl⟩ := exists_keys hfit.text
  obtain ⟨placed, hadd⟩ := exists_addAll (hregistered.sleeves.map text_injective) hfit.room
  obtain ⟨configured, hconfigured, rfl⟩ := (@configure_eq_ok _ 0 ⟨[], (prior.getD .empty).sleeves⟩ _).mpr
    ⟨keys, rfl, fresh_nil_left.mpr hfit.nodup.of_map, hadd⟩
  obtain ⟨hstate, hkeeps⟩ := hregistered.extend hfit.scope hadd
  have hslots : ∀ slot ∈ (configured.sleeves.map (fun key => configured.configs.lookup key)).zipIdx,
      slot.2 < denseIdCapacity := by
    intro slot hslot
    have hless := snd_lt_of_mem_zipIdx hslot
    rw [length_map] at hless
    exact lt_of_lt_of_le hless hstate.sleeves_le
  obtain ⟨ids, hids⟩ := assignId_ok hslots (replicate (keys.map text).length 0)
  simp only [planIdentities, hprior, ok_iff, exists_eq_left', withScope_eq_ok, bindNatives_nil, validate_eq_ok,
    checkSome_eq_ok, validateExtension_eq_ok]
  refine ⟨_, _, ⟨hfit.scope, rfl⟩, configured, hconfigured, ids, hids, _, rfl, hstate, ?_, rfl⟩
  intro p hp
  obtain rfl : prior = some p := hp
  exact ⟨hstate, hregistered, hkeeps⟩

end

def unresolved (symbol : String) : InstrumentBinding := ⟨symbol, .unresolved⟩

theorem reserve_eq_ok {symbol : String} (h : reserve plan symbol = .ok plan') :
    add InstrumentBinding.symbol denseIdCapacity plan.state.instruments (unresolved symbol) =
        some plan'.state.instruments ∧
      plan'.state = { plan.state with instruments := plan'.state.instruments } ∧
        (plan'.changed = false → plan' = plan) := by
  unfold reserve at h
  unfold add
  split at h
  · next hknown =>
    obtain rfl := ok.inj h
    exact ⟨if_pos hknown, rfl, fun _ => rfl⟩
  · next hnew =>
    simp only [ok_iff] at h
    obtain ⟨hroom, rfl⟩ := h
    refine ⟨?_, rfl, ?_⟩
    · rw [if_neg (by exact hnew), if_neg hroom]
      rfl
    · intro hchanged
      cases hchanged

theorem exists_reserve {symbol : String}
    (h : add InstrumentBinding.symbol denseIdCapacity plan.state.instruments (unresolved symbol) = some instruments) :
    ∃ plan', reserve plan symbol = .ok plan' ∧ plan'.state.instruments = instruments := by
  unfold reserve
  obtain ⟨hknown, rfl⟩ | ⟨hnew, hroom, rfl⟩ := add_eq_some h
  · exact ⟨plan, if_pos hknown, rfl⟩
  · rw [if_neg (by exact hnew)]
    simp only [ok_iff]
    exact ⟨_, ⟨hroom, rfl⟩, rfl⟩

theorem reserveAll_ok (h : symbols.foldlM reserve plan = .ok plan') :
    addAll InstrumentBinding.symbol denseIdCapacity plan.state.instruments (symbols.map unresolved) =
        some plan'.state.instruments ∧
      plan'.state = { plan.state with instruments := plan'.state.instruments } ∧
        (plan'.changed = false → plan' = plan) := by
  induction symbols generalizing plan with
  | nil =>
    cases h
    exact ⟨rfl, rfl, fun _ => rfl⟩
  | cons symbol symbols ih =>
    rw [foldlM_cons, bind_eq_ok] at h
    obtain ⟨next, hnext, hrest⟩ := h
    obtain ⟨hadd, hstate, hsame⟩ := reserve_eq_ok hnext
    obtain ⟨hadd', hstate', hsame'⟩ := ih hrest
    refine ⟨?_, ?_, ?_⟩
    · rw [map_cons, addAll_cons, hadd]
      exact hadd'
    · refine hstate'.trans ?_
      rw [hstate]
    · intro hchanged
      obtain rfl := hsame' hchanged
      exact hsame hchanged

theorem exists_reserveAll
    (h : addAll InstrumentBinding.symbol denseIdCapacity plan.state.instruments (symbols.map unresolved) =
      some instruments) : ∃ plan', symbols.foldlM reserve plan = .ok plan' := by
  induction symbols generalizing plan with
  | nil => exact ⟨plan, rfl⟩
  | cons symbol symbols ih =>
    obtain ⟨next, hnext, hrest⟩ := addAll_cons_eq_some h
    obtain ⟨plan', hplan', hinstruments⟩ := exists_reserve hnext
    subst hinstruments
    obtain ⟨last, hlast⟩ := ih hrest
    exact ⟨last, by rw [foldlM_cons, hplan']; exact hlast⟩

variable (instruments symbols) in
/-- What the registry already holds leaves room for the symbols. -/
structure SymbolsFit : Prop where
  text : ∀ symbol ∈ symbols, ValidText symbol
  room : (instruments.map InstrumentBinding.symbol ++ symbols).toFinset.card ≤ denseIdCapacity

theorem map_symbol_unresolved (symbols : List String) :
    (symbols.map unresolved).map InstrumentBinding.symbol = symbols := by
  rw [map_map]
  exact map_id _

theorem nativeKeys_append_unresolved (bindings : List InstrumentBinding) {rest : List InstrumentBinding}
    (hrest : ∀ binding ∈ rest, binding.identity = .unresolved) :
    nativeKeys (bindings ++ rest) = nativeKeys bindings := by
  have hnil : nativeKeys rest = [] := by
    unfold nativeKeys
    rw [filterMap_eq_nil_iff]
    intro binding hbinding
    rw [hrest binding hbinding]
    rfl
  unfold nativeKeys at hnil ⊢
  rw [filterMap_append, hnil, append_nil]

theorem IdentityState.Valid.reserve (h : state.Valid) (htext : ∀ symbol ∈ symbols, ValidText symbol)
    (hadd : addAll InstrumentBinding.symbol denseIdCapacity state.instruments (symbols.map unresolved) =
      some instruments) : ({ state with instruments } : IdentityState).Valid := by
  obtain ⟨rest, rfl, hrest⟩ := addAll_append hadd
  refine ⟨h.schema, h.sleeves_le, addAll_length_le h.instruments_le hadd, h.scope, h.sleeves, ?_,
    addAll_nodup h.symbols hadd, ?_⟩
  · intro binding hbinding
    obtain hold | hnew := mem_append.mp hbinding
    · exact h.bindings binding hold
    · obtain ⟨symbol, hsymbol, rfl⟩ := mem_map.mp (hrest binding hnew)
      exact ⟨htext symbol hsymbol, by simp [unresolved, InstrumentIdentity.key?]⟩
  · show (nativeKeys (state.instruments ++ rest)).Nodup
    rw [nativeKeys_append_unresolved]
    · exact h.natives
    · intro binding hbinding
      obtain ⟨symbol, -, rfl⟩ := mem_map.mp (hrest binding hbinding)
      rfl

theorem AllKept.of_begins {news olds : List InstrumentBinding} (h : olds <+: news) : AllKept news olds := by
  intro i old hold
  obtain ⟨rest, rfl⟩ := h
  obtain ⟨hi, -⟩ := List.getElem?_eq_some_iff.mp hold
  exact ⟨old, (List.getElem?_append_left hi).trans hold, rfl, fun _ hkey => hkey⟩

theorem reserveSymbolNames_ok (h : reserveSymbolNames plan symbols = .ok plan') :
    plan'.state.Valid ∧ plan'.state.Keeps plan.state ∧ (plan'.changed = false → plan' = plan) ∧
      SymbolsFit plan.state.instruments symbols := by
  simp only [reserveSymbolNames, ok_iff, validate_eq_ok] at h
  obtain ⟨reserved, hreserved, hvalid, rfl⟩ := h
  obtain ⟨hadd, hstate, hsame⟩ := reserveAll_ok hreserved
  refine ⟨hvalid, ?_, hsame, ?_, ?_⟩
  · rw [hstate]
    exact ⟨fun _ hs => hs, prefix_refl _, AllKept.of_begins (addAll_begins hadd)⟩
  · intro symbol hsymbol
    have hmem : symbol ∈ reserved.state.instruments.map InstrumentBinding.symbol := by
      apply (mem_keys_addAll hadd symbol).mpr
      rw [map_symbol_unresolved]
      exact .inr hsymbol
    obtain ⟨binding, hbinding, rfl⟩ := mem_map.mp hmem
    exact (hvalid.bindings binding hbinding).text
  · have hcard := card_keys_le hadd
    rw [map_symbol_unresolved] at hcard
    exact le_trans hcard hvalid.instruments_le

theorem exists_reserveSymbolNames (hvalid : plan.state.Valid)
    (hfit : SymbolsFit plan.state.instruments symbols) : ∃ plan', reserveSymbolNames plan symbols = .ok plan' := by
  have hroom := hfit.room
  rw [← map_symbol_unresolved symbols] at hroom
  obtain ⟨instruments, hadd⟩ := exists_addAll hvalid.symbols hroom
  obtain ⟨reserved, hreserved⟩ := exists_reserveAll hadd
  obtain ⟨hadd', hstate, -⟩ := reserveAll_ok hreserved
  simp only [reserveSymbolNames, ok_iff, validate_eq_ok]
  refine ⟨reserved, reserved, hreserved, ?_, rfl⟩
  rw [hstate]
  exact hvalid.reserve hfit.text hadd'

end LiquidityMigration.Identity
