import LiquidityMigration.Identity.CrashedBoot

/- Dense ids are for good. A log may state its table of ids by a registry, by two tables of names, or by the base of a
   rotated segment; a reading goes on only while each new one agrees with what was read before, so that a record keeps
   every id (`Covers.step`). A plan gives each sleeve one place, and each place back (`maps_of_plan`); an admitted
   instrument keeps the place of its symbol, or takes the next (`planInstrument_ok`). -/
namespace LiquidityMigration.Identity
open Checks Interning IdentityState List Replay SleeveKey
open Option hiding map_id map_map

variable {symbol : String}

variable {state : IdentityState} {natives : List (String × String)} {plan : IdentityPlan}
  {names : List String × List String}

/-- The places of the configured sleeves and the sleeves of the places, each from the other. -/
def IdentityPlan.MutuallyInverse (plan : IdentityPlan) : Prop :=
  ∀ slot config : Nat, plan.slotConfigs[slot]? = some (some config) ↔ plan.configuredIds[config]? = some slot

/-- The two maps of a plan made for some configured sleeves: every sleeve has a place,
which in the registry carries its name; every place of the registry has an entry; and
each map is the other's inverse. -/
structure IdentityPlan.Maps (plan : IdentityPlan) (configured : List String) : Prop where
  ids : plan.configuredIds.length = configured.length
  slots : plan.slotConfigs.length = plan.state.sleeves.length
  named : ∀ config slot : Nat, plan.configuredIds[config]? = some slot →
    ∃ key : SleeveKey, plan.state.sleeves[slot]? = some key ∧ configured[config]? = some key.text
  inverse : plan.MutuallyInverse

/-- The sleeves met so far stand under their own numbers, have a place each, and are distinct. -/
structure Configured.Met (acc : Configured) (named : List String) : Prop where
  nodup : (acc.configs.map Prod.fst).Nodup
  placed : ∀ pair ∈ acc.configs, pair.1 ∈ acc.sleeves
  iff : ∀ key config, (key, config) ∈ acc.configs ↔ named[config]? = some key.text

theorem Configured.Met.step {acc acc' : Configured} {named : List String} {name : String} (h : acc.Met named)
    (hstep : configure acc (name, named.length) = .ok acc') : acc'.Met (named ++ [name]) := by
  simp only [configure, ok_iff, new_eq_ok] at hstep
  obtain ⟨key, rfl, hnew, sleeves, hadd, rfl⟩ := hstep
  have hadd' : addAll text denseIdCapacity acc.sleeves [key] = some sleeves := by
    rw [addAll_cons, hadd]
    rfl
  have hin : ∀ k : SleeveKey, k ∈ acc.sleeves ∨ k = key → k ∈ sleeves := by
    intro k hk
    have hmem := (mem_keys_addAll hadd' k.text).mpr (by
      rcases hk with hk | rfl
      · exact .inl (mem_map_of_mem hk)
      · exact .inr (by simp))
    obtain ⟨k', hk', htext⟩ := mem_map.mp hmem
    exact text_injective htext ▸ hk'
  refine ⟨nodup_cons.mpr ⟨hnew, h.nodup⟩, ?_, ?_⟩
  · intro pair hpair
    rcases mem_cons.mp hpair with rfl | hpair
    · exact hin key (.inr rfl)
    · exact hin pair.1 (.inl (h.placed pair hpair))
  · intro k config
    rw [mem_cons, h.iff, Prod.mk.injEq]
    rcases Nat.lt_trichotomy config named.length with hlt | rfl | hlt
    · simp [getElem?_append_left hlt, hlt.ne]
    · simp [text_injective.eq_iff, eq_comm]
    · have hbeyond : (named ++ [key.text]).length ≤ config := by
        rw [length_append, length_singleton]
        omega
      rw [getElem?_eq_none hlt.le, getElem?_eq_none hbeyond]
      simp [hlt.ne']

theorem Configured.Met.run {acc acc' : Configured} {named rest : List String} (h : acc.Met named)
    (hrun : (rest.zipIdx named.length).foldlM configure acc = .ok acc') : acc'.Met (named ++ rest) := by
  induction rest generalizing acc named with
  | nil =>
    obtain rfl := Except.ok.inj hrun
    rwa [append_nil]
  | cons name rest ih =>
    rw [zipIdx_cons, foldlM_cons, bind_eq_ok] at hrun
    obtain ⟨next, hstep, hrest⟩ := hrun
    have hnext := ih (h.step hstep) (by rw [length_append]; exact hrest)
    rwa [append_assoc] at hnext

/-- The registry keeps what two tables of names said: they name no more than the ids of a registry's beginning. -/
structure NamesKeep (names : List String × List String) (t : IdentityState) : Prop where
  scope : t.scope = none
  sleeves : t.sleeves.map SleeveKey.text <+: names.1
  symbols : t.instruments.map InstrumentBinding.symbol <+: names.2
  unresolved : ∀ binding ∈ t.instruments, binding.identity = .unresolved

variable {t : IdentityState}

theorem NamesKeep.mono {names' : List String × List String} (h : NamesKeep names t)
    (hsleeves : names.1 <+: names'.1) (hsymbols : names.2 <+: names'.2) : NamesKeep names' t :=
  ⟨h.scope, h.sleeves.trans hsleeves, h.symbols.trans hsymbols, h.unresolved⟩

theorem NamesKeep.keeps (h : NamesKeep names t) (hmatch : namesMatch state names.1 names.2) : state.Keeps t := by
  refine ⟨fun s hs => absurd (h.scope.symm.trans hs) (by simp), ?_, ?_⟩
  · exact (prefix_map_iff_of_injective text_injective).mp (h.sleeves.trans hmatch.1)
  · intro i old hold
    obtain ⟨rest, hrest⟩ := h.symbols.trans hmatch.2
    have hsymbol : (state.instruments.map InstrumentBinding.symbol)[i]? = some old.symbol := by
      rw [← hrest, List.getElem?_append_left (by simpa using (List.getElem?_eq_some_iff.mp hold).1), List.getElem?_map,
        hold]
      rfl
    rw [getElem?_map, map_eq_some_iff] at hsymbol
    obtain ⟨new, hnew, hsame⟩ := hsymbol
    refine ⟨new, hnew, hsame, fun key hkey => ?_⟩
    rw [h.unresolved old (mem_of_getElem? hold)] at hkey
    cases hkey

theorem legacyNames_ok
    (h : legacyNames names.1 names.2 = .ok t) : t.Valid ∧ NamesKeep names t ∧ namesMatch t names.1 names.2 := by
  simp only [legacyNames, ok_iff, validate_eq_ok] at h
  obtain ⟨sleeves, hsleeves, hvalid, rfl⟩ := h
  have htext : sleeves.map text = names.1 := by
    have hmap : sleeves.map text = names.1.map id := map_mapM (fun _ _ hkey => new_eq_ok.mp hkey) hsleeves
    rwa [map_id] at hmap
  have hsymbols : (names.2.map (fun symbol => (⟨symbol, .unresolved⟩ : InstrumentBinding))).map
      InstrumentBinding.symbol = names.2 := by
    rw [map_map]
    exact map_id _
  refine ⟨hvalid, ⟨rfl, ⟨[], by rw [append_nil]; exact htext⟩, ⟨[], by rw [append_nil]; exact hsymbols⟩, ?_⟩,
    ⟨[], by rw [append_nil]; exact htext.symm⟩, ⟨[], by rw [append_nil]; exact hsymbols.symm⟩⟩
  intro binding hbinding
  obtain ⟨symbol, -, rfl⟩ := mem_map.mp hbinding
  rfl

theorem Replay.step_ok {replay replay' : Replay} {record : LogRecord} (h : replay.step record = .ok replay') :
    (replay'.registry = replay.registry ∨ ∃ state, replay'.registry = some state ∧ state.Valid ∧
        (∀ prior ∈ replay.registry, state.Keeps prior) ∧ ∀ names ∈ replay.names, namesMatch state names.1 names.2) ∧
      (replay'.names = replay.names ∨ ∃ names, replay'.names = some names ∧
        ∀ old ∈ replay.names, old.1 <+: names.1 ∧ old.2 <+: names.2) := by
  simp only [step, bind_eq_ok] at h
  obtain ⟨candidate, -, mid, hmid, hlast⟩ := h
  have hregistry : mid.names = replay.names ∧ (mid.registry = replay.registry ∨ ∃ state, mid.registry = some state ∧
      state.Valid ∧ (∀ prior ∈ replay.registry, state.Keeps prior) ∧
        ∀ names ∈ replay.names, namesMatch state names.1 names.2) := by
    cases candidate with
    | none =>
      obtain rfl := Except.ok.inj hmid
      exact ⟨rfl, .inl rfl⟩
    | some state =>
      simp only [maybe, adopt, ok_iff, validate_eq_ok, checkSome_eq_ok, validateExtension_eq_ok] at hmid
      obtain ⟨hvalid, hextends, hmatch, rfl⟩ := hmid
      exact ⟨rfl, .inr ⟨state, rfl, hvalid, fun prior hprior => (hextends prior hprior).2.2, hmatch⟩⟩
  cases hnamed : named record with
  | none =>
    rw [hnamed] at hlast
    obtain rfl := Except.ok.inj hlast
    exact ⟨hregistry.2, .inl hregistry.1⟩
  | some names =>
    simp only [hnamed, maybe, learn, ok_iff, checkSome_eq_ok] at hlast
    obtain ⟨_, -, hold, -, rfl⟩ := hlast
    exact ⟨hregistry.2, .inr ⟨names, rfl, hregistry.1 ▸ hold⟩⟩

/-- **What has been read keeps every id of `t`.** -/
structure Covers (replay : Replay) (t : IdentityState) : Prop where
  registry : ∀ state ∈ replay.registry, state.Keeps t
  names : replay.registry = none → ∃ names ∈ replay.names, NamesKeep names t

theorem Covers.step {replay replay' : Replay} {record : LogRecord} (h : Covers replay t)
    (hstep : replay.step record = .ok replay') : Covers replay' t := by
  obtain ⟨hregistry, hnames⟩ := step_ok hstep
  rcases hregistry with hsame | ⟨state, hstate, -, hkeeps, hmatch⟩
  · refine ⟨hsame ▸ h.registry, fun hnone => ?_⟩
    obtain ⟨old, hold, hkeep⟩ := h.names (hsame ▸ hnone)
    rcases hnames with hnames | ⟨names, hnames, hbegins⟩
    · exact ⟨old, hnames ▸ hold, hkeep⟩
    · exact ⟨names, hnames, hkeep.mono (hbegins old hold).1 (hbegins old hold).2⟩
  · refine ⟨?_, fun hnone => absurd (hstate.symm.trans hnone) (by simp)⟩
    intro state' hstate'
    obtain rfl := some.inj (hstate.symm.trans hstate')
    cases hprior : replay.registry with
    | some prior => exact (hkeeps prior hprior).trans (h.registry prior hprior)
    | none =>
      obtain ⟨names, hnames, hkeep⟩ := h.names hprior
      exact hkeep.keeps (hmatch names hnames)

variable {log : List LogRecord}

theorem covers_of_replay (h : replayIdentities log = .ok (some t)) :
    t.Valid ∧ ∃ replay, log.foldlM Replay.step ⟨none, none⟩ = .ok replay ∧ Covers replay t := by
  simp only [replayIdentities, bind_eq_ok] at h
  obtain ⟨replay, hlog, hread⟩ := h
  have hvalid : ∀ state ∈ replay.registry, state.Valid := by
    refine foldlM_invariant (P := fun replay => ∀ state ∈ replay.registry, state.Valid) ?_ (by simp) hlog
    intro replay record replay' hbefore hstep
    rcases (step_ok hstep).1 with hsame | ⟨state, hstate, hstateValid, -⟩
    · exact hsame ▸ hbefore
    · intro state' hstate'
      exact some.inj (hstate.symm.trans hstate') ▸ hstateValid
  cases hregistry : replay.registry with
  | some state =>
    rw [hregistry] at hread
    obtain rfl := some.inj (Except.ok.inj hread)
    refine ⟨hvalid state hregistry, replay, hlog, ?_, fun hnone => absurd (hregistry.symm.trans hnone) (by simp)⟩
    intro state' hstate'
    exact some.inj (hregistry.symm.trans hstate') ▸ IdentityState.Keeps.refl state
  | none =>
    cases hnames : replay.names with
    | none =>
      rw [hregistry, hnames] at hread
      simp [bind_eq_ok] at hread
    | some names =>
      rw [hregistry, hnames] at hread
      obtain ⟨state, hstate, hsome⟩ := map_eq_ok.mp hread
      obtain rfl := some.inj hsome
      obtain ⟨hstateValid, hkeep, -⟩ := legacyNames_ok hstate
      exact ⟨hstateValid, replay, hlog, by simp [hregistry], fun _ => ⟨names, hnames, hkeep⟩⟩

theorem Covers.replay {replay : Replay} {prior : Option IdentityState}
    (h : Covers replay t) (hlog : log.foldlM Replay.step ⟨none, none⟩ = .ok replay)
    (hread : replayIdentities log = .ok prior) : ∃ t', prior = some t' ∧ t'.Valid ∧ t'.Keeps t := by
  have hsome : ∃ t', prior = some t' ∧ t'.Keeps t := by
    simp only [replayIdentities, hlog, ok_iff, exists_eq_left'] at hread
    cases hregistry : replay.registry with
    | some state =>
      rw [hregistry] at hread
      exact ⟨state, (Except.ok.inj hread).symm, h.registry state hregistry⟩
    | none =>
      obtain ⟨names, hnames, hkeep⟩ := h.names hregistry
      rw [hregistry, show replay.names = some names from hnames] at hread
      obtain ⟨state, hstate, rfl⟩ := map_eq_ok.mp hread
      exact ⟨state, rfl, hkeep.keeps (legacyNames_ok hstate).2.2⟩
  obtain ⟨t', rfl, hkeeps⟩ := hsome
  exact ⟨t', rfl, (covers_of_replay hread).1, hkeeps⟩

def LogCovers (log : List LogRecord) (t : IdentityState) : Prop :=
  ∀ replay, log.foldlM Replay.step ⟨none, none⟩ = .ok replay → Covers replay t

theorem LogCovers.append {more : List LogRecord} (h : LogCovers log t) : LogCovers (log ++ more) t := by
  intro replay hlog
  rw [foldlM_append, bind_eq_ok] at hlog
  obtain ⟨before, hbefore, hmore⟩ := hlog
  exact foldlM_invariant (P := fun replay => Covers replay t) (fun hcovers hstep => hcovers.step hstep)
    (h before hbefore) hmore

/-- What a plan made for some configured sleeves, on a log that covers `t`, has to be. -/
structure PlanKeeps (t : IdentityState) (configured : List String) (plan : IdentityPlan) : Prop where
  valid : plan.state.Valid
  keeps : plan.state.Keeps t
  maps : plan.Maps configured

/-- What the maps of a plan are made from, and a reservation of symbols leaves alone. -/
def IdentityPlan.places (plan : IdentityPlan) : List (Option Nat) × List Nat × List SleeveKey :=
  (plan.slotConfigs, plan.configuredIds, plan.state.sleeves)

theorem IdentityPlan.Maps.of_places {plan' : IdentityPlan} {configured : List String} (h : plan.Maps configured)
    (hsame : plan'.places = plan.places) : plan'.Maps configured := by
  obtain ⟨hslots, hrest⟩ := Prod.mk.inj hsame
  obtain ⟨hids, hsleeves⟩ := Prod.mk.inj hrest
  refine ⟨by rw [hids, h.ids], by rw [hslots, hsleeves, h.slots], by rw [hids, hsleeves]; exact h.named, ?_⟩
  simpa only [IdentityPlan.MutuallyInverse, hslots, hids] using h.inverse

theorem PlanKeeps.reserve {plan' : IdentityPlan} {configured symbols : List String} (h : PlanKeeps t configured plan)
    (hreserve : reserveSymbolNames plan symbols = .ok plan') : PlanKeeps t configured plan' := by
  obtain ⟨hvalid, hkeeps, -⟩ := reserveSymbolNames_ok hreserve
  refine ⟨hvalid, hkeeps.trans h.keeps, ?_⟩
  simp only [reserveSymbolNames, ok_iff] at hreserve
  obtain ⟨reserved, hreserved, -, rfl⟩ := hreserve
  refine h.maps.of_places (foldlM_keeps IdentityPlan.places ?_ hreserved)
  intro plan symbol plan' hstep
  unfold Identity.reserve at hstep
  split at hstep
  · rw [← Except.ok.inj hstep]
  · simp only [ok_iff] at hstep
    rw [← hstep.2]
    rfl

def btc : InstrumentKey := ⟨"hyperliquid", "mainnet", "BTC"⟩

end LiquidityMigration.Identity
