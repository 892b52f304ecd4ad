import LiquidityMigration.Portfolio.Controls

/- The emergency protocol, over whole logs. A run applies accepted records; in between the engine may take off an
   ended order, and drop a native close that no longer offsets anything. A segment base states the controls as they
   are. `Trail.step` follows the phases recorded of an emergency; `onRecord` is what holds after every run. -/
namespace LiquidityMigration.Portfolio
open Numeric Checks List Table

namespace PortfolioControls

/-- The ids a record issues: one, where no control stands under its key. -/
def issues (c : PortfolioControls) : ControlRecord → List Nat
  | .portfolioExitChanged state => if c.exits.Has state.key then [] else [state.id]
  | .portfolioEmergencyChanged state => if c.emergencies.Has state.symbol then [] else [state.id]
  | _ => []

def Restates (c : PortfolioControls) : ControlRecord → Prop
  | .segmentBase state _ => state = c.snapshot
  | _ => True

end PortfolioControls

open PortfolioControls

/-- A log of accepted records, the ids issued along it, and the controls it leaves. -/
inductive Runs (b : Binary64) : List ControlRecord → List Nat → PortfolioControls → Prop
  | start : Runs b [] [] .start
  | record {log : List ControlRecord} {issued : List Nat} {c c' : PortfolioControls} {record : ControlRecord}
      (hrun : Runs b log issued c) (hrestates : c.Restates record) (happly : c.apply b record = (.ok (), c')) :
      Runs b (log ++ [record]) (issued ++ c.issues record) c'
  | retire {log : List ControlRecord} {issued : List Nat} {c : PortfolioControls} (hrun : Runs b log issued c)
      (orders : Ledger.LedgerOfOrders) : Runs b log issued (c.retireCompletedOrders orders)
  | retain {log : List ControlRecord} {issued : List Nat} {c : PortfolioControls} (hrun : Runs b log issued c)
      (portfolio : PortfolioState) : Runs b log issued (c.retainNativeOffsets portfolio)

variable {b : Binary64} {log : List ControlRecord} {issued : List Nat} {c c' : PortfolioControls}

theorem Runs.step (hrun : Runs b log issued c) (record : ControlRecord) (hrestates : c.Restates record)
    (h : (c.apply b record).1 = .ok ()) : Runs b (log ++ [record]) (issued ++ c.issues record) (c.apply b record).2 :=
  .record hrun hrestates (Prod.ext h rfl)

def ControlRecord.emergency? : ControlRecord → Option PortfolioEmergency
  | .portfolioEmergencyChanged state => some state
  | _ => none

def recordedStates (log : List ControlRecord) : List PortfolioEmergency := log.filterMap ControlRecord.emergency?

def statesOf (id : Nat) (log : List ControlRecord) : List PortfolioEmergency :=
  (recordedStates log).filter fun state => state.id = id

def PortfolioEmergency.Same (state state' : PortfolioEmergency) : Prop :=
  state.symbol = state'.symbol ∧ state.referencePrice = state'.referencePrice ∧ state.reason = state'.reason ∧
    state.startedMs = state'.startedMs

theorem PortfolioEmergency.Same.symm {s s' : PortfolioEmergency} (h : s.Same s') : s'.Same s :=
  ⟨h.1.symm, h.2.1.symm, h.2.2.1.symm, h.2.2.2.symm⟩

theorem PortfolioEmergency.Same.trans {s s' s'' : PortfolioEmergency} (h : s.Same s') (h' : s'.Same s'') : s.Same s'' :=
  ⟨h.1.trans h'.1, h.2.1.trans h'.2.1, h.2.2.1.trans h'.2.2.1, h.2.2.2.trans h'.2.2.2⟩

variable {state : PortfolioEmergency}

theorem mem_statesOf {id : Nat} : state ∈ statesOf id log ↔ state ∈ recordedStates log ∧ state.id = id := by
  simp [statesOf]

variable {record : ControlRecord}

theorem recordedStates_append : recordedStates (log ++ [record]) = recordedStates log ++ record.emergency?.toList := by
  cases h : record.emergency? <;> simp [recordedStates, h]

theorem recordedStates_changed :
    recordedStates (log ++ [.portfolioEmergencyChanged state]) = recordedStates log ++ [state] := recordedStates_append

theorem statesOf_changed {id : Nat} : statesOf id (log ++ [.portfolioEmergencyChanged state]) =
      statesOf id log ++ if state.id = id then [state] else [] := by
  rw [statesOf, recordedStates_changed, filter_append, filter_singleton]
  by_cases h : state.id = id <;> simp [statesOf, h]

/-- **The phases recorded of an emergency, up to the one it is in**, from its last return to the first. -/
def Trail (phases : List PortfolioEmergencyPhase) : PortfolioEmergencyPhase → Prop
  | .resolveOrders => ∃ earlier, phases = earlier ++ [.resolveOrders]
  | .closeNet => ∃ earlier m, phases = earlier ++ .resolveOrders :: List.replicate (m + 1) .closeNet
  | .settleOffsets => ∃ earlier m k, phases =
      earlier ++ .resolveOrders :: (List.replicate (m + 1) .closeNet ++ List.replicate (k + 1) .settleOffsets)

theorem Trail.step {phases : List PortfolioEmergencyPhase} {old state : PortfolioEmergencyPhase} (h : Trail phases old)
    (hlegal : old.legal state = true) : Trail (phases ++ [state]) state := by
  cases old with
  | resolveOrders =>
    obtain ⟨earlier, rfl⟩ := h
    cases state with
    | resolveOrders => exact ⟨_, rfl⟩
    | closeNet => exact ⟨earlier, 0, by simp⟩
    | settleOffsets => cases hlegal
  | closeNet =>
    obtain ⟨earlier, m, rfl⟩ := h
    cases state with
    | resolveOrders => cases hlegal
    | closeNet => exact ⟨earlier, m + 1, by simp [replicate_succ' (n := m + 1)]⟩
    | settleOffsets => exact ⟨earlier, m, 0, by simp⟩
  | settleOffsets =>
    obtain ⟨earlier, m, k, rfl⟩ := h
    cases state with
    | resolveOrders => exact ⟨_, rfl⟩
    | closeNet => cases hlegal
    | settleOffsets => exact ⟨earlier, m, k + 1, by simp [replicate_succ' (n := k + 1)]⟩

/-- An emergency that stands is the one its records say: the same terms, and the phase of the last. -/
structure Standing (log : List ControlRecord) (e : PortfolioEmergency) : Prop where
  recorded : ∃ state ∈ recordedStates log, state.id = e.id
  same : ∀ state ∈ recordedStates log, state.id = e.id → state.Same e
  trail : Trail ((statesOf e.id log).map PortfolioEmergency.phase) e.phase

variable (log issued c) in
structure OnRecord : Prop where
  issued : ∃ n, issued = List.range' 1 n ∧ c.nextId = n + 1
  allocated : ∀ state ∈ recordedStates log, state.id < c.nextId
  constant : ∀ state ∈ recordedStates log, ∀ state' ∈ recordedStates log, state.id = state'.id → state.Same state'
  standing : ∀ e ∈ c.emergencies, Standing log e

namespace OnRecord

section
variable (h : OnRecord log issued c)
include h

theorem eq_of_id {e e' : PortfolioEmergency} (he : e ∈ c.emergencies) (he' : e' ∈ c.emergencies)
    (hid : e.id = e'.id) : e = e' := by
  obtain ⟨state, hstate, hstateId⟩ := (h.standing e he).recorded
  have hsame := (h.standing e he).same state hstate hstateId
  have hsame' := (h.standing e' he').same state hstate (hstateId.trans hid)
  exact eq_of_key he he' (hsame.1.symm.trans hsame'.1)

theorem frame {log' : List ControlRecord} (hlog : recordedStates log' = recordedStates log)
    (hnext : c'.nextId = c.nextId)
    (hfrom : ∀ e' ∈ c'.emergencies, ∃ e ∈ c.emergencies, e.id = e'.id ∧ e.phase = e'.phase ∧ e.Same e') :
    OnRecord log' issued c' := by
  refine ⟨hnext ▸ h.issued, by rw [hlog, hnext]; exact h.allocated, by rw [hlog]; exact h.constant, ?_⟩
  intro e' he'
  obtain ⟨e, he, hid, hphase, hsame⟩ := hfrom e' he'
  obtain ⟨hrecorded, hsameAll, htrail⟩ := h.standing e he
  refine ⟨by rwa [hlog, ← hid], ?_, ?_⟩
  · intro state hstate hstateId
    rw [hlog] at hstate
    exact (hsameAll state hstate (hstateId.trans hid.symm)).trans hsame
  · have hstates : statesOf e'.id log' = statesOf e.id log := by rw [statesOf, statesOf, hlog, hid]
    rwa [hstates, ← hphase]

theorem keeps (hrecord : record.emergency? = none)
    (hissues : c.issues record = []) (hnext : c'.nextId = c.nextId) (hsub : ∀ e ∈ c'.emergencies, e ∈ c.emergencies) :
    OnRecord (log ++ [record]) (issued ++ c.issues record) c' := by
  rw [hissues, append_nil]
  refine h.frame ?_ hnext fun e he => ⟨e, hsub e he, rfl, rfl, rfl, rfl, rfl, rfl⟩
  rw [recordedStates_append, hrecord, Option.toList_none, append_nil]

theorem issue : OnRecord log (issued ++ [c.nextId]) { c with nextId := c.nextId + 1 } := by
  obtain ⟨n, hissued, hnext⟩ := h.issued
  refine ⟨⟨n + 1, ?_, by rw [← hnext]⟩, ?_, h.constant, h.standing⟩
  · rw [hissued, hnext, range'_1_concat, Nat.add_comm n 1]
  · intro state hstate
    have hlt := h.allocated state hstate
    exact Nat.lt_succ_of_lt hlt

end

variable {state : PortfolioEmergency}

section
variable (h : OnRecord log issued c)
include h

theorem put (hnext : state.id < c.nextId)
    (hsame : ∀ state' ∈ recordedStates log, state'.id = state.id → state'.Same state)
    (htrail : Trail ((statesOf state.id log).map PortfolioEmergency.phase ++ [state.phase]) state.phase)
    (hother : ∀ e ∈ c.emergencies, e.symbol ≠ state.symbol → e.id ≠ state.id) :
    OnRecord (log ++ [.portfolioEmergencyChanged state]) issued (c.putEmergency state) := by
  refine ⟨h.issued, ?_, ?_, ?_⟩
  · intro state' hstate'
    rw [recordedStates_changed, mem_append, mem_singleton] at hstate'
    rcases hstate' with hstate' | rfl
    · exact h.allocated state' hstate'
    · exact hnext
  · intro s hs s' hs' hid
    rw [recordedStates_changed, mem_append, mem_singleton] at hs hs'
    rcases hs with hs | rfl
    · rcases hs' with hs' | rfl
      · exact h.constant s hs s' hs' hid
      · exact hsame s hs hid
    · rcases hs' with hs' | rfl
      · exact (hsame s' hs' hid.symm).symm
      · exact ⟨rfl, rfl, rfl, rfl⟩
  · intro e he
    rcases mem_put.mp he with rfl | ⟨he, hsymbol⟩
    · refine ⟨⟨e, by simp [recordedStates_changed], rfl⟩, ?_, ?_⟩
      · intro s hs hid
        rw [recordedStates_changed, mem_append, mem_singleton] at hs
        rcases hs with hs | rfl
        · exact hsame s hs hid
        · exact ⟨rfl, rfl, rfl, rfl⟩
      · rw [statesOf_changed, if_pos rfl, map_append]
        exact htrail
    · -- the records of the others are as they were
      have hid := hother e he hsymbol
      obtain ⟨⟨s, hs, hsid⟩, hsameAll, htrailAll⟩ := h.standing e he
      refine ⟨⟨s, by simp [recordedStates_changed, hs], hsid⟩, ?_, ?_⟩
      · intro s' hs' hid'
        rw [recordedStates_changed, mem_append, mem_singleton] at hs'
        rcases hs' with hs' | rfl
        · exact hsameAll s' hs' hid'
        · exact absurd hid'.symm hid
      · rwa [statesOf_changed, if_neg (Ne.symm hid), append_nil]

theorem opened (hid : state.id = c.nextId) (hphase : state.phase = .resolveOrders) :
    OnRecord (log ++ [.portfolioEmergencyChanged state]) (issued ++ [state.id])
      ({ c with nextId := c.nextId + 1 }.putEmergency state) := by
  have hunnamed : ∀ state' ∈ recordedStates log, state'.id ≠ state.id := by
    intro state' hstate' heq
    have hlt := h.allocated state' hstate'
    omega
  rw [hid]
  refine h.issue.put (Nat.lt_succ_of_le hid.le) ?_ ?_ ?_
  · intro state' hstate' heq
    exact absurd heq (hunnamed state' hstate')
  · have hstates : statesOf state.id log = [] := by
      rw [eq_nil_iff_forall_not_mem]
      intro state' hstate'
      obtain ⟨hmem, heq⟩ := mem_statesOf.mp hstate'
      exact hunnamed state' hmem heq
    rw [hstates, hphase]
    exact ⟨[], rfl⟩
  · intro e he _ heq
    obtain ⟨state', hstate', hstateId⟩ := (h.standing e he).recorded
    exact hunnamed state' hstate' (hstateId.trans heq)

theorem moved {old : PortfolioEmergency}
    (hold : c.emergencies.get? state.symbol = some old) (hfollows : old.Follows state)
    (hlegal : old.phase.legal state.phase = true) :
    OnRecord (log ++ [.portfolioEmergencyChanged state]) issued (c.putEmergency state) := by
  obtain ⟨hmem, hsymbol⟩ := get?_eq_some.mp hold
  obtain ⟨hid, hprice, hreason, hstarted, -⟩ := hfollows
  obtain ⟨⟨s, hs, hsid⟩, hsameAll, htrail⟩ := h.standing old hmem
  have hsame : old.Same state := ⟨hsymbol, hprice.symm, hreason.symm, hstarted.symm⟩
  refine h.put ?_ ?_ ?_ ?_
  · rw [hid, ← hsid]
    exact h.allocated s hs
  · intro state' hstate' heq
    exact (hsameAll state' hstate' (heq.trans hid)).trans hsame
  · rw [hid]
    exact htrail.step hlegal
  · intro e he hne heq
    rw [h.eq_of_id he hmem (heq.trans hid)] at hne
    exact hne hsymbol

theorem apply (hrestates : c.Restates record)
    (haccepts : Accepts b c record c') : OnRecord (log ++ [record]) (issued ++ c.issues record) c' := by
  cases haccepts with
  | segmentBase hrestate =>
    obtain rfl := hrestates
    obtain rfl := restate_snapshot hrestate
    exact h.keeps rfl rfl rfl fun e he => he
  | orderSent hvalid => exact h.keeps rfl rfl rfl fun e he => he
  | @exitOpened state hvalid hnew hid =>
    rw [issues, if_neg (get?_eq_none_iff_not_has.mp hnew), hid]
    exact h.issue.frame (by rw [recordedStates_append]; exact append_nil _) rfl
      fun e he => ⟨e, he, rfl, rfl, rfl, rfl, rfl, rfl⟩
  | @exitMoved state old hvalid hold hfollows =>
    obtain ⟨hmem, hkey⟩ := get?_eq_some.mp hold
    exact h.keeps rfl (if_pos ⟨old, hmem, hkey⟩) rfl fun e he => he
  | exitCompleted howner => exact h.keeps rfl rfl rfl fun e he => he
  | @emergencyOpened state hvalid hnew hphase hid =>
    rw [issues, if_neg (get?_eq_none_iff_not_has.mp hnew)]
    exact h.opened hid hphase
  | @emergencyMoved state old hvalid hold hfollows hlegal =>
    obtain ⟨hmem, hsymbol⟩ := get?_eq_some.mp hold
    rw [issues, if_pos ⟨old, hmem, hsymbol⟩, append_nil]
    exact h.moved hold hfollows hlegal
  | emergencyCompleted howner => exact h.keeps rfl rfl rfl fun e he => (mem_erase.mp he).1
  | offsetSettled hvalid => exact h.keeps rfl rfl rfl fun e he => he
  | pending pending hfill =>
    obtain ⟨_, _, _, _, rfl⟩ | ⟨_, _, _, _, rfl⟩ | rfl := hfill
    · exact h.keeps rfl rfl rfl fun e he => he
    · exact h.keeps rfl rfl rfl fun e he => he
    · exact h.keeps rfl rfl rfl fun e he => he

theorem retire (orders : Ledger.LedgerOfOrders) : OnRecord log issued (c.retireCompletedOrders orders) := by
  refine h.frame rfl rfl fun e' he' => ?_
  rw [retireCompletedOrders, mem_update] at he'
  obtain ⟨e, he, rfl⟩ := he'
  refine ⟨e, he, ?_⟩
  split <;> exact ⟨rfl, rfl, rfl, rfl, rfl, rfl⟩

end

end OnRecord

theorem onRecord (h : Runs b log issued c) : OnRecord log issued c := by
  induction h with
  | start =>
    refine ⟨⟨0, rfl, rfl⟩, by simp [recordedStates], by simp [recordedStates], ?_⟩
    intro e he
    cases he
  | record hrun hrestates happly ih => exact ih.apply hrestates (accepts_of_apply happly)
  | retire hrun orders ih => exact ih.retire orders
  | retain hrun portfolio ih => exact ih.frame rfl rfl fun e he => ⟨e, he, rfl, rfl, rfl, rfl, rfl, rfl⟩

theorem settles (h : OnRecord log issued c) {settlement : PortfolioOffsetSettlement}
    (hvalid : c.validateOffsetSettled settlement = .ok ()) :
    ∃ first rest, statesOf settlement.emergencyId log = first :: rest ∧ settlement.symbol = first.symbol ∧
      settlement.price = first.referencePrice ∧
      Trail ((statesOf settlement.emergencyId log).map PortfolioEmergency.phase) .settleOffsets := by
  simp only [validateOffsetSettled, ok_iff, not_or, not_not] at hvalid
  obtain ⟨e, he, ⟨hid, hphase, hprice⟩, -⟩ := hvalid
  obtain ⟨hmem, hsymbol⟩ := get?_eq_some.mp he
  obtain ⟨⟨s, hs, hsid⟩, hsame, htrail⟩ := h.standing e hmem
  rw [hid, hphase] at htrail
  cases hstates : statesOf settlement.emergencyId log with
  | nil =>
    have hmemStates : s ∈ statesOf settlement.emergencyId log := mem_statesOf.mpr ⟨hs, hsid.trans hid⟩
    rw [hstates] at hmemStates
    cases hmemStates
  | cons first rest =>
    have hfirst : first ∈ statesOf settlement.emergencyId log := by simp [hstates]
    obtain ⟨hfirstMem, hfirstId⟩ := mem_statesOf.mp hfirst
    obtain ⟨hfirstSymbol, hfirstPrice, -⟩ := hsame first hfirstMem (hfirstId.trans hid.symm)
    exact ⟨first, rest, rfl, hsymbol.symm.trans hfirstSymbol.symm, hprice.trans hfirstPrice.symm, hstates ▸ htrail⟩

theorem owned_of_validate {request : Ledger.OrderRequest} {emergencyId : Nat}
    (heffect : request.sleeveEffect = some (.emergencyNetReduction emergencyId))
    (hvalid : c.validateEngineOrder b request = .ok ()) : c.Owned emergencyId request := by
  unfold validateEngineOrder at hvalid
  rw [heffect] at hvalid
  simp only [ok_iff] at hvalid
  exact hvalid.1.1

/-- **The emergency protocol**, after every run: ids are issued one after another, none twice; the
records of an emergency agree in symbol, price, reason and start; a settlement is accepted only at the
price of the first, after order resolution and then net close; a net order only for an emergency in net
close that names it; a refused record changes nothing. -/
theorem emergency_protocol (h : Runs b log issued c) : (∃ n, issued = List.range' 1 n ∧ c.nextId = n + 1) ∧
      (∀ state ∈ recordedStates log, (∀ state' ∈ recordedStates log, state.id = state'.id → state.Same state') ∧
          ∀ e ∈ c.emergencies, state.id = e.id → state.Same e) ∧
      (∀ e ∈ c.emergencies, ∃ state ∈ recordedStates log, state.id = e.id) ∧
      (∀ settlement c', c.apply b (.portfolioOffsetSettled settlement) = (.ok (), c') →
        ∃ first rest, statesOf settlement.emergencyId log = first :: rest ∧ settlement.symbol = first.symbol ∧
          settlement.price = first.referencePrice ∧
          ∃ earlier m k, (statesOf settlement.emergencyId log).map PortfolioEmergency.phase =
            earlier ++ .resolveOrders :: (List.replicate (m + 1) .closeNet ++ List.replicate (k + 1) .settleOffsets)) ∧
      (∀ request emergencyId c', request.sleeveEffect = some (.emergencyNetReduction emergencyId) →
        c.apply b (.orderSent request) = (.ok (), c') →
        ∃ e ∈ c.emergencies, e.symbol = request.symbol ∧ e.id = emergencyId ∧ e.phase = .closeNet ∧
          e.orderId = some request.clientOrderId) ∧
      ∀ record error c', c.apply b record = (.error error, c') → c' = c := by
  have hrecord := onRecord h
  refine ⟨hrecord.issued, ?_, fun e he => (hrecord.standing e he).recorded, ?_, ?_, ?_⟩
  · intro state hstate
    exact ⟨hrecord.constant state hstate, fun e he hid => (hrecord.standing e he).same state hstate hid⟩
  · intro settlement c' happly
    exact settles hrecord (Prod.mk.inj happly).1
  · intro request emergencyId c' heffect happly
    obtain ⟨e, he, hid, hphase, horder⟩ := owned_of_validate heffect (Prod.mk.inj happly).1
    obtain ⟨hmem, hsymbol⟩ := get?_eq_some.mp he
    exact ⟨e, hmem, hsymbol, hid, hphase, horder⟩
  · intro record error c' happly
    exact apply_refused happly

def courseOf (phase : PortfolioEmergencyPhase) : ControlRecord :=
  .portfolioEmergencyChanged ⟨1, 0, 991 / 10, .nativeClose, phase, 1, 0, none⟩

def settledAt (price : Exact) : PortfolioOffsetSettlement :=
  ⟨1, 0, price, 2, [⟨0, -1, .named "USDT"⟩, ⟨1, 1, .named "USDT"⟩]⟩

theorem emergency_protocol_settled : ∃ log issued c, Runs .nearestEven log issued c ∧
      (c.apply .nearestEven (.portfolioOffsetSettled (settledAt (991 / 10)))).1 = .ok () ∧ issued = [1] ∧
      ∃ first rest, statesOf 1 log = first :: rest ∧ (991 / 10 : Exact) = first.referencePrice := by
  have hresolve := (Runs.start (b := .nearestEven)).step (courseOf .resolveOrders) trivial (by decide +kernel)
  have hclose := hresolve.step (courseOf .closeNet) trivial (by decide +kernel)
  have hrun := hclose.step (courseOf .settleOffsets) trivial (by decide +kernel)
  obtain ⟨first, rest, hstates, -, hprice, -⟩ :=
    (emergency_protocol hrun).2.2.2.1 (settledAt (991 / 10)) _ (Prod.ext (by decide +kernel) rfl)
  exact ⟨_, _, _, hrun, by decide +kernel, by decide +kernel, first, rest, hstates, hprice⟩

/-- **A base is taken at its word.** After a base that states no controls, the first id is issued once more,
and the emergency under it has another price. -/
theorem base_reissues_id : ∃ c₁ c₂ c₃ : PortfolioControls, ∃ first second : PortfolioEmergency,
      PortfolioControls.start.apply .nearestEven (.portfolioEmergencyChanged first) = (.ok (), c₁) ∧
        c₁.apply .nearestEven (.segmentBase ⟨1, 1, [], [], []⟩ []) = (.ok (), c₂) ∧
        c₂.apply .nearestEven (.portfolioEmergencyChanged second) = (.ok (), c₃) ∧
        PortfolioControls.start.issues (.portfolioEmergencyChanged first) = [1] ∧
        c₂.issues (.portfolioEmergencyChanged second) = [1] ∧ first.id = second.id ∧
        first.referencePrice ≠ second.referencePrice :=
  ⟨_, _, _, ⟨1, 0, 100, .nativeClose, .resolveOrders, 1, 0, none⟩, ⟨1, 0, 50, .nativeClose, .resolveOrders, 1, 0, none⟩,
    Prod.ext (by decide +kernel) rfl, Prod.ext (by decide +kernel) rfl, Prod.ext (by decide +kernel) rfl,
    by decide +kernel, by decide +kernel, rfl, by decide +kernel⟩

end LiquidityMigration.Portfolio
