import LiquidityMigration.Lib.Interning
import LiquidityMigration.Venue.HyperliquidCloid

/- The registry of dense ids. A sleeve and an instrument are logged under their place in it, so it may grow and
   instruments may get the venue's own name, but no place may come to mean something else. `validate` and
   `validate_extension` are the source's checks; `Valid` and `Keeps` are what they establish (`validate_eq_ok`,
   `validateExtension_eq_ok`), and `Keeps` is transitive. -/
namespace LiquidityMigration.Identity
open Checks Interning

def identitySchemaVersion : Nat := 1

def denseIdCapacity : Nat := 65536

def keyBytesMax : Nat := 256

/-- An `Invalid` carries its text and the names that are printed into it. -/
inductive IdentityError where
  | invalid (what : String) (named : List String)
  | symbolIdsExhausted
  | sleeveIdsExhausted
  | unresolvedInstrument (symbol : String)
  deriving DecidableEq

def ValidText (value : String) : Prop :=
  ¬ (value.toList.all Venue.Hyperliquid.isWhitespace = true ∨ keyBytesMax < value.utf8ByteSize)
  deriving Decidable

def validText (value label : String) : Except IdentityError Unit :=
  require (ValidText value) (.invalid (label ++ " must contain 1..=256 non-blank bytes") [])

structure SleeveKey where
  text : String
  valid : ValidText text
  deriving DecidableEq

def SleeveKey.new (value : String) : Except IdentityError SleeveKey :=
  if h : ValidText value then .ok ⟨value, h⟩
  else .error (.invalid "sleeve key must contain 1..=256 non-blank bytes" [])

theorem SleeveKey.new_eq_ok {value : String} {key : SleeveKey} : SleeveKey.new value = .ok key ↔ key.text = value := by
  unfold SleeveKey.new
  split
  · next h =>
    rw [Except.ok.injEq]
    constructor
    · rintro rfl
      rfl
    · rintro rfl
      rfl
  · next h =>
    constructor
    · intro herr
      cases herr
    · rintro rfl
      exact absurd key.valid h

theorem SleeveKey.text_injective : Function.Injective SleeveKey.text := by
  rintro ⟨a, ha⟩ ⟨b, hb⟩ rfl
  rfl

structure InstrumentScope where
  (venue environment : String)
  deriving DecidableEq

def InstrumentScope.validate (scope : InstrumentScope) : Except IdentityError Unit := do
  validText scope.venue "venue"
  validText scope.environment "environment"

def InstrumentScope.Valid (scope : InstrumentScope) : Prop := ValidText scope.venue ∧ ValidText scope.environment

@[simp] theorem InstrumentScope.validate_eq_ok {scope : InstrumentScope} : scope.validate = .ok () ↔ scope.Valid := by
  simp [InstrumentScope.validate, validText, bind_eq_ok, InstrumentScope.Valid]

structure InstrumentKey where
  (venue environment nativeSymbol : String)
  deriving DecidableEq

namespace InstrumentKey

def inScope (scope : InstrumentScope) (nativeSymbol : String) : InstrumentKey :=
  ⟨scope.venue, scope.environment, nativeSymbol⟩

def validate (key : InstrumentKey) (scope : InstrumentScope) : Except IdentityError Unit := do
  scope.validate
  validText key.nativeSymbol "native symbol"
  require (¬ (key.venue ≠ scope.venue ∨ key.environment ≠ scope.environment))
    (.invalid "instrument scope differs from registry scope"
      [key.venue, key.environment, scope.venue, scope.environment])

structure Valid (key : InstrumentKey) (scope : InstrumentScope) : Prop where
  valid : scope.Valid
  text : ValidText key.nativeSymbol
  same : key.venue = scope.venue ∧ key.environment = scope.environment

theorem validate_eq_ok {key : InstrumentKey} {scope : InstrumentScope} :
    key.validate scope = .ok () ↔ key.Valid scope := by
  simp only [validate, validText, ok_iff, InstrumentScope.validate_eq_ok, not_or, not_not]
  constructor
  · rintro ⟨hscope, htext, hsame⟩
    exact ⟨hscope, htext, hsame⟩
  · rintro ⟨hscope, htext, hsame⟩
    exact ⟨hscope, htext, hsame⟩

end InstrumentKey

inductive InstrumentIdentity where
  | unresolved
  | resolved (key : InstrumentKey)
  deriving DecidableEq

def InstrumentIdentity.key? : InstrumentIdentity → Option InstrumentKey
  | .unresolved => none
  | .resolved key => some key

structure InstrumentBinding where
  symbol : String
  identity : InstrumentIdentity
  deriving DecidableEq

/-- The registry. Places in its lists are the dense ids of the log. -/
structure IdentityState where
  schemaVersion : Nat
  scope : Option InstrumentScope
  sleeves : List SleeveKey
  instruments : List InstrumentBinding
  deriving DecidableEq

def IdentityState.empty : IdentityState := ⟨identitySchemaVersion, none, [], []⟩

def checkSome {τ : Type} (o : Option τ) (check : τ → Except IdentityError Unit) : Except IdentityError Unit :=
  match o with
  | some value => check value
  | none => .ok ()

@[simp] theorem checkSome_eq_ok {τ : Type} {o : Option τ} {check : τ → Except IdentityError Unit} :
    checkSome o check = .ok () ↔ ∀ value ∈ o, check value = .ok () := by
  cases o <;> simp [checkSome]

def checkSleeves (seen : List SleeveKey) : List SleeveKey → Except IdentityError Unit
  | [] => .ok ()
  | key :: rest => do
    require (key ∉ seen) (.invalid "duplicate sleeve key" [key.text])
    checkSleeves (key :: seen) rest

theorem checkSleeves_eq_ok {seen keys : List SleeveKey} : checkSleeves seen keys = .ok () ↔ Fresh seen keys := by
  induction keys generalizing seen with
  | nil => simp [checkSleeves]
  | cons key rest ih =>
    simp only [checkSleeves, ok_iff, ih]
    exact fresh_cons.symm

/-- The venue's name of one instrument, against the scope and the names before it. -/
def checkNative (scope : Option InstrumentScope) (natives : List InstrumentKey) (key : InstrumentKey) :
    Except IdentityError Unit := do
  let scope ← orError scope (.invalid "resolved instrument has no registry scope" [])
  key.validate scope
  require (key ∉ natives) (.invalid "native instrument is assigned more than one dense id" [key.nativeSymbol])

def checkBindings (scope : Option InstrumentScope) (symbols : List String) (natives : List InstrumentKey) :
    List InstrumentBinding → Except IdentityError Unit
  | [] => .ok ()
  | binding :: rest => do
    validText binding.symbol "logged symbol"
    require (binding.symbol ∉ symbols) (.invalid "duplicate logged symbol" [binding.symbol])
    checkSome binding.identity.key? (checkNative scope natives)
    checkBindings scope (binding.symbol :: symbols) (binding.identity.key?.toList ++ natives) rest

def nativeKeys (bindings : List InstrumentBinding) : List InstrumentKey :=
  bindings.filterMap fun binding => binding.identity.key?

/-- An instrument of a registry with this scope. -/
structure InstrumentBinding.Valid (binding : InstrumentBinding) (scope : Option InstrumentScope) : Prop where
  text : ValidText binding.symbol
  native : ∀ key ∈ binding.identity.key?, ∃ s ∈ scope, key.Valid s

theorem checkNative_eq_ok {scope : Option InstrumentScope} {natives : List InstrumentKey} {key : InstrumentKey} :
    checkNative scope natives key = .ok () ↔ (∃ s ∈ scope, key.Valid s) ∧ key ∉ natives := by
  simp only [checkNative, ok_iff, InstrumentKey.validate_eq_ok]
  constructor
  · rintro ⟨s, hs, hvalid, hnew⟩
    exact ⟨⟨s, hs, hvalid⟩, hnew⟩
  · rintro ⟨⟨s, hs, hvalid⟩, hnew⟩
    exact ⟨s, hs, hvalid, hnew⟩

theorem checkBindings_eq_ok {scope : Option InstrumentScope} {symbols : List String} {natives : List InstrumentKey}
    {bindings : List InstrumentBinding} :
    checkBindings scope symbols natives bindings = .ok () ↔
      (∀ binding ∈ bindings, binding.Valid scope) ∧ Fresh symbols (bindings.map InstrumentBinding.symbol) ∧
        Fresh natives (nativeKeys bindings) := by
  induction bindings generalizing symbols natives with
  | nil => simp [checkBindings, nativeKeys]
  | cons binding rest ih =>
    have hkeys : nativeKeys (binding :: rest) = binding.identity.key?.toList ++ nativeKeys rest := by
      unfold nativeKeys
      cases hkey : binding.identity.key? <;> simp [hkey]
    simp only [checkBindings, validText, ok_iff, checkSome_eq_ok, checkNative_eq_ok, ih]
    rw [hkeys, fresh_option, List.map_cons, fresh_cons, List.forall_mem_cons]
    constructor
    · rintro ⟨htext, hsymbol, hnative, hrest, hsymbols, hnatives⟩
      exact ⟨⟨⟨htext, fun key hkey => (hnative key hkey).1⟩, hrest⟩, ⟨hsymbol, hsymbols⟩,
        fun key hkey => (hnative key hkey).2, hnatives⟩
    · rintro ⟨⟨hvalid, hrest⟩, ⟨hsymbol, hsymbols⟩, hnew, hnatives⟩
      exact ⟨hvalid.text, hsymbol, fun key hkey => ⟨hvalid.native key hkey, hnew key hkey⟩, hrest, hsymbols, hnatives⟩

namespace IdentityState

def validate (state : IdentityState) : Except IdentityError Unit := do
  require (state.schemaVersion = identitySchemaVersion)
    (.invalid "unsupported registry schema" [toString state.schemaVersion])
  require (¬ denseIdCapacity < state.sleeves.length) .sleeveIdsExhausted
  require (¬ denseIdCapacity < state.instruments.length) .symbolIdsExhausted
  checkSome state.scope InstrumentScope.validate
  checkSleeves [] state.sleeves
  checkBindings state.scope [] [] state.instruments

/-- A registry in which every place means one thing and no thing has two places. -/
structure Valid (state : IdentityState) : Prop where
  schema : state.schemaVersion = identitySchemaVersion
  sleeves_le : state.sleeves.length ≤ denseIdCapacity
  instruments_le : state.instruments.length ≤ denseIdCapacity
  scope : ∀ s ∈ state.scope, s.Valid
  sleeves : state.sleeves.Nodup
  bindings : ∀ binding ∈ state.instruments, binding.Valid state.scope
  symbols : (state.instruments.map InstrumentBinding.symbol).Nodup
  natives : (nativeKeys state.instruments).Nodup

theorem validate_eq_ok {state : IdentityState} : state.validate = .ok () ↔ state.Valid := by
  simp only [validate, ok_iff, checkSome_eq_ok, InstrumentScope.validate_eq_ok, checkSleeves_eq_ok,
    checkBindings_eq_ok, fresh_nil_left, not_lt]
  constructor
  · rintro ⟨hschema, hsleeves, hinstruments, hscope, hnodup, hbindings, hsymbols, hnatives⟩
    exact ⟨hschema, hsleeves, hinstruments, hscope, hnodup, hbindings, hsymbols, hnatives⟩
  · rintro ⟨hschema, hsleeves, hinstruments, hscope, hnodup, hbindings, hsymbols, hnatives⟩
    exact ⟨hschema, hsleeves, hinstruments, hscope, hnodup, hbindings, hsymbols, hnatives⟩

end IdentityState

/-- What becomes of an instrument's place: the same symbol, and the same name at the
venue once there is one. -/
def InstrumentBinding.Keeps (new old : InstrumentBinding) : Prop :=
  new.symbol = old.symbol ∧ ∀ key, old.identity = .resolved key → new.identity = .resolved key

def checkKept : List InstrumentBinding → List InstrumentBinding → Except IdentityError Unit
  | old :: olds, new :: news => do
    require (¬ (old.symbol ≠ new.symbol ∨ (old.identity.key?.isSome ∧ old.identity ≠ new.identity)))
      (.invalid "registered instrument was reassigned" [old.symbol])
    checkKept olds news
  | _, _ => .ok ()

theorem binding_kept_iff {old new : InstrumentBinding} :
    ¬ (old.symbol ≠ new.symbol ∨ (old.identity.key?.isSome ∧ old.identity ≠ new.identity)) ↔ new.Keeps old := by
  unfold InstrumentBinding.Keeps
  cases hold : old.identity with
  | unresolved => simp [InstrumentIdentity.key?, eq_comm]
  | resolved key => simp [InstrumentIdentity.key?, eq_comm]

/-- What becomes of a list of places: all of them are there, and each is kept. -/
def AllKept (news olds : List InstrumentBinding) : Prop :=
  ∀ (i : Nat) (old : InstrumentBinding), olds[i]? = some old →
    ∃ new : InstrumentBinding, news[i]? = some new ∧ new.Keeps old

theorem checkKept_eq_ok {olds news : List InstrumentBinding} (hlength : olds.length ≤ news.length) :
    checkKept olds news = .ok () ↔ AllKept news olds := by
  induction olds generalizing news with
  | nil => simp [checkKept, AllKept]
  | cons old olds ih =>
    cases news with
    | nil => simp at hlength
    | cons new news =>
      simp only [checkKept, ok_iff, binding_kept_iff]
      rw [ih (by simpa using hlength)]
      constructor
      · rintro ⟨hfirst, hrest⟩ i o hi
        cases i with
        | zero =>
          cases hi
          exact ⟨new, rfl, hfirst⟩
        | succ i => exact hrest i o hi
      · intro h
        refine ⟨?_, fun i o hi => h (i + 1) o hi⟩
        obtain ⟨n, hn, hkeeps⟩ := h 0 old rfl
        cases hn
        exact hkeeps

namespace IdentityState

def validateExtension (state prior : IdentityState) : Except IdentityError Unit := do
  state.validate
  prior.validate
  require (¬ (prior.scope.isSome ∧ state.scope ≠ prior.scope)) (.invalid "registry venue/environment changed" [])
  require (prior.sleeves.isPrefixOf state.sleeves)
    (.invalid "registered sleeve ids were removed or reassigned" [])
  require (¬ state.instruments.length < prior.instruments.length)
    (.invalid "registered instrument ids were removed" [])
  checkKept prior.instruments state.instruments

/-- Every dense id of `prior` means in `state` what it meant. -/
structure Keeps (state prior : IdentityState) : Prop where
  scope : ∀ s, prior.scope = some s → state.scope = some s
  sleeves : prior.sleeves <+: state.sleeves
  instruments : AllKept state.instruments prior.instruments

variable {state prior : IdentityState}

theorem Keeps.length_le (h : state.Keeps prior) : prior.instruments.length ≤ state.instruments.length := by
  by_contra hless
  have hlast : prior.instruments[state.instruments.length]? = some (prior.instruments[state.instruments.length]) :=
    List.getElem?_eq_getElem (not_le.mp hless)
  obtain ⟨new, hnew, -⟩ := h.instruments _ _ hlast
  simp at hnew

theorem Keeps.refl (state : IdentityState) : state.Keeps state :=
  ⟨fun _ h => h, List.prefix_refl _, fun _ old h => ⟨old, h, rfl, fun _ hkey => hkey⟩⟩

theorem Keeps.trans {newest : IdentityState} (h : newest.Keeps state) (h' : state.Keeps prior) :
    newest.Keeps prior := by
  refine ⟨fun s hs => h.scope s (h'.scope s hs), h'.sleeves.trans h.sleeves, ?_⟩
  intro i old hold
  obtain ⟨mid, hmid, hsymbol, hkey⟩ := h'.instruments i old hold
  obtain ⟨new, hnew, hsymbol', hkey'⟩ := h.instruments i mid hmid
  exact ⟨new, hnew, hsymbol'.trans hsymbol, fun key hk => hkey' key (hkey key hk)⟩

theorem validateExtension_eq_ok :
    state.validateExtension prior = .ok () ↔ state.Valid ∧ prior.Valid ∧ state.Keeps prior := by
  simp only [validateExtension, ok_iff, validate_eq_ok, List.isPrefixOf_iff_prefix, not_lt]
  have hscope : ¬ (prior.scope.isSome ∧ state.scope ≠ prior.scope) ↔
      ∀ s, prior.scope = some s → state.scope = some s := by
    cases prior.scope <;> simp
  rw [hscope]
  constructor
  · rintro ⟨hvalid, hprior, hsame, hsleeves, hlength, hkept⟩
    exact ⟨hvalid, hprior, hsame, hsleeves, (checkKept_eq_ok hlength).mp hkept⟩
  · rintro ⟨hvalid, hprior, hkeeps⟩
    exact ⟨hvalid, hprior, hkeeps.scope, hkeeps.sleeves, hkeeps.length_le,
      (checkKept_eq_ok hkeeps.length_le).mpr hkeeps.instruments⟩

end IdentityState

end LiquidityMigration.Identity
