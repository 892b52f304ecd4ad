import LiquidityMigration.Lib.Checks
import LiquidityMigration.Lib.Decimal
import LiquidityMigration.Lib.Text

/- The names of signal sources. The engine grants a producer one source a lane and
   an epoch, under a name that spells out all of it (`ManagedSignalSource`). A managed
   name is the text of exactly one identity (`parse_iff_text`). -/
namespace LiquidityMigration.Signal
open Checks Text Decimal Option String

abbrev U64 := Fin (2 ^ 64)

def U64.ofNat? (n : Nat) : Option U64 := if h : n < 2 ^ 64 then some ⟨n, h⟩ else none

theorem U64.ofNat?_eq_some {n : Nat} {a : U64} : U64.ofNat? n = some a ↔ a.val = n := by
  unfold U64.ofNat?
  split
  · next h => rw [some.injEq, Fin.ext_iff, eq_comm]
  · next h =>
    constructor
    · intro hn
      cases hn
    · intro ha
      omega

def U64.checkedSucc (a : U64) : Option U64 := U64.ofNat? (a.val + 1)

/-- The place of a strategy in the engine's table, a `u16`. -/
abbrev StrategyId := Fin (2 ^ 16)

inductive SignalLane where
  | long
  | carry
  deriving DecidableEq

open SignalLane

def SignalLane.name : SignalLane → String
  | .long => "long"
  | .carry => "carry"

def SignalLane.parse (value : List Char) : Option SignalLane :=
  if value = "long".toList then some .long else if value = "carry".toList then some .carry else none

theorem SignalLane.parse_eq_some {value : List Char} {lane : SignalLane} :
    parse value = some lane ↔ value = lane.name.toList := by
  unfold parse
  cases lane with
  | long => simp [name]
  | carry =>
    have hne : "carry".toList ≠ "long".toList := by decide
    constructor
    · intro h
      split at h
      · cases h
      · next hlong => simpa [name] using h
    · intro h
      have hcarry : value = "carry".toList := h
      rw [hcarry, if_neg hne, if_pos rfl]

@[simp] theorem SignalLane.parse_name (lane : SignalLane) : parse lane.name.toList = some lane :=
  parse_eq_some.mpr rfl

theorem SignalLane.dot_not_mem_name (lane : SignalLane) : '.' ∉ lane.name.toList := by
  cases lane <;> decide

/-- 32 lower-case hexadecimal digits. -/
def validSignalGeneration (generation : List Char) : Bool :=
  byteLength generation == 32 && generation.all fun c => c.isDigit || (decide ('a' ≤ c) && decide (c ≤ 'f'))

theorem dot_not_mem_of_valid {generation : List Char} (h : validSignalGeneration generation = true) :
    '.' ∉ generation := by
  intro hdot
  simp only [validSignalGeneration, Bool.and_eq_true, List.all_eq_true] at h
  exact absurd (h.2 '.' hdot) (by decide)

/-- The grant a managed name spells out. -/
structure ManagedSignalSource where
  producer : String
  epoch : U64
  generation : String
  lane : SignalLane
  deriving DecidableEq

namespace ManagedSignalSource

/-- `producer.e<epoch>.g<generation>.<lane>`, the epoch with twenty digits. -/
def text (id : ManagedSignalSource) : String :=
  id.producer ++ ".e" ++ String.ofList (Decimal.padded 20 id.epoch) ++ ".g" ++ id.generation ++ "." ++ id.lane.name

def ofParts (source : String) (producer epoch generation : List Char) (lane : SignalLane) :
    Option ManagedSignalSource :=
  if producer ≠ [] ∧ source.utf8ByteSize ≤ 256 ∧ byteLength epoch = 20 ∧ epoch.all Char.isDigit = true ∧
      validSignalGeneration generation = true then do
    let epoch ← U64.ofNat? (Nat.ofDigitChars 10 epoch 0)
    if epoch ≠ 0 then some ⟨String.ofList producer, epoch, String.ofList generation, lane⟩ else none
  else none

variable {source : String} {id : ManagedSignalSource}

theorem ofParts_eq_some {producer epoch generation : List Char} {lane : SignalLane} :
    ofParts source producer epoch generation lane = some id ↔
      (producer ≠ [] ∧ source.utf8ByteSize ≤ 256 ∧ byteLength epoch = 20 ∧ epoch.all Char.isDigit = true ∧
        validSignalGeneration generation = true) ∧
      id.epoch.val = Nat.ofDigitChars 10 epoch 0 ∧ id.epoch ≠ 0 ∧
      id = ⟨String.ofList producer, id.epoch, String.ofList generation, lane⟩ := by
  unfold ofParts
  split
  · next hok =>
    simp only [bind_eq_bind, bind_eq_some_iff, U64.ofNat?_eq_some, hok, true_and, ne_eq,
      ite_none_right_eq_some, some.injEq, not_false_eq_true]
    constructor
    · intro h
      obtain ⟨value, hvalue, hzero, hid⟩ := h
      subst hid
      exact ⟨hvalue, hzero, rfl⟩
    · intro h
      exact ⟨id.epoch, h.1, h.2.1, h.2.2.symm⟩
  · next hno =>
    constructor
    · intro h
      cases h
    · intro h
      exact absurd h.1 hno

def parse (source : String) : Option ManagedSignalSource := do
  let (identity, lane) ← splitLast ['.'] source.toList
  let lane ← SignalLane.parse lane
  let (identity, generation) ← splitLast ['.', 'g'] identity
  let (producer, epoch) ← splitLast ['.', 'e'] identity
  ofParts source producer epoch generation lane

/-- The texts `parse` takes. -/
structure Valid (id : ManagedSignalSource) : Prop where
  producer : id.producer ≠ ""
  epoch : id.epoch ≠ 0
  generation : validSignalGeneration id.generation.toList = true
  length : id.text.utf8ByteSize ≤ 256

theorem toList_text (id : ManagedSignalSource) : id.text.toList =
    ((id.producer.toList ++ (['.', 'e'] ++ Decimal.padded 20 id.epoch)) ++ (['.', 'g'] ++ id.generation.toList)) ++
      (['.'] ++ id.lane.name.toList) := by
  have he : ".e".toList = ['.', 'e'] := rfl
  have hg : ".g".toList = ['.', 'g'] := rfl
  have hdot : ".".toList = ['.'] := rfl
  simp [text, toList_append, he, hg, hdot]

theorem byteLength_padded (n : U64) : byteLength (Decimal.padded 20 n) = 20 := by
  rw [byteLength_digits (isDigit_padded 20 n)]
  apply length_padded (by decide)
  have := n.isLt
  omega

theorem ofDigitChars_padded (n : U64) : Nat.ofDigitChars 10 (Decimal.padded 20 n) 0 = n.val := by
  have hread := digits_padded 20 n
  rw [digits, if_pos ⟨padded_ne_nil 20 n, isDigit_padded 20 n⟩] at hread
  exact some.inj hread

theorem toList_eq_nil {text : String} : text.toList = [] ↔ text = "" := by
  rw [← toList_inj]
  rfl

theorem parse_of_form {id' : ManagedSignalSource} (hgeneration : '.' ∉ id.generation.toList) :
    parse id.text = some id' ↔ id' = id ∧ id.Valid := by
  set tail := ['.', 'e'] ++ padded 20 id.epoch
  have hdot : '.' ∉ padded 20 id.epoch := by
    intro h
    exact absurd (isDigit_padded 20 id.epoch '.' h) (by decide)
  have hlane : splitLast ['.'] id.text.toList =
      some (id.producer.toList ++ tail ++ (['.', 'g'] ++ id.generation.toList),
        id.lane.name.toList) := by
    rw [toList_text]
    exact splitLast_append _ (by simp) id.lane.dot_not_mem_name
  have hgen : splitLast ['.', 'g']
      (id.producer.toList ++ tail ++ (['.', 'g'] ++ id.generation.toList)) =
      some (id.producer.toList ++ tail, id.generation.toList) :=
    splitLast_append _ (by simp) hgeneration
  have hepoch : splitLast ['.', 'e'] (id.producer.toList ++ tail) =
      some (id.producer.toList, padded 20 id.epoch) :=
    splitLast_append _ (by simp) hdot
  have hparse : parse id.text =
      ofParts id.text id.producer.toList (padded 20 id.epoch) id.generation.toList id.lane := by
    rw [parse, hlane]
    simp only [bind_eq_bind, bind_some, parse_name, hgen, hepoch]
  rw [hparse, ofParts_eq_some, ofList_toList, ofList_toList, ofDigitChars_padded, byteLength_padded]
  constructor
  · intro h
    obtain ⟨⟨hproducer, hlength, -, -, hvalid⟩, hvalue, hzero, hid⟩ := h
    have hsame : id' = id := by
      rw [hid, Fin.ext hvalue]
    exact ⟨hsame, fun hempty => hproducer (toList_eq_nil.mpr hempty), hsame ▸ hzero, hvalid, hlength⟩
  · intro h
    obtain ⟨hid, hvalid⟩ := h
    subst hid
    refine ⟨⟨fun hnil => hvalid.producer (toList_eq_nil.mp hnil), hvalid.length, rfl, ?_, hvalid.generation⟩,
      rfl, hvalid.epoch, rfl⟩
    exact List.all_eq_true.mpr (isDigit_padded 20 id'.epoch)

theorem parse_iff_text : parse source = some id ↔ source = id.text ∧ id.Valid := by
  constructor
  · intro h
    have hparsed := h
    simp only [parse, bind_eq_bind, bind_eq_some_iff, Prod.exists] at h
    obtain ⟨identity, laneText, hcut, lane, hlane, identity', generation, hcut', producer, epoch, hcut'', hparts⟩ := h
    have hsource := eq_of_splitLast hcut
    have hidentity := eq_of_splitLast hcut'
    have hidentity' := eq_of_splitLast hcut''
    rw [SignalLane.parse_eq_some] at hlane
    obtain ⟨⟨-, -, hlength, hdigits, hgeneration⟩, hvalue, -, hid⟩ := ofParts_eq_some.mp hparts
    rw [List.all_eq_true] at hdigits
    -- the twenty digits are the print of the epoch they denote
    have hprint : padded 20 id.epoch = epoch := by
      rw [hvalue]
      apply padded_ofDigitChars (by decide) _ hdigits
      rw [← byteLength_digits hdigits, hlength]
    have htext : source = id.text := by
      rw [← toList_inj, toList_text, hsource, hidentity, hidentity', hlane, hprint, hid]
      simp
    have hdot : '.' ∉ id.generation.toList := by
      rw [hid, toList_ofList]
      exact dot_not_mem_of_valid hgeneration
    rw [htext, parse_of_form hdot] at hparsed
    exact ⟨htext, hparsed.2⟩
  · intro h
    rw [h.1, parse_of_form (dot_not_mem_of_valid h.2.generation)]
    exact ⟨rfl, h.2⟩

def encode (id : ManagedSignalSource) : Except String String :=
  if (parse id.text).isSome then .ok id.text else .error "invalid managed signal source identity"

/-- `encode` gives the text of the identities that can be read back. A generation with a dot may be taken for
another identity's. -/
theorem encode_eq_ok (hgeneration : '.' ∉ id.generation.toList) :
    id.encode = .ok source ↔ source = id.text ∧ id.Valid := by
  have hsome : (parse id.text).isSome = true ↔ id.Valid := by
    rw [isSome_iff_exists]
    simp only [parse_of_form hgeneration, exists_eq_left]
  unfold encode
  split
  · next hread => simp [hsome.mp hread, eq_comm]
  · next hread => simp [mt hsome.mpr hread]

end ManagedSignalSource
end LiquidityMigration.Signal
