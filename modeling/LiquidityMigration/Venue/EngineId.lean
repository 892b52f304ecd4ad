import LiquidityMigration.Engine.OrderEpoch

/- The engine's order id as the venue codecs read and print it. Both codecs cut
   `eng-<boot ms>-<n>` the same way and refuse what is not two runs of digits;
   what they accept beyond that is their own. -/
namespace LiquidityMigration.Venue
open Option

/-- `eng-<boot ms>-<n>`. -/
def engineId (bootMs counter : Nat) : String := "eng-" ++ toString bootMs ++ "-" ++ toString counter

def engineNumerals (id : String) : Option (List Char × List Char) := do
  let rest ← "eng-".toList.isPrefixOf? id.toList
  let (boot, counter) ← Text.splitOnce '-' rest
  if boot.isEmpty || counter.isEmpty then none
  else if !boot.all Char.isDigit || !counter.all Char.isDigit then none
  else some (boot, counter)

def Numeral (cs : List Char) : Prop := cs ≠ [] ∧ ∀ c ∈ cs, c.isDigit = true

theorem numeral_toDigits (n : Nat) : Numeral (Nat.toDigits 10 n) :=
  ⟨Nat.toDigits_ne_nil, Decimal.isDigit_toDigits n⟩

theorem Numeral.dash_not_mem {cs : List Char} (h : Numeral cs) : '-' ∉ cs :=
  fun hmem => absurd (h.2 _ hmem) (by decide)

theorem Numeral.toDigits_eq {cs : List Char} (h : Numeral cs) (hzero : ¬ Decimal.LeadingZero cs) :
    Nat.toDigits 10 (Nat.ofDigitChars 10 cs 0) = cs :=
  Decimal.toDigits_ofDigitChars h.1 h.2 hzero

theorem engineNumerals_eq_some {id : String} {boot counter : List Char} : engineNumerals id = some (boot, counter) ↔
      Numeral boot ∧ Numeral counter ∧ id.toList = "eng-".toList ++ (boot ++ '-' :: counter) := by
  unfold engineNumerals
  constructor
  · intro h
    simp only [bind_eq_bind, bind_eq_some_iff, List.isPrefixOf?_eq_some_iff_append_eq] at h
    obtain ⟨rest, hrest, ⟨b, c⟩, hcut, h⟩ := h
    obtain ⟨-, rfl⟩ := Text.splitOnce_eq_some.mp hcut
    split at h
    · cases h
    · next hempty =>
      split at h
      · cases h
      · next hdigits =>
        cases h
        simp only [Bool.or_eq_true, List.isEmpty_iff, not_or, Bool.not_eq_true', Bool.not_eq_false,
          List.all_eq_true] at hempty hdigits
        exact ⟨⟨hempty.1, hdigits.1⟩, ⟨hempty.2, hdigits.2⟩, hrest.symm⟩
  · rintro ⟨hboot, hcounter, hid⟩
    have hcut := Text.splitOnce_append counter hboot.dash_not_mem
    rw [List.isPrefixOf?_eq_some_iff_append_eq.mpr hid.symm]
    simp only [bind_eq_bind, bind_some, hcut]
    rw [if_neg (by simp [hboot.1, hcounter.1]),
      if_neg (by simpa using And.intro hboot.2 hcounter.2)]

theorem engineId_toList (bootMs counter : Nat) : (engineId bootMs counter).toList =
      "eng-".toList ++ (Nat.toDigits 10 bootMs ++ '-' :: Nat.toDigits 10 counter) := by
  simp [engineId]

theorem engineNumerals_engineId (bootMs counter : Nat) :
    engineNumerals (engineId bootMs counter) = some (Nat.toDigits 10 bootMs, Nat.toDigits 10 counter) :=
  engineNumerals_eq_some.mpr ⟨numeral_toDigits _, numeral_toDigits _, engineId_toList _ _⟩

theorem eq_engineId_iff {id : String} {boot counter : List Char} {bootMs n : Nat}
    (h : engineNumerals id = some (boot, counter)) :
    id = engineId bootMs n ↔ boot = Nat.toDigits 10 bootMs ∧ counter = Nat.toDigits 10 n := by
  constructor
  · rintro rfl
    rw [engineNumerals_engineId, some.injEq, Prod.mk.injEq] at h
    exact ⟨h.1.symm, h.2.symm⟩
  · rintro ⟨rfl, rfl⟩
    rw [← String.toList_inj, (engineNumerals_eq_some.mp h).2.2, engineId_toList]

theorem minted_eq_engineId {epochMs : Nat} (hwhole : epochMs % 1000 = 0) (n : Nat) :
    Engine.bootPrefix epochMs ++ toString n = engineId epochMs n := by
  rw [← String.toList_inj, Engine.bootPrefix_toList hwhole, engineId_toList]

end LiquidityMigration.Venue
