import Mathlib

/- Text cut at a separator. `splitOnce_eq_some` says that the halves are the text around a separator that is not in
   the first half, so printing and cutting are inverse for a head without it. `splitLast` cuts at the last occurrence
   of a pattern whose first character does not come back behind it. `trim` drops blanks at both ends. -/
namespace Text
open List Option

variable {α : Type} [DecidableEq α]

/-- The text before the first `sep` and the text after it. -/
def splitOnce (sep : α) : List α → Option (List α × List α)
  | [] => none
  | c :: cs => if c = sep then some ([], cs) else (splitOnce sep cs).map fun p => (c :: p.1, p.2)

variable {a cs b pattern : List α}

theorem splitOnce_append {sep : α} (b : List α) (ha : sep ∉ a) : splitOnce sep (a ++ sep :: b) = some (a, b) := by
  induction a with
  | nil => simp [splitOnce]
  | cons c a ih =>
    rw [mem_cons, not_or] at ha
    rw [cons_append, splitOnce, if_neg (Ne.symm ha.1), ih ha.2]
    rfl

theorem splitOnce_eq_some {sep : α} : splitOnce sep cs = some (a, b) ↔ sep ∉ a ∧ cs = a ++ sep :: b := by
  constructor
  · intro h
    induction cs generalizing a with
    | nil => simp [splitOnce] at h
    | cons c cs ih =>
      rw [splitOnce] at h
      split at h
      · next hc =>
        obtain ⟨rfl, rfl⟩ := Prod.mk.inj (some.inj h)
        simp [hc]
      · next hc =>
        obtain ⟨⟨a', b'⟩, hcut, hab⟩ := map_eq_some_iff.mp h
        obtain ⟨rfl, rfl⟩ := Prod.mk.inj hab
        obtain ⟨hsep, rfl⟩ := ih hcut
        exact ⟨by simp [hsep, Ne.symm hc], rfl⟩
  · rintro ⟨ha, rfl⟩
    exact splitOnce_append b ha

/-- Texts around a separator that neither head contains are equal part by part. -/
theorem append_sep_inj {sep : α} {a' b' : List α} (ha : sep ∉ a) (ha' : sep ∉ a')
    (h : a ++ sep :: b = a' ++ sep :: b') : a = a' ∧ b = b' := by
  have hcut := splitOnce_append b ha
  rw [h, splitOnce_append b' ha', some.injEq, Prod.mk.injEq] at hcut
  exact ⟨hcut.1.symm, hcut.2.symm⟩

/-- The text before the last `pattern` and the text after it. -/
def splitLast (pattern : List α) : List α → Option (List α × List α)
  | [] => none
  | c :: cs =>
    match splitLast pattern cs with
    | some (a, b) => some (c :: a, b)
    | none => ((c :: cs).dropPrefix? pattern).map fun b => ([], b)

theorem eq_of_splitLast (h : splitLast pattern cs = some (a, b)) : cs = a ++ (pattern ++ b) := by
  induction cs generalizing a with
  | nil => simp [splitLast] at h
  | cons c cs ih =>
    rw [splitLast] at h
    split at h
    · next a' b' hcut =>
      obtain ⟨rfl, rfl⟩ := Prod.mk.inj (some.inj h)
      rw [ih hcut, cons_append]
    · obtain ⟨b', hdrop, hab⟩ := map_eq_some_iff.mp h
      obtain ⟨rfl, rfl⟩ := Prod.mk.inj hab
      obtain ⟨front, heq, hfront⟩ := dropPrefix?_eq_some_iff.mp hdrop
      rw [heq, eq_of_beq hfront, nil_append]

theorem splitLast_eq_none {x : α} (h : x ∉ cs) : splitLast (x :: pattern) cs = none := by
  induction cs with
  | nil => rfl
  | cons c cs ih =>
    rw [mem_cons, not_or] at h
    rw [splitLast, ih h.2]
    have hdrop : (c :: cs).dropPrefix? (x :: pattern) = none := by
      rw [dropPrefix?, if_neg (by simpa using Ne.symm h.1)]
    rw [hdrop]
    rfl

theorem splitLast_append {x : α} (a : List α) (hpattern : x ∉ pattern) (hb : x ∉ b) :
    splitLast (x :: pattern) (a ++ (x :: pattern ++ b)) = some (a, b) := by
  induction a with
  | nil =>
    have hrest : x ∉ pattern ++ b := by simp [hpattern, hb]
    have hdrop : (x :: (pattern ++ b)).dropPrefix? (x :: pattern) = some b :=
      dropPrefix?_eq_some_iff.mpr ⟨x :: pattern, rfl, beq_self_eq_true _⟩
    rw [nil_append, cons_append, splitLast, splitLast_eq_none hrest]
    simp only [hdrop, map_some]
  | cons c a ih =>
    rw [cons_append, splitLast, ih]

def trim (blank : α → Bool) (cs : List α) : List α := ((cs.dropWhile blank).reverse.dropWhile blank).reverse

omit [DecidableEq α] in
theorem trim_eq_self {blank : α → Bool} (h : ∀ c ∈ cs, blank c = false) : trim blank cs = cs := by
  have hkeep : ∀ ds : List α, (∀ c ∈ ds, blank c = false) → ds.dropWhile blank = ds := by
    intro ds hds
    cases ds with
    | nil => rfl
    | cons d ds => rw [dropWhile_cons_of_neg (by simp [hds d])]
  rw [trim, hkeep cs h, hkeep cs.reverse (by simpa using h), reverse_reverse]

def byteLength (cs : List Char) : Nat := (cs.map Char.utf8Size).sum

theorem byteLength_of_utf8Size {cs : List Char} (h : ∀ c ∈ cs, c.utf8Size = 1) : byteLength cs = cs.length := by
  rw [byteLength, map_congr_left h, map_const', sum_replicate_nat, Nat.mul_one]

theorem utf8Size_of_isDigit {c : Char} (h : c.isDigit = true) : c.utf8Size = 1 := by
  simp only [Char.isDigit, Bool.and_eq_true, decide_eq_true_eq, ge_iff_le] at h
  have hhigh : c.val.toNat ≤ 57 := UInt32.le_iff_toNat_le.mp h.2
  rw [Char.utf8Size, if_pos (UInt32.le_iff_toNat_le.mpr (Nat.le_trans hhigh (by decide)))]

theorem byteLength_digits {cs : List Char} (h : ∀ c ∈ cs, c.isDigit = true) : byteLength cs = cs.length :=
  byteLength_of_utf8Size fun c hc => utf8Size_of_isDigit (h c hc)

end Text
