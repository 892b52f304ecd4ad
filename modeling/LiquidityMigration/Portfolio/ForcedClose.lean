import LiquidityMigration.Portfolio.Allocation

/- A forced close that reduces what is owned net is served in full. The holdings on
   the net side add up to the net at least, whatever the others hold, so the loop
   never runs out of contributors (`quantity_le_sizes`). The slices it makes
   are what first-come-first-served takes from the holdings in the order of the keys,
   the consumer accepts them, and no sleeve is taken through zero by them
   (`forcedClose`). -/
namespace LiquidityMigration.Portfolio
open Numeric Checks Fifo Prod
open List hiding take getElem?_eq_some_iff map_map

/-! ## Keys -/

def noKey : String := "allocation owner has no durable strategy key"

def ambiguousKey : String := "allocation owner key is empty or ambiguous"

def insufficient : String := "forced execution has insufficient owned contributors"

section Keys
variable {names : List String} {strategy other : StrategyId} {key e : String}

theorem strategyKey_ok (h : strategyKey names strategy = .ok key) :
    names[strategy]? = some key ∧ key.isEmpty = false ∧ names.count key = 1 := by
  unfold strategyKey at h
  split at h
  · cases h
  · next k hk =>
    split at h
    · cases h
    · next hc =>
      cases h
      simp only [not_or, not_not, Bool.not_eq_true] at hc
      exact ⟨hk, hc.1, hc.2⟩

theorem strategyKey_error (h : strategyKey names strategy = .error e) : e = noKey ∨ e = ambiguousKey := by
  unfold strategyKey at h
  split at h
  · cases h
    exact .inl rfl
  · split at h
    · cases h
      exact .inr rfl
    · cases h

theorem strategyKey_inj (h : strategyKey names strategy = .ok key) (h' : strategyKey names other = .ok key) :
    strategy = other := by
  obtain ⟨hs, _, hcount⟩ := strategyKey_ok h
  obtain ⟨ho, _, _⟩ := strategyKey_ok h'
  obtain ⟨hlt, hs⟩ := List.getElem?_eq_some_iff.mp hs
  obtain ⟨hlt', ho⟩ := List.getElem?_eq_some_iff.mp ho
  by_contra hne
  have hdup : List.Duplicate key names := by
    apply duplicate_iff_exists_distinct_get.mpr
    rcases Nat.lt_or_gt_of_ne hne with hlt2 | hlt2
    · exact ⟨⟨strategy, hlt⟩, ⟨other, hlt'⟩, hlt2, hs.symm, ho.symm⟩
    · exact ⟨⟨other, hlt'⟩, ⟨strategy, hlt⟩, hlt2, ho.symm, hs.symm⟩
  have htwo := duplicate_iff_two_le_count.mp hdup
  omega

def Keyed (names : List String) (l : List (StrategyId × Exact)) : Prop :=
  ∀ h ∈ l, ∃ key, strategyKey names h.1 = .ok key

theorem named_cases (names : List String) (l : List (StrategyId × Exact)) :
    (Keyed names l ∧ ∃ cs, named names l = .ok cs ∧ cs.map (fun c => (c.1.2, c.2)) = l ∧
      ∀ c ∈ cs, strategyKey names c.1.2 = .ok c.1.1) ∨
    (¬ Keyed names l ∧ ∃ e, named names l = .error e ∧ (e = noKey ∨ e = ambiguousKey)) := by
  induction l with
  | nil => exact .inl ⟨nofun, [], rfl, rfl, nofun⟩
  | cons h l ih =>
    obtain ⟨strategy, held⟩ := h
    cases hkey : strategyKey names strategy with
    | error e =>
      refine .inr ⟨fun hk => ?_, e, by simp [named, hkey], strategyKey_error hkey⟩
      obtain ⟨key, hok⟩ := hk (strategy, held) (by simp)
      rw [hkey] at hok
      cases hok
    | ok key =>
      obtain ⟨hk, cs, hcs, hmap, hall⟩ | ⟨hk, e, he, htext⟩ := ih
      · exact .inl ⟨forall_mem_cons.mpr ⟨⟨key, hkey⟩, hk⟩, ((key, strategy), held) :: cs,
          by simp [named, hkey, hcs, Except.map], by simp [hmap], forall_mem_cons.mpr ⟨hkey, hall⟩⟩
      · refine .inr ⟨fun hc => hk (fun h hmem => hc h (by simp [hmem])), e, by simp [named, hkey, he, Except.map],
          htext⟩

end Keys

/-! ## Slices -/

def shareOf (fee : Option AssetAmount) (qty quantity : Exact) : Option AssetAmount :=
  fee.map fun fee => ⟨fee.asset, .ofDerived (fee.amount.value * qty / quantity)⟩

def ShareStored (fee : Option AssetAmount) (qty quantity : Exact) : Prop :=
  ∀ f, fee = some f → Stored (f.amount.value * qty / quantity)

theorem stores_cases (x : Exact) : (Stored x ∧ stores x = .ok ()) ∨
    (¬ Stored x ∧ stores x = .error ExactError.inputTooLarge.toString) := by
  by_cases h : Stored x
  · exact .inl ⟨h, stores_ok.mpr h⟩
  · refine .inr ⟨h, ?_⟩
    cases hs : stores x with
    | ok u => exact absurd (stores_ok.mp hs) h
    | error e =>
      unfold stores validateStorage at hs
      split at hs
      · cases hs
      · split at hs
        · cases hs
          rfl
        · cases hs

section Slices
variable {quantity : Exact}

theorem shareFee_cases (hq : quantity ≠ 0) (fee : Option AssetAmount) (qty : Exact) :
    (ShareStored fee qty quantity ∧ shareFee fee qty quantity = .ok (shareOf fee qty quantity)) ∨
    (¬ ShareStored fee qty quantity ∧ shareFee fee qty quantity = .error ExactError.inputTooLarge.toString) := by
  cases fee with
  | none => exact .inl ⟨nofun, rfl⟩
  | some f =>
    have hshare : ShareStored (some f) qty quantity ↔ Stored (f.amount.value * qty / quantity) :=
      ⟨fun h => h f rfl, fun h f' hf' => by cases hf'; exact h⟩
    rw [hshare]
    unfold shareFee
    simp only [checkedDiv, hq, if_false]
    obtain ⟨hs, heq⟩ | ⟨hs, heq⟩ := stores_cases (f.amount.value * qty / quantity)
    · exact .inl ⟨hs, by rw [heq]; rfl⟩
    · exact .inr ⟨hs, by rw [heq]; rfl⟩

def sizes (cs : List Contributor) : List ((String × StrategyId) × Exact) := cs.map fun c => (c.1, |c.2|)

def sliceOf (quantity : Exact) (fee : Option AssetAmount) (t : (String × StrategyId) × Exact) : ExecutionSlice :=
  ⟨t.1.2, t.1.1, t.2, shareOf fee t.2 quantity⟩

theorem slicesOf_cases (hq : quantity ≠ 0) (fee : Option AssetAmount) (cs : List Contributor) (r : Exact) :
    ((∀ t ∈ Fifo.take (sizes cs) r, ShareStored fee t.2 quantity) ∧ slicesOf quantity fee cs r =
        .ok ((Fifo.take (sizes cs) r).map (sliceOf quantity fee), Fifo.left (sizes cs) r)) ∨
    (¬ (∀ t ∈ Fifo.take (sizes cs) r, ShareStored fee t.2 quantity) ∧
      slicesOf quantity fee cs r = .error ExactError.inputTooLarge.toString) := by
  induction cs generalizing r with
  | nil => exact .inl ⟨fun _ h => absurd h not_mem_nil, rfl⟩
  | cons c cs ih =>
    obtain ⟨⟨key, strategy⟩, held⟩ := c
    simp only [sizes, map_cons, take, left, slicesOf]
    by_cases h0 : r = 0
    · simp only [h0, if_true]
      exact .inl ⟨fun _ h => absurd h not_mem_nil, rfl⟩
    · simp only [h0, if_false]
      obtain ⟨hs, heq⟩ | ⟨hs, heq⟩ := shareFee_cases hq fee (min r |held|)
      · rw [heq]
        obtain ⟨hall, hrest⟩ | ⟨hall, hrest⟩ := ih (r - min r |held|)
        · exact .inl ⟨forall_mem_cons.mpr ⟨hs, hall⟩, by dsimp only; rw [hrest]; rfl⟩
        · refine .inr ⟨fun h => hall (fun t ht => h t (mem_cons_of_mem _ ht)), by dsimp only; rw [hrest]; rfl⟩
      · rw [heq]
        exact .inr ⟨fun h => hs (h _ mem_cons_self), rfl⟩

end Slices

/-! ## Enough contributors -/

theorem sum_le_side (l : List (StrategyId × Exact)) (f : Exact → Exact) (side : Exact → Bool)
    (hle : ∀ x, f x ≤ if side x then |x| else 0) :
    (l.map (fun x => f x.2)).sum ≤ ((l.filter (fun x => side x.2)).map (fun x => |x.2|)).sum := by
  induction l with
  | nil => exact le_refl _
  | cons x l ih =>
    have hx := hle x.2
    rw [map_cons, sum_cons, filter_cons]
    split at hx
    · next hside =>
      rw [if_pos hside, map_cons, sum_cons]
      exact add_le_add hx ih
    · next hside =>
      rw [if_neg hside]
      linarith

theorem abs_sum_le_side (l : List (StrategyId × Exact)) (side : Bool) (h : side = decide (0 < (l.map Prod.snd).sum)) :
    |(l.map Prod.snd).sum| ≤ ((l.filter (fun x => decide (0 < x.2) = side)).map (fun x => |x.2|)).sum := by
  subst h
  by_cases hpos : 0 < (l.map snd).sum
  · simp only [hpos, decide_true, abs_of_pos]
    refine sum_le_side l (fun x => x) (fun x => decide (0 < x) = true) fun x => ?_
    by_cases hx : 0 < x <;> simp [hx, le_abs_self, not_lt.mp]
  · simp only [hpos, decide_false, abs_of_nonpos (not_lt.mp hpos), sum_neg, List.map_map]
    refine sum_le_side l (fun x => -x) (fun x => decide (0 < x) = false) fun x => ?_
    by_cases hx : 0 < x
    · simp [hx, hx.le]
    · simp [hx, neg_le_abs]

section Contributors
variable {inv : Inventory} {input : AllocationInput} {names : List String} {cs : List Contributor}

variable (inv input) in
theorem ownedNet_eq_sum :
    ownedNet inv input = ((holdings inv input).map Prod.snd).sum := by
  rw [ownedNet, sum_eq_foldl, foldl_map]

variable (inv input) in
theorem holdings_nodup : ((holdings inv input).map Prod.fst).Nodup := by
  rw [holdings, List.map_map]
  exact inv.strategies_nodup input.symbol

theorem mem_onNetSide {h : StrategyId × Exact} (hm : h ∈ onNetSide inv input) :
    h ∈ holdings inv input ∧ decide (0 < h.2) = decide (0 < ownedNet inv input) := by
  obtain ⟨hmem, hside⟩ := mem_filter.mp hm
  exact ⟨hmem, by simpa using hside⟩

def inKeyOrder (cs : List Contributor) : List Contributor := cs.insertionSort fun a b => a.1.1 ≤ b.1.1

theorem inKeyOrder_perm (cs : List Contributor) : (inKeyOrder cs).Perm cs := perm_insertionSort _ _

theorem quantity_le_sizes (hred : Reducing inv input) (hcs : cs.map (fun c => (c.1.2, c.2)) = onNetSide inv input) :
    input.quantity ≤ ((sizes (inKeyOrder cs)).map Prod.snd).sum := by
  have hnet : input.quantity ≤ |ownedNet inv input| := by
    simp only [Reducing, not_or, not_lt] at hred
    exact hred.2.2
  have hside := abs_sum_le_side (holdings inv input) _ rfl
  rw [← ownedNet_eq_sum] at hside
  have hsizes : (sizes (inKeyOrder cs)).map snd =
      ((inKeyOrder cs).map (fun c => (c.1.2, c.2))).map (fun x => |x.2|) := by
    simp [sizes, List.map_map, Function.comp_def]
  rw [hsizes, (((inKeyOrder_perm cs).map _).map _).sum_eq, hcs]
  exact hnet.trans hside

theorem sizes_nonneg (cs : List Contributor) : ∀ c ∈ sizes cs, 0 ≤ c.2 := by
  intro c hc
  obtain ⟨c, _, rfl⟩ := mem_map.mp hc
  exact abs_nonneg _

end Contributors

/-! ## What `allocate` returns -/

variable (inv : Inventory) (input : AllocationInput)

/-- What first come first served takes from the sleeves on the net side, in the order of their keys. -/
def plan (names : List String) (input : AllocationInput) : List ((String × StrategyId) × Exact) :=
  match named names (onNetSide inv input) with
  | .ok cs => Fifo.take (sizes (inKeyOrder cs)) input.quantity
  | .error _ => []

def SharesStored (names : List String) (input : AllocationInput) : Prop :=
  ∀ t ∈ plan inv names input, ShareStored input.fee t.2 input.quantity

section Allocate
variable {inv : Inventory} {input : AllocationInput} {names : List String}

theorem allocateForced_cases (names : List String) (hq : 0 < input.quantity) (hred : Reducing inv input) :
    ((Keyed names (onNetSide inv input) ∧ SharesStored inv names input) ∧ allocateForced inv names input =
        .ok ⟨.emergencyNetFifo, none, (plan inv names input).map (sliceOf input.quantity input.fee)⟩) ∨
    (¬ (Keyed names (onNetSide inv input) ∧ SharesStored inv names input) ∧
      ∃ e, allocateForced inv names input = .error e ∧
        (e = noKey ∨ e = ambiguousKey ∨ e = ExactError.inputTooLarge.toString)) := by
  unfold allocateForced SharesStored plan
  simp only [hred, not_true_eq_false, if_false]
  obtain ⟨hkeyed, cs, hcs, hmap, _⟩ | ⟨hkeyed, e, he, htext⟩ := named_cases names (onNetSide inv input)
  · simp only [hcs]
    have hleft : left (sizes (inKeyOrder cs)) input.quantity = 0 :=
      left_eq_zero (sizes_nonneg _) hq.le (quantity_le_sizes hred hmap)
    obtain ⟨hall, hslices⟩ | ⟨hall, hslices⟩ :=
      slicesOf_cases hq.ne' input.fee (inKeyOrder cs) input.quantity
    · refine .inl ⟨⟨hkeyed, hall⟩, ?_⟩
      rw [inKeyOrder] at hslices
      rw [hslices]
      rw [inKeyOrder] at hleft
      simp [hleft]
      rfl
    · refine .inr ⟨fun h => hall h.2, _, ?_, .inr (.inr rfl)⟩
      rw [inKeyOrder] at hslices
      rw [hslices]
  · simp only [he]
    exact .inr ⟨fun h => hkeyed h.1, e, rfl, htext.imp_right .inl⟩

/-- An execution that gets as far as the net-reduction test. -/
structure Forced (input : AllocationInput) : Prop where
  forced : input.forcedClose = true
  quantity : 0 < input.quantity
  stored : Stored input.quantity
  fee : ∀ f, input.fee = some f → f.amount.validateProvenance = .ok ()

theorem allocate_eq (names : List String) (h : Forced input) :
    allocate inv none names input = allocateForced inv names input := by
  have hchecks : firstError (stores input.quantity ::
      input.fee.toList.map (fun fee => fee.amount.validateProvenance.mapError ExactError.toString)) = .ok () := by
    rw [firstError_cons, stores_ok]
    refine ⟨h.stored, ?_⟩
    cases hf : input.fee with
    | none => rfl
    | some f => simp [h.fee f hf]
  unfold allocate
  simp only [h.quantity, not_true_eq_false, if_false, hchecks, h.forced]

theorem toString_ne_insufficient (e : ExactError) : e.toString ≠ insufficient := by
  cases e <;> decide

/-- The loop never runs out of contributors, whoever owns the order and whatever is asked for. -/
theorem allocate_ne_insufficient (owner : Option StrategyId) (names : List String) (input : AllocationInput) :
    allocate inv owner names input ≠ .error insufficient := by
  intro h
  unfold allocate at h
  split at h
  · exact absurd (Except.error.inj h) (by decide)
  · next hq =>
    split at h
    · next e hcheck =>
      -- the storage and provenance checks only pass on what the exact numbers say
      obtain ⟨c, hc, hce⟩ := mem_of_firstError hcheck
      have htext : ∃ err : ExactError, e = err.toString := by
        rcases mem_cons.mp hc with rfl | hc
        · exact mapError_eq_error hce
        · obtain ⟨fee, _, rfl⟩ := mem_map.mp hc
          exact mapError_eq_error hce
      obtain ⟨err, rfl⟩ := htext
      exact toString_ne_insufficient err (Except.error.inj h)
    · split at h
      · next strategy =>
        cases hkey : strategyKey names strategy with
        | ok key => rw [hkey] at h; cases h
        | error e =>
          rw [hkey] at h
          cases h
          obtain h | h := strategyKey_error hkey <;> exact absurd h (by decide)
      · split at h
        · exact absurd (Except.error.inj h) (by decide)
        · by_cases hred : Reducing inv input
          · obtain ⟨_, hok⟩ | ⟨_, e, he, htext⟩ := allocateForced_cases names (not_not.mp hq) hred
            · rw [hok] at h
              cases h
            · rw [he] at h
              cases h
              obtain h | h | h := htext <;> exact absurd h (by decide)
          · rw [allocateForced, if_pos hred] at h
            exact absurd (Except.error.inj h) (by decide)

/-! ## The slices -/

/-- The fees of the slices: none without a fee, and in its asset, adding up to it, with one. -/
def FeesAddUp (fee : Option AssetAmount) (slices : List ExecutionSlice) : Prop :=
  match fee with
  | none => ∀ s ∈ slices, s.fee = none
  | some fee => ∃ shares : List Exact, slices.map ExecutionSlice.fee =
      shares.map (fun x => some ⟨fee.asset, .ofDerived x⟩) ∧ shares.sum = fee.amount.value

structure ForcedSlices (inv : Inventory) (names : List String) (input : AllocationInput)
    (slices : List ExecutionSlice) : Prop where
  positive : ∀ s ∈ slices, 0 < s.quantity
  holding : ∀ s ∈ slices, ∃ held, (s.strategy, held) ∈ holdings inv input ∧ 0 < held * ownedNet inv input ∧
    s.quantity ≤ |held|
  keyed : ∀ s ∈ slices, strategyKey names s.strategy = .ok s.strategyKey
  ordered : (slices.map ExecutionSlice.strategyKey).Pairwise (· < ·)
  exhausted : ∀ s ∈ slices.dropLast, ∃ held, (s.strategy, held) ∈ holdings inv input ∧ s.quantity = |held|
  quantity : (slices.map ExecutionSlice.quantity).sum = input.quantity
  fee : FeesAddUp input.fee slices

theorem inKeyOrder_lt {cs : List Contributor} (hmap : cs.map (fun c => (c.1.2, c.2)) = onNetSide inv input)
    (hkeys : ∀ c ∈ cs, strategyKey names c.1.2 = .ok c.1.1) :
    ((inKeyOrder cs).map (fun c => c.1.1)).Pairwise (· < ·) := by
  have hstrategies : (cs.map (fun c => c.1.2)).Nodup := by
    have hsub : ((onNetSide inv input).map fst).Sublist ((holdings inv input).map fst) :=
      filter_sublist.map fst
    have hnodup := (holdings_nodup inv input).sublist hsub
    rw [← hmap, List.map_map] at hnodup
    exact hnodup
  have hinj := inj_on_of_nodup_map hstrategies
  have hnodup : (cs.map (fun c => c.1.1)).Nodup := by
    rw [nodup_map_iff_inj_on (List.Nodup.of_map _ hstrategies)]
    intro a ha b hb hab
    have hkb := hkeys b hb
    rw [← hab] at hkb
    exact hinj ha hb (strategyKey_inj (hkeys a ha) hkb)
  have : Std.Total (fun a b : Contributor => a.1.1 ≤ b.1.1) := ⟨fun a b => le_total a.1.1 b.1.1⟩
  have : IsTrans Contributor (fun a b => a.1.1 ≤ b.1.1) := ⟨fun a b c => le_trans⟩
  have hle : (inKeyOrder cs).Pairwise (fun a b => a.1.1 ≤ b.1.1) := pairwise_insertionSort _ cs
  have hnodup' : ((inKeyOrder cs).map (fun c => c.1.1)).Nodup := ((inKeyOrder_perm cs).map _).nodup_iff.mpr hnodup
  have hle' : ((inKeyOrder cs).map (fun c => c.1.1)).Pairwise (· ≤ ·) := pairwise_map.mpr hle
  exact (hle'.and hnodup').imp fun h => lt_of_le_of_ne h.1 h.2

theorem onNetSide_mul_pos {h : StrategyId × Exact} (hred : Reducing inv input) (hm : h ∈ onNetSide inv input)
    (h0 : h.2 ≠ 0) : 0 < h.2 * ownedNet inv input := by
  have hside := (mem_onNetSide hm).2
  have hnet : ownedNet inv input ≠ 0 := by
    simp only [Reducing, not_or] at hred
    exact hred.1
  by_cases hpos : 0 < ownedNet inv input
  · simp only [hpos, decide_true, decide_eq_true_eq] at hside
    exact mul_pos hside hpos
  · simp only [hpos, decide_false, decide_eq_false_iff_not, not_lt] at hside
    exact mul_pos_of_neg_of_neg (lt_of_le_of_ne hside h0) (lt_of_le_of_ne (not_lt.mp hpos) hnet)

theorem feesAddUp_plan {p : List ((String × StrategyId) × Exact)} (hq : input.quantity ≠ 0)
    (hsum : (p.map Prod.snd).sum = input.quantity) :
    FeesAddUp input.fee (p.map (sliceOf input.quantity input.fee)) := by
  unfold FeesAddUp
  cases hf : input.fee with
  | none =>
    intro s hs
    obtain ⟨t, _, rfl⟩ := mem_map.mp hs
    rfl
  | some fee =>
    refine ⟨p.map (fun t => fee.amount.value * t.2 / input.quantity), ?_, ?_⟩
    · rw [List.map_map, List.map_map]
      rfl
    · simp only [mul_div_right_comm]
      rw [sum_map_mul_left, hsum]
      exact div_mul_cancel₀ _ hq

theorem forcedSlices_plan (hq : 0 < input.quantity) (hred : Reducing inv input)
    (hkeyed : Keyed names (onNetSide inv input)) (hheld : ∀ h ∈ onNetSide inv input, h.2 ≠ 0) :
    ForcedSlices inv names input ((plan inv names input).map (sliceOf input.quantity input.fee)) := by
  obtain ⟨_, cs, hcs, hmap, hkeys⟩ | ⟨hno, _⟩ := named_cases names (onNetSide inv input)
  · have hplan : plan inv names input = take (sizes (inKeyOrder cs)) input.quantity := by
      unfold plan
      rw [hcs]
    have hmem : ∀ c ∈ sizes (inKeyOrder cs), ∃ held, (c.1.2, held) ∈ onNetSide inv input ∧ c.2 = |held| ∧
        strategyKey names c.1.2 = .ok c.1.1 := by
      intro c hc
      obtain ⟨c, hmem, rfl⟩ := mem_map.mp hc
      have hc' := (inKeyOrder_perm cs).mem_iff.mp hmem
      refine ⟨c.2, ?_, rfl, hkeys c hc'⟩
      rw [← hmap]
      exact mem_map.mpr ⟨c, hc', rfl⟩
    have hpos : ∀ c ∈ sizes (inKeyOrder cs), 0 < c.2 := by
      intro c hc
      obtain ⟨held, hside, heq, _⟩ := hmem c hc
      rw [heq]
      exact abs_pos.mpr (hheld _ hside)
    have hsum : ((plan inv names input).map snd).sum = input.quantity := by
      have h := sum_take (sizes (inKeyOrder cs)) input.quantity
      rw [left_eq_zero (sizes_nonneg _) hq.le (quantity_le_sizes hred hmap), add_zero] at h
      rw [hplan]
      exact h
    refine ⟨?_, ?_, ?_, ?_, ?_, ?_, feesAddUp_plan hq.ne' hsum⟩
    · intro s hs
      obtain ⟨t, ht, rfl⟩ := mem_map.mp hs
      rw [hplan] at ht
      exact take_pos hpos hq.le t ht
    · intro s hs
      obtain ⟨t, ht, rfl⟩ := mem_map.mp hs
      rw [hplan] at ht
      obtain ⟨c, hc, hname, hle⟩ := take_le t ht
      obtain ⟨held, hside, heq, _⟩ := hmem c hc
      rw [hname] at hside
      rw [heq] at hle
      exact ⟨held, (mem_onNetSide hside).1, onNetSide_mul_pos hred hside (hheld _ hside), hle⟩
    · intro s hs
      obtain ⟨t, ht, rfl⟩ := mem_map.mp hs
      rw [hplan] at ht
      obtain ⟨c, hc, hname, _⟩ := take_le t ht
      obtain ⟨_, _, _, hkey⟩ := hmem c hc
      rw [hname] at hkey
      exact hkey
    · have hnames := take_names (sizes (inKeyOrder cs)) input.quantity
      have hkeysPrefix := (hnames.map fst).sublist
      have hlt := inKeyOrder_lt hmap hkeys
      have hsizes : ((sizes (inKeyOrder cs)).map fst).map fst = (inKeyOrder cs).map (fun c => c.1.1) := by
        simp [sizes, List.map_map, Function.comp_def]
      rw [hsizes] at hkeysPrefix
      have hslices : ((plan inv names input).map (sliceOf input.quantity input.fee)).map ExecutionSlice.strategyKey =
          ((take (sizes (inKeyOrder cs)) input.quantity).map fst).map fst := by
        rw [hplan, List.map_map, List.map_map]
        rfl
      rw [hslices]
      exact hlt.sublist hkeysPrefix
    · intro s hs
      rw [← map_dropLast] at hs
      obtain ⟨t, ht, rfl⟩ := mem_map.mp hs
      rw [hplan] at ht
      obtain ⟨held, hside, heq, _⟩ := hmem t (take_dropLast (sizes_nonneg _) hq.le t ht)
      exact ⟨held, (mem_onNetSide hside).1, heq⟩
    · rw [List.map_map]
      exact hsum
  · exact absurd hkeyed hno

end Allocate

/-! ## The consumer accepts the slices -/

def SliceProjects (f64 : Exact → Option ℚ) (update : FillUpdate) (s : ExecutionSlice) : Prop :=
  Representable f64 s.quantity ∧
    (update.fee.isSome → ∀ fee, s.fee = some fee → Representable f64 fee.amount.value)

section Consumer
variable {f64 : Exact → Option ℚ} {update : FillUpdate} {slices : List ExecutionSlice} {s : ExecutionSlice}

theorem slicePart_ok (h : SliceProjects f64 update s) : ∃ part, slicePart f64 update s = .ok part := by
  obtain ⟨⟨q, hq⟩, hfee⟩ := h
  unfold slicePart
  rw [hq]
  dsimp only
  cases hu : update.fee with
  | none => exact ⟨_, rfl⟩
  | some x =>
    cases hs : s.fee with
    | none => exact ⟨_, rfl⟩
    | some fee =>
      obtain ⟨v, hv⟩ := hfee (by simp [hu]) fee hs
      dsimp only
      rw [hv]
      exact ⟨_, rfl⟩

theorem sliceParts_ok {expected : Option AssetAmount} (owners : List StrategyId) (keys : List String)
    {fees : List Exact} (hpos : ∀ s ∈ slices, 0 < s.quantity)
    (howners : (slices.map ExecutionSlice.strategy ++ owners).Nodup)
    (hkeys : (slices.map ExecutionSlice.strategyKey ++ keys).Nodup)
    (hempty : ∀ s ∈ slices, s.strategyKey.isEmpty = false)
    (hfees : List.Forall₂ (fun s x => sliceFee expected s.fee = .ok x) slices fees)
    (hproj : ∀ s ∈ slices, SliceProjects f64 update s) :
    ∃ parts, sliceParts f64 update expected slices owners keys =
        .ok (parts, (slices.map ExecutionSlice.quantity).sum, fees.sum) ∧
      parts.map Prod.fst = slices.map ExecutionSlice.strategy := by
  induction slices generalizing owners keys fees with
  | nil =>
    cases hfees
    exact ⟨[], rfl, rfl⟩
  | cons s slices ih =>
    obtain ⟨x, fees, hx, hrest, rfl⟩ := forall₂_cons_left_iff.mp hfees
    rw [forall_mem_cons] at hpos hempty hproj
    obtain ⟨parts, hparts, hnames⟩ := ih _ _ hpos.2 (perm_middle.nodup_iff.mpr howners)
      (perm_middle.nodup_iff.mpr hkeys) hempty.2 hrest hproj.2
    have hnew : ¬ (¬ 0 < s.quantity ∨ s.strategy ∈ owners) :=
      not_or.mpr ⟨not_not.mpr hpos.1, fun h => (nodup_cons.mp howners).1 (mem_append_right _ h)⟩
    have hkey : ¬ (s.strategyKey.isEmpty ∨ s.strategyKey ∈ keys) :=
      not_or.mpr ⟨by simp [hempty.1], fun h => (nodup_cons.mp hkeys).1 (mem_append_right _ h)⟩
    obtain ⟨part, hpart⟩ := slicePart_ok hproj.1
    refine ⟨(s.strategy, part) :: parts, ?_, by simp [hnames]⟩
    unfold sliceParts
    simp only [hnew, hkey, if_false, hx, hpart, hparts]
    rfl

variable {inv : Inventory} {names : List String} {input : AllocationInput}

section
variable (h : ForcedSlices inv names input slices)
include h

theorem ForcedSlices.strategies_nodup : (slices.map ExecutionSlice.strategy).Nodup := by
  have hkeys : (slices.map ExecutionSlice.strategyKey).Nodup := h.ordered.imp fun hab => ne_of_lt hab
  rw [nodup_map_iff_inj_on (List.Nodup.of_map _ hkeys)]
  intro a ha b hb hab
  have hka := h.keyed a ha
  have hkb := h.keyed b hb
  rw [hab, hkb] at hka
  exact inj_on_of_nodup_map hkeys ha hb (Except.ok.inj hka).symm

theorem ForcedSlices.fees : ∃ fees, List.Forall₂ (fun s x => sliceFee input.fee s.fee = .ok x) slices fees ∧
      ∀ fee, input.fee = some fee → fees.sum = fee.amount.value := by
  have hfee := h.fee
  unfold FeesAddUp at hfee
  cases hf : input.fee with
  | none =>
    rw [hf] at hfee
    refine ⟨slices.map (fun _ => 0), ?_, fun fee hfee => (by cases hfee)⟩
    apply forall₂_map_right_iff.mpr
    apply forall₂_same.mpr
    intro s hs
    rw [hfee s hs]
    rfl
  | some fee =>
    rw [hf] at hfee
    obtain ⟨shares, hshares, hsum⟩ := hfee
    refine ⟨shares, ?_, fun f hf' => (by cases hf'; exact hsum)⟩
    have h2 : List.Forall₂ (· = ·) (slices.map ExecutionSlice.fee)
        (shares.map (fun x => some ⟨fee.asset, .ofDerived x⟩)) := forall₂_eq_eq_eq ▸ hshares
    rw [forall₂_map_left_iff, forall₂_map_right_iff] at h2
    refine h2.imp fun s x hsx => ?_
    rw [hsx, sliceFee, if_pos rfl]
    rfl

theorem ForcedSlices.accepted {allocation : ExecutionAllocation}
    (hslices : allocation.slices = slices) (hup : update.allocation = some allocation)
    (hqty : fillQuantity f64 update.qty update.amounts (some allocation) = .ok input.quantity)
    (hfee : expectedFee update = .ok input.fee) (hproj : ∀ s ∈ slices, SliceProjects f64 update s) :
    ∃ parts, sliceUpdates f64 update = .ok (some parts) ∧ parts.map Prod.fst = slices.map ExecutionSlice.strategy := by
  obtain ⟨fees, hfees, hsum⟩ := h.fees
  have hkeys : (slices.map ExecutionSlice.strategyKey).Nodup := h.ordered.imp fun hab => ne_of_lt hab
  obtain ⟨parts, hparts, hnames⟩ := sliceParts_ok [] [] h.positive
    (by simpa using h.strategies_nodup) (by simpa using hkeys) (fun s hs => (strategyKey_ok (h.keyed s hs)).2.1)
    hfees hproj
  refine ⟨parts, ?_, hnames⟩
  have hconserved : ¬ input.fee.any (fun fee => fee.amount.value ≠ fees.sum) = true := by
    cases hf : input.fee with
    | none => simp
    | some fee => simp [hsum fee hf]
  unfold sliceUpdates
  simp only [hup, hqty, hfee, hslices, hparts, h.quantity, ne_eq, not_true_eq_false, if_false]
  simp only [ne_eq] at hconserved
  rw [if_neg hconserved]

end

end Consumer

/-! ## Applying the slices -/

def sliceFill (px : Exact) (asset : AssetId) (s : ExecutionSlice) : InventoryFill :=
  { strategy := s.strategy
    symbol := input.symbol
    side := input.side
    qty := s.quantity
    px := some px
    stop := none
    settlementAsset := asset }

/-- The grid gives no sleeve more than its row holds, nor the other side. -/
def Backed : Prop :=
  ∀ row ∈ inv.positionsOnSymbol input.symbol, ∀ held, input.owned.bind (fun grid => grid row.strategy) = some held →
    |held| ≤ |row.signedQty| ∧ 0 ≤ held * row.signedQty

/-- What a forced close leaves: nothing new, no sleeve taken through zero, and every
sleeve beside the net side as it was. -/
structure TakenFrom (next : Inventory) : Prop where
  fresh : ∀ key, inv.position key = none → next.position key = none
  reduced : ∀ key row, inv.position key = some row →
    0 ≤ row.signedQty * quantityOf (next.position key) ∧ |quantityOf (next.position key)| ≤ |row.signedQty|
  untouched : ∀ key row, inv.position key = some row →
    row.symbol ≠ input.symbol ∨ ¬ 0 < row.signedQty * ownedNet inv input → next.position key = some row

section Apply
variable {f64 : Exact → Option ℚ} {inv : Inventory} {names : List String} {input : AllocationInput}
  {slices : List ExecutionSlice} {s : ExecutionSlice}

theorem ForcedSlices.row (h : ForcedSlices inv names input slices) (hback : Backed inv input)
    (hs : s ∈ slices) : ∃ row, inv.position (s.strategy, input.symbol) = some row ∧
      0 < row.signedQty * ownedNet inv input ∧ s.quantity ≤ |row.signedQty| := by
  obtain ⟨held, hmem, hside, hle⟩ := h.holding s hs
  obtain ⟨row, hrow, heq⟩ := mem_map.mp hmem
  obtain ⟨hname, hheld⟩ := mk.inj heq
  obtain ⟨hrows, hsymbol⟩ := mem_filter.mp hrow
  have hposition := Inventory.position_of_mem_rows hrows
  have hkey : row.key = (s.strategy, input.symbol) := by
    rw [PortfolioPosition.key, hname]
    simpa using hsymbol
  rw [hkey] at hposition
  refine ⟨row, hposition, ?_⟩
  cases hgrid : input.owned.bind (fun grid => grid row.strategy) with
  | none =>
    rw [hgrid, Option.getD_none] at hheld
    rw [hheld]
    exact ⟨hside, hle⟩
  | some g =>
    rw [hgrid, Option.getD_some] at hheld
    subst hheld
    obtain ⟨habs, hsign⟩ := hback row hrow g hgrid
    refine ⟨?_, hle.trans habs⟩
    have hg0 : g ≠ 0 := left_ne_zero_of_mul hside.ne'
    have hr0 : row.signedQty ≠ 0 := abs_pos.mp ((abs_pos.mpr hg0).trans_le habs)
    have hgr : 0 < g * row.signedQty := lt_of_le_of_ne hsign (mul_ne_zero hg0 hr0).symm
    nlinarith [mul_pos hside hgr, sq_nonneg g, mul_self_pos.mpr hg0]

theorem reduce_bounds {q d net : Exact} (hside : 0 < q * net) (hd : d * net ≤ 0) (hle : |d| ≤ |q|) :
    0 ≤ q * (q + d) ∧ |q + d| ≤ |q| := by
  rcases lt_or_gt_of_ne (left_ne_zero_of_mul hside.ne') with hq | hq
  · have hd0 : 0 ≤ d := nonneg_of_mul_nonpos_left hd (neg_of_mul_pos_right hside hq.le)
    rw [abs_of_nonneg hd0, abs_of_neg hq] at hle
    have hsum : q + d ≤ 0 := by linarith
    rw [abs_of_nonpos hsum, abs_of_neg hq]
    exact ⟨mul_nonneg_of_nonpos_of_nonpos hq.le hsum, by linarith⟩
  · have hd0 : d ≤ 0 := nonpos_of_mul_nonpos_left hd (pos_of_mul_pos_right hside hq.le)
    rw [abs_of_nonpos hd0, abs_of_pos hq] at hle
    have hsum : 0 ≤ q + d := by linarith
    rw [abs_of_nonneg hsum, abs_of_pos hq]
    exact ⟨mul_nonneg hq.le hsum, by linarith⟩

theorem delta_mul_net (hred : Reducing inv input) (px : Exact) (asset : AssetId)
    (hs : 0 < s.quantity) : (sliceFill input px asset s).delta * ownedNet inv input ≤ 0 := by
  simp only [Reducing, not_or] at hred
  obtain ⟨hnet, hside, _⟩ := hred
  simp only [InventoryFill.delta, sliceFill]
  cases hi : input.side with
  | buy =>
    have hneg : ¬ 0 < ownedNet inv input := by
      intro hpos
      exact hside (by simp [hpos, hi])
    exact mul_nonpos_of_nonneg_of_nonpos hs.le (not_lt.mp hneg)
  | sell =>
    have hpos : 0 < ownedNet inv input := by
      by_contra hneg
      exact hside (by simp [hneg, hi])
    exact mul_nonpos_of_nonpos_of_nonneg (neg_nonpos.mpr hs.le) hpos.le

theorem ForcedSlices.applied (h : ForcedSlices inv names input slices) (hred : Reducing inv input)
    (hback : Backed inv input) {px : Exact} {asset : AssetId} {change : Inventory.BatchChange}
    (hbatch : inv.prepareBatch f64 (slices.map (sliceFill input px asset)) = .ok change) :
    TakenFrom inv input change.next := by
  set fills := slices.map (sliceFill input px asset)
  obtain ⟨⟨realized, next⟩, hall, rfl⟩ := map_eq_ok.mp hbatch
  have hkeysEq : fills.map InventoryFill.key =
      (slices.map ExecutionSlice.strategy).map (fun s => (s, input.symbol)) := by
    rw [List.map_map, List.map_map]
    rfl
  have hkeys : (fills.map InventoryFill.key).Nodup := by
    rw [hkeysEq]
    exact h.strategies_nodup.map fun a b hab => (mk.inj hab).1
  obtain ⟨hsame, hadd⟩ := Inventory.fillAll_positions hall hkeys
  have hslice : ∀ key, key ∈ fills.map InventoryFill.key →
      ∃ row, inv.position key = some row ∧ row.symbol = input.symbol ∧ 0 < row.signedQty * ownedNet inv input ∧
        0 ≤ row.signedQty * quantityOf (next.position key) ∧ |quantityOf (next.position key)| ≤ |row.signedQty| := by
    intro key hkey
    rw [hkeysEq] at hkey
    obtain ⟨strategy, hmem, rfl⟩ := mem_map.mp hkey
    obtain ⟨s, hs, rfl⟩ := mem_map.mp hmem
    obtain ⟨row, hrow, hside, hle⟩ := h.row hback hs
    have hquantity := hadd (sliceFill input px asset s) (mem_map_of_mem hs)
    change quantityOf (next.position (s.strategy, input.symbol)) =
      quantityOf (inv.position (s.strategy, input.symbol)) +
      (sliceFill input px asset s).delta at hquantity
    rw [hrow] at hquantity
    have habs : |(sliceFill input px asset s).delta| ≤ |row.signedQty| := by
      have hd : |(sliceFill input px asset s).delta| = s.quantity := abs_delta (h.positive s hs)
      rw [hd]
      exact hle
    have hb := reduce_bounds hside (delta_mul_net hred px asset (h.positive s hs)) habs
    have hkey' := (inv.rows_ok _ row hrow).1
    refine ⟨row, hrow, congrArg snd hkey', hside, ?_⟩
    rw [hquantity]
    exact hb
  constructor
  · intro key hnone
    by_cases hmem : key ∈ fills.map InventoryFill.key
    · obtain ⟨row, hrow, _⟩ := hslice key hmem
      rw [hnone] at hrow
      cases hrow
    · exact (hsame key hmem).trans hnone
  · intro key row hrow
    by_cases hmem : key ∈ fills.map InventoryFill.key
    · obtain ⟨row', hrow', _, _, hb⟩ := hslice key hmem
      rw [hrow] at hrow'
      cases hrow'
      exact hb
    · dsimp only
      rw [hsame key hmem, hrow]
      exact ⟨mul_self_nonneg _, le_refl _⟩
  · intro key row hrow hout
    have hmem : key ∉ fills.map InventoryFill.key := by
      intro hmem
      obtain ⟨row', hrow', hsymbol, hside, _⟩ := hslice key hmem
      rw [hrow] at hrow'
      cases hrow'
      obtain h1 | h1 := hout
      · exact h1 hsymbol
      · exact h1 hside
    dsimp only
    rw [hsame key hmem, hrow]

end Apply

/-! ## Forced closes -/

/-- The consumer accepts an allocation of the execution, on a grid or not, wherever
the parts of the fill have a binary64. -/
def Consumable (a : ExecutionAllocation) : Prop :=
  ∀ f64 update step, update.allocation = some { a with legacyQuantityStep := step } →
    fillQuantity f64 update.qty update.amounts update.allocation = .ok input.quantity →
    expectedFee update = .ok input.fee → (∀ s ∈ a.slices, SliceProjects f64 update s) →
    ∃ parts, sliceUpdates f64 update = .ok (some parts) ∧ parts.map Prod.fst = a.slices.map ExecutionSlice.strategy

def Harmless (a : ExecutionAllocation) : Prop :=
  ∀ f64 px asset change, inv.prepareBatch f64 (a.slices.map (sliceFill input px asset)) = .ok change →
    TakenFrom inv input change.next

/-- **Forced closes.** No allocation ever lacks contributors. An execution that reduces the owned net,
with something held by every sleeve on its side, is allocated exactly where those sleeves have keys of
their own and the shares of the fee can be stored. Its slices are first come first served in the order
of the keys, the consumer accepts them, and no sleeve is taken through zero. -/
theorem forcedClose (inv : Inventory) (names : List String) :
    (∀ owner input, allocate inv owner names input ≠ .error insufficient) ∧
    ∀ input, Forced input → Reducing inv input → (∀ h ∈ onNetSide inv input, h.2 ≠ 0) →
      ((∃ a, allocate inv none names input = .ok a) ↔
        Keyed names (onNetSide inv input) ∧ SharesStored inv names input) ∧
      ∀ a, allocate inv none names input = .ok a →
        ForcedSlices inv names input a.slices ∧ Consumable input a ∧ (Backed inv input → Harmless inv input a) := by
  refine ⟨fun owner input => allocate_ne_insufficient owner names input, fun input hin hred hheld => ?_⟩
  rw [allocate_eq names hin]
  obtain ⟨⟨hkeyed, hshares⟩, hok⟩ | ⟨hnot, e, he, _⟩ := allocateForced_cases names hin.quantity hred
  · rw [hok]
    refine ⟨⟨fun _ => ⟨hkeyed, hshares⟩, fun _ => ⟨_, rfl⟩⟩, ?_⟩
    rintro a ⟨⟩
    have hslices := forcedSlices_plan hin.quantity hred hkeyed hheld
    refine ⟨hslices, ?_, ?_⟩
    · intro f64 update step hup hqty hfee hproj
      rw [hup] at hqty
      exact hslices.accepted rfl hup hqty hfee hproj
    · intro hback f64 px asset change hbatch
      exact hslices.applied hred hback hbatch
  · rw [he]
    exact ⟨⟨nofun, fun h => absurd h hnot⟩, nofun⟩

def soldBy (strategy : StrategyId) (qty : Exact) : InventoryFill :=
  { strategy, symbol := 0, side := .sell, qty, px := some 10, stop := none, settlementAsset := .named "USDT" }

/-- Two short sleeves: two by the second, and what rounding left of the first. -/
def shortPair : Inventory :=
  (Inventory.empty.afterFill some (soldBy 0 (1 / 2 ^ 60))).afterFill some (soldBy 1 2)

def boughtBack (owned : Option (StrategyId → Option Exact)) : AllocationInput :=
  { symbol := 0, side := .buy, quantity := 1, fee := none, forcedClose := true, owned }

theorem boughtBack_forced (owned : Option (StrategyId → Option Exact)) : Forced (boughtBack owned) := by
  have hone : validateStorage 1 = .ok () := by decide +kernel
  exact ⟨rfl, one_pos, validateStorage_ok.mp hone, fun f hf => (by cases hf)⟩

/-- Without a grid the sleeve whose key comes first serves it all. -/
theorem forcedClose_shortPair : ∃ a, allocate shortPair none ["b", "a"] (boughtBack none) = .ok a ∧
    ForcedSlices shortPair ["b", "a"] (boughtBack none) a.slices := by
  have hred : Reducing shortPair (boughtBack none) := by decide +kernel
  have hheld : ∀ h ∈ onNetSide shortPair (boughtBack none), h.2 ≠ 0 := by decide +kernel
  have hok : allocate shortPair none ["b", "a"] (boughtBack none) =
      .ok ⟨.emergencyNetFifo, none, [⟨1, "a", 1, none⟩]⟩ := by decide +kernel
  exact ⟨_, hok, (((forcedClose shortPair ["b", "a"]).2 _ (boughtBack_forced none) hred hheld).2 _ hok).1⟩

/-- A grid that gives the first sleeve a quantity, and the second its own. -/
def grid (first : Exact) : Option (StrategyId → Option Exact) := some fun s => some (if s = 0 then first else -2)

def oneBought (a : ExecutionAllocation) : FillUpdate :=
  { allocation := some a, amounts := none, symbol := 0, side := .buy, qty := .finite 1, px := .finite 10, fee := none }

/-- Executions that reduce the net and are not allocated as they should: a sleeve
without a key is refused; a sleeve that the grid resolves to nothing gets a slice of
nothing, which the consumer refuses; and a grid beyond the row takes it through zero. -/
theorem not_always_allocated :
    (Reducing shortPair (boughtBack none) ∧ allocate shortPair none ["b"] (boughtBack none) = .error noKey) ∧
    (Reducing shortPair (boughtBack (grid 0)) ∧ ∃ a, allocate shortPair none ["a", "b"] (boughtBack (grid 0)) = .ok a ∧
      (∃ s ∈ a.slices, s.quantity = 0) ∧
      sliceUpdates some (oneBought a) = .error "execution allocation has invalid or repeated owner quantity") ∧
    (Reducing shortPair (boughtBack (grid (-1))) ∧
      ∃ a, allocate shortPair none ["a", "b"] (boughtBack (grid (-1))) = .ok a ∧
      (shortPair.fillAll some (a.slices.map (sliceFill (boughtBack (grid (-1))) 9 (.named "USDT")))).map
        (fun out => quantityOf (out.2.position (0, 0))) = .ok (1 - 1 / 2 ^ 60)) := by
  refine ⟨⟨by decide +kernel, by decide +kernel⟩,
    ⟨by decide +kernel, ⟨.emergencyNetFifo, none, [⟨0, "a", 0, none⟩, ⟨1, "b", 1, none⟩]⟩, by decide +kernel, ?_, ?_⟩,
    ⟨by decide +kernel, ⟨.emergencyNetFifo, none, [⟨0, "a", 1, none⟩]⟩, by decide +kernel, by decide +kernel⟩⟩
  · exact ⟨_, mem_cons_self, rfl⟩
  · decide +kernel

end LiquidityMigration.Portfolio
