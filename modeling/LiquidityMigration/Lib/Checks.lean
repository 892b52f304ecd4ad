import Mathlib

/- Checks made one after another, the first failure ending them. A list of checks
   passes when each of its members does (`firstError_eq_ok`), so what a function
   has accepted can be read off its list. -/
namespace Checks
open List

variable {ε ε' α β : Type}

def firstError : List (Except ε Unit) → Except ε Unit
  | [] => .ok ()
  | .error e :: _ => .error e
  | .ok () :: rest => firstError rest

@[simp] theorem firstError_nil : firstError ([] : List (Except ε Unit)) = .ok () := rfl

variable {cs : List (Except ε Unit)} {x : Except ε α} {f : α → Except ε β} {as : List α}

@[simp] theorem firstError_cons {c : Except ε Unit} :
    firstError (c :: cs) = .ok () ↔ c = .ok () ∧ firstError cs = .ok () := by
  cases c with
  | error e => simp [firstError]
  | ok u => simp [firstError]

@[simp] theorem firstError_append {ds : List (Except ε Unit)} :
    firstError (cs ++ ds) = .ok () ↔ firstError cs = .ok () ∧ firstError ds = .ok () := by
  induction cs with
  | nil => simp
  | cons c cs ih => rw [cons_append, firstError_cons, firstError_cons, ih, and_assoc]

theorem firstError_eq_ok : firstError cs = .ok () ↔ ∀ c ∈ cs, c = .ok () := by
  induction cs with
  | nil => simp
  | cons c cs ih => rw [firstError_cons, ih, forall_mem_cons]

/-- What a list of checks fails with is what one of them fails with. -/
theorem mem_of_firstError {e : ε} (h : firstError cs = .error e) : ∃ c ∈ cs, c = .error e := by
  induction cs with
  | nil => cases h
  | cons c cs ih =>
    cases c with
    | error e' => exact ⟨_, mem_cons_self, h⟩
    | ok u =>
      obtain ⟨c, hc, he⟩ := ih h
      exact ⟨c, mem_cons_of_mem _ hc, he⟩

def require (p : Prop) [Decidable p] (e : ε) : Except ε Unit := if p then .ok () else .error e

variable {e : ε} {bs : List β}

@[simp] theorem require_eq_ok {p : Prop} [Decidable p] {u : Unit} : require p e = .ok u ↔ p := by
  unfold require
  split
  · next h => simp [h]
  · next h => simp [h]

theorem require_eq_error {p : Prop} [Decidable p] {e' : ε} : require p e = .error e' ↔ ¬ p ∧ e = e' := by
  unfold require
  split
  · next h => simp [h]
  · next h => simp [h]

def orError (o : Option α) (e : ε) : Except ε α :=
  match o with
  | some a => .ok a
  | none => .error e

variable {a : α}

@[simp] theorem orError_eq_ok {o : Option α} : orError o e = .ok a ↔ o = some a := by
  cases o <;> simp [orError]

theorem orError_eq_error {o : Option α} {e' : ε} : orError o e = .error e' ↔ o = none ∧ e = e' := by
  cases o <;> simp [orError]

theorem bind_eq_ok {b : β} : (x >>= f) = .ok b ↔ ∃ a, x = .ok a ∧ f a = .ok b := by
  cases x with
  | error e => simp [bind, Except.bind]
  | ok a => simp [bind, Except.bind]

/-- Two computations in a row fail when the first does, or the second behind it. -/
theorem bind_eq_error : (x >>= f) = .error e ↔ x = .error e ∨ ∃ a, x = .ok a ∧ f a = .error e := by
  cases x with
  | error e' => simp [bind, Except.bind]
  | ok a => simp [bind, Except.bind]

theorem exists_unit {p : Unit → Prop} : (∃ u, p u) ↔ p () := by
  constructor
  · rintro ⟨⟨⟩, h⟩
    exact h
  · intro h
    exact ⟨(), h⟩

@[simp] theorem mapError_eq_ok {f : ε → ε'} : x.mapError f = .ok a ↔ x = .ok a := by
  cases x <;> simp [Except.mapError]

theorem mapError_eq_error {f : ε → ε'} {e' : ε'} (h : x.mapError f = .error e') : ∃ e, e' = f e := by
  cases x with
  | error e => exact ⟨e, (Except.error.inj h).symm⟩
  | ok a => cases h

@[simp] theorem map_eq_ok {f : α → β} {b : β} : x.map f = .ok b ↔ ∃ a, x = .ok a ∧ f a = b := by
  cases x <;> simp [Except.map]

/-- The rules that read off what a computation that succeeded has checked and returned, to be used together. -/
theorem ok_iff :
    (∀ {ε α β : Type} {x : Except ε α} {f : α → Except ε β} {b}, (x >>= f) = .ok b ↔ ∃ a, x = .ok a ∧ f a = .ok b) ∧
    (∀ {p : Unit → Prop}, (∃ u, p u) ↔ p ()) ∧
    (∀ {ε : Type} {p : Prop} [Decidable p] {e : ε} {u}, require p e = .ok u ↔ p) ∧
    (∀ {ε α : Type} {o : Option α} {e : ε} {a}, orError o e = .ok a ↔ o = some a) ∧
    (∀ {ε ε' α : Type} {x : Except ε α} {f : ε → ε'} {a}, x.mapError f = .ok a ↔ x = .ok a) ∧
    ∀ {ε α : Type} {a b : α}, (.ok a : Except ε α) = .ok b ↔ a = b :=
  ⟨bind_eq_ok, exists_unit, require_eq_ok, orError_eq_ok, mapError_eq_ok, (Except.ok.injEq ..).to_iff⟩

theorem exists_of_isOk (h : x.isOk = true) : ∃ a, x = .ok a := by
  cases x with
  | ok a => exact ⟨a, rfl⟩
  | error e => cases h

/-- What every step of a run keeps, the run keeps when it is not refused. -/
theorem foldlM_invariant_of_mem {σ : Type} {P : σ → Prop} {f : σ → α → Except ε σ}
    (hstep : ∀ a ∈ as, ∀ {s s'}, P s → f s a = .ok s' → P s') {s s' : σ} (hs : P s) (h : as.foldlM f s = .ok s') :
    P s' := by
  induction as generalizing s with
  | nil =>
    injection h with h
    rwa [← h]
  | cons a as ih =>
    rw [foldlM_cons, bind_eq_ok] at h
    obtain ⟨t, ht, hrest⟩ := h
    exact ih (fun x hx => hstep x (mem_cons_of_mem a hx)) (hstep a mem_cons_self hs ht) hrest

theorem foldlM_invariant {σ : Type} {P : σ → Prop} {f : σ → α → Except ε σ}
    (hstep : ∀ {s a s'}, P s → f s a = .ok s' → P s') {s s' : σ} (hs : P s)
    (h : as.foldlM f s = .ok s') : P s' :=
  foldlM_invariant_of_mem (fun _ _ _ _ hp hnext => hstep hp hnext) hs h

/-- What each step of a fallible loop leaves as it is, the loop does. -/
theorem foldlM_keeps {σ γ : Type} (observe : σ → γ) {f : σ → α → Except ε σ}
    (hstep : ∀ s x s', f s x = .ok s' → observe s' = observe s) {xs : List α} {s s' : σ}
    (h : xs.foldlM f s = .ok s') : observe s' = observe s :=
  foldlM_invariant (P := fun t => observe t = observe s) (fun ht hnext => (hstep _ _ _ hnext).trans ht) rfl h

theorem mapM_eq_ok : as.mapM f = .ok bs ↔ List.Forall₂ (fun a b => f a = .ok b) as bs := by
  induction as generalizing bs with
  | nil =>
    rw [mapM_nil, forall₂_nil_left_iff]
    exact ⟨fun h => (Except.ok.inj h).symm, fun h => h ▸ rfl⟩
  | cons a as ih =>
    rw [mapM_cons, bind_eq_ok, forall₂_cons_left_iff]
    refine ⟨?_, ?_⟩
    · intro h
      obtain ⟨b, hb, h⟩ := h
      obtain ⟨rest, hrest, heq⟩ := bind_eq_ok.mp h
      injection heq with heq
      exact ⟨b, rest, hb, ih.mp hrest, heq.symm⟩
    · intro h
      obtain ⟨b, rest, hb, hrest, rfl⟩ := h
      exact ⟨b, hb, bind_eq_ok.mpr ⟨rest, ih.mpr hrest, rfl⟩⟩

theorem exists_of_mapM (h : as.mapM f = .ok bs) (ha : a ∈ as) : ∃ b ∈ bs, f a = .ok b := by
  have hall := mapM_eq_ok.mp h
  clear h
  induction hall with
  | nil => cases ha
  | cons hb _ ih =>
    rcases mem_cons.mp ha with rfl | ha
    · exact ⟨_, mem_cons_self, hb⟩
    · obtain ⟨b, hmem, hfa⟩ := ih ha
      exact ⟨b, mem_cons_of_mem _ hmem, hfa⟩

/-- What every result says of its member, the results say of the members. -/
theorem map_mapM {γ : Type} {g : β → γ} {g' : α → γ} (hg : ∀ a b, f a = .ok b → g b = g' a)
    (h : as.mapM f = .ok bs) : bs.map g = as.map g' := by
  have hall := mapM_eq_ok.mp h
  clear h
  induction hall with
  | nil => rfl
  | cons hb _ ih => rw [map_cons, map_cons, hg _ _ hb, ih]

/-- Both are refused for the same reason, or both give a result and the results are related. -/
inductive Both (R : α → β → Prop) : Except ε α → Except ε β → Prop where
  | error (e : ε) : Both R (.error e) (.error e)
  | ok {a : α} {b : β} (h : R a b) : Both R (.ok a) (.ok b)

namespace Both

theorem same (x : Except ε α) : Both Eq x x := by
  cases x with
  | error e => exact .error e
  | ok a => exact .ok rfl

variable {R : α → β → Prop} {γ : Type}

/-- Related results of the first step, and a second step that keeps to a relation. -/
theorem bind {δ : Type} {S : γ → δ → Prop} {x : Except ε α} {y : Except ε β}
    {f : α → Except ε γ} {g : β → Except ε δ} (h : Both R x y) (hnext : ∀ a b, R a b → Both S (f a) (g b)) :
    Both S (x >>= f) (y >>= g) := by
  cases h with
  | error e => exact .error e
  | ok hab => exact hnext _ _ hab

theorem after {δ : Type} {S : γ → δ → Prop} (x : Except ε α) {f : α → Except ε γ} {g : α → Except ε δ}
    (hnext : ∀ a, Both S (f a) (g a)) : Both S (x >>= f) (x >>= g) := by
  apply (same x).bind
  rintro a b rfl
  exact hnext a

theorem foldlM {f : α → γ → Except ε α} {g : β → γ → Except ε β}
    (hstep : ∀ a b c, R a b → Both R (f a c) (g b c)) {cs : List γ} {b : β} (h : R a b) :
    Both R (cs.foldlM f a) (cs.foldlM g b) := by
  induction cs generalizing a b with
  | nil => exact .ok h
  | cons c cs ih =>
    rw [foldlM_cons, foldlM_cons]
    exact (hstep a b c h).bind fun _ _ hnext => ih hnext

theorem map_eq {x : Except ε α} {y : Except ε β} {f : α → γ} {g : β → γ}
    (h : Both R x y) (hfg : ∀ a b, R a b → f a = g b) : x.map f = y.map g := by
  cases h with
  | error e => rfl
  | ok hab => exact congrArg Except.ok (hfg _ _ hab)

end Both

end Checks
