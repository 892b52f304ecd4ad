import Mathlib

/- Streams of self-delimiting frames. A `Reader` looks at the head of what is left and finds one whole frame, stops,
   or fails. `run` repeats it; `visit` hands every item to a stateful visitor that may refuse. Proved: reading past
   whole frames (`run_append`), any cut of a stream that reads (`run_take`), and any cut of encoded frames, which
   gives the frames wholly inside (`run_take_flatten`). -/
namespace Framing
open List

inductive Head (α ε : Type) where
  | stop : Head α ε
  | fail : ε → Head α ε
  | frame : α → Nat → Head α ε

/-- A reader of frames over symbols `β`. A frame it finds is nonempty, lies
inside what is left, and is found again whatever follows it; short of a whole
frame it stops. -/
structure Reader (β α ε : Type) where
  head : Nat → List β → Head α ε
  head_nil : ∀ off, head off [] = .stop
  size_pos : ∀ {off s a n}, head off s = .frame a n → 0 < n
  size_le : ∀ {off s a n}, head off s = .frame a n → n ≤ s.length
  head_append : ∀ {off s a n} (t : List β), head off s = .frame a n → head off (s ++ t) = .frame a n
  head_take : ∀ {off s a n}, head off s = .frame a n → head off (s.take n) = .frame a n
  head_cut : ∀ {off s k}, (∀ e, head off s ≠ .fail e) → (∀ a n, head off s = .frame a n → k < n) →
    head off (s.take k) = .stop

namespace Reader
variable {β α ε σ : Type} (R : Reader β α ε) {off : Nat} {s : List β} {items : List (Nat × α)}

theorem drop_length_lt {a : α} {n : Nat} (h : R.head off s = .frame a n) : (s.drop n).length < s.length := by
  have hp := R.size_pos h
  have hl := R.size_le h
  rw [length_drop]
  omega

/-- The items read from the head of `s`, each with its offset, and how the
reading ended: at an offset, or with a failure. -/
def run (off : Nat) (s : List β) : List (Nat × α) × Except ε Nat :=
  match _h : R.head off s with
  | .stop => ([], .ok off)
  | .fail e => ([], .error e)
  | .frame a n =>
    let rest := run (off + n) (s.drop n)
    ((off, a) :: rest.1, rest.2)
termination_by s.length
decreasing_by exact R.drop_length_lt _h

/-- The same loop with a visitor, which gets each item's number and offset. -/
def visit (f : Nat → Nat → α → σ → Except ε Unit × σ) (seq off : Nat) (s : List β) (st : σ) : Except ε Nat × σ :=
  match _h : R.head off s with
  | .stop => (.ok off, st)
  | .fail e => (.error e, st)
  | .frame a n =>
    match f seq off a st with
    | (.error e, st') => (.error e, st')
    | (.ok (), st') => visit f (seq + 1) (off + n) (s.drop n) st'
termination_by s.length
decreasing_by exact R.drop_length_lt _h

theorem run_stop (h : R.head off s = .stop) : R.run off s = ([], .ok off) := by
  rw [run]
  split <;> simp_all

theorem run_fail {e : ε} (h : R.head off s = .fail e) : R.run off s = ([], .error e) := by
  rw [run]
  split <;> simp_all

theorem run_frame {a : α} {n : Nat} (h : R.head off s = .frame a n) :
    R.run off s = ((off, a) :: (R.run (off + n) (s.drop n)).1, (R.run (off + n) (s.drop n)).2) := by
  rw [run]
  split <;> simp_all

theorem run_nil (off : Nat) : R.run off [] = ([], .ok off) := R.run_stop (R.head_nil off)

/-- A visitor that never refuses sees the items of `run`, numbered in order. -/
theorem visit_eq_foldl (f : Nat → Nat → α → σ → Except ε Unit × σ) (g : Nat → Nat → α → σ → σ)
    (hf : ∀ seq off a st, f seq off a st = (.ok (), g seq off a st)) (seq off : Nat) (s : List β) (st : σ) :
    R.visit f seq off s st =
      ((R.run off s).2, ((R.run off s).1.zipIdx seq).foldl (fun st x => g x.2 x.1.1 x.1.2 st) st) := by
  induction hn : s.length using Nat.strongRecOn generalizing seq off s st with
  | _ k ih =>
    rw [visit]
    split
    · next h => rw [R.run_stop h]; rfl
    · next h => rw [R.run_fail h]; rfl
    · next a n h =>
      have hlt := R.drop_length_lt h
      rw [hf, R.run_frame h]
      simp only [zipIdx_cons, foldl_cons]
      exact ih _ (hn ▸ hlt) _ _ _ _ rfl

/-- `s` is exactly a run of whole frames carrying `items`. -/
inductive Clean : Nat → List β → List (Nat × α) → Prop where
  | nil (off : Nat) : Clean off [] []
  | cons {off : Nat} {s : List β} {a : α} {n : Nat} {items : List (Nat × α)}
      (head : R.head off s = .frame a n) (rest : Clean (off + n) (s.drop n) items) :
      Clean off s ((off, a) :: items)

variable {R}

theorem Clean.run_append (h : R.Clean off s items) (t : List β) : R.run off (s ++ t) =
      (items ++ (R.run (off + s.length) t).1, (R.run (off + s.length) t).2) := by
  induction h with
  | nil off => simp
  | @cons off s a n items head _ ih =>
    have hn := R.size_le head
    rw [R.run_frame (R.head_append t head), drop_append_of_le_length hn, ih]
    have : off + n + (s.drop n).length = off + s.length := by rw [length_drop]; omega
    rw [this]
    rfl

theorem Clean.run_eq (h : R.Clean off s items) : R.run off s = (items, .ok (off + s.length)) := by
  have := h.run_append []
  rw [append_nil, R.run_nil] at this
  simpa using this

theorem Clean.append {t : List β} {is js : List (Nat × α)} (h : R.Clean off s is)
    (k : R.Clean (off + s.length) t js) : R.Clean off (s ++ t) (is ++ js) := by
  induction h with
  | nil off => simpa using k
  | @cons off s a n items head _ ih =>
    have hn := R.size_le head
    have hlen : off + n + (s.drop n).length = off + s.length := by rw [length_drop]; omega
    refine .cons (R.head_append t head) ?_
    rw [drop_append_of_le_length hn]
    exact ih (hlen ▸ k)

/-- What a reading that did not fail leaves behind its end is cut off: up to
there the stream is whole frames, carrying the items read. -/
theorem clean_of_run {e : Nat} (h : R.run off s = (items, .ok e)) :
    off ≤ e ∧ e ≤ off + s.length ∧ R.Clean off (s.take (e - off)) items := by
  induction hk : s.length using Nat.strongRecOn generalizing off s items with
  | _ k ih =>
    cases hh : R.head off s with
    | stop =>
      rw [R.run_stop hh] at h
      cases h
      exact ⟨Nat.le_refl _, by omega, by simpa using Clean.nil e⟩
    | fail err => rw [R.run_fail hh] at h; cases h
    | frame a n =>
      have hlt := R.drop_length_lt hh
      have hle := R.size_le hh
      rw [R.run_frame hh] at h
      simp only [Prod.mk.injEq] at h
      obtain ⟨hitems, hend⟩ := h
      obtain ⟨h1, h2, h3⟩ := ih _ (hk ▸ hlt) (Prod.ext rfl hend) rfl
      rw [length_drop] at h2
      refine ⟨by omega, by omega, ?_⟩
      rw [← hitems]
      have hcut : (s.take (e - off)).drop n = (s.drop n).take (e - (off + n)) := by
        rw [drop_take]
        congr 1
        omega
      refine .cons (n := n) ?_ (hcut ▸ h3)
      have hsplit : s.take (e - off) = s.take n ++ (s.take (e - off)).drop n := by
        conv => lhs; rw [← take_append_drop n (s.take (e - off))]
        rw [take_take, Nat.min_eq_left (by omega)]
      rw [hsplit]
      exact R.head_append _ (R.head_take hh)

/-- Cut anywhere, a stream that reads without failing still does, and gives the
first of its items. -/
theorem run_take {e : Nat} (h : R.run off s = (items, .ok e)) (k : Nat) :
    ∃ m e', R.run off (s.take k) = (items.take m, .ok e') := by
  induction hl : s.length using Nat.strongRecOn generalizing off s items k with
  | _ len ih =>
    cases hh : R.head off s with
    | stop =>
      have hcut := R.head_cut (k := k) (fun e he => by rw [hh] at he; cases he)
        fun a n ha => by rw [hh] at ha; cases ha
      exact ⟨0, off, R.run_stop hcut⟩
    | fail err => rw [R.run_fail hh] at h; cases h
    | frame a n =>
      rcases Nat.lt_or_ge k n with hk | hk
      · have hcut := R.head_cut (k := k) (fun e he => by rw [hh] at he; cases he)
          fun a' n' ha => by rw [hh] at ha; cases ha; exact hk
        exact ⟨0, off, R.run_stop hcut⟩
      · have hsplit : s.take k = s.take n ++ (s.drop n).take (k - n) := by
          conv => lhs; rw [show k = n + (k - n) by omega, take_add]
        have hhead : R.head off (s.take k) = .frame a n := by
          rw [hsplit]
          exact R.head_append _ (R.head_take hh)
        have hdrop : (s.take k).drop n = (s.drop n).take (k - n) := drop_take
        rw [R.run_frame hh] at h
        simp only [Prod.mk.injEq] at h
        obtain ⟨m, e', hrest⟩ := ih _ (hl ▸ R.drop_length_lt hh) (Prod.ext rfl h.2) (k - n) rfl
        refine ⟨m + 1, e', ?_⟩
        rw [R.run_frame hhead, hdrop, hrest, ← h.1]
        rfl

/-- A failure is met at or after the offset the reading starts from. -/
theorem head_of_run_error {e : ε}
    (h : R.run off s = (items, .error e)) : ∃ off' s', off ≤ off' ∧ R.head off' s' = .fail e := by
  induction hl : s.length using Nat.strongRecOn generalizing off s items with
  | _ len ih =>
    cases hh : R.head off s with
    | stop => rw [R.run_stop hh] at h; cases h
    | fail err =>
      rw [R.run_fail hh] at h
      cases h
      exact ⟨off, s, Nat.le_refl _, hh⟩
    | frame a n =>
      rw [R.run_frame hh] at h
      simp only [Prod.mk.injEq] at h
      obtain ⟨off', s', hle, hf⟩ := ih _ (hl ▸ R.drop_length_lt hh) (Prod.ext rfl h.2) rfl
      exact ⟨off', s', by omega, hf⟩

variable (R)

/-- `e` encodes `a`: read alone it is the frame of `a`. -/
def Encodes (a : α) (e : List β) : Prop := ∀ off, R.head off e = .frame a e.length

variable {R}

theorem Encodes.torn {a : α} {e : List β} (h : R.Encodes a e) (off : Nat) {k : Nat} (hk : k < e.length) :
    R.head off (e.take k) = .stop := by
  apply R.head_cut
  · intro err he
    rw [h off] at he
    cases he
  · intro a' n ha
    rw [h off] at ha
    cases ha
    exact hk

theorem Encodes.clean {a : α} {e : List β} (h : R.Encodes a e) (off : Nat) : R.Clean off e [(off, a)] := by
  refine .cons (h off) ?_
  rw [drop_length]
  exact .nil _

def offsets (off : Nat) : List (List β) → List Nat
  | [] => []
  | e :: es => off :: offsets (off + e.length) es

theorem offsets_length (off : Nat) (es : List (List β)) : (offsets off es).length = es.length := by
  induction es generalizing off with
  | nil => rfl
  | cons e es ih => simp [offsets, ih]

theorem clean_flatten {as : List α} {es : List (List β)} (h : List.Forall₂ R.Encodes as es) (off : Nat) :
    R.Clean off es.flatten ((offsets off es).zip as) := by
  induction h generalizing off with
  | nil => exact .nil off
  | @cons a e as es he _ ih => exact (he.clean off).append (ih (off + e.length))

/-- How many of the frames lie wholly inside the first `k` symbols. -/
def inside : List (List β) → Nat → Nat
  | [], _ => 0
  | e :: es, k => if e.length ≤ k then inside es (k - e.length) + 1 else 0

variable (es : List (List β))

theorem inside_le_length (k : Nat) : inside es k ≤ es.length := by
  induction es generalizing k with
  | nil => exact Nat.le_refl _
  | cons e es ih =>
    simp only [inside, length_cons]
    split
    · have := ih (k - e.length); omega
    · omega

theorem inside_fits (k : Nat) : (es.take (inside es k)).flatten.length ≤ k := by
  induction es generalizing k with
  | nil => simp [inside]
  | cons e es ih =>
    simp only [inside]
    split
    · have := ih (k - e.length)
      rw [take_succ_cons, flatten_cons, length_append]
      omega
    · simp

theorem inside_next (k : Nat) (h : inside es k < es.length) : k < (es.take (inside es k + 1)).flatten.length := by
  induction es generalizing k with
  | nil => simp at h
  | cons e es ih =>
    simp only [inside] at h ⊢
    split
    · next hk =>
      rw [if_pos hk, length_cons] at h
      have := ih (k - e.length) (by omega)
      rw [take_succ_cons, flatten_cons, length_append]
      omega
    · next hk =>
      rw [take_succ_cons, flatten_cons, length_append]
      omega

/-- The part of a cut after the frames wholly inside it: nothing, or a proper
part of the next frame. -/
theorem take_flatten_split (k : Nat) : es.flatten.take k = (es.take (inside es k)).flatten ++
      ((es.drop (inside es k)).headD []).take (k - (es.take (inside es k)).flatten.length) := by
  induction es generalizing k with
  | nil => simp [inside]
  | cons e es ih =>
    simp only [inside]
    split
    · next hk =>
      rw [flatten_cons, take_append, take_of_length_le hk, ih (k - e.length),
        take_succ_cons, flatten_cons, length_append, drop_succ_cons,
        append_assoc, Nat.sub_sub]
    · next hk =>
      rw [flatten_cons, take_append, Nat.sub_eq_zero_of_le (by omega)]
      simp

theorem run_take_flatten {as : List α} {es : List (List β)} (h : List.Forall₂ R.Encodes as es)
    (off k : Nat) : R.run off (es.flatten.take k) = ((offsets off (es.take (inside es k))).zip (as.take (inside es k)),
        .ok (off + (es.take (inside es k)).flatten.length)) := by
  have hlen := h.length_eq
  have hclean := clean_flatten (forall₂_take (inside es k) h) off
  rw [take_flatten_split, hclean.run_append]
  have hstop : ∀ o, R.head o (((es.drop (inside es k)).headD []).take
      (k - (es.take (inside es k)).flatten.length)) = .stop := by
    intro o
    rcases Nat.lt_or_ge (inside es k) es.length with hlt | hge
    · have hfit := inside_fits es k
      have hcut := inside_next es k hlt
      rw [take_succ_eq_append_getElem hlt, flatten_append, length_append] at hcut
      rw [drop_eq_getElem_cons hlt, headD_cons]
      have hlt' : inside es k < as.length := by omega
      have henc : R.Encodes as[inside es k] es[inside es k] := h.get hlt' hlt
      rw [flatten_singleton] at hcut
      exact henc.torn _ (by omega)
    · rw [drop_eq_nil_of_le hge]
      simpa using R.head_nil o
  rw [R.run_stop (hstop _)]
  simp

end Reader
end Framing
