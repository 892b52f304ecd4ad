import Mathlib

/- Files on a disk that can lose what was not synced. `Files` is what the operating system serves; a `Disk` also
   knows how much of each file and which names have reached the platter. After a crash every file is an initial part
   of what it was, at least its synced part, and a name that was never synced may be gone (`CrashImage`). An
   operation leaves every name but one as it stands (`kept_run`). -/
namespace Disk
open List AList Function

abbrev Files (ν β : Type) := AList fun _ : ν => List β

section
variable {ν β : Type} [DecidableEq ν] (d : Files ν β)

def fileAt (name : ν) : List β := (d.lookup name).getD []

def writeAt (name : ν) (pos : Nat) (bytes : List β) : Files ν β :=
  d.insert name ((fileAt d name).take pos ++ bytes ++ (fileAt d name).drop (pos + bytes.length))

def setLen (name : ν) (len : Nat) : Files ν β := d.insert name ((fileAt d name).take len)

/-- `write_all` on a device that stops after `fault` bytes: whether it went
through, and what was written. A limit the bytes do not reach never bites. -/
def writeAll (fault : Option Nat) (bytes : List β) : Bool × List β :=
  match fault with
  | none => (true, bytes)
  | some n => if n < bytes.length then (false, bytes.take n) else (true, bytes)

theorem fileAt_insert (name : ν) (b : List β) : fileAt (d.insert name b) name = b := by
  simp [fileAt]

theorem fileAt_writeAt_end (name : ν) (bytes : List β) :
    fileAt (writeAt d name (fileAt d name).length bytes) name = fileAt d name ++ bytes := by
  rw [writeAt, fileAt_insert, take_length, drop_eq_nil_of_le (by omega), append_nil]

theorem fileAt_writeAt_new (name : ν) (bytes : List β) :
    fileAt (writeAt (d.insert name []) name 0 bytes) name = bytes := by
  have := fileAt_writeAt_end (d.insert name []) name bytes
  rwa [fileAt_insert, length_nil, nil_append] at this

theorem writeAll_ok {fault : Option Nat} {bytes : List β} (h : (writeAll fault bytes).1 = true) :
    writeAll fault bytes = (true, bytes) := by
  unfold writeAll at h ⊢
  split
  · rfl
  · dsimp only at h
    split
    · next hn => rw [if_pos hn] at h; cases h
    · rfl

theorem writeAll_torn {fault : Option Nat} {bytes : List β} (h : (writeAll fault bytes).1 = false) :
    ∃ n < bytes.length, fault = some n ∧ writeAll fault bytes = (false, bytes.take n) := by
  unfold writeAll at h ⊢
  cases fault with
  | none => cases h
  | some n =>
    dsimp only at h ⊢
    split at h
    · next hn => exact ⟨n, hn, rfl, if_pos hn⟩
    · cases h

variable {name : ν}

theorem lookup_writeAt_ne {other : ν} (h : other ≠ name) (pos : Nat) (bytes : List β) :
    (writeAt d name pos bytes).lookup other = d.lookup other := lookup_insert_ne h

theorem mem_writeAt (name other : ν) (pos : Nat) (bytes : List β) :
    other ∈ writeAt d name pos bytes ↔ other = name ∨ other ∈ d := by
  simp [writeAt]

variable {d : Files ν β}

theorem mem_of_lookup {b : List β} (h : d.lookup name = some b) : name ∈ d :=
  lookup_isSome.mp (by rw [h]; rfl)

theorem fileAt_of_lookup {b : List β} (h : d.lookup name = some b) : fileAt d name = b := by
  rw [fileAt, h]
  rfl

/-- A name that looks up alike in two directories is in both or in neither. -/
theorem mem_congr {d' : Files ν β} (h : d'.lookup name = d.lookup name) (hm : name ∈ d') : name ∈ d := by
  rw [← lookup_isSome, ← h]
  exact lookup_isSome.mpr hm

theorem lookup_of_mem (h : name ∈ d) : d.lookup name = some (fileAt d name) := by
  obtain ⟨b, hb⟩ := Option.isSome_iff_exists.mp (lookup_isSome.mpr h)
  rw [fileAt_of_lookup hb, hb]

/-- Two directories that hold the same files, in whatever order they list them. -/
def SameFiles (d d' : Files ν β) : Prop := ∀ name, d.lookup name = d'.lookup name

theorem SameFiles.insert {d' : Files ν β} (h : SameFiles d d') (name : ν) (b : List β) :
    SameFiles (d.insert name b) (d'.insert name b) := by
  intro other
  by_cases ho : other = name
  · rw [ho, lookup_insert, lookup_insert]
  · rw [lookup_insert_ne ho, lookup_insert_ne ho, h other]

end

/-- The files, how long the synced part of each is, and whether its directory
entry is synced. -/
structure State (ν β : Type) where
  files : Files ν β
  synced : ν → Nat
  linked : ν → Bool

inductive Effect (ν β : Type) where
  | write (name : ν) (pos : Nat) (bytes : List β)
  | syncData (name : ν)
  | create (name : ν)
  | syncDir

variable {ν β : Type} [DecidableEq ν]

def Effect.apply (s : State ν β) : Effect ν β → State ν β
  | .write name pos bytes =>
    { files := writeAt s.files name pos bytes
      synced := Function.update s.synced name (min (s.synced name) pos)
      linked := s.linked }
  | .syncData name => { s with synced := Function.update s.synced name (fileAt s.files name).length }
  | .create name =>
    { files := s.files.insert name []
      synced := Function.update s.synced name 0
      linked := Function.update s.linked name false }
  | .syncDir => { s with linked := fun _ => true }

def run (s : State ν β) (effects : List (Effect ν β)) : State ν β := effects.foldl Effect.apply s

/-- What the steps do on a device where some of them fail, a write after some bytes:
nothing from the first failure on, but what was written of its own. -/
def upTo {σ : Type} (faults : σ → Option Nat) : List (σ × Option (Effect ν β)) → List (Effect ν β)
  | [] => []
  | (step, some (.write name pos bytes)) :: rest =>
    .write name pos (writeAll (faults step) bytes).2 ::
      if (writeAll (faults step) bytes).1 then upTo faults rest else []
  | (step, effect) :: rest => if (faults step).isSome then [] else effect.toList ++ upTo faults rest

theorem SameFiles.run {s t : State ν β} (h : SameFiles s.files t.files) (effects : List (Effect ν β)) :
    SameFiles (run s effects).files (run t effects).files := by
  induction effects generalizing s t with
  | nil => exact h
  | cons e rest ih =>
    apply ih
    cases e with
    | write name pos bytes =>
      have hfile : fileAt s.files name = fileAt t.files name := by rw [fileAt, h name]; rfl
      simp only [Effect.apply, writeAt, hfile]
      exact h.insert name _
    | create name => exact h.insert name _
    | syncData name => exact h
    | syncDir => exact h

def CrashImage (s : State ν β) (d : Files ν β) : Prop :=
  ∀ name, (d.lookup name = none ∧ (name ∉ s.files ∨ s.linked name = false)) ∨
    ∃ n, s.synced name ≤ n ∧ name ∈ s.files ∧ d.lookup name = some ((fileAt s.files name).take n)

def Effect.concerns : Effect ν β → Option ν
  | .write name _ _ => some name
  | .syncData name => some name
  | .create name => some name
  | .syncDir => none

/-- What stands under `name` in `s` stands there in `t`, as durable as it was. -/
structure Kept (s t : State ν β) (name : ν) : Prop where
  lookup : t.files.lookup name = s.files.lookup name
  synced : t.synced name = s.synced name
  linked : s.linked name = true → t.linked name = true

variable {s : State ν β} {name : ν}

theorem Effect.kept {e : Effect ν β} (h : e.concerns ≠ some name) : Kept s (e.apply s) name := by
  cases e with
  | write other pos bytes =>
    have hne : name ≠ other := fun he => h (by rw [he]; rfl)
    exact ⟨lookup_writeAt_ne _ hne _ _, update_of_ne hne _ _, id⟩
  | syncData other =>
    have hne : name ≠ other := fun he => h (by rw [he]; rfl)
    exact ⟨rfl, update_of_ne hne _ _, id⟩
  | create other =>
    have hne : name ≠ other := fun he => h (by rw [he]; rfl)
    refine ⟨lookup_insert_ne hne, update_of_ne hne _ _, ?_⟩
    intro hl
    show update s.linked other false name = true
    rw [update_of_ne hne, hl]
  | syncDir => exact ⟨rfl, rfl, fun _ => rfl⟩

theorem kept_run {effects : List (Effect ν β)} (h : ∀ e ∈ effects, e.concerns ≠ some name) :
    Kept s (run s effects) name := by
  induction effects generalizing s with
  | nil => exact ⟨rfl, rfl, id⟩
  | cons e rest ih =>
    have hstep := Effect.kept (s := s) (h e (by simp))
    have hrest := ih (s := e.apply s) fun e he => h e (by simp [he])
    show Kept s (run (e.apply s) rest) name
    exact ⟨hrest.lookup.trans hstep.lookup, hrest.synced.trans hstep.synced,
      fun hl => hrest.linked (hstep.linked hl)⟩

theorem run_append (s : State ν β) (first second : List (Effect ν β)) :
    run s (first ++ second) = run (run s first) second := foldl_append

def settled (d : Files ν β) : State ν β := ⟨d, fun name => (fileAt d name).length, fun _ => true⟩

theorem crashImage_self (s : State ν β) : CrashImage s s.files := by
  intro name
  by_cases hm : name ∈ s.files
  · refine .inr ⟨max (s.synced name) (fileAt s.files name).length, Nat.le_max_left _ _, hm, ?_⟩
    rw [take_of_length_le (Nat.le_max_right _ _), lookup_of_mem hm]
  · exact .inl ⟨lookup_eq_none.mpr hm, .inl hm⟩

theorem crashImage_cut {n : Nat} (hm : name ∈ s.files) (hn : s.synced name ≤ n) :
    CrashImage s (setLen s.files name n) := by
  intro other
  by_cases ho : other = name
  · subst ho
    refine .inr ⟨n, hn, hm, ?_⟩
    show (s.files.insert other _).lookup other = _
    rw [lookup_insert]
  · have hlook : (setLen s.files name n).lookup other = s.files.lookup other := lookup_insert_ne ho
    rw [hlook]
    exact crashImage_self s other

/-- A file whose name is durable is found, cut past its synced part. -/
theorem CrashImage.linked {d : Files ν β} (h : CrashImage s d) (hm : name ∈ s.files) (hl : s.linked name = true) :
    ∃ n, s.synced name ≤ n ∧ d.lookup name = some ((fileAt s.files name).take n) := by
  obtain ⟨_, hout | hun⟩ | ⟨n, hn, _, hlook⟩ := h name
  · exact absurd hm hout
  · rw [hl] at hun
    cases hun
  · exact ⟨n, hn, hlook⟩

/-- What is found was there, and is an initial part of what it was. -/
theorem CrashImage.found {d : Files ν β} (h : CrashImage s d) (hm : name ∈ d) :
    name ∈ s.files ∧ ∃ n, fileAt d name = (fileAt s.files name).take n := by
  obtain ⟨hnone, _⟩ | ⟨n, _, hin, hlook⟩ := h name
  · exact absurd hm (lookup_eq_none.mp hnone)
  · exact ⟨hin, n, fileAt_of_lookup hlook⟩

end Disk
