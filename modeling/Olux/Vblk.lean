import Olux.Basic
import Olux.Lib.Prefixes

namespace Olux.Vblk

open List

structure Request where
  call : Nat
  descs : Nat

inductive Phase where
  | idle
  -- in wait_for_completion_timeout
  | waiting (call : Nat)
  -- the completion is consumed, the status is not read yet
  | woken (call : Nat)

-- A disk. All requests have one status byte and one completion. What the device has completed and
-- what the calls have returned is kept to speak about them.
structure Disk where
  numFree : Nat
  ring : List Request
  used : List Request
  status : UInt8
  done : Nat
  phase : Phase
  calls : Nat
  completed : List (Nat × UInt8)
  returned : List (Nat × Int)

def boot (num : Nat) : Disk := ⟨num, [], [], 0, 0, .idle, 0, [], []⟩

inductive Event where
  | submit (bytes : Nat)
  -- the device completes the oldest request it has
  | complete (status : UInt8)
  | irq
  | wait (late : Bool)
  | finish

variable (d : Disk)

-- `vblk_submit` up to the wait. The chain has a header, the data if there is any, and the status.
def submit (bytes : Nat) : Disk :=
  let n := if bytes = 0 then 2 else 3
  let d := { d with status := 0xff, done := 0, calls := d.calls + 1 }
  if d.numFree < n then { d with returned := d.returned ++ [(d.calls - 1, -ENOSPC)] }
  else { d with numFree := d.numFree - n, ring := d.ring ++ [⟨d.calls - 1, n⟩], phase := .waiting (d.calls - 1) }

def vblkDone : Disk :=
  { d with used := [], done := d.done + d.used.length, numFree := d.numFree + (d.used.map Request.descs).sum }

def step : Event → Disk
  | .submit bytes =>
    match d.phase with
    | .idle => submit d bytes
    | _ => d
  | .complete status =>
    match d.ring with
    | [] => d
    | r :: ring =>
      { d with ring := ring, used := d.used ++ [r], status := status, completed := d.completed ++ [(r.call, status)] }
  | .irq => vblkDone d
  | .wait late =>
    match d.phase with
    | .waiting c =>
      if 0 < d.done then { d with done := d.done - 1, phase := .woken c }
      else if late then { d with phase := .idle, returned := d.returned ++ [(c, -ETIMEDOUT)] }
      else d
    | _ => d
  | .finish =>
    match d.phase with
    | .woken c => { d with phase := .idle, returned := d.returned ++ [(c, if d.status = 0 then 0 else - EIO)] }
    | _ => d

def run (evs : List Event) : Disk := evs.foldl step d

def Own : Prop := ∀ c, (c, 0) ∈ d.returned → (c, 0) ∈ d.completed

def crowded : Event → Bool
  | .submit _ => !d.ring.isEmpty
  | _ => false

def Alone (c : Nat) : Prop :=
  (∀ r ∈ d.ring, r.call = c) ∧ (d.status = 0xff ∨ (c, d.status) ∈ d.completed)

def Inv : Prop := Own d ∧ ∀ c, d.phase = .waiting c ∨ d.phase = .woken c → Alone d c

theorem Own.append {d : Disk} (h : Own d) {c : Nat} {r : Int} (hr : r = 0 → (c, 0) ∈ d.completed) :
    ∀ c', (c', 0) ∈ d.returned ++ [(c, r)] → (c', 0) ∈ d.completed := by
  intro c' hc
  rcases mem_append.mp hc with hc | hc
  · exact h c' hc
  · cases mem_singleton.mp hc
    exact hr rfl

theorem submit_inv {d : Disk} (h : Own d) (hidle : d.phase = .idle) (hring : d.ring = []) (bytes : Nat) :
    Inv (submit d bytes) := by
  unfold submit
  generalize (if bytes = 0 then 2 else 3) = n
  dsimp only
  split
  · refine ⟨h.append fun hr => absurd hr (by decide), fun c hc => ?_⟩
    simp [hidle] at hc
  refine ⟨h, fun c hc => ⟨fun r hr => ?_, .inl rfl⟩⟩
  simp only [hring, nil_append, mem_singleton] at hr
  simp only [Phase.waiting.injEq, reduceCtorEq, or_false] at hc
  rw [hr, ← hc]

theorem step_inv {d : Disk} {ev : Event} (h : Inv d) (hb : crowded d ev = false) : Inv (step d ev) := by
  obtain ⟨hown, hbusy⟩ := h
  cases ev with
  | submit bytes =>
    simp only [step]
    split
    · rename_i hidle
      exact submit_inv hown hidle (by simpa [crowded] using hb) bytes
    · exact ⟨hown, hbusy⟩
  | complete status =>
    simp only [step]
    split
    · exact ⟨hown, hbusy⟩
    rename_i r ring hring
    refine ⟨fun c hc => mem_append_left _ (hown c hc), fun c hc => ?_⟩
    obtain ⟨hsame, -⟩ := hbusy c hc
    refine ⟨fun r' hr => hsame r' (hring ▸ mem_cons_of_mem r hr), .inr ?_⟩
    rw [hsame r (hring ▸ mem_cons_self)]
    exact mem_append_right _ (mem_singleton_self _)
  | irq => exact ⟨hown, hbusy⟩
  | wait late =>
    simp only [step]
    split
    swap
    · exact ⟨hown, hbusy⟩
    rename_i c hwait
    split
    · refine ⟨hown, fun c' hc => hbusy c' ?_⟩
      simp only [reduceCtorEq, Phase.woken.injEq, false_or] at hc
      exact .inl (hc ▸ hwait)
    split
    · exact ⟨hown.append fun hr => absurd hr (by decide), fun _ hc => by simp at hc⟩
    · exact ⟨hown, hbusy⟩
  | finish =>
  simp only [step]
  split
  swap
  · exact ⟨hown, hbusy⟩
  rename_i c hwoken
  refine ⟨hown.append fun hr => ?_, fun _ hc => by simp at hc⟩
  have hzero : d.status = 0 := by
    by_contra hne
    rw [if_neg hne] at hr
    exact absurd hr (by decide)
  -- so it is not the mark of the submission
  rcases (hbusy c (.inr hwoken)).2 with hmark | hdone
  · rw [hzero] at hmark
    exact absurd hmark (by decide)
  · exact hzero ▸ hdone

-- Over any run in which the device has nothing left when a request is submitted.
theorem completes_by_itself (num : Nat) (evs : List Event)
    (h : ∀ k ev, evs[k]? = some ev → crowded (run (boot num) (evs.take k)) ev = false) (k : Nat) :
    Own (run (boot num) (evs.take k)) := by
  have hboot : Inv (boot num) := ⟨fun c hc => absurd hc not_mem_nil, fun c hc => by simp [boot] at hc⟩
  exact (Lib.prefixes (f := step) hboot (fun _ _ => step_inv) h k).1

-- The first request times out, and is completed before the next one is submitted.
def late : List Event :=
  [.submit 512, .wait true, .complete 0, .irq, .submit 512, .complete 0, .irq, .wait false, .finish]

theorem completes_by_itself_late :
    (run (boot 64) late).returned = [(0, -ETIMEDOUT), (1, 0)] ∧ Own (run (boot 64) late) := by
  refine ⟨rfl, completes_by_itself 64 late (fun k ev hev => ?_) 9⟩
  match k with
  | 0 | 1 | 2 | 3 | 4 | 5 | 6 | 7 | 8 =>
    cases hev
    rfl
  | k + 9 => cases hev

theorem late_completion_taken :
    let d := run (boot 64) [.submit 512, .wait true, .submit 512, .complete 0, .irq, .wait false, .finish]
    d.returned = [(0, -ETIMEDOUT), (1, 0)] ∧ d.completed = [(0, 0)] ∧ ¬ Own d := by
  refine ⟨rfl, rfl, fun h => ?_⟩
  have hone := h 1 (mem_cons_of_mem _ (mem_singleton_self _))
  exact absurd hone (by decide)

end Olux.Vblk
