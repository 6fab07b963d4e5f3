import Olux.Basic

namespace Olux.Wait4

structure Child where
  pid : Int
  pgid : Int
  zombie : Bool
  groupStop : Bool
  stopReported : Bool
  contReported : Bool

-- The arguments, with the process group of the caller, the options that matter behind the check
-- of WNOHANG, and whether the stores to the status and to the rusage fail.
structure Args where
  pid : Int
  pgid : Int
  untraced : Bool
  continued : Bool
  nowait : Bool
  statusFault : Bool
  rusageFault : Bool

variable (a : Args)

def waitMatch (c : Child) : Bool :=
  if 0 < a.pid then c.pid == a.pid
  else if a.pid = -1 then true
  else if a.pid = 0 then c.pgid == a.pgid
  else c.pgid == -a.pid

def scan (any : Bool) : List Child → Option Int × List Child
  | [] => (if any then none else some (-ECHILD), [])
  | c :: rest =>
    if waitMatch a c = false then ((scan any rest).1, c :: (scan any rest).2)
    else if c.zombie then
      if a.statusFault || a.rusageFault then (some (-EFAULT), c :: rest)
      else (some c.pid, if a.nowait then c :: rest else rest)
    else if a.untraced && c.groupStop && !c.stopReported then
      (some (if a.statusFault then -EFAULT else c.pid), { c with stopReported := true } :: rest)
    else if a.continued && !c.groupStop && !c.contReported then
      (some (if a.statusFault then -EFAULT else c.pid), { c with contReported := true } :: rest)
    else ((scan true rest).1, c :: (scan true rest).2)

def reportable (c : Child) : Bool :=
  c.zombie || (a.untraced && c.groupStop && !c.stopReported) || (a.continued && !c.groupStop && !c.contReported)

def wakes (children : List Child) : Bool := children.any (fun c => waitMatch a c && reportable a c) || children.isEmpty

theorem scan_isSome (any : Bool) (children : List Child) : (scan a any children).1.isSome = true ↔
    (∃ c ∈ children, waitMatch a c = true ∧ reportable a c = true) ∨
      any = false ∧ ∀ c ∈ children, waitMatch a c = false := by
  induction children generalizing any with
  | nil => cases any <;> simp [scan]
  | cons c rest ih =>
  unfold scan
  split
  · rename_i hmatch
    simp [ih, hmatch]
  rename_i hmatch
  have hmatch : waitMatch a c = true := by simpa using hmatch
  split
  · rename_i hz
    have hrep : reportable a c = true := by simp [reportable, hz]
    split <;> simp [hmatch, hrep]
  rename_i hz
  split
  · rename_i hstop
    have hrep : reportable a c = true := by simp [reportable, hstop]
    simp [hmatch, hrep]
  rename_i hstop
  split
  · rename_i hcont
    have hrep : reportable a c = true := by simp [reportable, hcont]
    simp [hmatch, hrep]
  rename_i hcont
  have hrep : reportable a c = false := by simp [reportable, hz, hstop, hcont]
  simp [ih, hmatch, hrep]

-- The two agree unless there are children, but none to wait for.
theorem sleeps_iff (children : List Child) : (wakes a children = true ↔ (scan a false children).1.isSome = true) ↔
    children = [] ∨ ∃ c ∈ children, waitMatch a c = true := by
  have hwakes : wakes a children = true ↔
      (∃ c ∈ children, waitMatch a c = true ∧ reportable a c = true) ∨ children = [] := by
    simp [wakes]
  rw [hwakes, scan_isSome]
  constructor
  · intro h
    by_contra hnot
    rw [not_or, not_exists] at hnot
    have hnone : ∀ c ∈ children, waitMatch a c = false := fun c hc =>
      Bool.eq_false_iff.mpr fun hm => hnot.2 c ⟨hc, hm⟩
    rcases h.mpr (.inr ⟨rfl, hnone⟩) with ⟨c, hc, hm, -⟩ | hnil
    · exact hnot.2 c ⟨hc, hm⟩
    · exact hnot.1 hnil
  rintro (rfl | ⟨c, hc, hm⟩)
  · simp
  · refine or_congr Iff.rfl ⟨?_, fun h => ?_⟩
    · rintro rfl
      cases hc
    · rw [h.2 c hc] at hm
      cases hm

theorem autoreap_sleeps_on :
    let a : Args := ⟨5, 1, false, false, false, false, false⟩
    let other : Child := ⟨6, 1, false, false, false, true⟩
    (scan a false [⟨5, 1, false, false, false, true⟩, other]).1 = none ∧ (scan a false [other]).1 = some (-ECHILD) ∧
      wakes a [other] = false := by
  decide

end Olux.Wait4
