import Mathlib.Data.List.Basic

/-!
# Locks of registers

The monitors of a `RegisterLine` (`runtime/verifier/register_line.cc`), for references that are not the
null literal. The bits of a register are exact unless it was moved to itself, or held a reference
that was locked through another one.
-/

namespace Art

open Function List

/-- `monitors_` and `reg_to_lock_depths_`. A register without an entry has no bits. -/
structure RegisterLine where
  monitors : List ℕ
  regToLockDepths : ℕ → BitVec 32

namespace RegisterLine

variable (line : RegisterLine)

def kMaxMonitorStackDepth : ℕ := 32

def isSetLockDepth (reg depth : ℕ) : Bool := (line.regToLockDepths reg).getLsbD depth

/-- `SetRegisterType<LockOp::kClear>(vdst, type)`. -/
def setRegisterType (vdst : ℕ) : RegisterLine :=
  { line with regToLockDepths := update line.regToLockDepths vdst 0 }

def copyRegister1 (vdst vsrc : ℕ) : RegisterLine :=
  let cleared := line.setRegisterType vdst
  { line with regToLockDepths := update cleared.regToLockDepths vdst (cleared.regToLockDepths vsrc) }

def pushMonitor (regIdx insnIdx : ℕ) : Option RegisterLine :=
  if line.monitors.length ≥ kMaxMonitorStackDepth then none
  else if line.isSetLockDepth regIdx line.monitors.length then none
  else some ⟨line.monitors ++ [insnIdx], update line.regToLockDepths regIdx
    (line.regToLockDepths regIdx ||| BitVec.twoPow 32 line.monitors.length)⟩

/-- `PopMonitor(verifier, reg_idx)`, with the loop of `ClearRegToLockDepth` over all registers. -/
def popMonitor (regIdx : ℕ) : Option RegisterLine :=
  let depth := line.monitors.length - 1
  if line.monitors = [] then none
  else if line.isSetLockDepth regIdx depth then
    some ⟨line.monitors.dropLast, fun reg => if line.isSetLockDepth reg depth then
      line.regToLockDepths reg ^^^ BitVec.twoPow 32 depth else line.regToLockDepths reg⟩
  else none

/-- Instructions on references. -/
inductive Instruction
  | move (vdst vsrc : ℕ)
  | overwrite (vdst ref : ℕ)
  | monitorEnter (regIdx insnIdx : ℕ)
  | monitorExit (regIdx : ℕ)

/-- A register line with the references in the registers and those that are locked, by depth. -/
structure Execution where
  line : RegisterLine
  ref : ℕ → ℕ
  locked : List ℕ

namespace Execution

variable (e : Execution)

def start (ref : ℕ → ℕ) : Execution := ⟨⟨[], fun _ => 0⟩, ref, []⟩

/-- An instruction for which no failure is reported. -/
def step : Instruction → Option Execution
  | .move vdst vsrc => some ⟨e.line.copyRegister1 vdst vsrc, update e.ref vdst (e.ref vsrc), e.locked⟩
  | .overwrite vdst ref => some ⟨e.line.setRegisterType vdst, update e.ref vdst ref, e.locked⟩
  | .monitorEnter regIdx insnIdx =>
    (e.line.pushMonitor regIdx insnIdx).map (⟨·, e.ref, e.locked ++ [e.ref regIdx]⟩)
  | .monitorExit regIdx => (e.line.popMonitor regIdx).map (⟨·, e.ref, e.locked.dropLast⟩)

/-- No locked reference is moved to its register or written, and one is locked in a single register. -/
def Plain : Instruction → Prop
  | .move vdst vsrc => vdst = vsrc → e.ref vsrc ∉ e.locked
  | .overwrite _ ref => ref ∉ e.locked
  | .monitorEnter regIdx _ => ∀ reg, e.ref reg = e.ref regIdx → reg = regIdx
  | .monitorExit _ => True

/-- The executions of straight-line code. -/
inductive Reachable : Execution → Prop
  | start (ref : ℕ → ℕ) : Reachable (start ref)
  | step {e e' : Execution} {i : Instruction} : Reachable e → e.Plain i → e.step i = some e' → Reachable e'

/-- The bits are exact. -/
structure Exact : Prop where
  length : e.locked.length = e.line.monitors.length
  isSet_iff : ∀ reg depth, e.line.isSetLockDepth reg depth = true ↔ e.locked[depth]? = some (e.ref reg)

variable {e} {e' : Execution} {i : Instruction}

lemma Exact.step (h : e.Exact) (hi : e.Plain i) (he : e.step i = some e') : e'.Exact := by
  have hset := h.isSet_iff
  have hlen := h.length
  cases i with
  | move vdst vsrc =>
    obtain rfl := Option.some.inj he
    refine ⟨hlen, fun reg depth => ?_⟩
    rcases eq_or_ne reg vdst with rfl | hne
    · rcases eq_or_ne reg vsrc with rfl | hsrc
      · simpa [isSetLockDepth, copyRegister1, setRegisterType] using fun hd => hi rfl (mem_of_getElem? hd)
      · simpa [isSetLockDepth, copyRegister1, setRegisterType, update_of_ne hsrc.symm] using hset vsrc depth
    · simpa [isSetLockDepth, copyRegister1, setRegisterType, update_of_ne hne] using hset reg depth
  | overwrite vdst ref =>
    obtain rfl := Option.some.inj he
    refine ⟨hlen, fun reg depth => ?_⟩
    rcases eq_or_ne reg vdst with rfl | hne
    · simpa [isSetLockDepth, setRegisterType] using fun hd => hi (mem_of_getElem? hd)
    · simpa [isSetLockDepth, setRegisterType, update_of_ne hne] using hset reg depth
  | monitorEnter regIdx insnIdx =>
    obtain ⟨line, hline, rfl⟩ := Option.map_eq_some_iff.1 he
    rw [pushMonitor] at hline
    split_ifs at hline with hmax hnot
    obtain rfl := Option.some.inj hline
    refine ⟨by simp [hlen], fun reg depth => ?_⟩
    have hreg := hset reg depth
    have hsingle : e.ref reg = e.ref regIdx → reg = regIdx := hi reg
    rw [kMaxMonitorStackDepth] at hmax
    simp only [isSetLockDepth, getElem?_append, update_apply] at hreg ⊢
    split_ifs with hr hd hd
    any_goals rw [BitVec.getLsbD_or, BitVec.getLsbD_twoPow]
    all_goals grind
  | monitorExit regIdx =>
    obtain ⟨line, hline, rfl⟩ := Option.map_eq_some_iff.1 he
    rw [popMonitor] at hline
    split_ifs at hline with hnil hbit
    obtain rfl := Option.some.inj hline
    refine ⟨by simp [hlen], fun reg depth => ?_⟩
    have hreg := hset reg depth
    change BitVec.getLsbD (ite (e.line.isSetLockDepth reg _ = true) _ _) depth = true ↔ _
    rw [getElem?_dropLast]
    split
    next hb =>
      rw [BitVec.getLsbD_xor, BitVec.getLsbD_twoPow]
      grind [isSetLockDepth]
    next hb => grind [isSetLockDepth]

end Execution

open RegisterLine.Execution

/-- In plain executions the bits are exact, and a monitor can be left exactly through the reference that
    was locked last. -/
theorem isSetLockDepth_iff {e : Execution} (h : Reachable e) (reg : ℕ) :
    (∀ depth, e.line.isSetLockDepth reg depth = true ↔ e.locked[depth]? = some (e.ref reg)) ∧
      ((e.line.popMonitor reg).isSome ↔ e.locked.getLast? = some (e.ref reg)) := by
  have hexact : Exact e := by
    induction h with
    | start ref => exact ⟨rfl, fun reg depth => by simp [isSetLockDepth, Execution.start]⟩
    | step _ hi he ih => exact ih.step hi he
  refine ⟨hexact.isSet_iff reg, ?_⟩
  rw [getLast?_eq_getElem?, ← hexact.isSet_iff, hexact.length, popMonitor]
  split_ifs with hnil hbit
  · have hlocked : e.locked = [] := length_eq_zero_iff.1 (by rw [hexact.length, hnil]; rfl)
    simp [hexact.isSet_iff, hlocked]
  · simpa using hbit
  · simpa using hbit

theorem isSetLockDepth_iff_entered : ∃ e, (Execution.start id).step (.monitorEnter 0 0) = some e ∧
    ((e.line.popMonitor 0).isSome ↔ e.locked.getLast? = some (e.ref 0)) :=
  ⟨_, rfl, (isSetLockDepth_iff (.step (i := .monitorEnter 0 0) (.start id) (fun _ h => h) rfl) 0).2⟩

/-- After a register was moved to itself, its monitor cannot be left. -/
theorem not_isSetLockDepth_move :
    ∃ e, ((Execution.start id).step (.monitorEnter 0 0)).bind (·.step (.move 0 0)) = some e ∧
      e.locked[0]? = some (e.ref 0) ∧ e.line.isSetLockDepth 0 0 = false ∧ e.line.popMonitor 0 = none :=
  ⟨_, rfl, rfl, rfl, rfl⟩

end RegisterLine
end Art
