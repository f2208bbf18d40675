import Art.Lib.Loop

/-!
# Linear decoding of a code item

`Instruction::SizeInCodeUnits` of `libdexfile/dex/dex_instruction.h`, `SafeDexInstructionIterator` of
`dex_instruction_iterator.h` and `MethodVerifier::ComputeWidthsAndCountOps` of
`runtime/verifier/method_verifier.cc`.

* `sizeInCodeUnits_pos`: the iterator makes progress, so the loop ends;
-/

namespace Art

inductive Format
  | k10x | k12x | k11n | k11x | k10t | k20t | k22x | k21t | k21s | k21h | k21c | k23x | k22b | k22t
  | k22s | k22c | k32x | k30t | k31t | k31i | k31c | k35c | k3rc | k45cc | k4rcc | k51l
  deriving DecidableEq

/-- `Instruction::FormatOf`, from `dex_instruction_list.h`; unused opcodes have the format `k10x`. -/
def formatOf (opcode : BitVec 8) : Format :=
  let n := opcode.toNat
  if n ∈ [0x01, 0x04, 0x07, 0x21] then .k12x
  else if n ∈ [0x02, 0x05, 0x08] then .k22x
  else if n ∈ [0x03, 0x06, 0x09] then .k32x
  else if n ∈ [0x0a, 0x0b, 0x0c, 0x0d, 0x0f, 0x10, 0x11, 0x1d, 0x1e, 0x27] then .k11x
  else if n = 0x12 then .k11n
  else if n ∈ [0x13, 0x16] then .k21s
  else if n ∈ [0x14, 0x17] then .k31i
  else if n ∈ [0x15, 0x19] then .k21h
  else if n = 0x18 then .k51l
  else if n ∈ [0x1a, 0x1c, 0x1f, 0x22, 0xfe, 0xff] then .k21c
  else if n = 0x1b then .k31c
  else if n ∈ [0x20, 0x23] then .k22c
  else if n ∈ [0x24, 0xfc] then .k35c
  else if n ∈ [0x25, 0xfd] then .k3rc
  else if n ∈ [0x26, 0x2b, 0x2c] then .k31t
  else if n = 0x28 then .k10t
  else if n = 0x29 then .k20t
  else if n = 0x2a then .k30t
  else if 0x2d ≤ n ∧ n ≤ 0x31 then .k23x
  else if 0x32 ≤ n ∧ n ≤ 0x37 then .k22t
  else if 0x38 ≤ n ∧ n ≤ 0x3d then .k21t
  else if 0x44 ≤ n ∧ n ≤ 0x51 then .k23x
  else if 0x52 ≤ n ∧ n ≤ 0x5f then .k22c
  else if 0x60 ≤ n ∧ n ≤ 0x6d then .k21c
  else if 0x6e ≤ n ∧ n ≤ 0x72 then .k35c
  else if 0x74 ≤ n ∧ n ≤ 0x78 then .k3rc
  else if 0x7b ≤ n ∧ n ≤ 0x8f then .k12x
  else if 0x90 ≤ n ∧ n ≤ 0xaf then .k23x
  else if 0xb0 ≤ n ∧ n ≤ 0xcf then .k12x
  else if 0xd0 ≤ n ∧ n ≤ 0xd7 then .k22s
  else if 0xd8 ≤ n ∧ n ≤ 0xe2 then .k22b
  else if n = 0xfa then .k45cc
  else if n = 0xfb then .k4rcc
  else .k10x

def Format.sizeInCodeUnits : Format → ℕ
  | k10x | k12x | k11n | k11x | k10t => 1
  | k20t | k22x | k21t | k21s | k21h | k21c | k23x | k22b | k22t | k22s | k22c => 2
  | k32x | k30t | k31t | k31i | k31c | k35c | k3rc => 3
  | k45cc | k4rcc => 4
  | k51l => 5

lemma Format.sizeInCodeUnits_pos (f : Format) : 0 < f.sizeInCodeUnits := by
  cases f <;> decide

/-- The instructions of a code item in memory: what `insns` gives outside of the first `insnsSize` code
    units is not part of the code item. The size of a dex file in bytes is a `uint32_t`, and
    `DexFileVerifier` checks that the instructions are inside the file. -/
structure CodeItem where
  /-- The address of the first code unit. -/
  insnsAddr : ℕ
  insns : ℤ → BitVec 16
  insnsSize : ℕ
  two_mul_insnsSize_lt : 2 * insnsSize < 2 ^ 32

namespace CodeItem

variable (c : CodeItem)

def kPackedSwitchSignature : BitVec 16 := 0x0100

def kSparseSwitchSignature : BitVec 16 := 0x0200

def kArrayDataSignature : BitVec 16 := 0x0300

/-- Two code units as a `uint32_t`. -/
def word (i : ℤ) : BitVec 32 := (c.insns i).setWidth 32 ||| ((c.insns (i + 1)).setWidth 32 <<< 16)

variable (pc : ℤ)

def opcode : BitVec 8 := (c.insns pc).setWidth 8

/-- The size in code units of an array-data table, computed in 32 bits. -/
def arrayDataSize (width : BitVec 16) (count : BitVec 32) : BitVec 32 :=
  4 + (width.setWidth 32 * count + 1) / 2

def sizeInCodeUnitsComplexOpcode : ℕ :=
  if c.insns pc = kPackedSwitchSignature then 4 + (c.insns (pc + 1)).toNat * 2
  else if c.insns pc = kSparseSwitchSignature then 2 + (c.insns (pc + 1)).toNat * 4
  else if c.insns pc = kArrayDataSignature then
    (arrayDataSize (c.insns (pc + 1)) (c.word (pc + 2))).toNat
  else 1

def codeUnitsRequiredForSizeOfComplexOpcode : ℕ :=
  if c.insns pc = kPackedSwitchSignature ∨ c.insns pc = kSparseSwitchSignature then 2
  else if c.insns pc = kArrayDataSignature then 4
  else 1

/-- `Instruction::SizeInCodeUnits`: only the size of `NOP` is negative in the descriptors. -/
def sizeInCodeUnits (pc : ℤ) : ℕ :=
  if c.opcode pc = 0 then c.sizeInCodeUnitsComplexOpcode pc
  else (formatOf (c.opcode pc)).sizeInCodeUnits

def codeUnitsRequiredForSizeComputation : ℕ :=
  if c.opcode pc = 0 then c.codeUnitsRequiredForSizeOfComplexOpcode pc else 1

/-- `SafeDexInstructionIterator`. -/
structure SafeIterator where
  dexPc : ℕ
  errorState : Bool := false

/-- `SafeDexInstructionIterator::operator++`. -/
def next (it : SafeIterator) : SafeIterator :=
  let available := c.insnsSize - it.dexPc
  if available < c.codeUnitsRequiredForSizeComputation it.dexPc then { it with errorState := true }
  else if available < c.sizeInCodeUnits it.dexPc then { it with errorState := true }
  else { it with dexPc := it.dexPc + c.sizeInCodeUnits it.dexPc }

/-- The state of the loop of `ComputeWidthsAndCountOps`: `stopped` after `break`. -/
structure Widths where
  it : SafeIterator
  stopped : Bool
  /-- Where `SetIsOpcode()` was called. -/
  opcodes : List ℕ

variable (s : Widths)

/-- One round of the loop. -/
def widthsStep : Widths :=
  if (c.next s.it).errorState then { s with stopped := true }
  else { s with it := c.next s.it, opcodes := s.it.dexPc :: s.opcodes }

/-- The condition of the loop. -/
def widthsCond : Bool := !s.stopped && !s.it.errorState && decide (s.it.dexPc < c.insnsSize)

/-- `MethodVerifier::ComputeWidthsAndCountOps`: the result, and where an opcode was marked. -/
def computeWidthsAndCountOps : Option (Bool × List ℕ) :=
  if c.insnsSize = 0 then some (false, [])
  else
    (Loop.whileM c.widthsCond (fun s => some (c.widthsStep s)) (c.insnsSize + 1)
      ⟨⟨0, false⟩, false, []⟩).map fun s => (decide (s.it.dexPc = c.insnsSize), s.opcodes)

/-! ## The sizes of instructions -/

lemma four_le_arrayDataSize (width : BitVec 16) (count : BitVec 32) :
    4 ≤ (arrayDataSize width count).toNat := by
  rw [arrayDataSize, BitVec.toNat_add, BitVec.toNat_udiv]
  change 4 ≤ (4 + (width.setWidth 32 * count + 1).toNat / 2) % 2 ^ 32
  omega

lemma sizeInCodeUnits_pos (pc : ℤ) : 0 < c.sizeInCodeUnits pc := by
  unfold sizeInCodeUnits
  split
  · unfold sizeInCodeUnitsComplexOpcode
    have h := four_le_arrayDataSize (c.insns (pc + 1)) (c.word (pc + 2))
    split_ifs <;> omega
  · exact Format.sizeInCodeUnits_pos _

/-! ## The loop -/

/-- What is marked as an opcode ends inside the code item. -/
structure Marked (s : Widths) : Prop where
  dexPc_le : s.it.dexPc ≤ c.insnsSize
  end_le : ∀ pc ∈ s.opcodes, pc + c.sizeInCodeUnits pc ≤ c.insnsSize

/-- The rounds that are left: each goes on to the next instruction or stops. -/
def roundsLeft : ℕ := if s.stopped then 0 else c.insnsSize + 1 - s.it.dexPc

variable {c}

lemma next_of_not_errorState {it : SafeIterator} (h : (c.next it).errorState = false) :
    c.sizeInCodeUnits it.dexPc ≤ c.insnsSize - it.dexPc ∧
      (c.next it).dexPc = it.dexPc + c.sizeInCodeUnits it.dexPc := by
  unfold next at h ⊢
  dsimp only at h ⊢
  split_ifs at h ⊢ with h1 h2
  exact ⟨Nat.le_of_not_lt h2, rfl⟩

lemma Marked.step {s : Widths} (hs : c.Marked s) (hcond : c.widthsCond s = true) :
    c.Marked (c.widthsStep s) ∧ c.roundsLeft (c.widthsStep s) < c.roundsLeft s := by
  simp only [widthsCond, Bool.and_eq_true, Bool.not_eq_true', decide_eq_true_eq] at hcond
  obtain ⟨⟨hstopped, -⟩, hlt⟩ := hcond
  have hpos := c.sizeInCodeUnits_pos s.it.dexPc
  have hleft : c.roundsLeft s = c.insnsSize + 1 - s.it.dexPc := by rw [roundsLeft, hstopped]; rfl
  cases herror : (c.next s.it).errorState with
  | true =>
    rw [widthsStep, if_pos herror]
    refine ⟨⟨hs.dexPc_le, hs.end_le⟩, ?_⟩
    rw [hleft, roundsLeft, if_pos rfl]
    omega
  | false =>
    obtain ⟨hle, hnext⟩ := next_of_not_errorState herror
    rw [widthsStep, if_neg (by rw [herror]; exact Bool.false_ne_true)]
    refine ⟨⟨by rw [hnext]; omega, ?_⟩, ?_⟩
    · intro pc hpc
      rcases List.mem_cons.mp hpc with rfl | hpc
      · omega
      · exact hs.end_le pc hpc
    · rw [hleft, roundsLeft, hstopped, if_neg Bool.false_ne_true, hnext]
      omega

variable (c)

/-- The loop ends, and what it marks as an opcode ends inside the code item. -/
lemma computeWidthsAndCountOps_spec : ∃ r, c.computeWidthsAndCountOps = some r ∧
    ∀ pc ∈ r.2, pc + c.sizeInCodeUnits pc ≤ c.insnsSize := by
  rw [computeWidthsAndCountOps]
  split
  · exact ⟨_, rfl, fun pc hpc => absurd hpc List.not_mem_nil⟩
  · have hstart : c.Marked ⟨⟨0, false⟩, false, []⟩ :=
      ⟨Nat.zero_le _, fun pc hpc => absurd hpc List.not_mem_nil⟩
    obtain ⟨s, hs, hmarked, -⟩ := Loop.whileM_rule c.widthsCond (fun s => some (c.widthsStep s))
      c.roundsLeft (fun s hs hcond => ⟨_, rfl, hs.step hcond⟩) hstart
      (le_refl (c.insnsSize + 1))
    exact ⟨_, by rw [hs, Option.map_some], hmarked.end_le⟩

end CodeItem

end Art
