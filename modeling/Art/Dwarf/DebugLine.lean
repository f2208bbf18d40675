import Mathlib.Algebra.Order.Ring.Int

/-!
# The debug line program

`DebugLineOpCodeWriter` of `libelffile/dwarf/debug_line_opcode_writer.h` knows the registers of a reader of
its opcodes and emits the differences. A row is split between standard opcodes, a constant advance and a
special opcode, which advances both address and line. The differences of lines fit in an `int`.
-/

namespace Art.DebugLine

/-- The opcodes with their operands. -/
inductive OpCode
  | copy
  | advancePc (delta : ℕ)
  | advanceLine (delta : ℤ)
  | setFile (file : BitVec 32)
  | negateStmt
  | constAddPc
  | setAddress (address : ℕ)
  | endSequence
  | special (opcode : ℤ)

structure Registers where
  address : ℕ
  file : BitVec 32
  line : ℤ
  isStmt : Bool
  deriving DecidableEq

def kOpcodeBase : ℤ := 13
def kDefaultIsStmt : Bool := false
def kLineBase : ℤ := -5
def kLineRange : ℤ := 14

def Registers.start : Registers := ⟨0, 1, 1, kDefaultIsStmt⟩

-- `code_factor_bits_` and `use_64bit_address_`
variable (bits : ℕ) (wide : Bool)

/-! ## The state machine -/

/-- The registers of a reader, and its rows with their `end_sequence` flags. -/
structure Reader where
  registers : Registers
  rows : List (Registers × Bool)
  deriving DecidableEq

namespace Reader

def advance (r : Reader) (units : ℕ) : Reader :=
  { r with registers.address := r.registers.address + 2 ^ bits * units }

def row (r : Reader) (endSequence : Bool) : Reader :=
  { r with rows := r.rows ++ [(r.registers, endSequence)] }

def exec (r : Reader) : OpCode → Reader
  | .copy => r.row false
  | .advancePc delta => r.advance bits delta
  | .advanceLine delta => { r with registers.line := r.registers.line + delta }
  | .setFile file => { r with registers.file := file }
  | .negateStmt => { r with registers.isStmt := !r.registers.isStmt }
  | .constAddPc => r.advance bits ((255 - kOpcodeBase) / kLineRange).toNat
  | .setAddress address => { r with registers.address := address }
  | .endSequence => { r.row true with registers := .start }
  | .special opcode =>
    -- a smaller byte is no special opcode
    if opcode < kOpcodeBase then r
    else
      let r := r.advance bits ((opcode - kOpcodeBase) / kLineRange).toNat
      let line := r.registers.line + (kLineBase + (opcode - kOpcodeBase) % kLineRange)
      ({ r with registers.line := line }).row false

end Reader

/-! ## The writer -/

inductive Call
  | setAddress (address : ℕ)
  | advancePC (address : ℕ)
  | advanceLine (line : ℤ)
  | setFile (file : BitVec 32)
  | setIsStmt (isStmt : Bool)
  | addRow
  | addRowAt (address : ℕ) (line : ℤ)
  | endSequence

namespace Registers

variable (c : Registers)

/-- `SetAddress`: what is emitted, and the registers afterwards. -/
def setAddress (address : ℕ) : List OpCode × Registers :=
  ([.setAddress (address % 2 ^ if wide then 64 else 32)], { c with address })

/-- `FactorCodeOffset`, for the distance to an address. -/
def factorCodeOffset (address : ℕ) : ℕ := (address - c.address) >>> bits

def advancePC (address : ℕ) : List OpCode × Registers :=
  if address ≠ c.address then
    if c.factorCodeOffset bits address ≤ 2 ^ 31 - 1 then
      ([.advancePc (c.factorCodeOffset bits address)], { c with address })
    else c.setAddress wide address
  else ([], c)

def advanceLine (line : ℤ) : List OpCode × Registers :=
  if line - c.line ≠ 0 then ([.advanceLine (line - c.line)], { c with line }) else ([], c)

/-- The address part of `AddRow`: the difference that is left after the long encoding of one that is
    definitely too far. -/
def nearAddress (address : ℕ) : (List OpCode × Registers) × ℕ :=
  if c.factorCodeOffset bits address > 255 then (c.advancePC bits wide address, 0)
  else (([], c), c.factorCodeOffset bits address)

/-- The line part. -/
def nearLine (line : ℤ) : (List OpCode × Registers) × ℤ :=
  let deltaLine := line - c.line
  if ¬(kLineBase ≤ deltaLine ∧ deltaLine < kLineBase + kLineRange) then (c.advanceLine line, 0)
  else (([], c), deltaLine)

/-- The special opcode, and what goes before it if the address is still too far. -/
def shortEncoding (address deltaAddress : ℕ) (deltaLine : ℤ) : List OpCode × ℤ :=
  let opcode := kOpcodeBase + (deltaLine - kLineBase) + deltaAddress * kLineRange
  if opcode > 255 then
    let constAdvance := (255 - kOpcodeBase) / kLineRange
    if opcode - kLineRange * constAdvance ≤ 255 then ([.constAddPc], opcode - kLineRange * constAdvance)
    else ((c.advancePC bits wide address).1, kOpcodeBase + (deltaLine - kLineBase))
  else ([], opcode)

/-- What a call emits, and the registers afterwards. -/
def call : Call → List OpCode × Registers
  | .setAddress address => c.setAddress wide address
  | .advancePC address => c.advancePC bits wide address
  | .advanceLine line => c.advanceLine line
  | .setFile file => if c.file ≠ file then ([.setFile file], { c with file }) else ([], c)
  | .setIsStmt isStmt => if c.isStmt ≠ isStmt then ([.negateStmt], { c with isStmt }) else ([], c)
  | .addRow => ([.copy], c)
  | .addRowAt address line =>
    let a := c.nearAddress bits wide address
    let l := a.1.2.nearLine line
    let short := l.1.2.shortEncoding bits wide address a.2 l.2
    (a.1.1 ++ l.1.1 ++ short.1 ++ [.special (short.2 % 256)], { c with address, line })
  | .endSequence => ([.endSequence], .start)

/-- The program of a sequence of calls. -/
def program : Registers → List Call → List OpCode
  | _, [] => []
  | c, x :: calls => (c.call bits wide x).1 ++ program (c.call bits wide x).2 calls

/-- Addresses do not decrease, differ by multiples of the code factor and fit in the chosen size. -/
def Reaches (address : ℕ) : Prop :=
  c.address ≤ address ∧ 2 ^ bits ∣ address - c.address ∧ address < 2 ^ if wide then 64 else 32

end Registers

/-- What a call asks for. -/
def Reader.request (r : Reader) : Call → Reader
  | .setAddress address | .advancePC address => { r with registers.address := address }
  | .advanceLine line => { r with registers.line := line }
  | .setFile file => { r with registers.file := file }
  | .setIsStmt isStmt => { r with registers.isStmt := isStmt }
  | .addRow => r.row false
  | .addRowAt address line => ({ r with registers.address := address, registers.line := line }).row false
  | .endSequence => { r.row true with registers := .start }

def Reader.Legal (r : Reader) : List Call → Prop
  | [] => True
  | x :: calls => (match x with
    | .setAddress address | .advancePC address | .addRowAt address _ => r.registers.Reaches bits wide address
    | _ => True) ∧ Legal (r.request x) calls

/-! ## The rows -/

/-- The reader gets from `r` to `r'` by what the writer emits. -/
def Emits (r : Reader) (out : List OpCode × Registers) (r' : Reader) : Prop :=
  out.1.foldl (Reader.exec bits) r = r' ∧ out.2 = r'.registers

variable {bits wide} {r : Reader} {address d : ℕ} {line : ℤ}

/-- The factored distance leads to the address. -/
lemma add_factorCodeOffset (h : r.registers.Reaches bits wide address) :
    r.registers.address + 2 ^ bits * r.registers.factorCodeOffset bits address = address := by
  rw [Registers.factorCodeOffset, Nat.shiftRight_eq_div_pow, Nat.mul_div_cancel' h.2.1,
    Nat.add_sub_cancel' h.1]

lemma emits_advancePC (h : r.registers.Reaches bits wide address) :
    Emits bits r (r.registers.advancePC bits wide address) (r.request (.advancePC address)) := by
  unfold Registers.advancePC
  split_ifs with hne hfar
  · refine ⟨?_, rfl⟩
    rw [List.foldl_cons, Reader.exec, Reader.advance, add_factorCodeOffset h]
    rfl
  · rw [Registers.setAddress, Nat.mod_eq_of_lt h.2.2]
    exact ⟨rfl, rfl⟩
  · obtain rfl := not_not.1 hne
    exact ⟨rfl, rfl⟩

lemma emits_advanceLine : Emits bits r (r.registers.advanceLine line) (r.request (.advanceLine line)) := by
  unfold Registers.advanceLine
  split_ifs with hne
  · refine ⟨?_, rfl⟩
    rw [List.foldl_cons, Reader.exec, add_sub_cancel]
    rfl
  · obtain rfl : line = r.registers.line := by omega
    exact ⟨rfl, rfl⟩

/-- A special opcode advances by what was encoded in it. -/
lemma exec_special {e : ℤ} (hd : r.registers.address + 2 ^ bits * d = address) (he : -5 ≤ e ∧ e < 9)
    (hle : 13 + (e - -5) + d * 14 ≤ 255) : r.exec bits (.special ((13 + (e - -5) + d * 14) % 256)) =
      r.request (.addRowAt address (r.registers.line + e)) := by
  have hunits : ((13 + (e - -5) + d * 14 - 13) / 14).toNat = d := by omega
  have hline : -5 + (13 + (e - -5) + d * 14 - 13) % 14 = e := by omega
  rw [Int.emod_eq_of_lt (by omega) (by omega), Reader.exec, kOpcodeBase, if_neg (by omega)]
  simp only [kLineBase, kLineRange, hunits, hline, Reader.advance, hd]
  rfl

variable (h : r.registers.Reaches bits wide address) (hd : r.registers.address + 2 ^ bits * d = address)
include h hd

lemma exec_shortEncoding {e : ℤ} (he : -5 ≤ e ∧ e < 9) :
    let short := r.registers.shortEncoding bits wide address d e
    (short.1 ++ [OpCode.special (short.2 % 256)]).foldl (Reader.exec bits) r =
      r.request (.addRowAt address (r.registers.line + e)) := by
  unfold Registers.shortEncoding kOpcodeBase kLineBase kLineRange
  dsimp only
  split_ifs with hlarge hconst
  · -- the constant advance is by 17 units
    have hopcode : 13 + (e - -5) + d * 14 - 14 * ((255 - 13) / 14) = 13 + (e - -5) + (d - 17 : ℕ) * 14 := by
      omega
    rw [hopcode]
    refine exec_special (r := r.advance bits 17) ?_ he (by omega)
    rw [← hd, Reader.advance, Nat.add_assoc, ← Nat.mul_add, Nat.add_sub_of_le (by omega)]
  · rw [List.foldl_append, (emits_advancePC h).1, ← add_zero (13 + (e - -5))]
    exact exec_special (r := r.request _) (d := 0) rfl he (by omega)
  · exact exec_special hd he (not_lt.1 hlarge)

lemma exec_nearLine :
    let l := r.registers.nearLine line
    let short := l.1.2.shortEncoding bits wide address d l.2
    (l.1.1 ++ short.1 ++ [OpCode.special (short.2 % 256)]).foldl (Reader.exec bits) r =
      r.request (.addRowAt address line) := by
  unfold Registers.nearLine
  dsimp only
  rw [List.append_assoc]
  split_ifs with hnear
  · have hshort := exec_shortEncoding h hd hnear
    rwa [add_sub_cancel] at hshort
  · have hl : Emits bits r (r.registers.advanceLine line) _ := emits_advanceLine
    rw [List.foldl_append, hl.1, hl.2]
    have hshort := exec_shortEncoding (r := r.request (.advanceLine line)) h hd (e := 0) (by decide)
    rwa [add_zero] at hshort

omit hd

lemma emits_addRowAt : Emits bits r (r.registers.call bits wide (.addRowAt address line))
    (r.request (.addRowAt address line)) := by
  refine ⟨?_, rfl⟩
  rw [Registers.call, Registers.nearAddress]
  rw [List.append_assoc, List.append_assoc, ← List.append_assoc (_ : List OpCode) _ [_]]
  split_ifs
  · rw [List.foldl_append, (emits_advancePC h).1, (emits_advancePC h).2]
    exact exec_nearLine (r := r.request _) ⟨le_rfl, ⟨0, Nat.sub_self address⟩, h.2.2⟩ rfl
  · exact exec_nearLine h (add_factorCodeOffset h)

omit h

/-- The program of any legal calls makes a reader emit the rows that they ask for. -/
theorem exec_program {calls : List Call} (h : r.Legal bits wide calls) :
    (r.registers.program bits wide calls).foldl (Reader.exec bits) r = calls.foldl Reader.request r := by
  induction calls generalizing r with
  | nil => rfl
  | cons x calls ih =>
    have hx : Emits bits r (r.registers.call bits wide x) (r.request x) := by
      have hlegal := h.1
      cases x with
      | setAddress address =>
        rw [Registers.call, Registers.setAddress, Nat.mod_eq_of_lt hlegal.2.2]
        exact ⟨rfl, rfl⟩
      | advancePC address => exact emits_advancePC hlegal
      | advanceLine line => exact emits_advanceLine
      | setFile file =>
        rw [Registers.call]
        split_ifs with hne
        · exact ⟨rfl, rfl⟩
        · obtain rfl := not_not.1 hne
          exact ⟨rfl, rfl⟩
      | setIsStmt isStmt =>
        rw [Registers.call]
        split_ifs with hne
        · refine ⟨?_, rfl⟩
          rw [List.foldl_cons, Reader.exec, Bool.eq_not.2 hne, Bool.not_not]
          rfl
        · obtain rfl := not_not.1 hne
          exact ⟨rfl, rfl⟩
      | addRowAt address line => exact emits_addRowAt hlegal
      | addRow | endSequence => exact ⟨rfl, rfl⟩
    rw [Registers.program, List.foldl_append, hx.1, hx.2]
    exact ih h.2

/-- A row at 4096, one far behind it and the end of the sequence. -/
theorem exec_program_twoRows :
    let calls := [.setAddress 4096, .addRowAt 4096 3, .addRowAt 4200 1000, .endSequence]
    (Registers.start.program 2 true calls).foldl (Reader.exec 2) ⟨.start, []⟩ =
      ⟨.start, [(⟨4096, 1, 3, false⟩, false), (⟨4200, 1, 1000, false⟩, false),
        (⟨4200, 1, 1000, false⟩, true)]⟩ :=
  exec_program (r := ⟨.start, []⟩)
    (by simp [Reader.Legal, Registers.Reaches, Reader.request, Registers.start, Reader.row])

end Art.DebugLine
