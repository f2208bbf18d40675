import Art.BoundsCheck.Narrow

/-!
# Dominator-based deoptimization

Bounds checks against one array length whose indexes differ by constants are
replaced together: two unsigned comparisons on the least and the greatest index
are put before the first of them, and the code is left for the interpreter when
one of them holds.
-/

namespace Art.BoundsCheckElimination

open List ValueBound

open BitVec (ofInt toNat_add toNat_ofNat ofInt zero_add)
open HInstruction (add eval)

/-- `AsValueBound`: any instruction as a base and a constant. -/
def ValueBound.asValueBound (instruction : HInstruction) : ValueBound :=
  match instruction with
  | .intConstant c => make none c.toInt
  | i =>
    match isAddOrSubAConstant i with
    | some (left, right) => make (some left) right
    | none => make (some i) 0

/-- A bounds check, with the id of the block it is in. -/
structure HBoundsCheck where
  id : Nat
  index : HInstruction
  arrayLength : HInstruction
  block : Nat
  deriving DecidableEq, Repr

/-- A user of an array length. -/
inductive HUser
  | boundsCheck (check : HBoundsCheck)
  | other (id : Nat)
  deriving DecidableEq, Repr

/-- What the loop over the uses of an array length has collected so far. -/
structure Collected where
  minC : Int
  maxC : Int
  candidates : List HBoundsCheck
  standby : List HBoundsCheck
  deriving DecidableEq, Repr

/-- An `HDeoptimize` on an unsigned comparison. -/
structure HDeoptimize where
  cond : IfCondition
  left : HInstruction
  right : HInstruction
  deriving DecidableEq, Repr

/-- The comparison holds, and execution goes on in the interpreter. -/
def HDeoptimize.fires (env : Env) (d : HDeoptimize) : Bool := d.cond.test (d.left.eval env) (d.right.eval env)

/-- The comparisons inserted for one array length, and the checks replaced. -/
structure Replacement where
  arrayLength : HInstruction
  deoptimizations : List HDeoptimize
  replaced : List HBoundsCheck
  deriving DecidableEq, Repr

def kThresholdForAddingDeoptimize : Nat := 2

/-- A set of checks with a base takes an extra test. -/
def deoptimizeThreshold (base : Option HInstruction) : Nat :=
  kThresholdForAddingDeoptimize + if base.isNone then 0 else 1

def kMaxLengthForAddingDeoptimize : Int := kMaxInt - 1024 * 1024

/-- `AddCompareWithDeoptimization`, where `id` is the first id that is not in use. -/
def addCompareWithDeoptimization (id : Nat) (arrayLength : HInstruction)
    (base : Option HInstruction) (minC maxC : Int) : List HDeoptimize :=
  match base with
  | none => [⟨.ae, .intConstant (ofInt 32 maxC), arrayLength⟩]
  | some base =>
    let lower := add id base (.intConstant (ofInt 32 minC))
    let upper := add (id + 1) base (.intConstant (ofInt 32 maxC))
    [⟨.a, lower, upper⟩, ⟨.ae, upper, arrayLength⟩]

section

-- `HBasicBlock::Dominates` and the exit block of the graph.
variable (dominates : Nat → Nat → Bool) (exit : Nat)

/-- The loop over the uses of the array length of `first`, the first bounds check against it in `block`.
    An index that is the array length itself ends it with nothing collected. -/
def collect (block : Nat) (first : HBoundsCheck) (c : Collected) : List HUser → Collected
  | [] => c
  | .other _ :: uses => collect block first c uses
  | .boundsCheck check :: uses =>
    let value := asValueBound check.index
    if dominates block check.block && decide (first.arrayLength = check.arrayLength) &&
        decide ((asValueBound first.index).instruction = value.instruction) then
      if first.arrayLength = check.index then ⟨c.minC, c.maxC, [], []⟩
      else if block = check.block || (dominates block exit && dominates check.block exit) then
        collect block first ⟨min c.minC value.constant, max c.maxC value.constant,
          c.candidates ++ [check], c.standby⟩ uses
      else collect block first ⟨c.minC, c.maxC, c.candidates, c.standby ++ [check]⟩ uses
    else collect block first c uses

/-- What is known before the loop: a set of constant indexes starts at zero. -/
def initialCollected (first : HBoundsCheck) : Collected :=
  let value := asValueBound first.index
  ⟨if value.instruction.isNone then 0 else value.constant, value.constant, [], []⟩

/-- The candidates together with those on standby that fall into the range. -/
def Collected.selected (c : Collected) : List HBoundsCheck :=
  c.candidates ++ c.standby.filter fun check =>
    let otherC := (asValueBound check.index).constant
    decide (c.minC ≤ otherC) && decide (otherC ≤ c.maxC)

/-- The body of `AddComparesWithDeoptimization` for the first bounds check against
    an array length in `block` and the users of that length. -/
def addComparesForFirst (id block : Nat) (first : HBoundsCheck) (uses : List HUser) : Option Replacement :=
  if first.arrayLength.isArrayLength then
    let base := (asValueBound first.index).instruction
    let c := collect dominates exit block first (initialCollected first) uses
    let distance := (c.maxC - c.minC) % 2 ^ 32
    if deoptimizeThreshold base ≤ c.selected.length ∧ (base.isSome ∨ 0 ≤ c.minC) ∧
        distance ≤ kMaxLengthForAddingDeoptimize then
      some ⟨first.arrayLength, addCompareWithDeoptimization id first.arrayLength base c.minC c.maxC,
        c.selected⟩
    else none
  else none

/-- `AddComparesWithDeoptimization` for a block, whose first bounds checks are
    given with the users of their array lengths and unused ids. -/
def addComparesWithDeoptimization (block : Nat) (entries : List (Nat × HBoundsCheck × List HUser)) :
    List Replacement :=
  entries.filterMap fun (id, first, uses) =>
    addComparesForFirst dominates exit id block first uses

end

/-! ## Indexes as a base and a constant -/

namespace ValueBound

/-- A bound stands for the sum of its instruction and its constant, which wraps around. -/
structure Decomposes (env : Env) (b : ValueBound) (x : BitVec 32) : Prop where
  eval_eq : x = (b.instruction.map fun i => i.eval env).getD 0#32 + ofInt 32 b.constant
  bounds : kMinInt ≤ b.constant ∧ b.constant ≤ kMaxInt

lemma decomposes_make (env : Env) (i : Option HInstruction) {c : Int} (hc : kMinInt ≤ c ∧ c ≤ kMaxInt) :
    (make i c).Decomposes env ((i.map fun i => i.eval env).getD 0#32 + ofInt 32 c) := by
  fun_cases make i c with
  | case1 v hover => exact ⟨rfl, hc⟩
  | case2 v hover =>
    refine ⟨?_, bounds_of_not_wouldAdd (by simpa using hover) (toInt_bounds v)⟩
    simp [eval, BitVec.ofInt_add, BitVec.ofInt_toInt]
  | case3 i hi => exact ⟨rfl, hc⟩

/-- The decomposition keeps the value of the index. -/
lemma decomposes_asValueBound (env : Env) (i : HInstruction) :
    (asValueBound i).Decomposes env (i.eval env) := by
  by_cases hconst : ∃ c, i = .intConstant c
  · obtain ⟨c, rfl⟩ := hconst
    rw [asValueBound]
    simpa [BitVec.ofInt_toInt, eval] using decomposes_make env none (toInt_bounds c)
  · have hbound : asValueBound i = match isAddOrSubAConstant i with
        | some (left, right) => make (some left) right
        | none => make (some i) 0 := by
      cases i with
      | intConstant c => exact absurd ⟨c, rfl⟩ hconst
      | _ => rfl
    rw [hbound]
    cases hadd : isAddOrSubAConstant i with
    | some sum =>
      obtain ⟨left, right⟩ := sum
      rw [isAddOrSubAConstant] at hadd
      split_ifs at hadd
      obtain ⟨heval, hbounds, -, -⟩ := addOrSubLoop_spec env (i := i) (c := 0) (by decide)
      rw [Option.some.inj hadd] at heval hbounds
      have heval : i.eval env = left.eval env + ofInt 32 right := by simpa using heval
      rw [heval]
      exact decomposes_make env (some left) hbounds
    | none => simpa using decomposes_make env (some i) (c := 0) (by decide)

end ValueBound

/-! ## The selection -/

/-- The check is against the same array length and its index has the same base. -/
structure HBoundsCheck.Related (first check : HBoundsCheck) : Prop where
  arrayLength : check.arrayLength = first.arrayLength
  base : (asValueBound check.index).instruction = (asValueBound first.index).instruction

/-- The range covers the constants of the candidates. -/
structure Collected.Covers (first : HBoundsCheck) (c : Collected) : Prop where
  related : ∀ check ∈ c.candidates ++ c.standby, first.Related check
  inRange : ∀ check ∈ c.candidates, c.minC ≤ (asValueBound check.index).constant ∧
    (asValueBound check.index).constant ≤ c.maxC
  bounds : kMinInt ≤ c.minC ∧ c.maxC ≤ kMaxInt

namespace Collected.Covers

variable {first : HBoundsCheck} {c : Collected}

lemma initial (first : HBoundsCheck) : (initialCollected first).Covers first where
  related := by simp [initialCollected]
  inRange := by simp [initialCollected]
  bounds := by
    have hbounds := (decomposes_asValueBound ⟨fun _ => 0#32, fun _ => 0#32, 0#32⟩
      first.index).bounds
    have hzero : kMinInt ≤ 0 := by decide
    dsimp only [initialCollected]
    split_ifs <;> omega

variable {check : HBoundsCheck}

/-- A check that is on every path widens the range. -/
lemma addCandidate (h : c.Covers first) (hcheck : first.Related check) :
    Covers first ⟨min c.minC (asValueBound check.index).constant,
      max c.maxC (asValueBound check.index).constant, c.candidates ++ [check],
      c.standby⟩ where
  related := by
    intro other hother
    simp only [mem_append, mem_singleton] at hother
    rcases hother with (hother | rfl) | hother
    · exact h.related other (mem_append_left _ hother)
    · exact hcheck
    · exact h.related other (mem_append_right _ hother)
  inRange := by
    intro other hother
    rcases mem_append.1 hother with hother | hother
    · have hrange := h.inRange other hother
      dsimp only
      omega
    · obtain rfl := mem_singleton.1 hother
      exact ⟨min_le_right _ _, le_max_right _ _⟩
  bounds := by
    have hbounds := (decomposes_asValueBound ⟨fun _ => 0#32, fun _ => 0#32, 0#32⟩
      check.index).bounds
    have hc := h.bounds
    dsimp only
    omega

lemma addStandby (h : c.Covers first) (hcheck : first.Related check) :
    Covers first ⟨c.minC, c.maxC, c.candidates, c.standby ++ [check]⟩ where
  related := by
    intro other hother
    rw [← append_assoc, mem_append, mem_singleton] at hother
    rcases hother with hother | rfl
    · exact h.related other hother
    · exact hcheck
  inRange := h.inRange
  bounds := h.bounds

/-- The loop over the uses keeps the range wide enough. -/
lemma collect (dominates : Nat → Nat → Bool) (exit block : Nat) (h : c.Covers first)
    (uses : List HUser) : (collect dominates exit block first c uses).Covers first := by
  fun_induction BoundsCheckElimination.collect dominates exit block first c uses with
  | case1 c => exact h
  | case2 c _ uses ih => exact ih h
  | case3 c check uses value hsame hcertain => exact ⟨by simp, by simp, h.bounds⟩
  | case4 c check uses value hsame hindex hpath ih =>
    simp only [Bool.and_eq_true, decide_eq_true_eq] at hsame
    exact ih (h.addCandidate ⟨hsame.1.2.symm, hsame.2.symm⟩)
  | case5 c check uses value hsame hindex hpath ih =>
    simp only [Bool.and_eq_true, decide_eq_true_eq] at hsame
    exact ih (h.addStandby ⟨hsame.1.2.symm, hsame.2.symm⟩)
  | case6 c check uses value hother ih => exact ih h

/-- What is on standby is selected only inside the range. -/
lemma selected (h : c.Covers first) (hcheck : check ∈ c.selected) :
    first.Related check ∧ c.minC ≤ (asValueBound check.index).constant ∧
      (asValueBound check.index).constant ≤ c.maxC := by
  rcases mem_append.1 hcheck with hcheck | hcheck
  · exact ⟨h.related check (mem_append_left _ hcheck), h.inRange check hcheck⟩
  · rw [mem_filter, Bool.and_eq_true, decide_eq_true_eq, decide_eq_true_eq] at hcheck
    exact ⟨h.related check (mem_append_right _ hcheck.1), hcheck.2⟩

end Collected.Covers

/-! ## The comparisons -/

variable {minC maxC c : Int}

/-- Where the least index is not above the greatest one, none in between wraps around. -/
lemma toNat_add_le_of_between {base : BitVec 32} (hmin : kMinInt ≤ minC) (hmax : maxC ≤ kMaxInt)
    (hc : minC ≤ c ∧ c ≤ maxC)
    (hle : (base + ofInt 32 minC).toNat ≤ (base + ofInt 32 maxC).toNat) :
    (base + ofInt 32 c).toNat ≤ (base + ofInt 32 maxC).toNat := by
  -- Every index is the least one and a natural number below `2 ^ 32`.
  have hsum (z : Int) (hz : minC ≤ z) : base + ofInt 32 z =
      base + ofInt 32 minC + BitVec.ofNat 32 (z - minC).toNat := by
    have hz : z = minC + ((z - minC).toNat : Int) := by omega
    conv_lhs => rw [hz, BitVec.ofInt_add, BitVec.ofInt_natCast, ← BitVec.add_assoc]
  rw [hsum c hc.1]
  rw [hsum maxC (hc.1.trans hc.2)] at hle ⊢
  have hwidth : (maxC - minC).toNat < 2 ^ 32 := by
    norm_num [kMinInt, kMaxInt] at hmin hmax
    omega
  generalize base + ofInt 32 minC = low at hle ⊢
  rw [toNat_add, toNat_ofNat] at hle
  rw [toNat_add, toNat_ofNat, toNat_add, toNat_ofNat]
  omega

variable {x : BitVec 32}

lemma toInt_of_toNat_lt {n : BitVec 32} (hn : 0 ≤ n.toInt) (h : x.toNat < n.toNat) :
    0 ≤ x.toInt ∧ x.toInt < n.toInt := by
  rw [BitVec.toInt_eq_toNat_cond] at hn ⊢
  rw [BitVec.toInt_eq_toNat_cond]
  split_ifs at hn ⊢ <;> omega

/-- The comparisons inserted for a range of constants guard every index in it. -/
lemma index_lt_of_not_fires {env : Env} {id : Nat} {arrayLength : HInstruction}
    {base : Option HInstruction} (hlength : 0 ≤ (arrayLength.eval env).toInt)
    (hmin : kMinInt ≤ minC) (hmax : maxC ≤ kMaxInt) (hbase : base.isSome ∨ 0 ≤ minC)
    (hc : minC ≤ c ∧ c ≤ maxC)
    (hx : x = (base.map fun i => i.eval env).getD 0#32 + ofInt 32 c)
    (hfires : ∀ d ∈ addCompareWithDeoptimization id arrayLength base minC maxC, d.fires env = false) :
    0 ≤ x.toInt ∧ x.toInt < (arrayLength.eval env).toInt := by
  refine toInt_of_toNat_lt hlength ?_
  cases base with
  | none =>
    have hupper := hfires ⟨.ae, _, arrayLength⟩ (mem_singleton.2 rfl)
    have hupper : ¬ (arrayLength.eval env).toNat ≤ (ofInt 32 maxC).toNat := of_decide_eq_false hupper
    -- Without a base the range starts at zero at the least.
    have hzero : 0 ≤ minC := by simpa using hbase
    have hle : (0#32 + ofInt 32 c).toNat ≤ (0#32 + ofInt 32 maxC).toNat :=
      toNat_add_le_of_between (show kMinInt ≤ 0 by decide) hmax ⟨hzero.trans hc.1, hc.2⟩ (by simp)
    simp only [Option.map_none, Option.getD_none] at hx
    rw [zero_add, zero_add] at hle
    rw [hx, zero_add]
    omega
  | some base =>
    have hlower := hfires ⟨.a, _, _⟩ mem_cons_self
    have hupper := hfires ⟨.ae, _, arrayLength⟩ (mem_cons_of_mem _ (mem_singleton.2 rfl))
    have hlower : ¬ (base.eval env + ofInt 32 maxC).toNat <
        (base.eval env + ofInt 32 minC).toNat := of_decide_eq_false hlower
    have hupper : ¬ (arrayLength.eval env).toNat ≤
        (base.eval env + ofInt 32 maxC).toNat := of_decide_eq_false hupper
    have hle := toNat_add_le_of_between hmin hmax hc (not_lt.1 hlower)
    simp only [Option.map_some, Option.getD_some] at hx
    rw [hx]
    omega

/-- When none of the comparisons inserted in a block holds, the index of every
    bounds check that was replaced is in bounds. -/
theorem index_lt_of_not_deoptimized {dominates : Nat → Nat → Bool} {exit block : Nat}
    {entries : List (Nat × HBoundsCheck × List HUser)} {r : Replacement}
    (hr : r ∈ addComparesWithDeoptimization dominates exit block entries) {env : Env}
    (hlength : 0 ≤ (r.arrayLength.eval env).toInt)
    (hfires : ∀ d ∈ r.deoptimizations, d.fires env = false) :
    ∀ check ∈ r.replaced, 0 ≤ (check.index.eval env).toInt ∧
      (check.index.eval env).toInt < (check.arrayLength.eval env).toInt := by
  intro check hcheck
  obtain ⟨⟨id, first, uses⟩, -, hfirst⟩ := List.mem_filterMap.1 hr
  simp only [addComparesForFirst] at hfirst
  split_ifs at hfirst with hkind hselect
  cases hfirst
  have hcovers := (Collected.Covers.initial first).collect dominates exit block uses
  obtain ⟨hrelated, hrange⟩ := hcovers.selected hcheck
  have hindex := (ValueBound.decomposes_asValueBound env check.index).eval_eq
  rw [hrelated.base] at hindex
  rw [hrelated.arrayLength]
  exact index_lt_of_not_fires hlength hcovers.bounds.1 hcovers.bounds.2 hselect.2.1 hrange hindex hfires

/-! ## Three neighbours -/

/-- The length of an array from before the loop. -/
def someLength : HInstruction := .arrayLength 0 (.value 1 false)

/-- The check of `a[i + c]`, in the block with id 0. -/
def neighbourCheck (id : Nat) (c : Int) : HBoundsCheck :=
  ⟨id, .add (10 + id) (.value 2 false) (.intConstant (ofInt 32 c)), someLength, 0⟩

/-- The accesses `a[i - 1]`, `a[i + 1]` and `a[i + 2]` in one block. -/
def neighbours : List (Nat × HBoundsCheck × List HUser) :=
  [(30, neighbourCheck 3 (-1), [.boundsCheck (neighbourCheck 3 (-1)),
    .boundsCheck (neighbourCheck 4 1), .other 6, .boundsCheck (neighbourCheck 5 2)])]

/-- The replacement for the three accesses. -/
def neighboursReplacement : Replacement where
  arrayLength := someLength
  deoptimizations := addCompareWithDeoptimization 30 someLength (some (.value 2 false)) (-1) 2
  replaced := [neighbourCheck 3 (-1), neighbourCheck 4 1, neighbourCheck 5 2]

/-- An array of ten elements, with `i = 5`. -/
def neighboursEnv : Env where
  inside _ := 0#32
  outside id := if id = 1 then 10#32 else 5#32
  phi := 0#32

/-- For `i = 5` and an array of ten elements no comparison holds, and the last of the three accesses is in
    the array. -/
theorem index_lt_neighbours : neighbourCheck 5 2 ∈ neighboursReplacement.replaced ∧
      0 ≤ ((neighbourCheck 5 2).index.eval neighboursEnv).toInt ∧
      ((neighbourCheck 5 2).index.eval neighboursEnv).toInt <
        ((neighbourCheck 5 2).arrayLength.eval neighboursEnv).toInt :=
  have hmem : neighboursReplacement ∈
      addComparesWithDeoptimization (fun _ _ => true) 1 0 neighbours := by decide
  have hcheck : neighbourCheck 5 2 ∈ neighboursReplacement.replaced := by decide
  ⟨hcheck, index_lt_of_not_deoptimized hmem (by decide) (by decide) _ hcheck⟩

end Art.BoundsCheckElimination
