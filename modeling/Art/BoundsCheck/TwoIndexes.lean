import Art.BoundsCheck.NewArray

/-!
# Two indexes that run towards each other

A comparison of an index `l` that grows by one with an index `r` that shrinks by one, in the header of
the loop of `l`; `r` belongs to the same loop or to one around it. On the edge along which `l` is below
`r`, both get plain ranges from the start of the other one. This rests on neither of them having wrapped
around. Where the other edge stays in the loop nothing stops them, and an index of a loop around is
not compared at each of its own steps.
-/

namespace Art.BoundsCheckElimination

open ValueBound MonotonicValueRange Option

open BitVec (ofInt ofInt_add)

/-! ## The ranges that are assigned -/

/-- The edge of a comparison on which the two indexes get new ranges, and these. -/
structure TwoRanges where
  edge : Bool
  left : Option RangeInfo
  right : Option RangeInfo
  deriving DecidableEq, Repr

/-- The new ranges on an edge, after `ApplyRangeFromComparison`: an index of another loop keeps its
    range. -/
def applyToBoth (edge : Bool) (leftCompensation rightCompensation : Int) (rightInHeader : Bool)
    (left right : MonotonicValueRange) : TwoRanges where
  edge
  left := (right.bound.add leftCompensation).map fun upper => left.narrow ⟨left.bound, upper⟩
  right := (left.bound.add rightCompensation).bind fun lower =>
    if rightInHeader then some (right.narrow ⟨lower, right.bound⟩) else none

/-- The successor on which ranges are assigned, and the right compensation; the left one is its
    opposite. For `==` and `!=` the indexes can cross and miss each other. -/
def successorAndCompensation : IfCondition → Option (Bool × Int)
  | .lt => some (true, 1)
  | .le => some (true, 0)
  | .gt => some (false, 0)
  | .ge => some (false, 1)
  | _ => none

/-- `HandleIfBetweenTwoMonotonicValueRanges`, where it is known whether the comparison is in the header
    of the loop of each index. -/
def handleIfBetweenTwoMonotonicValueRanges (leftInHeader rightInHeader : Bool) (cond : IfCondition)
    (left right : MonotonicValueRange) : Option TwoRanges :=
  if !leftInHeader then none
  else if left.increment = 1 ∧ left.bound.isConstant ∧ right.increment = -1 ∧
      right.bound.isRelatedToArrayLength ∧ right.bound.constant < 0 then
    (successorAndCompensation cond).map fun (edge, compensation) =>
      applyToBoth edge (-compensation) compensation rightInHeader left right
  else none

variable {cond : IfCondition}

/-- The indexes are a compensation apart on the edge. -/
lemma le_of_successorAndCompensation {edge : Bool} {c : Int}
    (h : successorAndCompensation cond = some (edge, c)) :
    (c = 0 ∨ c = 1) ∧ ∀ x y : BitVec 32, cond.test x y = edge → x.toInt + c ≤ y.toInt := by
  cases cond with
  | lt | le | gt | ge =>
    cases h
    refine ⟨by decide, fun x y hxy => ?_⟩
    simp only [IfCondition.test, ← Bool.not_eq_true, BitVec.slt_iff_toInt_lt, BitVec.sle_iff_toInt_le] at hxy
    omega
  | _ => cases h

/-- What is known of the indexes where ranges are assigned. -/
structure Towards (left right : MonotonicValueRange) : Prop where
  left_increment : left.increment = 1
  left_isConstant : left.bound.isConstant = true
  right_increment : right.increment = -1
  right_isRelated : right.bound.isRelatedToArrayLength = true
  right_neg : right.bound.constant < 0

lemma exists_of_handleIfBetween {rightInHeader : Bool} {left right : MonotonicValueRange}
    {ranges : TwoRanges}
    (h : handleIfBetweenTwoMonotonicValueRanges true rightInHeader cond left right = some ranges) :
    Towards left right ∧ ∃ c : Int, (c = 0 ∨ c = 1) ∧
      ranges = applyToBoth ranges.edge (-c) c rightInHeader left right ∧
      ∀ x y : BitVec 32, cond.test x y = ranges.edge → x.toInt + c ≤ y.toInt := by
  rw [handleIfBetweenTwoMonotonicValueRanges] at h
  by_cases htowards : left.increment = 1 ∧ left.bound.isConstant ∧ right.increment = -1 ∧
      right.bound.isRelatedToArrayLength ∧ right.bound.constant < 0
  · rw [if_pos htowards] at h
    obtain ⟨⟨edge, c⟩, hcond, rfl⟩ := map_eq_some_iff.1 h
    obtain ⟨hc, hle⟩ := le_of_successorAndCompensation hcond
    obtain ⟨h1, h2, h3, h4, h5⟩ := htowards
    exact ⟨⟨h1, h2, h3, h4, h5⟩, c, hc, rfl, hle⟩
  · rw [if_neg htowards] at h
    cases h

/-! ## Runs -/

/-- A comparison of two indexes in the header of the loop of the first one, and the values of one
    execution. -/
structure TwoIndexRun where
  left : MonotonicValueRange
  right : MonotonicValueRange
  /-- Whether the second index belongs to the same loop, or to one around it. -/
  rightInHeader : Bool
  cond : IfCondition
  /-- Whether the successor along an edge is in the loop of the first index. -/
  stays : Bool → Bool
  /-- The values from before both loops. -/
  env : Env

namespace TwoIndexRun

/-- What the analysis may rely on: the second index starts below its bound, and the bound of the first
    one is an `int`. -/
structure Valid (R : TwoIndexRun) : Prop where
  right_boundSound : R.right.BoundSound R.env
  left_isInt : kMinInt ≤ R.left.bound.constant

/-- The edge that is taken. -/
def edge (R : TwoIndexRun) (l r : BitVec 32) : Bool := R.cond.test l r

/-- The values of the second index where the loop of the first one is entered, if every step in between
    meets `ok`. -/
inductive Entered (R : TwoIndexRun) (ok : BitVec 32 → Prop) : BitVec 32 → Prop
  | first : Entered R ok (R.right.initial.eval R.env)
  | next {r : BitVec 32} : R.rightInHeader = false → Entered R ok r → ok r →
      Entered R ok (r + ofInt 32 R.right.increment)

/-- The visits of the header, where the steps back to the header meet `ok` and those of a loop around
    meet `okAround`. The first index starts from a number that its bound allows. -/
inductive Visit (R : TwoIndexRun) (ok : BitVec 32 → BitVec 32 → Prop) (okAround : BitVec 32 → Prop) :
    BitVec 32 → BitVec 32 → Prop
  | enter {l r : BitVec 32} : R.Entered okAround r → R.left.bound.constant ≤ l.toInt → Visit R ok okAround l r
  | next {l r : BitVec 32} : Visit R ok okAround l r → R.stays (R.edge l r) = true → ok l r →
      Visit R ok okAround (l + ofInt 32 R.left.increment)
        (if R.rightInHeader then r + ofInt 32 R.right.increment else r)

end TwoIndexRun

/-- The next number does not wrap around. -/
def MonotonicValueRange.NoWrap (m : MonotonicValueRange) (x : BitVec 32) : Prop :=
  kMinInt ≤ x.toInt + m.increment ∧ x.toInt + m.increment ≤ kMaxInt

lemma MonotonicValueRange.NoWrap.toInt_add {m : MonotonicValueRange} {x : BitVec 32}
    (h : m.NoWrap x) : (x + ofInt 32 m.increment).toInt = x.toInt + m.increment := by
  rw [ofInt_toInt_add, toInt_ofInt_of_bounds h.1 h.2]

namespace TwoIndexRun

/-- A step along the edge, or one at which no index wraps around. -/
def StepOk (R : TwoIndexRun) (edge : Bool) (l r : BitVec 32) : Prop :=
  R.edge l r = edge ∨ R.left.NoWrap l ∧ (R.rightInHeader = true → R.right.NoWrap r)

variable {l r : BitVec 32} {left right : MonotonicValueRange} {edge : Bool}

/-! ## The ranges hold -/

section Holds

variable {R : TwoIndexRun} (htowards : Towards R.left R.right) (hbound : R.right.BoundSound R.env)

include htowards hbound

/-- Before a wrap around, the second index is at most where it started. -/
lemma Entered.le_bound (h : R.Entered R.right.NoWrap r) : r.toInt ≤ R.right.bound.value R.env := by
  have hinc := htowards.right_increment
  induction h with
  | first => exact hbound.le_upper (by omega)
  | next _ _ hok ih =>
    rw [hok.toInt_add]
    omega

/-- Before a wrap around, the indexes are on their sides of where they started. -/
lemma Visit.bounds {edge : Bool} (hedge : ∀ l r, R.edge l r = edge → R.left.bound.constant ≤ l.toInt →
      r.toInt ≤ R.right.bound.value R.env → R.left.NoWrap l ∧ R.right.NoWrap r)
    (h : R.Visit (R.StepOk edge) R.right.NoWrap l r) :
    R.left.bound.constant ≤ l.toInt ∧ r.toInt ≤ R.right.bound.value R.env := by
  have hleft := htowards.left_increment
  have hright := htowards.right_increment
  induction h with
  | enter hentered hl => exact ⟨hl, hentered.le_bound htowards hbound⟩
  | @next l r _ _ hok ih =>
    have hwrap : R.left.NoWrap l ∧ (R.rightInHeader = true → R.right.NoWrap r) := by
      rcases hok with hok | hok
      · exact (hedge l r hok ih.1 ih.2).imp_right fun h _ => h
      · exact hok
    rw [hwrap.1.toInt_add]
    refine ⟨by omega, ?_⟩
    split_ifs with hheader
    · rw [(hwrap.2 hheader).toInt_add]
      omega
    · exact ih.2

end Holds

/-- The bound of the second index is not the greatest number. -/
lemma value_lt_of_towards (h : Towards left right) (env : Env) : right.bound.value env < kMaxInt := by
  have hneg := h.right_neg
  have hrelated := h.right_isRelated
  rw [isRelatedToArrayLength] at hrelated
  cases hi : right.bound.instruction with
  | none => rw [hi] at hrelated; cases hrelated
  | some i =>
    have hlen := (toInt_bounds (i.eval env)).2
    rw [value, hi, map_some, getD_some]
    omega

variable {env : Env} {c : Int}
  (htowards : Towards left right) (hle : l.toInt + c ≤ r.toInt) (hl : left.bound.constant ≤ l.toInt)
  (hr : r.toInt ≤ right.bound.value env)

include htowards hle hl hr in
/-- The indexes do not wrap around on the edge, unless they may both be the least number. -/
lemma noWrap_of_edge (hc : c = 1 ∨ c = 0 ∧ kMinInt < left.bound.constant) :
    left.NoWrap l ∧ right.NoWrap r := by
  have hlt := value_lt_of_towards htowards env
  have hlbounds := toInt_bounds l
  rw [MonotonicValueRange.NoWrap, MonotonicValueRange.NoWrap, htowards.left_increment,
    htowards.right_increment]
  omega

variable {rightInHeader : Bool}

include htowards hle hl hr in
/-- The ranges that are assigned hold of the indexes on the edge. -/
lemma holds_applyToBoth :
    (∀ info, (applyToBoth edge (-c) c rightInHeader left right).left = some info → info.Holds env l) ∧
      ∀ info, (applyToBoth edge (-c) c rightInHeader left right).right = some info → info.Holds env r := by
  have hlvalue := value_of_isConstant htowards.left_isConstant env
  have hinc := htowards.left_increment
  have hdec := htowards.right_increment
  refine ⟨fun info hinfo => ?_, fun info hinfo => ?_⟩
  · obtain ⟨upper, hupper, rfl⟩ := map_eq_some_iff.1 hinfo
    have hvalue : upper.value env = _ := value_add hupper
    cases hnarrow : left.narrow ⟨left.bound, upper⟩ with
    | monotonic m => trivial
    | plain range =>
      rcases narrow_eq_plain hnarrow with ⟨-, -, -, rfl⟩ | ⟨hneg, -⟩
      · refine ⟨?_, ?_⟩
        · rw [narrowLowerBound_self, hlvalue]
          exact hl
        · dsimp only
          omega
      · omega
  · obtain ⟨lower, hlower, hinfo⟩ := bind_eq_some_iff.1 hinfo
    split_ifs at hinfo
    cases hinfo
    have hvalue : lower.value env = _ := value_add hlower
    cases hnarrow : right.narrow ⟨lower, right.bound⟩ with
    | monotonic m => trivial
    | plain range =>
      rcases narrow_eq_plain hnarrow with ⟨hpos, -⟩ | ⟨-, -, -, rfl⟩
      · omega
      · refine ⟨?_, ?_⟩
        · dsimp only
          omega
        · rw [narrowUpperBound_self]
          exact hr

/-- From the least number, and without a compensation, no plain range is assigned. -/
lemma holds_applyToBoth_of_min (htowards : Towards left right)
    (hmin : left.bound.constant = kMinInt) (hc : c = 0) :
    (∀ info, (applyToBoth edge (-c) c rightInHeader left right).left = some info → info.Holds env l) ∧
      ∀ info, (applyToBoth edge (-c) c rightInHeader left right).right = some info → info.Holds env r := by
  have hinc := htowards.left_increment
  have hdec := htowards.right_increment
  refine ⟨fun info hinfo => ?_, fun info hinfo => ?_⟩
  · obtain ⟨upper, -, rfl⟩ := map_eq_some_iff.1 hinfo
    have hnarrow : left.narrow ⟨left.bound, upper⟩ = .monotonic left := by
      rw [narrow, if_pos (by omega)]
      rw [narrowLowerBound_self, if_pos (by rw [hmin, decide_eq_true rfl, Bool.or_true])]
    rw [hnarrow]
    trivial
  · obtain ⟨lower, hlower, hinfo⟩ := bind_eq_some_iff.1 hinfo
    rw [add, if_pos hc] at hlower
    cases hlower
    split_ifs at hinfo
    cases hinfo
    cases hnarrow : right.narrow ⟨left.bound, right.bound⟩ with
    | monotonic m => trivial
    | plain range =>
      rcases narrow_eq_plain hnarrow with ⟨hpos, -⟩ | ⟨-, -, hge, -⟩
      · omega
      · dsimp only at hge
        omega

/-- In every run in which no index wraps around at a step along the other edge or of a loop around,
    the ranges that the indexes get on an edge hold each time it is taken. -/
theorem holds_of_visit {R : TwoIndexRun} (hR : R.Valid) {ranges : TwoRanges}
    (h : handleIfBetweenTwoMonotonicValueRanges true R.rightInHeader R.cond R.left R.right =
      some ranges) (hvisit : R.Visit (R.StepOk ranges.edge) R.right.NoWrap l r)
    (hedge : R.edge l r = ranges.edge) : (∀ info, ranges.left = some info → info.Holds R.env l) ∧
      ∀ info, ranges.right = some info → info.Holds R.env r := by
  obtain ⟨htowards, c, hc, hranges, hle⟩ := exists_of_handleIfBetween h
  rw [hranges]
  by_cases hstart : c = 1 ∨ c = 0 ∧ kMinInt < R.left.bound.constant
  · have hbounds := hvisit.bounds htowards hR.right_boundSound fun l r hlr hl hr =>
      noWrap_of_edge htowards (hle l r hlr) hl hr hstart
    exact holds_applyToBoth htowards (hle l r hedge) hbounds.1 hbounds.2
  · have hint := hR.left_isInt
    exact holds_applyToBoth_of_min htowards (by omega) (by omega)

end TwoIndexRun

/-! ## An array from both ends -/

/-- The length of the array `a`, which is from before the loops. -/
def lengthOfA : HInstruction := .arrayLength 0 (.value 0 false)

/-- `l = 0` and `r = a.length - 1`, compared with `<`. -/
def bothEnds (length : BitVec 32) (rightInHeader : Bool) (stays : Bool → Bool) : TwoIndexRun where
  left := ⟨.intConstant 0#32, 1, ⟨none, 0⟩⟩
  right := ⟨.add 1 lengthOfA (.intConstant (-1#32)), -1, ⟨some lengthOfA, -1⟩⟩
  rightInHeader
  cond := .lt
  stays
  env := ⟨fun _ => 0#32, fun _ => length, 0#32⟩

/-- The ranges on the edge where `l < r`. -/
def bothEndsRanges (rightInHeader : Bool) : TwoRanges where
  edge := true
  left := some (.plain ⟨⟨none, 0⟩, ⟨some lengthOfA, -2⟩⟩)
  right := if rightInHeader then some (.plain ⟨⟨none, 1⟩, ⟨some lengthOfA, -1⟩⟩) else none

section BothEnds

variable {length : BitVec 32} (rightInHeader : Bool) (stays : Bool → Bool)

lemma valid_bothEnds (hlength : 0 ≤ length.toInt) : (bothEnds length rightInHeader stays).Valid where
  right_boundSound :=
    { lower_le := fun hpos => absurd hpos (show ¬ (0 : Int) < -1 by decide)
      le_upper := fun _ => by
        have hmin := kMinInt_eq
        have hle : (ofInt 32 (length.toInt + -1)).toInt ≤ length.toInt + -1 := toInt_ofInt_le (by omega)
        rwa [← ofInt_toInt_add] at hle }
  left_isInt := show kMinInt ≤ 0 by decide

end BothEnds

/-- An array of ten elements from both ends, after one step. -/
theorem holds_bothEnds : (∀ info, (bothEndsRanges true).left = some info →
        info.Holds (bothEnds 10#32 true id).env 1#32) ∧ ∀ info, (bothEndsRanges true).right = some info →
        info.Holds (bothEnds 10#32 true id).env 8#32 := by
  have hfirst : (bothEnds 10#32 true id).Visit ((bothEnds 10#32 true id).StepOk true)
      (bothEnds 10#32 true id).right.NoWrap 0#32 9#32 := .enter .first (by decide)
  have hnext := hfirst.next rfl (.inl rfl)
  exact TwoIndexRun.holds_of_visit (valid_bothEnds true id (by decide)) rfl hnext rfl

/-- The second index takes every value in a loop around that goes on. -/
lemma entered_bothEnds (k : Nat) :
    (bothEnds 1#32 false id).Entered (fun _ => True) (ofInt 32 (-k)) := by
  induction k with
  | zero => exact .first
  | succ k ih =>
    have hnext := TwoIndexRun.Entered.next rfl ih trivial
    have hstep : -((k + 1 : Nat) : Int) = -(k : Int) + -1 := by omega
    rwa [hstep, ofInt_add]

/-- Both indexes take every value in a loop that goes on whatever the comparison says. -/
lemma visit_bothEnds (k : Nat) : (bothEnds 1#32 true fun _ => true).Visit (fun _ _ => True)
    (fun _ => True) (ofInt 32 k) (ofInt 32 (-k)) := by
  induction k with
  | zero => exact .enter .first (by decide)
  | succ k ih =>
    have hnext := ih.next rfl trivial
    have hstep : -((k + 1 : Nat) : Int) = -(k : Int) + -1 := by omega
    rwa [hstep, Nat.cast_succ, ofInt_add, ofInt_add]

/-- With an array of one element: an index of a loop around wraps around to the greatest number, so that
    `l = 0` passes although its range is empty. In a loop that goes on, `l` comes back as the least
    number. -/
theorem not_holds_bothEnds :
    let around := bothEnds 1#32 false id
    let goesOn := bothEnds 1#32 true fun _ => true
    (around.Valid ∧ handleIfBetweenTwoMonotonicValueRanges true false around.cond around.left around.right =
        some (bothEndsRanges false) ∧
      ∃ r, around.Visit (fun _ _ => True) (fun _ => True) 0#32 r ∧ around.edge 0#32 r = true ∧
        ∃ info, (bothEndsRanges false).left = some info ∧ ¬ info.Holds around.env 0#32) ∧
    goesOn.Valid ∧ handleIfBetweenTwoMonotonicValueRanges true true goesOn.cond goesOn.left goesOn.right =
        some (bothEndsRanges true) ∧
      ∃ l r, goesOn.Visit (fun _ _ => True) (fun _ => True) l r ∧ goesOn.edge l r = true ∧
        ∃ info, (bothEndsRanges true).left = some info ∧ ¬ info.Holds goesOn.env l := by
  refine ⟨⟨valid_bothEnds _ _ (by decide), rfl, _, .enter (entered_bothEnds (2 ^ 31 + 1)) (by decide),
    by decide, _, rfl, fun h => ?_⟩, valid_bothEnds _ _ (by decide), rfl,
    _, _, visit_bothEnds (2 ^ 31 + 1), by decide, _, rfl, fun h => ?_⟩
  · exact absurd h.2 (by decide)
  · exact absurd h.1 (by decide)

end Art.BoundsCheckElimination
