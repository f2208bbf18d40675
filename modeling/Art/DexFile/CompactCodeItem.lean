import Mathlib.Tactic.IntervalCases

/-!
# Compact code items

The header of `CompactDexFile::CodeItem` of `libdexfile/dex/compact_dex_file.h`. Sizes that do not fit into
the two words of a header are continued in a preheader, which grows downwards from the item.
-/

namespace Art

/-- The sizes of a code item but the number of its code units. -/
structure CodeItemSizes where
  registersSize : ℕ
  insSize : ℕ
  outsSize : ℕ
  triesSize : ℕ

/-- `CompactDexFile::CodeItem` and its preheader, from the highest word down. -/
structure CompactCodeItem where
  fields : ℕ
  insnsCountAndFlags : ℕ
  preheader : List ℕ

namespace CompactCodeItem

/-- The most words of a preheader. -/
def kMaxPreHeaderSize : ℕ := 6

variable (item : CompactCodeItem)

/-- `preheader_encode`, for the flag with a number. -/
def preheaderEncode (size bit : ℕ) : CompactCodeItem :=
  { item with
    insnsCountAndFlags := item.insnsCountAndFlags + if size ≠ 0 then 2 ^ bit else 0
    preheader := item.preheader ++ if size ≠ 0 then [size] else [] }

/-- `Create`. The bits of sizes and flags do not overlap, so that they are added. -/
def create (sizes : CodeItemSizes) (insnsSize : ℕ) : CompactCodeItem :=
  let registersSize := (sizes.registersSize + 2 ^ 16 - sizes.insSize) % 2 ^ 16
  let maskedCount := insnsSize % 2 ^ 11
  let insnsSize := insnsSize - maskedCount
  let item : CompactCodeItem :=
    { fields := registersSize % 2 ^ 4 * 2 ^ 12 + sizes.insSize % 2 ^ 4 * 2 ^ 8 +
        sizes.outsSize % 2 ^ 4 * 2 ^ 4 + sizes.triesSize % 2 ^ 4
      insnsCountAndFlags := maskedCount * 2 ^ 5 + if insnsSize ≠ 0 then 2 ^ 4 else 0
      preheader := if insnsSize ≠ 0 then [insnsSize % 2 ^ 16, insnsSize / 2 ^ 16 % 2 ^ 16] else [] }
  item.preheaderEncode (registersSize - registersSize % 2 ^ 4) 0
    |>.preheaderEncode (sizes.insSize - sizes.insSize % 2 ^ 4) 1
    |>.preheaderEncode (sizes.outsSize - sizes.outsSize % 2 ^ 4) 2
    |>.preheaderEncode (sizes.triesSize - sizes.triesSize % 2 ^ 4) 3

/-- `HasPreHeader`, for the flag with a number. -/
def hasPreHeader (bit : ℕ) : Bool := item.insnsCountAndFlags / 2 ^ bit % 2 = 1

def hasAnyPreHeader : Bool := item.insnsCountAndFlags % 2 ^ 5 ≠ 0

/-- The count of code units with what the preheader has of it, and the words below that. -/
def readInsnsCount (count : ℕ) (preheader : List ℕ) : Option (ℕ × List ℕ) :=
  if item.hasPreHeader 4 then
    match preheader with
    | low :: high :: preheader => some ((count + low + high * 2 ^ 16) % 2 ^ 32, preheader)
    | _ => none
  else some (count, preheader)

/-- A size with what the preheader has of it, and the words below that. -/
def readSize (size bit : ℕ) (preheader : List ℕ) : Option (ℕ × List ℕ) :=
  if item.hasPreHeader bit then
    match preheader with
    | word :: preheader => some ((size + word) % 2 ^ 16, preheader)
    | [] => none
  else some (size, preheader)

/-- `DecodeFields`, on the words below the item. The sizes are left as they are if only the number of code
    units is decoded. -/
def decodeFields (onlyCount : Bool) (preheader : List ℕ) (out : CodeItemSizes) :
    Option (ℕ × CodeItemSizes) := do
  let count := item.insnsCountAndFlags / 2 ^ 5
  let sizes : CodeItemSizes := if onlyCount then out else
    ⟨item.fields / 2 ^ 12 % 2 ^ 4, item.fields / 2 ^ 8 % 2 ^ 4, item.fields / 2 ^ 4 % 2 ^ 4,
      item.fields % 2 ^ 4⟩
  let (count, sizes) ←
    if item.hasAnyPreHeader then do
      let (count, preheader) ← item.readInsnsCount count preheader
      if onlyCount then pure (count, sizes) else
        let (registersSize, preheader) ← item.readSize sizes.registersSize 0 preheader
        let (insSize, preheader) ← item.readSize sizes.insSize 1 preheader
        let (outsSize, preheader) ← item.readSize sizes.outsSize 2 preheader
        let (triesSize, _) ← item.readSize sizes.triesSize 3 preheader
        pure (count, ⟨registersSize, insSize, outsSize, triesSize⟩)
    else pure (count, sizes)
  return (count, if onlyCount then sizes else
    { sizes with registersSize := (sizes.registersSize + sizes.insSize) % 2 ^ 16 })

lemma flag_eq (size flag : ℕ) : (if size ≠ 0 then flag else 0) = min size 1 * flag := by
  split_ifs with h
  · rw [min_eq_right (Nat.pos_of_ne_zero h), one_mul]
  · rw [not_not.1 h, Nat.zero_min, zero_mul]

/-- The parts of a sum of flags. -/
lemma bits_of_flags {c f4 f0 f1 f2 f3 n : ℕ}
    (h : c * 2 ^ 5 + f4 * 2 ^ 4 + f0 * 2 ^ 0 + f1 * 2 ^ 1 + f2 * 2 ^ 2 + f3 * 2 ^ 3 = n)
    (hflags : f4 ≤ 1 ∧ f0 ≤ 1 ∧ f1 ≤ 1 ∧ f2 ≤ 1 ∧ f3 ≤ 1) :
    n / 2 ^ 5 = c ∧ n / 2 ^ 4 % 2 = f4 ∧ n / 2 ^ 0 % 2 = f0 ∧ n / 2 ^ 1 % 2 = f1 ∧ n / 2 ^ 2 % 2 = f2 ∧
      n / 2 ^ 3 % 2 = f3 := by
  omega

variable {item} {size bit : ℕ}

lemma hasPreHeader_iff (h : item.insnsCountAndFlags / 2 ^ bit % 2 = min size 1) :
    item.hasPreHeader bit ↔ size ≠ 0 := by
  rw [hasPreHeader, decide_eq_true_iff, h]
  omega

lemma mod_eq_of_none {m : ℕ} (hany : ¬item.hasAnyPreHeader) (hbit : bit < 5)
    (h : item.insnsCountAndFlags / 2 ^ bit % 2 = min (size - size % m) 1) : size % m = size := by
  have hnone : item.insnsCountAndFlags % 2 ^ 5 = 0 := by simpa [hasAnyPreHeader] using hany
  have hle := Nat.mod_le size m
  interval_cases bit <;> omega

variable (below : List ℕ)

lemma readSize_append (h : item.insnsCountAndFlags / 2 ^ bit % 2 = min (size - size % 2 ^ 4) 1)
    (hsize : size < 2 ^ 16) : item.readSize (size % 2 ^ 4) bit
      ((if size - size % 2 ^ 4 ≠ 0 then [size - size % 2 ^ 4] else []) ++ below) = some (size, below) := by
  split_ifs with hword
  · simp [readSize, (hasPreHeader_iff h).2 hword]
    omega
  · simp [readSize, mt (hasPreHeader_iff h).1 hword]
    omega

lemma readInsnsCount_append (h : item.insnsCountAndFlags / 2 ^ 4 % 2 = min (size - size % 2 ^ 11) 1)
    (hsize : size < 2 ^ 32) : item.readInsnsCount (size % 2 ^ 11)
      ((if size - size % 2 ^ 11 ≠ 0 then
        [(size - size % 2 ^ 11) % 2 ^ 16, (size - size % 2 ^ 11) / 2 ^ 16 % 2 ^ 16] else []) ++ below) =
          some (size, below) := by
  split_ifs with hword
  · simp [readInsnsCount, (hasPreHeader_iff h).2 hword]
    omega
  · simp [readInsnsCount, mt (hasPreHeader_iff h).1 hword]
    omega

/-- A preheader fits into the room there is for it, and the sizes are read back from the words below the
    item, whatever stands below the preheader. -/
theorem decodeFields_create {sizes : CodeItemSizes} {insnsSize : ℕ} (hregisters : sizes.registersSize < 2 ^ 16)
    (hins : sizes.insSize ≤ sizes.registersSize) (houts : sizes.outsSize < 2 ^ 16)
    (htries : sizes.triesSize < 2 ^ 16) (hinsns : insnsSize < 2 ^ 32) (out : CodeItemSizes) :
    (create sizes insnsSize).preheader.length ≤ kMaxPreHeaderSize ∧
      ∀ onlyCount, (create sizes insnsSize).decodeFields onlyCount
        ((create sizes insnsSize).preheader ++ below) out =
          some (insnsSize, if onlyCount then out else sizes) := by
  obtain ⟨registersSize, insSize, outsSize, triesSize⟩ := sizes
  dsimp only at *
  have hsub : (registersSize + 2 ^ 16 - insSize) % 2 ^ 16 = registersSize - insSize := by omega
  have hsum : (registersSize - insSize + insSize) % 2 ^ 16 = registersSize := by omega
  generalize hitem : create ⟨registersSize, insSize, outsSize, triesSize⟩ insnsSize = item
  simp only [create, preheaderEncode, hsub, flag_eq] at hitem
  have hfields : item.fields / 2 ^ 12 % 2 ^ 4 = (registersSize - insSize) % 2 ^ 4 ∧
      item.fields / 2 ^ 8 % 2 ^ 4 = insSize % 2 ^ 4 ∧ item.fields / 2 ^ 4 % 2 ^ 4 = outsSize % 2 ^ 4 ∧
      item.fields % 2 ^ 4 = triesSize % 2 ^ 4 := by
    rw [← hitem]
    dsimp only
    omega
  have hpreheader := congrArg preheader hitem
  obtain ⟨hcount, h4, h0, h1, h2, h3⟩ := bits_of_flags (congrArg insnsCountAndFlags hitem) (by simp)
  clear hitem
  constructor
  · rw [← hpreheader]
    simp only [List.length_append, apply_ite List.length, List.length_cons, List.length_nil, flag_eq,
      kMaxPreHeaderSize]
    omega
  intro onlyCount
  rw [decodeFields, hcount, hfields.1, hfields.2.1, hfields.2.2.1, hfields.2.2.2]
  by_cases hany : item.hasAnyPreHeader
  · rw [if_pos hany, ← hpreheader]
    simp only [List.append_assoc]
    rw [readInsnsCount_append _ h4 hinsns]
    cases onlyCount with
    | true => rfl
    | false =>
      simp only [Option.bind_eq_bind, Option.bind_some, Bool.false_eq_true, if_false,
        readSize_append _ h0 (by omega), readSize_append _ h1 (by omega), readSize_append _ h2 houts, readSize_append _ h3 htries]
      simpa using hsum
  · -- without a preheader, the words of the item have all of the sizes
    rw [if_neg hany, mod_eq_of_none hany (by decide) h0, mod_eq_of_none hany (by decide) h1,
      mod_eq_of_none hany (by decide) h2, mod_eq_of_none hany (by decide) h3,
      mod_eq_of_none hany (by decide) h4]
    cases onlyCount with
    | true => rfl
    | false => simpa using hsum

/-- All sizes of the item are continued in its preheader. -/
theorem decodeFields_create_large : (create ⟨700, 300, 40, 20⟩ 70000).decodeFields false
    ((create ⟨700, 300, 40, 20⟩ 70000).preheader ++ []) ⟨0, 0, 0, 0⟩ = some (70000, ⟨700, 300, 40, 20⟩) :=
  (decodeFields_create [] (by decide) (by decide) (by decide) (by decide) (by decide) _).2 false

end CompactCodeItem

end Art
