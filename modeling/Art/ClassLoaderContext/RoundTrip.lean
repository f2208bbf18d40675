import Art.Lib.Brackets
import Art.ClassLoaderContext.Spec

/-!
# Parsing an encoded class loader context

When does `Parse` give back the class loaders that `EncodeContextForOatFile` wrote? A shared
library may have shared libraries and a parent, `PCL[a]{PCL[b]};PCL[c]`. Where `ParseInternal`
comes to the end of `{PCL[b]}`, it goes on with the parent. Where `ParseClassLoaderSpec` goes over
a list of shared libraries, it takes this for the end of the library, unless there is no separator
`#` behind, and then stops at the `;`.
-/

namespace Art

open List ClassLoaderInfo Nat
open Option (bind_eq_bind bind_some map_some)

variable {c : Char} {info : ClassLoaderInfo} {es : List (Bool × ClassLoaderInfo)} {a : List Char}
  {parseUint : List Char → Option UInt32}

namespace ClassLoaderInfo

/-- The shared libraries, each with the list it is in: whether it is loaded after the class path. -/
def entries (info : ClassLoaderInfo) : List (Bool × ClassLoaderInfo) :=
  info.sharedLibraries.map (false, ·) ++ info.sharedLibrariesAfter.map (true, ·)

mutual
/-- The class loaders of a context. -/
def loaders : ClassLoaderInfo → List ClassLoaderInfo
  | mk type classpath checksums openedDexFiles sharedLibraries sharedLibrariesAfter parent =>
    mk type classpath checksums openedDexFiles sharedLibraries sharedLibrariesAfter parent ::
      (loadersOfAll sharedLibraries ++ loadersOfAll sharedLibrariesAfter ++ loadersOfParent parent)

def loadersOfAll : List ClassLoaderInfo → List ClassLoaderInfo
  | [] => []
  | library :: libraries => loaders library ++ loadersOfAll libraries

def loadersOfParent : Option ClassLoaderInfo → List ClassLoaderInfo
  | none => []
  | some parent => loaders parent
end

mutual
/-- A context without its dex files, which an encoding does not have. -/
def withoutDexFiles : ClassLoaderInfo → ClassLoaderInfo
  | mk type classpath checksums _ sharedLibraries sharedLibrariesAfter parent =>
    mk type classpath checksums [] (withoutDexFilesAll sharedLibraries)
      (withoutDexFilesAll sharedLibrariesAfter) (withoutDexFilesParent parent)

def withoutDexFilesAll : List ClassLoaderInfo → List ClassLoaderInfo
  | [] => []
  | library :: libraries => withoutDexFiles library :: withoutDexFilesAll libraries

def withoutDexFilesParent : Option ClassLoaderInfo → Option ClassLoaderInfo
  | none => none
  | some parent => some (withoutDexFiles parent)
end

/-- Some list of shared libraries in the context has a separator. -/
def hasSeparator (info : ClassLoaderInfo) : Bool := info.loaders.any fun l => decide (2 ≤ l.entries.length)

/-- The first class loader with shared libraries, on the way from the class loader to its parents, has
    no parent. -/
def endsAtLibraries : ClassLoaderInfo → Bool
  | mk _ _ _ _ _ _ none => true
  | mk _ _ _ _ sharedLibraries sharedLibrariesAfter (some parent) =>
    sharedLibraries.isEmpty && sharedLibrariesAfter.isEmpty && parent.endsAtLibraries

/-- Each shared library of a list ends at its own shared libraries, unless no separator follows. -/
def separableEntries : List (Bool × ClassLoaderInfo) → Bool
  | [] => true
  | e :: es => (e.2.endsAtLibraries || (es.isEmpty && !e.2.hasSeparator)) && separableEntries es

/-- In every list of shared libraries of the context, a library whose first class loader with shared
    libraries has a parent is the last one, and has no separator itself. -/
def separable (info : ClassLoaderInfo) : Bool := info.loaders.all fun l => separableEntries l.entries

/-- The characters that are not part of a name. -/
def marks : List Char := ['[', ']', '{', '}', '#', '~', ';', ':', '*']

/-- A class loader as `CreateInfoFromClassLoader` and `OpenDexFiles` make it, with names that are not
    empty and have no marks. -/
structure Valid (info : ClassLoaderInfo) : Prop where
  type : info.type ≠ .invalidClassLoader
  classpath : info.classpath = info.openedDexFiles.map fun dexFile =>
    if info.type = .inMemoryDexClassLoader then inMemoryDexClassLoaderDexLocationMagic
    else dexFile.location
  checksums : info.checksums = info.openedDexFiles.map (·.locationChecksum)
  name : ∀ name ∈ info.classpath, name ≠ [] ∧ ∀ c ∈ marks, c ∉ name

/-- A list of characters is gone through, and not all characters. -/
lemma forall_mem_of_all {l : List Char} {p : Char → Prop} [DecidablePred p]
    (h : (l.all fun c => decide (p c)) = true) : ∀ c ∈ l, p c := fun c hc =>
  of_decide_eq_true (all_eq_true.1 h c hc)

instance : DecidablePred Valid := fun info =>
  decidable_of_iff (info.type ≠ .invalidClassLoader ∧ (info.classpath = info.openedDexFiles.map fun dexFile =>
      if info.type = .inMemoryDexClassLoader then inMemoryDexClassLoaderDexLocationMagic
      else dexFile.location) ∧ info.checksums = info.openedDexFiles.map (·.locationChecksum) ∧
    ∀ name ∈ info.classpath, name ≠ [] ∧ (marks.all fun c => decide (c ∉ name)) = true)
  ⟨fun ⟨h₁, h₂, h₃, h₄⟩ => ⟨h₁, h₂, h₃, fun name hn =>
      ⟨(h₄ name hn).1, forall_mem_of_all (h₄ name hn).2⟩⟩,
    fun h => ⟨h.type, h.classpath, h.checksums, fun name hn => ⟨(h.name name hn).1,
      all_eq_true.2 fun c hc => decide_eq_true ((h.name name hn).2 c hc)⟩⟩⟩

/-- All class loaders of the context are valid. -/
def WellFormed (info : ClassLoaderInfo) : Prop := ∀ l ∈ info.loaders, l.Valid

instance : DecidablePred WellFormed := fun info =>
  inferInstanceAs (Decidable (∀ l ∈ info.loaders, l.Valid))

variable {P : ClassLoaderInfo → Prop}

/-- Induction over the shared libraries and the parents. -/
lemma induction (h : ∀ info, (∀ e ∈ info.entries, P e.2) → (∀ p ∈ info.parent, P p) → P info)
    (info : ClassLoaderInfo) : P info := by
  refine @ClassLoaderInfo.rec P (fun ls => ∀ l ∈ ls, P l) (fun o => ∀ p ∈ o, P p)
    (fun type classpath checksums dexFiles libs after parent hlibs hafter hparent =>
      h _ (fun e he => ?_) hparent) (fun l hl => absurd hl not_mem_nil)
    (fun l ls hl hls => forall_mem_cons.2 ⟨hl, hls⟩) (fun p hp => ?_) (fun q hq p hp => ?_) info
  · rcases mem_append.1 he with he | he <;> obtain ⟨l, hl, rfl⟩ := mem_map.1 he
    · exact hlibs l hl
    · exact hafter l hl
  · cases hp
  · cases hp
    exact hq

variable (libraries : List ClassLoaderInfo)

lemma loadersOfAll_eq : loadersOfAll libraries = libraries.flatMap loaders := by
  induction libraries with
  | nil => rfl
  | cons l ls ih => rw [loadersOfAll, ih, flatMap_cons]

lemma withoutDexFilesAll_eq : withoutDexFilesAll libraries = libraries.map withoutDexFiles := by
  induction libraries with
  | nil => rfl
  | cons l ls ih => rw [withoutDexFilesAll, ih, map_cons]

lemma withoutDexFiles_eq (info : ClassLoaderInfo) :
    info.withoutDexFiles = mk info.type info.classpath info.checksums []
      (info.sharedLibraries.map withoutDexFiles) (info.sharedLibrariesAfter.map withoutDexFiles)
      (info.parent.map withoutDexFiles) := by
  obtain ⟨type, classpath, checksums, dexFiles, libs, after, parent⟩ := info
  rw [withoutDexFiles, withoutDexFilesAll_eq, withoutDexFilesAll_eq]
  cases parent <;> rfl

lemma loaders_eq (info : ClassLoaderInfo) : info.loaders = info :: (info.entries.flatMap (·.2.loaders) ++
      (info.parent.map loaders).getD []) := by
  obtain ⟨type, classpath, checksums, dexFiles, libs, after, parent⟩ := info
  rw [loaders, loadersOfAll_eq, loadersOfAll_eq, entries, flatMap_append, flatMap_map, flatMap_map]
  cases parent <;> rfl

/-- What holds of all class loaders of a context. -/
lemma forall_loaders_iff :
    (∀ l ∈ info.loaders, P l) ↔ P info ∧ (∀ e ∈ info.entries, ∀ l ∈ e.2.loaders, P l) ∧
      ∀ p ∈ info.parent, ∀ l ∈ p.loaders, P l := by
  rw [loaders_eq, forall_mem_cons, forall_mem_append]
  refine and_congr Iff.rfl (and_congr ⟨fun h e he l hl => h l (mem_flatMap.2 ⟨e, he, hl⟩),
    fun h l hl => ?_⟩ ?_)
  · obtain ⟨e, he, hl⟩ := mem_flatMap.1 hl
    exact h e he l hl
  · cases info.parent <;> simp

lemma separable_iff : info.separable = true ↔ separableEntries info.entries = true ∧
    (∀ e ∈ info.entries, e.2.separable = true) ∧ ∀ p ∈ info.parent, p.separable = true := by
  simp only [separable, all_eq_true]
  exact forall_loaders_iff

lemma hasSeparator_eq_false_iff : info.hasSeparator = false ↔ info.entries.length < 2 ∧
    (∀ e ∈ info.entries, e.2.hasSeparator = false) ∧ ∀ p ∈ info.parent, p.hasSeparator = false := by
  simp only [hasSeparator, any_eq_false, decide_eq_true_eq, not_le]
  exact forall_loaders_iff

lemma wellFormed_iff : info.WellFormed ↔ info.Valid ∧ (∀ e ∈ info.entries, e.2.WellFormed) ∧
    ∀ p ∈ info.parent, p.WellFormed := forall_loaders_iff

end ClassLoaderInfo

/-! ## Finding characters -/

section

variable {s b : List Char}

lemma findFirstOf_zero (s : List Char) (c : Char) : findFirstOf s c 0 = s.findIdx? (· == c) := by
  exact Option.map_id'

lemma findFirstOf_eq_none (h : c ∉ s) : findFirstOf s c 0 = none := by
  rw [findFirstOf_zero, findIdx?_eq_none_iff]
  exact fun x hx => beq_eq_false_iff_ne.2 fun heq => h (heq ▸ hx)

lemma findFirstOf_append (h : c ∉ a) (b : List Char) :
    findFirstOf (a ++ b) c 0 = (findFirstOf b c 0).map (· + a.length) := by
  have ha := findFirstOf_eq_none h
  rw [findFirstOf_zero] at ha
  rw [findFirstOf_zero, findFirstOf_zero, findIdx?_append, ha, Option.none_or]

lemma findFirstOf_append_cons (h : c ∉ a) (b : List Char) :
    findFirstOf (a ++ c :: b) c 0 = some a.length := by
  rw [findFirstOf_append h, findFirstOf_zero, findIdx?_cons, beq_self_eq_true, if_pos rfl, map_some, zero_add]

lemma findFirstOf_drop (s : List Char) (c : Char) (pos : ℕ) :
    findFirstOf s c pos = (findFirstOf (s.drop pos) c 0).map (· + pos) := by
  simp [findFirstOf]

lemma charAt_append_cons (a b : List Char) (c : Char) : charAt (a ++ c :: b) a.length = c := by
  simp [charAt]

end

/-- The brackets around shared libraries. -/
def isOpeningMark (c : Char) : Bool := c == '{'

def isClosingMark (c : Char) : Bool := c == '}'

open Brackets

lemma closeIdx_eq_none {l : List Char} (h : '}' ∉ l) (d : ℕ) :
    closeIdx isOpeningMark isClosingMark d l = none := by
  induction l generalizing d with
  | nil => rfl
  | cons a l ih =>
    rw [mem_cons, not_or] at h
    have ha : isClosingMark a = false := beq_eq_false_iff_ne.2 (Ne.symm h.1)
    rw [closeIdx, ha, if_neg (by simp), ih h.2, ih h.2]
    split <;> rfl

lemma not_brackets (ho : '{' ∉ a) (hc : '}' ∉ a) :
    ∀ x ∈ a, isOpeningMark x = false ∧ isClosingMark x = false := fun _ hx =>
  ⟨beq_eq_false_iff_ne.2 fun heq => ho (heq ▸ hx), beq_eq_false_iff_ne.2 fun heq => hc (heq ▸ hx)⟩

/-- While the index has enough bits, the loop follows the brackets from the index on. -/
lemma findMatchingLoop_eq {spec : List Char} (hlen : spec.length < 2 ^ 32) :
    ∀ (fuel d i : ℕ), spec.length < fuel + i → findMatchingLoop spec fuel (d + 1) i =
      (closeIdx isOpeningMark isClosingMark d (spec.drop i)).map (· + i)
  | 0, d, i, hfuel => by
    rw [drop_eq_nil_of_le (by omega)]
    rfl
  | fuel + 1, d, i, hfuel => by
    rw [findMatchingLoop, findFirstOf_drop, findFirstOf_drop spec '{']
    have hnext : ∀ (a : List Char) (c : Char) (b : List Char), spec.drop i = a ++ c :: b →
        ∀ d, findMatchingLoop spec fuel (d + 1) ((a.length + i + 1) % 2 ^ 32) =
          (closeIdx isOpeningMark isClosingMark d b).map (· + (a.length + i + 1)) := by
      intro a c b hs d
      have hl := congrArg List.length hs
      rw [length_drop, length_append, length_cons] at hl
      rw [mod_eq_of_lt (by omega), findMatchingLoop_eq hlen fuel d _ (by omega),
        show a.length + i + 1 = i + (a.length + 1) by omega, ← drop_drop, hs,
        ← drop_drop, drop_left, drop_one, tail_cons]
    by_cases hclose : '}' ∈ spec.drop i
    swap
    · rw [findFirstOf_eq_none hclose, closeIdx_eq_none hclose]
      rfl
    obtain ⟨a, b, hs, ha⟩ := eq_append_cons_of_mem hclose
    have hnext' := hnext a '}' b hs
    rw [hs, findFirstOf_append_cons ha]
    by_cases hopen : '{' ∈ a
    · -- an opening bracket comes first
      obtain ⟨a1, b1, rfl, ha1⟩ := eq_append_cons_of_mem hopen
      rw [append_assoc, cons_append] at hs ⊢
      rw [findFirstOf_append_cons ha1]
      rw [mem_append, not_or] at ha
      dsimp only [map_some]
      rw [if_neg (by simp only [length_append, length_cons]; omega), hnext a1 '{' _ hs,
        closeIdx_append_of_forall (not_brackets ha1 ha.1), closeIdx, if_neg (by decide),
        if_pos (by decide), Option.map_map, Option.map_map]
      congr 1
      funext n
      simp only [Function.comp_apply]
      omega
    · -- a closing bracket comes first
      have hclosing : (if d + 1 = 1 then some (a.length + i)
          else findMatchingLoop spec fuel (d + 1 - 1) ((a.length + i + 1) % 2 ^ 32)) =
          (closeIdx isOpeningMark isClosingMark d (a ++ '}' :: b)).map (· + i) := by
        rw [closeIdx_append_of_forall (not_brackets hopen ha), closeIdx,
          if_pos (show isClosingMark '}' = true by decide)]
        rcases d with _ | d
        · simp
        · rw [if_neg (by omega), if_neg (by omega), Nat.add_sub_cancel, hnext', Option.map_map,
            Option.map_map]
          congr 1
          funext n
          simp only [Function.comp_apply]
          omega
      rw [findFirstOf_append hopen]
      rcases hf : findFirstOf ('}' :: b) '{' 0 with _ | m
      · exact hclosing
      · have hm : m ≠ 0 := by
          rintro rfl
          have h0 := findFirstOf_append (a := ['}']) (c := '{') (by decide) b
          rw [singleton_append, hf] at h0
          rcases hb : findFirstOf b '{' 0 with _ | k
          · rw [hb] at h0
            cases h0
          · simp at h0
        dsimp only [map_some]
        rw [if_pos (by omega)]
        exact hclosing

/-- The marker that closes a balanced list of shared libraries is found. -/
lemma findMatching_balanced {b r : List Char} (hlen : (a ++ '{' :: (b ++ '}' :: r)).length < 2 ^ 32)
    (hb : Balanced isOpeningMark isClosingMark b) :
    findMatchingSharedLibraryCloseMarker (a ++ '{' :: (b ++ '}' :: r)) a.length =
      some (a.length + 1 + b.length) := by
  have ha : a.length + 1 < 2 ^ 32 := by
    simp only [length_append, length_cons] at hlen
    omega
  rw [findMatchingSharedLibraryCloseMarker, mod_eq_of_lt ha,
    findMatchingLoop_eq hlen _ 0 _ (by omega), ← drop_drop, drop_left, drop_one,
    tail_cons, closeIdx_balanced hb (by decide), map_some, add_comm]

/-! ## The class path -/

lemma mem_intercalate_singleton {x : Char} {ls : List (List Char)} (h : x ∈ [c].intercalate ls) :
    x = c ∨ ∃ l ∈ ls, x ∈ l := by
  induction ls with
  | nil => exact absurd h not_mem_nil
  | cons l ls ih =>
    cases ls with
    | nil => exact .inr ⟨l, mem_cons_self, by rwa [intercalate_singleton] at h⟩
    | cons l' ls =>
      rw [intercalate_cons_cons, mem_append, mem_append, mem_singleton] at h
      rcases h with (h | h) | h
      · exact .inr ⟨l, mem_cons_self, h⟩
      · exact .inl h
      · exact (ih h).imp_right fun ⟨l'', hl'', hx⟩ => ⟨l'', mem_cons_of_mem _ hl'', hx⟩

/-- Parts that are not empty and do not have the separator are found again. -/
lemma split_intercalate {parts : List (List Char)} (h : ∀ part ∈ parts, part ≠ [] ∧ c ∉ part) :
    split ([c].intercalate parts) c = parts := by
  rcases eq_or_ne parts [] with rfl | hne
  · simp [split]
  · rw [split, splitOn_intercalate c (fun l hl => (h l hl).2) hne, filter_eq_self]
    intro part hpart
    simp [(h part hpart).1]

lemma mapM_eq_some_map {α β γ : Type} {f : β → Option γ} {g : α → β} {h : α → γ} {l : List α}
    (hf : ∀ a ∈ l, f (g a) = some (h a)) : (l.map g).mapM f = some (l.map h) := by
  induction l with
  | nil => rfl
  | cons a l ih =>
    rw [map_cons, mapM_cons, hf a mem_cons_self, ih fun b hb => hf b (mem_cons_of_mem _ hb)]
    rfl

namespace ClassLoaderInfo

/-- The name of a dex file in the class path. -/
def nameOf (info : ClassLoaderInfo) (dexFile : DexFile) : List Char :=
  if info.type = .inMemoryDexClassLoader then inMemoryDexClassLoaderDexLocationMagic
  else dexFile.location

/-- A dex file in the encoding of the class path. -/
def elementText (info : ClassLoaderInfo) (dexFile : DexFile) : List Char :=
  info.nameOf dexFile ++ '*' :: toDigits 10 dexFile.locationChecksum.toNat

/-- The encoding of the class path without its marks. -/
def elementsText (info : ClassLoaderInfo) : List Char :=
  [':'].intercalate (info.openedDexFiles.map info.elementText)

/-- The encoding of the class path. -/
def classPathText (info : ClassLoaderInfo) : List Char :=
  info.type.typeName ++ '[' :: (info.elementsText ++ [']'])

lemma encodeClassPath_eq (info : ClassLoaderInfo) :
    encodeClassPath info.type (info.openedDexFiles.map (·.location))
      (info.openedDexFiles.map (·.locationChecksum)) = info.classPathText := by
  rw [encodeClassPath, zipWith_map, zipWith_self, classPathText]
  simp only [append_assoc, singleton_append]
  rfl

lemma not_mem_toDigits (hc : c ∈ marks) (n : ℕ) : c ∉ toDigits 10 n := fun h => by
  have hd := isDigit_of_mem_toDigits (by decide) (by decide) h
  have hall : ∀ c ∈ marks, c.isDigit = false := forall_mem_of_all (by decide)
  rw [hall c hc] at hd
  cases hd

variable {dexFile : DexFile}

lemma Valid.nameOf_ne (h : info.Valid) (hd : dexFile ∈ info.openedDexFiles) :
    info.nameOf dexFile ≠ [] ∧ ∀ c ∈ marks, c ∉ info.nameOf dexFile := by
  refine h.name _ ?_
  rw [h.classpath]
  exact mem_map.2 ⟨dexFile, hd, rfl⟩

lemma Valid.not_mem_elementText (h : info.Valid) (hd : dexFile ∈ info.openedDexFiles)
    (hc : c ∈ marks) (hne : c ≠ '*') : c ∉ info.elementText dexFile := by
  rw [elementText, mem_append, mem_cons]
  rintro (hmem | hmem | hmem)
  · exact (h.nameOf_ne hd).2 c hc hmem
  · exact hne hmem
  · exact not_mem_toDigits hc _ hmem

lemma Valid.not_mem_elementsText (h : info.Valid) (hc : c ∈ marks) (hne : c ≠ '*')
    (hne' : c ≠ ':') : c ∉ info.elementsText := fun hmem => by
  rcases mem_intercalate_singleton hmem with heq | ⟨l, hl, hmem⟩
  · exact hne' heq
  · obtain ⟨dexFile, hd, rfl⟩ := mem_map.1 hl
    exact h.not_mem_elementText hd hc hne hmem

lemma not_mem_typeName (hc : c ∈ marks) (type : ClassLoaderType) : c ∉ type.typeName := by
  have hall : ∀ c ∈ marks, c ∉ type.typeName := by
    cases type <;> exact forall_mem_of_all (by decide)
  exact hall c hc

/-- The marks of shared libraries and parents are not in a class path. -/
lemma Valid.not_mem_classPathText (h : info.Valid) (hc : c ∈ ['{', '}', '#', '~', ';']) :
    c ∉ info.classPathText := by
  have hmarks : ∀ c ∈ ['{', '}', '#', '~', ';'],
      c ∈ marks ∧ c ≠ '*' ∧ c ≠ ':' ∧ c ≠ '[' ∧ c ≠ ']' := forall_mem_of_all (by decide)
  obtain ⟨hm, h1, h2, h3, h4⟩ := hmarks c hc
  simp only [classPathText, mem_append, mem_cons, not_mem_nil, or_false, not_or]
  exact ⟨not_mem_typeName hm _, h3, h.not_mem_elementsText hm h1 h2, h4⟩

end ClassLoaderInfo

section

variable (hparse : ∀ n : UInt32, parseUint (toDigits 10 n.toNat) = some n)

include hparse

lemma parseElement_elementText (h : info.Valid) {dexFile : DexFile} (hd : dexFile ∈ info.openedDexFiles) :
    parseElement parseUint info.type (info.elementText dexFile) =
      some (info.nameOf dexFile, dexFile.locationChecksum) := by
  obtain ⟨hne, hmarks⟩ := h.nameOf_ne hd
  have htext : info.elementText dexFile = ['*'].intercalate [info.nameOf dexFile,
      toDigits 10 dexFile.locationChecksum.toNat] := by
    rw [intercalate_cons_cons, intercalate_singleton, elementText,
      append_assoc, singleton_append]
  rw [parseElement, htext, split_intercalate]
  · dsimp only
    rw [hparse]
    refine if_neg ?_
    rw [nameOf]
    split <;> simp_all
  · simp only [mem_cons, not_mem_nil, or_false, forall_eq_or_imp, forall_eq]
    exact ⟨⟨hne, hmarks _ (by decide)⟩, toDigits_ne_nil, not_mem_toDigits (by decide) _⟩

omit hparse in
lemma extractClassLoaderType_append {type : ClassLoaderType} (h : type ≠ .invalidClassLoader)
    (s : List Char) : extractClassLoaderType (type.typeName ++ s) = type := by
  cases type
  · exact absurd rfl h
  all_goals simp [extractClassLoaderType, ClassLoaderType.typeName, find?]

/-- The class path of an encoding is parsed, whatever follows it. -/
lemma parseClassPath_classPathText (h : info.Valid) {s : List Char}
    (hlast : charAt (info.classPathText ++ s) ((info.classPathText ++ s).length - 1) = ']' ∨
      charAt (info.classPathText ++ s) ((info.classPathText ++ s).length - 1) = '}') :
    parseClassPath parseUint true (info.classPathText ++ s) =
      some (.mk info.type info.classpath info.checksums [] [] [] none) := by
  have hspec : info.classPathText ++ s = (info.type.typeName ++ '[' :: info.elementsText) ++ ']' :: s := by
    simp [classPathText]
  have htype : extractClassLoaderType (info.classPathText ++ s) = info.type := by
    rw [classPathText, append_assoc]
    exact extractClassLoaderType_append h.type _
  have hopen : charAt (info.classPathText ++ s) info.type.typeName.length = '[' := by
    rw [classPathText, append_assoc]
    exact charAt_append_cons ..
  have hclose : findFirstOf (info.classPathText ++ s) ']' 0 =
      some (info.type.typeName.length + 1 + info.elementsText.length) := by
    rw [hspec, findFirstOf_append_cons]
    · simp only [length_append, length_cons]
      congr 1
      omega
    · simp only [mem_append, mem_cons, not_or]
      exact ⟨not_mem_typeName (by decide) _, by decide,
        h.not_mem_elementsText (by decide) (by decide) (by decide)⟩
  have hsub : substr (info.classPathText ++ s) (info.type.typeName.length + 1)
      (info.type.typeName.length + 1 + info.elementsText.length - info.type.typeName.length - 1) =
      info.elementsText := by
    rw [substr, classPathText, append_assoc, ← drop_drop, drop_left,
      cons_append, drop_one, tail_cons, append_assoc,
      show info.type.typeName.length + 1 + info.elementsText.length -
        info.type.typeName.length - 1 = info.elementsText.length by omega, take_left]
  have hsplit : split info.elementsText ':' = info.openedDexFiles.map info.elementText := by
    refine split_intercalate fun part hpart => ?_
    obtain ⟨dexFile, hd, rfl⟩ := mem_map.1 hpart
    exact ⟨by simp [elementText], h.not_mem_elementText hd (by decide) (by decide)⟩
  rw [parseClassPath, htype, if_neg, hclose]
  · dsimp only
    rw [hsub, hsplit, if_pos rfl, mapM_eq_some_map fun dexFile hd =>
      parseElement_elementText hparse h hd, h.checksums, h.classpath]
    simp [nameOf, Function.comp_def]
  · rw [hopen]
    rcases hlast with hlast | hlast <;> rw [hlast] <;> simp [h.type]

end

/-! ## The encoding of shared libraries -/

namespace ClassLoaderInfo

/-- The mark of a library that is loaded after the class path. -/
def markText (isAfter : Bool) : List Char := if isAfter then ['~'] else []

variable (e : Bool × ClassLoaderInfo)

/-- The encoding of an entry of a list of shared libraries. -/
def entryText : List Char := markText e.1 ++ encodeContextInternal e.2

/-- The encoding of a list of shared libraries. -/
def entriesText (es : List (Bool × ClassLoaderInfo)) : List Char := ['#'].intercalate (es.map entryText)

/-- The encoding of the shared libraries with their marks, if there are any. -/
def librariesText (info : ClassLoaderInfo) : List Char :=
  if info.entries = [] then [] else '{' :: (entriesText info.entries ++ ['}'])

lemma entriesText_cons_cons (e e' : Bool × ClassLoaderInfo) (es : List (Bool × ClassLoaderInfo)) :
    entriesText (e :: e' :: es) = entryText e ++ '#' :: entriesText (e' :: es) := by
  simp [entriesText, intercalate_cons_cons]

lemma encodeSharedLibraries_true (b : Bool) (libraries : List ClassLoaderInfo) :
    encodeSharedLibraries (markText b) true libraries =
      (libraries.map fun l => '#' :: entryText (b, l)).flatten := by
  induction libraries with
  | nil => rfl
  | cons l ls ih =>
    rw [encodeSharedLibraries, ih, map_cons, entryText]
    simp

lemma encodeSharedLibraries_false (b : Bool) (l : ClassLoaderInfo) (ls : List ClassLoaderInfo) :
    encodeSharedLibraries (markText b) false (l :: ls) =
      entryText (b, l) ++ (ls.map fun l => '#' :: entryText (b, l)).flatten := by
  rw [encodeSharedLibraries, encodeSharedLibraries_true, entryText]
  simp

lemma entriesText_cons (es : List (Bool × ClassLoaderInfo)) :
    entriesText (e :: es) = entryText e ++ (es.map fun e => '#' :: entryText e).flatten := by
  induction es generalizing e with
  | nil => simp [entriesText]
  | cons e' es ih => rw [entriesText_cons_cons, ih, map_cons, flatten_cons, cons_append]

/-- The parts of an encoding. -/
lemma encodeContextInternal_eq (info : ClassLoaderInfo) :
    encodeContextInternal info = info.classPathText ++ (info.librariesText ++ encodeParent info.parent) := by
  obtain ⟨type, classpath, checksums, dexFiles, libs, after, parent⟩ := info
  rw [encodeContextInternal, ← append_assoc, ← encodeClassPath_eq]
  congr 2
  rw [librariesText, entries]
  cases libs with
  | nil =>
    cases after with
    | nil => rfl
    | cons a after =>
      have hfalse : encodeSharedLibraries ['~'] false (a :: after) = _ :=
        encodeSharedLibraries_false true a after
      have hnil : encodeSharedLibraries [] false [] = [] := by rw [encodeSharedLibraries]
      simp [sharedLibraries, sharedLibrariesAfter, entriesText_cons, hfalse, hnil, Function.comp_def]
  | cons l libs =>
    have hfalse : encodeSharedLibraries [] false (l :: libs) = _ := encodeSharedLibraries_false false l libs
    have htrue : encodeSharedLibraries ['~'] true after = _ := encodeSharedLibraries_true true after
    simp [sharedLibraries, sharedLibrariesAfter, entriesText_cons, hfalse, htrue, Function.comp_def]

lemma encodeParent_eq (parent : Option ClassLoaderInfo) : encodeParent parent = match parent with
      | none => []
      | some p => ';' :: encodeContextInternal p := by
  cases parent <;> rfl

lemma balanced_entriesText
    (h : ∀ e ∈ es, Balanced isOpeningMark isClosingMark (encodeContextInternal e.2)) :
    Balanced isOpeningMark isClosingMark (entriesText es) := by
  have hentry : ∀ e ∈ es, Balanced isOpeningMark isClosingMark (entryText e) := fun e he => by
    refine Balanced.append (balanced_of_forall ?_) (h e he)
    cases e.1 <;> exact forall_mem_of_all (by decide)
  induction es with
  | nil => exact balanced_nil
  | cons e es ih =>
    cases es with
    | nil =>
      rw [entriesText, map_singleton, intercalate_singleton]
      exact hentry e mem_cons_self
    | cons e' es =>
      refine (hentry e mem_cons_self).append
        (Balanced.append (l := ['#']) (balanced_of_forall (forall_mem_of_all (by decide))) ?_)
      exact ih (fun e he => h e (mem_cons_of_mem _ he)) fun e he => hentry e (mem_cons_of_mem _ he)

/-- An encoding is balanced. -/
lemma WellFormed.balanced (h : info.WellFormed) :
    Balanced isOpeningMark isClosingMark (encodeContextInternal info) := by
  induction info using induction with
  | h info ihe ihp =>
    obtain ⟨hv, he, hp⟩ := wellFormed_iff.1 h
    rw [encodeContextInternal_eq]
    refine Balanced.append (balanced_of_forall (not_brackets
      (hv.not_mem_classPathText (by decide)) (hv.not_mem_classPathText (by decide)))) ?_
    refine Balanced.append ?_ ?_
    · rw [librariesText]
      split
      · exact balanced_nil
      · exact (balanced_entriesText fun e hmem => ihe e hmem (he e hmem)).brackets rfl rfl rfl
    · cases hparent : info.parent with
      | none => exact balanced_nil
      | some p =>
        exact Balanced.append (l := [';']) (balanced_of_forall (forall_mem_of_all (by decide)))
          (ihp p hparent (hp p hparent))

lemma mem_markText_append {c : Char} (hc : c ≠ '~') {isAfter : Bool} {s : List Char} :
    c ∈ markText isAfter ++ s ↔ c ∈ s := by
  cases isAfter <;> simp [markText, hc]

lemma mem_entriesText_iff :
    '#' ∈ entriesText es ↔ 2 ≤ es.length ∨ ∃ e ∈ es, '#' ∈ encodeContextInternal e.2 := by
  have hentry : ∀ e : Bool × ClassLoaderInfo, '#' ∈ entryText e ↔ '#' ∈ encodeContextInternal e.2 :=
    fun e => mem_markText_append (by decide)
  induction es with
  | nil => simp [entriesText]
  | cons e es ih =>
    cases es with
    | nil => simp [entriesText, hentry]
    | cons e' es => simp [entriesText_cons_cons]

/-- The encoding has a separator if and only if some list of shared libraries does. -/
lemma WellFormed.not_mem_encode_iff (h : info.WellFormed) :
    '#' ∉ encodeContextInternal info ↔ info.hasSeparator = false := by
  induction info using induction with
  | h info ihe ihp =>
    obtain ⟨hv, he, hp⟩ := wellFormed_iff.1 h
    have hlibs : '#' ∉ info.librariesText ↔
        info.entries.length < 2 ∧ ∀ e ∈ info.entries, e.2.hasSeparator = false := by
      rw [librariesText]
      split
      next hnil => simp [hnil]
      next hne =>
        have hinner : '#' ∉ '{' :: (entriesText info.entries ++ ['}']) ↔
            '#' ∉ entriesText info.entries := by simp
        rw [hinner, mem_entriesText_iff, not_or, not_le]
        refine and_congr Iff.rfl ?_
        simp only [not_exists, not_and]
        exact forall₂_congr fun e hmem => ihe e hmem (he e hmem)
    have hpar : '#' ∉ encodeParent info.parent ↔ ∀ p ∈ info.parent, p.hasSeparator = false := by
      rw [encodeParent_eq]
      cases hparent : info.parent with
      | none => simp
      | some p => simpa using ihp p hparent (hp p hparent)
    rw [encodeContextInternal_eq, mem_append, not_or, mem_append, not_or, hlibs, hpar,
      hasSeparator_eq_false_iff, and_assoc]
    exact and_iff_right (hv.not_mem_classPathText (by decide))

/-- An encoding begins with the name of a type. -/
lemma Valid.encode_head (h : info.Valid) :
    ∃ c s, encodeContextInternal info = c :: s ∧ c ≠ '~' ∧ c ≠ ';' := by
  have hname : ∃ c s, info.type.typeName = c :: s ∧ c ≠ '~' ∧ c ≠ ';' := by
    have htype := h.type
    cases ht : info.type with
    | invalidClassLoader => exact absurd ht htype
    | pathClassLoader => exact ⟨'P', "CL".toList, by decide⟩
    | delegateLastClassLoader => exact ⟨'D', "LC".toList, by decide⟩
    | inMemoryDexClassLoader => exact ⟨'I', "MC".toList, by decide⟩
  obtain ⟨c, s, hs, hne⟩ := hname
  exact ⟨c, _, by rw [encodeContextInternal_eq, classPathText, hs]; rfl, hne⟩

/-- The spec of the class loader alone ends in a closing mark. -/
lemma exists_last (info : ClassLoaderInfo) :
    ∃ s c, info.classPathText ++ info.librariesText = s ++ [c] ∧ (c = ']' ∨ c = '}') := by
  rw [librariesText]
  split
  · exact ⟨info.type.typeName ++ '[' :: info.elementsText, ']', by simp [classPathText], .inl rfl⟩
  · exact ⟨info.classPathText ++ '{' :: entriesText info.entries, '}', by simp, .inr rfl⟩

lemma encode_last (info : ClassLoaderInfo) :
    ∃ s c, encodeContextInternal info = s ++ [c] ∧ (c = ']' ∨ c = '}') := by
  induction info using induction with
  | h info ihe ihp =>
    rw [encodeContextInternal_eq, encodeParent_eq]
    cases hparent : info.parent with
    | none => simpa using info.exists_last
    | some p =>
      obtain ⟨s, c, hs, hc⟩ := ihp p hparent
      exact ⟨info.classPathText ++ info.librariesText ++ ';' :: s, c, by simp [hs], hc⟩

lemma entriesText_last (hne : es ≠ []) : ∃ s c, entriesText es = s ++ [c] ∧ (c = ']' ∨ c = '}') := by
  induction es with
  | nil => exact absurd rfl hne
  | cons e es ih =>
    cases es with
    | nil =>
      obtain ⟨s, c, hs, hc⟩ := e.2.encode_last
      refine ⟨markText e.1 ++ s, c, ?_, hc⟩
      rw [entriesText, map_singleton, intercalate_singleton, entryText, hs, append_assoc]
    | cons e' es =>
      obtain ⟨s, c, hs, hc⟩ := ih (by simp)
      exact ⟨entryText e ++ '#' :: s, c, by rw [entriesText_cons_cons, hs]; simp, hc⟩

/-- The first shared libraries of an encoding. -/
lemma WellFormed.exists_libraries (h : info.WellFormed) :
    ('{' ∉ encodeContextInternal info ∧ '#' ∉ encodeContextInternal info ∧ info.endsAtLibraries = true) ∨
    ∃ a b r, encodeContextInternal info = a ++ '{' :: (b ++ '}' :: r) ∧ '{' ∉ a ∧ '#' ∉ a ∧
      Balanced isOpeningMark isClosingMark b ∧ (info.endsAtLibraries = true → r = []) ∧
        (info.endsAtLibraries = false → ∃ r', r = ';' :: r') := by
  induction info using induction with
  | h info ihe ihp =>
    obtain ⟨hv, he, hp⟩ := wellFormed_iff.1 h
    have hopen : '{' ∉ info.classPathText := hv.not_mem_classPathText (by decide)
    have hsep : '#' ∉ info.classPathText := hv.not_mem_classPathText (by decide)
    rw [encodeContextInternal_eq, encodeParent_eq]
    have hends : info.endsAtLibraries = match info.parent with
        | none => true
        | some p => decide (info.entries = []) && p.endsAtLibraries := by
      obtain ⟨type, classpath, checksums, dexFiles, libs, after, parent⟩ := info
      cases parent with
      | none => rfl
      | some p => cases libs <;> cases after <;> simp [endsAtLibraries, entries, parent,
          sharedLibraries, sharedLibrariesAfter]
    rw [hends]
    by_cases hnil : info.entries = []
    · rw [librariesText, if_pos hnil]
      cases hparent : info.parent with
      | none => exact .inl ⟨by simpa using hopen, by simpa using hsep, rfl⟩
      | some p =>
        dsimp only
        rw [decide_eq_true hnil, Bool.true_and]
        refine (ihp p hparent (hp p hparent)).imp (fun ⟨ho, hs, hend⟩ => ⟨?_, ?_, hend⟩)
          fun ⟨a, b, r, heq, ho, hs, hb, hr⟩ =>
            ⟨info.classPathText ++ ';' :: a, b, r, by simp [heq], ?_, ?_, hb, hr⟩
        · simpa using ⟨hopen, ho⟩
        · simpa using ⟨hsep, hs⟩
        · simpa using ⟨hopen, ho⟩
        · simpa using ⟨hsep, hs⟩
    · refine .inr ⟨_, _, encodeParent info.parent, ?_, hopen,
        hsep, balanced_entriesText fun e hmem => (he e hmem).balanced, ?_⟩
      · rw [librariesText, if_neg hnil, encodeParent_eq]
        simp
      · rw [encodeParent_eq, decide_eq_false hnil]
        cases info.parent <;> simp

end ClassLoaderInfo

/-! ## Parsing an encoding -/

open ClassLoaderInfo

section

variable {e : Bool × ClassLoaderInfo}

lemma charAt_length_sub_one (s : List Char) (c : Char) : charAt (s ++ [c]) ((s ++ [c]).length - 1) = c := by
  rw [length_append, length_singleton]
  exact charAt_append_cons s [] c

/-- What is found in a string behind its first character. -/
lemma findFirstOf_cons_ne {c x : Char} (h : x ≠ c) (s : List Char) :
    findFirstOf (x :: s) c 0 = (findFirstOf s c 0).map (· + 1) :=
  findFirstOf_append (a := [x]) (by simpa using Ne.symm h) s

/-- `ParseInternal` splits a string at the first separator. -/
lemma nextClassLoader_separator {a x : List Char} (ho : '{' ∉ a) (hs : ';' ∉ a) :
    nextClassLoader (a ++ ';' :: x) = some (a, x) := by
  have hplain : some ((a ++ ';' :: x).take a.length, (a ++ ';' :: x).drop (a.length + 1)) = some (a, x) := by
    rw [take_left, ← drop_drop, drop_left, drop_one, tail_cons]
  rw [nextClassLoader, findFirstOf_append_cons hs, findFirstOf_append ho, findFirstOf_cons_ne (by decide)]
  rcases findFirstOf x '{' 0 with _ | m
  · exact hplain
  · dsimp only [map_some]
    rw [if_pos (by omega)]
    exact hplain

/-- If shared libraries come first, `ParseInternal` splits behind them. -/
lemma nextClassLoader_libraries {a b r : List Char} (ho : '{' ∉ a) (hs : ';' ∉ a)
    (hb : Balanced isOpeningMark isClosingMark b)
    (hlen : (a ++ '{' :: (b ++ '}' :: r)).length < 2 ^ 32) (hr : r = [] ∨ ∃ x ≠ [], r = ';' :: x) :
    nextClassLoader (a ++ '{' :: (b ++ '}' :: r)) = some (a ++ '{' :: (b ++ ['}']), r.tail) := by
  have hmatch := findMatching_balanced hlen hb
  have hlength : a.length + 1 + b.length + 1 = (a ++ '{' :: (b ++ ['}'])).length := by
    simp only [length_append, length_cons, length_nil]
    omega
  rw [nextClassLoader, findFirstOf_append_cons ho, findFirstOf_append hs]
  rcases hf : findFirstOf _ ';' 0 with _ | m
  · rcases hr with rfl | ⟨x, -, rfl⟩
    · rfl
    · rw [findFirstOf_zero, findIdx?_eq_none_iff] at hf
      exact absurd (hf ';' (by simp)) (by decide)
  · dsimp only [map_some]
    rw [if_neg (by omega), hmatch]
    dsimp only
    rcases hr with rfl | ⟨x, hx, rfl⟩
    · rw [if_pos hlength.symm, hlength, take_length]
      rfl
    have hsplit : a ++ '{' :: (b ++ '}' :: ';' :: x) = (a ++ '{' :: (b ++ ['}'])) ++ ';' :: x := by simp
    generalize a ++ '{' :: (b ++ ['}']) = p at hsplit hlength ⊢
    rw [hsplit, show a.length + 1 + b.length + 2 = p.length + 1 by omega, hlength,
      charAt_append_cons, if_neg, if_neg, take_left, ← drop_drop, drop_left, drop_one, tail_cons]
    · simp
      omega
    · rw [length_append, length_cons]
      omega

/-- `ParseInternal` splits the encoding at the parent. -/
lemma nextClassLoader_encode (h : info.WellFormed) (hlen : (encodeContextInternal info).length < 2 ^ 32) :
    nextClassLoader (encodeContextInternal info) = some (info.classPathText ++ info.librariesText,
        (info.parent.map encodeContextInternal).getD []) := by
  obtain ⟨hv, he, hp⟩ := wellFormed_iff.1 h
  have hopen : '{' ∉ info.classPathText := hv.not_mem_classPathText (by decide)
  have hsep : ';' ∉ info.classPathText := hv.not_mem_classPathText (by decide)
  have hbal := balanced_entriesText fun e hmem => (he e hmem).balanced
  rw [encodeContextInternal_eq, encodeParent_eq, librariesText] at hlen ⊢
  split at hlen
  next hnil =>
    rw [if_pos hnil, nil_append, append_nil]
    cases hparent : info.parent with
    | none =>
      rw [append_nil, nextClassLoader, findFirstOf_eq_none hsep]
      rfl
    | some p => exact nextClassLoader_separator hopen hsep
  next hne =>
    rw [if_neg hne]
    rw [cons_append, append_assoc] at hlen ⊢
    cases hparent : info.parent with
    | none =>
      rw [hparent] at hlen
      exact nextClassLoader_libraries hopen hsep hbal hlen (.inl rfl)
    | some p =>
      rw [hparent] at hlen
      obtain ⟨c, s, hs, -⟩ := (wellFormed_iff.1 (hp p hparent)).1.encode_head
      exact nextClassLoader_libraries hopen hsep hbal hlen (.inr ⟨_, by simp [hs], rfl⟩)

lemma substr_left (a b : List Char) (k : ℕ) : substr (a ++ b) a.length k = b.take k := by
  rw [substr, drop_left]

/-- The mark of the next shared library is found. -/
lemma isAfter_entryText (hv : Valid e.2) (pre tail : List Char) :
    (charAt (pre ++ (markText e.1 ++ (encodeContextInternal e.2 ++ tail))) pre.length == '~') = e.1 := by
  obtain ⟨c, s, hs, hne, -⟩ := hv.encode_head
  rw [hs]
  cases e.1
  · simpa [charAt, markText] using hne
  · simp [charAt, markText]

lemma length_append_markText (pre : List Char) (isAfter : Bool) :
    (if isAfter = true then pre.length + 1 else pre.length) = (pre ++ markText isAfter).length := by
  cases isAfter <;> simp [markText]

/-- Without a separator, the rest is one shared library. -/
lemma nextSharedLibrary_last (hv : Valid e.2) (pre : List Char) (hsep : '#' ∉ encodeContextInternal e.2) :
    nextSharedLibrary (pre ++ entryText e) pre.length =
      some (e.1, encodeContextInternal e.2, (pre ++ entryText e).length) := by
  have hafter := isAfter_entryText hv pre []
  rw [append_nil] at hafter
  rw [nextSharedLibrary, findFirstOf_drop, drop_left, entryText,
    findFirstOf_eq_none (mt (mem_markText_append (by decide)).1 hsep)]
  dsimp only [Option.map_none]
  rw [hafter, length_append_markText, ← append_assoc, substr_left, take_of_length_le]
  rw [length_append]
  omega

/-- A shared library without shared libraries ends at the separator. -/
lemma nextSharedLibrary_separator (hv : Valid e.2) (pre tail : List Char)
    (hopen : '{' ∉ encodeContextInternal e.2) (hsep : '#' ∉ encodeContextInternal e.2) :
    nextSharedLibrary (pre ++ (entryText e ++ '#' :: tail)) pre.length =
      some (e.1, encodeContextInternal e.2, (pre ++ (entryText e ++ ['#'])).length) := by
  have hafter := isAfter_entryText hv pre ('#' :: tail)
  have hmark : '#' ∉ markText e.1 ++ encodeContextInternal e.2 := mt (mem_markText_append (by decide)).1 hsep
  have hmark' : '{' ∉ markText e.1 ++ encodeContextInternal e.2 := mt (mem_markText_append (by decide)).1 hopen
  rw [nextSharedLibrary, findFirstOf_drop, findFirstOf_drop _ '{', drop_left, entryText,
    findFirstOf_append_cons hmark, findFirstOf_append hmark', findFirstOf_cons_ne (by decide)]
  dsimp only [map_some]
  rw [append_assoc, hafter, length_append_markText, ← append_assoc pre, substr_left]
  generalize encodeContextInternal e.2 = text
  have hlen : (markText e.1 ++ text).length + pre.length - (pre ++ markText e.1).length = text.length := by
    simp only [length_append]
    omega
  have hend : (markText e.1 ++ text).length + pre.length + 1 = (pre ++ (markText e.1 ++ text ++ ['#'])).length := by
    simp only [length_append, length_cons, length_nil]
    omega
  rcases findFirstOf tail '{' 0 with _ | m
  · rw [hlen, take_left, hend]
    rfl
  · dsimp only [map_some]
    rw [if_pos (by omega), hlen, take_left, hend]

/-- If there is a separator, a shared library is taken to end at its own shared libraries. -/
lemma nextSharedLibrary_libraries (hv : Valid e.2) {pre tail a b r : List Char}
    (henc : encodeContextInternal e.2 = a ++ '{' :: (b ++ '}' :: r)) (hopen : '{' ∉ a) (hsep : '#' ∉ a)
    (hb : Balanced isOpeningMark isClosingMark b) (hmem : '#' ∈ entryText e ++ tail)
    (hlen : (pre ++ (entryText e ++ tail)).length < 2 ^ 32) :
    nextSharedLibrary (pre ++ (entryText e ++ tail)) pre.length = some (e.1, a ++ '{' :: (b ++ ['}']),
        (pre ++ (markText e.1 ++ (a ++ '{' :: (b ++ ['}'])))).length +
          if (r ++ tail).head? = some '#' then 1 else 0) := by
  have hafter := isAfter_entryText hv pre tail
  have hmark : '#' ∉ markText e.1 ++ a := mt (mem_markText_append (by decide)).1 hsep
  have hmark' : '{' ∉ markText e.1 ++ a := mt (mem_markText_append (by decide)).1 hopen
  have htext : entryText e ++ tail = (markText e.1 ++ a) ++ '{' :: (b ++ '}' :: (r ++ tail)) := by
    rw [entryText, henc]
    simp
  obtain ⟨m, hm⟩ : ∃ m, findFirstOf (b ++ '}' :: (r ++ tail)) '#' 0 = some m := by
    rcases hf : findFirstOf _ '#' 0 with _ | m
    · rw [findFirstOf_zero, findIdx?_eq_none_iff] at hf
      rw [htext, mem_append, mem_cons] at hmem
      have hmem' := (hmem.resolve_left hmark).resolve_left (by decide)
      exact absurd (hf '#' hmem') (by decide)
    · exact ⟨m, rfl⟩
  -- the part that is taken, and what is left
  generalize hp : pre ++ (markText e.1 ++ (a ++ '{' :: (b ++ ['}']))) = p
  have hspec : pre ++ (entryText e ++ tail) = p ++ (r ++ tail) := by
    rw [htext, ← hp]
    simp
  have hspec' : pre ++ (entryText e ++ tail) =
      (pre ++ (markText e.1 ++ a)) ++ '{' :: (b ++ '}' :: (r ++ tail)) := by
    rw [htext]
    simp
  have hlength : (pre ++ (markText e.1 ++ a)).length + 1 + b.length + 1 = p.length := by
    rw [← hp]
    simp only [length_append, length_cons, length_nil]
    omega
  have hmatch : findMatchingSharedLibraryCloseMarker (pre ++ (entryText e ++ tail))
      ((markText e.1 ++ a).length + pre.length) =
      some ((pre ++ (markText e.1 ++ a)).length + 1 + b.length) := by
    rw [hspec'] at hlen ⊢
    rw [← findMatching_balanced hlen hb, add_comm, ← length_append]
  have hstart : substr (pre ++ (entryText e ++ tail)) (pre ++ markText e.1).length
      (p.length - (pre ++ markText e.1).length) = a ++ '{' :: (b ++ ['}']) := by
    have hsub : pre ++ (entryText e ++ tail) =
        (pre ++ markText e.1) ++ ((a ++ '{' :: (b ++ ['}'])) ++ (r ++ tail)) := by
      rw [htext]
      simp
    have hcount : p.length - (pre ++ markText e.1).length = (a ++ '{' :: (b ++ ['}'])).length := by
      rw [← hp, ← append_assoc, length_append, Nat.add_sub_cancel_left]
    rw [hsub, substr_left, hcount, take_left]
  have hcursor : (if p.length ≠ (pre ++ (entryText e ++ tail)).length &&
        charAt (pre ++ (entryText e ++ tail)) p.length = '#' then p.length + 1 else p.length) =
      p.length + if (r ++ tail).head? = some '#' then 1 else 0 := by
    rw [hspec]
    cases hrest : r ++ tail with
    | nil => simp
    | cons c rest =>
      rw [charAt_append_cons, head?_cons]
      by_cases hc : c = '#' <;> simp [hc]
  rw [nextSharedLibrary, findFirstOf_drop, findFirstOf_drop _ '{', drop_left, htext,
    findFirstOf_append hmark, findFirstOf_append_cons hmark', findFirstOf_cons_ne (by decide), hm, ← htext]
  dsimp only [map_some]
  rw [entryText, append_assoc] at hmatch hstart hcursor ⊢
  rw [hafter, length_append_markText, if_neg (by omega), hmatch]
  dsimp only
  rw [show (pre ++ (markText e.1 ++ a)).length + 1 + b.length + 2 = p.length + 1 by omega, hlength,
    hstart, hcursor]

/-- The rest of a list of shared libraries. -/
lemma exists_entriesText_cons (e : Bool × ClassLoaderInfo) (es : List (Bool × ClassLoaderInfo)) :
    ∃ tail, entriesText (e :: es) = entryText e ++ tail ∧ (es = [] → tail = []) ∧
      (es ≠ [] → tail = '#' :: entriesText es) := by
  cases es with
  | nil => exact ⟨[], by simp [entriesText], fun _ => rfl, absurd rfl⟩
  | cons e' es => exact ⟨_, entriesText_cons_cons e e' es, by simp, fun _ => rfl⟩

lemma length_le_entriesText (h : e ∈ es) :
    (encodeContextInternal e.2).length ≤ (entriesText es).length := by
  induction es with
  | nil => cases h
  | cons e' es ih =>
    obtain ⟨tail, htail, -, hcons⟩ := exists_entriesText_cons e' es
    rw [htail, length_append]
    rcases mem_cons.1 h with rfl | h
    · rw [entryText, length_append]
      omega
    · rw [hcons (ne_nil_of_mem h), length_cons]
      exact (ih h).trans (by omega)

variable (hw : WellFormed e.2) (pre : List Char) (hlen : (pre ++ entriesText (e :: es)).length < 2 ^ 32)

include hw hlen in
/-- A shared library that ends at its own shared libraries, or is the last one and has no separator,
    is found. -/
lemma nextSharedLibrary_entries (hgood : e.2.endsAtLibraries = true ∨ es = [] ∧ e.2.hasSeparator = false) :
    ∃ pre', pre ++ entriesText (e :: es) = pre' ++ entriesText es ∧
      nextSharedLibrary (pre ++ entriesText (e :: es)) pre.length =
        some (e.1, encodeContextInternal e.2, pre'.length) := by
  have hv := (wellFormed_iff.1 hw).1
  obtain ⟨tail, htail, hnil, hcons⟩ := exists_entriesText_cons e es
  rw [htail] at hlen ⊢
  by_cases hmem : '#' ∈ entryText e ++ tail
  swap
  · have hes : es = [] := by
      by_contra hne
      rw [hcons hne] at hmem
      exact hmem (by simp)
    rw [hnil hes, append_nil] at hmem ⊢
    rw [entryText, mem_markText_append (by decide)] at hmem
    exact ⟨pre ++ entryText e, by rw [hes]; simp [entriesText], nextSharedLibrary_last hv pre hmem⟩
  rcases hw.exists_libraries with ⟨hopen, hsep, -⟩ | ⟨a, b, r, henc, hopen, hsep, hb, hr, -⟩
  · have hne : es ≠ [] := by
      intro hes
      rw [hnil hes, append_nil, entryText, mem_markText_append (by decide)] at hmem
      exact hsep hmem
    rw [hcons hne]
    exact ⟨_, by simp, nextSharedLibrary_separator hv pre _ hopen hsep⟩
  · have hends : e.2.endsAtLibraries = true := by
      refine hgood.resolve_right fun ⟨hes, hno⟩ => ?_
      rw [hnil hes, append_nil, entryText, mem_markText_append (by decide)] at hmem
      exact hw.not_mem_encode_iff.2 hno hmem
    obtain rfl := hr hends
    rw [nextSharedLibrary_libraries hv henc hopen hsep hb hmem hlen, ← henc]
    rcases eq_or_ne es [] with hes | hne
    · refine ⟨pre ++ entryText e, by rw [hnil hes, hes]; simp [entriesText], ?_⟩
      simp [hnil hes, entryText]
    · refine ⟨pre ++ (entryText e ++ ['#']), by rw [hcons hne]; simp, ?_⟩
      simp only [hcons hne, nil_append, head?_cons, if_true, entryText]
      simp [add_assoc]

include hw hlen in
/-- In the other case, the search goes on at the separator of its parent. -/
lemma nextSharedLibrary_parent (hends : e.2.endsAtLibraries = false)
    (hbad : es ≠ [] ∨ e.2.hasSeparator = true) : ∃ s pre' r, pre ++ entriesText (e :: es) = pre' ++ ';' :: r ∧
      nextSharedLibrary (pre ++ entriesText (e :: es)) pre.length = some (e.1, s, pre'.length) := by
  have hv := (wellFormed_iff.1 hw).1
  obtain ⟨tail, htail, hnil, hcons⟩ := exists_entriesText_cons e es
  rw [htail] at hlen ⊢
  have hmem : '#' ∈ entryText e ++ tail := by
    rcases hbad with hne | hsep
    · rw [hcons hne]
      simp
    · by_contra hmem
      rw [entryText, append_assoc, mem_append, not_or, mem_append, not_or] at hmem
      rw [hw.not_mem_encode_iff.1 hmem.2.1] at hsep
      cases hsep
  rcases hw.exists_libraries with ⟨-, -, h⟩ | ⟨a, b, r, henc, hopen, hsep, hb, -, hr⟩
  · rw [hends] at h
    cases h
  · obtain ⟨r', rfl⟩ := hr hends
    refine ⟨a ++ '{' :: (b ++ ['}']), pre ++ (markText e.1 ++ (a ++ '{' :: (b ++ ['}']))), r' ++ tail, ?_, ?_⟩
    · rw [entryText, henc]
      simp
    · rw [nextSharedLibrary_libraries hv henc hopen hsep hb hmem hlen]
      simp

end

section

/-- A spec that begins with the separator of a parent is invalid. -/
lemma parseInternal_separator (fuel : ℕ) (s : List Char) :
    parseInternal parseUint true fuel (';' :: s) = none := by
  cases fuel with
  | zero => rfl
  | succ fuel =>
    rw [parseInternal]
    have hnext := nextClassLoader_separator (a := []) (x := s) (by simp) (by simp)
    rw [nil_append] at hnext
    rw [hnext]
    cases fuel <;> rfl

lemma nextSharedLibrary_eq_some {spec s : List Char} {cursor cursor' : ℕ} {isAfter : Bool}
    (h : nextSharedLibrary spec cursor = some (isAfter, s, cursor')) :
    ∃ k, s = substr spec (if charAt spec cursor == '~' then cursor + 1 else cursor) k := by
  rw [nextSharedLibrary] at h
  dsimp only at h
  split at h
  · cases h
    exact ⟨_, rfl⟩
  · split at h
    · cases h
      exact ⟨_, rfl⟩
    · split at h
      · cases h
        exact ⟨_, rfl⟩
      · split at h
        · cases h
        · cases h
          exact ⟨_, rfl⟩

/-- The loop over shared libraries stops where it comes to the separator of a parent. -/
lemma parseSharedLibraries_separator (fuel : ℕ) (pre s : List Char) :
    parseSharedLibraries parseUint true fuel (pre ++ ';' :: s) pre.length = none := by
  cases fuel with
  | zero => rfl
  | succ fuel =>
    rw [parseSharedLibraries, if_neg (by simp)]
    rcases hnext : nextSharedLibrary _ pre.length with _ | ⟨isAfter, spec, cursor⟩
    · rfl
    · obtain ⟨k, rfl⟩ := nextSharedLibrary_eq_some hnext
      rw [charAt_append_cons, if_neg (by decide), substr_left] at hnext ⊢
      have hnone : parseInternal parseUint true fuel ((';' :: s).take k) = none := by
        cases k with
        | zero => cases fuel <;> rfl
        | succ k => exact parseInternal_separator fuel _
      change (parseInternal parseUint true fuel ((';' :: s).take k)).bind _ = none
      rw [hnone]
      rfl

variable (hparse : ∀ n : UInt32, parseUint (toDigits 10 n.toNat) = some n)

/-- The libraries of a list of entries that are parsed. -/
def parsedEntries (es : List (Bool × ClassLoaderInfo)) : List ClassLoaderInfo × List ClassLoaderInfo :=
  ((es.filter (!·.1)).map (·.2.withoutDexFiles), (es.filter (·.1)).map (·.2.withoutDexFiles))

lemma parsedEntries_entries (info : ClassLoaderInfo) :
    parsedEntries info.entries = (info.sharedLibraries.map withoutDexFiles,
      info.sharedLibrariesAfter.map withoutDexFiles) := by
  have htrue : ∀ l : List ClassLoaderInfo, l.filter (fun _ => true) = l := fun l =>
    filter_eq_self.2 fun _ _ => rfl
  have hfalse : ∀ l : List ClassLoaderInfo, l.filter (fun _ => false) = [] := fun l =>
    filter_eq_nil_iff.2 fun _ _ => Bool.false_ne_true
  simp [parsedEntries, entries, filter_append, filter_map, Function.comp_def, htrue, hfalse]

variable {fuel : ℕ}

/-- A list of shared libraries is parsed if and only if it is separable, and so are its entries. -/
lemma parseSharedLibraries_entriesText (hw : ∀ e ∈ es, WellFormed e.2)
    (ih : ∀ e ∈ es, ∀ fuel, 2 * (encodeContextInternal e.2).length ≤ fuel →
      parseInternal parseUint true fuel (encodeContextInternal e.2) =
        if e.2.separable then some e.2.withoutDexFiles else none) {pre : List Char}
    (hlen : (pre ++ entriesText es).length < 2 ^ 32)
    (hfuel : 2 * (entriesText es).length + 1 ≤ fuel) :
    parseSharedLibraries parseUint true fuel (pre ++ entriesText es) pre.length =
      if separableEntries es && es.all (·.2.separable) then some (parsedEntries es) else none := by
  obtain ⟨fuel, rfl⟩ : ∃ n, fuel = n + 1 := ⟨fuel - 1, by omega⟩
  induction es generalizing pre fuel with
  | nil =>
    rw [parseSharedLibraries, if_pos (by simp [entriesText])]
    rfl
  | cons e es ihes =>
    have hwe := hw e mem_cons_self
    have hhead : 0 < (entryText e).length := by
      obtain ⟨c, s, hs, -⟩ := (wellFormed_iff.1 hwe).1.encode_head
      rw [entryText, hs]
      simp
    have hle : (entryText e).length ≤ (entriesText (e :: es)).length := by
      rw [entriesText_cons, length_append]
      omega
    rw [parseSharedLibraries, if_neg (by rw [length_append]; omega), separableEntries, all_cons]
    by_cases hgood : e.2.endsAtLibraries = true ∨ es = [] ∧ e.2.hasSeparator = false
    · obtain ⟨pre', hspec, hnext⟩ := nextSharedLibrary_entries hwe pre hlen hgood
      have hgood' : (e.2.endsAtLibraries || (es.isEmpty && !e.2.hasSeparator)) = true := by
        simpa using hgood
      have hlt : (entriesText es).length < (entriesText (e :: es)).length := by
        obtain ⟨tail, htail, hnil, hcons⟩ := exists_entriesText_cons e es
        rw [htail, length_append]
        rcases eq_or_ne es [] with hes | hne
        · rw [hes, show entriesText [] = [] from rfl, length_nil]
          omega
        · rw [hcons hne, length_cons]
          omega
      have hrest := ihes (fun e' he' => hw e' (mem_cons_of_mem _ he'))
        (fun e' he' => ih e' (mem_cons_of_mem _ he')) (hspec ▸ hlen) (fuel - 1) (by omega)
      rw [Nat.sub_add_cancel (by omega)] at hrest
      rw [hnext, hgood', Bool.true_and]
      dsimp only [bind_eq_bind, bind_some]
      rw [ih e mem_cons_self fuel (by rw [entryText, length_append] at hle; omega), hspec, hrest]
      cases e.2.separable
      · simp
      · cases separableEntries es
        · simp
        · cases es.all (·.2.separable)
          · simp
          · obtain ⟨isAfter, info⟩ := e
            cases isAfter <;> simp [parsedEntries]
    · rw [not_or, not_and_or, Bool.not_eq_true, Bool.not_eq_false] at hgood
      obtain ⟨s, pre', r, hspec, hnext⟩ := nextSharedLibrary_parent hwe pre hlen hgood.1 hgood.2
      have hbad' : (e.2.endsAtLibraries || (es.isEmpty && !e.2.hasSeparator)) = false := by
        rcases hgood with ⟨hends, hne | hsep⟩ <;> simp_all
      rw [hnext, hbad', Bool.false_and, Bool.false_and, if_neg Bool.false_ne_true]
      dsimp only [bind_eq_bind, bind_some]
      rw [hspec, parseSharedLibraries_separator]
      cases parseInternal parseUint true fuel s <;> rfl

include hparse

/-- The spec of a class loader is parsed if and only if its shared libraries are. -/
lemma parseClassLoaderSpec_encode (hw : info.WellFormed)
    (ih : ∀ e ∈ info.entries, ∀ fuel, 2 * (encodeContextInternal e.2).length ≤ fuel →
      parseInternal parseUint true fuel (encodeContextInternal e.2) =
        if e.2.separable then some e.2.withoutDexFiles else none)
    (hlen : (info.classPathText ++ info.librariesText).length < 2 ^ 32)
    (hfuel : 2 * (info.classPathText ++ info.librariesText).length ≤ fuel + 1) :
    parseClassLoaderSpec parseUint true fuel (info.classPathText ++ info.librariesText) =
      if separableEntries info.entries && info.entries.all (·.2.separable) then
        some (.mk info.type info.classpath info.checksums []
          (info.sharedLibraries.map withoutDexFiles) (info.sharedLibrariesAfter.map withoutDexFiles)
          none)
      else none := by
  obtain ⟨hv, he, -⟩ := wellFormed_iff.1 hw
  have hcp : 2 ≤ info.classPathText.length := by
    rw [classPathText]
    simp only [length_append, length_cons, length_nil]
    omega
  obtain ⟨fuel, rfl⟩ : ∃ n, fuel = n + 1 := ⟨fuel - 1, by rw [length_append] at hfuel; omega⟩
  have hpath := parseClassPath_classPathText hparse hv (s := info.librariesText) (by
    obtain ⟨s, c, hs, hc⟩ := info.exists_last
    rw [hs, charAt_length_sub_one]
    exact hc)
  rw [parseClassLoaderSpec, hpath]
  dsimp only [bind_eq_bind, bind_some]
  by_cases hnil : info.entries = []
  · have htext : info.classPathText ++ info.librariesText =
        (info.type.typeName ++ '[' :: info.elementsText) ++ [']'] := by
      rw [librariesText, if_pos hnil, classPathText]
      simp
    have hlibs : info.sharedLibraries = [] ∧ info.sharedLibrariesAfter = [] := by
      simpa [entries] using hnil
    rw [htext, charAt_length_sub_one, if_neg (by simp), hnil, hlibs.1, hlibs.2]
    rfl
  · have htext : info.librariesText = '{' :: (entriesText info.entries ++ ['}']) := if_neg hnil
    obtain ⟨s, c, hs, hc⟩ := entriesText_last hnil
    have hlibs : parseSharedLibraries parseUint true fuel ([] ++ entriesText info.entries) 0 = _ :=
      parseSharedLibraries_entriesText he ih (by simp [htext] at hlen ⊢; omega)
        (by simp [htext] at hfuel; omega)
    have hfind := findFirstOf_append_cons (hv.not_mem_classPathText (c := '{') (by decide))
    rw [htext]
    generalize info.classPathText = p at hfind ⊢
    have hsplit : p ++ '{' :: (entriesText info.entries ++ ['}']) = (p ++ '{' :: s) ++ [c, '}'] := by simp [hs]
    generalize p ++ '{' :: s = q at hsplit
    have hne : c ≠ '{' := by
      rintro rfl
      revert hc
      decide
    have hinner : ∀ t : List Char, substr (p ++ '{' :: (t ++ ['}'])) (p.length + 1)
        ((p ++ '{' :: (t ++ ['}'])).length - p.length - 2) = t := by
      intro t
      have hcount : (p ++ '{' :: (t ++ ['}'])).length - p.length - 2 = t.length := by simp
      rw [hcount, substr, ← drop_drop, drop_left, drop_one, tail_cons, take_left]
    rw [if_pos (by rw [hsplit]; simp [charAt, hne]), hfind]
    dsimp only
    rw [hinner]
    rw [nil_append] at hlibs
    rw [hlibs, parsedEntries_entries]
    cases separableEntries _ && info.entries.all (·.2.separable) <;> rfl

/-- The encoding of a class loader is parsed if and only if the class loader is separable. -/
lemma parseInternal_encodeContextInternal (hw : info.WellFormed)
    (hlen : (encodeContextInternal info).length < 2 ^ 32)
    (hfuel : 2 * (encodeContextInternal info).length ≤ fuel) :
    parseInternal parseUint true fuel (encodeContextInternal info) =
      if info.separable then some info.withoutDexFiles else none := by
  induction info using induction generalizing fuel with
  | h info ihe ihp =>
    obtain ⟨hv, he, hp⟩ := wellFormed_iff.1 hw
    obtain ⟨c, s, hs, -⟩ := hv.encode_head
    have hpos : 0 < (encodeContextInternal info).length := by
      rw [hs]
      simp
    obtain ⟨fuel, rfl⟩ : ∃ n, fuel = n + 1 := ⟨fuel - 1, by omega⟩
    have hsum : (encodeContextInternal info).length = info.classPathText.length +
        (info.librariesText.length + (encodeParent info.parent).length) := by
      rw [encodeContextInternal_eq, length_append, length_append]
    have hentry : ∀ e ∈ info.entries, (encodeContextInternal e.2).length < 2 ^ 32 := fun e hmem => by
      have hle := length_le_entriesText hmem
      rw [librariesText, if_neg (ne_nil_of_mem hmem), length_cons, length_append] at hsum
      omega
    have hspec := parseClassLoaderSpec_encode hparse hw
      (fun e hmem _ hf => ihe e hmem (he e hmem) (hentry e hmem) hf)
      (by rw [length_append]; omega) (show _ ≤ fuel + 1 by rw [length_append]; omega)
    rw [parseInternal, if_neg (by simp [hs]), nextClassLoader_encode hw hlen]
    dsimp only [bind_eq_bind, bind_some]
    rw [hspec, withoutDexFiles_eq]
    have hsep : info.separable = ((separableEntries info.entries &&
        info.entries.all (·.2.separable)) && (info.parent.all (·.separable))) := by
      rw [Bool.eq_iff_iff, separable_iff, Bool.and_eq_true, Bool.and_eq_true, all_eq_true, and_assoc]
      refine and_congr Iff.rfl (and_congr Iff.rfl ?_)
      cases info.parent <;> simp
    rw [hsep]
    cases hparent : info.parent with
    | none =>
      cases separableEntries _ && info.entries.all (·.2.separable) <;> simp
    | some p =>
      rw [encodeParent_eq, hparent] at hsum
      simp only [length_cons] at hsum
      have hpar := ihp p hparent (hp p hparent) (by omega) (show _ ≤ fuel by omega)
      obtain ⟨c', s', hs', -⟩ := (wellFormed_iff.1 (hp p hparent)).1.encode_head
      have hne : (encodeContextInternal p).isEmpty = false := by
        rw [hs']
        rfl
      cases separableEntries _ && info.entries.all (·.2.separable)
      · rfl
      · simp only [map_some, Option.getD_some, hne, hpar, Option.all_some, Bool.true_and]
        cases p.separable <;> rfl

/-- A context is given back by its encoding if and only if it is separable. The spec has to be shorter
    than the 32-bit index of the search for a closing mark allows. -/
theorem parse_encodeContextForOatFile (hw : info.WellFormed)
    (hlen : (encodeContextForOatFile (some info)).length < 2 ^ 32) :
    parse parseUint true (encodeContextForOatFile (some info)) = some info.withoutDexFiles ↔
      info.separable = true := by
  obtain ⟨c, s, hs, -⟩ := (wellFormed_iff.1 hw).1.encode_head
  rw [encodeContextForOatFile] at hlen ⊢
  rw [parse, if_neg (by simp [hs]), parseInternal_encodeContextInternal hparse hw hlen (by omega)]
  cases info.separable <;> simp

end

/-! ## Examples -/

/-- `ParseUint` on decimal digits. -/
def parseDecimal (s : List Char) : Option UInt32 :=
  if s ≠ [] ∧ s.all Char.isDigit ∧ ofDigitChars 10 s 0 < 2 ^ 32 then
    some (UInt32.ofNat (ofDigitChars 10 s 0))
  else none

lemma parseDecimal_toDigits (n : UInt32) : parseDecimal (toDigits 10 n.toNat) = some n := by
  have hn : ofDigitChars 10 (toDigits 10 n.toNat) 0 = n.toNat :=
    ofDigitChars_toDigits (by decide) (by decide)
  rw [parseDecimal, hn, if_pos ⟨toDigits_ne_nil, all_eq_true.2 fun c hc =>
    isDigit_of_mem_toDigits (by decide) (by decide) hc, n.toNat_lt⟩, UInt32.ofNat_toNat]

/-- A class loader for a single file. -/
def singleFile (dexFile : DexFile) (libraries after : List ClassLoaderInfo)
    (parent : Option ClassLoaderInfo) : ClassLoaderInfo :=
  .mk .pathClassLoader [dexFile.location] [dexFile.locationChecksum] [dexFile] libraries after parent

/-- Some files. -/
def fileA : DexFile := ⟨['a'], 17, by decide⟩

def fileB : DexFile := ⟨['b'], 0, by decide⟩

/-- A shared library with a shared library and a parent, the last one of its list. -/
def lastWithParent : ClassLoaderInfo := singleFile fileA [singleFile fileB [] [] none]
    [singleFile fileA [singleFile fileB [] [] none] [] (some (singleFile fileB [] [] none))]
    (some (singleFile fileB [] [] none))

theorem parse_encodeContextForOatFile_lastWithParent :
    lastWithParent.WellFormed ∧ lastWithParent.separable = true ∧
      parse parseDecimal true (encodeContextForOatFile (some lastWithParent)) =
        some lastWithParent.withoutDexFiles := by
  have hw : lastWithParent.WellFormed := by decide
  have hsep : lastWithParent.separable = true := by decide
  have hlen : (encodeContextForOatFile (some lastWithParent)).length < 2 ^ 32 := by decide
  exact ⟨hw, hsep, (parse_encodeContextForOatFile parseDecimal_toDigits hw hlen).2 hsep⟩

/-- The same library, followed by another one: `PCL[a*17]{PCL[a*17]{PCL[b*0]};PCL[b*0]#PCL[b*0]}`. -/
def firstWithParent : ClassLoaderInfo := singleFile fileA
    [singleFile fileA [singleFile fileB [] [] none] [] (some (singleFile fileB [] [] none)),
      singleFile fileB [] [] none] [] none

/-- The encoding of the context is rejected. -/
theorem parse_firstWithParent : firstWithParent.WellFormed ∧ encodeContextForOatFile (some firstWithParent) =
        "PCL[a*17]\x7bPCL[a*17]\x7bPCL[b*0]\x7d;PCL[b*0]#PCL[b*0]\x7d".toList ∧
      parse parseDecimal true (encodeContextForOatFile (some firstWithParent)) = none := by
  refine ⟨by decide, by decide, ?_⟩
  rw [parse, if_neg (by decide), encodeContextForOatFile,
    parseInternal_encodeContextInternal parseDecimal_toDigits (by decide) (by decide) (by omega),
    if_neg (by decide)]

end Art
