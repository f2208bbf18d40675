import Mathlib.Algebra.Order.Ring.Nat

/-!
# Class loader contexts

`ClassLoaderContext` of `runtime/class_loader_context.cc`: a class loader is described by its
type, its class path, the shared libraries that it loads from before and after the class path
(class loaders, too), and its parent. The description is stored in oat files as a string,
written by `EncodeContextForOatFile` and read by `Parse`.
-/

namespace Art

/-! ## Class loaders -/

inductive ClassLoaderType
  | invalidClassLoader
  | pathClassLoader
  | delegateLastClassLoader
  | inMemoryDexClassLoader
  deriving DecidableEq

/-- `GetClassLoaderTypeName(type)`, which is fatal for an invalid type. -/
def ClassLoaderType.typeName : ClassLoaderType → List Char
  | invalidClassLoader => []
  | pathClassLoader => "PCL".toList
  | delegateLastClassLoader => "DLC".toList
  | inMemoryDexClassLoader => "IMC".toList

def inMemoryDexClassLoaderDexLocationMagic : List Char := "<unknown>".toList

/-- What a class loader context knows of a `DexFile`. The location is the name of a file. -/
structure DexFile where
  location : List Char
  locationChecksum : UInt32
  noNul : Char.ofNat 0 ∉ location

inductive ClassLoaderInfo
  | mk (type : ClassLoaderType) (classpath : List (List Char)) (checksums : List UInt32)
      (openedDexFiles : List DexFile) (sharedLibraries sharedLibrariesAfter : List ClassLoaderInfo)
      (parent : Option ClassLoaderInfo)

namespace ClassLoaderInfo

def type : ClassLoaderInfo → ClassLoaderType
  | mk type _ _ _ _ _ _ => type

def classpath : ClassLoaderInfo → List (List Char)
  | mk _ classpath _ _ _ _ _ => classpath

def checksums : ClassLoaderInfo → List UInt32
  | mk _ _ checksums _ _ _ _ => checksums

def openedDexFiles : ClassLoaderInfo → List DexFile
  | mk _ _ _ openedDexFiles _ _ _ => openedDexFiles

def sharedLibraries : ClassLoaderInfo → List ClassLoaderInfo
  | mk _ _ _ _ sharedLibraries _ _ => sharedLibraries

def sharedLibrariesAfter : ClassLoaderInfo → List ClassLoaderInfo
  | mk _ _ _ _ _ sharedLibrariesAfter _ => sharedLibrariesAfter

def parent : ClassLoaderInfo → Option ClassLoaderInfo
  | mk _ _ _ _ _ _ parent => parent

/-- The class loader with the given parent. -/
def withParent (info p : ClassLoaderInfo) : ClassLoaderInfo :=
  mk info.type info.classpath info.checksums info.openedDexFiles info.sharedLibraries
    info.sharedLibrariesAfter (some p)

end ClassLoaderInfo

/-! ## Encoding -/

/-- `EncodeClassPath` with an empty base directory. -/
def encodeClassPath (type : ClassLoaderType) (locations : List (List Char))
    (checksums : List UInt32) : List Char :=
  type.typeName ++ ['['] ++ [':'].intercalate (List.zipWith (fun location checksum =>
      (if type = .inMemoryDexClassLoader then inMemoryDexClassLoaderDexLocationMagic
        else location) ++ ['*'] ++ Nat.toDigits 10 checksum.toNat) locations checksums) ++ [']']

mutual
/-- `EncodeContextInternal` for an oat file, with an empty base directory and without a stored
    context. -/
def encodeContextInternal : ClassLoaderInfo → List Char
  | .mk type _ _ openedDexFiles sharedLibraries sharedLibrariesAfter parent =>
    encodeClassPath type (openedDexFiles.map (·.location)) (openedDexFiles.map (·.locationChecksum)) ++
      -- `EncodeSharedLibAndParent`
      (if !sharedLibraries.isEmpty || !sharedLibrariesAfter.isEmpty then
        ['{'] ++ encodeSharedLibraries [] false sharedLibraries ++
          encodeSharedLibraries ['~'] (!sharedLibraries.isEmpty) sharedLibrariesAfter ++ ['}']
      else []) ++ encodeParent parent

/-- A loop over shared libraries in `EncodeSharedLibAndParent`. Each library has the mark, and a
    separator unless it is the first. -/
def encodeSharedLibraries (mark : List Char) : Bool → List ClassLoaderInfo → List Char
  | _, [] => []
  | separate, library :: libraries =>
    (if separate then ['#'] else []) ++ mark ++ encodeContextInternal library ++
      encodeSharedLibraries mark true libraries

/-- The parent in `EncodeSharedLibAndParent`. -/
def encodeParent : Option ClassLoaderInfo → List Char
  | none => []
  | some parent => [';'] ++ encodeContextInternal parent
end

/-- `EncodeContextForOatFile` with an empty base directory and without a stored context. -/
def encodeContextForOatFile : Option ClassLoaderInfo → List Char
  | none => ClassLoaderType.pathClassLoader.typeName ++ ['[', ']']
  | some info => encodeContextInternal info

/-! ## Parsing

A parser gives `none` for a null pointer, and where a check fails. -/

variable (s : List Char)

def findFirstOf (c : Char) (pos : ℕ) : Option ℕ := ((s.drop pos).findIdx? (· == c)).map (· + pos)

/-- `s[pos]`; the string ends in a NUL. -/
def charAt (pos : ℕ) : Char := s.getD pos (Char.ofNat 0)

def substr (pos count : ℕ) : List Char := (s.drop pos).take count

/-- The loop of `FindMatchingSharedLibraryCloseMarker`, whose index has 32 bits. It goes over each
    marker once, so that the length of the spec bounds its steps. -/
def findMatchingLoop (spec : List Char) : ℕ → ℕ → ℕ → Option ℕ
  | 0, _, _ => none
  | fuel + 1, counter, stringIndex =>
    match findFirstOf spec '}' stringIndex with
    | none => none
    | some close =>
      let closing :=
        if counter = 1 then some close
        else findMatchingLoop spec fuel (counter - 1) ((close + 1) % 2 ^ 32)
      match findFirstOf spec '{' stringIndex with
      | none => closing
      | some opening =>
        if close < opening then closing
        else findMatchingLoop spec fuel (counter + 1) ((opening + 1) % 2 ^ 32)

def findMatchingSharedLibraryCloseMarker (spec : List Char) (sharedLibraryOpenIndex : ℕ) : Option ℕ :=
  findMatchingLoop spec (spec.length + 1) 1 ((sharedLibraryOpenIndex + 1) % 2 ^ 32)

/-- `Split(s, separator, &result)`, which drops empty parts. -/
def split (separator : Char) : List (List Char) := (s.splitOn separator).filter fun part => !part.isEmpty

def extractClassLoaderType (spec : List Char) : ClassLoaderType :=
  ([.pathClassLoader, .delegateLastClassLoader, .inMemoryDexClassLoader].find? fun type =>
    decide (spec.take type.typeName.length = type.typeName)).getD .invalidClassLoader

section

/- `android::base::ParseUint` for 32 bits. -/
variable (parseUint : List Char → Option UInt32)

/-- An element of the class path with its checksum. -/
def parseElement (type : ClassLoaderType) (element : List Char) : Option (List Char × UInt32) :=
  match split element '*' with
  | [location, checksum] => do
    let checksum ← parseUint checksum
    if type = .inMemoryDexClassLoader && location ≠ inMemoryDexClassLoaderDexLocationMagic then none
    else some (location, checksum)
  | _ => none

/-- `ParseClassLoaderSpec` up to the shared libraries. -/
def parseClassPath (parseChecksums : Bool) (spec : List Char) : Option ClassLoaderInfo :=
  let type := extractClassLoaderType spec
  let typeStrSize := type.typeName.length
  let last := charAt spec (spec.length - 1)
  if type = .invalidClassLoader || (type = .inMemoryDexClassLoader && !parseChecksums) ||
      charAt spec typeStrSize ≠ '[' || (last ≠ ']' && last ≠ '}') then none
  else
    let classpath :=
      match findFirstOf spec ']' 0 with
      | none => spec.drop (typeStrSize + 1)
      | some closingIndex => substr spec (typeStrSize + 1) (closingIndex - typeStrSize - 1)
    if parseChecksums then do
      let elements ← (split classpath ':').mapM (parseElement parseUint type)
      return .mk type (elements.map (·.1)) (elements.map (·.2)) [] [] [] none
    else some (.mk type (split classpath ':') [] [] [] [] none)

/-- The next shared library from the cursor in `ParseClassLoaderSpec`: whether it is loaded after
    the class path, its spec, and the cursor behind it. -/
def nextSharedLibrary (spec : List Char) (cursor : ℕ) : Option (Bool × List Char × ℕ) :=
  let isAfter := charAt spec cursor == '~'
  let start := if isAfter then cursor + 1 else cursor
  match findFirstOf spec '#' cursor with
  | none => some (isAfter, substr spec start (spec.length - start), spec.length)
  | some separator =>
    let plain := some (isAfter, substr spec start (separator - start), separator + 1)
    match findFirstOf spec '{' cursor with
    | none => plain
    | some opening =>
      if opening > separator then plain
      else
        match findMatchingSharedLibraryCloseMarker spec opening with
        | none => none
        | some closing =>
          some (isAfter, substr spec start (closing + 1 - start),
            if closing + 1 ≠ spec.length && charAt spec (closing + 1) = '#' then closing + 2
            else closing + 1)

/-- The next class loader of the chain in `ParseInternal`: its spec and the remaining string. -/
def nextClassLoader (remaining : List Char) : Option (List Char × List Char) :=
  match findFirstOf remaining ';' 0 with
  | none => some (remaining, [])
  | some separator =>
    let plain := some (remaining.take separator, remaining.drop (separator + 1))
    match findFirstOf remaining '{' 0 with
    | none => plain
    | some opening =>
      if opening > separator then plain
      else
        match findMatchingSharedLibraryCloseMarker remaining opening with
        | none => none
        | some close =>
          if remaining.length = close + 1 then some (remaining.take (close + 1), [])
          else if remaining.length = close + 2 || charAt remaining (close + 1) ≠ ';' then none
          else some (remaining.take (close + 1), remaining.drop (close + 2))

mutual
/-- `ParseInternal(spec, parse_checksums)`. Each call goes to a shorter string or to a later place in
    it, so that twice the length and two is enough `fuel`. -/
def parseInternal (parseChecksums : Bool) : ℕ → List Char → Option ClassLoaderInfo
  | 0, _ => none
  | fuel + 1, remaining =>
    if remaining.isEmpty then none
    else do
      let next ← nextClassLoader remaining
      let info ← parseClassLoaderSpec parseChecksums fuel next.1
      if next.2.isEmpty then return info
      else
        let parent ← parseInternal parseChecksums fuel next.2
        return info.withParent parent

def parseClassLoaderSpec (parseChecksums : Bool) : ℕ → List Char → Option ClassLoaderInfo
  | 0, _ => none
  | fuel + 1, spec => do
    let info ← parseClassPath parseUint parseChecksums spec
    if charAt spec (spec.length - 1) = '}' && charAt spec (spec.length - 2) ≠ '{' then
      match findFirstOf spec '{' 0 with
      | none => none
      | some startIndex =>
        let libraries ← parseSharedLibraries parseChecksums fuel
          (substr spec (startIndex + 1) (spec.length - startIndex - 2)) 0
        return .mk info.type info.classpath info.checksums [] libraries.1 libraries.2 none
    else return info

/-- The loop over shared libraries in `ParseClassLoaderSpec`, from the cursor. -/
def parseSharedLibraries (parseChecksums : Bool) : ℕ → List Char → ℕ →
    Option (List ClassLoaderInfo × List ClassLoaderInfo)
  | 0, _, _ => none
  | fuel + 1, spec, cursor =>
    if cursor = spec.length then some ([], [])
    else do
      let next ← nextSharedLibrary spec cursor
      let info ← parseInternal parseChecksums fuel next.2.1
      let rest ← parseSharedLibraries parseChecksums fuel spec next.2.2
      return if next.1 then (rest.1, info :: rest.2) else (info :: rest.1, rest.2)
end

/-- `Parse(spec, parse_checksums)`, for a context without class loaders. -/
def parse (parseChecksums : Bool) (spec : List Char) : Option ClassLoaderInfo :=
  if spec.isEmpty then some (.mk .pathClassLoader [] [] [] [] [] none)
  else parseInternal parseUint parseChecksums (2 * spec.length + 2) spec

end

end Art
