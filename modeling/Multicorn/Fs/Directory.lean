import Multicorn.Fs.Pattern

/-! `StructuredDirectory`: the items of a pattern, the cache of descriptors, and the walk. -/
namespace Multicorn.Fs

/-- A Python value as the wrapper meets it. `other` has the text `str` makes of it. -/
inductive PyVal
  | none
  | str (s : Str)
  | bytes (b : Bytes)
  | other (text : Str) (truth : Bool)
  deriving DecidableEq

/-- How a call of the wrapper raises. `postgres` is `log_to_postgres` at level `ERROR`. -/
inductive Failure
  | os (e : Errno)
  | postgres (message : String) (hint detail : Option String)
  | valueError (message : String)
  | format (e : FormatError)
  | keyError
  | typeError
  | attributeError
  | unicodeError
  deriving DecidableEq

/-- An accepted pattern under a root directory, with the parts it was parsed into. -/
structure Directory where
  isidentifier : Str → Bool
  root_dir : Str
  pattern : Str
  parts : List Part
  parsed : parsePattern isidentifier pattern = .ok parts

def Directory.properties (d : Directory) : List Str := d.parts.flatMap Part.properties

/-- The properties are kept in the order of the pattern, so equal mappings are equal lists. -/
structure Item where
  properties : List (Str × Str)
  content : PyVal
  deriving DecidableEq

inductive Operation
  | insert (item : Item)
  | update (old new : Item)
  | delete (item : Item)

/-- The wrapper between two calls: the descriptor cache of its directory, the log of the
transaction, and what hides or replaces files before the commit. -/
structure State where
  os : Os
  cache : AList (fun _ : Str => ℕ × Bool)
  current_transaction_state : List Operation
  invisible_files : List Str
  updated_content : AList (fun _ : Str => PyVal)

abbrev M := EStateM Failure State

/-- A call of the operating system. -/
def call {α : Type} (x : Call α) : M α := fun s =>
  match x s.os with
  | .ok a os => .ok a { s with os }
  | .error e os => .error (.os e) { s with os }

def liftExcept {α : Type} : Except Failure α → M α
  | .ok a => pure a
  | .error e => throw e

namespace Directory

variable (d : Directory)

/-- `Item.__init__`. -/
def item (properties : List (Str × Str)) (content : PyVal) : Except Failure Item :=
  if ¬ d.properties.all (fun name => (properties.lookup name).isSome) then
    .error (.valueError "Missing properties: %s")
  else if ¬ properties.all (fun p => p.1 ∈ d.properties) then
    .error (.valueError "Unknown properties: %s")
  else if properties.any (fun p => '/' ∈ p.2) then
    .error (.valueError "Property values can not contain a slash.")
  else .ok ⟨d.properties.map fun name => (name, (properties.lookup name).getD []), content⟩

/-- The parameter of `create` and `get_items` that a property can clash with. -/
def self : Str := ['s', 'e', 'l', 'f']

def create (values : List (Str × Str)) : Except Failure Item :=
  if values.any (fun p => p.1 = self) then .error .typeError else d.item values (.bytes [])

/-- The values of the parts of a file name, or `none` where a part does not match. -/
def matchParts : List Part → List Str → Option (List (Str × Str))
  | [], [] => some []
  | part :: parts, name :: names => do
    let values ← matchPart part name
    let more ← matchParts parts names
    return values ++ more
  | _, _ => none

def fromFilename (filename : Str) : Except Failure (Option Item) :=
  match matchParts d.parts (filename.splitOn '/') with
  | some values => (d.item values (.bytes [])).map some
  | none => .ok none

/-- `Item.filename`. -/
def filename (item : Item) : Except Failure Str :=
  (vformat d.pattern fun name => item.properties.lookup name).mapError .format

def join (path_parts : List Str) : Str := pathJoin d.root_dir path_parts

/-- `Item.full_filename`. -/
def fullFilename (item : Item) : Except Failure Str :=
  (d.filename item).map fun filename => d.join (filename.splitOn '/')

end Directory

inductive FailIf
  | exists
  | missing
  deriving DecidableEq

def setCache (key : Str) (entry : ℕ × Bool) : M Unit :=
  modify fun s => { s with cache := s.cache.insert key entry }

/-- The directories above a file are made with an open umask. -/
def makeParent (dir : Str) : M Unit := do
  if !(← call (pathExists dir)) then
    let mask ← call (umask 0)
    call (makedirs dir)
    discard <| call (umask mask)

def closeOld : Option ℕ → M Unit
  | some fd => call (osClose fd)
  | none => pure ()

/-- The inner part of an exclusive `Item.open`, where no descriptor that can write is cached. -/
def reopen (full : Str) (fd : Option ℕ) (fail_if : Option FailIf) : M ℕ := do
  makeParent (dirname full)
  closeOld fd
  let mask ← call (umask 0)
  let fd ← call (osOpen full ⟨true, fail_if ≠ some .missing, fail_if = some .exists⟩)
  discard <| call (umask mask)
  return fd

def openShared (full : Str) : M ℕ := do
  match (← get).cache.lookup full with
  | some (fd, _) => return fd
  | none =>
    let fd ← call (osOpen full ⟨false, false, false⟩)
    call (flock fd)
    setCache full (fd, true)
    return fd

/-- The cached descriptor, if it can write, or a new one. -/
def writableFd (full : Str) (fail_if : Option FailIf) : M ℕ := do
  match (← get).cache.lookup full with
  | some (fd, _) =>
    if ← call (isRdwr fd) then return fd
    else reopen full (some fd) fail_if
  | none => reopen full none fail_if

def openExclusive (full : Str) (fail_if : Option FailIf) : M ℕ := do
  let fd ← writableFd full fail_if
  call (flock fd)
  setCache full (fd, false)
  return fd

/-- What is written to a file for a content, which is nothing for `None`. -/
def PyVal.written (process : Process) : PyVal → Except Failure (Option Bytes)
  | .none => .ok Option.none
  | .str s =>
    match process.encode s with
    | some data => .ok (some data)
    | Option.none => .error .unicodeError
  | .bytes b => .ok (some b)
  | .other _ _ => .error .typeError

/-- The content can be written to a file. -/
def PyVal.Writable (process : Process) (v : PyVal) : Prop := ∃ data, v.written process = .ok data

/-- What is in a file once the content is written to it. -/
def PyVal.toBytes (process : Process) (v : PyVal) : Bytes :=
  match v.written process with
  | .ok data => data.getD []
  | .error _ => []

namespace Item

variable (d : Directory) (item : Item)

/-- `Item.open`. -/
def openFd (shared_lock : Bool) (fail_if : Option FailIf) : M ℕ := do
  let full ← liftExcept (d.fullFilename item)
  if shared_lock then openShared full else openExclusive full fail_if

def read : M Bytes := do
  let fd ← item.openFd d true (some .missing)
  call (readStart fd)

def write (fd : Option ℕ) : M Unit := do
  let fd ← match fd with
    | some fd => pure fd
    | none => item.openFd d false none
  call (ftruncate fd)
  match ← liftExcept (item.content.written (← get).os.process) with
  | some data => call (writeStart fd data)
  | none => return

def remove : M Unit := do
  let full ← liftExcept (d.fullFilename item)
  call (unlink full)

end Item

def clearCacheEntry (key : Str) : M Unit := do
  match (← get).cache.lookup key with
  | some (fd, _) =>
    modify fun s => { s with cache := s.cache.erase key }
    call (osClose fd)
  | none => throw .keyError

def clearCache (only_shared : Bool) : M Unit := do
  let s ← get
  s.cache.entries.forM fun e => if !only_shared || e.2.2 then clearCacheEntry e.1 else pure ()

section Walk

variable (d : Directory)

/-- What is known of one part of the path before looking at the file system: its whole name,
if all its properties are fixed, and the fixed values. -/
abbrev Fixed := Option Str × List (Str × Str)

def fixedPart (values : List (Str × Str)) (pattern_part : Str) (part : Part) :
    Except Failure Fixed := do
  let fixed := part.properties.filterMap fun name => (values.lookup name).map (name, ·)
  if fixed.length = part.properties.length then
    let name ← (vformat pattern_part fun name => fixed.lookup name).mapError .format
    return (some name, fixed)
  else return (none, fixed)

/-- `_find_matching_names`. -/
def findMatchingNames (previous : List Str) (part : Part) (fixed : Fixed) :
    M (List (Str × List (Str × Str))) := do
  match fixed.1 with
  | some name => return [(name, fixed.2)]
  | none =>
    let names ← tryCatch (call (listdir (d.join previous))) fun e =>
      if previous ≠ [] ∧ (e = .os .ENOENT ∨ e = .os .ENOTDIR) then pure [] else throw e
    return names.filterMap fun name =>
      match matchPart part name with
      | some values =>
        if fixed.2.all (fun p => values.lookup p.1 = some p.2) then some (name, values) else none
      | none => none

/-- `_walk`, with the parts of the pattern that are still below. -/
def walk (previous : List Str) (values : List (Str × Str)) : List (Part × Fixed) → M (List Item)
  | [] => return []
  | (part, fixed) :: rest => do
    let names ← findMatchingNames d previous part fixed
    let items ← names.mapM fun (name, part_values) => do
      let path_parts := previous ++ [name]
      let values := values ++ part_values
      if rest = [] then
        if ← call (pathIsfile (d.join path_parts)) then
          return [← liftExcept (d.item values (.bytes []))]
        else return []
      else walk path_parts values rest
    return items.flatten

def getItems (values : List (Str × Str)) : M (List Item) :=
  if values.any (fun p => p.1 = Directory.self) then throw .typeError
  else if ¬ values.all (fun p => p.1 ∈ d.properties) then
    throw (.valueError "Unknown properties: %s")
  else do
    let fixed ← liftExcept (((d.pattern.splitOn '/').zip d.parts).mapM fun (text, part) =>
      fixedPart values text part)
    walk d [] [] (d.parts.zip fixed)

end Walk

end Multicorn.Fs
