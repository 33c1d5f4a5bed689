import Multicorn.Fs.Directory

/-! `FilesystemFdw`: the rows of a scan, the operations of a transaction, and its two ends. -/
namespace Multicorn.Fs

abbrev Row := AList (fun _ : Str => PyVal)

def PyVal.truthy : PyVal → Bool
  | .none => false
  | .str s => s ≠ []
  | .bytes b => b ≠ []
  | .other _ truth => truth

def hexDigit (n : ℕ) : Char := (['0', '1', '2', '3', '4', '5', '6', '7', '8', '9', 'a', 'b', 'c',
  'd', 'e', 'f']).getD n '0'

/-- One byte inside the `repr` of a byte string in quotes `q`. -/
def reprByte (q : Char) (b : UInt8) : Str :=
  let c := Char.ofNat b.toNat
  if c = q ∨ c = '\\' then ['\\', c]
  else if c = '\t' then ['\\', 't']
  else if c = '\n' then ['\\', 'n']
  else if c = '\r' then ['\\', 'r']
  else if b.toNat < 32 ∨ 127 ≤ b.toNat then
    ['\\', 'x', hexDigit (b.toNat / 16), hexDigit (b.toNat % 16)]
  else [c]

/-- `str(value)`. -/
def PyVal.pyStr : PyVal → Str
  | .none => ['N', 'o', 'n', 'e']
  | .str s => s
  | .bytes b =>
    let q := if b.contains 39 && !b.contains 34 then '"' else '\''
    'b' :: q :: b.flatMap (reprByte q) ++ [q]
  | .other text _ => text

/-- The options of a table. -/
structure FilesystemFdw where
  structured_directory : Directory
  content_column : Option Str
  filename_column : Option Str

structure Qual where
  field_name : Str
  operator : Str
  value : PyVal

def column (name : Option Str) (values : Row) : Option PyVal := name.bind fun n => values.lookup n

def without (name : Option Str) (values : Row) : Row :=
  match name with
  | some n => values.erase n
  | none => values

def withColumn (name : Option Str) (value : PyVal) (values : Row) : Row :=
  match name with
  | some n => values.insert n value
  | none => values

def Item.row (item : Item) : Row :=
  item.properties.foldl (fun row p => row.insert p.1 (.str p.2)) ∅

/-- `==` of dictionaries. -/
def sameRow (a b : Row) : Bool :=
  a.keys.all (fun k => a.lookup k = b.lookup k) && b.keys.all (fun k => a.lookup k = b.lookup k)

def showText (s : Str) : String := String.ofList s

/-- A set of names as `%s` shows it. Python leaves the order open. -/
def showSet (names : List Str) : String :=
  if names = [] then "set()"
  else "\x7b" ++ ", ".intercalate (names.map fun n => "'" ++ showText n ++ "'") ++ "\x7d"

def sortStrs (l : List Str) : List Str := l.mergeSort fun a b => compare a b |>.isLE

namespace FilesystemFdw

variable (t : FilesystemFdw)

def itemFromFilename (filename : PyVal) : Except Failure (Option Item) :=
  if filename.truthy then
    match filename with
    | .str f => t.structured_directory.fromFilename f
    | .bytes _ => .error .typeError
    | _ => .error .attributeError
  else .ok none

/-- The part of `_item_from_dml` that looks at the columns besides file name and content. -/
def itemFromValues (create : List (Str × Str) → Except Failure Item)
    (item_from_filename : Option Item) (values : Row) : Except Failure (Option Item) := do
  let properties := t.structured_directory.properties
  let supplied_keys := values.keys.filter fun k => values.lookup k ≠ some .none
  if supplied_keys ≠ [] then
    if ¬ (properties.all (· ∈ supplied_keys) && supplied_keys.all (· ∈ properties)) then
      .error (.postgres ("The following columns are necessary: " ++
          showSet (properties.filter (· ∉ supplied_keys)))
        (some "You can also insert an item by providing only the filename and content columns")
        none)
    else
      return some (← create (values.entries.map fun e => (e.1, e.2.pyStr)))
  else if item_from_filename.isNone then
    .error (.postgres "The filename, or all pattern columns are needed." none none)
  else return none

/-- `item_from_filename or item_from_values`: an item without properties counts as false. -/
def orItem (a b : Option Item) : Option Item :=
  match a with
  | some item => if item.properties = [] then b else some item
  | none => b

/-- `_item_from_dml` with the call that makes an item of the columns. -/
def itemFromColumns (create : List (Str × Str) → Except Failure Item) (values : Row) :
    Except Failure Item := do
  let content := (column t.content_column values).getD .none
  let values := without t.content_column values
  let filename := (column t.filename_column values).getD .none
  let values := without t.filename_column values
  let item_from_filename ← t.itemFromFilename filename
  let item_from_values ← t.itemFromValues create item_from_filename values
  match item_from_filename, item_from_values with
  | some a, some b =>
    if a.properties ≠ [] ∧ a.properties ≠ b.properties then
      .error (.postgres
        "The columns inferred from the filename do not match the supplied columns."
        (some ("Remove either the filename column or the properties column from your " ++
          " statement, or ensure they match")) none)
  | _, _ => pure ()
  match orItem item_from_filename item_from_values with
  | some item => return { item with content }
  | none => .error .attributeError

def itemFromDml (values : Row) : Except Failure Item :=
  t.itemFromColumns t.structured_directory.create values

def pkViolation (item : Item) : Failure :=
  let keys := sortStrs (item.properties.map (·.1))
  let values := keys.map fun k => (item.properties.lookup k).getD []
  .postgres "Duplicate key value violates filesystem integrity." none
    (some ("Key (" ++ ", ".intercalate (keys.map showText) ++ ")=(" ++
      ", ".intercalate (values.map showText) ++ ") already exists"))

/-- Opening the target of an insert or of a renaming update. -/
def openNew (item : Item) : M Unit :=
  tryCatch (discard <| item.openFd t.structured_directory false (some .exists)) fun e =>
    if e = .os .EEXIST then throw (pkViolation item) else throw e

def logOperation (op : Operation) : M Unit :=
  modify fun s => { s with current_transaction_state := s.current_transaction_state ++ [op] }

/-- The row with the generated columns. -/
def returnValue (item : Item) : M Row := do
  let filename ← liftExcept (t.structured_directory.filename item)
  return withColumn t.content_column item.content
    (withColumn t.filename_column (.str filename) item.row)

def insert (values : Row) : M Row := do
  let item ← liftExcept (t.itemFromDml values)
  t.openNew item
  let full ← liftExcept (t.structured_directory.fullFilename item)
  modify fun s => { s with
    invisible_files := s.invisible_files.filter (· ≠ full)
    updated_content := s.updated_content.insert full item.content }
  logOperation (.insert item)
  t.returnValue item

/-- The item a row id stands for. -/
def rowItem (rowid : Str) : Except Failure Item := do
  match ← t.structured_directory.fromFilename rowid with
  | some item => return item
  | none => .error .attributeError

/-- The old item of an update, with the content it has in the transaction so far. -/
def oldItem (oldfilename : Str) : M Item := do
  let olditem ← liftExcept (t.rowItem oldfilename)
  let full ← liftExcept (t.structured_directory.fullFilename olditem)
  let content := ((← get).updated_content.lookup full).getD olditem.content
  if content.truthy then return { olditem with content }
  else return { olditem with content := .bytes (← olditem.read t.structured_directory) }

def strOrNone : PyVal → PyVal
  | .none => .none
  | v => .str v.pyStr

/-- The values an update hands to `_item_from_dml`. -/
def updateValues (olditem : Item) (oldfilename : Str) (newvalues : Row) : Except Failure Row := do
  let new_filename := (column t.filename_column newvalues).getD (.str oldfilename)
  let columns := without t.content_column (without t.filename_column newvalues)
  let values : Row := columns.entries.foldl (fun row e => row.insert e.1 (strOrNone e.2)) ∅
  let properties := t.structured_directory.properties
  if properties.any (fun k => (values.lookup k).isNone) then .error .keyError
  let null_columns := properties.filter fun k => values.lookup k = some .none
  if null_columns ≠ [] then
    .error (.postgres
      ("Null value in columns (" ++ ", ".intercalate (null_columns.map showText) ++
        ") are not allowed") none
      (some ("Failing row contains (" ++ ", ".intercalate ((sortStrs (values.entries.map fun e =>
        if e.2 = .none then "NULL".toList else e.2.pyStr)).map showText) ++ ")")))
  let merged : Row := values.entries.foldl (fun row e => row.insert e.1 e.2) olditem.row
  if new_filename ≠ .str oldfilename ∧ sameRow olditem.row values then
    return withColumn t.filename_column new_filename ∅
  else return merged

def update (oldfilename : Str) (newvalues : Row) : M Row := do
  let d := t.structured_directory
  let olditem ← t.oldItem oldfilename
  let values ← liftExcept (t.updateValues olditem oldfilename newvalues)
  let newitem ← liftExcept (t.itemFromDml values)
  let newitem := { newitem with
    content := (column t.content_column newvalues).getD olditem.content }
  let new_full ← liftExcept (d.fullFilename newitem)
  modify fun s => { s with
    updated_content := s.updated_content.insert new_full newitem.content }
  discard <| olditem.openFd d false (some .missing)
  let old_full ← liftExcept (d.fullFilename olditem)
  if old_full ≠ new_full then
    t.openNew newitem
    modify fun s => { s with
      invisible_files := (s.invisible_files.insert old_full).filter (· ≠ new_full) }
  logOperation (.update olditem newitem)
  t.returnValue newitem

def delete (rowid : Str) : M Unit := do
  let item ← liftExcept (t.rowItem rowid)
  discard <| item.openFd t.structured_directory false (some .missing)
  let full ← liftExcept (t.structured_directory.fullFilename item)
  modify fun s => { s with invisible_files := s.invisible_files.insert full }
  logOperation (.delete item)

/-- `_post_xact_cleanup`. -/
def postXactCleanup : M Unit := do
  modify fun s => { s with current_transaction_state := [], invisible_files := [] }
  clearCache false
  modify fun s => { s with updated_content := ∅ }

def commitOperation : Operation → M Unit
  | .insert item => item.write t.structured_directory none
  | .update olditem newitem => do
    let d := t.structured_directory
    let old_full ← liftExcept (d.fullFilename olditem)
    let new_full ← liftExcept (d.fullFilename newitem)
    if old_full = new_full then
      let fd ← olditem.openFd d false none
      newitem.write d (some fd)
    else
      let fd ← newitem.openFd d false none
      call (unlink old_full)
      clearCacheEntry old_full
      newitem.write d (some fd)
  | .delete item => do
    item.remove t.structured_directory
    clearCacheEntry (← liftExcept (t.structured_directory.fullFilename item))

def preCommit : M Unit := do
  (← get).current_transaction_state.forM t.commitOperation
  postXactCleanup

def undoOperation : Operation → M Unit
  | .insert item => item.remove t.structured_directory
  | .update old_value new_value => do
    let d := t.structured_directory
    let old_full ← liftExcept (d.fullFilename old_value)
    let new_full ← liftExcept (d.fullFilename new_value)
    if new_full ≠ old_full then call (unlink new_full)
    old_value.write d none
  | .delete _ => pure ()

def rollback : M Unit := do
  (← get).current_transaction_state.reverse.forM t.undoOperation
  postXactCleanup

def endScan : M Unit := clearCache true

/-- The items a scan goes through. -/
def getItems (quals : List Qual) : M (List Item) := do
  let d := t.structured_directory
  match quals.find? fun q => t.filename_column = some q.field_name ∧ q.operator = ['='] with
  | some q =>
    match ← liftExcept (d.fromFilename q.value.pyStr) with
    | some item =>
      if ← call (pathExists (← liftExcept (d.fullFilename item))) then return [item]
      else return []
    | none => return []
  | none =>
    let fixed := quals.filterMap fun q =>
      if q.operator = ['='] ∧ q.field_name ∈ d.properties then some (q.field_name, q.value.pyStr)
      else none
    -- `dict` keeps the last of several values for one name.
    Fs.getItems d fixed.reverse

/-- The row of one item, unless the transaction has hidden it. -/
def itemToDict (columns : List Str) (item : Item) : M (Option Row) := do
  let d := t.structured_directory
  let full ← liftExcept (d.fullFilename item)
  if full ∈ (← get).invisible_files then return none
  else
    let has_content := t.content_column.any (· ∈ columns)
    let has_filename := t.filename_column.any (· ∈ columns)
    let row ← if has_content then do
        match ((← get).updated_content.lookup full).getD .none with
        | .none => pure (withColumn t.content_column (.bytes (← item.read d)) item.row)
        | content => pure (withColumn t.content_column content item.row)
      else pure item.row
    if has_filename then
      return some (withColumn t.filename_column
        (.str (← liftExcept (d.filename item))) row)
    else return some row

def execute (quals : List Qual) (columns : List Str) : M (List Row) := do
  let items ← t.getItems quals
  let rows ← items.mapM (t.itemToDict columns)
  return rows.filterMap id

end FilesystemFdw

end Multicorn.Fs
