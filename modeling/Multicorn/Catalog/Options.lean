import Mathlib.Data.List.AList
import Mathlib.Data.List.Induction

/-! Option lists and table descriptors, as the C code reads them from the system
catalogs and hands them to Python. -/
namespace Multicorn.Catalog

abbrev Oid := ℕ

/-- An element of an option list; `arg` is what `defGetString` reads from it. -/
structure DefElem where
  defname : String
  arg : String
  deriving DecidableEq

/-- What `ereport(ERROR, ...)` sends to the client. -/
structure PgError where
  errmsg : String
  errhint : Option String
  deriving DecidableEq

/-- The catalog an option list belongs to, the second argument of the validator. -/
inductive OptionCatalog
  | foreignDataWrapper
  | foreignServer
  | userMapping
  | foreignTable
  | attribute
  deriving DecidableEq

/-- The fields of `Form_pg_attribute` that the extension reads, with the column's own
options (`GetForeignColumnOptions`). -/
structure Attribute where
  attname : String
  atttypid : Oid
  atttypmod : ℤ
  attisdropped : Bool
  attfdwoptions : List DefElem
  deriving DecidableEq

abbrev TupleDesc := List Attribute

structure ForeignTable where
  serverid : Oid
  options : List DefElem
  desc : TupleDesc

/-- The part of the system catalogs seen by a backend. `userMapping user server` is the
row of `pg_user_mapping`, with user 0 for PUBLIC. -/
structure Catalogs where
  foreignTable : Oid → Option ForeignTable
  foreignServer : Oid → Option (List DefElem)
  userMapping : Oid → Oid → Option (List DefElem)
  userId : Oid

/-- `multicorn_GetUserMapping`: the user's own mapping, else the one of PUBLIC. -/
def multicornGetUserMapping (c : Catalogs) (userid serverid : Oid) : Option (List DefElem) :=
  match c.userMapping userid serverid with
  | some options => some options
  | none => c.userMapping 0 serverid

/-- The concatenation built by `getOptions` from its three sources. -/
def concatOptions (table server : List DefElem) (mapping : Option (List DefElem)) :
    List DefElem :=
  table ++ server ++ mapping.getD []

/-- `none` is the error `GetForeignTable` or `GetForeignServer` raises on an unknown oid. -/
def getOptions (c : Catalogs) (foreigntableid : Oid) : Option (List DefElem) := do
  let t ← c.foreignTable foreigntableid
  let server ← c.foreignServer t.serverid
  return concatOptions t.options server (multicornGetUserMapping c c.userId t.serverid)

abbrev PyDict := AList (fun _ : String => String)

def optionsListToPyDict (options : List DefElem) : PyDict :=
  options.foldl (fun d def' => d.insert def'.defname def'.arg) ∅

/-- The value of the last element named `name`. -/
def lastOption (name : String) (options : List DefElem) : Option String :=
  (options.reverse.find? (fun d => d.defname = name)).map (·.arg)

@[simp] theorem lastOption_nil (name : String) : lastOption name [] = none := rfl

@[simp] theorem lastOption_concat (name : String) (l : List DefElem) (d : DefElem) :
    lastOption name (l ++ [d]) = if d.defname = name then some d.arg else lastOption name l := by
  by_cases h : d.defname = name <;> simp [lastOption, h]

theorem lastOption_append (name : String) (l r : List DefElem) :
    lastOption name (l ++ r) = (lastOption name r).or (lastOption name l) := by
  induction r using List.reverseRecOn with
  | nil => simp
  | append_singleton r d ih =>
    rw [← List.append_assoc, lastOption_concat, lastOption_concat, ih]
    split_ifs <;> simp

theorem lastOption_eq_none_iff (name : String) (l : List DefElem) :
    lastOption name l = none ↔ ∀ d ∈ l, d.defname ≠ name := by
  simp [lastOption]

private theorem lookup_optionsFold (name : String) (l : List DefElem) :
    (l.foldl (fun d def' => d.insert def'.defname def'.arg) (∅ : PyDict)).lookup name =
      lastOption name l := by
  induction l using List.reverseRecOn with
  | nil => simp
  | append_singleton l d ih =>
    rw [List.foldl_concat, lastOption_concat]
    by_cases h : d.defname = name
    · subst h
      simp
    · rw [AList.lookup_insert_ne (Ne.symm h), ih, if_neg h]

/-- Building the dictionary keeps the last of several values written under one name. -/
@[simp] theorem lookup_optionsListToPyDict (name : String) (l : List DefElem) :
    (optionsListToPyDict l).lookup name = lastOption name l :=
  lookup_optionsFold name l

end Multicorn.Catalog
