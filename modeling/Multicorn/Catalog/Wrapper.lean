import Multicorn.Catalog.Options

/-! Which Python class serves a foreign table. The validator guards the `wrapper` option
per catalog. A scan takes it from the merged dictionary of `getOptions`, a schema import
from the list of the server. -/
namespace Multicorn.Catalog

/-- What `get_class` relies on: importing a module by name and reading one of its
attributes. -/
structure PythonImport (Module Cls : Type) where
  importModule : String → Except PgError Module
  getattr : Module → String → Except PgError Cls

variable {Module Cls : Type} (py : PythonImport Module Cls)

/-- `get_class`: the text after the last dot names the class, the rest its module. -/
def getClass (modulePath : String) : Except PgError Cls := do
  let parts := modulePath.toList.splitOn '.'
  let wrapperClass := parts.getLastD []
  let moduleName := ['.'].intercalate parts.dropLast
  let module ← py.importModule (String.ofList moduleName)
  py.getattr module (String.ofList wrapperClass)

def wrapperOnTable : PgError :=
  ⟨"Cannot set the wrapper class on the table", some "Set it on the server"⟩

def wrapperMandatory : PgError :=
  ⟨"The wrapper parameter is mandatory, specify a valid class name", none⟩

/-- One turn of the validator's loop; the state is `className`. -/
def validatorStep (catalog : OptionCatalog) (className : Option String) (def' : DefElem) :
    Except PgError (Option String) :=
  if def'.defname = "wrapper" then
    if catalog = .foreignTable then .error wrapperOnTable else .ok (some def'.arg)
  else .ok className

def multicornValidator (options : List DefElem) (catalog : OptionCatalog) :
    Except PgError Unit := do
  let className ← options.foldlM (validatorStep catalog) none
  if catalog = .foreignServer then
    match className with
    | none => .error wrapperMandatory
    | some name => let _ ← getClass py name
  return ()

/-- The class `getCacheEntry` instantiates: the `wrapper` entry of the merged dictionary.
A missing entry reaches `get_class` as a NULL argument, which is an error. -/
def instanceClass (table server : List DefElem) (mapping : Option (List DefElem)) :
    Except PgError Cls :=
  match (optionsListToPyDict (concatOptions table server mapping)).lookup "wrapper" with
  | some name => getClass py name
  | none => .error ⟨"Error in python: SystemError", none⟩

/-- The loop of `multicornImportForeignSchema` over the server's options. -/
def importStep (pClass : Option Cls) (option : DefElem) : Except PgError (Option Cls) :=
  if option.defname = "wrapper" then some <$> getClass py option.arg else .ok pClass

def importClass (server : List DefElem) : Except PgError Cls := do
  match ← server.foldlM (importStep py) none with
  | some pClass => .ok pClass
  | none => .error wrapperMandatory

/-- The class named by the server's own `wrapper` option. -/
def serverClass (server : List DefElem) : Except PgError Cls :=
  match lastOption "wrapper" server with
  | some name => getClass py name
  | none => .error wrapperMandatory

private theorem foldlM_validatorStep (catalog : OptionCatalog) (hc : catalog ≠ .foreignTable)
    (l : List DefElem) : l.foldlM (validatorStep catalog) none = .ok (lastOption "wrapper" l) := by
  induction l using List.reverseRecOn with
  | nil => rfl
  | append_singleton l d ih =>
    rw [List.foldlM_append, ih, lastOption_concat]
    by_cases h : d.defname = "wrapper" <;>
      simp [validatorStep, h, hc, bind, Except.bind, pure, Except.pure]

private theorem foldlM_validatorStep_table (l : List DefElem) (className r : Option String)
    (h : l.foldlM (validatorStep .foreignTable) className = .ok r) :
    ∀ d ∈ l, d.defname ≠ "wrapper" := by
  induction l generalizing className with
  | nil => simp
  | cons d l ih =>
    rw [List.foldlM_cons] at h
    by_cases hd : d.defname = "wrapper"
    · simp [validatorStep, hd, bind, Except.bind] at h
    · simp only [validatorStep, hd, if_false, bind, Except.bind] at h
      intro e he
      rcases List.mem_cons.mp he with rfl | he
      · exact hd
      · exact ih className h e he

theorem multicornValidator_table {l : List DefElem}
    (h : multicornValidator py l .foreignTable = .ok ()) : lastOption "wrapper" l = none := by
  rw [lastOption_eq_none_iff]
  cases hf : l.foldlM (validatorStep .foreignTable) none with
  | error e => simp [multicornValidator, hf, bind, Except.bind] at h
  | ok r => exact foldlM_validatorStep_table l none r hf

theorem multicornValidator_server {l : List DefElem}
    (h : multicornValidator py l .foreignServer = .ok ()) :
    ∃ name cls, lastOption "wrapper" l = some name ∧ getClass py name = .ok cls := by
  unfold multicornValidator at h
  rw [foldlM_validatorStep _ (by decide)] at h
  cases hn : lastOption "wrapper" l with
  | none => simp [hn, bind, Except.bind] at h
  | some name =>
    cases hc : getClass py name with
    | error e => simp [hn, hc, bind, Except.bind] at h
    | ok cls => exact ⟨name, cls, rfl, hc⟩

theorem instanceClass_of_table {table : List DefElem} (server : List DefElem)
    (mapping : Option (List DefElem)) (ht : lastOption "wrapper" table = none) :
    instanceClass py table server mapping =
      match lastOption "wrapper" (mapping.getD []) with
      | some name => getClass py name
      | none =>
        match lastOption "wrapper" server with
        | some name => getClass py name
        | none => .error ⟨"Error in python: SystemError", none⟩ := by
  unfold instanceClass concatOptions
  rw [lookup_optionsListToPyDict, lastOption_append, lastOption_append, ht]
  cases lastOption "wrapper" (mapping.getD []) <;> cases lastOption "wrapper" server <;> rfl

/-- A successful import resolves the last `wrapper` of the server. -/
theorem importClass_ok {server : List DefElem} {cls : Cls} (h : importClass py server = .ok cls) :
    serverClass py server = .ok cls := by
  have key : ∀ (l : List DefElem) (c : Option Cls), l.foldlM (importStep py) none = .ok c →
      (lastOption "wrapper" l).mapM (getClass py) = .ok c := by
    intro l
    induction l using List.reverseRecOn with
    | nil => intro c hc; cases hc; rfl
    | append_singleton l d ih =>
      intro c hc
      rw [List.foldlM_append] at hc
      cases hl : l.foldlM (importStep py) none with
      | error e => simp [hl, bind, Except.bind] at hc
      | ok c' =>
        simp only [hl, bind, Except.bind, List.foldlM_cons, List.foldlM_nil, pure,
          Except.pure] at hc
        rw [lastOption_concat]
        by_cases hd : d.defname = "wrapper"
        · rw [if_pos hd]
          cases hg : getClass py d.arg with
          | error e => simp [importStep, hd, hg, Functor.map, Except.map] at hc
          | ok k =>
            simp only [importStep, hd, hg, Functor.map, Except.map, if_true] at hc
            simpa [hg, Functor.map, Except.map] using hc
        · rw [if_neg hd, ih c' hl]
          simpa [importStep, hd] using hc
  unfold importClass at h
  cases hf : server.foldlM (importStep py) none with
  | error e => simp [hf, bind, Except.bind] at h
  | ok c =>
    have hk := key server c hf
    simp only [hf, bind, Except.bind] at h
    cases c with
    | none => simp at h
    | some k =>
      cases h
      unfold serverClass
      cases hn : lastOption "wrapper" server with
      | none => simp [hn, pure, Except.pure] at hk
      | some name =>
        cases hg : getClass py name with
        | error e => simp [hn, hg, Functor.map, Except.map] at hk
        | ok k' => simpa [hn, hg, Functor.map, Except.map] using hk

/-- The scan path runs the class of the server's `wrapper`, and so does the import path
whenever it resolves one. -/
def WrapperFromServer (table server : List DefElem) (mapping : Option (List DefElem)) : Prop :=
  instanceClass py table server mapping = serverClass py server ∧
    ∀ cls, importClass py server = .ok cls → instanceClass py table server mapping = .ok cls

/-- For validated table and server options, only a `wrapper` in the user mapping can
change the class, and it does unless it names the server's class again. -/
theorem wrapperFromServer_iff (table server : List DefElem) (mapping : Option (List DefElem))
    (ht : multicornValidator py table .foreignTable = .ok ())
    (hs : multicornValidator py server .foreignServer = .ok ()) :
    WrapperFromServer py table server mapping ↔
      ∀ name ∈ lastOption "wrapper" (mapping.getD []), getClass py name = serverClass py server := by
  have hi := instanceClass_of_table py server mapping (multicornValidator_table py ht)
  obtain ⟨sname, scls, hsn, hsc⟩ := multicornValidator_server py hs
  have hserver : serverClass py server = .ok scls := by simp [serverClass, hsn, hsc]
  have hclass : instanceClass py table server mapping = serverClass py server ↔
      ∀ name ∈ lastOption "wrapper" (mapping.getD []), getClass py name = serverClass py server := by
    rw [hi]
    cases hn : lastOption "wrapper" (mapping.getD []) with
    | none => simp [hsn, serverClass]
    | some name => simp
  constructor
  · intro h
    exact hclass.mp h.1
  · intro h
    have he := hclass.mpr h
    exact ⟨he, fun cls hcls => he.trans (importClass_ok py hcls)⟩

/-- An import path on which every module exists and a class is known by its own name. -/
def namedClasses : PythonImport Unit String where
  importModule _ := .ok ()
  getattr _ name := .ok name

def filesystemServer : List DefElem := [⟨"wrapper", "multicorn.fsfdw.FilesystemFdw"⟩]

theorem wrapperFromServer_passwordMapping :
    WrapperFromServer namedClasses [⟨"root_dir", "/srv"⟩] filesystemServer
      (some [⟨"password", "secret"⟩]) :=
  (wrapperFromServer_iff namedClasses _ _ _ rfl rfl).mpr (by decide)

/-- A user mapping replaces the class the server was created with. -/
theorem userMapping_replaces_wrapper :
    multicornValidator namedClasses [⟨"root_dir", "/srv"⟩] .foreignTable = .ok () ∧
      multicornValidator namedClasses filesystemServer .foreignServer = .ok () ∧
      multicornValidator namedClasses [⟨"wrapper", "multicorn.processfdw.ProcessFdw"⟩]
        .userMapping = .ok () ∧
      ¬ WrapperFromServer namedClasses [⟨"root_dir", "/srv"⟩] filesystemServer
        (some [⟨"wrapper", "multicorn.processfdw.ProcessFdw"⟩]) := by
  refine ⟨rfl, rfl, rfl, fun h => ?_⟩
  have hp : instanceClass namedClasses [⟨"root_dir", "/srv"⟩] filesystemServer
      (some [⟨"wrapper", "multicorn.processfdw.ProcessFdw"⟩]) = .ok "ProcessFdw" := rfl
  have hf : serverClass namedClasses filesystemServer = .ok "FilesystemFdw" := rfl
  have := hp.symm.trans (h.1.trans hf)
  simp at this

end Multicorn.Catalog
