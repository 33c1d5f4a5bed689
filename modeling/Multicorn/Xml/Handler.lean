import Mathlib.Data.List.AList
import Multicorn.General.Sax

/-! The XML wrapper: a handler that collects rows from the events of a parser, and the scan that
hands them out after each call of `feed`. -/
namespace Multicorn.Xml
open Multicorn.Sax

abbrev Str := List Char

scoped instance lawfulBEqStr : LawfulBEq Str := inferInstance

abbrev Row := AList (fun _ : Str => Str)

abbrev XmlEvent := Event Str Char

structure KeyError where
  key : Str
  deriving DecidableEq

structure MulticornXMLHandler where
  elem_tag : Str
  columns : List Str
  parsed_rows : List Row
  current_row : Row
  tag : Option Str
  root_seen : ℤ

namespace MulticornXMLHandler

/-- `__init__`, with `reset`. -/
def init (elem_tag : Str) (columns : List Str) : MulticornXMLHandler where
  elem_tag
  columns
  parsed_rows := []
  current_row := ∅
  tag := none
  root_seen := 0

variable (h : MulticornXMLHandler)

def startElement (name : Str) : MulticornXMLHandler :=
  if name = h.elem_tag then { h with root_seen := h.root_seen + 1 }
  else if h.root_seen = 1 then
    if name ∈ h.columns then { h with tag := some name, current_row := h.current_row.insert name [] }
    else h
  else h

def characters (content : Str) : Except KeyError MulticornXMLHandler :=
  match h.tag with
  | some tag =>
    match h.current_row.lookup tag with
    | some text => .ok { h with current_row := h.current_row.insert tag (text ++ content) }
    | none => .error ⟨tag⟩
  | none => .ok h

def getRows : List Row × MulticornXMLHandler := (h.parsed_rows, { h with parsed_rows := [] })

def endElement (name : Str) : MulticornXMLHandler :=
  if name = h.elem_tag then
    { h with
      root_seen := h.root_seen - 1
      parsed_rows := h.parsed_rows ++ [h.current_row]
      current_row := ∅ }
  else if name ∈ h.columns then { h with tag := none }
  else h

def handle : XmlEvent → Except KeyError MulticornXMLHandler
  | .startElement name => .ok (h.startElement name)
  | .characters content => h.characters content
  | .endElement name => .ok (h.endElement name)

/-- What a call of the parser does to its handler. -/
def feed (events : List XmlEvent) : Except KeyError MulticornXMLHandler :=
  events.foldlM handle h

end MulticornXMLHandler

/-- The options of a table. -/
structure XMLFdw where
  elem_tag : Str
  columns : List Str

/-- The rows that a scan has yielded, and how it has raised. -/
structure Scan where
  yielded : List Row
  raised : Option KeyError
  deriving DecidableEq

namespace XMLFdw

variable (t : XMLFdw)

/-- The loop over the buffers of the file, each with the events that `feed` reports for it. -/
def feedAll (handler : MulticornXMLHandler) :
    List (List XmlEvent) → List Row × Except KeyError MulticornXMLHandler
  | [] => ([], .ok handler)
  | events :: feeds =>
    match handler.feed events with
    | .error e => ([], .error e)
    | .ok handler =>
      let (rows, handler) := handler.getRows
      let (more, result) := feedAll handler feeds
      (rows ++ more, result)

/-- A scan, with the events that the calls of `feed` report and those that `close` reports. -/
def execute (feeds : List (List XmlEvent)) (close : List XmlEvent) : Scan :=
  let (rows, result) := feedAll (.init t.elem_tag t.columns) feeds
  match result.bind fun handler => handler.feed close with
  | .ok _ => ⟨rows, none⟩
  | .error e => ⟨rows, some e⟩

end XMLFdw

end Multicorn.Xml
