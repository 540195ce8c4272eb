import Interlock.Diagnostic.Basic
import Interlock.Json.Basic

/-! Diagnostics as text for a terminal, with or without colour, and as one line of JSON each. -/

namespace Interlock.Diagnostic

def title (d : Diagnostic) : String :=
  d.severity.word ++ "[" ++ d.code.render ++ "]: " ++ d.message

/-- Errors are red, everything else yellow. -/
def colourTitle (d : Diagnostic) : String :=
  "\x1b[1;" ++ (if d.severity = .error then "31" else "33") ++ "m" ++ d.title ++ "\x1b[0m"

def labelLine (l : Label) : String :=
  "   " ++ l.style.mark ++ " " ++ l.loc.render ++ ": " ++ l.message ++ "\n"

/-- The place is left out for what the elaborator has made itself. -/
def details (d : Diagnostic) : String :=
  (if d.loc.isGenerated then "" else "  --> " ++ d.loc.render ++ "\n")
    ++ String.join (d.labels.map labelLine)
    ++ String.join (d.notes.map fun n => "   = note: " ++ n ++ "\n")
    ++ String.join (d.help.map fun h => "   = help: " ++ h ++ "\n")

def plain (d : Diagnostic) : String := d.title ++ "\n" ++ d.details

def colour (d : Diagnostic) : String := d.colourTitle ++ "\n" ++ d.details

def locationJson (l : Location) : Json :=
  .record [("file", .text l.file), ("line", .nat l.line), ("column", .nat l.column)]

def labelJson (l : Label) : Json :=
  .record [("loc", locationJson l.loc), ("message", .text l.message), ("style", .text l.style.name)]

def toJson (d : Diagnostic) : Json :=
  .record [("severity", .text d.severity.name),
    ("code", .record [("category", .text d.code.category.name), ("number", .nat d.code.number)]),
    ("message", .text d.message), ("primary_loc", locationJson d.loc),
    ("labels", .array (d.labels.map labelJson)), ("notes", .array (d.notes.map .text)),
    ("help", .array (d.help.map .text))]

def jsonLine (d : Diagnostic) : String := d.toJson.compact ++ "\n"

/-- Any rendering of several diagnostics, one after the other. -/
def renderAll (render : Diagnostic → String) (ds : List Diagnostic) : String :=
  String.join (ds.map render)

end Interlock.Diagnostic
