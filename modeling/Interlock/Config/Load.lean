import Interlock.Config.Basic
import Interlock.Toml.Reader

/-! Settings from a TOML document. They are in its table `elaboration`; the rest of the document is
ignored, but that table holds no unknown settings. The settings may also be listed in their order,
without names; settings that are left out keep their defaults. -/

namespace Interlock

inductive ConfigError where
  /-- The file cannot be read. -/
  | read (path cause : String)
  | malformed
  | badPrefix (text reason : String)
deriving DecidableEq, Repr

def ConfigError.message : ConfigError → String
  | read path cause => "cannot read `" ++ path ++ "`: " ++ cause
  | malformed => "malformed settings"
  | badPrefix text reason => "name_prefix `" ++ text ++ "` " ++ reason

/-- The name of a choice: a string, or a table that holds it with nothing in it. -/
def Toml.choice? : Toml → Option String
  | .string s => some s
  | .table [(name, .table [])] => some name
  | .table [(name, .array [])] => some name
  | _ => none

namespace SchedulerKind

def name : SchedulerKind → String
  | eager => "eager"
  | roundRobin => "round-robin"

def ofName? : String → Option SchedulerKind
  | "eager" => some eager
  | "round-robin" => some roundRobin
  | _ => none

end SchedulerKind

namespace OrderPolicy

def name : OrderPolicy → String
  | error => "error"
  | warn => "warn"
  | allow => "allow"

def ofName? : String → Option OrderPolicy
  | "error" => some error
  | "warn" => some warn
  | "allow" => some allow
  | _ => none

end OrderPolicy

namespace Config

/-- The names of the settings, in their order. -/
def settings : List String :=
  ["scheduler", "schedule_order", "warn_unused_methods", "name_prefix"]

/-- Changes one setting. -/
def set? (c : Config) (name : String) (v : Toml) : Option Config :=
  match name, v with
  | "scheduler", v => do return { c with scheduler := ← v.choice?.bind SchedulerKind.ofName? }
  | "schedule_order", v => do return { c with scheduleOrder := ← v.choice?.bind OrderPolicy.ofName? }
  | "warn_unused_methods", .boolean b => some { c with warnUnusedMethods := b }
  | "name_prefix", .string s => some { c with namePrefix := s }
  | _, _ => none

/-- The settings of a document. -/
def ofToml? (doc : Toml) : Option Config :=
  match doc.field? "elaboration" with
  | none => some {}
  | some (.table fields) => fields.foldlM (fun c (name, v) => c.set? name v) {}
  | some (.array items) => (settings.zip items).foldlM (fun c (name, v) => c.set? name v) {}
  | some _ => none

/-- A prefix must be the beginning of a plain name, or empty. -/
def checkPrefix (text : String) : Except ConfigError Unit :=
  if !text.toList.all fun c => c.isAlphanum || c == '_' then
    .error (.badPrefix text "may only contain ASCII letters, digits and `_`")
  else if text.toList.head?.any Char.isDigit then
    .error (.badPrefix text "must not start with a digit")
  else .ok ()

/-- Reads settings from the text of a document. -/
def ofText (text : String) : Except ConfigError Config :=
  match (Toml.read? text).bind ofToml? with
  | none => .error .malformed
  | some c => do
    checkPrefix c.namePrefix
    return c

/-- The name of the settings file in a directory. -/
def fileIn (dir : String) : String :=
  if dir = "" ∨ dir.endsWith "/" then dir ++ "tessel.toml" else dir ++ "/tessel.toml"

/-- Reads settings from a directory; `read` gives the text of a file, or why it has none. -/
def ofDirectory (read : String → Except String String) (dir : String) : Except ConfigError Config :=
  match read (fileIn dir) with
  | .error cause => .error (.read (fileIn dir) cause)
  | .ok text => ofText text

end Config

end Interlock
