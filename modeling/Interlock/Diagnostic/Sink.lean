import Interlock.Diagnostic.Basic

/-! A collector of diagnostics. -/

namespace Interlock

/-- Taking the collected diagnostics leaves the counts as they are. -/
structure DiagnosticSink where
  diagnostics : List Diagnostic := []
  errors : Nat := 0
  warnings : Nat := 0
deriving DecidableEq, Repr

namespace DiagnosticSink

def emit (s : DiagnosticSink) (d : Diagnostic) : DiagnosticSink :=
  { diagnostics := s.diagnostics ++ [d]
    errors := s.errors + if d.severity = .error then 1 else 0
    warnings := s.warnings + if d.severity = .warning then 1 else 0 }

def hasErrors (s : DiagnosticSink) : Bool := 0 < s.errors

def containsCode (s : DiagnosticSink) (c : Code) : Bool := s.diagnostics.any fun d => d.code == c

def takeAll (s : DiagnosticSink) : List Diagnostic × DiagnosticSink :=
  (s.diagnostics, { s with diagnostics := [] })

end DiagnosticSink

end Interlock
