/-
  LiveWorkspace/Log.lean
  ======================
  **What the program reports, and what of it an editor is shown.**

  A report has a severity and, usually, a message.  An editor knows four kinds of
  message, so the two least severe levels need a rule: details are shown as plain
  log lines, and traces are not shown at all.
-/

namespace LiveWorkspace

/-! ### Reports -/

inductive Severity where
  | error
  | warning
  | info
  | detail
  | trace
deriving DecidableEq, Repr

/-- A reported message. -/
structure Report where
  severity : Severity
  message : String
deriving DecidableEq, Repr

def Report.error (message : String) : Report := ⟨.error, message⟩
def Report.warning (message : String) : Report := ⟨.warning, message⟩
def Report.info (message : String) : Report := ⟨.info, message⟩

/-! ### What an editor is shown -/

/-- The kinds of message that an editor knows. -/
inductive Notice where
  | error
  | warning
  | info
  | log
deriving DecidableEq, Repr

def Notice.name : Notice → String
  | .error => "ERROR"
  | .warning => "WARNING"
  | .info => "INFO"
  | .log => "LOG"

/-- The kind of message that a severity is shown as; traces are kept back. -/
def Severity.notice? : Severity → Option Notice
  | .error => some .error
  | .warning => some .warning
  | .info => some .info
  | .detail => some .log
  | .trace => none

end LiveWorkspace
