import CellGraph.Cell.Equality
import CellGraph.Cell.Text

/-!
# Failure reports

A report says why an operation of the domain failed: a code, perhaps a message, the layers it came
through, perhaps a log and the address where it arose. A report can be turned into a map cell; the
log stays behind.

* `Report`: the report;
* `Report.toCell`, `Report.text`, `Report.equal`: as a cell, as text, and equality.
-/

namespace CellGraph

/-- Why an operation failed. -/
structure Report where
  code : Cell
  message : Option Cell := none
  /-- The layers that the failure passed through, the innermost first. -/
  trace : List String := []
  /-- A snapshot of the log at the point of failure. -/
  log : Option Cell := none
  /-- The address where the failure arose. -/
  address : Option Address := none

namespace Report

/-- The binding of a field that may be missing. -/
def optionalBinding (name : String) : Option Cell → Attempt (List (Cell × Cell))
  | none => return []
  | some cell => return [(← Cell.makeKeyword name, cell)]

/-- The report as a map cell. Missing fields and an empty trace are left out. -/
def toCell (report : Report) : Attempt Cell := do
  let code := (← Cell.makeKeyword "code", report.code)
  let message ← optionalBinding "message" report.message
  let trace ←
    if report.trace.isEmpty then pure none
    else do
      let entries ← report.trace.mapM fun entry => Cell.make (.text entry)
      pure (some (← Cell.makeVector entries))
  let trace ← optionalBinding "trace" trace
  let address ← match report.address with
    | some a => do pure (some (← Cell.make (.address a)))
    | none => pure none
  let address ← optionalBinding "address" address
  Cell.makeMap (code :: message ++ trace ++ address)

/-- The report as text: the code, the message, and a line for each layer. -/
def text (known : Knowledge) (report : Report) : String :=
  let message := match report.message with
    | some message => " : " ++ known.display message
    | none => ""
  "ErrorValue[" ++ known.display report.code ++ "]" ++ message ++
    String.join (report.trace.map fun entry => "\n" ++ entry)

/-- Whether two reports agree in every field. -/
def equal (a b : Report) : Calc Bool :=
  Calc.both (a.code.equal b.code) <|
    Calc.both (Cell.equalOption a.message b.message) <|
      Calc.both (pure (a.trace = b.trace)) <|
        Calc.both (Cell.equalOption a.log b.log) (pure (a.address = b.address))

end Report

end CellGraph
