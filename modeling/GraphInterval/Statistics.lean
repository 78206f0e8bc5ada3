import GraphInterval.Propagation
import GraphInterval.Text.Casing
import GraphInterval.Text.Lines

/-!
# Statistics

Counters are reported as lines of the form `PREFIX NAME=VALUE`, where the name
may be put into a casing, and a block of them may end with a closing line.
Nothing is written before the log is configured, and only the first
configuration counts.
-/

namespace GraphInterval

/-- Where the lines of a log go. -/
inductive Sink where
  | writer
  | standardOutput
  deriving DecidableEq, Repr, Inhabited

structure StatisticFormat where
  /-- The text at the start of every line. -/
  leader : String
  /-- The line after a block of statistics. -/
  closing : Option String
  casing : Option Casing
  sink : Sink
  deriving Repr, Inhabited

/-- The lines written so far, the last one first, and how further ones are written. -/
structure StatisticLog where
  format : Option StatisticFormat := none
  written : List String := []
  printed : List String := []
  deriving Inhabited

namespace StatisticLog

/-- Whether statistics are written at all. -/
def isEnabled (log : StatisticLog) : Bool := log.format.isSome

/-- Chooses the format unless there is one. -/
def configure (log : StatisticLog) (format : StatisticFormat) : StatisticLog :=
  { log with format := log.format.or (some format) }

/-- Writes a text and ends the line; a text with line feeds gives several lines. -/
def writeLine (log : StatisticLog) (format : StatisticFormat) (text : String) : StatisticLog :=
  let added := (Lines.ofText text).reverse
  match format.sink with
  | .writer => { log with written := added ++ log.written }
  | .standardOutput => { log with printed := added ++ log.printed }

/-- Writes one statistic. -/
def report (log : StatisticLog) (name value : String) : StatisticLog :=
  match log.format with
  | none => log
  | some format =>
      let name := format.casing.elim name (·.apply name)
      log.writeLine format (format.leader ++ " " ++ name ++ "=" ++ value)

/-- Writes the closing line, if there is one. -/
def close (log : StatisticLog) : StatisticLog :=
  match log.format with
  | none => log
  | some format => format.closing.elim log (log.writeLine format)

/-- The name of a part of something that has a name. -/
def extendName (name part : String) : String := name ++ "_" ++ part

/-- Writes the counters of a propagator under its name. -/
def reportCounters (log : StatisticLog) (name : String) (counters : Counters) : StatisticLog :=
  counters.foldl (fun log (field, value) => log.report (extendName name field) (toString value)) log

/-- Writes the counters of several propagators and the closing line. -/
def reportAll (log : StatisticLog) (reports : List (String × Counters)) : StatisticLog :=
  if log.isEnabled then
    (reports.foldl (fun log (name, counters) => log.reportCounters name counters) log).close
  else log

/-- The lines of the writer in the order in which they were written. -/
def lines (log : StatisticLog) : List String := log.written.reverse

/-- The lines on standard output in the order in which they were written. -/
def output (log : StatisticLog) : List String := log.printed.reverse

/-- The lines of one block of statistics. -/
def block (leader : String) (closing : Option String) (reports : List (String × Counters)) :
    List String :=
  let format : StatisticFormat := { leader, closing, casing := none, sink := .writer }
  ((({} : StatisticLog).configure format).reportAll reports).lines

end StatisticLog

end GraphInterval
