/-!
# Log — the lines that tell what an algorithm did

A line has a level and a text.  The algorithms keep what they did as data, and their lines are made
from it.
-/

namespace Automata

/-- How much a log line matters. -/
inductive Level where
  | debug
  | trace
deriving DecidableEq

def Level.name : Level → String
  | debug => "DEBUG"
  | trace => "TRACE"

/-- One line of a log. -/
structure LogLine where
  level : Level
  text : String
deriving DecidableEq

/-- A line as it is written. -/
def LogLine.render (l : LogLine) : String := l.level.name ++ " " ++ l.text

end Automata
