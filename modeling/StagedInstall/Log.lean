/-! # Messages

A program says what it does in messages of five levels. A threshold decides which of them are
shown; at the debug threshold those are the debug messages, the warnings and the errors.
-/

namespace StagedInstall

inductive Level
  | debug
  | info
  | log
  | warn
  | error
  deriving DecidableEq, Repr

namespace Level

def rank : Level → Nat
  | debug => 0
  | info => 1
  | log => 2
  | warn => 3
  | error => 4

def name : Level → String
  | debug => "Debug"
  | info => "Info"
  | log => "Log"
  | warn => "Warn"
  | error => "Error"

def all : List Level := [debug, info, log, warn, error]

def ofName? (s : String) : Option Level := all.find? (·.name = s)

/-- The threshold that a setting stands for; without a known name it is `log`. -/
def threshold (setting : Option String) : Level := (setting.bind ofName?).getD log

/-- Whether messages of this level go to the stream for errors. -/
def isAlert (l : Level) : Bool := warn.rank ≤ l.rank

def isShownAt (l threshold : Level) : Bool :=
  if threshold = debug then l = debug || l.isAlert else threshold.rank ≤ l.rank

def tag (l : Level) : String := "[" ++ l.name.map Char.toUpper ++ "]"

/-- The terminal colour of the level's tag. -/
def colour : Level → String
  | debug => "35"
  | info => "34"
  | log => "32"
  | warn => "33"
  | error => "31"

end Level

structure Message where
  level : Level
  text : String
  deriving DecidableEq, Repr

namespace Message

def render (coloured : Bool) (m : Message) : String :=
  let tag := if coloured then "\x1b[" ++ m.level.colour ++ "m" ++ m.level.tag ++ "\x1b[0m"
    else m.level.tag
  tag ++ " " ++ m.text ++ "\n"

/-- What messages print on one of the two streams. -/
def printed (threshold : Level) (coloured alerts : Bool) (ms : List Message) : String :=
  String.join ((ms.filter fun m => m.level.isShownAt threshold && m.level.isAlert == alerts).map
    (render coloured))

end Message

end StagedInstall
