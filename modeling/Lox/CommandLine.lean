import Lox.Session

/-!
The commands of the interpreter. A command reads one source file, or for `repl` its input line by
line, and ends with a status: 65 after a static fault, 70 after a runtime error, 1 when it could not
read what it needed, and 0 otherwise.
-/

namespace Lox

inductive Command
  | tokenize (file : String) (json : Bool)
  | parse (file : String)
  | evaluate (file : String)
  | run (file : String)
  | repl
deriving DecidableEq

def Command.file? : Command → Option String
  | tokenize file _ | parse file | evaluate file | run file => some file
  | repl => none

structure Invocation where
  command : Command
  maxCallDepth : Nat := Machine.defaultMaxCallDepth
  /-- A file to log to; it is made before anything else happens. -/
  logFile : Option String := none

structure Outcome where
  status : Nat
  output : String
  errors : String
  files : Files

inductive CommandFault
  | fileNotRead (name : String) (cause : HostFault)
  | fileNotText (name : String) (cause : Utf8.Fault)
  | logNotMade (name : String) (cause : HostFault)
  | inputNotRead (cause : HostFault)

namespace CommandFault

def chained (message cause : String) : String :=
  "Error: " ++ message ++ "\n\nCaused by:\n    " ++ cause ++ "\n"

def text : CommandFault → String
  | fileNotRead name cause => chained ("Failed to read file " ++ Quoted.name name) cause.message
  | fileNotText name cause =>
      chained ("File " ++ Quoted.name name ++ " is not valid UTF-8") cause.message
  | logNotMade name cause =>
      chained ("Failed to create log file " ++ Quoted.name name) cause.message
  | inputNotRead cause => "Error: " ++ cause.message ++ "\n"

end CommandFault

namespace CommandLine

def staticStatus : Nat := 65

def runtimeStatus : Nat := 70

def lines (texts : List String) : String := String.join (texts.map (· ++ "\n"))

def statusOf (session : Session) : Nat :=
  if session.hadError then staticStatus
  else if session.hadRuntimeError then runtimeStatus
  else 0

def errorText (session : Session) : String :=
  lines (session.diagnostics.errors.map Diagnostic.text)

def written (session : Session) : List String := session.machine.host.sink.lines.toList

def readSource (files : Files) (name : String) : Except CommandFault String :=
  match files.read name with
  | .error cause => .error (.fileNotRead name cause)
  | .ok bytes =>
      match Utf8.decode bytes with
      | .error cause => .error (.fileNotText name cause)
      | .ok source => .ok source

def failure (fault : CommandFault) (files : Files) : Outcome := ⟨1, "", fault.text, files⟩

def conclude (session : Session) (result : Option String) : Outcome :=
  let status := statusOf session
  let shown := if status = 0 then result.toList else []
  ⟨status, lines (written session ++ shown), errorText session, session.machine.host.files⟩

def tokenize (session : Session) (source : String) (json : Bool) : Outcome :=
  let (tokens, session) := session.tokenize source
  let form := if json then Token.json else Token.text
  ⟨statusOf session, lines (tokens.map form), errorText session, session.machine.host.files⟩

/-- A prompt, a line, its run, and so on to the end of the input. Every round takes at least one byte
of the input, so `rounds` need not exceed their number. -/
def repl (fuel : Nat) (session : Session) (output errors : String) : Nat → Option Outcome
  | 0 => some ⟨0, output ++ "> \n", errors, session.machine.host.files⟩
  | rounds + 1 =>
      let prompted := output ++ "> "
      let before := session.machine.host.sink.lines.size
      let (line, host) := session.machine.host.takeLine
      let session := { session with machine.host := host }
      match line with
      | .error cause =>
          some ⟨1, prompted, errors ++ (CommandFault.inputNotRead cause).text, host.files⟩
      | .ok none => some ⟨0, prompted ++ "\n", errors, host.files⟩
      | .ok (some source) =>
          match session.run fuel source with
          | none => none
          | some session =>
              repl fuel session.clear
                (prompted ++ lines ((written session).drop before))
                (errors ++ errorText session) rounds

def perform (fuel : Nat) (session : Session) (command : Command) : Option Outcome :=
  let files := session.machine.host.files
  let withSource (name : String) (action : String → Option Outcome) : Option Outcome :=
    match readSource files name with
    | .error fault => some (failure fault files)
    | .ok source => action source
  match command with
  | .tokenize name json => withSource name fun source => some (tokenize session source json)
  | .parse name =>
      withSource name fun source =>
        let (expr, session) := session.parseExpression source
        some (conclude session (expr.map Expr.text))
  | .evaluate name =>
      withSource name fun source =>
        (session.evaluate fuel source).map fun (value, session) =>
          conclude session (value.map Value.text)
  | .run name =>
      withSource name fun source => (session.run fuel source).map (conclude · none)
  | .repl => repl fuel session "" "" (session.machine.host.input.length + 1)

/-- Runs a command; there is no outcome when the fuel does not suffice. -/
def run (fuel : Nat) (invocation : Invocation) (host : Host) : Option Outcome :=
  let start (host : Host) := perform fuel (.new host invocation.maxCallDepth) invocation.command
  match invocation.logFile with
  | none => start host
  | some name =>
      match host.files.write name [] with
      | .error cause => some (failure (.logNotMade name cause) host.files)
      | .ok files => start { host with files }

end CommandLine

end Lox
