import Lox.Machine

/-!
The functions of the host. They check their arguments themselves; their errors are placed by the call.
-/

namespace Lox.Native

def firstType (arguments : List Value) : String :=
  match arguments with
  | [] => "nothing"
  | first :: _ => first.typeName

def callClock : Run Value := do
  let (time, later) := (← get).host.clock.read
  modify fun machine => { machine with host.clock := later }
  pure (.number time)

def callReadLine : Run Value := do
  let (line, host) := (← get).host.takeLine
  modify fun machine => { machine with host }
  match line with
  | .ok (some text) => pure (.string (Host.trimLine text))
  | .ok none => pure .nil
  | .error fault => Run.failBare (.inputFailed fault)

def callReadFile (arguments : List Value) : Run Value := do
  match arguments with
  | [.string path] =>
      match (← get).host.files.readText path with
      | .ok text => pure (.string text)
      | .error fault => Run.failBare (.fileNotRead path fault)
  | _ => Run.failBare (.pathExpected readFile.name (firstType arguments))

def callWriteFile (arguments : List Value) : Run Value := do
  match arguments with
  | [.string path, content] =>
      match (← get).host.files.write path content.text.toUTF8.toList with
      | .ok files =>
          modify fun machine => { machine with host.files := files }
          pure .nil
      | .error fault => Run.failBare (.fileNotWritten path fault)
  | _ => Run.failBare (.pathExpected writeFile.name (firstType arguments))

def callEcho (arguments : List Value) : Run Value := do
  match arguments with
  | [value] =>
      match ← Run.writeLine value.text with
      | .ok () => pure .nil
      | .error fault => Run.failBare (.outputFailed fault)
  | _ => Run.failBare (.oneArgumentExpected echo.name)

def call (native : Native) (arguments : List Value) : Run Value := do
  match native with
  | clock => callClock
  | readLine => callReadLine
  | readFile => callReadFile arguments
  | writeFile => callWriteFile arguments
  | echo => callEcho arguments

end Lox.Native
