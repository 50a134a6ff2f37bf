import Lox.Files
import Lox.Number

/-!
What a running program finds outside itself: a sink for its output, lines of input, files and a
clock.
-/

namespace Lox

/-- Takes lines of output. Of the lines that are offered, and of the times that it is flushed, it is
open which ones fail and how. -/
structure Sink where
  lines : Array String := #[]
  offered : Nat := 0
  flushed : Nat := 0
  refusal : Nat → Option HostFault := fun _ => none
  flushFault : Nat → Option HostFault := fun _ => none

namespace Sink

/-- A sink that refuses every line past its capacity, and every flush unless it flushes. -/
def limited (capacity : Option Nat) (flushes : Bool) : Sink where
  refusal offered :=
    match capacity with
    | some capacity => if capacity ≤ offered then some .sinkClosed else none
    | none => none
  flushFault _ := if flushes then none else some .pipeClosed

def writeLine (sink : Sink) (text : String) : Except HostFault Unit × Sink :=
  match sink.refusal sink.offered with
  | some fault => (.error fault, { sink with offered := sink.offered + 1 })
  | none => (.ok (), { sink with offered := sink.offered + 1, lines := sink.lines.push text })

def flush (sink : Sink) : Except HostFault Unit × Sink :=
  let result :=
    match sink.flushFault sink.flushed with
    | some fault => .error fault
    | none => .ok ()
  (result, { sink with flushed := sink.flushed + 1 })

end Sink

/-- Shows a time each time that it is read. -/
structure Clock where
  time : Nat → Number := fun _ => .zero
  consulted : Nat := 0

namespace Clock

def read (clock : Clock) : Number × Clock :=
  (clock.time clock.consulted, { clock with consulted := clock.consulted + 1 })

/-- A clock that stands still. -/
instance : Coe Number Clock := ⟨fun time => { time := fun _ => time }⟩

end Clock

structure Host where
  sink : Sink := {}
  input : List UInt8 := []
  files : Files := .empty []
  clock : Clock := {}

namespace Host

def newline : UInt8 := 10

def splitLine (input : List UInt8) : List UInt8 × List UInt8 :=
  let line := input.takeWhile (· ≠ newline)
  (input.take (line.length + 1), input.drop (line.length + 1))

/-- Takes a line with its terminator from the input; there is none at the end. A line that is no text
is taken too. -/
def takeLine (host : Host) : Except HostFault (Option String) × Host :=
  match host.input with
  | [] => (.ok none, host)
  | first :: rest =>
      let (line, others) := splitLine (first :: rest)
      let taken := { host with input := others }
      match Utf8.decode line with
      | .ok text => (.ok (some text), taken)
      | .error _ => (.error .invalidText, taken)

def trimLine (line : String) : String :=
  String.ofList (line.toList.reverse.dropWhile fun c => c = '\n' || c = '\r').reverse

end Host

end Lox
