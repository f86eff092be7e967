import StackMachine.Assembly.Assemble
import StackMachine.Isa.Decode
import StackMachine.Cpu.Run
import StackMachine.Text.Hex
/-!
# Command line

`stackmachine asm [--check] [--listing]` assembles the source read from standard input and
prints the image in hexadecimal; `--listing` also shows the instructions with their offsets
and labels on standard error, and `--check` stops after assembling.

`stackmachine cpu IMAGE [--ram CELLS] [--trace]` runs an image given in hexadecimal until it
halts or faults, with `CELLS` memory cells (1024 unless given); `in` reads lines of standard
input and `out` prints to standard output. `--trace` shows every step on standard error.
-/

namespace StackMachine.Cli

/-- How the command line is used. -/
def usage : String :=
  "usage: stackmachine asm [--check] [--listing]\n" ++
  "       stackmachine cpu IMAGE [--ram CELLS] [--trace]"

/-- Reads a stream to its end. -/
partial def readAll (s : IO.FS.Stream) (acc : ByteArray) : IO ByteArray := do
  let chunk ← s.read 65536
  if chunk.isEmpty then pure acc else readAll s (acc ++ chunk)

/-- Text with blanks before it to make `width` characters. -/
def padLeft (s : String) (width : Nat) : String :=
  String.ofList (List.replicate (width - s.length) ' ') ++ s

/-- The listing of assembled code: each instruction after the labels bound to its offset. -/
def listingLines (a : Assembly) : Except DecodeError (List String) := do
  let entries ← listing a.payload.toArray
  pure <| entries.flatMap fun (at_, i) =>
    (a.labels.entries.filter (·.2.ip.toNat == at_)).map (·.1 ++ ":") ++
      [padLeft (toString at_) 6 ++ "    " ++ i.text]

/-- Assembles standard input. -/
def assemble (flags : List String) : IO UInt32 := do
  let bytes ← readAll (← IO.getStdin) ByteArray.empty
  match Program.read bytes.toList with
  | .error e =>
    IO.eprintln e.message
    pure 1
  | .ok p =>
    match p.assemble with
    | .error e =>
      IO.eprintln e.message
      for d in e.diagnostics do
        IO.eprintln ("  " ++ d.message ++ ": " ++ d.error.help)
      pure 1
    | .ok a =>
      IO.eprintln s!"Finished {a.payload.length} bytes, {a.labels.size} labels"
      if flags.contains "--listing" then
        match listingLines a with
        | .ok lines => for l in lines do IO.eprintln l
        | .error e => IO.eprintln e.message
      if !flags.contains "--check" then IO.println (Text.hexOfBytes a.image.toBytes)
      pure 0

/-- Runs `code` from `m` in rounds of steps until it stops. -/
partial def runToEnd (code : Array UInt8) (trace : Bool) (m : Machine) : IO Report := do
  let r := run code 1000000 m
  if trace then
    for t in r.trace do
      IO.eprintln s!"{t.before} -> {t.after}  depth {t.depth}"
  match r.status with
  | .limit => runToEnd code trace r.machine
  | _ => pure r

/-- The number of memory cells the flags ask for. -/
def ramCells : List String → Option Nat
  | "--ram" :: n :: _ => n.toNat?
  | _ :: rest => ramCells rest
  | [] => some 1024

/-- Runs an image given in hexadecimal. -/
def execute (image : String) (flags : List String) : IO UInt32 := do
  match Text.bytesOfHex image, ramCells flags with
  | .ok bytes, some cells =>
    match Image.ofBytes bytes with
    | .error e =>
      IO.eprintln e.message
      pure 1
    | .ok img =>
      let input ← readAll (← IO.getStdin) ByteArray.empty
      let r ← runToEnd img.payload.toArray (flags.contains "--trace")
        (Machine.boot cells input.toList)
      IO.print r.machine.printedText
      match r.status with
      | .faulted f =>
        IO.eprintln f.message
        pure 1
      | _ =>
        IO.eprintln s!"Halted with stack size {r.machine.stack.size}"
        pure 0
  | _, _ =>
    IO.eprintln usage
    pure 2

end StackMachine.Cli

/-- Assembles or runs, as the first argument says. -/
def main (args : List String) : IO UInt32 :=
  match args with
  | "asm" :: flags => StackMachine.Cli.assemble flags
  | "cpu" :: image :: flags => StackMachine.Cli.execute image flags
  | _ => do
    IO.eprintln StackMachine.Cli.usage
    pure 2
