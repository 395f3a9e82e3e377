import Contrary.Text.Bytes

/-!
# Arguments

The arguments of the command line.  Flags and the one file name may come in any
order; the first fault ends the reading, and what was read before it is kept.
-/

namespace Contrary
namespace CommandLine

/-- What the arguments ask for. -/
structure Options where
  input : Bytes
  output : Bytes
  verbose : Bool
  dump : Bool
  run : Bool
  interactive : Bool
  deriving DecidableEq, Repr

/-- Why the arguments cannot be followed. -/
inductive ArgumentError where
  /-- The user asks for help. -/
  | help
  | missingInput
  | missingOutput
  | unknownFlag (argument : Bytes)
  | unexpected (argument : Bytes)
  deriving DecidableEq, Repr

/-- The wording of a fault. -/
def ArgumentError.message : ArgumentError → Bytes
  | .help => ascii "help requested"
  | .missingInput => ascii "no file name provided"
  | .missingOutput => ascii "-o should be followed with output file name"
  | .unknownFlag argument => ascii "unknown flag " ++ argument
  | .unexpected argument => ascii "unexpected argument " ++ argument

namespace Options

/-- What no arguments ask for. -/
def default : Options :=
  ⟨[], ascii "output.c", false, false, false, false⟩

/-- An argument that is spelled like a flag: a dash and more. -/
def isFlag (argument : Bytes) : Bool :=
  argument.length > 1 && argument.head? == some '-'.toUInt8

/-- Reads arguments on top of what those before them ask for. -/
def readFrom (o : Options) : List Bytes → Options × Option ArgumentError
  | [] => (o, if o.input.isEmpty && !o.interactive then some .missingInput else none)
  | argument :: more =>
      if argument == ascii "-o" then
        match more with
        | [] => (o, some .missingOutput)
        | file :: rest => readFrom { o with output := file } rest
      else if argument == ascii "-v" then readFrom { o with verbose := true } more
      else if argument == ascii "-p" then readFrom { o with dump := true } more
      else if argument == ascii "-r" then readFrom { o with run := true } more
      else if argument == ascii "-i" then readFrom { o with interactive := true } more
      else if [ascii "-h", ascii "-help", ascii "--help"].contains argument then (o, some .help)
      else if isFlag argument then (o, some (.unknownFlag argument))
      else if !o.input.isEmpty then (o, some (.unexpected argument))
      else readFrom { o with input := argument } more

/-- Reads arguments. -/
def read (arguments : List Bytes) : Options × Option ArgumentError :=
  default.readFrom arguments

end Options
end CommandLine
end Contrary
