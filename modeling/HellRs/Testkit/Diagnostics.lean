import HellRs.Lib.Replacing

/-! # Diagnostics without the path of the sandbox

The standard error of a run names the script by its path in the sandbox. Two passes put a marker in place of the path: the first where a
diagnostic is known to have it, and the second for the separator that the marker of a Windows path has.
-/

namespace HellRs.Testkit.Diagnostics

open Replacing (stripPrefix replaceAll splitInclusive)

abbrev Bytes := List UInt8

/-- The bytes of a literal, which is ASCII. -/
def bytes (text : String) : Bytes := text.toList.map fun character => UInt8.ofNat character.toNat

def newline : UInt8 := 0x0a

def WINDOWS : Bytes := bytes "<SANDBOX>\\main.hell"

def PORTABLE : Bytes := bytes "<SANDBOX>/main.hell"

/-- A separator in the marker takes as many bytes as before. -/
def diagnosticPathSeparatorV1 (stderr : Bytes) : Bytes := replaceAll stderr WINDOWS PORTABLE

def haskellShowPath (path : Bytes) : Bytes := path.flatMap fun byte => if byte = 0x5c then [0x5c, byte] else [byte]

def diagnosticPathSuffix (suffix : Bytes) : Bool := suffix.isEmpty || suffix.head? == some 0x3a

/-- The path of the script behind a prefix, with what comes before and behind it. -/
def pathBehind (before line script : Bytes) : Option (Bytes × Bytes) :=
  (((stripPrefix before line).bind (stripPrefix script)).filter diagnosticPathSuffix).map fun suffix => (before, suffix)

def HELPER_PREFIX : Bytes := bytes "unknown helper subcommand "

def ORACLE_PARSE_MARKER : Bytes := bytes ": Parse error: "

def structuredDiagnosticPath (line script program : Bytes) : Option (Bytes × Bytes) :=
  pathBehind [] line script <|> pathBehind HELPER_PREFIX line script <|>
    if program = [] then none else pathBehind (program ++ ORACLE_PARSE_MARKER) line script

def PARSE_PREFIX : Bytes := bytes "Parse error: "

def separateOracleParsePath (line script : Bytes) : Option (Bytes × Bytes) := pathBehind PARSE_PREFIX line script

def diagnosticBlankLine (line : Bytes) : Bool := line == [newline] || line == [0x0d, newline]

/-- `strip_suffix` of one byte, or the line as it is. -/
def trimEnd (byte : UInt8) (line : Bytes) : Bytes := if line.getLast? = some byte then line.dropLast else line

def EXCEPTION_SUFFIX : Bytes := bytes ": Uncaught exception ghc-internal:GHC.Internal.Exception.ErrorCall:"

def exactOracleExceptionFrame (line program : Bytes) : Bool :=
  !program.isEmpty && stripPrefix program (trimEnd 0x0d (trimEnd newline line)) == some EXCEPTION_SUFFIX

/-- What the lines before are of the frame that the oracle puts around a parse error. -/
inductive ParseFrame where
  | outside
  | exception
  | blank
deriving DecidableEq, Repr

def marker (script : Bytes) : Bytes := if 0x5c ∈ script then WINDOWS else PORTABLE

def SRC_SPAN : Bytes := bytes "SrcSpan \""

def quotedScript (script : Bytes) : Bytes := SRC_SPAN ++ haskellShowPath script ++ [0x22]

def quotedMarker (script : Bytes) : Bytes := SRC_SPAN ++ marker script ++ [0x22]

/-- The loop of `scrub_diagnostic_path_bytes` over the lines. -/
def scrubLines (script program : Bytes) : ParseFrame → List Bytes → Bytes
  | _, [] => []
  | frame, line :: lines =>
    match structuredDiagnosticPath line script program with
    | some (before, suffix) => before ++ marker script ++ suffix ++ scrubLines script program .outside lines
    | none =>
      match if frame = .blank then separateOracleParsePath line script else none with
      | some (before, suffix) => before ++ marker script ++ suffix ++ scrubLines script program .outside lines
      | none =>
        line ++ scrubLines script program
          (if exactOracleExceptionFrame line program then .exception
          else if frame = .exception ∧ diagnosticBlankLine line then .blank
          else .outside) lines

/-- Without a mutant. -/
def scrubDiagnosticPathBytes (stderr script program : Bytes) : Bytes :=
  scrubLines script program .outside (splitInclusive newline (replaceAll stderr (quotedScript script) (quotedMarker script)))

/-- The two passes. -/
def normalize (stderr script program : Bytes) : Bytes := diagnosticPathSeparatorV1 (scrubDiagnosticPathBytes stderr script program)

end HellRs.Testkit.Diagnostics
