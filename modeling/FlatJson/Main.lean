import FlatJson.Report

/-!
# The command line

`flatjson FILE [--dump] [--max-depth N]` prints the report on a file. Only what
talks to the system stands here.
-/

namespace FlatJson

/-- What is asked for on the command line. -/
structure Request where
  file : Option String := none
  dump : Bool := false
  limits : Limits := {}

/-- Reads the arguments one by one, or returns the one that makes no sense. -/
def Request.ofArguments (request : Request) : List String → Except String Request
  | [] => .ok request
  | "--dump" :: rest => Request.ofArguments { request with dump := true } rest
  | "--max-depth" :: text :: rest =>
    match text.toNat? with
    | some n => Request.ofArguments { request with limits := ⟨n⟩ } rest
    | none => .error text
  | argument :: rest =>
    match request.file with
    | none => Request.ofArguments { request with file := some argument } rest
    | some _ => .error argument

/-- The reason that a file cannot be read. -/
def reasonOf : IO.Error → String
  | .noFileOrDirectory _ _ _ => Report.noSuchFile
  | error => toString error

/-- The report on the file that is asked for. -/
def reportOn (name : String) (request : Request) : IO Report := do
  match ← (IO.FS.readBinFile name).toBaseIO with
  | .ok content => return Report.ofSource request.limits request.dump ⟨content.data⟩
  | .error error => return Report.unreadable name (reasonOf error)

end FlatJson

open FlatJson in
def main (arguments : List String) : IO UInt32 := do
  match Request.ofArguments {} arguments with
  | .ok request =>
    match request.file with
    | some name =>
      let report ← reportOn name request
      IO.print report.output
      IO.eprint report.complaint
      return report.code.toUInt32
    | none =>
      IO.eprintln "error: a file is required"
      return 2
  | .error argument =>
    IO.eprintln s!"error: unexpected argument '{argument}'"
    return 2
