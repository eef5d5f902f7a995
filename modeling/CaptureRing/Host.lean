/-
  CaptureRing.Host — what a section header tells about the machine that writes it.

  The processor's name is taken from the system's processor listing, the system's name
  from the command that prints it. Either may be missing, which is no reason not to
  capture: the header then leaves it out.
-/

import CaptureRing.Pcapng.SectionHeader

namespace CaptureRing

structure SystemReport where
  output : String
  success : Bool
  deriving DecidableEq, Repr

structure Host where
  /-- The processor listing, if there is one. -/
  processors : Option String
  /-- The naming command's report, if there is such a command. -/
  system : Option SystemReport
  deriving DecidableEq, Repr

namespace Host

/-- The model that a line of the processor listing gives: the trimmed value of a line
    with one colon whose key starts with `model name`. -/
def modelOf? (line : List Char) : Option (List Char) :=
  let line := Text.trim line
  if "model name".toList.isPrefixOf line then
    match Text.split ':' line with
    | [_, model] => some (Text.trim model)
    | _ => none
  else none

def processorModel (h : Host) : Result String :=
  match h.processors with
  | none => fail .io
  | some listing =>
    match (Text.split '\n' listing.toList).findSome? modelOf? with
    | some model => .ok (String.ofList model)
    | none => fail .getSystemInfo

def systemName (h : Host) : Result String :=
  match h.system with
  | none => fail .io
  | some report =>
    if report.success then .ok (String.ofList (Text.trim report.output.toList))
    else fail .getSystemInfo

end Host

def textOption (code : UInt16) (r : Result String) : List BlockOption :=
  match r with
  | .ok s => [BlockOption.make code (Utf8.encode s.toList)]
  | .error _ => []

def SectionHeader.ofHost (h : Host) (application : String) : SectionHeader :=
  SectionHeader.ofOptions (Options.ofList (
    textOption hardwareCode h.processorModel ++ textOption systemCode h.systemName
      ++ textOption applicationCode (.ok application)))

end CaptureRing
