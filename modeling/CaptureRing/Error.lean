/-
  CaptureRing.Error — what can go wrong, and the words for it.

  `Malformed` is what a decoder finds wrong with the bytes it was given, `Corruption`
  what makes a capture stream unusable, `IoFault` what the operating system answers,
  `CaptureError` what an operation reports. A few operations trust their caller with
  the size or range of an argument and break down otherwise: `Failure.crash`.
-/

import CaptureRing.Pcapng.BlockKind
import CaptureRing.Text.Digits

namespace CaptureRing

inductive Malformed where
  /-- A fixed field or an option value runs past the data. -/
  | runsPast
  /-- A record's packet data runs past the data. -/
  | cutShort
  /-- A packet that claims more bytes than its block of `size` bytes can hold. -/
  | capturedTooLong (captured : UInt32) (size : Nat)
  deriving DecidableEq, Repr

def Malformed.message : Malformed → String
  | .runsPast => "failed to fill whole buffer"
  | .cutShort => "unexpected end of file"
  | .capturedTooLong captured size =>
    "captured length " ++ toString captured.toNat ++ " does not fit in a " ++ toString size
      ++ " bytes block"

inductive Corruption where
  | options (m : Malformed)
  | sectionHeader (m : Malformed)
  | interfaceDescription (m : Malformed)
  | packet (kind : BlockKind) (m : Malformed)
  | interfaceStatistics (m : Malformed)
  | fileHeader (m : Malformed)
  | record (m : Malformed)
  | version (major minor : UInt16)
  /-- A block before any section header. -/
  | outsideSection
  | blockLength (length : Nat)
  | trailingLength (trailing length : Nat)
  | recordLength (length : Nat)
  /-- A stream that ends inside a block other than its first. -/
  | truncated (needed available : Nat)
  /-- A section header after the first block whose magic is unknown. -/
  | magic (magic : UInt32)
  | other (text : String)
  deriving DecidableEq, Repr

def truncatedMessage (needed available : Nat) : String :=
  "truncated block: need " ++ toString needed ++ " bytes but only " ++ toString available
    ++ " available"

def magicMessage (magic : UInt32) : String := "unknown byte-order magic: " ++ Text.hexWord magic

def Corruption.message : Corruption → String
  | .options m => "options: " ++ m.message
  | .sectionHeader m => "section header block: " ++ m.message
  | .interfaceDescription m => "interface description block: " ++ m.message
  | .packet kind m => kind.name ++ ": " ++ m.message
  | .interfaceStatistics m => "interface statistics block: " ++ m.message
  | .fileHeader m => "pcap file header: " ++ m.message
  | .record m => "pcap packet record: " ++ m.message
  | .version major minor =>
    "unsupported pcapng version " ++ toString major.toNat ++ "." ++ toString minor.toNat
  | .outsideSection => "block found before any section header"
  | .blockLength n => "invalid block length " ++ toString n
  | .trailingLength trailing n =>
    "trailing block length " ++ toString trailing ++ " differs from " ++ toString n
  | .recordLength n => "invalid record length " ++ toString n
  | .truncated needed available => truncatedMessage needed available
  | .magic m => magicMessage m
  | .other text => text

inductive IoFault where
  | noSuchFile
  | notADirectory
  | isADirectory
  | nameTooLong
  | noSpace
  | nulInPath
  /-- A write while no output file is open. -/
  | noFileOpen
  | other (text : String)
  deriving DecidableEq, Repr

def IoFault.message : IoFault → String
  | .noSuchFile => "No such file or directory (os error 2)"
  | .notADirectory => "Not a directory (os error 20)"
  | .isADirectory => "Is a directory (os error 21)"
  | .nameTooLong => "File name too long (os error 36)"
  | .noSpace => "No space left on device (os error 28)"
  | .nulInPath => "file name contained an unexpected NUL byte"
  | .noFileOpen => "no output file open"
  | .other text => text

inductive CaptureError where
  | truncatedBlock (needed available : Nat)
  | unknownMagic (magic : UInt32)
  | streamCorrupt (cause : Corruption)
  | outputWrite (path : String) (cause : IoFault)
  | rotationFailure (path : String) (cause : IoFault)
  | noSources
  | invalidCondition (condition : String)
  | unableOpenSource (source : String) (cause : IoFault)
  | unhandledChannelType
  | unableCreateChannel (text : String)
  | unableFoundInterface (name : String)
  | writerPanicked
  | getSystemInfo
  /-- A failed read or write whose cause is not told. -/
  | io
  | configRead
  | configWrite
  | systemTime
  deriving DecidableEq, Repr

def CaptureError.message : CaptureError → String
  | .truncatedBlock needed available => truncatedMessage needed available
  | .unknownMagic m => magicMessage m
  | .streamCorrupt c => "corrupt capture stream: " ++ c.message
  | .outputWrite path e => "write output file " ++ path ++ " error: " ++ e.message
  | .rotationFailure path e => "unable to open output file " ++ path ++ ": " ++ e.message
  | .noSources => "no capture source given"
  | .invalidCondition c => "invalid condition: " ++ c
  | .unableOpenSource s e => "unable to open source " ++ s ++ ": " ++ e.message
  | .unhandledChannelType => "unhandled channel type"
  | .unableCreateChannel text => "unable to create channel: " ++ text
  | .unableFoundInterface name => "unable to found interface: " ++ name
  | .writerPanicked => "capture writer thread panicked"
  | .getSystemInfo => "get system info error"
  | .io => "io error"
  | .configRead => "bincode read file error"
  | .configWrite => "bincode write file error"
  | .systemTime => "get system time error"

inductive Failure where
  | error (e : CaptureError)
  /-- Breaks down on an argument that it trusts its caller with. -/
  | crash
  deriving DecidableEq, Repr

abbrev Result := Except Failure

def fail {α : Type} (e : CaptureError) : Result α := .error (.error e)

def corrupt {α : Type} (c : Corruption) : Result α := fail (.streamCorrupt c)

/-- What a decoder found malformed, reported as this corruption. -/
def corruptAs {α : Type} (cause : Malformed → Corruption) (r : Except Malformed α) : Result α :=
  r.mapError fun m => .error (.streamCorrupt (cause m))

def Failure.message : Failure → String
  | .error e => e.message
  | .crash => CaptureError.message .writerPanicked

end CaptureRing
