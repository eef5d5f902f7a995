/-
  CaptureRing.Pcapng.Interface — the description of an interface, which the packets after
  it in its section refer to by its index.
-/

import CaptureRing.Pcapng.Frame
import CaptureRing.Pcapng.LinkType

namespace CaptureRing

structure Interface where
  /-- The link layer by number, known or not. -/
  linktype : UInt16
  /-- Means nothing, and is kept. -/
  reserved : UInt16
  /-- Most bytes captured of a packet; zero is no limit. -/
  snaplen : UInt32
  options : Options
  deriving DecidableEq, Repr

inductive DeviceAddress where
  | v4 (octets : Bytes) (network : Nat)
  | v6 (octets : Bytes) (network : Nat)
  deriving DecidableEq, Repr

namespace Interface

def nameCode : UInt16 := 2

def descriptionCode : UInt16 := 3

def v4Code : UInt16 := 4

def v6Code : UInt16 := 5

def macCode : UInt16 := 6

def resolutionCode : UInt16 := 9

def make (linktype : UInt16) (snaplen : UInt32) (options : Options) : Interface :=
  ⟨linktype, 0, snaplen, options⟩

/-- An IPv4 address is told with its network mask, an IPv6 address with the number of
    bits in it. -/
def addressOption : DeviceAddress → BlockOption
  | .v4 octets network =>
    BlockOption.make v4Code (octets ++ ByteOrder.bigEndian.put 4 (2 ^ 32 - 2 ^ (32 - network)))
  | .v6 octets network => BlockOption.make v6Code (octets ++ [UInt8.ofNat network])

/-- The Ethernet interface of a network device; an empty description is left out. -/
def ofDevice (name description : String) (addresses : List DeviceAddress) (mac : Option Bytes)
    (snaplen : UInt32) : Interface :=
  make LinkType.ethernet.number snaplen (Options.ofList (
    [BlockOption.make nameCode (Utf8.encode name.toList)]
    ++ (if description.isEmpty then []
        else [BlockOption.make descriptionCode (Utf8.encode description.toList)])
    ++ addresses.map addressOption
    ++ (mac.map (BlockOption.make macCode)).toList))

def size (i : Interface) : Nat := 20 + i.options.size

def name (i : Interface) : Option String := (i.options.find nameCode).map BlockOption.text

def encode (o : ByteOrder) (i : Interface) : Bytes :=
  frame o BlockKind.interfaceDescription.number
    (o.put16 i.linktype ++ o.put16 i.reserved ++ o.put32 i.snaplen ++ i.options.encode o)

def decode (o : ByteOrder) (raw : Bytes) : Except Malformed Interface := do
  let linktype ← field16 o 8 raw
  let reserved ← field16 o 10 raw
  let snaplen ← field32 o 12 raw
  let options ← Options.decode o (optionsArea 16 raw)
  return ⟨linktype, reserved, snaplen, options⟩

def parse (o : ByteOrder) (raw : Bytes) : Result Interface :=
  decodeFrame .interfaceDescription (decode o) raw

/-- With the numbers among its option values in the other byte order. -/
def swapOptions (i : Interface) : Interface :=
  { i with options := i.options.swap OptionLayout.ofInterface }

theorem length_encode (o : ByteOrder) (i : Interface) : (i.encode o).length = i.size := by
  simp only [encode, length_frame, ByteOrder.put16, ByteOrder.put32,
    List.length_append, ByteOrder.length_put, Options.length_encode, size]
  omega

end Interface

end CaptureRing
