/-
  CaptureRing.Pcapng.BlockKind — the block types known by name.
-/

namespace CaptureRing

inductive BlockKind where
  | sectionHeader
  | interfaceDescription
  /-- Obsolete, superseded by the enhanced packet. -/
  | packet
  | simplePacket
  | nameResolution
  | interfaceStatistics
  | enhancedPacket
  | decryptionSecrets
  | custom
  | customNoCopy
  deriving DecidableEq, Repr

namespace BlockKind

def all : List BlockKind := [
  .sectionHeader, .interfaceDescription, .packet, .simplePacket, .nameResolution,
  .interfaceStatistics, .enhancedPacket, .decryptionSecrets, .custom, .customNoCopy]

def number : BlockKind → UInt32
  | .sectionHeader => 0x0A0D0D0A
  | .interfaceDescription => 1
  | .packet => 2
  | .simplePacket => 3
  | .nameResolution => 4
  | .interfaceStatistics => 5
  | .enhancedPacket => 6
  | .decryptionSecrets => 0xA
  | .custom => 0xBAD
  | .customNoCopy => 0x40000BAD

def name : BlockKind → String
  | .sectionHeader => "SectionHeaderBlock"
  | .interfaceDescription => "InterfaceDescriptionBlock"
  | .packet => "PacketBlock"
  | .simplePacket => "SimplePacketBlock"
  | .nameResolution => "NameResolutionBlock"
  | .interfaceStatistics => "InterfaceStatisticsBlock"
  | .enhancedPacket => "EnhancedPacketBlock"
  | .decryptionSecrets => "DecryptionSecretsBlock"
  | .custom => "CustomBlock"
  | .customNoCopy => "CustomBlockNoCopy"

def ofNumber? (n : UInt32) : Option BlockKind := all.find? (·.number == n)

theorem ofNumber?_number (k : BlockKind) : ofNumber? k.number = some k := by cases k <;> decide

end BlockKind

end CaptureRing
