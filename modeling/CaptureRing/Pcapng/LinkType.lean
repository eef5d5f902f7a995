/-
  CaptureRing.Pcapng.LinkType — the link layers known by name, and the numbers that
  stand for them in interface descriptions.
-/

namespace CaptureRing

inductive LinkType where
  | null | ethernet | ax25 | ieee8025 | slip | ppp | fddi | pppHdlc | pppEther | raw | cHdlc
  | ieee80211 | loop | linuxSll | pflog | ieee80211Radiotap | usbLinux | ppi | ipv4 | ipv6
  | nflog | usbPcap | wiresharkUpperPdu | netlink | linuxSll2
  deriving DecidableEq, Repr

namespace LinkType

def table : List (LinkType × UInt16 × String) := [
  (.null, 0, "NULL"), (.ethernet, 1, "ETHERNET"), (.ax25, 3, "AX25"), (.ieee8025, 6, "IEEE8025"),
  (.slip, 8, "SLIP"), (.ppp, 9, "PPP"), (.fddi, 10, "FDDI"), (.pppHdlc, 50, "PPPHDLC"),
  (.pppEther, 51, "PPPETHER"), (.raw, 101, "RAW"), (.cHdlc, 104, "CHDLC"),
  (.ieee80211, 105, "IEEE80211"), (.loop, 108, "LOOP"), (.linuxSll, 113, "LINUXSLL"),
  (.pflog, 117, "PFLOG"), (.ieee80211Radiotap, 127, "IEEE80211RADIOTAP"),
  (.usbLinux, 189, "USBLINUX"), (.ppi, 192, "PPI"), (.ipv4, 228, "IPV4"), (.ipv6, 229, "IPV6"),
  (.nflog, 239, "NFLOG"), (.usbPcap, 249, "USBPCAP"),
  (.wiresharkUpperPdu, 252, "WIRESHARKUPPERPDU"), (.netlink, 253, "NETLINK"),
  (.linuxSll2, 276, "LINUXSLL2")]

def number (t : LinkType) : UInt16 := ((table.find? (·.1 == t)).map (·.2.1)).getD 0

def name (t : LinkType) : String := ((table.find? (·.1 == t)).map (·.2.2)).getD ""

def ofNumber? (n : UInt16) : Option LinkType := (table.find? (·.2.1 == n)).map (·.1)

/-- The link type of this very name, case included. -/
def ofName? (s : String) : Option LinkType := (table.find? (·.2.2 == s)).map (·.1)

end LinkType

end CaptureRing
