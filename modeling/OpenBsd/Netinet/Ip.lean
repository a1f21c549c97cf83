/-
  OpenBsd.Netinet.Ip

  The fragment fields of `sys/netinet/ip.h`.
-/

namespace OpenBsd.Netinet

def ipRf : Nat := 0x8000

def ipDf : Nat := 0x4000

def ipMf : Nat := 0x2000

def ipOffmask : Nat := 0x1fff

def ipMaxpacket : Nat := 65535

def iptosEcnCe : Nat := 3

end OpenBsd.Netinet
