import AoOs.FatTypes
import AoOs.OnesComplement

/-! # Frames of the network stack — `net.c`

    Frames are byte buffers; the kernel stores 16- and 32-bit fields through native
    pointers, low byte first, after swapping the bytes of what goes on the wire in
    network order.  The functions that send are modelled up to what they pass to
    `net_send_packet`: the answer of the ARP cache is an argument, polling and waiting
    do not touch the frame. -/

namespace Net

open OnesComplement

abbrev Buf := Bytes

/-! ## Buffers -/

def put8 (b : Buf) (i : Nat) (v : UInt8) : Buf := fun j => if j = i then v else b j

/-- A store through a `uint16_t` pointer. -/
def put16 (b : Buf) (i v : Nat) : Buf :=
  put8 (put8 b i (UInt8.ofNat v)) (i + 1) (UInt8.ofNat (v / 256))

/-- A store through a `uint32_t` pointer. -/
def put32 (b : Buf) (i v : Nat) : Buf := put16 (put16 b i v) (i + 2) (v / 65536)

def memcpy (b : Buf) (i : Nat) (src : Buf) (n : Nat) : Buf :=
  fun j => if i ≤ j ∧ j < i + n then src (j - i) else b j

def get16 (b : Buf) (i : Nat) : Nat := (b i).toNat + 256 * (b (i + 1)).toNat

def get32 (b : Buf) (i : Nat) : Nat := get16 b i + 65536 * get16 b (i + 2)

def bswap16 (v : Nat) : Nat := v % 256 * 256 + v / 256 % 256

def bswap32 (v : Nat) : Nat :=
  v % 256 * 2 ^ 24 + v / 2 ^ 8 % 256 * 2 ^ 16 + v / 2 ^ 16 % 256 * 2 ^ 8 + v / 2 ^ 24 % 256

/-! ## `checksum` -/

export FatTypes (u32)

/-- The loop over the `len` bytes from `i` on, with the odd byte behind it. -/
def sumFrom (b : Buf) : Nat → Nat → Nat → Nat
  | _, 0, sum => sum
  | i, 1, sum => u32 (sum + (b i).toNat * 256)
  | i, len + 2, sum => sumFrom b (i + 2) len (u32 (sum + word b i))

/-- Rounds of the folding loop; a 32-bit sum needs two. -/
def foldRounds : Nat := 4

def checksum (b : Buf) (i len : Nat) : Nat :=
  (2 ^ 32 - 1 - fold foldRounds (sumFrom b i len 0)) % 2 ^ 16

/-! ## Sending -/

/-- `LOCAL_IP`. -/
def localIp : Nat := 0x0A00020F

inductive Driver where
  | none
  | ne2000
  | virtio
  deriving DecidableEq

/-- The variables that sending reads. -/
structure Status where
  driver : Driver
  mac : Bytes
  icmpSeq : UInt16

/-- The Ethernet and IP headers as `net_send_udp` and `net_ping_ipv4` write them, up to
    the checksum. -/
def ipv4Fields (mac dst : Bytes) (ipLen : Nat) (proto : UInt8) (ip : UInt32) : Buf :=
  let p := memcpy (fun _ => 0) 0 dst 6
  let p := memcpy p 6 mac 6
  let p := put16 p 12 (bswap16 0x0800)
  let p := put8 p 14 0x45
  let p := put16 p 16 (bswap16 ipLen)
  let p := put8 p 22 64
  let p := put8 p 23 proto
  let p := put32 p 26 (bswap32 localIp)
  put32 p 30 (bswap32 ip.toNat)

/-- The same with the checksum. -/
def ipv4Header (mac dst : Bytes) (ipLen : Nat) (proto : UInt8) (ip : UInt32) : Buf :=
  let p := ipv4Fields mac dst ipLen proto ip
  put16 p 24 (checksum p 14 20)

/-- `net_send_udp`: the frame and its length, if it comes to sending one. -/
def netSendUdp (s : Status) (arp : Option Bytes) (ip : UInt32) (port : UInt16) (data : Bytes)
    (len : Nat) : Option (Buf × Nat) :=
  if 256 < len ∨ s.driver = .none then none
  else
    arp.map fun dst =>
      let udpLen := (8 + len) % 2 ^ 16
      let ipLen := (20 + udpLen) % 2 ^ 16
      let p := ipv4Header s.mac dst ipLen 17 ip
      let p := put16 p 34 (bswap16 49152)
      let p := put16 p 36 (bswap16 port.toNat)
      let p := put16 p 38 (bswap16 udpLen)
      (memcpy p 42 data len, 14 + ipLen)

/-- `"AO-OS-PING-0000"` with its terminator. -/
def pingText : Bytes := fun i =>
  ([65, 79, 45, 79, 83, 45, 80, 73, 78, 71, 45, 48, 48, 48, 48, 0] : List UInt8).getD i 0

/-- `pending_ping_seq`. -/
def Status.nextSeq (s : Status) : UInt16 := s.icmpSeq + 1

/-- `net_ping_ipv4`. -/
def netPingIpv4 (s : Status) (arp : Option Bytes) (ip : UInt32) : Option (Buf × Nat) :=
  if s.driver = .none then none
  else
    arp.map fun dst =>
      let p := ipv4Header s.mac dst (20 + 8 + 16) 1 ip
      let p := put8 p 34 8
      let p := put16 p 38 (bswap16 1)
      let p := put16 p 40 (bswap16 s.nextSeq.toNat)
      let p := memcpy p 42 pingText 16
      (put16 p 36 (checksum p 34 (8 + 16)), 14 + 20 + 8 + 16)

/-- `ihl` of the frame in a buffer. -/
def headerLen (b : Buf) : Nat := (b 14).toNat % 16 * 4

/-- The copy of the request in `send_icmp_echo_reply` with the new addresses and no
    header checksum; `stack` is what the buffer holds at first. -/
def replyHeader (mac stack frame : Bytes) (ipLen : Nat) : Buf :=
  let r := memcpy stack 0 frame (ipLen + 14)
  let r := memcpy r 0 (fun i => frame (6 + i)) 6
  let r := memcpy r 6 mac 6
  let src := bswap32 (get32 r 26)
  let r := put32 r 26 (bswap32 localIp)
  let r := put32 r 30 (bswap32 src)
  put16 r 24 0

/-- The message turned into a reply without a checksum. -/
def replyMessage (r : Buf) (icmp : Nat) : Buf :=
  let r := put8 r icmp 0
  let r := put8 r (icmp + 2) 0
  put8 r (icmp + 3) 0

/-- `send_icmp_echo_reply`. -/
def sendIcmpEchoReply (mac stack frame : Bytes) (len : Nat) : Option (Buf × Nat) :=
  if len < 14 + 20 + 8 then none
  else
    let ipLen := bswap16 (get16 frame 16)
    if len < ipLen + 14 ∨ 1514 < ipLen + 14 then none
    else
      let r := replyHeader mac stack frame ipLen
      let ihl := headerLen r
      let r := put16 r 24 (checksum r 14 ihl)
      let r := replyMessage r (14 + ihl)
      some (put16 r (14 + ihl + 2) (checksum r (14 + ihl) (u32 (ipLen + (2 ^ 32 - ihl)))),
        ipLen + 14)

/-! ## Receiving -/

/-- What `handle_ipv4` does with a frame. -/
inductive Verdict where
  | ignored
  | dropped
  | checksumError
  | echoRequest
  | echoReply (src seq : Nat)
  | udp (src srcPort dstPort len : Nat)
  | other
  deriving DecidableEq

/-- `total`. -/
def totalLen (b : Buf) : Nat := bswap16 (get16 b 16)

/-- `handle_ipv4` on a machine with the given address. -/
def handleIpv4 (address : Nat) (frame : Buf) (len : Nat) : Verdict :=
  let ihl := headerLen frame
  let total := totalLen frame
  if len < 34 then .ignored
  else if ihl < 20 ∨ len < 14 + ihl then .ignored
  else if total < ihl then .dropped
  else if len < 14 + total then .dropped
  else if checksum frame 14 ihl ≠ 0 then .checksumError
  else if bswap32 (get32 frame 30) ≠ address then .ignored
  else if frame 23 = 1 then
    if total - ihl < 8 then .dropped
    else if checksum frame (14 + ihl) (total - ihl) ≠ 0 then .checksumError
    else if frame (14 + ihl) = 8 then .echoRequest
    else if frame (14 + ihl) = 0 then
      .echoReply (bswap32 (get32 frame 26)) (bswap16 (get16 frame (14 + ihl + 6)))
    else .other
  else if frame 23 = 17 then
    if total - ihl < 8 then .dropped
    else .udp (bswap32 (get32 frame 26)) (bswap16 (get16 frame (14 + ihl)))
      (bswap16 (get16 frame (14 + ihl + 2))) (min (total - ihl - 8) 127)
  else .other

end Net
