import AoOs.CheckedArea
import AoOs.NetChecks

/-! # Receiving in bounds — `net.c`

    The path of a received frame once more, with every pointer access checked: the frame
    is an area of the `len` bytes that were delivered, not of the 1600 bytes of the
    buffer of `net_poll`, so that reading stale bytes behind the frame is a fault too.
    Four lengths meet here that all come from the sender: that of the frame, of the IP
    header, of the IP packet and of the message in it.  No frame leads to a fault, and
    what is sent is what `Net.sendIcmpEchoReply` says. -/

namespace NetReceive

open OnesComplement Net CheckedArea

variable {i : Nat}

variable {n : Nat} (a : Area UInt8 n)

/-! ## Fields and checksums -/

/-- A load through a `uint16_t` pointer. -/
def load16 (a : Area UInt8 n) (i : Nat) : Except Fault Nat := do
  let lo ← a.get i
  let hi ← a.get (i + 1)
  pure (lo.toNat + 256 * hi.toNat)

/-- A load through a `uint32_t` pointer. -/
def load32 (a : Area UInt8 n) (i : Nat) : Except Fault Nat := do
  let lo ← load16 a i
  let hi ← load16 a (i + 2)
  pure (lo + 65536 * hi)

def store16 (a : Area UInt8 n) (i v : Nat) : Except Fault (Area UInt8 n) := do
  let a ← a.put i (UInt8.ofNat v)
  a.put (i + 1) (UInt8.ofNat (v / 256))

def store32 (a : Area UInt8 n) (i v : Nat) : Except Fault (Area UInt8 n) := do
  let a ← store16 a i v
  store16 a (i + 2) (v / 65536)

/-- The loop of `checksum`. -/
def sumBytes (a : Area UInt8 n) : Nat → Nat → Nat → Except Fault Nat
  | _, 0, sum => pure sum
  | i, 1, sum => do
      let b ← a.get i
      pure (u32 (sum + b.toNat * 256))
  | i, len + 2, sum => do
      let hi ← a.get i
      let lo ← a.get (i + 1)
      sumBytes a (i + 2) len (u32 (sum + (hi.toNat * 256 + lo.toNat)))

/-- `checksum` of the `len` bytes from `i` on. -/
def checksumIn (a : Area UInt8 n) (i len : Nat) : Except Fault Nat := do
  let sum ← sumBytes a i len 0
  pure ((2 ^ 32 - 1 - fold foldRounds sum) % 2 ^ 16)

theorem load16_ok (h : i + 2 ≤ n) : load16 a i = .ok (get16 a.cell i) := by
  rw [load16, a.get_ok (by omega), ok_bind, a.get_ok (by omega)]
  rfl

theorem load32_ok (h : i + 4 ≤ n) : load32 a i = .ok (get32 a.cell i) := by
  rw [load32, load16_ok a (by omega), ok_bind, load16_ok a (by omega)]
  rfl

theorem store16_ok (v : Nat) (h : i + 2 ≤ n) : store16 a i v = .ok ⟨put16 a.cell i v⟩ := by
  rw [store16, a.put_ok _ (by omega), ok_bind, Area.put_ok _ _ (by omega)]
  rfl

theorem store32_ok (v : Nat) (h : i + 4 ≤ n) : store32 a i v = .ok ⟨put32 a.cell i v⟩ := by
  rw [store32, store16_ok a _ (by omega), ok_bind, store16_ok _ _ (by omega)]
  rfl

theorem sumBytes_ok {len : Nat} (sum : Nat) (h : i + len ≤ n) :
    sumBytes a i len sum = .ok (sumFrom a.cell i len sum) := by
  induction i, len, sum using sumFrom.induct a.cell with
  | case1 => rfl
  | case2 i sum =>
    rw [sumBytes, a.get_ok (by omega)]
    rfl
  | case3 i len sum ih =>
    rw [sumBytes, a.get_ok (by omega), ok_bind, a.get_ok (by omega), ok_bind]
    exact ih (by omega)

theorem checksumIn_ok {len : Nat} (h : i + len ≤ n) :
    checksumIn a i len = .ok (checksum a.cell i len) := by
  rw [checksumIn, sumBytes_ok a 0 h]
  rfl

/-! ## The state of the stack -/

structure ArpEntry where
  ip : Nat
  mac : Area UInt8 6
  updated : Nat
  valid : Bool

structure UdpPacket where
  srcIp : Nat
  srcPort : Nat
  dstPort : Nat
  len : Nat
  data : Area UInt8 128
  valid : Bool

/-- The variables of the receive path; `passed` lists the calls of `net_send_packet`
    and `wire` the bytes it has written to the card. -/
structure NetState where
  driver : Driver
  ioBase : Nat
  mac : Area UInt8 6
  packetsTx : Nat
  dropped : Nat
  checksumErrors : Nat
  arpEntries : Nat
  lastPingOk : Bool
  pendingPingIp : Nat
  pendingPingSeq : Nat
  arpCache : Area ArpEntry 8
  lastUdp : UdpPacket
  ticks : Nat
  passed : List (Bytes × Nat)
  wire : List (Area UInt8 1536 × Nat)

def NetState.drop (s : NetState) : NetState := { s with dropped := u32 (s.dropped + 1) }

def NetState.checksumError (s : NetState) : NetState :=
  { s with checksumErrors := u32 (s.checksumErrors + 1) }

/-! ## `net_send_packet` -/

/-- The transmission: the padded frame, of which the card takes whole words. -/
def transmit (s : NetState) (data : Area UInt8 n) (len : Nat) : Except Fault NetState := do
  let outLen := if len < 60 then 60 else len
  let frame : Area UInt8 1536 := ⟨fun _ => 0⟩
  let frame ← frame.copy 0 data 0 len
  let words : Area UInt8 1536 := ⟨fun _ => 0⟩
  let words ← words.copy 0 frame 0 ((outLen + 1) / 2 * 2)
  pure { s with packetsTx := u32 (s.packetsTx + 1), wire := s.wire ++ [(words, outLen)] }

def netSendPacket (s : NetState) (data : Area UInt8 n) (len : Nat) : Except Fault NetState :=
  let s := { s with passed := s.passed ++ [(data.cell, len)] }
  if len = 0 ∨ s.driver ≠ .ne2000 ∨ s.ioBase = 0 then pure s
  else transmit s data len

/-! ## The ARP cache -/

/-- The loop of `arp_cache_put`: the entry of the address, or else the first that is
    free. -/
def arpScan (cache : Area ArpEntry 8) (ip : Nat) :
    Nat → Nat → Option Nat → Except Fault (Option Nat)
  | 0, _, slot => pure slot
  | left + 1, i, slot => do
      let e ← cache.get i
      if e.valid ∧ e.ip = ip then pure (some i)
      else arpScan cache ip left (i + 1) (if e.valid = false ∧ slot = none then some i else slot)

/-- The loop that counts the entries. -/
def arpCount (cache : Area ArpEntry 8) : Nat → Nat → Nat → Except Fault Nat
  | 0, _, count => pure count
  | left + 1, i, count => do
      let e ← cache.get i
      arpCount cache left (i + 1) (if e.valid then count + 1 else count)

/-- `arp_cache_put` with the six bytes of `src` from `j` on. -/
def arpCachePut (s : NetState) (ip : Nat) (src : Area UInt8 n) (j : Nat) :
    Except Fault NetState := do
  let found ← arpScan s.arpCache ip 8 0 none
  let slot := found.getD 0
  let e ← s.arpCache.get slot
  let mac ← e.mac.copy 0 src j 6
  let cache ← s.arpCache.put slot ⟨ip, mac, s.ticks, true⟩
  let count ← arpCount cache 8 0 0
  pure { s with arpCache := cache, arpEntries := count }

/-! ## The handlers -/

section Handlers

-- What the buffers on the kernel's stack hold at first.
variable (stack : Bytes)

def sendArpReply (s : NetState) (request : Area UInt8 n) : Except Fault NetState := do
  let p : Area UInt8 42 := ⟨stack⟩
  let p ← p.copy 0 request 6 6
  let p ← p.copy 6 s.mac 0 6
  let p ← store16 p 12 (bswap16 0x0806)
  let p ← store16 p 14 (bswap16 1)
  let p ← store16 p 16 (bswap16 0x0800)
  let p ← p.put 18 6
  let p ← p.put 19 4
  let p ← store16 p 20 (bswap16 2)
  let p ← p.copy 22 s.mac 0 6
  let p ← store32 p 28 (bswap32 localIp)
  let p ← p.copy 32 request 22 6
  let p ← p.copy 38 request 28 4
  netSendPacket s p 42

/-- The copy of the request in `send_icmp_echo_reply` with the addresses exchanged. -/
def readdress (mac : Area UInt8 6) (frame : Area UInt8 n) (ipLen : Nat) :
    Except Fault (Area UInt8 1514) := do
  let reply : Area UInt8 1514 := ⟨stack⟩
  let reply ← reply.copy 0 frame 0 (ipLen + 14)
  let reply ← reply.copy 0 frame 6 6
  let reply ← reply.copy 6 mac 0 6
  let src ← load32 reply 26
  let reply ← store32 reply 26 (bswap32 localIp)
  let reply ← store32 reply 30 (bswap32 (bswap32 src))
  store16 reply 24 0

/-- The part of `send_icmp_echo_reply` behind its checks. -/
def echoReply (s : NetState) (frame : Area UInt8 n) (ipLen : Nat) : Except Fault NetState := do
  let reply ← readdress stack s.mac frame ipLen
  let first ← reply.get 14
  let ihl := first.toNat % 16 * 4
  let sum ← checksumIn reply 14 ihl
  let reply ← store16 reply 24 sum
  let reply ← reply.put (14 + ihl) 0
  let reply ← reply.put (14 + ihl + 2) 0
  let reply ← reply.put (14 + ihl + 3) 0
  let icmpLen ← sub ipLen ihl
  let sum ← checksumIn reply (14 + ihl) icmpLen
  let reply ← store16 reply (14 + ihl + 2) sum
  netSendPacket s reply (ipLen + 14)

def sendIcmpEchoReply (s : NetState) (frame : Area UInt8 n) : Except Fault NetState :=
  if n < 14 + 20 + 8 then pure s
  else do
    let field ← load16 frame 16
    let ipLen := bswap16 field
    if n < ipLen + 14 ∨ 1514 < ipLen + 14 then pure s
    else echoReply stack s frame ipLen

def handleArp (s : NetState) (frame : Area UInt8 n) : Except Fault NetState :=
  if n < 42 then pure s
  else do
    let op ← load16 frame 20
    let spa ← load32 frame 28
    let tpa ← load32 frame 38
    let s ← arpCachePut s (bswap32 spa) frame 22
    if bswap16 op = 1 ∧ bswap32 tpa = localIp then sendArpReply stack s frame else pure s

/-- The ICMP branch of `handle_ipv4`. -/
def handleIcmp (s : NetState) (frame : Area UInt8 n) (src ihl total : Nat) :
    Except Fault NetState := do
  let icmpLen ← sub total ihl
  if icmpLen < 8 then pure s.drop
  else
    let sum ← checksumIn frame (14 + ihl) icmpLen
    if sum ≠ 0 then pure s.checksumError
    else
      let type ← frame.get (14 + ihl)
      if type = 8 then sendIcmpEchoReply stack s frame
      else if type = 0 then
        let seq ← load16 frame (14 + ihl + 6)
        if src = s.pendingPingIp ∧ bswap16 seq = s.pendingPingSeq then
          pure { s with lastPingOk := true }
        else pure s
      else pure s

/-- The UDP branch of `handle_ipv4`. -/
def handleUdp (s : NetState) (frame : Area UInt8 n) (src ihl total : Nat) :
    Except Fault NetState := do
  let udpLen ← sub total ihl
  if udpLen < 8 then pure s.drop
  else
    let srcPort ← load16 frame (14 + ihl)
    let dstPort ← load16 frame (14 + ihl + 2)
    let rest ← sub udpLen 8
    let len := if 127 < rest then 127 else rest
    let data ← s.lastUdp.data.copy 0 frame (14 + ihl + 8) len
    let data ← data.put len 0
    pure { s with lastUdp := ⟨src, bswap16 srcPort, bswap16 dstPort, len, data, true⟩ }

/-- `handle_ipv4` from the check of the header on. -/
def handlePacket (s : NetState) (frame : Area UInt8 n) (ihl total : Nat) :
    Except Fault NetState := do
  let sum ← checksumIn frame 14 ihl
  if sum ≠ 0 then pure s.checksumError
  else
    let src ← load32 frame 26
    let dst ← load32 frame 30
    if bswap32 dst ≠ localIp then pure s
    else
      let s ← arpCachePut s (bswap32 src) frame 6
      let proto ← frame.get 23
      if proto = 1 then handleIcmp stack s frame (bswap32 src) ihl total
      else if proto = 17 then handleUdp s frame (bswap32 src) ihl total
      else pure s

def handleIpv4 (s : NetState) (frame : Area UInt8 n) : Except Fault NetState :=
  if n < 34 then pure s
  else do
    let first ← frame.get 14
    let ihl := first.toNat % 16 * 4
    if ihl < 20 ∨ n < 14 + ihl then pure s
    else
      let field ← load16 frame 16
      let total := bswap16 field
      if total < ihl then pure s.drop
      else if n < 14 + total then pure s.drop
      else handlePacket stack s frame ihl total

/-- The body of the loop of `net_poll`. -/
def dispatch (s : NetState) (frame : Area UInt8 n) : Except Fault NetState := do
  let type ← load16 frame 12
  if bswap16 type = 0x0806 then handleArp stack s frame
  else if bswap16 type = 0x0800 then handleIpv4 stack s frame
  else pure s.drop

/-- What `net_receive_packet` delivers into a buffer of 1600 bytes. -/
structure Delivery where
  len : Nat
  bytes : Bytes
  fits : len ≤ 1596

def Delivery.frame (d : Delivery) : Area UInt8 d.len := ⟨d.bytes⟩

variable (nic : Nat → Option Delivery)

/-- The loop of `net_poll`; the card answers call `i` of `net_receive_packet`, with
    `none` where that does not return 1. -/
def pollFrom : Nat → Nat → Nat → NetState → Except Fault (Nat × NetState)
  | 0, _, handled, s => pure (handled, s)
  | left + 1, i, handled, s =>
    match nic i with
    | none => pure (handled, s)
    | some d =>
      if d.len < 14 then pure (handled, s)
      else do
        let s ← dispatch stack s d.frame
        pollFrom left (i + 1) (handled + 1) s

def netPoll (s : NetState) : Except Fault (Nat × NetState) := pollFrom stack nic 8 0 0 s

end Handlers

end NetReceive
