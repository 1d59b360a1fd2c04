import AoOs.NetReceive

/-! # The receive ring — `net_receive_packet`

    The card stores packets in a ring of 58 pages of its memory, each behind a header of
    four bytes: status, page of the next packet, count.  The driver reads the header and
    then the packet by remote DMA, in two pieces when the packet runs over the end of the
    ring, and in words of 16 bits, so a byte more than asked for when that is odd.  The
    card's memory and the caller's buffer are areas with checked access: the buffer has
    1598 bytes here. -/

namespace NetRing

open Net CheckedArea

variable {page : Nat}

variable {n : Nat}

/-- `NE_RX_START`. -/
def rxStart : Nat := 0x46

/-- `NE_RX_STOP`. -/
def rxStop : Nat := 0x80

def u8 (k : Nat) : Nat := k % 2 ^ 8

def u16 (k : Nat) : Nat := k % 2 ^ 16

/-- The memory of the card and its register CURR. -/
structure Card where
  mem : Area UInt8 65536
  curr : Nat

/-- The variables of the receiver, and what was written last to the register BNRY. -/
structure Rx where
  driver : Driver
  ioBase : Nat
  rxBoundary : Nat
  rxErrors : Nat
  packetsRx : Nat
  bnry : Nat

/-- What `net_receive_packet` returns and leaves behind. -/
structure Received (n : Nat) where
  ret : Int
  rx : Rx
  data : Area UInt8 n
  len : Nat

/-- A remote read from `addr` on, of which `words` words are taken into `dst`. -/
def insw (c : Card) (dst : Area UInt8 n) (i addr words : Nat) : Except Fault (Area UInt8 n) :=
  dst.copy i c.mem addr (2 * words)

/-- The boundary in front of a page, stored in the variable and in the register. -/
def Rx.setBoundary (s : Rx) (page : Nat) : Rx :=
  let boundary := if page = rxStart then rxStop - 1 else u8 (page + (2 ^ 8 - 1))
  { s with rxBoundary := boundary, bnry := boundary }

/-- `first_payload`, the bytes of the packet in front of the end of the ring. -/
def firstPayload (packetPage payloadLen count : Nat) : Nat :=
  let first := u16 ((rxStop - packetPage) * 256)
  let first := if count < first then count else first
  let piece := if 4 < first then first - 4 else 0
  if payloadLen < piece then payloadLen else piece

/-- The packet behind a good header, from page `packetPage` on. -/
def readPacket (c : Card) (data : Area UInt8 n) (packetPage payloadLen count : Nat) :
    Except Fault (Area UInt8 n) := do
  let piece := firstPayload packetPage payloadLen count
  let data ← insw c data 0 (u16 (packetPage * 256 + 4)) ((piece + 1) / 2)
  if piece < payloadLen then
    insw c data piece (rxStart * 256) ((payloadLen - piece + 1) / 2)
  else pure data

/-- `net_receive_packet`; `len` is what the caller's variable held. -/
def netReceivePacket (c : Card) (s : Rx) (data : Area UInt8 n) (len : Nat) :
    Except Fault (Received n) :=
  if s.driver ≠ .ne2000 ∨ s.ioBase = 0 then pure ⟨-1, s, data, len⟩
  else
    let packetPage := u8 (s.rxBoundary + 1)
    let packetPage := if rxStop ≤ packetPage then rxStart else packetPage
    if packetPage = c.curr then pure ⟨0, s, data, 0⟩
    else do
      let hdr : Area UInt8 4 := ⟨fun _ => 0⟩
      let hdr ← insw c hdr 0 (packetPage * 256) 2
      let nextPage ← hdr.get 1
      let lo ← hdr.get 2
      let hi ← hdr.get 3
      let count := lo.toNat + 256 * hi.toNat
      if nextPage.toNat < rxStart ∨ rxStop ≤ nextPage.toNat ∨ count < 4 ∨ 1600 < count then
        pure ⟨-1, { s with rxErrors := u32 (s.rxErrors + 1) }.setBoundary c.curr, data, 0⟩
      else do
        let data ← readPacket c data packetPage (count - 4) count
        pure ⟨1, { s with packetsRx := u32 (s.packetsRx + 1) }.setBoundary nextPage.toNat, data,
          count - 4⟩

/-! ## The ring -/

/-- A page of the ring. -/
def InRing (page : Nat) : Prop := rxStart ≤ page ∧ page < rxStop

/-- The page behind a page of the ring. -/
def pageAfter (page : Nat) : Nat := if page + 1 = rxStop then rxStart else page + 1

/-- Byte `k` of what is stored from `page` on, the last page followed by the first. -/
def ringByte (c : Card) (page k : Nat) : UInt8 :=
  c.mem.cell (rxStart * 256 + ((page - rxStart) * 256 + k) % ((rxStop - rxStart) * 256))

/-- The count in the header of the packet at `page`. -/
def countAt (c : Card) (page : Nat) : Nat :=
  (ringByte c page 2).toNat + 256 * (ringByte c page 3).toNat

theorem start_eq : rxStart = 0x46 := rfl

theorem stop_eq : rxStop = 0x80 := rfl

theorem inRing_pageAfter (h : InRing page) : InRing (pageAfter page) := by
  have h1 := start_eq
  have h2 := stop_eq
  obtain ⟨hlow, hhigh⟩ := h
  rw [InRing, pageAfter]
  by_cases hlast : page + 1 = rxStop
  · rw [if_pos hlast]
    omega
  · rw [if_neg hlast]
    omega

/-- The driver's page of the next packet. -/
theorem packetPage_eq (h : InRing page) :
    (if rxStop ≤ u8 (page + 1) then rxStart else u8 (page + 1)) = pageAfter page := by
  have h1 := start_eq
  have h2 := stop_eq
  obtain ⟨hlow, hhigh⟩ := h
  rw [pageAfter, u8, Nat.mod_eq_of_lt (by omega)]
  by_cases hlast : page + 1 = rxStop
  · rw [if_pos hlast, if_pos (by omega)]
  · rw [if_neg hlast, if_neg (by omega)]

/-- The boundary in front of a page of the ring is in the ring. -/
theorem setBoundary_spec (s : Rx) (h : InRing page) :
    InRing (s.setBoundary page).rxBoundary ∧ pageAfter (s.setBoundary page).rxBoundary = page := by
  have h1 := start_eq
  have h2 := stop_eq
  obtain ⟨hlow, hhigh⟩ := h
  rw [Rx.setBoundary, InRing, pageAfter]
  dsimp only
  by_cases hfirst : page = rxStart
  · rw [if_pos hfirst, if_pos (by omega)]
    omega
  · rw [if_neg hfirst, u8, show (page + (2 ^ 8 - 1)) % 2 ^ 8 = page - 1 by omega, if_neg (by omega)]
    omega

/-- In front of the end of the ring the bytes are consecutive. -/
theorem ringByte_low (c : Card) {k : Nat} (h : InRing page) (hk : k < (rxStop - page) * 256) :
    ringByte c page k = c.mem.cell (page * 256 + k) := by
  rw [ringByte]
  refine congrArg _ ?_
  simp only [InRing, rxStart, rxStop] at *
  omega

/-- Behind it they go on at the start of the ring. -/
theorem ringByte_high (c : Card) {k : Nat} (h : InRing page) (hk : (rxStop - page) * 256 ≤ k)
    (hlen : k < (rxStop - rxStart) * 256) :
    ringByte c page k = c.mem.cell (rxStart * 256 + (k - (rxStop - page) * 256)) := by
  rw [ringByte]
  refine congrArg _ ?_
  simp only [InRing, rxStart, rxStop] at *
  omega

/-! ## The packet -/

theorem firstPayload_eq {count : Nat} (hp : InRing page) (h4 : 4 ≤ count) :
    firstPayload page (count - 4) count =
      if (rxStop - page) * 256 < count then (rxStop - page) * 256 - 4 else count - 4 := by
  have h1 := start_eq
  have h2 := stop_eq
  obtain ⟨hlow, hhigh⟩ := hp
  rw [firstPayload, u16, Nat.mod_eq_of_lt (by omega)]
  by_cases hwrap : (rxStop - page) * 256 < count
  · rw [if_pos hwrap, if_neg (Nat.lt_asymm hwrap), if_pos (show 4 < (rxStop - page) * 256 by omega),
      if_neg (by omega)]
  · rw [if_neg hwrap]
    split <;> split <;> split <;> omega

/-- **The two pieces are the packet**, and the buffer is large enough for both. -/
theorem readPacket_spec (c : Card) (data : Area UInt8 1598) {count : Nat} (hp : InRing page)
    (h4 : 4 ≤ count) (hcount : count ≤ 1600) :
    Returns (readPacket c data page (count - 4) count) fun data' =>
      ∀ k < count - 4, data'.cell k = ringByte c page (4 + k) := by
  have h1 := start_eq
  have h2 := stop_eq
  obtain ⟨hlow, hhigh⟩ := id hp
  have haddr : u16 (page * 256 + 4) = page * 256 + 4 := Nat.mod_eq_of_lt (by omega)
  rw [readPacket, firstPayload_eq hp h4, haddr]
  by_cases hwrap : (rxStop - page) * 256 < count
  · -- the packet runs over the end of the ring
    rw [if_pos hwrap, insw, Area.copy_ok _ _ (by omega) (by omega), ok_bind, if_pos (by omega),
      insw, Area.copy_ok _ _ (by omega) (by omega)]
    refine .ok fun k hk => ?_
    dsimp only
    by_cases hpiece : k < (rxStop - page) * 256 - 4
    · rw [if_neg (by omega), if_pos ⟨by omega, by omega⟩, ringByte_low c hp (by omega)]
      refine congrArg _ ?_
      omega
    · rw [if_pos ⟨by omega, by omega⟩, ringByte_high c hp (by omega) (by omega)]
      refine congrArg _ ?_
      omega
  · rw [if_neg hwrap, insw, Area.copy_ok _ _ (by omega) (by omega), ok_bind,
      if_neg (Nat.lt_irrefl _)]
    refine .ok fun k hk => ?_
    dsimp only
    rw [if_pos ⟨by omega, by omega⟩, ringByte_low c hp (by omega)]
    refine congrArg _ ?_
    omega

/-- What a call has done, by its result. -/
structure Correct (c : Card) (s : Rx) (r : Received 1598) : Prop where
  boundary : InRing r.rx.rxBoundary
  packet : r.ret = 1 → 4 ≤ countAt c (pageAfter s.rxBoundary) ∧
    r.len = countAt c (pageAfter s.rxBoundary) - 4 ∧ r.len ≤ 1596 ∧
    (∀ k < r.len, r.data.cell k = ringByte c (pageAfter s.rxBoundary) (4 + k)) ∧
    pageAfter r.rx.rxBoundary = (ringByte c (pageAfter s.rxBoundary) 1).toNat
  empty : r.ret = 0 → r.rx = s ∧ pageAfter s.rxBoundary = c.curr
  bad : r.ret = -1 → pageAfter r.rx.rxBoundary = c.curr

/-- **The ring is read correctly across the wrap**: whatever the ring holds, the call stays
    inside the buffer, delivers the packet behind the boundary and leaves the boundary
    in front of the next one, or in front of CURR after a bad header. -/
theorem netReceivePacket_correct (c : Card) (s : Rx) (data : Area UInt8 1598) (len : Nat)
    (hdriver : s.driver = .ne2000) (hio : s.ioBase ≠ 0) (hcurr : InRing c.curr)
    (hboundary : InRing s.rxBoundary) :
    Returns (netReceivePacket c s data len) (Correct c s) := by
  have hpage := inRing_pageAfter hboundary
  have hpage' : 0x46 ≤ pageAfter s.rxBoundary ∧ pageAfter s.rxBoundary < 0x80 := hpage
  rw [netReceivePacket, if_neg (by simp [hdriver, hio])]
  dsimp only
  rw [packetPage_eq hboundary]
  by_cases hempty : pageAfter s.rxBoundary = c.curr
  · rw [if_pos hempty]
    exact .ok ⟨hboundary, nofun, fun _ => ⟨rfl, hempty⟩, nofun⟩
  -- the header is never split: packets start at pages
  have hbyte : ∀ k < 4, c.mem.cell (pageAfter s.rxBoundary * 256 + k) =
      ringByte c (pageAfter s.rxBoundary) k := by
    intro k hk
    refine (ringByte_low c hpage ?_).symm
    simp only [rxStop]
    omega
  rw [if_neg hempty, insw, Area.copy_ok _ _ (by omega) (by omega), ok_bind,
    Area.get_ok _ (by omega), ok_bind, Area.get_ok _ (by omega), ok_bind, Area.get_ok _ (by omega),
    ok_bind]
  simp only [Nat.zero_le, Nat.zero_add, Nat.sub_zero, true_and, Nat.reduceMul, Nat.reduceLT,
    if_true, hbyte]
  have hcount : (ringByte c (pageAfter s.rxBoundary) 2).toNat +
      256 * (ringByte c (pageAfter s.rxBoundary) 3).toNat = countAt c (pageAfter s.rxBoundary) :=
        rfl
  rw [hcount]
  split
  · obtain ⟨hin, hafter⟩ := setBoundary_spec { s with rxErrors := u32 (s.rxErrors + 1) } hcurr
    exact .ok ⟨hin, nofun, nofun, fun _ => hafter⟩
  · rename_i hgood
    simp only [not_or, Nat.not_lt, Nat.not_le] at hgood
    obtain ⟨hstart, hstop, h4, h1600⟩ := hgood
    obtain ⟨hin, hafter⟩ := setBoundary_spec { s with packetsRx := u32 (s.packetsRx + 1) }
      ⟨hstart, hstop⟩
    refine (readPacket_spec c data hpage h4 h1600).bind fun data' hdata => .ok ?_
    exact ⟨hin, fun _ => ⟨h4, rfl, by dsimp only; omega, hdata, hafter⟩, nofun, nofun⟩

/-- A packet of 300 bytes on the last page of the ring and the first. -/
def wrappedCard : Card where
  mem := ⟨fun a => if a = 0x7F01 then 0x47 else if a = 0x7F02 then 44 else if a = 0x7F03 then 1
    else UInt8.ofNat a⟩
  curr := 0x47

def wrappedRx : Rx := ⟨.ne2000, 0xC000, 0x7E, 0, 0, 0x7E⟩

def emptyBuffer : Area UInt8 1598 := ⟨fun _ => 0⟩

/-- It is delivered: byte 252 is the first of page 0x46. -/
theorem netReceivePacket_wrapped :
    ∃ r, netReceivePacket wrappedCard wrappedRx emptyBuffer 0 = .ok r ∧
    r.ret = 1 ∧ r.len = 296 ∧ r.data.cell 252 = wrappedCard.mem.cell 0x4600 ∧
    r.rx.rxBoundary = 0x46 := by
  obtain ⟨r, hrun, hcorrect⟩ := netReceivePacket_correct wrappedCard wrappedRx emptyBuffer 0 rfl
    (by decide) ⟨by decide, by decide⟩ ⟨by decide, by decide⟩
  have hret : (netReceivePacket wrappedCard wrappedRx emptyBuffer 0).toOption.map
      (fun r => (r.ret, r.rx.rxBoundary)) = some (1, 0x46) := by decide
  rw [hrun] at hret
  obtain ⟨h1, h2⟩ := Prod.mk.inj (Option.some.inj hret)
  obtain ⟨_, hlen, _, hdata, _⟩ := hcorrect.packet h1
  have hlen : r.len = 296 := hlen.trans (by decide)
  refine ⟨r, hrun, h1, hlen, ?_, h2⟩
  rw [hdata 252 (by omega)]
  rfl

end NetRing
