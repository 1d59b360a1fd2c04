import AoOs.NetReceive

/-! # No received frame leads out of bounds

    The checks that guard an access stand in different functions, so each handler is
    proved under what its callers have checked: the IP header fits the IP packet, the
    packet fits the frame.  `Answers` says what a handler may change that the others
    rely on: it only adds to the packets that were passed on. -/

namespace NetBounds

open OnesComplement Net NetChecks CheckedArea NetReceive

variable {len ipLen : Nat} {mac frame : Bytes}

variable {n : Nat} (stack : Bytes)

theorem memcpy_ok {m : Nat} (dst : Area UInt8 n) {i : Nat} (src : Area UInt8 m) {j : Nat}
    (h : i + len ≤ n) (h' : j + len ≤ m) :
    dst.copy i src j len = .ok ⟨memcpy dst.cell i (fun k => src.cell (j + k)) len⟩ :=
  dst.copy_ok src h h'

/-- The handler has passed on `sent` and kept the address of the card. -/
structure Answers (s s' : NetState) (sent : List (Bytes × Nat)) : Prop where
  mac : s'.mac = s.mac
  passed : s'.passed = s.passed ++ sent

theorem Answers.nothing {s s' : NetState} (hmac : s'.mac = s.mac) (hpassed : s'.passed = s.passed) :
    Answers s s' [] := ⟨hmac, by rw [hpassed, List.append_nil]⟩

theorem Answers.after {s s' s'' : NetState} {sent : List (Bytes × Nat)} (h : Answers s s' [])
    (h' : Answers s' s'' sent) : Answers s s'' sent :=
  ⟨h'.mac.trans h.mac, by rw [h'.passed, h.passed, List.append_nil]⟩

/-! ## Sending -/

/-- The rounding to words stays in the buffer: its size is even. -/
theorem transmit_returns (s : NetState) (data : Area UInt8 n) (hn : len ≤ n) (hlen : len ≤ 1536) :
    Returns (transmit s data len) (Answers s · []) := by
  have hout : ((if len < 60 then 60 else len) + 1) / 2 * 2 ≤ 1536 := by
    split <;> omega
  rw [transmit, memcpy_ok _ _ (by omega) (by omega), ok_bind]
  dsimp only
  rw [memcpy_ok _ _ (by omega) (by omega), ok_bind]
  exact .ok (.nothing rfl rfl)

theorem netSendPacket_returns (s : NetState) (data : Area UInt8 n) (hn : len ≤ n)
    (hlen : len ≤ 1536) : Returns (netSendPacket s data len) (Answers s · [(data.cell, len)]) := by
  rw [netSendPacket]
  split
  · exact .ok ⟨rfl, rfl⟩
  · refine (transmit_returns _ data hn hlen).mono fun s' h => ⟨h.mac, ?_⟩
    rw [h.passed, List.append_nil]

/-! ## The ARP cache -/

/-- The scan ends with a slot of the table, if it started with one. -/
theorem arpScan_returns (cache : Area ArpEntry 8) (ip left i : Nat) (slot : Option Nat)
    (h : i + left ≤ 8) (hslot : ∀ k, slot = some k → k < 8) :
    Returns (arpScan cache ip left i slot) (fun found => ∀ k, found = some k → k < 8) := by
  induction left generalizing i slot with
  | zero => exact .ok hslot
  | succ left ih =>
    rw [arpScan, cache.get_ok (by omega), ok_bind]
    split
    · refine .ok fun k hk => ?_
      cases hk
      omega
    · refine ih (i + 1) _ (by omega) fun k hk => ?_
      split at hk
      · cases hk
        omega
      · exact hslot k hk

theorem arpCount_returns (cache : Area ArpEntry 8) (left i count : Nat) (h : i + left ≤ 8) :
    Returns (arpCount cache left i count) (fun _ => True) := by
  induction left generalizing i count with
  | zero => exact .ok trivial
  | succ left ih =>
    rw [arpCount, cache.get_ok (by omega), ok_bind]
    exact ih (i + 1) _ (by omega)

theorem arpCachePut_returns (s : NetState) (ip : Nat) (src : Area UInt8 n) {j : Nat}
    (h : j + 6 ≤ n) :
    Returns (arpCachePut s ip src j) (Answers s · []) := by
  rw [arpCachePut]
  refine (arpScan_returns s.arpCache ip 8 0 none (by omega) nofun).bind fun found hfound => ?_
  have hslot : found.getD 0 < 8 := by
    cases hf : found with
    | none => decide
    | some k => exact hfound k hf
  dsimp only
  rw [Area.get_ok _ hslot, ok_bind, memcpy_ok _ _ (by omega) h, ok_bind, Area.put_ok _ _ hslot,
    ok_bind]
  exact (arpCount_returns _ 8 0 0 (by omega)).bind fun count _ => .ok (.nothing rfl rfl)

/-! ## Replies -/

theorem sendArpReply_returns (s : NetState) (request : Area UInt8 n) (h : 42 ≤ n) :
    Returns (sendArpReply stack s request) (fun s' => ∃ p, Answers s s' [(p, 42)]) := by
  rw [sendArpReply, memcpy_ok _ _ (by omega) (by omega), ok_bind,
    memcpy_ok _ _ (by omega) (by omega), ok_bind, store16_ok _ _ (by omega), ok_bind,
    store16_ok _ _ (by omega), ok_bind, store16_ok _ _ (by omega), ok_bind,
    Area.put_ok _ _ (by omega), ok_bind, Area.put_ok _ _ (by omega), ok_bind,
    store16_ok _ _ (by omega), ok_bind, memcpy_ok _ _ (by omega) (by omega), ok_bind,
    store32_ok _ _ (by omega), ok_bind, memcpy_ok _ _ (by omega) (by omega), ok_bind,
    memcpy_ok _ _ (by omega) (by omega), ok_bind]
  exact (netSendPacket_returns s _ (by omega) (by omega)).mono fun s' h => ⟨_, h⟩

/-- Rewriting the addresses keeps the first byte of the IP header. -/
theorem headerLen_replyHeader (mac frame : Bytes) (ipLen : Nat) (h : 1 ≤ ipLen) :
    headerLen (replyHeader mac stack frame ipLen) = headerLen frame := by
  rw [headerLen, headerLen, replyHeader, put16_other _ _ (by omega), put32_other _ _ (by omega),
    put32_other _ _ (by omega), memcpy_other _ _ (by omega), memcpy_other _ _ (by omega),
    memcpy_inside _ _ (by omega) (by omega)]

/-- The reply with its checksums, from the header with the new addresses. -/
def finishReply (r : Buf) (ihl ipLen : Nat) : Buf :=
  let r := replyMessage (put16 r 24 (checksum r 14 ihl)) (14 + ihl)
  put16 r (14 + ihl + 2) (checksum r (14 + ihl) (ipLen - ihl))

/-- A request whose packet fits both buffers and contains its header is answered. -/
theorem sendIcmpEchoReply_eq (mac frame : Bytes) (hipLen : totalLen frame = ipLen)
    (hroom : ipLen + 14 ≤ len) (hreply : ipLen + 14 ≤ 1514) (hmessage : headerLen frame ≤ ipLen)
    (h28 : 28 ≤ ipLen) : Net.sendIcmpEchoReply mac stack frame len =
      some (finishReply (replyHeader mac stack frame ipLen) (headerLen frame) ipLen,
        ipLen + 14) := by
  have hsub : u32 (ipLen + (2 ^ 32 - headerLen frame)) = ipLen - headerLen frame := by
    have := headerLen_lt frame
    rw [u32]
    omega
  rw [totalLen] at hipLen
  rw [Net.sendIcmpEchoReply, if_neg (by omega), hipLen, if_neg (by omega)]
  dsimp only
  rw [headerLen_replyHeader stack mac frame ipLen (by omega), hsub]
  rfl

theorem readdress_ok (mac : Area UInt8 6) (frame : Area UInt8 n) (hroom : ipLen + 14 ≤ n)
    (hreply : ipLen + 14 ≤ 1514) (h28 : 28 ≤ ipLen) :
    readdress stack mac frame ipLen = .ok ⟨replyHeader mac.cell stack frame.cell ipLen⟩ := by
  have hfrom : ∀ {m : Nat} (a : Area UInt8 m), (fun k => a.cell (0 + k)) = a.cell := fun a => by
    simp only [Nat.zero_add]
  rw [readdress, memcpy_ok _ _ (by omega) (by omega), ok_bind,
    memcpy_ok _ _ (by omega) (by omega), ok_bind, memcpy_ok _ _ (by omega) (by omega), ok_bind,
    load32_ok _ (by omega), ok_bind, store32_ok _ _ (by omega), ok_bind,
    store32_ok _ _ (by omega), ok_bind, store16_ok _ _ (by omega), hfrom, hfrom]
  rfl

/-- The reply is built in bounds: its message starts behind the header of the request,
    which the packet contains. -/
theorem echoReply_returns (s : NetState) (frame : Area UInt8 n) (hroom : ipLen + 14 ≤ n)
    (hreply : ipLen + 14 ≤ 1514) (hihl : 20 ≤ headerLen frame.cell)
    (hmessage : headerLen frame.cell + 8 ≤ ipLen) :
    Returns (echoReply stack s frame ipLen) (Answers s · [(finishReply
      (replyHeader s.mac.cell stack frame.cell ipLen) (headerLen frame.cell) ipLen,
      ipLen + 14)]) := by
  have hh := headerLen_replyHeader stack s.mac.cell frame.cell ipLen (by omega)
  rw [echoReply, readdress_ok stack s.mac frame hroom hreply (by omega), ok_bind]
  generalize replyHeader s.mac.cell stack frame.cell ipLen = r at hh
  rw [Area.get_ok _ (by omega), ok_bind]
  dsimp only
  rw [show (r 14).toNat % 16 * 4 = headerLen frame.cell from hh]
  generalize headerLen frame.cell = ihl at hihl hmessage
  rw [checksumIn_ok _ (by omega), ok_bind, store16_ok _ _ (by omega), ok_bind,
    Area.put_ok _ _ (by omega), ok_bind, Area.put_ok _ _ (by omega), ok_bind,
    Area.put_ok _ _ (by omega), ok_bind, sub_ok (by omega), ok_bind,
    checksumIn_ok _ (by omega), ok_bind, store16_ok _ _ (by omega), ok_bind]
  exact netSendPacket_returns s _ hreply (by omega)

theorem sendIcmpEchoReply_returns (s : NetState) (frame : Area UInt8 n)
    (hroom : totalLen frame.cell + 14 ≤ n) (hihl : 20 ≤ headerLen frame.cell)
    (hmessage : headerLen frame.cell + 8 ≤ totalLen frame.cell) :
    Returns (NetReceive.sendIcmpEchoReply stack s frame) (Answers s ·
      (Net.sendIcmpEchoReply s.mac.cell stack frame.cell n).toList) := by
  rw [NetReceive.sendIcmpEchoReply, if_neg (by omega), load16_ok _ (by omega), ok_bind]
  show Returns (if n < totalLen frame.cell + 14 ∨ 1514 < totalLen frame.cell + 14 then _ else _) _
  by_cases hreply : totalLen frame.cell + 14 ≤ 1514
  · rw [if_neg (by omega), sendIcmpEchoReply_eq stack _ _ rfl hroom hreply (by omega) (by omega)]
    exact echoReply_returns stack s frame hroom hreply hihl hmessage
  · have hnet : Net.sendIcmpEchoReply s.mac.cell stack frame.cell n = none := by
      rw [Net.sendIcmpEchoReply, if_neg (by omega)]
      exact if_pos (.inr (Nat.lt_of_not_le hreply))
    rw [if_pos (by omega), hnet]
    exact .ok (.nothing rfl rfl)

/-! ## Handlers -/

theorem handleArp_returns (s : NetState) (frame : Area UInt8 n) :
    Returns (handleArp stack s frame) (fun s' => ∃ sent, Answers s s' sent ∧
      ∀ p ∈ sent, p.2 = 42) := by
  rw [handleArp]
  split
  · exact .ok ⟨[], .nothing rfl rfl, nofun⟩
  · rw [load16_ok _ (by omega), ok_bind, load32_ok _ (by omega), ok_bind, load32_ok _ (by omega),
      ok_bind]
    refine (arpCachePut_returns s _ frame (by omega)).bind fun s₁ h₁ => ?_
    split
    · refine (sendArpReply_returns stack s₁ frame (by omega)).mono fun s₂ h₂ => ?_
      obtain ⟨p, h₂⟩ := h₂
      exact ⟨[(p, 42)], h₁.after h₂, fun q hq => by rw [List.mem_singleton.mp hq]⟩
    · exact .ok ⟨[], h₁, nofun⟩

/-- What is sent for a frame: an answer to an echo request. -/
def echoed (mac stack frame : Bytes) (len : Nat) : List (Bytes × Nat) :=
  if Net.handleIpv4 localIp frame len = .echoRequest then
    (Net.sendIcmpEchoReply mac stack frame len).toList
  else []

theorem echoed_nil (h : ¬ EchoRequest localIp frame len) :
    echoed mac stack frame len = [] := if_neg fun hreq => h (.of_handleIpv4 hreq)

theorem echoed_request (h : EchoRequest localIp frame len) :
    echoed mac stack frame len = (Net.sendIcmpEchoReply mac stack frame len).toList := by
  obtain ⟨hihl, hroom, hmessage, hheader, haddress, hicmp, hbody, htype⟩ := h
  refine if_pos ?_
  rw [Net.handleIpv4, if_neg (by omega), if_neg (by omega), if_neg (by omega), if_neg (by omega),
    if_neg (not_not.mpr hheader), if_neg (not_not.mpr haddress), if_pos hicmp, if_neg (by omega),
    if_neg (not_not.mpr hbody), if_pos htype]

/-- The checks of `handle_ipv4` on the lengths. -/
structure Packet (frame : Area UInt8 n) : Prop where
  ihl : 20 ≤ headerLen frame.cell
  total : headerLen frame.cell ≤ totalLen frame.cell
  room : 14 + totalLen frame.cell ≤ n

theorem handleIcmp_returns (s : NetState) {frame : Area UInt8 n} (src : Nat) (h : Packet frame)
    (hsum : checksum frame.cell 14 (headerLen frame.cell) = 0)
    (hdst : bswap32 (get32 frame.cell 30) = localIp) (hproto : frame.cell 23 = 1) :
    Returns (handleIcmp stack s frame src (headerLen frame.cell) (totalLen frame.cell))
      (Answers s · (echoed s.mac.cell stack frame.cell n)) := by
  obtain ⟨hihl, htotal, hroom⟩ := h
  rw [handleIcmp, sub_ok htotal, ok_bind]
  by_cases h8 : totalLen frame.cell - headerLen frame.cell < 8
  · rw [if_pos h8, echoed_nil stack fun hreq => by have := hreq.message; omega]
    exact .ok (.nothing rfl rfl)
  rw [if_neg h8, checksumIn_ok _ (by omega), ok_bind]
  by_cases hmsg : checksum frame.cell (14 + headerLen frame.cell)
      (totalLen frame.cell - headerLen frame.cell) ≠ 0
  · rw [if_pos hmsg, echoed_nil stack fun hreq => hmsg hreq.body]
    exact .ok (.nothing rfl rfl)
  rw [if_neg hmsg, Area.get_ok _ (by omega), ok_bind]
  by_cases htype : frame.cell (14 + headerLen frame.cell) = 8
  · rw [if_pos htype, echoed_request stack
      ⟨hihl, hroom, by omega, hsum, hdst, hproto, not_not.mp hmsg, htype⟩]
    exact sendIcmpEchoReply_returns stack s frame (by omega) hihl (by omega)
  rw [if_neg htype, echoed_nil stack fun hreq => htype hreq.type]
  split
  · rw [load16_ok _ (by omega), ok_bind]
    split <;> exact .ok (.nothing rfl rfl)
  · exact .ok (.nothing rfl rfl)

/-- The data is cut so that its terminator fits. -/
theorem handleUdp_returns (s : NetState) {frame : Area UInt8 n} (src : Nat) (h : Packet frame) :
    Returns (handleUdp s frame src (headerLen frame.cell) (totalLen frame.cell))
      (Answers s · []) := by
  obtain ⟨hihl, htotal, hroom⟩ := h
  rw [handleUdp, sub_ok htotal, ok_bind]
  split
  · exact .ok (.nothing rfl rfl)
  · rw [load16_ok _ (by omega), ok_bind, load16_ok _ (by omega), ok_bind, sub_ok (by omega),
      ok_bind]
    dsimp only
    generalize hlen : (if 127 < totalLen frame.cell - headerLen frame.cell - 8 then 127
      else totalLen frame.cell - headerLen frame.cell - 8) = len
    have hcut : len ≤ 127 ∧ len ≤ totalLen frame.cell - headerLen frame.cell - 8 := by
      split at hlen <;> omega
    rw [memcpy_ok _ _ (by omega) (by omega), ok_bind, Area.put_ok _ _ (by omega), ok_bind]
    exact .ok (.nothing rfl rfl)

theorem handlePacket_returns (s : NetState) {frame : Area UInt8 n} (h : Packet frame) :
    Returns (handlePacket stack s frame (headerLen frame.cell) (totalLen frame.cell))
      (Answers s · (echoed s.mac.cell stack frame.cell n)) := by
  have hihl := h.ihl
  have htotal := h.total
  have hroom := h.room
  rw [handlePacket, checksumIn_ok _ (by omega), ok_bind]
  by_cases hsum : checksum frame.cell 14 (headerLen frame.cell) ≠ 0
  · rw [if_pos hsum, echoed_nil stack fun hreq => hsum hreq.header]
    exact .ok (.nothing rfl rfl)
  rw [if_neg hsum, load32_ok _ (by omega), ok_bind, load32_ok _ (by omega), ok_bind]
  by_cases hdst : bswap32 (get32 frame.cell 30) ≠ localIp
  · rw [if_pos hdst, echoed_nil stack fun hreq => hdst hreq.address]
    exact .ok (.nothing rfl rfl)
  rw [if_neg hdst]
  refine (arpCachePut_returns s _ frame (by omega)).bind fun s₁ h₁ => ?_
  rw [Area.get_ok _ (by omega), ok_bind, ← h₁.mac]
  by_cases hproto : frame.cell 23 = 1
  · rw [if_pos hproto]
    exact (handleIcmp_returns stack s₁ _ h (not_not.mp hsum) (not_not.mp hdst) hproto).mono
      fun s₂ h₂ => h₁.after h₂
  rw [if_neg hproto, echoed_nil stack fun hreq => hproto hreq.icmp]
  split
  · exact (handleUdp_returns s₁ _ h).mono fun s₂ h₂ => h₁.after h₂
  · exact .ok h₁

/-- **`handle_ipv4` on any frame**: it answers echo requests as `Net` says. -/
theorem handleIpv4_returns (s : NetState) (frame : Area UInt8 n) :
    Returns (NetReceive.handleIpv4 stack s frame)
      (Answers s · (echoed s.mac.cell stack frame.cell n)) := by
  rw [NetReceive.handleIpv4]
  by_cases hlen : n < 34
  · rw [if_pos hlen, echoed_nil stack fun hreq => by
      have := hreq.ihl; have := hreq.message; have := hreq.room; omega]
    exact .ok (.nothing rfl rfl)
  rw [if_neg hlen, Area.get_ok _ (by omega), ok_bind]
  dsimp only
  rw [show (frame.cell 14).toNat % 16 * 4 = headerLen frame.cell from rfl]
  by_cases hihl : headerLen frame.cell < 20 ∨ n < 14 + headerLen frame.cell
  · rw [if_pos hihl, echoed_nil stack fun hreq => by
      have := hreq.ihl; have := hreq.message; have := hreq.room; omega]
    exact .ok (.nothing rfl rfl)
  rw [if_neg hihl, load16_ok _ (by omega), ok_bind,
    show bswap16 (get16 frame.cell 16) = totalLen frame.cell from rfl]
  by_cases htotal : totalLen frame.cell < headerLen frame.cell
  · rw [if_pos htotal, echoed_nil stack fun hreq => by have := hreq.message; omega]
    exact .ok (.nothing rfl rfl)
  rw [if_neg htotal]
  by_cases hroom : n < 14 + totalLen frame.cell
  · rw [if_pos hroom, echoed_nil stack fun hreq => by have := hreq.room; omega]
    exact .ok (.nothing rfl rfl)
  rw [if_neg hroom]
  exact handlePacket_returns stack s ⟨by omega, by omega, by omega⟩

/-- A reply is no longer than its buffer. -/
theorem echoed_le {p : Bytes × Nat} (h : p ∈ echoed mac stack frame len) : p.2 ≤ 1514 := by
  rw [echoed] at h
  split at h
  · rw [Option.mem_toList, Net.sendIcmpEchoReply] at h
    split at h
    · cases h
    · dsimp only at h
      split at h
      · cases h
      · cases h
        dsimp only
        omega
  · cases h

/-! ## Polling -/

theorem dispatch_returns (s : NetState) (frame : Area UInt8 n) (h : 14 ≤ n) :
    Returns (dispatch stack s frame) (fun s' => ∃ sent, Answers s s' sent ∧
      ∀ p ∈ sent, p.2 ≤ 1536) := by
  rw [dispatch, load16_ok _ (by omega), ok_bind]
  split
  · refine (handleArp_returns stack s frame).mono fun s' h => ?_
    obtain ⟨sent, hs, hsent⟩ := h
    exact ⟨sent, hs, fun p hp => by rw [hsent p hp]; decide⟩
  · split
    · exact (handleIpv4_returns stack s frame).mono fun s' h =>
        ⟨_, h, fun p hp => (echoed_le stack hp).trans (by decide)⟩
    · exact .ok ⟨[], .nothing rfl rfl, nofun⟩

theorem pollFrom_returns (nic : Nat → Option Delivery) (left i handled : Nat) (s : NetState) :
    Returns (pollFrom stack nic left i handled s) (fun r => ∃ sent,
      r.2.passed = s.passed ++ sent ∧ ∀ p ∈ sent, p.2 ≤ 1536) := by
  induction left generalizing i handled s with
  | zero => exact .ok ⟨[], (List.append_nil _).symm, nofun⟩
  | succ left ih =>
    rw [pollFrom]
    cases nic i with
    | none => exact .ok ⟨[], (List.append_nil _).symm, nofun⟩
    | some d =>
      dsimp only
      split
      · exact .ok ⟨[], (List.append_nil _).symm, nofun⟩
      · refine (dispatch_returns stack s d.frame (by omega)).bind fun s₁ h₁ => ?_
        obtain ⟨sent₁, h₁, hlen₁⟩ := h₁
        refine (ih (i + 1) (handled + 1) s₁).mono fun r hr => ?_
        obtain ⟨sent₂, hr, hlen₂⟩ := hr
        refine ⟨sent₁ ++ sent₂, by rw [hr, h₁.passed, List.append_assoc], fun p hp => ?_⟩
        rcases List.mem_append.mp hp with hp | hp
        · exact hlen₁ p hp
        · exact hlen₂ p hp

/-- **NO RECEIVED FRAME LEADS OUT OF BOUNDS**: whatever the card delivers, `net_poll`
    returns without a fault, and passes nothing on that is too long to send. -/
theorem netPoll_in_bounds (nic : Nat → Option Delivery) (s : NetState) :
    ∃ handled s', netPoll stack nic s = .ok (handled, s') ∧
      ∃ sent, s'.passed = s.passed ++ sent ∧ ∀ p ∈ sent, p.2 ≤ 1536 := by
  obtain ⟨⟨handled, s'⟩, hpoll, hsent⟩ := pollFrom_returns stack nic 8 0 0 s
  exact ⟨handled, s', hpoll, hsent⟩

end NetBounds
