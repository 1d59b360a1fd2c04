import AoOs.Net

/-! # Checksums on the wire

    `checksum` sums big-endian words, but its result is stored through a native
    pointer, so the two bytes of every checksum the stack sends are exchanged.  The
    receiver's check then comes out right exactly when the sum of the other words is
    a multiple of 257: the checksum is a pair of equal bytes. -/

namespace NetChecks

open OnesComplement Net

variable {b : Buf} {i j n v : Nat}

/-! ## `checksum` is the complement of the word sum -/

theorem sumFrom_eq (b : Buf) (i len sum : Nat) (h : sum + 65535 * ((len + 1) / 2) < 2 ^ 32) :
    sumFrom b i len sum = sum + wordSum b i len := by
  induction i, len using wordSum.induct generalizing sum with
  | case1 i => rfl
  | case2 i =>
    have := (b i).toNat_lt
    rw [sumFrom, wordSum, u32, Nat.mod_eq_of_lt (by omega)]
  | case3 i n ih =>
    have := word_lt b i
    rw [sumFrom, wordSum, u32, Nat.mod_eq_of_lt (by omega), ih _ (by omega), Nat.add_assoc]

theorem wordSum_lt (b : Buf) (i : Nat) {len : Nat} (h : len < 65536) :
    wordSum b i len + 65535 < 2 ^ 32 := by
  have := wordSum_le b i len
  omega

theorem checksum_eq (b : Buf) (i : Nat) {len : Nat} (h : len < 65536) :
    checksum b i len = complement foldRounds (wordSum b i len) := by
  have hlt : fold foldRounds (wordSum b i len) < 65536 :=
    fold_lt (by decide) (by have := wordSum_lt b i h; omega)
  rw [checksum, sumFrom_eq b i len 0 (by omega), Nat.zero_add, complement]
  omega

theorem checksum_congr {b' : Buf} {len : Nat} (hlen : len < 65536)
    (h : ∀ j, i ≤ j → j < i + len → b' j = b j) : checksum b' i len = checksum b i len := by
  rw [checksum_eq b' i hlen, checksum_eq b i hlen, wordSum_congr h]

/-- A range that passes the check sums to a multiple of 257. -/
theorem wordSum_of_checksum {len : Nat} (hlen : len < 65536) (h : checksum b i len = 0) :
    wordSum b i len % 257 = 0 := by
  rw [checksum_eq b i hlen] at h
  have hmod := ((complement_eq_zero_iff (by decide) (by have := wordSum_lt b i hlen; omega)).mp h).2
  omega

/-! ## Stores -/

theorem put8_other (b : Buf) (v : UInt8) (h : j ≠ i) : put8 b i v j = b j := if_neg h

theorem put8_same (b : Buf) (i : Nat) (v : UInt8) : put8 b i v i = v := if_pos rfl

theorem put16_other (b : Buf) (v : Nat) (h : j < i ∨ i + 2 ≤ j) : put16 b i v j = b j := by
  rw [put16, put8_other _ _ (by omega), put8_other _ _ (by omega)]

theorem put32_other (b : Buf) (v : Nat) (h : j < i ∨ i + 4 ≤ j) : put32 b i v j = b j := by
  rw [put32, put16_other _ _ (by omega), put16_other _ _ (by omega)]

theorem memcpy_other (b : Buf) (src : Buf) (h : j < i ∨ i + n ≤ j) :
    memcpy b i src n j = b j := if_neg (by omega)

theorem memcpy_inside (b : Buf) (src : Buf) (h : i ≤ j) (h' : j < i + n) :
    memcpy b i src n j = src (j - i) := if_pos ⟨h, h'⟩

/-- The word behind a native store is the stored value with its bytes exchanged. -/
theorem word_put16 (b : Buf) (i : Nat) (hv : v < 65536) : word (put16 b i v) i = swap v := by
  have hlow : put16 b i v i = UInt8.ofNat v := by
    rw [put16, put8_other _ _ (by omega), put8_same]
  have hhigh : put16 b i v (i + 1) = UInt8.ofNat (v / 256) := put8_same ..
  rw [word, hlow, hhigh, swap, UInt8.toNat_ofNat', UInt8.toNat_ofNat']
  omega

theorem swap_pair (a : Nat) {b : Nat} (hb : b < 256) : swap (a * 256 + b) = b * 256 + a := by
  rw [swap]
  omega

theorem swap_bswap16 (hv : v < 65536) : bswap16 v < 65536 ∧ swap (bswap16 v) = v := by
  rw [bswap16, swap_pair _ (Nat.mod_lt _ (by decide))]
  omega

theorem word_congr {b' : Buf} (h : b' i = b i) (h' : b' (i + 1) = b (i + 1)) :
    word b' i = word b i := by
  rw [word, word, h, h']

theorem word_put8_other (b : Buf) (v : UInt8) (h : j ≠ i ∧ j + 1 ≠ i) :
    word (put8 b i v) j = word b j :=
  word_congr (put8_other _ _ h.1) (put8_other _ _ h.2)

theorem word_put16_other (b : Buf) (v : Nat) (h : j + 2 ≤ i ∨ i + 2 ≤ j) :
    word (put16 b i v) j = word b j :=
  word_congr (put16_other _ _ (by omega)) (put16_other _ _ (by omega))

theorem word_put32_other (b : Buf) (v : Nat) (h : j + 2 ≤ i ∨ i + 4 ≤ j) :
    word (put32 b i v) j = word b j :=
  word_congr (put32_other _ _ (by omega)) (put32_other _ _ (by omega))

theorem word_memcpy_other (b : Buf) (src : Buf) (h : j + 2 ≤ i ∨ i + n ≤ j) :
    word (memcpy b i src n) j = word b j :=
  word_congr (memcpy_other _ _ (by omega)) (memcpy_other _ _ (by omega))

/-- A sum with one word singled out. -/
theorem wordSum_at (b : Buf) (i : Nat) {k len : Nat} (h : 2 * k + 2 ≤ len) :
    wordSum b i len = wordSum b i (2 * k) + (word b (i + 2 * k) +
      wordSum b (i + 2 * k + 2) (len - 2 * k - 2)) := by
  obtain ⟨n, rfl⟩ : ∃ n, len = 2 * k + (n + 2) := ⟨len - 2 * k - 2, by omega⟩
  rw [wordSum_split, wordSum, show 2 * k + (n + 2) - 2 * k - 2 = n by omega]

/-- **A range that gets its own checksum stored into a zero field.** -/
theorem checksum_put16 (b : Buf) (i : Nat) {k len : Nat} (hk : 2 * k + 2 ≤ len) (hlen : len < 65536)
    (hzero : word b (i + 2 * k) = 0) :
    checksum (put16 b (i + 2 * k) (checksum b i len)) i len = 0 ↔ wordSum b i len % 257 = 0 := by
  have hc : checksum b i len < 65536 := Nat.mod_lt _ (by decide)
  have hsum : wordSum (put16 b (i + 2 * k) (checksum b i len)) i len =
      wordSum b i len + swap (checksum b i len) := by
    rw [wordSum_at _ i hk, wordSum_at b i hk, word_put16 b _ hc, hzero,
      wordSum_congr (b := b) fun j hj hjn => put16_other _ _ (by omega),
      wordSum_congr (b := b) fun j hj hjn => put16_other _ _ (by omega)]
    omega
  rw [checksum_eq _ i hlen, hsum, checksum_eq b i hlen]
  exact swapped_complement (by decide) (wordSum_lt b i hlen)

/-! ## The Internet checksum -/

/-- A word stored most significant byte first. -/
def putWord (b : Buf) (i w : Nat) : Buf :=
  put8 (put8 b i (UInt8.ofNat (w / 256))) (i + 1) (UInt8.ofNat w)

theorem word_putWord (b : Buf) (i : Nat) {w : Nat} (hw : w < 65536) :
    word (putWord b i w) i = w := by
  rw [word, putWord, put8_same, put8_other _ _ (by omega), put8_same, UInt8.toNat_ofNat',
    UInt8.toNat_ofNat']
  omega

/-- Another word in place of a zero. -/
theorem wordSum_putWord (b : Buf) (i : Nat) {k len w : Nat} (hk : 2 * k + 2 ≤ len)
    (hw : w < 65536) :
    wordSum (putWord (putWord b (i + 2 * k) 0) (i + 2 * k) w) i len =
      wordSum (putWord b (i + 2 * k) 0) i len + w := by
  have hother : ∀ {j : Nat} (b : Buf) (w : Nat), j < i + 2 * k ∨ i + 2 * k + 2 ≤ j →
      putWord b (i + 2 * k) w j = b j := by
    intro j b w hj
    rw [putWord, put8_other _ _ (by omega), put8_other _ _ (by omega)]
  rw [wordSum_at _ i hk, wordSum_at (putWord b _ 0) i hk, word_putWord _ _ hw,
    word_putWord _ _ (by decide),
    wordSum_congr (b := putWord b (i + 2 * k) 0) fun j hj hjn => hother _ w (by omega),
    wordSum_congr (b := putWord b (i + 2 * k) 0) fun j hj hjn => hother _ w (by omega)]
  omega

/-- **`checksum` is the Internet checksum.** -/
theorem checksum_internet (b : Buf) (i len : Nat) (hlen : len ≤ 65535) :
    checksum b i len = 65535 - onesSum b i len ∧
    (sumFrom b i len 0 = wordSum b i len ∧ wordSum b i len < 2 ^ 32) ∧
    fold foldRounds (sumFrom b i len 0) / 65536 = 0 ∧
    ∀ k, 2 * k + 2 ≤ len → checksum (putWord (putWord b (i + 2 * k) 0) (i + 2 * k)
      (checksum (putWord b (i + 2 * k) 0) i len)) i len = 0 := by
  have hlt := @wordSum_lt b i len (by omega)
  have hsum := sumFrom_eq b i len 0 (by omega)
  rw [Nat.zero_add] at hsum
  have hfold := fold_lt (n := foldRounds) (by decide) (show wordSum b i len < 2 ^ 32 by omega)
  refine ⟨?_, ⟨hsum, by omega⟩, ?_, fun k hk => ?_⟩
  · rw [checksum_eq b i (by omega), complement, fold_wordSum (by decide) b i len (by omega)]
  · rw [hsum]
    omega
  · have hc : checksum (putWord b (i + 2 * k) 0) i len < 65536 := Nat.mod_lt _ (by decide)
    rw [checksum_eq _ i (by omega), wordSum_putWord b i hk hc, checksum_eq _ i (by omega)]
    exact complement_added (by decide) (wordSum_lt _ i (by omega))

/-- Three bytes. -/
theorem checksum_internet_three :
    checksum (fun i => UInt8.ofNat i) 0 3 = 65535 - onesSum (fun i => UInt8.ofNat i) 0 3 :=
  (checksum_internet _ 0 3 (by decide)).1

/-! ## The header of the frames the stack starts -/

/-- The words of the address. -/
def addressSum (ip : UInt32) : Nat := ip.toNat / 65536 + ip.toNat % 65536

/-- The sum of the header words of an IP packet of `ipLen` bytes, without the
    checksum. -/
def headerSum (ipLen : Nat) (proto : UInt8) (ip : UInt32) : Nat :=
  0x4500 + ipLen + (0x4000 + proto.toNat) + addressSum (UInt32.ofNat localIp) + addressSum ip

theorem word_put32 (b : Buf) (i : Nat) (hv : v < 2 ^ 32) :
    word (put32 b i v) i = swap (v % 65536) ∧ word (put32 b i v) (i + 2) = swap (v / 65536) := by
  have hlow : put16 b i v = put16 b i (v % 65536) := by
    funext j
    have h1 : UInt8.ofNat v = UInt8.ofNat (v % 65536) := UInt8.toNat_inj.mp (by
      rw [UInt8.toNat_ofNat', UInt8.toNat_ofNat']; omega)
    have h2 : UInt8.ofNat (v / 256) = UInt8.ofNat (v % 65536 / 256) := UInt8.toNat_inj.mp (by
      rw [UInt8.toNat_ofNat', UInt8.toNat_ofNat']; omega)
    rw [put16, put16, h1, h2]
  refine ⟨?_, word_put16 _ _ (by omega)⟩
  rw [put32, word_put16_other _ _ (by omega), hlow]
  exact word_put16 _ _ (Nat.mod_lt _ (by decide))

theorem swap_bswap32 (hv : v < 2 ^ 32) : bswap32 v < 2 ^ 32 ∧
    swap (bswap32 v % 65536) = v / 65536 ∧ swap (bswap32 v / 65536) = v % 65536 := by
  have hlow : bswap32 v % 65536 = v / 2 ^ 16 % 256 * 256 + v / 2 ^ 24 % 256 := by
    rw [bswap32]
    omega
  have hhigh : bswap32 v / 65536 = v % 256 * 256 + v / 2 ^ 8 % 256 := by
    rw [bswap32]
    omega
  have hlt : bswap32 v < 2 ^ 32 := by
    rw [bswap32]
    omega
  refine ⟨hlt, ?_, ?_⟩
  · rw [hlow, swap_pair _ (Nat.mod_lt _ (by decide))]
    omega
  · rw [hhigh, swap_pair _ (Nat.mod_lt _ (by decide))]
    omega

section Header

variable (mac dst : Bytes) (ipLen : Nat) (proto : UInt8) (ip : UInt32)

/-- The bytes that are stored one by one, and those that stay zero. -/
theorem ipv4Fields_bytes (F : Buf) (hF : ipv4Fields mac dst ipLen proto ip = F) :
    F 14 = 0x45 ∧ F 15 = 0 ∧ F 18 = 0 ∧ F 19 = 0 ∧ F 20 = 0 ∧ F 21 = 0 ∧ F 22 = 64 ∧ F 23 = proto ∧
      F 24 = 0 ∧ F 25 = 0 := by
  simp (disch := decide) only [← hF, ipv4Fields, put32_other, put16_other, put8_other, put8_same,
    memcpy_other, and_self]

variable (hlen : ipLen < 65536)

include hlen

/-- The fields that are stored in network order. -/
theorem ipv4Fields_words :
    word (ipv4Fields mac dst ipLen proto ip) 16 = ipLen ∧
    word (ipv4Fields mac dst ipLen proto ip) 26 = localIp / 65536 ∧
    word (ipv4Fields mac dst ipLen proto ip) 28 = localIp % 65536 ∧
    word (ipv4Fields mac dst ipLen proto ip) 30 = ip.toNat / 65536 ∧
    word (ipv4Fields mac dst ipLen proto ip) 32 = ip.toNat % 65536 := by
  obtain ⟨hlt, hlow, hhigh⟩ := swap_bswap32 ip.toNat_lt
  obtain ⟨hlt', hlow', hhigh'⟩ := swap_bswap32 (show localIp < 2 ^ 32 by decide)
  rw [ipv4Fields]
  refine ⟨?_, ?_, ?_, ?_, ?_⟩
  · simp (disch := decide) only [word_put32_other, word_put8_other]
    rw [word_put16 _ _ (swap_bswap16 hlen).1, (swap_bswap16 hlen).2]
  · rw [word_put32_other _ _ (by decide), (word_put32 _ 26 hlt').1, hlow']
  · rw [word_put32_other _ _ (by decide), (word_put32 _ 26 hlt').2, hhigh']
  · rw [(word_put32 _ 30 hlt).1, hlow]
  · rw [(word_put32 _ 30 hlt).2, hhigh]

theorem wordSum_ipv4Fields :
    wordSum (ipv4Fields mac dst ipLen proto ip) 14 20 = headerSum ipLen proto ip := by
  obtain ⟨h16, h26, h28, h30, h32⟩ := ipv4Fields_words mac dst ipLen proto ip hlen
  generalize hF : ipv4Fields mac dst ipLen proto ip = F at *
  obtain ⟨b14, b15, b18, b19, b20, b21, b22, b23, b24, b25⟩ := ipv4Fields_bytes _ _ _ _ _ F hF
  have hsum : wordSum F 14 20 = word F 14 + (word F 16 + (word F 18 + (word F 20 + (word F 22 +
      (word F 24 + (word F 26 + (word F 28 + (word F 30 + (word F 32 + 0))))))))) := rfl
  rw [hsum, h16, h26, h28, h30, h32, headerSum, addressSum, addressSum]
  simp only [word, b14, b15, b18, b19, b20, b21, b22, b23, b24, b25, UInt8.reduceToNat, localIp,
    UInt32.toNat_ofNat']
  omega

/-- The header passes the check if its words sum to a multiple of 257. -/
theorem checksum_ipv4Header :
    checksum (ipv4Header mac dst ipLen proto ip) 14 20 = 0 ↔
      headerSum ipLen proto ip % 257 = 0 := by
  have hzero : word (ipv4Fields mac dst ipLen proto ip) (14 + 2 * 5) = 0 := by
    obtain ⟨_, _, _, _, _, _, _, _, b24, b25⟩ := ipv4Fields_bytes mac dst ipLen proto ip _ rfl
    rw [word, b24, b25]
    rfl
  have hc := checksum_put16 (ipv4Fields mac dst ipLen proto ip) 14 (show 2 * 5 + 2 ≤ 20 by decide)
    (by decide) hzero
  rw [← wordSum_ipv4Fields mac dst ipLen proto ip hlen, ipv4Header, ← hc]

end Header

/-! ## The receiver -/

/-- The frame passes the checks of `checksum`, and a receiver with its destination
    address, in whose buffer it starts, does not count it as a checksum error. -/
def Passes (b : Buf) (len : Nat) : Prop :=
  checksum b 14 (headerLen b) = 0 ∧
  (b 23 = 1 → checksum b (14 + headerLen b) (totalLen b - headerLen b) = 0) ∧
  ∀ frame len', (∀ i, i < len → frame i = b i) →
    handleIpv4 (bswap32 (get32 b 30)) frame len' ≠ .checksumError

theorem totalLen_lt (b : Buf) : totalLen b < 65536 := by
  rw [totalLen, bswap16]
  omega

theorem headerLen_lt (b : Buf) : headerLen b < 65536 := by
  rw [headerLen]
  omega

theorem else_of_ne {α : Type} {c : Prop} [Decidable c] {x y z : α} (h : (if c then x else y) = z)
    (hx : x ≠ z) : ¬ c ∧ y = z := by
  by_cases hc : c
  · rw [if_pos hc] at h
    exact absurd h hx
  · rw [if_neg hc] at h
    exact ⟨hc, h⟩

variable {len : Nat}

/-- Why a frame is counted as a checksum error. -/
theorem handleIpv4_checksumError {address : Nat} {frame : Buf}
    (h : handleIpv4 address frame len = .checksumError) :
    checksum frame 14 (headerLen frame) ≠ 0 ∨ (frame 23 = 1 ∧
      checksum frame (14 + headerLen frame) (totalLen frame - headerLen frame) ≠ 0) := by
  rw [handleIpv4] at h
  obtain ⟨_, h⟩ := else_of_ne h nofun
  obtain ⟨_, h⟩ := else_of_ne h nofun
  obtain ⟨_, h⟩ := else_of_ne h nofun
  obtain ⟨_, h⟩ := else_of_ne h nofun
  by_cases hip : checksum frame 14 (headerLen frame) ≠ 0
  · exact .inl hip
  rw [if_neg hip] at h
  obtain ⟨_, h⟩ := else_of_ne h nofun
  by_cases h1 : frame 23 = 1
  · rw [if_pos h1] at h
    obtain ⟨_, h⟩ := else_of_ne h nofun
    by_cases hicmp : checksum frame (14 + headerLen frame) (totalLen frame - headerLen frame) ≠ 0
    · exact .inr ⟨h1, hicmp⟩
    rw [if_neg hicmp] at h
    obtain ⟨_, h⟩ := else_of_ne h nofun
    obtain ⟨_, h⟩ := else_of_ne h nofun
    cases h
  · rw [if_neg h1] at h
    by_cases h17 : frame 23 = 17
    · rw [if_pos h17] at h
      obtain ⟨_, h⟩ := else_of_ne h nofun
      cases h
    · cases (if_neg h17).symm.trans h

/-- What a frame has passed that is answered. -/
structure EchoRequest (address : Nat) (frame : Buf) (len : Nat) : Prop where
  ihl : 20 ≤ headerLen frame
  room : 14 + totalLen frame ≤ len
  message : headerLen frame + 8 ≤ totalLen frame
  header : checksum frame 14 (headerLen frame) = 0
  address : bswap32 (get32 frame 30) = address
  icmp : frame 23 = 1
  body : checksum frame (14 + headerLen frame) (totalLen frame - headerLen frame) = 0
  type : frame (14 + headerLen frame) = 8

theorem EchoRequest.of_handleIpv4 {address : Nat} {frame : Buf}
    (h : handleIpv4 address frame len = .echoRequest) : EchoRequest address frame len := by
  rw [handleIpv4] at h
  obtain ⟨_, h⟩ := else_of_ne h nofun
  obtain ⟨hihl, h⟩ := else_of_ne h nofun
  obtain ⟨_, h⟩ := else_of_ne h nofun
  obtain ⟨hroom, h⟩ := else_of_ne h nofun
  obtain ⟨hip, h⟩ := else_of_ne h nofun
  obtain ⟨haddr, h⟩ := else_of_ne h nofun
  by_cases h1 : frame 23 = 1
  · rw [if_pos h1] at h
    obtain ⟨hmsg, h⟩ := else_of_ne h nofun
    obtain ⟨hbody, h⟩ := else_of_ne h nofun
    by_cases h8 : frame (14 + headerLen frame) = 8
    · exact ⟨by omega, by omega, by omega, not_not.mp hip, not_not.mp haddr, h1,
        not_not.mp hbody, h8⟩
    · rw [if_neg h8] at h
      obtain ⟨_, h⟩ := else_of_ne h nofun
      cases h
  · rw [if_neg h1] at h
    by_cases h17 : frame 23 = 17
    · rw [if_pos h17] at h
      obtain ⟨_, h⟩ := else_of_ne h nofun
      cases h
    · cases (if_neg h17).symm.trans h

/-- The receiver computes the same two checksums. -/
theorem passes_iff (h34 : 34 ≤ len) (htotal : 14 + totalLen b ≤ len)
    (hihl : headerLen b ≤ totalLen b) : Passes b len ↔ checksum b 14 (headerLen b) = 0 ∧
      (b 23 = 1 → checksum b (14 + headerLen b) (totalLen b - headerLen b) = 0) := by
  refine ⟨fun h => ⟨h.1, h.2.1⟩, fun ⟨hip, hicmp⟩ => ⟨hip, hicmp, fun frame len' hframe hrej => ?_⟩⟩
  have hh : headerLen frame = headerLen b := by rw [headerLen, headerLen, hframe 14 (by omega)]
  have ht : totalLen frame = totalLen b := by
    rw [totalLen, totalLen, get16, get16, hframe 16 (by omega), hframe (16 + 1) (by omega)]
  have hipc : checksum frame 14 (headerLen b) = 0 := by
    rw [checksum_congr (headerLen_lt b) fun j _ hj => hframe j (by omega)]
    exact hip
  have hicmpc : frame 23 = 1 →
      checksum frame (14 + headerLen b) (totalLen b - headerLen b) = 0 := by
    rw [hframe 23 (by omega), checksum_congr (by have := totalLen_lt b; omega)
      fun j _ hj => hframe j (by omega)]
    exact hicmp
  have herr := handleIpv4_checksumError hrej
  rw [hh, ht] at herr
  rcases herr with hc | ⟨h1, hc⟩
  · exact hc hipc
  · exact hc (hicmpc h1)

/-- A field read in network order is its word. -/
theorem bswap16_get16 (b : Buf) (i : Nat) : bswap16 (get16 b i) = word b i := by
  have h := (b i).toNat_lt
  have h' := (b (i + 1)).toNat_lt
  rw [bswap16, get16, word]
  omega

/-! ## UDP packets and echo requests -/

/-- A frame behind a header that the stack wrote. -/
theorem passes_iff_of_header (mac dst : Bytes) {ipLen : Nat} (proto : UInt8) (ip : UInt32)
    (hb : ∀ j, j < 34 → b j = ipv4Header mac dst ipLen proto ip j) (hmin : 20 ≤ ipLen)
    (hmax : ipLen < 65536) : Passes b (14 + ipLen) ↔ headerSum ipLen proto ip % 257 = 0 ∧
      (proto = 1 → checksum b 34 (ipLen - 20) = 0) := by
  have hfield : ∀ j, j < 34 → (j < 24 ∨ 26 ≤ j) → b j = ipv4Fields mac dst ipLen proto ip j :=
    fun j hj hne => (hb j hj).trans (put16_other _ _ (by omega))
  obtain ⟨b14, _, _, _, _, _, _, b23, _⟩ := ipv4Fields_bytes mac dst ipLen proto ip _ rfl
  have hh : headerLen b = 20 := by
    rw [headerLen, hfield 14 (by decide) (by decide), b14]
    rfl
  have ht : totalLen b = ipLen := by
    rw [totalLen, bswap16_get16, word_congr (hfield 16 (by decide) (by decide))
      (hfield (16 + 1) (by decide) (by decide))]
    exact (ipv4Fields_words mac dst ipLen proto ip hmax).1
  rw [passes_iff (by omega) (by omega) (by omega), hh, ht,
    checksum_congr (by decide) fun j _ hj => hb j (by omega),
    checksum_ipv4Header mac dst ipLen proto ip hmax, hfield 23 (by decide) (by decide), b23]

theorem netSendUdp_passes_iff {s : Status} {arp : Option Bytes} {ip : UInt32} {port : UInt16}
    {data : Bytes} (h : netSendUdp s arp ip port data len = some (b, n)) :
    Passes b n ↔ headerSum (28 + len) 17 ip % 257 = 0 := by
  rw [netSendUdp] at h
  obtain ⟨hno, h⟩ := else_of_ne h nofun
  obtain ⟨dst, _, h⟩ := Option.map_eq_some_iff.mp h
  have hlen : (20 + (8 + len) % 2 ^ 16) % 2 ^ 16 = 28 + len := by omega
  simp only [hlen] at h
  cases h
  rw [passes_iff_of_header s.mac dst 17 ip ?_ (by omega) (by omega)]
  · exact ⟨fun hp => hp.1, fun hp => ⟨hp, fun hc => absurd hc (by decide)⟩⟩
  · intro j hj
    simp (disch := omega) only [memcpy_other, put16_other]

/-- The sum of the words of an echo request, without the checksum. -/
def pingSum (seq : UInt16) : Nat := 0x0800 + 1 + seq.toNat + wordSum pingText 0 16

theorem ipv4Header_tail (mac dst : Bytes) (ipLen : Nat) (proto : UInt8) (ip : UInt32)
    (hj : 34 ≤ j) :
    ipv4Header mac dst ipLen proto ip j = 0 := by
  simp (disch := omega) only [ipv4Header, ipv4Fields, put32_other, put16_other, put8_other,
    memcpy_other]

theorem netPingIpv4_passes_iff {s : Status} {arp : Option Bytes} {ip : UInt32}
    (h : netPingIpv4 s arp ip = some (b, n)) :
    Passes b n ↔ headerSum 44 1 ip % 257 = 0 ∧ pingSum s.nextSeq % 257 = 0 := by
  rw [netPingIpv4] at h
  obtain ⟨_, h⟩ := else_of_ne h nofun
  obtain ⟨dst, _, h⟩ := Option.map_eq_some_iff.mp h
  cases h
  generalize hH : ipv4Header s.mac dst (20 + 8 + 16) 1 ip = H
  have htail : ∀ j, 34 ≤ j → H j = 0 := fun j hj => hH ▸ ipv4Header_tail _ _ _ _ _ hj
  -- the message without its checksum
  generalize hp : memcpy (put16 (put16 (put8 H 34 8) 38 (bswap16 1)) 40
    (bswap16 s.nextSeq.toNat)) 42 pingText 16 = p
  have hlow : ∀ j, j < 34 → p j = H j := by
    intro j hj
    simp (disch := omega) only [← hp, memcpy_other, put16_other, put8_other]
  have h34 : word p 34 = 0x0800 := by
    simp (disch := decide) only [← hp, word_memcpy_other, word_put16_other]
    rw [word, put8_same, put8_other _ _ (by decide), htail _ (by decide)]
    rfl
  have h36 : word p 36 = 0 := by
    simp (disch := decide) only [← hp, word_memcpy_other, word_put16_other, word_put8_other]
    rw [word, htail 36 (by decide), htail (36 + 1) (by decide)]
    rfl
  have h38 : word p 38 = 1 := by
    rw [← hp, word_memcpy_other _ _ (by decide), word_put16_other _ _ (by decide),
      word_put16 _ _ (by decide)]
    rfl
  have h40 : word p 40 = s.nextSeq.toNat := by
    have hseq := swap_bswap16 s.nextSeq.toNat_lt
    rw [← hp, word_memcpy_other _ _ (by decide), word_put16 _ _ hseq.1, hseq.2]
  have htext : wordSum p 42 16 = wordSum pingText 0 16 := by
    refine wordSum_shift fun j hj => ?_
    rw [← hp, memcpy_inside _ _ (by omega) (by omega)]
    congr 1
    omega
  have hsum : wordSum p 34 24 = pingSum s.nextSeq := by
    rw [show wordSum p 34 24 = word p 34 + (word p 36 + (word p 38 + (word p 40 + wordSum p 42 16)))
      from rfl, h34, h36, h38, h40, htext, pingSum]
    omega
  have hcheck := checksum_put16 p 34 (show 2 * 1 + 2 ≤ 8 + 16 by decide) (by decide) h36
  rw [show 34 + 2 * 1 = 36 from rfl, hsum] at hcheck
  rw [show 14 + 20 + 8 + 16 = 14 + 44 from rfl, passes_iff_of_header s.mac dst 1 ip ?_
    (by decide) (by decide), show 44 - 20 = 8 + 16 from rfl, hcheck]
  · exact and_congr Iff.rfl ⟨fun hp => hp rfl, fun hp _ => hp⟩
  · intro j hj
    rw [put16_other _ _ (by omega), hlow j hj, ← hH]

/-! ## Echo replies -/

theorem bswap32_get32 (b : Buf) (i : Nat) :
    bswap32 (get32 b i) = word b i * 65536 + word b (i + 2) := by
  have h0 := (b i).toNat_lt
  have h1 := (b (i + 1)).toNat_lt
  have h2 := (b (i + 2)).toNat_lt
  have h3 := (b (i + 2 + 1)).toNat_lt
  rw [bswap32, get32, get16, get16, word, word]
  omega

section Reply

variable (mac stack : Bytes) {frame : Bytes} {len : Nat} (h : EchoRequest localIp frame len)

include h

omit h in
/-- The request's bytes outside the addresses and the checksum are kept. -/
theorem replyHeader_other (h14 : 14 ≤ j) (hj : j < 14 + totalLen frame) (hne : j < 24 ∨ 34 ≤ j) :
    replyHeader mac stack frame (totalLen frame) j = frame j := by
  simp (disch := omega) only [replyHeader, put16_other, put32_other, memcpy_other, memcpy_inside,
    Nat.sub_zero]

/-- The addresses trade places. -/
theorem replyHeader_words : word (replyHeader mac stack frame (totalLen frame)) 24 = 0 ∧
    word (replyHeader mac stack frame (totalLen frame)) 26 = localIp / 65536 ∧
    word (replyHeader mac stack frame (totalLen frame)) 28 = localIp % 65536 ∧
    word (replyHeader mac stack frame (totalLen frame)) 30 = word frame 26 ∧
    word (replyHeader mac stack frame (totalLen frame)) 32 = word frame 28 := by
  have hihl := h.ihl
  have hmsg := h.message
  -- the copy, in which the source address is still the sender's
  have hcopy : ∀ j, 26 ≤ j → j < 30 → memcpy (memcpy (memcpy stack 0 frame (totalLen frame + 14)) 0
      (fun i => frame (6 + i)) 6) 6 mac 6 j = frame j := by
    intro j hj hj'
    simp (disch := omega) only [memcpy_other, memcpy_inside, Nat.sub_zero]
  rw [replyHeader]
  generalize memcpy (memcpy (memcpy stack 0 frame (totalLen frame + 14)) 0
      (fun i => frame (6 + i)) 6) 6 mac 6 = r at *
  have hsrc : bswap32 (get32 r 26) = word frame 26 * 65536 + word frame 28 := by
    rw [bswap32_get32, word_congr (hcopy 26 (by decide) (by decide))
      (hcopy (26 + 1) (by decide) (by decide)), word_congr (hcopy (26 + 2) (by decide) (by decide))
      (hcopy (26 + 2 + 1) (by decide) (by decide))]
  have h26 := word_lt frame 26
  have h28 := word_lt frame 28
  obtain ⟨hlt, hlow, hhigh⟩ := swap_bswap32 (v := bswap32 (get32 r 26)) (by rw [hsrc]; omega)
  obtain ⟨hlt', hlow', hhigh'⟩ := swap_bswap32 (show localIp < 2 ^ 32 by decide)
  refine ⟨?_, ?_, ?_, ?_, ?_⟩
  · exact word_put16 _ _ (by decide)
  · rw [word_put16_other _ _ (by decide), word_put32_other _ _ (by decide),
      (word_put32 _ 26 hlt').1, hlow']
  · rw [word_put16_other _ _ (by decide), word_put32_other _ _ (by decide),
      (word_put32 _ 26 hlt').2, hhigh']
  · rw [word_put16_other _ _ (by decide), (word_put32 _ 30 hlt).1, hlow, hsrc]
    omega
  · rw [word_put16_other _ _ (by decide), (word_put32 _ 30 hlt).2, hhigh, hsrc]
    omega

omit h in
theorem wordSum_twenty (b : Buf) (hn : 20 ≤ n) : wordSum b 14 n = word b 14 + (word b 16 +
    (word b 18 + (word b 20 + (word b 22 + (word b 24 + (word b 26 + (word b 28 + (word b 30 +
      (word b 32 + wordSum b 34 (n - 20)))))))))) := by
  obtain ⟨m, rfl⟩ : ∃ m, n = m + 20 := ⟨n - 20, by omega⟩
  rw [Nat.add_sub_cancel]
  rfl

/-- The header of the reply sums to that of the request without its checksum. -/
theorem wordSum_replyHeader :
    wordSum (replyHeader mac stack frame (totalLen frame)) 14 (headerLen frame) + word frame 24 =
      wordSum frame 14 (headerLen frame) := by
  have hihl := h.ihl
  have hmsg := h.message
  have haddr : word frame 30 * 65536 + word frame 32 = localIp :=
    (bswap32_get32 frame 30).symm.trans h.address
  have h32 := word_lt frame 32
  obtain ⟨h24', h26', h28', h30', h32'⟩ := replyHeader_words mac stack h
  have hsame : ∀ j, 14 ≤ j → j + 1 < 24 →
      word (replyHeader mac stack frame (totalLen frame)) j = word frame j := fun j h14 hj =>
    word_congr (replyHeader_other mac stack h14 (by omega) (by omega))
      (replyHeader_other mac stack (by omega) (by omega) (by omega))
  have htail : wordSum (replyHeader mac stack frame (totalLen frame)) 34 (headerLen frame - 20) =
      wordSum frame 34 (headerLen frame - 20) :=
    wordSum_congr fun j h34 hj => replyHeader_other mac stack (by omega) (by omega) (by omega)
  rw [wordSum_twenty _ hihl, wordSum_twenty frame hihl, htail, h24', h26', h28', h30', h32',
    hsame 14 (by decide) (by decide), hsame 16 (by decide) (by decide),
    hsame 18 (by decide) (by decide), hsame 20 (by decide) (by decide),
    hsame 22 (by decide) (by decide), show localIp / 65536 = word frame 30 by omega,
    show localIp % 65536 = word frame 32 by omega]
  omega

/-- The message of the reply sums to that of the request without its checksum and its
    type. -/
theorem wordSum_replyMessage {r : Buf}
    (hr : ∀ j, 14 + headerLen frame ≤ j → j < 14 + totalLen frame → r j = frame j) :
    wordSum (replyMessage r (14 + headerLen frame)) (14 + headerLen frame)
      (totalLen frame - headerLen frame) + (0x0800 + word frame (14 + headerLen frame + 2)) =
      wordSum frame (14 + headerLen frame) (totalLen frame - headerLen frame) := by
  have hmsg := h.message
  generalize hi : 14 + headerLen frame = i at *
  obtain ⟨n, hn⟩ : ∃ n, totalLen frame - headerLen frame = n + 2 + 2 :=
    ⟨totalLen frame - headerLen frame - 4, by omega⟩
  have h0 : replyMessage r i i = 0 := by
    simp (disch := omega) only [replyMessage, put8_other, put8_same]
  have h1 : replyMessage r i (i + 1) = frame (i + 1) := by
    simp (disch := omega) only [replyMessage, put8_other, hr]
  have h2 : replyMessage r i (i + 2) = 0 := by
    simp (disch := omega) only [replyMessage, put8_other, put8_same]
  have h3 : replyMessage r i (i + 2 + 1) = 0 := put8_same ..
  have htail : wordSum (replyMessage r i) (i + 2 + 2) n = wordSum frame (i + 2 + 2) n := by
    refine wordSum_congr fun j hj hjn => ?_
    simp (disch := omega) only [replyMessage, put8_other, hr]
  have htype : frame i = 8 := hi ▸ h.type
  rw [hn, wordSum, wordSum, wordSum, wordSum, htail, word, word, word, word, h0, h1, h2, h3, htype]
  simp only [UInt8.reduceToNat]
  omega

theorem sendIcmpEchoReply_passes_iff (hs : sendIcmpEchoReply mac stack frame len = some (b, n)) :
    Passes b n ↔ word frame 24 % 257 = 0 ∧
      (0x0800 + word frame (14 + headerLen frame + 2)) % 257 = 0 := by
  have hihl := h.ihl
  have hmsg := h.message
  have htl := totalLen_lt frame
  rw [sendIcmpEchoReply] at hs
  obtain ⟨_, hs⟩ := else_of_ne hs nofun
  obtain ⟨_, hs⟩ := else_of_ne hs nofun
  rw [show bswap16 (get16 frame 16) = totalLen frame from rfl] at hs
  have hsum := wordSum_replyHeader mac stack h
  have h24 := (replyHeader_words mac stack h).1
  have hkept : ∀ j, 14 ≤ j → j < 14 + totalLen frame → (j < 24 ∨ 34 ≤ j) →
      replyHeader mac stack frame (totalLen frame) j = frame j :=
    fun j h14 hj hne => replyHeader_other mac stack h14 hj hne
  generalize replyHeader mac stack frame (totalLen frame) = R at *
  have hR : headerLen R = headerLen frame := by
    rw [headerLen, headerLen, hkept 14 (by decide) (by omega) (by decide)]
  have hlen : u32 (totalLen frame + (2 ^ 32 - headerLen frame)) =
      totalLen frame - headerLen frame := by
    rw [u32]
    omega
  simp only [hR, hlen] at hs
  cases hs
  -- the header with its checksum, then the message with its own
  have hhead := checksum_put16 R 14 (show 2 * 5 + 2 ≤ headerLen frame by omega)
    (headerLen_lt frame) h24
  rw [show 14 + 2 * 5 = 24 from rfl] at hhead
  generalize hR1 : put16 R 24 (checksum R 14 (headerLen frame)) = R1 at *
  have hkept1 : ∀ j, 14 ≤ j → j < 14 + totalLen frame → (j < 24 ∨ 34 ≤ j) → R1 j = frame j := by
    intro j h14 hj hne
    rw [← hR1, put16_other _ _ (by omega), hkept j h14 hj hne]
  have hbody := wordSum_replyMessage h (r := R1) fun j hj hjn => hkept1 j (by omega) hjn (by omega)
  have hzero :
      word (replyMessage R1 (14 + headerLen frame)) (14 + headerLen frame + 2 * 1) = 0 := by
    rw [word, replyMessage, put8_other _ _ (by omega), Nat.mul_one, put8_same,
      put8_same _ (14 + headerLen frame + 2 + 1)]
    rfl
  have hmsgc := checksum_put16 (replyMessage R1 (14 + headerLen frame)) (14 + headerLen frame)
    (show 2 * 1 + 2 ≤ totalLen frame - headerLen frame by omega) (by omega) hzero
  rw [Nat.mul_one] at hmsgc
  -- what is sent, outside the message
  generalize hb : put16 (replyMessage R1 (14 + headerLen frame)) (14 + headerLen frame + 2)
    (checksum (replyMessage R1 (14 + headerLen frame)) (14 + headerLen frame)
      (totalLen frame - headerLen frame)) = b at *
  have hfront : ∀ j, j < 14 + headerLen frame → b j = R1 j := by
    intro j hj
    simp (disch := omega) only [← hb, put16_other, replyMessage, put8_other]
  have hfield : ∀ j, 14 ≤ j → j < 24 → b j = frame j := fun j h14 hj =>
    (hfront j (by omega)).trans (hkept1 j h14 (by omega) (by omega))
  have hbh : headerLen b = headerLen frame := by
    rw [headerLen, headerLen, hfield 14 (by decide) (by decide)]
  have hbt : totalLen b = totalLen frame := by
    rw [totalLen, totalLen, get16, get16, hfield 16 (by decide) (by decide),
      hfield (16 + 1) (by decide) (by decide)]
  rw [passes_iff (by omega) (by omega) (by omega), hbh, hbt, hmsgc,
    checksum_congr (headerLen_lt frame) fun j _ hj => hfront j hj, hhead,
    hfield 23 (by decide) (by decide)]
  have hip := wordSum_of_checksum (headerLen_lt frame) h.header
  have hicmp := wordSum_of_checksum (by omega) h.body
  refine and_congr (by omega) ⟨fun hp => ?_, fun hp _ => ?_⟩
  · have := hp h.icmp
    omega
  · omega

end Reply

/-! ## The three kinds of frames -/

/-- The occasions on which the stack sends an IP packet. -/
inductive Occasion where
  | udp (s : Status) (arp : Option Bytes) (ip : UInt32) (port : UInt16) (data : Bytes) (len : Nat)
  | ping (s : Status) (arp : Option Bytes) (ip : UInt32)
  | reply (mac stack frame : Bytes) (len : Nat)

/-- What is passed to `net_send_packet`; only echo requests are answered. -/
def Occasion.sent : Occasion → Option (Buf × Nat)
  | .udp s arp ip port data len => netSendUdp s arp ip port data len
  | .ping s arp ip => netPingIpv4 s arp ip
  | .reply mac stack frame len =>
    if handleIpv4 localIp frame len = .echoRequest then sendIcmpEchoReply mac stack frame len
    else none

/-- The words under every checksum sum to a multiple of 257; for a reply this is said of
    the checksums of the request. -/
def Occasion.Balanced : Occasion → Prop
  | .udp _ _ ip _ _ len => headerSum (28 + len) 17 ip % 257 = 0
  | .ping s _ ip => headerSum 44 1 ip % 257 = 0 ∧ pingSum s.nextSeq % 257 = 0
  | .reply _ _ frame _ => word frame 24 % 257 = 0 ∧
      (0x0800 + word frame (14 + headerLen frame + 2)) % 257 = 0

/-- **Which frames pass**: the balanced ones, in which every checksum is a pair of equal
    bytes. -/
theorem sent_passes_iff (o : Occasion) {b : Buf} {n : Nat} (h : o.sent = some (b, n)) :
    Passes b n ↔ o.Balanced := by
  cases o with
  | udp s arp ip port data len => exact netSendUdp_passes_iff h
  | ping s arp ip => exact netPingIpv4_passes_iff h
  | reply mac stack frame len =>
    by_cases hreq : handleIpv4 localIp frame len = .echoRequest
    · refine sendIcmpEchoReply_passes_iff mac stack (EchoRequest.of_handleIpv4 hreq) ?_
      exact (if_pos hreq).symm.trans h
    · cases (if_neg hreq).symm.trans h

/-- The card of the emulator, before the first ping. -/
def emulated : Status := ⟨.ne2000, fun _ => 0x52, 0⟩

/-- An empty UDP packet and a ping to the gateway 10.0.2.2: the gateway, running the
    same code, counts both as checksum errors. -/
theorem gateway_rejects : (netSendUdp emulated (some fun _ => 0x52) 0x0A000202 7 (fun _ => 0) 0).map
      (fun f => handleIpv4 0x0A000202 f.1 f.2) = some .checksumError ∧
    (netPingIpv4 emulated (some fun _ => 0x52) 0x0A000202).map
      (fun f => handleIpv4 0x0A000202 f.1 f.2) = some .checksumError := by
  decide

/-- The same UDP packet to 10.0.2.97 passes. -/
theorem sent_passes_iff_lucky_host : ∃ b n,
    netSendUdp emulated (some fun _ => 0x52) 0x0A000261 7 (fun _ => 0) 0 = some (b, n) ∧
    Passes b n := by
  obtain ⟨⟨b, n⟩, h⟩ := Option.isSome_iff_exists.mp (show (netSendUdp emulated (some fun _ => 0x52)
    0x0A000261 7 (fun _ => 0) 0).isSome from rfl)
  have hsum : headerSum (28 + 0) 17 0x0A000261 % 257 = 0 := by decide
  exact ⟨b, n, h, (sent_passes_iff (.udp _ _ _ _ _ _) h).mpr hsum⟩

end NetChecks
