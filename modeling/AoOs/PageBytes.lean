import AoOs.Vmm

/-! # Bytes of pages

    Pages are tables of words; `memcpy` into one is followed word by word
    (`copyBytes`).  Here a page is read byte by byte: a copy changes the bytes it
    covers and no other, and a byte read through an address space is a byte of the
    page it is translated to. -/

namespace PageBytes

open Paging Vmm

/-- Byte `j` of a page. -/
def pageByte (x : Table) (j : Nat) : BitVec 8 :=
  (x (BitVec.ofNat 9 (j / 8)) >>> (8 * (j % 8))).setWidth 8

/-- The bits of a word put together from bytes. -/
theorem getLsbD_bytes (g : Nat → BitVec 8) (n t : Nat) :
    ((List.range n).foldl (fun acc b => acc ||| (g b).setWidth 64 <<< (8 * b)) 0#64).getLsbD t =
      (decide (t < 8 * n) && decide (t < 64) && (g (t / 8)).getLsbD (t % 8)) := by
  induction n with
  | zero => simp
  | succ n ih =>
    rw [List.range_succ, List.foldl_append, List.foldl_cons, List.foldl_nil, BitVec.getLsbD_or, ih]
    by_cases hlow : t < 8 * n
    · -- below the new byte
      simp [BitVec.getLsbD_shiftLeft, hlow, show t < 8 * (n + 1) by omega]
    · by_cases hin : t < 8 * (n + 1)
      · have hdiv : t / 8 = n := by omega
        have hmod : t - 8 * n = t % 8 := by omega
        have hsmall : t % 8 < 64 := by omega
        simp [BitVec.getLsbD_shiftLeft, hlow, hin, hdiv, hmod, hsmall]
      · -- above it
        have hnone : (g n).getLsbD (t - 8 * n) = false := BitVec.getLsbD_of_ge _ _ (by omega)
        simp [BitVec.getLsbD_shiftLeft, hlow, hin, BitVec.getLsbD_setWidth, hnone]

/-- Byte `b` of a patched word. -/
theorem patchWord_byte (w : Word) (i lo n : Nat) (src : Nat → BitVec 8) {b : Nat} (hb : b < 8) :
    (patchWord w i lo n src >>> (8 * b)).setWidth 8 =
      if lo ≤ 8 * i + b ∧ 8 * i + b < lo + n then src (8 * i + b - lo)
      else (w >>> (8 * b)).setWidth 8 := by
  apply BitVec.eq_of_getLsbD_eq
  intro c hc
  have hdiv : (8 * b + c) / 8 = b := by omega
  have hmod : (8 * b + c) % 8 = c := by omega
  rw [BitVec.getLsbD_setWidth, BitVec.getLsbD_ushiftRight, patchWord,
    getLsbD_bytes (fun b => if lo ≤ 8 * i + b ∧ 8 * i + b < lo + n then src (8 * i + b - lo)
      else (w >>> (8 * b)).setWidth 8), hdiv, hmod]
  simp [hc, show 8 * b + c < 64 by omega]

/-- **A copy within a page changes the bytes it covers.** -/
theorem pageByte_copyBytes (m : Mem) (a : Word) (n : Nat) (src : Nat → BitVec 8) {j : Nat}
    (hj : j < 4096) : pageByte (copyBytes m a n src (pageOf a)) j =
      if a.toNat % 4096 ≤ j ∧ j < a.toNat % 4096 + n then src (j - a.toNat % 4096)
      else pageByte (m (pageOf a)) j := by
  have hword : (BitVec.ofNat 9 (j / 8)).toNat = j / 8 := by
    rw [BitVec.toNat_ofNat]
    omega
  rw [pageByte, copyBytes, if_pos rfl, patchWord_byte _ _ _ _ _ (Nat.mod_lt j (by decide)), hword,
    Nat.div_add_mod]
  rfl

/-- The offset within a page does not depend on the page. -/
theorem toNat_page_add_mod {f : Word} (hf : IsPage f) (v : Word) :
    (f + (v &&& 0xFFF#64)).toNat % 4096 = v.toNat % 4096 := by
  have hfa := congrArg BitVec.toNat (show addrOf f = f from hf)
  rw [toNat_addrOf] at hfa
  rw [BitVec.toNat_add, toNat_offset]
  omega

/-- **A byte is read in the page its address is in.** -/
theorem loadByte_physical {m : Mem} {cr3 v f : Word} (hf : IsPage f)
    (h : vmmGetPhysicalIn m cr3 v = f + (v &&& 0xFFF#64)) :
    loadByte m cr3 v = pageByte (m f) (v.toNat % 4096) := by
  have hnum := toNat_page_add_mod hf v
  have hidx : (((f + (v &&& 0xFFF#64)) >>> 3 &&& 0x1FF#64).setWidth 9 : Index) =
      BitVec.ofNat 9 (v.toNat % 4096 / 8) := by
    apply BitVec.eq_of_toNat_eq
    rw [toNat_low9, BitVec.toNat_ofNat]
    omega
  rw [loadByte, h, pageOf_page_add hf v, hidx, pageByte]
  congr 3
  omega

end PageBytes
