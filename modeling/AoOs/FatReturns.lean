import AoOs.FatTermination
import AoOs.FatWellFormed

/-! # Every call returns — the loops of `fat.c` on a well-formed volume

    `free_entry_index` walks to the end of a chain, however long that takes.  On a
    well-formed volume every chain has an end. -/

namespace FatReturns

open BlockIO StepSystem LoopIO FatTypes FatDriver FatRead FatImage FatTree FatTermination
open FatGeometry FatFresh FatWellFormed
open BlockIO.BlockM (exec)

variable {v : Vol} {d : Disk}

/-- The walk along a chain meets its end mark. -/
theorem not_endless (hv : Numbered v) {c : Nat} {l : List Nat}
    (hl : (image v d).Chain v c l) : ¬ Endless (fun _ => true) v d c := by
  have hval {c : Nat} (hc : validDataCluster v c) : fatVal _ v d c = (image v d).val c :=
    congrArg Prod.fst (hv.exec_fatGet d hc)
  intro hend
  induction hl with
  | last hc hs => exact hend 0 (.inl (by rwa [walk, walk, hval hc]))
  | link hc hs h ih =>
    refine ih fun k => ?_
    rw [← hval hc, walk_shift]
    exact hend (k + 1)

theorem not_stuck (h : Inv (v, d)) (call : Call) : ¬ Stuck (fun _ => true) v d call := by
  have hv : Numbered v := h.wellFormed.numbered
  have hscan : ¬ ScanEndless (fun _ => true) v d := by
    rintro ⟨hfixed, -, hend⟩
    obtain ⟨A, hA⟩ := h.wellFormed.sound.located hv.geometry h.current
    cases A with
    | fixed => exact hfixed hA
    | chain l => exact not_endless hv (dirHandle_eq hfixed ▸ hA.2) hend
  cases call with
  | create name data => exact fun hs => hscan hs.2.2
  | mkdir name => exact fun hs => hscan hs.2.2
  | _ => exact id

/-- **THE DRIVER DOES NOT HANG**: after any run of successful calls with visible names from a
    well-formed volume, every call returns, with the result and the disk of the model whose
    loops are bounded. -/
theorem run_returns (hw : WellFormed v d) (hshort : Short v (image v d))
    (hcur : IsDir v (image v d) v.currentCluster) {calls : List Call} {s : Vol × Disk}
    (hrun : Steps volStep (fun s call => Returns s call ∧ Sane call) (v, d) calls s)
    (call : Call) : Agrees (fun _ => true) (loops s.1 call) (call.program s.1) s.2 := by
  have hi : Inv s := hrun.invariant (fun _ _ _ hi hc hs => Inv.step hi hc hs) ⟨hw, hshort, hcur⟩
  exact call_agrees hi.wellFormed.numbered.mounted call (not_stuck hi call)

/-- In a new directory of a fresh volume. -/
theorem run_returns_fresh :
    ∃ s, Steps volStep (fun s call => Returns s call ∧ Sane call) (freshVol, freshDisk)
        [.mkdir letterA, .chdir letterA] s ∧ s.1.currentCluster = 2 ∧
      Agrees (fun _ => true) (loops s.1 (.create letterA [1])) (fatCreate s.1 letterA [1]) s.2 := by
  have hmade : (exec (fatMkdir freshVol letterA) freshDisk).1 := by decide +kernel
  have hin : (exec (fatChdir freshVol letterA)
      (exec (fatMkdir freshVol letterA) freshDisk).2).1.isSome := by decide +kernel
  have hrun : Steps volStep (fun s call => Returns s call ∧ Sane call) (freshVol, freshDisk)
      [.mkdir letterA, .chdir letterA] _ :=
    .cons rfl ⟨hmade, by rw [Sane, Visible]; decide⟩
      (.cons rfl ⟨Option.isSome_iff_ne_none.mp hin, trivial⟩ (.nil _))
  exact ⟨_, hrun, by decide +kernel, run_returns freshDisk_wellFormed
    freshVol_flat.short_freshVol (freshVol_current freshDisk) hrun (.create letterA [1])⟩

end FatReturns
