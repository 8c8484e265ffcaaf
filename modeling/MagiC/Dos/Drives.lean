import MagiC.Cache.Run
import MagiC.Dos.Kernel

/-!
# Going over All Drives

`Ssync` of `magidos.s`, and the loop it shares with `Sunmount` and `collect_IMB`.

Each of these routines walks through `dmdx` from drive A on. At the end of a turn the
number of the next drive is compared with the number of drives, and the loop goes on when
it is not below. So there is one turn, and only drive A is ever looked at
(`driveLoop_zero`). `Ssync` does what it is for when no other drive has to be
synchronised.

## Main definitions

* `Writes`: The driver writes all changed buffers of a drive.

## Theorems

* `ssync_iff`: Drives other than A must not be due.
-/

namespace MagiC

namespace Dos

open Cache

section

variable {M : Type → Type} [Monad M] {σ : Type}

/-- A loop over the drives from number `d` on. It goes on as long as the next number,
which goes round at `top`, is not below the number of drives. -/
def driveLoop (top : Nat) (body : Fin NUM_DRIVES → σ → M σ) (d : Nat) (s : σ) : M σ := do
  let s ← if h : d < NUM_DRIVES then body ⟨d, h⟩ s else pure s
  if NUM_DRIVES ≤ d + 1 ∧ d + 1 < top then driveLoop top body (d + 1) s else pure s
termination_by top - d

/-- The loop is left after drive A. -/
theorem driveLoop_zero [LawfulMonad M] (top : Nat) (body : Fin NUM_DRIVES → σ → M σ) (s : σ) :
    driveLoop top body 0 s = body 0 s := by
  have hn : ¬ (NUM_DRIVES ≤ 0 + 1 ∧ 0 + 1 < top) := by
    have h32 : NUM_DRIVES = 32 := rfl
    omega
  rw [driveLoop, dif_pos (Nat.zero_lt_succ 31)]
  simp only [if_neg hn, bind_pure]
  rfl

end

/-- What writing back goes by: the last access to each drive, or 0 when it is not in use
or just being accessed, the clock, and the process of the daemon. -/
structure Wback where
  buflTimer : Fin NUM_DRIVES → BitVec 32
  hz200 : BitVec 32
  buflWback : Option Slot

/-- The buffers, and the drives that `xfs_sync` has been called for. -/
structure Synced (α : Type) where
  buffers : Buffers α
  calls : List Nat

section

variable {α : Type} (k : Kernel) (w : Wback) (biosdev : Nat → BitVec 16)
  (xfsSync : Nat → Nat → Buffers α → Buffers α) (act : Slot)

/-- A turn of the loop of `Ssync`. A drive without a BIOS device is always synchronised,
and one with a BIOS device that has been accessed, unless the daemon calls and the access
was less than 200 ticks ago. -/
def syncDrive (d : Fin NUM_DRIVES) (s : Synced α) : Synced α :=
  match k.dmdx d with
  | none => s
  | some m =>
    let synced : Synced α := ⟨xfsSync (k.dmd m).xfs m s.buffers, s.calls ++ [m]⟩
    if (biosdev m).msb then synced
    else if w.buflTimer d = 0#32 then s
    else if some act ≠ w.buflWback then synced
    else if w.hz200 - w.buflTimer d < 200#32 then s
    else synced

def ssync (s : Synced α) : Synced α :=
  Id.run (driveLoop (2 ^ 16) (fun d s => pure (syncDrive k w biosdev xfsSync act d s)) 0 s)

/-- The drive that is to be synchronised in a place of the table. -/
def due (d : Fin NUM_DRIVES) : Option Nat :=
  (k.dmdx d).filter fun m => (biosdev m).msb || (decide (w.buflTimer d ≠ 0#32) &&
    !(decide (some act = w.buflWback) && decide (w.hz200 - w.buflTimer d < 200#32)))

/-- The number a drive has in the buffers. -/
def driveOf (m : Nat) : Int := ((k.dmd m).drive : Nat)

/-- Synchronising a drive leaves none of its buffers changed, in a state in which the
buffers are as they should be, and leaves them so. -/
def Writes (L : Layout) (Inv : Buffers α → Prop) (m : Nat) : Prop :=
  ∀ b, Inv b → Inv (xfsSync (k.dmd m).xfs m b) ∧
    ∀ n, ¬ Dirty L (xfsSync (k.dmd m).xfs m b).xb (driveOf k m) n

/-- Each drive that is due has been synchronised once, and when somebody else than the
daemon has called, no buffer of such a drive is changed any more. -/
structure Synchronised (L : Layout) (Inv : Buffers α → Prop) (s s' : Synced α) : Prop where
  once : s'.calls.Perm
    (s.calls ++ (List.finRange NUM_DRIVES).filterMap (due k w biosdev act))
  clean : Inv s.buffers → some act ≠ w.buflWback →
    (∀ d m, due k w biosdev act d = some m → Writes k xfsSync L Inv m) →
    ∀ d m, due k w biosdev act d = some m → ∀ n, ¬ Dirty L s'.buffers.xb (driveOf k m) n

/-- `dfs_fat_sync`, as the driver of a file system. -/
def fatSync (_ m : Nat) (b : Buffers α) : Buffers α := (dfsFatSync b (driveOf k m)).getD b

variable {k w biosdev xfsSync act} {d : Fin NUM_DRIVES} {m : Nat}

theorem syncDrive_due (s : Synced α) : syncDrive k w biosdev xfsSync act d s =
    match due k w biosdev act d with
    | none => s
    | some m => ⟨xfsSync (k.dmd m).xfs m s.buffers, s.calls ++ [m]⟩ := by
  unfold syncDrive due
  cases k.dmdx d with
  | none => rfl
  | some m =>
    simp only [Option.filter_some]
    by_cases hb : (biosdev m).msb = true
    · simp [hb]
    · by_cases ht : w.buflTimer d = 0#32
      · simp [hb, ht]
      · by_cases ha : some act = w.buflWback
        · by_cases hz : w.hz200 - w.buflTimer d < 200#32
          · simp [hb, ht, ha, hz]
          · simp [hb, ht, ha, hz]
        · simp [hb, ht, ha]

theorem ssync_eq (s : Synced α) :
    ssync k w biosdev xfsSync act s = syncDrive k w biosdev xfsSync act 0 s := by
  unfold ssync
  rw [driveLoop_zero]
  rfl

theorem filterMap_drives {β : Type} (f : Fin NUM_DRIVES → Option β) :
    (List.finRange NUM_DRIVES).filterMap f =
      (f 0).toList ++ (List.finRange 31).filterMap fun d => f d.succ := by
  rw [List.finRange_succ, List.filterMap_cons]
  cases f 0 with
  | none => simp [List.filterMap_map]
  | some b => simp [List.filterMap_map]

theorem ssync_calls (s : Synced α) : (ssync k w biosdev xfsSync act s).calls =
    s.calls ++ (due k w biosdev act 0).toList := by
  rw [ssync_eq, syncDrive_due]
  cases due k w biosdev act 0 with
  | none => exact (List.append_nil _).symm
  | some m => rfl

/-- `Ssync` synchronises every drive that is due if and only if none but drive A is. -/
theorem ssync_iff (k : Kernel) (w : Wback) (biosdev : Nat → BitVec 16)
    (xfsSync : Nat → Nat → Buffers α → Buffers α) (act : Slot) (L : Layout)
    (Inv : Buffers α → Prop) (s : Synced α) :
    Synchronised k w biosdev xfsSync act L Inv s (ssync k w biosdev xfsSync act s) ↔
      ∀ d, d ≠ 0 → due k w biosdev act d = none := by
  constructor
  · intro h d hd
    -- the calls that were made leave no room for others
    have hlen := h.once.length_eq
    rw [ssync_calls, filterMap_drives, List.length_append, List.length_append,
      List.length_append] at hlen
    have hnil : (List.finRange 31).filterMap (fun d => due k w biosdev act d.succ) = [] :=
      List.eq_nil_of_length_eq_zero (by omega)
    rcases Fin.exists_succ_eq.mpr hd with ⟨e, rfl⟩
    exact List.filterMap_eq_nil_iff.mp hnil e (List.mem_finRange e)
  · intro h
    constructor
    · have hnil : (List.finRange 31).filterMap (fun d => due k w biosdev act d.succ) = [] :=
        List.filterMap_eq_nil_iff.mpr fun d _ => h d.succ (Fin.succ_ne_zero d)
      rw [ssync_calls, filterMap_drives, hnil, List.append_nil]
    · intro hinv _ hwrites d m hd
      have h0 : d = 0 := by
        by_contra hne
        rw [h d hne] at hd
        cases hd
      subst h0
      rw [ssync_eq, syncDrive_due, hd]
      exact (hwrites 0 m hd s.buffers hinv).2

end

/-- A changed sector of drive C. -/
def dirtyBuffers : Buffers Nat :=
  { emptyBuffers with
    xb := Function.update emptyBuffers.xb 3 ⟨2, 7, 0, true, 5⟩ }

/-- Drive C is a hard disk that is always to be synchronised, and stays as it is. -/
theorem ssync_misses :
    Dirty (pairLayout 9 4) dirtyBuffers.xb 2 7 ∧
    ¬ Synchronised (oneFile 0) ⟨fun _ => 0, 0, none⟩ (fun _ => 0xFFFF) (fatSync (oneFile 0)) 0
      (pairLayout 9 4) (fun b => Sound (pairLayout 9 4) b (fun _ _ => 0) fun _ _ => True)
      ⟨dirtyBuffers, []⟩
      (ssync (oneFile 0) ⟨fun _ => 0, 0, none⟩ (fun _ => 0xFFFF) (fatSync (oneFile 0)) 0
        ⟨dirtyBuffers, []⟩) := by
  refine ⟨⟨3, ⟨.data, List.mem_cons_self⟩, ⟨rfl, rfl⟩, rfl⟩, fun h => ?_⟩
  have hlen := h.once.length_eq
  rw [ssync_calls, filterMap_drives] at hlen
  revert hlen
  decide

end Dos

end MagiC
