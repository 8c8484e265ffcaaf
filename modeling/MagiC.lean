import MagiC.Malloc.Code
import MagiC.Malloc.Splice
import MagiC.Malloc.Search
import MagiC.Malloc.Invariant
import MagiC.Malloc.Release
import MagiC.Lib.Runs
import MagiC.Malloc.Run
import MagiC.Malloc.Enlarge
import MagiC.Allg.Copy
import MagiC.Lib.Fifo
import MagiC.Pipe.Code
import MagiC.Pipe.Run
import MagiC.Fat.Codec
import MagiC.Vfat.Readdir
import MagiC.Vfat.Longname
import MagiC.Vfat.Crnam
import MagiC.Vfat.Ffree
import MagiC.Cache.Code
import MagiC.Cache.Coherent
import MagiC.Cache.Search
import MagiC.Cache.Transfer
import MagiC.Cache.Run
import MagiC.Fat.Table
import MagiC.Fat.Volume
import MagiC.Lib.Chain
import MagiC.Fat.Alloc
import MagiC.Fat.Chains
import MagiC.Fat.Separate
import MagiC.Fat.Count
import MagiC.Lib.Slist
import MagiC.Xfs.Code
import MagiC.Xfs.Forest
import MagiC.Xfs.Free
import MagiC.Xfs.Close
import MagiC.Xfs.Sharing
import MagiC.Xfs.Find
import MagiC.Xfs.Rename
import MagiC.Xfs.Wellformed
import MagiC.Lib.Rooted
import MagiC.Xfs.Tree
import MagiC.Malloc.Limit
import MagiC.Malloc.Save
import MagiC.Malloc.Memsave
import MagiC.Malloc.Restore
import MagiC.Aes.Blockage
import MagiC.Aes.Semaphore
import MagiC.Aes.Update
import MagiC.Aes.Dispatch
import MagiC.Aes.Timer
import MagiC.Aes.Schedule
import MagiC.Aes.Buffer
import MagiC.Aes.Merge
import MagiC.Aes.Window
import MagiC.Lib.Tiling
import MagiC.Aes.Overlap
import MagiC.Aes.Rebuild
import MagiC.Aes.Visible
import MagiC.Lib.Outcome
import MagiC.Ramdisk.Code
import MagiC.Ramdisk.Lookup
import MagiC.Lib.Paged
import MagiC.Ramdisk.Content
import MagiC.Dos.Call
import MagiC.Dos.Change
import MagiC.Dos.Counted
import MagiC.Dos.Givenup
import MagiC.Dos.Locks
import MagiC.Dos.Balance
import MagiC.Dos.Stale
import MagiC.Lib.Memory
import MagiC.Pexec.Scan
import MagiC.Pexec.Reloc
import MagiC.Aes.Family
import MagiC.Aes.Order
import MagiC.Dos.Uid
import MagiC.Edit.Code
import MagiC.Edit.Lines
import MagiC.Edit.Partition
import MagiC.Edit.Scroll
import MagiC.Aes.Image
import MagiC.Aes.Loaded
import MagiC.Aes.Linked
import MagiC.Aes.Scrolled
import MagiC.Aes.Opening
import MagiC.Aes.Stack
import MagiC.Slb.Counted
import MagiC.Slb.Kept
import MagiC.Slb.Runs
import MagiC.Aes.Cursor
import MagiC.Aes.Keys
import MagiC.Fat.Damaged
import MagiC.Fat.Freespace
import MagiC.Fat.Xbpb
import MagiC.Malloc.Query
import MagiC.Malloc.Screen
import MagiC.Vfat.Alias
import MagiC.Vfat.Path2dd
import MagiC.Vfat.Tables
import MagiC.Vfat.Symlink
import MagiC.Aes.Restack
import MagiC.Dos.Drives
import MagiC.Dos.Intmem
import MagiC.Dos.Pathcmpl
import MagiC.Dos.Unmount
import MagiC.Lib.Laid
import MagiC.Pexec.Argv
import MagiC.Pipe.Stat
import MagiC.Malloc.Spares
import MagiC.Pexec.Fork
import MagiC.Aes.Alarm
import MagiC.Aes.Draw
import MagiC.Aes.Find
import MagiC.Aes.Saddr
import MagiC.Aes.Template
import MagiC.Aes.Paste
import MagiC.Aes.Shelsort
import MagiC.Aes.Slider
import MagiC.Aes.Depth
import MagiC.Malloc.Expand
import MagiC.Vfat.Lookup
import MagiC.Aes.Iconify
import MagiC.Ramdisk.Squeeze
import MagiC.Malloc.Pieces
import MagiC.Fat.Lost
import MagiC.Aes.Waiting
