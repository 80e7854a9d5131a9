import OptFs.Lib.ByteImage
import OptFs.Lib.Cyclic
import OptFs.Lib.Trace
import OptFs.Lib.Bits
import OptFs.Lib.RbTree
import OptFs.Lib.Cover
import OptFs.Lib.CircularList
import OptFs.Lib.CombSort
import OptFs.Lib.RunMap
import OptFs.Lib.ByteRange
import OptFs.Lib.AssocList
import OptFs.Jbd.Format
import OptFs.Jbd.Descriptor
import OptFs.Jbd.Log
import OptFs.Jbd.Recovery
import OptFs.Jbd.Commit
import OptFs.Jbd.Handle
import OptFs.Jbd.LogSpace
import OptFs.Jbd.Durable
import OptFs.Jbd.BufferLists
import OptFs.Jbd.Scan
import OptFs.Jbd.RevokeHash
import OptFs.Jbd.RevokeCodec
import OptFs.Jbd.Checksum
import OptFs.Jbd.Fletcher
import OptFs.Jbd.DataWalk
import OptFs.Mballoc.Buddy
import OptFs.Mballoc.DelayedReuse
import OptFs.Mballoc.FindExtent
import OptFs.Mballoc.BuddyInv
import OptFs.Mballoc.FreeBlocks
import OptFs.Mballoc.MarkUsed
import OptFs.Mballoc.ExtentSearch
import OptFs.Mballoc.ScanGroup
import OptFs.Mballoc.RoundTrip
import OptFs.Extents.Binsearch
import OptFs.Extents.InsertExtent
import OptFs.Namei.DoSplit
import OptFs.Namei.SplitBlocks
import OptFs.Balloc.FreeClusters
import OptFs.Ext4.BlockValidity
import OptFs.Xattr.SetEntry
import OptFs.Xattr.Region
import OptFs.Xattr.Update
import OptFs.Xattr.Get
