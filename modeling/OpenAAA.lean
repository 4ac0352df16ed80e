import OpenAAA.Lib.Memory
import OpenAAA.Lib.Linked
import OpenAAA.Lib.Heap
import OpenAAA.Lib.Crc
import OpenAAA.Lib.Runs
import OpenAAA.Lib.Ring
import OpenAAA.Lib.Sequences
import OpenAAA.Lib.Arrays
import OpenAAA.Lib.Hoare
import OpenAAA.Lib.UndoLog
import OpenAAA.Lib.Traced
import OpenAAA.Lib.BlockHash
import OpenAAA.Lib.Fips180
import OpenAAA.Lib.Rfc4648
import OpenAAA.Generic.Sorter
import OpenAAA.Lib.Scatter
import OpenAAA.Generic.ArraySorter
import OpenAAA.Generic.ThreadedSort
import OpenAAA.Generic.ThreadedRadix
import OpenAAA.Lib.Merging
import OpenAAA.Generic.Multiway
import OpenAAA.Generic.MultiwayMerge
import OpenAAA.Generic.Twoway
import OpenAAA.Generic.TwowayRuns
import OpenAAA.Generic.Govern
import OpenAAA.Generic.GovernBuckets
import OpenAAA.Generic.GovernStrategies
import OpenAAA.Generic.Internal
import OpenAAA.Generic.InternalPresorts
import OpenAAA.Generic.GovernRuns
import OpenAAA.Generic.Hash
import OpenAAA.Lib.Fibres
import OpenAAA.Generic.HashFn
import OpenAAA.Sys.Compiler
import OpenAAA.Crypto.CrcTables
import OpenAAA.Crypto.Crc
import OpenAAA.Crypto.CrcReads
import OpenAAA.Crypto.Sha1
import OpenAAA.Crypto.Sha1Digest
import OpenAAA.Crypto.Md5
import OpenAAA.Crypto.Md5Hmac
import OpenAAA.Crypto.B64
import OpenAAA.Net.Sctp
import OpenAAA.Net.SctpChecksum
import OpenAAA.Mem.Page
import OpenAAA.Mem.Map
import OpenAAA.Mem.PageRuns
import OpenAAA.Mem.MapRounds
import OpenAAA.Mem.AreaSize
import OpenAAA.Mem.Pool
import OpenAAA.Mem.PoolInvariant
import OpenAAA.Mem.PoolAlloc
import OpenAAA.Mem.PoolRewind
import OpenAAA.Mem.PoolTip
import OpenAAA.Mem.PoolRuns
import OpenAAA.Mem.PoolGrow
import OpenAAA.Mem.PoolGrowRuns
import OpenAAA.Mem.Vblock
import OpenAAA.Mem.VblockPurge
import OpenAAA.Mem.Stack
import OpenAAA.Mem.MmPool
import OpenAAA.Mem.MmPoolRuns
import OpenAAA.Mpm.Task
import OpenAAA.Mpm.TaskRuns
import OpenAAA.Mem.List
import OpenAAA.Mem.ListRuns
import OpenAAA.Str.Attr
import OpenAAA.Str.AttrRuns
import OpenAAA.Str.Object
import OpenAAA.Str.ObjectWrites
import OpenAAA.Str.ObjectReads
import OpenAAA.Opt.Dirty
import OpenAAA.Opt.Conf
import OpenAAA.Opt.Intr
import OpenAAA.Lib.Strtoul
import OpenAAA.Opt.Units
import OpenAAA.Opt.UnitsIp
import OpenAAA.Opt.Input
import OpenAAA.Opt.Quoting
import OpenAAA.Opt.Undo
import OpenAAA.Opt.Tame
import OpenAAA.Opt.Lines
import OpenAAA.Opt.Texts
import OpenAAA.Opt.Levels
import OpenAAA.Opt.Transactions
import OpenAAA.Opt.Pools
import OpenAAA.Opt.Revert
import OpenAAA.Opt.Assignments
import OpenAAA.Opt.Capped
import OpenAAA.Opt.FailedCalls
import OpenAAA.Lib.Rfc2104
import OpenAAA.Crypto.Sha1Hmac
import OpenAAA.Lib.Rfc1321
import OpenAAA.Crypto.Md5Digest
import OpenAAA.Lib.Fips180Sha256
import OpenAAA.Crypto.Sha256
import OpenAAA.Lib.Selection
import OpenAAA.Str.AttrSort
import OpenAAA.Mem.PageRange
import OpenAAA.Elf.Hash
import OpenAAA.Str.Unesc
import OpenAAA.Str.Escapes
import OpenAAA.Lib.Chains
import OpenAAA.Mem.Hlist
import OpenAAA.Mem.HlistRuns
import OpenAAA.Generic.Gary
import OpenAAA.Generic.GaryRuns
import OpenAAA.Opt.Dynamic
import OpenAAA.Opt.DynamicRuns
import OpenAAA.Lib.Files
import OpenAAA.Opt.Fastbuf
import OpenAAA.Opt.FastbufReads
import OpenAAA.Opt.FbFile
import OpenAAA.Opt.FbFileReads
import OpenAAA.Opt.FbFileWrites
import OpenAAA.Opt.FbBuffer
import OpenAAA.Opt.FbLines
