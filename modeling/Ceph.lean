import Ceph.ErasureCode.OptLrc.Init
import Ceph.ErasureCode.Lrc.Minimum
import Ceph.Osd.IntervalMapRuns
import Ceph.Osd.ECContent
import Ceph.Osd.ECRollback
import Ceph.Osd.PGLogMerge
import Ceph.Osd.PGLogMarks
import Ceph.Osd.SnapMapperTrim
import Ceph.Osd.PastIntervals
import Ceph.ErasureCode.Isa.RoundTrip
import Ceph.Osdc.StripedExtents
import Ceph.Os.CollKeyRange
import Ceph.Include.IntervalSet
import Ceph.Osd.OSDMap
import Ceph.Crush.Permutation
import Ceph.Os.StupidAllocatorFit
import Ceph.Os.BitmapFreelistVerify
import Ceph.Os.ExtentMapCodec
import Ceph.Os.DencVarint
import Ceph.Mon.ElectorFeatures
import Ceph.Mon.ElectorVictory
import Ceph.Os.DeferredBatch
import Ceph.Os.BufferSpace
import Ceph.Cls.JournalTags
import Ceph.Cls.Refcount
import Ceph.Cls.Lock
import Ceph.Common.BufferCrc
