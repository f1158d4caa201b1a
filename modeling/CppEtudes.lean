import CppEtudes.StringFunctions.SubstrBounds
import CppEtudes.StringFunctions.SubstrNew
import CppEtudes.StringFunctions.Utf8Length4
import CppEtudes.StringFunctions.CaseVector
import CppEtudes.Calltree.Calling
import CppEtudes.Calltree.Called
import CppEtudes.Calltree.Extract
import CppEtudes.Calltree.MergeLines
import CppEtudes.Calltree.Nested
import CppEtudes.Calltree.Comments
import CppEtudes.Calltree.LevDist
import CppEtudes.Calltree.FormatTree
import CppEtudes.Cpptree.SubClass
import CppEtudes.Csvtable.Align
import CppEtudes.Stackcollapse.Sections
import CppEtudes.Calltree.CommonTree
import CppEtudes.Calltree.SavedFiles
import CppEtudes.Calltree.Preprocess
import CppEtudes.LruCache.Sessions
import CppEtudes.LruCache.CacheManager
import CppEtudes.LruCache.Eviction
import CppEtudes.LruCache.TableMap
import CppEtudes.Concurrent.Linearizability
import CppEtudes.Concurrent.OrderedMap
import CppEtudes.Concurrent.FreeSlots
import CppEtudes.Concurrent.SlotArrays
import CppEtudes.Concurrent.SlotParents
import CppEtudes.GermanString.Equality
import CppEtudes.GermanString.Allocator
import CppEtudes.GermanString.Append
import CppEtudes.Interpreters.Refinement
import CppEtudes.Concat.Room
import CppEtudes.Concat.Horizontal
import CppEtudes.Repeat.Copies
import CppEtudes.Reverse.Reverse
import CppEtudes.Trim.Trim
import CppEtudes.Memequal.Memequal
import CppEtudes.Hexdigit.Unhex
import CppEtudes.SeqMutex.Bounds
import CppEtudes.Decimal.Words
import CppEtudes.Decimal.CKDecimalOp
import CppEtudes.Decimal.ToString
import CppEtudes.Hll.HarmonicMean
import CppEtudes.Decimal.LongDivision
import CppEtudes.Analysis.Cfg
import CppEtudes.Async.ConcurrentLinkedList
import CppEtudes.Shuffle.LocalShuffleFabric
