import Mai.RunInvariant
import Mai.KWayMerge
import Mai.BaseAlign
import Mai.CoreKeys
import Mai.CoreMemoryTable
import Mai.DbVersion
import Mai.DbColumnFamily
import Mai.DbCompaction
import Mai.DbCompactionReads
import Mai.GroupedList
import Mai.TableFormat
import Mai.DbWriters
import Mai.DbOverlap
import Mai.DbVersionSet
import Mai.DbLogTorn
import Mai.DbManifestBytes
import Mai.DbIterator
import Mai.TxnWriteBatch
import Mai.TxnLockInvariant
import Mai.DbScheduling
import Mai.LangChannel
import Mai.LangWriteBarrier
import Mai.IndexChain
import Mai.PointerGraph
import Mai.DbOverlapClosure
import Mai.DbLogErrors
import Mai.DbLogAndApplyFaults
import Mai.DbImplViews
import Mai.OrderedIterator
import Mai.CoreMerging
import Mai.CoreDeltaAmend
import Mai.TxnIterator
import Mai.DbWriteFaults
import Mai.DbFileRanges
import Mai.DbFileNumbers
import Mai.DbRedoLogs
import Mai.AssocMap
import Mai.BaseIo
import Mai.TableFilter
import Mai.DbPatchCodec
import Mai.DbWriteBatch
import Mai.TxnLockCount
import Mai.BreadthFirst
import Mai.TxnWaitGraph
import Mai.TxnLockWait
import Mai.DbFiles
import Mai.CoreSkipList
import Mai.CoreDecimal
import Mai.CoreDecimalCompare
import Mai.CoreDecimalDiv
import Mai.CoreDecimalInteger
import Mai.CoreDecimalMul
import Mai.CoreSkipListIterator
import Mai.SortedInsert
import Mai.CoreHashMap
import Mai.CoreTableGet
import Mai.TableDataBlock
import Mai.TableSst
import Mai.TableSstReader
import Mai.CoreLruCache
import Mai.CoreLruSize
import Mai.CoreLruLoading
import Mai.LangBytecodeBuilder
import Mai.LangChannelTrace
import Mai.LangNumberLiteral
import Mai.LangCompilationWorker
import Mai.LangOldSpaceCounters
import Mai.LangPromotion
import Mai.SqlExpression
import Mai.CoreDecimalSqrt
import Mai.LangRememberThreads
import Mai.LangRememberSet
import Mai.LangHandleScope
import Mai.LangExceptionTable
import Mai.LangExpression
import Mai.LangTypedMaps
import Mai.LangStableSpace
import Mai.LangStackSpace
import Mai.BaseVarint
import Mai.BaseSlice
import Mai.CoreBytewiseComparator
import Mai.TxnDeadLockBuffer
import Mai.LangBitmapBlocks
import Mai.CoreDecimalShift
import Mai.DbCompactionLookup
import Mai.SqlValueCompare
import Mai.SqlHeapTuple
import Mai.CoreDecimalExponent
