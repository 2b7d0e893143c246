import MetaOS.ApplyPatch
import MetaOS.ApplyPatchRecovery
import MetaOS.ApplyPatchSource
import MetaOS.ApplyPatchTarget
import MetaOS.ArgumentCounts
import MetaOS.ArgumentOrder
import MetaOS.AtAttribution
import MetaOS.AtClassification
import MetaOS.AtCommand
import MetaOS.AtReadBuffer
import MetaOS.AtReader
import MetaOS.AtReaderLoop
import MetaOS.AtTok
import MetaOS.AtTokRoundTrip
import MetaOS.BinarySearch
import MetaOS.Bootloader
import MetaOS.BoundedQueue
import MetaOS.Brackets
import MetaOS.Bsdiff
import MetaOS.BsdiffRoundTrip
import MetaOS.Bspatch
import MetaOS.BspatchBounds
import MetaOS.BspatchExtent
import MetaOS.BspatchTermination
import MetaOS.ByteString
import MetaOS.CString
import MetaOS.CallCounting
import MetaOS.ChunkTiling
import MetaOS.DirCreation
import MetaOS.DirFiles
import MetaOS.DirRecursion
import MetaOS.DirUtil
import MetaOS.EdifyEvaluate
import MetaOS.EdifyFunctions
import MetaOS.EdifyLexer
import MetaOS.EdifyParser
import MetaOS.EdifyPieces
import MetaOS.EdifyPrecedence
import MetaOS.EdifyPrinter
import MetaOS.EdifyRoundTrip
import MetaOS.EdifySemantics
import MetaOS.EdifyShiftReduce
import MetaOS.EdifySpans
import MetaOS.EventRuns
import MetaOS.FileGetProp
import MetaOS.FileSystem
import MetaOS.FirstOccurrence
import MetaOS.Flash
import MetaOS.FlashImage
import MetaOS.FlashImageRuns
import MetaOS.FreeCache
import MetaOS.FreeSpace
import MetaOS.Hexadecimal
import MetaOS.ImagePatch
import MetaOS.ImagePatchFailures
import MetaOS.ImagePatchHeader
import MetaOS.ImagePatchRecords
import MetaOS.ImgdiffChunks
import MetaOS.ImgdiffHeader
import MetaOS.ImgdiffMerge
import MetaOS.ImgdiffParallel
import MetaOS.ImgdiffPatches
import MetaOS.ImgdiffRoundTrip
import MetaOS.ImgdiffZip
import MetaOS.InstallPackage
import MetaOS.IntegerComparison
import MetaOS.KeyFile
import MetaOS.LineLoop
import MetaOS.LineSplitting
import MetaOS.LinearProbing
import MetaOS.LinkedRing
import MetaOS.LoadPartition
import MetaOS.LoadSave
import MetaOS.MinZip
import MetaOS.MinZipHash
import MetaOS.MinZipHashLoad
import MetaOS.MinZipHashMap
import MetaOS.MinZipHashRuns
import MetaOS.MountedVolumes
import MetaOS.Mtd
import MetaOS.MtdAborts
import MetaOS.MtdBadBlocks
import MetaOS.MtdPartitions
import MetaOS.MtdReadBlock
import MetaOS.MtdReader
import MetaOS.MtdRoundTrip
import MetaOS.MtdVerified
import MetaOS.MtdWriter
import MetaOS.Numerals
import MetaOS.PatchBounds
import MetaOS.ProgramLogic
import MetaOS.PropertyTag
import MetaOS.PropertyTagFile
import MetaOS.RawImage
import MetaOS.RecoveryArgs
import MetaOS.RecoveryMain
import MetaOS.RecoveryMenu
import MetaOS.RecoveryReceive
import MetaOS.RecoveryRestart
import MetaOS.RecoverySocket
import MetaOS.ReferenceRil
import MetaOS.ReferenceRilAnswers
import MetaOS.ReferenceRilCalls
import MetaOS.ReferenceRilHandlers
import MetaOS.ReferenceRilLines
import MetaOS.RilCdmaSms
import MetaOS.RilConnection
import MetaOS.RilCounts
import MetaOS.RilDebugClients
import MetaOS.RilDebugPort
import MetaOS.RilDispatch
import MetaOS.RilFrames
import MetaOS.RilMutex
import MetaOS.RilNitz
import MetaOS.RilRadioState
import MetaOS.RilReader
import MetaOS.RilResponses
import MetaOS.RilTimers
import MetaOS.RilWakeLock
import MetaOS.RilWatch
import MetaOS.Roots
import MetaOS.RootsMounts
import MetaOS.SendMessage
import MetaOS.Sha1Text
import MetaOS.SignaturePlacement
import MetaOS.SortedInsertion
import MetaOS.SpacedTokens
import MetaOS.StreamDecoder
import MetaOS.SuffixGroups
import MetaOS.SuffixRanks
import MetaOS.SuffixSearch
import MetaOS.SuffixSort
import MetaOS.SuffixSortBuckets
import MetaOS.SuffixSortRuns
import MetaOS.TextScreen
import MetaOS.ThreadPools
import MetaOS.ThreeWayPartition
import MetaOS.TracedRun
import MetaOS.UiKeys
import MetaOS.UpdaterArguments
import MetaOS.UpdaterFunctions
import MetaOS.UpdaterPipe
import MetaOS.UpdaterPipeReading
import MetaOS.Verifier
import MetaOS.WrappedText
import MetaOS.ZipBounds
import MetaOS.ZipContents
import MetaOS.ZipDelivery
import MetaOS.ZipExtract
import MetaOS.ZipLookup
import MetaOS.ZipOrder
import MetaOS.ZipReports
import MetaOS.ZipSizes
import MetaOS.ZipTargetPath
import MetaOS.ZipWalk
