import SystemProgramming.Admission
import SystemProgramming.AppendMeMore
import SystemProgramming.BiboReplies
import SystemProgramming.BiboSerial
import SystemProgramming.BoxBodies
import SystemProgramming.BoxCuts
import SystemProgramming.BoxReplies
import SystemProgramming.BoxStore
import SystemProgramming.BoxWire
import SystemProgramming.PcpSource
import SystemProgramming.PcpWakeup
import SystemProgramming.QueueSignals
import SystemProgramming.RequestTokens
import SystemProgramming.ShellRun
import SystemProgramming.TableDescriptors
import SystemProgramming.TableExclusion
import SystemProgramming.FifoReplies
import SystemProgramming.PathConfinement
import SystemProgramming.PcpAccesses
import SystemProgramming.QueueFifo
import SystemProgramming.ClientSignals
import SystemProgramming.RequestGrammar
import SystemProgramming.RequestUnlink
import SystemProgramming.TableSizes
import SystemProgramming.TableBounds
import SystemProgramming.TableOverflow
import SystemProgramming.TableOffsets
import SystemProgramming.TableLines
import SystemProgramming.BiboCommands
import SystemProgramming.BiboLines
import SystemProgramming.BiboBounds
import SystemProgramming.BiboLeaks
import SystemProgramming.BoxAges
import SystemProgramming.BoxParser
import SystemProgramming.BoxLogs
import SystemProgramming.BoxAtomic
import SystemProgramming.BoxUnread
import SystemProgramming.PcpCopies
import SystemProgramming.PcpShutdown
import SystemProgramming.PcpPaths
import SystemProgramming.ShellLines
import SystemProgramming.ShellRefines
import SystemProgramming.BoxGone
import SystemProgramming.BoxRelease
import SystemProgramming.BoxPool
import SystemProgramming.BoxBuffers
import SystemProgramming.ChildReaping
import SystemProgramming.SegmentStart
import SystemProgramming.ShellPipes
import SystemProgramming.ShellIndices
import SystemProgramming.ShellDescriptors
import SystemProgramming.ShellForms
import SystemProgramming.AppendLoop
import SystemProgramming.BoxBlocks
import SystemProgramming.BiboRewrite
import SystemProgramming.RankedRun
import SystemProgramming.PcpRank
import SystemProgramming.PcpCorrect
import SystemProgramming.PcpKilled
import SystemProgramming.TaggedStream
import SystemProgramming.BiboSpoken
import SystemProgramming.BiboSession
import SystemProgramming.BiboPrinted
import SystemProgramming.ShellRedirects
import SystemProgramming.ShellLog
import SystemProgramming.BoxSignals
import SystemProgramming.TableBlocked
import SystemProgramming.BiboIsolation
import SystemProgramming.AppendLengths
import SystemProgramming.QueueServed
import SystemProgramming.BiboAppends
import SystemProgramming.BiboWriters
import SystemProgramming.BiboKilled
import SystemProgramming.BoxStarved
import SystemProgramming.BoxStamps
import SystemProgramming.ServerShutdown
