import CLanguageLearning.Sds.Compare
import CLanguageLearning.Sds.Failures
import CLanguageLearning.Sds.IncrLen
import CLanguageLearning.Sds.Quoting
import CLanguageLearning.Sds.Sizes
import CLanguageLearning.Timer.Agreement
import CLanguageLearning.Timer.WheelRuns
import CLanguageLearning.Timer.NonactiveConnRuns
import CLanguageLearning.WebServer.BlockQueueRuns
import CLanguageLearning.WebServer.LogRuns
import CLanguageLearning.WebServer.RequestPool
import CLanguageLearning.WebServer.ConnectionPool
import CLanguageLearning.ThreadPool.Shutdown
import CLanguageLearning.ThreadPool.TaskQueue
import CLanguageLearning.ThreadPool.Version1
import CLanguageLearning.Chat.ShmTalkServer
import CLanguageLearning.Chat.ShmPidTable
import CLanguageLearning.Chat.ThreadedHandOver
import CLanguageLearning.Chat.PollServerDelivery
import CLanguageLearning.Epoll.OneshotHandOver
import CLanguageLearning.Uring.BlockTables
import CLanguageLearning.Uring.CopyAccounts
import CLanguageLearning.Uring.EchoServer
import CLanguageLearning.Http.Receive
import CLanguageLearning.Http.Grammar
import CLanguageLearning.Http.UrlEscape
import CLanguageLearning.Foundation.Splitting
import CLanguageLearning.Foundation.LocalArray
import CLanguageLearning.Sds.SplitLen
import CLanguageLearning.Http.OneAnswer
import CLanguageLearning.Sds.CatFmt
import CLanguageLearning.Foundation.Numerals
import CLanguageLearning.Http.IndexBounds
import CLanguageLearning.Sds.Blanks
import CLanguageLearning.Sds.FromLongLong
import CLanguageLearning.Sds.Substrings
import CLanguageLearning.Sds.UpdateLen
import CLanguageLearning.Timer.HeapBounds
import CLanguageLearning.Timer.TickOrder
import CLanguageLearning.Timer.WheelStructure
import CLanguageLearning.WebServer.BlockQueueFront
import CLanguageLearning.Http.CatFile
import CLanguageLearning.Http.CgiStrings
import CLanguageLearning.Http.Epollhttpd
import CLanguageLearning.Http.LineEnds
import CLanguageLearning.Http.PostBody
import CLanguageLearning.WebServer.LogLine
import CLanguageLearning.WebServer.LogRotation
import CLanguageLearning.WebServer.BlockQueueTimed
import CLanguageLearning.Epoll.EdgeTriggered
import CLanguageLearning.Epoll.EventLoopRuns
import CLanguageLearning.Structures.LinkedList
import CLanguageLearning.Structures.Dictionary
import CLanguageLearning.Processes.EchoServer
import CLanguageLearning.Processes.MultiprocessCopy
import CLanguageLearning.Uring.CatOutput
import CLanguageLearning.ThreadPool.TaskLinks
import CLanguageLearning.Foundation.LockedSections
import CLanguageLearning.ThreadPool.Spinlock
import CLanguageLearning.ThreadPool.QueueSections
import CLanguageLearning.Processes.SharedNumber
import CLanguageLearning.Processes.NumberReader
import CLanguageLearning.Http.Listing
import CLanguageLearning.Timer.WheelAgreement
import CLanguageLearning.Chat.ShmMessages
import CLanguageLearning.Chat.ShmRegions
import CLanguageLearning.Chat.ThreadedBroadcast
import CLanguageLearning.Sds.SplitClean
import CLanguageLearning.Foundation.Counting
import CLanguageLearning.Sds.AppendCost
import CLanguageLearning.Sds.CatPrintf
import CLanguageLearning.Foundation.Draining
import CLanguageLearning.Timer.Destruction
