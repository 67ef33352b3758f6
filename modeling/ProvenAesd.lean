import ProvenAesd.AESDWriteConservation
import ProvenAesd.AESDReadStream
import ProvenAesd.AESDSeekRange
import ProvenAesd.AESDRingSearch
import ProvenAesd.AESDWriteSegments
import ProvenAesd.AESDOwnership
import ProvenAesd.AESDWriteIndex
import ProvenAesd.AESDMutexLife
import ProvenAesd.AESDWriteFailure
import ProvenAesd.AESDReadInterleaving
import ProvenAesd.SocketReaping
import ProvenAesd.SocketStaleBytes
import ProvenAesd.SocketSegmentation
import ProvenAesd.SocketExit
import ProvenAesd.SocketPackets
import ProvenAesd.SocketSeekFormat
import ProvenAesd.SocketShutdown
import ProvenAesd.SocketShortSend
import ProvenAesd.SystemcallsWait
import ProvenAesd.SystemcallsOutput
import ProvenAesd.SocketLogTurns
import ProvenAesd.SocketThreadLines
import ProvenAesd.SocketSequential
import ProvenAesd.AESDLogStream
import ProvenAesd.SocketDeviceLog
import ProvenAesd.SocketRequests
import ProvenAesd.QueueList
import ProvenAesd.SocketNodes
import ProvenAesd.AESDLostBlocks
import ProvenAesd.AESDModuleLife
import ProvenAesd.SectionRanks
import ProvenAesd.SocketThreadRanks
import ProvenAesd.SocketLogRanks
import ProvenAesd.SystemcallsSharedFile
import ProvenAesd.SocketAcceptOrder
import ProvenAesd.ThreadingMutex
import ProvenAesd.SocketServerLog
