import NetworksLab.Core.LTS
import NetworksLab.Core.Lockstep
import NetworksLab.Core.SwapPop
import NetworksLab.L1Encoding.TextFields
import NetworksLab.L1Encoding.WireFormat
import NetworksLab.L2Machine.SocketWrite
import NetworksLab.L3Protocol.ChatDisplay
import NetworksLab.L3Protocol.CompressCodings
import NetworksLab.L3Protocol.HttpCounted
import NetworksLab.L3Protocol.HttpForward
import NetworksLab.L3Protocol.HttpHeaders
import NetworksLab.L3Protocol.HttpLockstep
import NetworksLab.L3Protocol.TftpBlocks
import NetworksLab.L3Protocol.TftpForeign
import NetworksLab.L3Protocol.TftpStore
import NetworksLab.L3Protocol.TftpWriteLoop
import NetworksLab.L4App.CacheDuration
import NetworksLab.L4App.HeaderCase
import NetworksLab.L4App.SplitURL
import NetworksLab.L5Concurrency.ChatClosing
import NetworksLab.L5Concurrency.ChatServing
import NetworksLab.L5Concurrency.ChatTyped
import NetworksLab.L5Concurrency.ChatVectors
import NetworksLab.L5Concurrency.ProxyLifecycle
import NetworksLab.L5Concurrency.ProxyProgress
import NetworksLab.L5Concurrency.TftpMissing
import NetworksLab.L5Concurrency.TftpPoll
import NetworksLab.L5Concurrency.TftpReaders
import NetworksLab.L5Concurrency.TftpWireDownload
import NetworksLab.L5Concurrency.TftpWireUpload
