import Tcsip.Runs
import Tcsip.KeyedList
import Tcsip.NeighbourSort
import Tcsip.Store
import Tcsip.StoreVersions
import Tcsip.History
import Tcsip.HistoryLoss
import Tcsip.HistoryPaging
import Tcsip.Flags
import Tcsip.Registration
import Tcsip.Call
import Tcsip.Media
import Tcsip.Buckets
import Tcsip.Uplinks
import Tcsip.Chunks
import Tcsip.Contacts
import Tcsip.ContactsPaging
import Tcsip.Message
import Tcsip.MessageFlight
import Tcsip.MessageProgress
import Tcsip.MessageRows
import Tcsip.MessageNetwork
import Tcsip.MessageStates
import Tcsip.Ajitter
import Tcsip.AjitterBuilds
import Tcsip.AjitterPending
import Tcsip.AjitterQueue
import Tcsip.Capture
import Tcsip.Playback
import Tcsip.CallHandlers
import Tcsip.CallStates
import Tcsip.CallErrors
import Tcsip.Calls
import Tcsip.Client
import Tcsip.AjitterSelect
import Tcsip.AjitterFifo
import Tcsip.SoundPath
import Tcsip.StoreSeparation
import Tcsip.StoreMaps
import Tcsip.MediaFlow
import Tcsip.CLayout
import Tcsip.KeepAlive
import Tcsip.BigEndian
import Tcsip.MsgpackUnpack
import Tcsip.Driver
import Tcsip.MsgpackPack
import Tcsip.Report
import Tcsip.ContactsNull
import Tcsip.CTime
import Tcsip.Date
import Tcsip.LinkedList
import Tcsip.Bundles
import Tcsip.ListSlice
import Tcsip.CallReasons
import Tcsip.MessageCounter
import Tcsip.HttpAnswers
import Tcsip.AjitterBounds
import Tcsip.AjitterRounds
import Tcsip.Receivers
import Tcsip.RenderCallback
import Tcsip.Certificate
import Tcsip.CertificateTime
import Tcsip.Commands
import Tcsip.MuLaw
import Tcsip.RtpIo
import Tcsip.HistoryBlob
import Tcsip.Timestamps
import Tcsip.ContactsFetches
import Tcsip.MessageResend
import Tcsip.OpenSl
import Tcsip.CallReports
import Tcsip.CallMirror
import Tcsip.HistoryMirror
import Tcsip.MessageMirror
import Tcsip.RefCount
import Tcsip.MessageLifetimes
import Tcsip.UplinkMirror
