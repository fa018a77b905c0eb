import Fon9.Lib.Numeral
import Fon9.Lib.Cyclic
import Fon9.Lib.SortedInsert
import Fon9.PkCont.Feeder
import Fon9.PkCont.Delivery
import Fon9.Base.StrTo
import Fon9.Fix.Parser
import Fon9.Base.RevBuffer
import Fon9.Fix.Builder
import Fon9.Fix.Fields
import Fon9.Fix.RoundTrip
import Fon9.Fix.Framing
import Fon9.Fix.Receiver
import Fon9.Fix.Sequence
import Fon9.Lib.Run
import Fon9.Fix.Recovery
import Fon9.Fix.Session
import Fon9.Fix.Derived
import Fon9.Fix.Ready
import Fon9.Trie.Node
import Fon9.Lib.Lex
import Fon9.Lib.Loop
import Fon9.Trie.Order
import Fon9.Trie.Emplace
import Fon9.Trie.Erase
import Fon9.Trie.EraseLoop
import Fon9.Trie.Map
import Fon9.Buffer.ByteQueue
import Fon9.Pk.Receiver
import Fon9.Pk.Stream
import Fon9.AQueue.System
import Fon9.AQueue.Invariant
import Fon9.AQueue.NoLoss
import Fon9.Lib.ByteFile
import Fon9.Inn.InnFile
import Fon9.Inn.Layout
import Fon9.Inn.NewRoom
import Fon9.Inn.Table
import Fon9.Inn.Converge
import Fon9.Bitv.Encode
import Fon9.Buffer.Blocks
import Fon9.Bitv.Decode
import Fon9.Bitv.Bytes
import Fon9.Bitv.RoundTrip
import Fon9.Inn.Access
import Fon9.Inn.Dbf
import Fon9.Inn.Rooms
import Fon9.Inn.LoadTurn
import Fon9.Inn.Change
import Fon9.Inn.Ownership
import Fon9.Inn.Update
import Fon9.Inn.Runs
import Fon9.Inn.OwnedOnce
import Fon9.Lib.Pieces
import Fon9.Flow.Counter
import Fon9.Flow.Calc
import Fon9.Subr.Publish
import Fon9.PkCont.Accounting
import Fon9.Sch.Check
import Fon9.Lib.Segment
import Fon9.Rts.UpdateBS
import Fon9.Rts.Replicate
import Fon9.Rts.InfoTime
import Fon9.Rts.Recover
import Fon9.Rts.RecoverBlocks
import Fon9.Rts.RecoverPackets
import Fon9.Rts.RecoverRuns
import Fon9.Rts.RecoverDelivers
import Fon9.Mc.Packet
import Fon9.PkCont.Derived
import Fon9.Mc.Channel
import Fon9.Bitv.InPlace
import Fon9.Bitv.Atomic
import Fon9.Bitv.CrossType
import Fon9.Bitv.FixedScale
import Fon9.Fmkt.TradingLine
import Fon9.Fmkt.Book
import Fon9.Fmkt.Accounting
import Fon9.Fmkt.Wake
import Fon9.Timer.TimerThread
import Fon9.Timer.Kept
import Fon9.Rc.Session
import Fon9.Rc.Framing
import Fon9.Rc.Dispatch
import Fon9.Rc.Host
import Fon9.Seed.Acl
import Fon9.Lib.Dots
import Fon9.Seed.Components
import Fon9.Seed.Rights
import Fon9.Seed.Spelling
import Fon9.Seed.CommandRight
import Fon9.Seed.FileName
import Fon9.Auth.Scram
import Fon9.Auth.LastMessage
import Fon9.Auth.Handshake
import Fon9.Auth.Verified
import Fon9.Auth.Agreement
import Fon9.Auth.Proof
import Fon9.Auth.Contract
import Fon9.Auth.DupLogon
import Fon9.Auth.DupLogonRuns
import Fon9.Trie.Bound
import Fon9.SortedVector.Insert
import Fon9.SortedVector.Runs
import Fon9.Lib.Glob
import Fon9.StrTools.WildMatch
import Fon9.StrTools.Escape
import Fon9.Lib.Chain
import Fon9.Inn.Links
import Fon9.Inn.StreamRooms
import Fon9.Inn.Below
import Fon9.Inn.Overlay
import Fon9.Inn.WriteOver
import Fon9.Inn.Beyond
import Fon9.Inn.BeyondRead
import Fon9.Inn.Faults
import Fon9.Inn.HeaderSync
import Fon9.Inn.ReadRange
import Fon9.Inn.HeaderRuns
import Fon9.Inn.Reopen
import Fon9.Fix.VerifyAt
import Fon9.Fix.VerifySound
import Fon9.Fix.Rebuild
import Fon9.Base.Base64Text
import Fon9.LevelArray.Level
import Fon9.LevelArray.Map
import Fon9.LevelArray.Enumerate
import Fon9.Buffer.Notify
import Fon9.Buffer.NotifyOnce
import Fon9.Buffer.SinglyLinkedList
import Fon9.Buffer.PeekBlocks
import Fon9.Num.DecBase
import Fon9.Num.AfterRound
import Fon9.Num.MultipleDivisor
import Fon9.Num.AdjustDecScale
import Fon9.Num.StrToNum
import Fon9.Num.StrToInt
import Fon9.Num.DecimalValue
import Fon9.Num.StrToDecimal
import Fon9.Num.StrToTime
import Fon9.Num.ToStr
import Fon9.Buffer.BlockQueue
import Fon9.Buffer.ReadMore
import Fon9.Buffer.LinePeeker
import Fon9.Web.HttpParser
import Fon9.Inn.SyncKey
import Fon9.Mc.Recover
import Fon9.PkCont.Draw
import Fon9.Lib.Effect
import Fon9.Mc.SeqReset
import Fon9.Seed.RawCell
import Fon9.RcMdRts.TabFields
import Fon9.RcMdRts.Writer
import Fon9.RcMdRts.Decoder
import Fon9.RcMdRts.Frame
import Fon9.RcMdRts.DealBS
import Fon9.RcMdRts.Levels
import Fon9.RcMdRts.Snapshot
import Fon9.RcMdRts.SnapshotBytes
import Fon9.RcMdRts.DealView
import Fon9.RcMdRts.DealPack
import Fon9.RcMdRts.DealRuns
import Fon9.Mr.RecoverSession
import Fon9.Mr.Discipline
import Fon9.Buffer.RevBufferList
import Fon9.Buffer.FwdBufferList
import Fon9.Fmkt.MoveTicks
import Fon9.Fmkt.CalcLmt
import Fon9.Fmkt.PreferLine
import Fon9.Sch.Text
import Fon9.Mc.ToMiConv
import Fon9.Mc.MiContent
import Fon9.Inn.Directory
import Fon9.Twf.P08
import Fon9.Twf.CombSymbId
import Fon9.Auth.UserTree
import Fon9.Auth.PassKey
import Fon9.Base.TimeStampCache
import Fon9.Web.UrlCodec
import Fon9.Num.TimeText
import Fon9.Num.TimeStampText
import Fon9.Mc.SnapshotDone
import Fon9.Inn.Contents
