import Tkeycoin.ActionLogic
import Tkeycoin.LittleEndian
import Tkeycoin.Flags
import Tkeycoin.ScriptNum
import Tkeycoin.Script
import Tkeycoin.StackFrame
import Tkeycoin.SignatureEncoding
import Tkeycoin.Interpreter
import Tkeycoin.Execute
import Tkeycoin.StackEffects
import Tkeycoin.Correspondence
import Tkeycoin.StackDiscipline
import Tkeycoin.Runs
import Tkeycoin.Lockstep
import Tkeycoin.SoftFork
import Tkeycoin.StackLimit
import Tkeycoin.StackSafety
import Tkeycoin.ElementLimit
import Tkeycoin.ScriptReading
import Tkeycoin.PushEncoding
import Tkeycoin.PrefixCode
import Tkeycoin.BlockStream
import Tkeycoin.Framing
import Tkeycoin.Serialization
import Tkeycoin.Transaction
import Tkeycoin.SignatureSerializer
import Tkeycoin.SignedFields
import Tkeycoin.HashTypeRules
import Tkeycoin.Sha256
import Tkeycoin.SignatureHash
import Tkeycoin.MsgPipe
import Tkeycoin.MsgPipeRuns
import Tkeycoin.InputStream
import Tkeycoin.BlockHeader
import Tkeycoin.Unserialize
import Tkeycoin.Message
import Tkeycoin.MessageDecoding
import Tkeycoin.Handshake
import Tkeycoin.HandshakeRuns
import Tkeycoin.Establishment
import Tkeycoin.MerkleTree
import Tkeycoin.Branch
import Tkeycoin.MerkleRoot
import Tkeycoin.Blockchain
import Tkeycoin.ChainInvariant
import Tkeycoin.MainChain
import Tkeycoin.Reorganisation
import Tkeycoin.ReadBack
import Tkeycoin.TransactionReading
import Tkeycoin.ReadSizes
import Tkeycoin.BlockFile
import Tkeycoin.SaveLoad
import Tkeycoin.LookupTables
import Tkeycoin.Reconnection
import Tkeycoin.Lineage
import Tkeycoin.ArrivalOrder
import Tkeycoin.HeaderSync
import Tkeycoin.HeaderExchange
import Tkeycoin.Commitment
import Tkeycoin.Delivery
import Tkeycoin.Inventory
import Tkeycoin.Stepping
import Tkeycoin.MsgCommunicator
import Tkeycoin.KeyedSet
import Tkeycoin.AddressManager
import Tkeycoin.AddressRuns
import Tkeycoin.Arithmetic
import Tkeycoin.NumericRange
import Tkeycoin.ArithmeticRuns
import Tkeycoin.TextStream
import Tkeycoin.JsonSerializer
import Tkeycoin.JsonDecoding
import Tkeycoin.Rpc
import Tkeycoin.AlarmHistory
import Tkeycoin.Timer
import Tkeycoin.Buffer
import Tkeycoin.WsFrame
import Tkeycoin.WsPipe
import Tkeycoin.WsPipeRuns
import Tkeycoin.Splitting
import Tkeycoin.HttpRequest
import Tkeycoin.HttpServer
import Tkeycoin.HttpMessages
import Tkeycoin.HttpRuns
import Tkeycoin.OrderedMatching
import Tkeycoin.MultiSig
import Tkeycoin.Deletion
import Tkeycoin.StackIndex
import Tkeycoin.FlagSets
import Tkeycoin.MinimalPush
import Tkeycoin.Executed
import Tkeycoin.MinimalIf
import Tkeycoin.SignatureOperands
import Tkeycoin.NullFail
import Tkeycoin.ConstScriptCode
import Tkeycoin.OpCodeRules
import Tkeycoin.Commuting
import Tkeycoin.FlagIndependence
import Tkeycoin.Conditionals
import Tkeycoin.StrictDer
import Tkeycoin.NumberEncoding
import Tkeycoin.NumberStream
import Tkeycoin.ScriptWriting
import Tkeycoin.ScriptCode
import Tkeycoin.LockTime
import Tkeycoin.Succession
import Tkeycoin.MerkleBuffer
import Tkeycoin.HashStream
import Tkeycoin.Filling
import Tkeycoin.ObjectReading
import Tkeycoin.HashCache
import Tkeycoin.Radix
import Tkeycoin.Base58
import Tkeycoin.Base58Decoding
import Tkeycoin.Base58RoundTrip
import Tkeycoin.Base58Elements
import Tkeycoin.Base58Check
import Tkeycoin.NumberForms
import Tkeycoin.CommandField
import Tkeycoin.VersionMessage
import Tkeycoin.HeadersMessage
import Tkeycoin.IndexDifferences
import Tkeycoin.Hex
import Tkeycoin.BlobOrder
import Tkeycoin.BlobBytes
import Tkeycoin.BlobText
import Tkeycoin.BlockLocator
import Tkeycoin.BlockAnnouncement
import Tkeycoin.InventoryAnnouncement
import Tkeycoin.AddressView
import Tkeycoin.KeepAlive
import Tkeycoin.SipHash
import Tkeycoin.Scanning
import Tkeycoin.JsonEncoding
import Tkeycoin.JsonSymbols
import Tkeycoin.JsonStrings
import Tkeycoin.JsonBinaries
import Tkeycoin.JsonNumbers
import Tkeycoin.JsonContainers
import Tkeycoin.JsonValues
import Tkeycoin.JsonObjects
import Tkeycoin.JsonRoundTrip
import Tkeycoin.PercentEncoding
import Tkeycoin.HttpUri
import Tkeycoin.HandlerLookup
import Tkeycoin.BaseEncoding
import Tkeycoin.BufferRuns
import Tkeycoin.JsonIntegers
import Tkeycoin.UrlSerializer
import Tkeycoin.Amf3Integers
import Tkeycoin.Amf3Serializer
import Tkeycoin.Amf3RoundTrip
import Tkeycoin.TlvSerializer
import Tkeycoin.TlvRoundTrip
import Tkeycoin.TlvDecoding
import Tkeycoin.MessageWriting
import Tkeycoin.Transmission
import Tkeycoin.MurmurHash
import Tkeycoin.Arena
import Tkeycoin.ArenaRuns
import Tkeycoin.LockedPool
