import Tkeycoin.Unserialize

/-! The messages that are registered with `MessageFactory`, and what they read. -/
namespace Tkeycoin

/-- Without a time in version messages. -/
structure NetworkAddress where
  _time : UInt32
  _services : UInt64
  _ip : Bytes
  _port : UInt16
  deriving DecidableEq

structure InventoryVector where
  _type : UInt32
  _hash : uint256
  deriving DecidableEq

structure PrefilledTransaction where
  _index : UInt32
  _tx : Transaction
  deriving DecidableEq

structure HeaderAndShortIDs where
  _header : BlockHeader
  _nonce : UInt64
  _shortIds : List (Blob 48)
  _prefilledTxn : List PrefilledTransaction
  deriving DecidableEq

structure BlockTransactions where
  _blockhash : uint256
  _transactions : List Transaction
  deriving DecidableEq

structure BlockTransactionsRequest where
  _hash : uint256
  _indexes : List UInt64
  deriving DecidableEq

/-- What `GetBlocks` and `GetHeaders` ask for. -/
structure BlocksRequest where
  _version : UInt32
  _locatorHashes : List uint256
  _stopHash : uint256
  deriving DecidableEq

structure Version where
  _version : Int32
  _services : UInt64
  _timestamp : Int64
  _addrRecv : NetworkAddress
  _addrFrom : NetworkAddress
  _nonce : UInt64
  _userAgent : Bytes
  _startHeight : Int32
  _relay : UInt8
  deriving DecidableEq

inductive Message
  | addr (_list : List NetworkAddress)
  | block (_block : Block)
  | blockTxn (_transactions : BlockTransactions)
  | cmpctBlock (_headerAndShortIDs : HeaderAndShortIDs)
  | feeFilter (_feeRate : UInt64)
  | getAddr
  | getBlockTxn (_request : BlockTransactionsRequest)
  | getBlocks (_request : BlocksRequest)
  | getData (_list : List InventoryVector)
  | getHeaders (_request : BlocksRequest)
  | headers (_headers : List BlockHeader)
  | inv (_list : List InventoryVector)
  | notFound (_list : List InventoryVector)
  | ping (_nonce : UInt64)
  | pong (_nonce : UInt64)
  | sendCmpct (_announce : UInt8) (_version : UInt64)
  | sendHeaders
  | tx (_tx : Transaction)
  | verack (_knownChains : List UInt32)
  | version (_version : Version)
  deriving DecidableEq

namespace Unserialize

/-- The time is only read where `_ignoreTime` is not set. -/
def networkAddress (_ignoreTime : Bool) : Reader NetworkAddress := do
  let _time ← if _ignoreTime then pure 0 else uint32
  let _services ← uint64
  let _ip ← bytes 16
  let _port ← uint16
  pure ⟨_time,_services,_ip,_port⟩

def inventoryVector : Reader InventoryVector := do
  let type ← uint32
  let _hash ← blob 256
  pure ⟨type,_hash⟩

/-- Of `strV`: the length is read, but the string is not made that long. -/
def strV : Reader Bytes := do
  let _length ← uintV
  bytes 0

def version : Reader Version := do
  let _version ← int32
  let _services ← uint64
  let _timestamp ← int64
  let _addrRecv ← networkAddress true
  let _addrFrom ← networkAddress true
  let _nonce ← uint64
  let _userAgent ← strV
  let _startHeight ← int32
  let _relay ← uint8
  pure ⟨_version,_services,_timestamp,_addrRecv,_addrFrom,_nonce,_userAgent,_startHeight,_relay⟩

/-- Indexes come as differences. An index of `2^32 - 1` looks like none before it. -/
def indexes : UInt32 → List UInt64 → List UInt64
  | _, [] => []
  | prev, index :: rest =>
    let index := if prev = 0xffffffff then index else index + prev.toUInt64 + 1
    index :: indexes index.toUInt32 rest

variable (fits : ℕ → Bool)

def prefilledTransaction : Reader PrefilledTransaction := do
  let index ← uintV
  let _tx ← transaction fits
  pure ⟨index.toUInt32,_tx⟩

def headerAndShortIDs : Reader HeaderAndShortIDs := do
  let _header ← blockHeader
  let _nonce ← uint64
  let _shortIds ← sizeAnd fits (blob 48)
  let _prefilledTxn ← sizeAnd fits (prefilledTransaction fits)
  pure ⟨_header,_nonce,_shortIds,_prefilledTxn⟩

def blockTransactions : Reader BlockTransactions := do
  let _blockhash ← blob 256
  let _transactions ← sizeAnd fits (transaction fits)
  pure ⟨_blockhash,_transactions⟩

def blockTransactionsRequest : Reader BlockTransactionsRequest := do
  let _hash ← blob 256
  let _indexes ← sizeAnd fits uintV
  pure ⟨_hash,indexes 0xffffffff _indexes⟩

def blocksRequest : Reader BlocksRequest := do
  let _version ← uint32
  let _locatorHashes ← sizeAnd fits (blob 256)
  let _stopHash ← blob 256
  pure ⟨_version,_locatorHashes,_stopHash⟩

/-- Headers come with the number of their transactions, which is not used. -/
def headers : Reader (List BlockHeader) :=
  sizeAnd fits do
    let header ← blockHeader
    let _txCount ← uintV
    pure header

/-- A vector of integers is read at once. -/
def knownChains : Reader (List UInt32) := do
  let size ← uintV
  let count ← allocate fits size
  let b ← bytes (4 * count)
  pure ((List.range count).map fun i => UInt32.ofNat (leValue ((b.drop (4 * i)).take 4)))

end Unserialize

/-- Whether the name of a message is this one. -/
def isCommand (name : Bytes) (command : String) : Bool :=
  name = command.toList.map fun c => UInt8.ofNat c.toNat

/-- `MessageFactory::create`, with the `Unserialize` of what it creates. Messages that are not
registered are unknown. -/
def MessageFactory.create (fits : ℕ → Bool) (name : Bytes) : Option (Reader Message) :=
  open Unserialize in
  if isCommand name "addr" then some do pure (.addr (← sizeAnd fits (networkAddress false)))
  else if isCommand name "block" then some do pure (.block (← block fits))
  else if isCommand name "blocktxn" then some do pure (.blockTxn (← blockTransactions fits))
  else if isCommand name "cmpctblock" then some do pure (.cmpctBlock (← headerAndShortIDs fits))
  else if isCommand name "feefilter" then some do pure (.feeFilter (← uint64))
  else if isCommand name "getaddr" then some (pure .getAddr)
  else if isCommand name "getblocktxn" then some do pure (.getBlockTxn (← blockTransactionsRequest fits))
  else if isCommand name "getblocks" then some do pure (.getBlocks (← blocksRequest fits))
  else if isCommand name "getdata" then some do pure (.getData (← sizeAnd fits inventoryVector))
  else if isCommand name "getheaders" then some do pure (.getHeaders (← blocksRequest fits))
  else if isCommand name "headers" then some do pure (.headers (← headers fits))
  else if isCommand name "inv" then some do pure (.inv (← sizeAnd fits inventoryVector))
  else if isCommand name "notfound" then some do pure (.notFound (← sizeAnd fits inventoryVector))
  else if isCommand name "ping" then some do pure (.ping (← uint64))
  else if isCommand name "pong" then some do pure (.pong (← uint64))
  else if isCommand name "sendcmpct" then some do pure (.sendCmpct (← uint8) (← uint64))
  else if isCommand name "sendheaders" then some (pure .sendHeaders)
  else if isCommand name "tx" then some do pure (.tx (← transaction fits))
  else if isCommand name "verack" then some do pure (.verack (← knownChains fits))
  else if isCommand name "version" then some do pure (.version (← version))
  else none

end Tkeycoin
