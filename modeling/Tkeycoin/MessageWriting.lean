import Tkeycoin.HeadersMessage
import Tkeycoin.IndexDifferences
import Tkeycoin.MessageDecoding
import Tkeycoin.VersionMessage

/-! The messages of the factory as they are written, and which of them are read back. -/
namespace Tkeycoin

open Reader

/-- `size_and_` of a vector that is written element by element. -/
def Serialization.sizeAndEach {α : Type} (element : α → Bytes) (l : List α) : Bytes :=
  uintV (UInt64.ofNat l.length) ++ l.flatMap element

def InventoryVector.serialize (v : InventoryVector) : Bytes :=
  Serialization.uint32 v._type ++ Serialization.blob v._hash

def PrefilledTransaction.serialize (p : PrefilledTransaction) : Bytes :=
  Serialization.uintV p._index.toUInt64 ++ p._tx.serialize

def HeaderAndShortIDs.serialize (h : HeaderAndShortIDs) : Bytes :=
  h._header.serialize ++ (Serialization.uint64 h._nonce ++
    (Serialization.sizeAndEach Serialization.blob h._shortIds ++
      Serialization.sizeAndEach PrefilledTransaction.serialize h._prefilledTxn))

def BlockTransactions.serialize (t : BlockTransactions) : Bytes :=
  Serialization.blob t._blockhash ++ Serialization.sizeAndEach Transaction.serialize t._transactions

/-- `GetBlocks::Serialize` and `GetHeaders::Serialize`. -/
def BlocksRequest.serialize (r : BlocksRequest) : Bytes :=
  Serialization.uint32 r._version ++ (Serialization.sizeAndEach Serialization.blob r._locatorHashes ++
    Serialization.blob r._stopHash)

namespace Message

/-- `Command()` of each class: its name in lower case. -/
def command : Message → String
  | .addr _ => "addr"
  | .block _ => "block"
  | .blockTxn _ => "blocktxn"
  | .cmpctBlock _ => "cmpctblock"
  | .feeFilter _ => "feefilter"
  | .getAddr => "getaddr"
  | .getBlockTxn _ => "getblocktxn"
  | .getBlocks _ => "getblocks"
  | .getData _ => "getdata"
  | .getHeaders _ => "getheaders"
  | .headers _ => "headers"
  | .inv _ => "inv"
  | .notFound _ => "notfound"
  | .ping _ => "ping"
  | .pong _ => "pong"
  | .sendCmpct _ _ => "sendcmpct"
  | .sendHeaders => "sendheaders"
  | .tx _ => "tx"
  | .verack _ => "verack"
  | .version _ => "version"

/-- `Serialize` of each class. A vector of integers is written at once, which comes to the same. -/
def serialize : Message → Bytes
  | .addr _list => Serialization.sizeAndEach (NetworkAddress.serialize false) _list
  | .block _block => _block.serialize
  | .blockTxn _transactions => _transactions.serialize
  | .cmpctBlock _headerAndShortIDs => _headerAndShortIDs.serialize
  | .feeFilter _feeRate => Serialization.uint64 _feeRate
  | .getAddr => []
  | .getBlockTxn _request => _request.serialize
  | .getBlocks _request => _request.serialize
  | .getData _list => Serialization.sizeAndEach InventoryVector.serialize _list
  | .getHeaders _request => _request.serialize
  | .headers _headers => Headers.serialize _headers
  | .inv _list => Serialization.sizeAndEach InventoryVector.serialize _list
  | .notFound _list => Serialization.sizeAndEach InventoryVector.serialize _list
  | .ping _nonce => Serialization.uint64 _nonce
  | .pong _nonce => Serialization.uint64 _nonce
  | .sendCmpct _announce _version => Serialization.uint8 _announce ++ Serialization.uint64 _version
  | .sendHeaders => []
  | .tx _tx => _tx.serialize
  | .verack _knownChains => Serialization.sizeAndEach Serialization.uint32 _knownChains
  | .version _version => _version.serialize

end Message

namespace Unserialize

variable {fits : ℕ → Bool}

theorem networkAddress_reads {a : NetworkAddress} (h : a._ip.length = 16) :
    Reads (networkAddress false) (a.serialize false) a := by
  have hservices := uint64_reads a._services
  have hip := bytes_reads h
  have hport := uint16_reads a._port
  exact (uint32_reads a._time).bind (hservices.bind (hip.bind (hport.last rfl)))

theorem inventoryVector_reads (v : InventoryVector) : Reads inventoryVector v.serialize v :=
  (uint32_reads v._type).bind ((blob_reads v._hash).last rfl)

theorem prefilledTransaction_reads {p : PrefilledTransaction} (h : Readable fits p._tx) :
    Reads (prefilledTransaction fits) p.serialize p := by
  refine (uintV_reads p._index.toUInt64).bind ((transaction_reads h).last ?_)
  rw [UInt32.toUInt32_toUInt64]

/-- A vector is read back if its elements are. -/
theorem each_reads {α : Type} {p : Reader α} {element : α → Bytes} {l : List α} (hl : Sized fits l.length)
    (h : ∀ a ∈ l, Reads p (element a) a) :
    Reads (sizeAnd fits p) (Serialization.sizeAndEach element l) l := by
  have hread := sizeAnd_reads hl h
  rwa [List.map_id'] at hread

theorem block_reads {b : Block} (hsized : Sized fits b.txList.length) (h : ∀ tx ∈ b.txList, Readable fits tx) :
    Reads (block fits) b.serialize b :=
  (blockHeader_reads b.header).bind ((each_reads hsized fun tx htx => transaction_reads (h tx htx)).last rfl)

theorem blockTransactions_reads {t : BlockTransactions} (hsized : Sized fits t._transactions.length)
    (h : ∀ tx ∈ t._transactions, Readable fits tx) : Reads (blockTransactions fits) t.serialize t :=
  (blob_reads t._blockhash).bind ((each_reads hsized fun tx htx => transaction_reads (h tx htx)).last rfl)

theorem headerAndShortIDs_reads {h : HeaderAndShortIDs} (hids : Sized fits h._shortIds.length)
    (htxn : Sized fits h._prefilledTxn.length) (hread : ∀ p ∈ h._prefilledTxn, Readable fits p._tx) :
    Reads (headerAndShortIDs fits) h.serialize h := by
  have hshort := each_reads hids fun id _ => blob_reads id
  have hprefilled := each_reads htxn fun p hp => prefilledTransaction_reads (hread p hp)
  exact (blockHeader_reads h._header).bind ((uint64_reads h._nonce).bind
    (hshort.bind (hprefilled.last rfl)))

theorem blocksRequest_reads {r : BlocksRequest} (h : Sized fits r._locatorHashes.length) :
    Reads (blocksRequest fits) r.serialize r :=
  (uint32_reads r._version).bind ((each_reads h fun hash _ => blob_reads hash).bind
    ((blob_reads r._stopHash).last rfl))

/-- The integers of a vector that was read at once. -/
theorem knownChains_back (l : List UInt32) :
    (List.range l.length).map (fun i => UInt32.ofNat (leValue (((l.flatMap Serialization.uint32).drop
      (4 * i)).take 4))) = l := by
  induction l with
  | nil => rfl
  | cons n l ih =>
    have hfour : (Serialization.uint32 n).length = 4 := leBytes_length 4 _
    have hfirst : UInt32.ofNat (leValue (((Serialization.uint32 n ++ l.flatMap Serialization.uint32).drop
        (4 * 0)).take 4)) = n := by
      rw [Nat.mul_zero,List.drop_zero,← hfour,List.take_left]
      have hlt : n.toNat < 256 ^ 4 := n.toNat_lt
      rw [Serialization.uint32,leValue_leBytes,Nat.mod_eq_of_lt hlt,UInt32.ofNat_toNat]
    have hbehind (i : ℕ) : (Serialization.uint32 n ++ l.flatMap Serialization.uint32).drop (4 * (i + 1)) =
        (l.flatMap Serialization.uint32).drop (4 * i) := by
      rw [Nat.mul_succ,Nat.add_comm,← List.drop_drop,← hfour,List.drop_left]
    rw [List.length_cons,List.range_succ_eq_map,List.map_cons,List.flatMap_cons,hfirst,List.map_map]
    refine congrArg (n :: ·) (Eq.trans ?_ ih)
    apply List.map_congr_left
    intro i _
    simp only [Function.comp_apply,Nat.succ_eq_add_one,hbehind]

theorem knownChains_reads {l : List UInt32} (h : Sized fits l.length) :
    Reads (knownChains fits) (Serialization.sizeAndEach Serialization.uint32 l) l := by
  have hlength : (l.flatMap Serialization.uint32).length = 4 * l.length := by
    simp [List.length_flatMap,Serialization.uint32,Nat.mul_comm]
  exact sized_reads h ((bytes_reads hlength).last (congrArg pure (knownChains_back l)))

/-- A request comes back if its differences add up. -/
theorem blockTransactionsRequest_reads {r : BlockTransactionsRequest} (hsized : Sized fits r._indexes.length)
    (h : ∀ index ∈ r._indexes.take (r._indexes.length - 2), index.toUInt32 = 0xffffffff) :
    Reads (blockTransactionsRequest fits) r.serialize r := by
  have hread := BlockTransactionsRequest.serialize_reads hsized
  have hback : Unserialize.indexes 0xffffffff (BlockTransactionsRequest.differences 0xffffffff r._indexes) =
      r._indexes := (BlockTransactionsRequest.back_iff r._indexes).mpr h
  rwa [hback] at hread

theorem headers_reads (h : fits 0 = true) : Reads (headers fits) (Headers.serialize []) [] :=
  @sizeAnd_reads fits BlockHeader BlockHeader _ BlockHeader.serialize id [] ⟨Nat.two_pow_pos 64,h⟩ nofun

/-- A new version message has no user agent, and so reads none. -/
theorem version_reads {v : Version} (hv : v.Built) (hagent : v._userAgent = []) :
    Reads version v.serialize v := by
  intro memory rest unset
  have hread := Version.filler_reads Version.default_built hv (by rw [hagent]; rfl) memory rest unset
  exact (Version.filler_agrees.run_iff ..).mpr hread

end Unserialize

namespace Message

open Unserialize

/-- A message that is read back: its vectors have room, its transactions come back, and what is lost on
the way is not there. -/
def Sound (fits : ℕ → Bool) : Message → Prop
  | .addr _list => Sized fits _list.length ∧ ∀ a ∈ _list, a._ip.length = 16
  | .block _block => Sized fits _block.txList.length ∧ ∀ tx ∈ _block.txList, Readable fits tx
  | .blockTxn t => Sized fits t._transactions.length ∧ ∀ tx ∈ t._transactions, Readable fits tx
  | .cmpctBlock h => Sized fits h._shortIds.length ∧ Sized fits h._prefilledTxn.length ∧
      ∀ p ∈ h._prefilledTxn, Readable fits p._tx
  | .getBlockTxn r => Sized fits r._indexes.length ∧
      ∀ index ∈ r._indexes.take (r._indexes.length - 2), index.toUInt32 = 0xffffffff
  | .getBlocks r => Sized fits r._locatorHashes.length
  | .getData _list => Sized fits _list.length
  | .getHeaders r => Sized fits r._locatorHashes.length
  | .headers _headers => _headers = [] ∧ fits 0 = true
  | .inv _list => Sized fits _list.length
  | .notFound _list => Sized fits _list.length
  | .tx _tx => Readable fits _tx
  | .verack _knownChains => Sized fits _knownChains.length
  | .version v => v.Built ∧ v._userAgent = []
  | .feeFilter _ => True
  | .getAddr => True
  | .ping _ => True
  | .pong _ => True
  | .sendCmpct _ _ => True
  | .sendHeaders => True

/-- The name of a message, as the field of a header has it. -/
def name (m : Message) : Bytes := m.command.toList.map fun c => UInt8.ofNat c.toNat

/-- `Unserialize` of the class of a message. -/
def reader (fits : ℕ → Bool) : Message → Reader Message
  | .addr _ => do pure (.addr (← sizeAnd fits (networkAddress false)))
  | .block _ => do pure (.block (← Unserialize.block fits))
  | .blockTxn _ => do pure (.blockTxn (← blockTransactions fits))
  | .cmpctBlock _ => do pure (.cmpctBlock (← headerAndShortIDs fits))
  | .feeFilter _ => do pure (.feeFilter (← uint64))
  | .getAddr => pure .getAddr
  | .getBlockTxn _ => do pure (.getBlockTxn (← blockTransactionsRequest fits))
  | .getBlocks _ => do pure (.getBlocks (← blocksRequest fits))
  | .getData _ => do pure (.getData (← sizeAnd fits inventoryVector))
  | .getHeaders _ => do pure (.getHeaders (← blocksRequest fits))
  | .headers _ => do pure (.headers (← Unserialize.headers fits))
  | .inv _ => do pure (.inv (← sizeAnd fits inventoryVector))
  | .notFound _ => do pure (.notFound (← sizeAnd fits inventoryVector))
  | .ping _ => do pure (.ping (← uint64))
  | .pong _ => do pure (.pong (← uint64))
  | .sendCmpct _ _ => do pure (.sendCmpct (← uint8) (← uint64))
  | .sendHeaders => pure .sendHeaders
  | .tx _ => do pure (.tx (← transaction fits))
  | .verack _ => do pure (.verack (← knownChains fits))
  | .version _ => do pure (.version (← Unserialize.version))

/-- The factory makes a message of the same class. -/
theorem create_name (fits : ℕ → Bool) (m : Message) :
    MessageFactory.create fits m.name = some (m.reader fits) := by
  cases m
  all_goals
    simp only [name,command,reader]
    rfl

theorem name_fits (m : Message) : 0 ∉ m.name ∧ m.name.length ≤ 12 := by
  apply MessageFactory.create_name fun _ => true
  rw [create_name]
  rfl

/-- What a sound message has written is read back. -/
theorem reader_reads {fits : ℕ → Bool} {m : Message} (h : m.Sound fits) :
    Reads (m.reader fits) m.serialize m := by
  cases m with
  | addr l => exact (each_reads h.1 fun a ha => networkAddress_reads (h.2 a ha)).map Message.addr
  | block b => exact (block_reads h.1 h.2).map Message.block
  | blockTxn t => exact (blockTransactions_reads h.1 h.2).map Message.blockTxn
  | cmpctBlock c => exact (headerAndShortIDs_reads h.1 h.2.1 h.2.2).map Message.cmpctBlock
  | feeFilter n => exact (uint64_reads n).map Message.feeFilter
  | getAddr => exact .pure _
  | getBlockTxn r => exact (blockTransactionsRequest_reads h.1 h.2).map Message.getBlockTxn
  | getBlocks r => exact (blocksRequest_reads h).map Message.getBlocks
  | getData l => exact (each_reads h fun v _ => inventoryVector_reads v).map Message.getData
  | getHeaders r => exact (blocksRequest_reads h).map Message.getHeaders
  | headers l =>
    obtain ⟨rfl,hfits⟩ := h
    exact (headers_reads hfits).map Message.headers
  | inv l => exact (each_reads h fun v _ => inventoryVector_reads v).map Message.inv
  | notFound l => exact (each_reads h fun v _ => inventoryVector_reads v).map Message.notFound
  | ping n => exact (uint64_reads n).map Message.ping
  | pong n => exact (uint64_reads n).map Message.pong
  | sendCmpct a n =>
    have hversion := (uint64_reads n).map (Message.sendCmpct a)
    exact (uint8_reads a).bind hversion
  | sendHeaders => exact .pure _
  | tx tx => exact (transaction_reads h).map Message.tx
  | verack l => exact (knownChains_reads h).map Message.verack
  | version v => exact (version_reads h.1 h.2).map Message.version

end Message
end Tkeycoin
