import Tkeycoin.CommandField
import Tkeycoin.Filling
import Tkeycoin.Handshake
import Tkeycoin.ReadSizes

/-! The version message as it is written, and what becomes of an object that is read from it. -/
namespace Tkeycoin

open Reader Filler

/-- `VariableLengthString::Serialize`. -/
def Serialization.strV (s : Bytes) : Bytes := uintV (UInt64.ofNat s.length) ++ s

namespace NetworkAddress

/-- `NetworkAddress::Serialize`. -/
def serialize (_ignoreTime : Bool) (a : NetworkAddress) : Bytes :=
  (if _ignoreTime then [] else Serialization.uint32 a._time) ++
    (Serialization.uint64 a._services ++ (a._ip ++ Serialization.uint16 a._port))

open Unserialize in
/-- `NetworkAddress::Unserialize`. -/
def filler (_ignoreTime : Bool) : Filler NetworkAddress := all [
  if _ignoreTime then all [] else field uint32 fun _time a => { a with _time },
  field uint64 fun _services a => { a with _services },
  field (bytes 16) fun _ip a => { a with _ip },
  field uint16 fun _port a => { a with _port }]

/-- `setIgnoreTime` unsets the time. The IP address is an array of 16 bytes. -/
structure Timeless (a : NetworkAddress) : Prop where
  time : a._time = 0
  ip : a._ip.length = 16

/-- The address is read into any other, which has no time either. -/
theorem filler_reads {a b : NetworkAddress} (ha : a.Timeless) (hb : b.Timeless) :
    Reads (filler true a) (b.serialize true) (.all b) := by
  obtain ⟨time,services,ip,port⟩ := a
  obtain ⟨time',services',ip',port'⟩ := b
  obtain ⟨rfl,-⟩ := ha
  obtain ⟨rfl,hip⟩ := hb
  refine all_reads (Reads.pure _) ?_
  refine all_reads (field_reads (Unserialize.uint64_reads services') _ _) ?_
  refine all_reads (field_reads (Unserialize.bytes_reads hip) _ _) ?_
  exact all_reads_last (field_reads (Unserialize.uint16_reads port') _ _)

theorem filler_agrees (services : UInt64) (ip : Bytes) (port : UInt16) :
    (filler true).Agrees ⟨0,services,ip,port⟩ (Unserialize.networkAddress true) := by
  have htime : (all [] : Filler NetworkAddress).Agrees ⟨0,services,ip,port⟩
      (do pure ⟨← pure 0,services,ip,port⟩) := rfl
  exact all_cons htime (yields_true _) fun _ _ => all_field fun _ => all_field fun _ => all_field fun _ =>
    all_nil _

end NetworkAddress

namespace strV

open Unserialize in
/-- `VariableLengthString::Unserialize`: the length is read and left, and as many bytes are read as the
string has. -/
def filler : Filler Bytes := all [
  field uintV fun _length s => s,
  fun s => field (bytes s.length) (fun b _ => b) s]

theorem filler_reads {s s' : Bytes} (h : s.length = s'.length) :
    Reads (filler s) (Serialization.strV s') (.all s') := by
  refine all_reads (field_reads (Unserialize.uintV_reads _) _ _) ?_
  exact all_reads_last (field_reads (Unserialize.bytes_reads h.symm) _ _)

/-- A string stays as long as it is. -/
theorem filler_keeps : filler.Keeps List.length := by
  refine all_keeps_cons (field_keeps fun _ _ => rfl) (all_keeps_cons ?_ all_keeps_nil)
  intro a memory s filled t hrun
  rcases field_run hrun with hsame | ⟨b,u,hb,hset⟩
  · rw [hsame]
  · obtain ⟨rfl,-⟩ := Prod.mk.inj (Option.some.inj hb)
    rw [hset,read_length]

theorem filler_agrees : filler.Agrees [] Unserialize.strV := by
  have hbytes : (all [fun s => field (Unserialize.bytes s.length) (fun b _ => b) s] : Filler Bytes).Agrees []
      (Unserialize.bytes 0 >>= pure) :=
    all_cons (f := id) (field_agrees _ _ _) (yields_true _) fun _ _ => all_nil _
  rw [bind_pure] at hbytes
  exact all_field fun _ => hbytes

end strV

namespace Version

/-- `Version::Serialize`. -/
def serialize (v : Version) : Bytes :=
  Serialization.int32 v._version ++ (Serialization.uint64 v._services ++
    (Serialization.int64 v._timestamp ++ (v._addrRecv.serialize true ++ (v._addrFrom.serialize true ++
      (Serialization.uint64 v._nonce ++ (Serialization.strV v._userAgent ++
        (Serialization.int32 v._startHeight ++ Serialization.uint8 v._relay)))))))

open Unserialize in
/-- `Version::Unserialize`. -/
def filler : Filler Version := all [
  field int32 fun _version v => { v with _version },
  field uint64 fun _services v => { v with _services },
  field int64 fun _timestamp v => { v with _timestamp },
  part Version._addrRecv (fun _addrRecv v => { v with _addrRecv }) (NetworkAddress.filler true),
  part Version._addrFrom (fun _addrFrom v => { v with _addrFrom }) (NetworkAddress.filler true),
  field uint64 fun _nonce v => { v with _nonce },
  part Version._userAgent (fun _userAgent v => { v with _userAgent }) strV.filler,
  field int32 fun _startHeight v => { v with _startHeight },
  field uint8 fun _relay v => { v with _relay }]

/-- What the constructors leave. -/
structure Built (v : Version) : Prop where
  addrRecv : v._addrRecv.Timeless
  addrFrom : v._addrFrom.Timeless
  userAgent : v._userAgent.length < 2^64

/-- The default constructor. -/
def default : Version where
  _version := 0
  _services := 0
  _timestamp := 0
  _addrRecv := ⟨0,0,.replicate 16 0,0⟩
  _addrFrom := ⟨0,0,.replicate 16 0,0⟩
  _nonce := 0
  _userAgent := []
  _startHeight := 0
  _relay := 0

theorem default_built : default.Built := ⟨⟨rfl,rfl⟩,⟨rfl,rfl⟩,by decide⟩

theorem filler_reads {a v : Version} (ha : a.Built) (hv : v.Built)
    (hlength : a._userAgent.length = v._userAgent.length) : Reads (filler a) v.serialize (.all v) := by
  refine all_reads (field_reads (Unserialize.int32_reads v._version) _ _) ?_
  refine all_reads (field_reads (Unserialize.uint64_reads v._services) _ _) ?_
  refine all_reads (field_reads (Unserialize.int64_reads v._timestamp) _ _) ?_
  refine all_reads (part_reads (b := v._addrRecv) ?_ _) ?_
  · exact NetworkAddress.filler_reads ha.addrRecv hv.addrRecv
  refine all_reads (part_reads (b := v._addrFrom) ?_ _) ?_
  · exact NetworkAddress.filler_reads ha.addrFrom hv.addrFrom
  refine all_reads (field_reads (Unserialize.uint64_reads v._nonce) _ _) ?_
  refine all_reads (part_reads (b := v._userAgent) ?_ _) ?_
  · exact strV.filler_reads hlength
  refine all_reads (field_reads (Unserialize.int32_reads v._startHeight) _ _) ?_
  exact all_reads_last (field_reads (Unserialize.uint8_reads v._relay) _ _)

theorem filler_keeps : filler.Keeps fun v => v._userAgent.length := by
  refine all_keeps_cons (field_keeps fun _ _ => rfl) ?_
  refine all_keeps_cons (field_keeps fun _ _ => rfl) ?_
  refine all_keeps_cons (field_keeps fun _ _ => rfl) ?_
  refine all_keeps_cons (part_keeps_other _ fun _ _ => rfl) ?_
  refine all_keeps_cons (part_keeps_other _ fun _ _ => rfl) ?_
  refine all_keeps_cons (field_keeps fun _ _ => rfl) ?_
  refine all_keeps_cons (part_keeps strV.filler_keeps fun _ _ h => h) ?_
  refine all_keeps_cons (field_keeps fun _ _ => rfl) ?_
  exact all_keeps_cons (field_keeps fun _ _ => rfl) all_keeps_nil

/-- A new message is filled in as a message is read. -/
theorem filler_agrees : filler.Agrees default Unserialize.version := by
  refine all_field fun _ => all_field fun _ => all_field fun _ => ?_
  refine all_part (NetworkAddress.filler_agrees _ _ _) (yields_true _) fun _ _ => ?_
  refine all_part (NetworkAddress.filler_agrees _ _ _) (yields_true _) fun _ _ => ?_
  refine all_field fun _ => ?_
  refine all_part strV.filler_agrees (yields_true _) fun _ _ => ?_
  exact all_field fun _ => all_field fun _ => all_nil _

/-- A message is read back into an object exactly if the user agent that the object has is as long. -/
theorem filled_iff {a v : Version} (ha : a.Built) (hv : v.Built) (memory : ℕ → UInt8) :
    (∃ t, (filler a).run memory (.ofBytes v.serialize) = some (.all v,t) ∧ t.rest = [] ∧ t.fail = false) ↔
      a._userAgent.length = v._userAgent.length := by
  constructor
  · rintro ⟨t,hrun,-⟩
    exact (filler_keeps _ _ _ _ _ hrun).symm
  · intro hlength
    have hrun := filler_reads ha hv hlength memory [] 0
    rw [List.append_nil] at hrun
    exact ⟨_,hrun,rfl,rfl⟩

end Version

/-- A version message. -/
abbrev VersionMessage := {v : Version // v.Built}

namespace Version

/-- The round trip of a version message, into any object and into a new one. -/
theorem comesBack_iff (v : VersionMessage) (memory : ℕ → UInt8) :
    (∀ a : VersionMessage,
      (∃ t, (filler a.1).run memory (.ofBytes v.1.serialize) = some (.all v.1,t) ∧
          t.rest = [] ∧ t.fail = false) ↔
        a.1._userAgent.length = v.1._userAgent.length) ∧
    ((∃ t, Unserialize.version.run memory (.ofBytes v.1.serialize) = some (v.1,t) ∧
        t.rest = [] ∧ t.fail = false) ↔ v.1._userAgent = []) := by
  refine ⟨fun a => filled_iff a.2 v.2 memory,?_⟩
  simp only [filler_agrees.run_iff]
  rw [filled_iff default_built v.2]
  exact eq_comm.trans List.length_eq_zero_iff

/-- A message with this user agent. -/
def withAgent (agent : Bytes) : Version := { default with _userAgent := agent }

theorem withAgent_built {agent : Bytes} (h : agent.length < 2^64) : (withAgent agent).Built :=
  ⟨⟨rfl,rfl⟩,⟨rfl,rfl⟩,h⟩

/-- The user agent `/` is lost, and its byte is the start height. -/
theorem agent_lost : ¬∀ v : VersionMessage, v.1._userAgent.length ≤ 256 → ∀ memory, ∃ t,
    Unserialize.version.run memory (.ofBytes v.1.serialize) = some (v.1,t) ∧ t.rest = [] ∧ t.fail = false := by
  intro h
  obtain ⟨t,hrun,-⟩ := h ⟨withAgent [0x2f],withAgent_built (by decide)⟩ (by decide) fun _ => 0
  have hagent : (Unserialize.version.run (fun _ => 0) (.ofBytes (withAgent [0x2f]).serialize)).map
      (fun r => r.1._userAgent) = some [0x2f] := by
    rw [hrun]
    rfl
  exact absurd hagent (by decide +kernel)

/-- 85 bytes, and the user agent behind its size. -/
theorem serialize_length {v : Version} (hv : v.Built) : v.serialize.length =
    85 + (Serialization.uintV (UInt64.ofNat v._userAgent.length)).length + v._userAgent.length := by
  have haddress {a : NetworkAddress} (ha : a.Timeless) : (a.serialize true).length = 26 := by
    simp [NetworkAddress.serialize,Serialization.uint64,Serialization.uint16,ha.ip]
  simp only [serialize,Serialization.strV,Serialization.int32,Serialization.int64,Serialization.uint32,
    Serialization.uint64,Serialization.uint8,List.length_append,List.length_cons,List.length_nil,leBytes_length,
    haddress hv.addrRecv,haddress hv.addrFrom]
  omega

/-- A user agent of at most 256 bytes stands behind one byte, or behind three from 253 bytes on. -/
theorem serialize_length_limited {v : Version} (hv : v.Built) (hlimit : v._userAgent.length ≤ 256) :
    v.serialize.length = if v._userAgent.length < 253 then 86 + v._userAgent.length
      else 88 + v._userAgent.length := by
  have hcount : (UInt64.ofNat v._userAgent.length).toNat = v._userAgent.length :=
    UInt64.toNat_ofNat_of_lt' hv.userAgent
  rw [serialize_length hv,Unserialize.uintV_length,hcount]
  generalize v._userAgent.length = n at *
  split_ifs
  all_goals omega

/-- The sizes that are served count a time in both addresses, so short user agents are left out. -/
theorem sized_iff {v : Version} (hv : v.Built) (hlimit : v._userAgent.length ≤ 256) :
    MIN_MESSAGE_SIZE ≤ v.serialize.length ∧ v.serialize.length ≤ MAX_MESSAGE_SIZE ↔
      8 ≤ v._userAgent.length := by
  have hmin : MIN_MESSAGE_SIZE = 94 := rfl
  have hmax : MAX_MESSAGE_SIZE = 351 := rfl
  rw [serialize_length_limited hv hlimit,hmin,hmax]
  generalize v._userAgent.length = n at *
  split_ifs
  all_goals omega

/-- The header that a version message is sent with. -/
def header (v : Version) : MessageHeader :=
  Message.buildHeader ("version".toList.map fun c => UInt8.ofNat c.toNat) [v.serialize]

theorem header_eq (v : Version) : v.header = .make Magic.main ("version".toList.map fun c => UInt8.ofNat c.toNat)
    (UInt64.ofNat v.serialize.length) (payloadChecksum v.serialize) := by
  rw [header,Message.buildHeader_eq,List.flatten_singleton]

theorem header_length {v : Version} (h : v.serialize.length < 2^32) :
    v.header._length.toNat = v.serialize.length := by
  rw [header_eq,MessageHeader.make,UInt64.toNat_toUInt32,UInt64.toNat_ofNat']
  omega

/-- What a handshake finds that is sent a version message, whatever is sent behind it. -/
theorem ahead_version {v : Version} (hv : v.Built) (hlimit : v._userAgent.length ≤ 256)
    {magic : MessageHeader → Bool} (hmagic : magic v.header = true) (rest : Bytes) :
    ahead magic "version" sized (v.header.serialize ++ (v.serialize ++ rest)) =
      if 8 ≤ v._userAgent.length then .message v.header v.serialize else .badLength := by
  have hcommand : v.header._command.length = 12 := by
    rw [header_eq]
    rfl
  have hname : isCommand v.header.command "version" = true := by
    rw [header_eq]
    rfl
  have hsize : v.header.serialize.length = MessageHeader.HEADER_SIZE := by
    simp [MessageHeader.serialize,Serialization.uint32,hcommand,MessageHeader.HEADER_SIZE]
  have hback := MessageHeader.Unserialize_serialize hcommand (v.serialize ++ rest)
  have hchecksum := MsgPipe.checksum_eq (l := v.header.serialize ++ (v.serialize ++ rest))
  have hshort : v.serialize.length < 2^32 := by
    rw [serialize_length_limited hv hlimit]
    split_ifs
    all_goals omega
  have hlength := header_length hshort
  have hpayload : ((v.header.serialize ++ (v.serialize ++ rest)).drop MessageHeader.HEADER_SIZE).take
      v.serialize.length = v.serialize := by
    rw [← hsize,List.drop_left,List.take_left]
  rw [hback] at hchecksum
  have hsized : sized v.serialize.length = true ↔ 8 ≤ v._userAgent.length := by
    rw [← sized_iff hv hlimit,sized]
    simp
  unfold ahead
  simp only [hback,hmagic,hname,hlength,hpayload,← hchecksum]
  rw [if_neg (by simp [hsize]),if_neg (by simp),if_neg (by simp)]
  by_cases hagent : 8 ≤ v._userAgent.length
  · rw [if_pos hagent,if_neg (by simp [hsized.mpr hagent]),if_neg (by simp [hsize]),if_neg (by simp)]
  · have hrefused := mt hsized.mp hagent
    rw [if_neg hagent,if_pos hrefused]

/-- The sizes and both sides of the handshake: a version message is within the bounds, and the message is
found, exactly if its user agent is not too short. -/
theorem bounds_iff (v : VersionMessage) (hlimit : v.1._userAgent.length ≤ 256) (rest : Bytes) :
    (MIN_MESSAGE_SIZE ≤ v.1.serialize.length ∧ v.1.serialize.length ≤ MAX_MESSAGE_SIZE ↔
      8 ≤ v.1._userAgent.length) ∧
    (ahead MessageHeader.knownMagic "version" sized (v.1.header.serialize ++ (v.1.serialize ++ rest)) =
      if 8 ≤ v.1._userAgent.length then .message v.1.header v.1.serialize else .badLength) ∧
    ahead MsgClient.mainMagic "version" sized (v.1.header.serialize ++ (v.1.serialize ++ rest)) =
      if 8 ≤ v.1._userAgent.length then .message v.1.header v.1.serialize else .badLength := by
  have hknown : MessageHeader.knownMagic v.1.header = true := by
    rw [header_eq]
    rfl
  have hmain : MsgClient.mainMagic v.1.header = true := by
    rw [header_eq]
    rfl
  exact ⟨sized_iff v.2 hlimit,ahead_version v.2 hlimit hknown rest,ahead_version v.2 hlimit hmain rest⟩

/-- A user agent of eight bytes is long enough. -/
theorem bounds_eight : MIN_MESSAGE_SIZE ≤ (withAgent (.replicate 8 0x2f)).serialize.length ∧
    (withAgent (.replicate 8 0x2f)).serialize.length ≤ MAX_MESSAGE_SIZE :=
  (bounds_iff ⟨withAgent (.replicate 8 0x2f),withAgent_built (by decide)⟩ (by decide) []).1.mpr (by decide)

/-- A message without a user agent has 86 bytes, 8 too few. -/
theorem no_agent_refused : ¬∀ v : VersionMessage, v.1._userAgent.length ≤ 256 →
    MIN_MESSAGE_SIZE ≤ v.1.serialize.length ∧ v.1.serialize.length ≤ MAX_MESSAGE_SIZE := by
  intro h
  have hbounds := h ⟨default,default_built⟩ (by decide)
  exact absurd hbounds (by decide +kernel)

end Version

end Tkeycoin
