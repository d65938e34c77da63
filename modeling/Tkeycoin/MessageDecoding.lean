import Tkeycoin.Message
import Tkeycoin.MsgPipeRuns

/-! Whether what a message is decoded from is what it was sent with. -/
namespace Tkeycoin

/-- What decoding depends on besides the payload: the sizes the allocator serves, what stands
in variables that no read has set, and whether the message can be logged. -/
structure Runtime where
  fits : ℕ → Bool
  memory : ℕ → UInt8
  logs : Message → Bool

namespace Runtime

variable (runtime : Runtime)

/-- The decoding of a payload in `MsgPipe::processing`, with the stream it leaves. `none` is an
exception that is caught there. -/
def decode (command payload : Bytes) : Option (Message × IStream) := do
  let reader ← MessageFactory.create runtime.fits command
  let (msg,is) ← reader.run runtime.memory (.ofBytes payload)
  if runtime.logs msg then some (msg,is) else none

end Runtime

namespace MsgPipe

/-- A handler in the light of the messages handed to it. -/
abbrev Handler := List (Handed (Message × IStream)) → HandlerResult

/-- A node with the messages of the factory. -/
def node (runtime : Runtime) (handle : Handler) : Node (Message × IStream) := ⟨runtime.decode,handle⟩

/-- The payload was read to its end, and not beyond. -/
def Consumed (f : Handed (Message × IStream)) : Prop := f.msg.2.rest = [] ∧ f.msg.2.fail = false

/-- A payload is as long as the fields and sizes in it make a message of its type. -/
def WellFormed (fits : ℕ → Bool) (command payload : Bytes) : Prop :=
  ∃ reader, MessageFactory.create fits command = some reader ∧ reader.Consumes payload

theorem consumed_iff_wellFormed {runtime : Runtime} {f : Handed (Message × IStream)}
    (h : runtime.decode f.header.command f.payload = some f.msg) :
    Consumed f ↔ WellFormed runtime.fits f.header.command f.payload := by
  simp only [Runtime.decode,bind,Option.bind_eq_some_iff] at h
  obtain ⟨reader,hcreate,⟨msg,is⟩,hrun,hlogs⟩ := h
  split_ifs at hlogs
  rw [Consumed,← Option.some.inj hlogs,Reader.run_exact_iff hrun]
  constructor
  · intro hconsumes
    exact ⟨reader,hcreate,hconsumes⟩
  · rintro ⟨reader',hcreate',hconsumes⟩
    rwa [Option.some.inj (hcreate.symm.trans hcreate')]

/-- Over all the ways a stream is split, the messages handed on were decoded from all of their
payloads and nothing else exactly if the payloads at its front are well formed: neither the
end of the stream nor what is left of it is looked at. -/
theorem consumed_iff (runtime : Runtime) (handle : Handler) (stream : Bytes) :
    (∀ segments, segments.flatten = stream →
        ∀ f ∈ (receive (node runtime handle) segments).handed, Consumed f) ↔
      ∀ f ∈ (framing (node runtime handle)).accepted (stops (node runtime handle)) [] stream,
        WellFormed runtime.fits f.header.command f.payload := by
  rw [forall_handed_iff]
  refine forall₂_congr fun f hf => ?_
  exact consumed_iff_wellFormed (accepted_create (node runtime handle) hf)

/-- A `ping` of the main network without its nonce, and with the checksum of that. -/
def shortPing : Bytes :=
  [0xaa,0xaf,0xfe,0x34,112,105,110,103] ++ List.replicate 12 0 ++ [0x5d,0xf6,0xe0,0xe2]

/-- A runtime that serves all sizes, and logs all messages, in memory of zeros. -/
def plainRuntime : Runtime := ⟨fun _ => true,fun _ => 0,fun _ => true⟩

/-- A message is handed to the context that was read beyond the end of its payload. -/
theorem short_payload_handed :
    ¬ ∀ (runtime : Runtime) (handle : Handler) (segments : List Bytes),
      ∀ f ∈ (receive (node runtime handle) segments).handed, Consumed f := by
  intro h
  have hhanded : (receive (node plainRuntime fun _ => ⟨false,false⟩) [shortPing]).handed =
      [⟨⟨0x34FEAFAA,[112,105,110,103,0,0,0,0,0,0,0,0],0,0xe2e0f65d⟩,[],(.ping 0,⟨[],true,8⟩)⟩] := rfl
  have hconsumed := h plainRuntime (fun _ => ⟨false,false⟩) [shortPing] _
    (hhanded ▸ List.mem_singleton_self _)
  exact absurd hconsumed.2 (by decide)

end MsgPipe
end Tkeycoin
