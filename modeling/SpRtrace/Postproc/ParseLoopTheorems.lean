/-
SpRtrace.Postproc.ParseLoopTheorems — the packet loop of the binary parser.

Two results about `read_binary_data`, both with the rules of
`Lib.PacketLoop`. The trace data it builds is that of its packets, one
after the other, however the stream was cut into reads
(`readBinaryData_chunks`). And it stays inside its buffer as long as the
declared lengths are those of packets that fit (`binaryLoop_framesOk`).
-/
import Mathlib
import SpRtrace.Common.RtraceDataTheorems
import SpRtrace.Postproc.ParseBinary

namespace SpRtrace.Postproc

open SpRtrace.Common SpRtrace.Lib

variable {w : Nat} {origin : Str} {hs : Hshake}

/-! ## Readers -/

theorem regular_readHeader (hs : Hshake) : Regular (readHeader hs) := by
  unfold readHeader
  split <;> exact regular_readDword.bind fun _ => regular_readDword.bind fun _ => Regular.pure _

theorem consumes_readHeader (hs : Hshake) : Consumes (readHeader hs) 8 := by
  unfold readHeader
  split <;> exact consumes_readDword.bind fun _ => consumes_readDword.bind fun _ => Consumes.pure _

/-- Eight bytes are a header. -/
theorem readHeader_of_length (hs : Hshake) {bs : List UInt8} (h : 8 ≤ bs.length) :
    ∃ type len rest, readHeader hs bs = some ((type, len), rest) := by
  obtain ⟨a, ha⟩ := readDword_of_length (show 4 ≤ bs.length by omega)
  obtain ⟨b, hb⟩ := readDword_of_length (show 4 ≤ (bs.drop 4).length by
    rw [List.length_drop]; omega)
  unfold readHeader
  split
  · exact ⟨b, a + 4, _, by simp only [reader_bind, ha, hb, Option.bind_some]; rfl⟩
  · exact ⟨a, b + 8, _, by simp only [reader_bind, ha, hb, Option.bind_some]; rfl⟩

theorem regular_readPacketRR (hs : Hshake) : Regular (readPacketRR hs : Reader (Resource w)) := by
  have hstrings : ∀ id flags, Regular (do
      let type ← readStringa
      let desc ← readStringa
      pure ({ id, type, desc, flags, hide := false } : Resource w)) := fun _ _ =>
    regular_readStringa.bind fun _ => regular_readStringa.bind fun _ => Regular.pure _
  refine regular_readDword2long.bind fun id => ?_
  split
  · exact regular_readDword.bind (hstrings id)
  · exact (Regular.pure _).bind (hstrings id)

theorem regular_readPacketPI (origin : Str) (hs : Hshake) : Regular (readPacketPI origin hs) := by
  refine regular_readDword.bind fun _ => regular_readDword.bind fun _ =>
    regular_readDword.bind fun _ => ?_
  split
  · exact regular_readDword.bind fun _ => regular_readStringa.bind fun _ => Regular.pure _
  · exact (Regular.pure _).bind fun _ => regular_readStringa.bind fun _ => Regular.pure _

theorem regular_readPacketFC : Regular (readPacketFC : Reader (FcPacket w)) :=
  regular_readDword2long.bind fun _ => regular_readDword.bind fun _ =>
    regular_readDword.bind fun _ => regular_readDword.bind fun _ =>
      regular_readStringa.bind fun _ => regular_readDword.bind fun _ =>
        regular_readPointer.bind fun _ => Regular.pure _

theorem regular_readPacketHI : Regular (readPacketHI : Reader (Hinfo w)) :=
  regular_readPointer.bind fun _ => regular_readPointer.bind fun _ =>
    regular_readDword.bind fun _ => regular_readDword.bind fun _ =>
    regular_readDword.bind fun _ => regular_readDword.bind fun _ =>
    regular_readDword.bind fun _ => regular_readDword.bind fun _ =>
    regular_readDword.bind fun _ => regular_readDword.bind fun _ =>
    regular_readDword.bind fun _ => regular_readDword.bind fun _ => Regular.pure _

theorem some_of_ite {α : Type*} {p : Prop} [Decidable p] {a b : α} {o : Option α}
    (h : (if p then some a else o) = some b) : a = b ∨ o = some b := by
  by_cases hp : p
  · rw [if_pos hp] at h
    exact .inl (Option.some.inj h)
  · rw [if_neg hp] at h
    exact .inr h

/-- What a payload decoder accepts depends on the bytes it consumes only. -/
theorem regular_packetReader {type : BitVec 32} {reader : Reader (PacketData w)}
    (h : packetReader origin hs type = some reader) : Regular reader := by
  have hpair : Regular (do
      let name ← readStringa
      let value ← readStringa
      pure (⟨name, value⟩ : Farg)) :=
    regular_readStringa.bind fun _ => regular_readStringa.bind fun _ => Regular.pure _
  unfold packetReader at h
  rcases some_of_ite h with rfl | h
  · exact (regular_readPointer.bind fun _ => regular_readPointer.bind fun _ =>
      regular_readStringa.bind fun _ => Regular.pure _).bind fun _ => Regular.pure _
  rcases some_of_ite h with rfl | h
  · exact (regular_readDword2long.bind fun _ => regular_readStringa.bind fun _ =>
      Regular.pure _).bind fun _ => Regular.pure _
  rcases some_of_ite h with rfl | h
  · exact (regular_readPacketRR hs).bind fun _ => Regular.pure _
  rcases some_of_ite h with rfl | h
  · exact regular_readPacketFC.bind fun _ => Regular.pure _
  rcases some_of_ite h with rfl | h
  · exact (regular_readDword2long.bind fun _ =>
      regular_repeatRead regular_readPointer _).bind fun _ => Regular.pure _
  rcases some_of_ite h with rfl | h
  · exact (regular_readDword.bind fun _ =>
      regular_repeatRead hpair _).bind fun _ => Regular.pure _
  rcases some_of_ite h with rfl | h
  · exact (regular_readPacketPI origin hs).bind fun _ => Regular.pure _
  rcases some_of_ite h with rfl | h
  · exact (regular_readDword.bind fun _ => regular_readDword.bind fun _ =>
      regular_readStringa.bind fun _ => Regular.pure _).bind fun _ => Regular.pure _
  rcases some_of_ite h with rfl | h
  · exact regular_readPacketHI.bind fun _ => Regular.pure _
  rcases some_of_ite h with rfl | h
  · exact Regular.pure _
  rcases some_of_ite h with rfl | h
  · exact (regular_readStringa.bind fun _ => regular_readStringa.bind fun _ =>
      Regular.pure _).bind fun _ => Regular.pure _
  cases h

/-! ## What the handler sees -/

theorem isHandshake_congr {U V window : List UInt8} (hU : 8 ≤ U.length) (hpre : U <+: window) :
    isHandshake hs window ↔ isHandshake hs (U ++ V) := by
  obtain ⟨rest, rfl⟩ := hpre
  cases U with
  | nil => simp at hU
  | cons b U => rfl

/-- The header is in the received bytes. -/
theorem readHeader_window {U V window rest : List UInt8} {h : BitVec 32 × BitVec 32}
    (hU : 8 ≤ U.length) (hpre : U <+: window) (hheader : readHeader hs (U ++ V) = some (h, rest)) :
    readHeader hs window = some (h, window.drop 8) := by
  refine (regular_readHeader hs).eq_of_take (consumes_readHeader hs) hheader ?_
  rw [List.take_append_of_le_length hU]
  exact (List.take_prefix 8 U).trans hpre

/-- With fewer bytes than a header the handler waits. -/
theorem readGenericPacket_short {st : Option (ParseState w)} {window : List UInt8} {n : Nat}
    (hn : n < 8) : readGenericPacket origin hs st window n
      = { state := st, window, size := packetIncomplete } := by
  rw [readGenericPacket, if_pos (by omega)]

/-- Otherwise the header of the remaining stream decides. -/
theorem readGenericPacket_eq {st : Option (ParseState w)} {U V window rest : List UInt8}
    {type len : BitVec 32} (hU : 8 ≤ U.length) (hpre : U <+: window)
    (hheader : readHeader hs (U ++ V) = some ((type, len), rest)) :
    readGenericPacket origin hs st window U.length =
      if isHandshake hs (U ++ V) then { state := st, window, size := packetUnknown }
      else if (U.length : Int) < len.toInt then { state := st, window, size := packetIncomplete }
      else if (packetReader (w := w) origin hs type).isSome then
        { state := st.bind fun st => processPacket origin hs st type (window.drop 8), window,
          size := len.toInt }
      else
        { state := st.map fun st => { st with fcallPrev := none }, window,
          size := packetUnknown } := by
  rw [readGenericPacket, if_neg (by omega), readHeader_window hU hpre hheader]
  simp only [isHandshake_congr (V := V) hU hpre]

section Responses

variable {Inv : Option (ParseState w) → List UInt8 → Prop} {Done : Option (ParseState w) → Prop}
  {U V window : List UInt8} {st : Option (ParseState w)}

/-- `PACKET_UNKNOWN` ends the loop. -/
theorem binaryLoop_unknown (hdone : Done st) :
    (binaryLoop origin hs).Response Inv Done U V window
      { state := st, window, size := packetUnknown } :=
  .stop (show packetUnknown ≤ 0 by decide) (show (packetUnknown == packetUnknown) = true by decide)
    hdone

/-- Anything else that is not positive makes it read on. -/
theorem binaryLoop_wait {size : Int} (hsize : size ≤ 0) (hne : size ≠ packetUnknown)
    (hroom : U.length ≤ 4097) (hinv : Inv st (U ++ V)) (hend : V = [] → Done st) :
    (binaryLoop origin hs).Response Inv Done U V window { state := st, window, size } := by
  refine .wait hsize (show (size == packetUnknown) = false by simpa using hne) rfl ?_ hinv hend
  show U.length + 4095 ≤ 8192
  omega

end Responses

/-! ## Well-formed packets -/

/-- The resource ids that `res_index` has room for. -/
def PacketData.IdsInRange : PacketData w → Prop
  | .resourceRegistry r => r.id.toNat ≤ 32
  | .functionCall fc => fc.resType.toNat ≤ 32
  | _ => True

/-- A packet of the stream: its length field is right, it is no longer than
a buffer, its type is known and its payload is what the type asks for. -/
structure WirePacket (w : Nat) (origin : Str) (hs : Hshake) where
  bytes : List UInt8
  type : BitVec 32
  payload : List UInt8
  reader : Reader (PacketData w)
  data : PacketData w
  unused : List UInt8
  header : readHeader hs bytes = some ((type, BitVec.ofNat 32 bytes.length), payload)
  size : bytes.length ≤ bufferSize
  plain : ¬ isHandshake hs bytes
  known : packetReader origin hs type = some reader
  read : reader payload = some (data, unused)
  ids : data.IdsInRange

namespace WirePacket

variable (p : WirePacket w origin hs)

theorem length_eq : p.bytes.length = 8 + p.payload.length :=
  consumes_readHeader hs _ _ _ p.header

theorem payload_eq : p.payload = p.bytes.drop 8 := by
  have := (regular_readHeader hs).eq_of_take (consumes_readHeader hs) p.header
    (List.take_prefix 8 p.bytes)
  rw [p.header] at this
  exact (Prod.mk.inj (Option.some.inj this)).2

theorem toInt_length : (BitVec.ofNat 32 p.bytes.length).toInt = p.bytes.length := by
  have hsize : p.bytes.length ≤ 4096 := p.size
  rw [BitVec.toInt_eq_toNat_of_lt (by rw [BitVec.toNat_ofNat]; omega), BitVec.toNat_ofNat]
  omega

/-- The header of a stream that begins with the packet. -/
theorem readHeader_append (rest : List UInt8) :
    readHeader hs (p.bytes ++ rest)
      = some ((p.type, BitVec.ofNat 32 p.bytes.length), p.payload ++ rest) :=
  (regular_readHeader hs).append p.header rest

theorem not_isHandshake_append (rest : List UInt8) : ¬ isHandshake hs (p.bytes ++ rest) := by
  have hlen := p.length_eq
  have hplain := p.plain
  cases hbytes : p.bytes with
  | nil => rw [hbytes] at hlen; simp at hlen; omega
  | cons b bs => rw [hbytes] at hplain; exact hplain

/-- The data that the parser stores for the packet, whatever is behind it. -/
theorem processPacket_eq (st : ParseState w) (rest : List UInt8) :
    processPacket origin hs st p.type (p.payload ++ rest) = storePacket st p.data := by
  have hread := (regular_packetReader p.known).append p.read rest
  rw [processPacket]
  split
  · -- arguments without a call: they are not read, and would not be stored
    rename_i hargs
    have hknown := p.known
    rw [hargs.1] at hknown
    have hreader : p.reader = (do pure (.functionArgs (← readPacketFA))) :=
      (Option.some.inj hknown).symm
    obtain ⟨args, mid, -, hdata⟩ := reader_bind_eq_some (hreader ▸ hread)
    rw [← (Prod.mk.inj (Option.some.inj hdata)).1, storePacket, storeFargs, hargs.2]
  · simp only [p.known, hread, Option.bind_eq_bind, Option.bind_some]

end WirePacket

/-! ## The trace data of a list of packets -/

/-- The parser on packets, one after the other. -/
def storePackets (st : Option (ParseState w)) (ps : List (WirePacket w origin hs)) :
    Option (ParseState w) :=
  ps.foldl (fun st p => st.bind fun st => storePacket st p.data) st

/-- The parser between two packets: the store is consistent, and the call
that waits for its backtrace has none yet. -/
structure ParseState.Sound (st : ParseState w) : Prop where
  whole : st.rd.Whole
  prev : ∀ call, st.fcallPrev = some call →
    call ∈ st.rd.calls ∧ ∃ c, st.rd.fcall call = some c ∧ c.trace = none

theorem ParseState.sound_none {st : ParseState w} (h : st.rd.Whole)
    (hprev : st.fcallPrev = none) : st.Sound :=
  ⟨h, fun call hcall => by rw [hprev] at hcall; cases hcall⟩

theorem storeFcall_sound {st : ParseState w} (h : st.Sound) {fc : FcPacket w}
    (hid : fc.resType.toNat ≤ 32) : ∃ st', storeFcall st fc = some st' ∧ st'.Sound := by
  rw [storeFcall, if_pos hid]
  refine ⟨_, rfl, rdAddFcall_whole h.whole _, fun call hcall => ?_⟩
  obtain rfl := Option.some.inj hcall
  exact ⟨by simp, _, Function.update_self .., rfl⟩

theorem storeBacktrace_sound {st : ParseState w} (h : st.Sound) (frames : List (BitVec w)) :
    ∃ st', storeBacktrace st frames = some st' ∧ st'.Sound := by
  unfold storeBacktrace
  cases hprev : st.fcallPrev with
  | none => exact ⟨_, rfl, ParseState.sound_none h.whole rfl⟩
  | some call =>
    obtain ⟨hmem, c, hc, hnone⟩ := h.prev call hprev
    obtain ⟨rd', u, heq, hset⟩ := rdSetNewFtrace_setsTrace h.whole hmem hc hnone
      (frames.map fun addr => { addr, name := none })
    have heq' : rdFcallSetFtrace
        (rdNewFtrace st.rd (frames.map fun addr => { addr, name := none })).1 call
        (rdNewFtrace st.rd (frames.map fun addr => { addr, name := none })).2 = some rd' := heq
    simp only [heq', Option.bind_eq_bind, Option.bind_some]
    exact ⟨_, rfl, ParseState.sound_none hset.whole rfl⟩

theorem storeFargs_sound {st : ParseState w} (h : st.Sound) (args : List Farg) :
    ∃ st', storeFargs st args = some st' ∧ st'.Sound := by
  unfold storeFargs
  cases hprev : st.fcallPrev with
  | none => exact ⟨st, rfl, h⟩
  | some call =>
    obtain ⟨hmem, c, hc, hnone⟩ := h.prev call hprev
    simp only [hc, Option.bind_eq_bind, Option.bind_some]
    refine ⟨_, rfl, h.whole.of_linked (h.whole.toLinked.of_args hc _) rfl rfl, fun call' hcall => ?_⟩
    obtain rfl : call = call' := Option.some.inj hcall
    exact ⟨hmem, _, Function.update_self .., hnone⟩

/-- A well-formed packet is always stored. -/
theorem storePacket_sound {st : ParseState w} (h : st.Sound) {data : PacketData w}
    (hids : data.IdsInRange) : ∃ st', storePacket st data = some st' ∧ st'.Sound := by
  have hrd := h.whole
  cases data with
  | memoryMap m =>
    exact ⟨_, rfl, ParseState.sound_none (hrd.of_records st.rd.contexts _ st.rd.hshake st.rd.pinfo
      st.rd.minfo st.rd.comments st.rd.hinfo st.rd.files) rfl⟩
  | contextRegistry c =>
    exact ⟨_, rfl, ParseState.sound_none (hrd.of_records _ st.rd.mmaps st.rd.hshake st.rd.pinfo
      st.rd.minfo st.rd.comments st.rd.hinfo st.rd.files) rfl⟩
  | resourceRegistry r =>
    rw [storePacket, storeResource]
    simp only [show r.id.toNat ≤ 32 from hids, if_true]
    exact ⟨_, rfl, ParseState.sound_none (rdAddResource_whole hrd r) rfl⟩
  | functionCall fc => exact storeFcall_sound h hids
  | backtrace frames => exact storeBacktrace_sound h frames
  | functionArgs args => exact storeFargs_sound h args
  | processInfo p =>
    exact ⟨_, rfl, ParseState.sound_none (hrd.of_records st.rd.contexts st.rd.mmaps st.rd.hshake _
      st.rd.minfo st.rd.comments st.rd.hinfo st.rd.files) rfl⟩
  | moduleInfo m =>
    exact ⟨_, rfl, ParseState.sound_none (hrd.of_records st.rd.contexts st.rd.mmaps st.rd.hshake
      st.rd.pinfo _ st.rd.comments st.rd.hinfo st.rd.files) rfl⟩
  | heapInfo hi =>
    exact ⟨_, rfl, ParseState.sound_none (hrd.of_records st.rd.contexts st.rd.mmaps st.rd.hshake
      st.rd.pinfo st.rd.minfo st.rd.comments _ st.rd.files) rfl⟩
  | outputSettings => exact ⟨st, rfl, h⟩
  | attachment a =>
    exact ⟨_, rfl, hrd.of_records st.rd.contexts st.rd.mmaps st.rd.hshake st.rd.pinfo st.rd.minfo
      st.rd.comments st.rd.hinfo _, h.prev⟩

theorem storePackets_sound {st : ParseState w} (h : st.Sound)
    (ps : List (WirePacket w origin hs)) :
    ∃ st', storePackets (some st) ps = some st' ∧ st'.Sound := by
  induction ps generalizing st with
  | nil => exact ⟨st, rfl, h⟩
  | cons p ps ih =>
    obtain ⟨st₁, heq, h₁⟩ := storePacket_sound h p.ids
    obtain ⟨st', heq', h'⟩ := ih h₁
    refine ⟨st', ?_, h'⟩
    rw [← heq', storePackets, List.foldl_cons, Option.bind_some, heq]
    rfl

/-! ## Chunking independence -/

/-- What may be behind the packets: not even a header, a handshake, a packet
of an unknown type with anything behind it, or the front part of a packet. -/
inductive Closing (w : Nat) (origin : Str) (hs : Hshake) (tail : List UInt8) : Prop
  | short (h : tail.length < 8)
  | handshake (h : isHandshake hs tail)
  | unknown {type len : BitVec 32} {rest : List UInt8}
      (header : readHeader hs tail = some ((type, len), rest))
      (h : packetReader (w := w) origin hs type = none) (size : len.toInt ≤ bufferSize)
  | cut {type len : BitVec 32} {rest : List UInt8}
      (header : readHeader hs tail = some ((type, len), rest))
      (h : tail.length < len.toInt) (size : tail.length ≤ bufferSize)

/-- The invariant of the loop: the packets that are still to come complete
the trace data to `result`. -/
def Pending (origin : Str) (hs : Hshake) (result : Option (Rd w)) (st : Option (ParseState w))
    (stream : List UInt8) : Prop :=
  ∃ (ps : List (WirePacket w origin hs)) (tail : List UInt8),
    stream = ps.flatMap WirePacket.bytes ++ tail ∧ Closing w origin hs tail ∧
    (storePackets st ps).map ParseState.rd = result

theorem binaryLoop_respects_tail {result : Option (Rd w)} {st : Option (ParseState w)}
    {U V window : List UInt8} (hU : 8 ≤ U.length) (hpre : U <+: window)
    (hclose : Closing w origin hs (U ++ V)) (hresult : st.map ParseState.rd = result) :
    (binaryLoop origin hs).Response (Pending origin hs result)
      (fun st => st.map ParseState.rd = result) U V window
      (readGenericPacket origin hs st window U.length) := by
  obtain ⟨type, len, rest, hheader⟩ := readHeader_of_length hs
    (show 8 ≤ (U ++ V).length by rw [List.length_append]; omega)
  have hpending : Pending origin hs result st (U ++ V) := ⟨[], _, rfl, hclose, hresult⟩
  have hlength : (U ++ V).length = U.length + V.length := List.length_append
  rw [readGenericPacket_eq hU hpre hheader]
  split
  · exact binaryLoop_unknown hresult
  rename_i hnot
  split
  · -- the packet is not complete: there is room for the rest
    rename_i hlt
    refine binaryLoop_wait (by decide) (by decide) ?_ hpending fun _ => hresult
    cases hclose with
    | short h => omega
    | handshake h => exact absurd h hnot
    | unknown header h size =>
      rw [hheader] at header
      cases header
      have : len.toInt ≤ 4096 := size
      omega
    | cut header h size =>
      have : (U ++ V).length ≤ 4096 := size
      omega
  rename_i hge
  split
  · rename_i hknown
    cases hclose with
    | short h => omega
    | handshake h => exact absurd h hnot
    | unknown header h size =>
      rw [hheader] at header
      cases header
      rw [h] at hknown
      cases hknown
    | cut header h size =>
      rw [hheader] at header
      cases header
      omega
  · refine binaryLoop_unknown ?_
    rw [← hresult]
    cases st <;> rfl

/-- **One step of the loop keeps what the packets will amount to.** -/
theorem binaryLoop_respects (origin : Str) (hs : Hshake) (result : Option (Rd w)) :
    (binaryLoop origin hs).Respects (Pending origin hs result)
      (fun st => st.map ParseState.rd = result) := by
  intro st U V window hwindow hpre hpending
  obtain ⟨ps, tail, hstream, hclose, hresult⟩ := id hpending
  by_cases hU : U.length < 8
  · show PacketLoop.Response _ _ _ _ _ _ (readGenericPacket origin hs st window U.length)
    rw [readGenericPacket_short hU]
    refine binaryLoop_wait (by decide) (by decide) (by omega) hpending fun hV => ?_
    -- no packet is shorter than a header
    cases ps with
    | nil => exact hresult
    | cons p ps =>
      have hlen := congrArg List.length hstream
      have hp := p.length_eq
      simp only [hV, List.append_nil, List.flatMap_cons, List.length_append] at hlen
      omega
  cases ps with
  | nil =>
    rw [List.flatMap_nil, List.nil_append] at hstream
    exact binaryLoop_respects_tail (by omega) hpre (hstream ▸ hclose) hresult
  | cons p ps =>
    rw [List.flatMap_cons, List.append_assoc] at hstream
    have hheader := p.readHeader_append (ps.flatMap WirePacket.bytes ++ tail)
    have hnot := p.not_isHandshake_append (ps.flatMap WirePacket.bytes ++ tail)
    rw [← hstream] at hheader hnot
    show PacketLoop.Response _ _ _ _ _ _ (readGenericPacket origin hs st window U.length)
    rw [readGenericPacket_eq (by omega) hpre hheader, if_neg hnot, p.toInt_length]
    have hsize : p.bytes.length ≤ 4096 := p.size
    have hplen := p.length_eq
    split
    · rename_i hlt
      refine binaryLoop_wait (by decide) (by decide) (by omega) hpending fun hV => ?_
      have hlen := congrArg List.length hstream
      simp only [hV, List.append_nil, List.length_append] at hlen
      omega
    · rename_i hge
      have hp : p.bytes <+: U :=
        List.prefix_of_prefix_length_le ⟨_, hstream.symm⟩ (List.prefix_append _ _) (by omega)
      obtain ⟨more, hmore⟩ := hp.trans hpre
      rw [if_pos (by rw [p.known]; rfl)]
      refine .packet ?_ ?_ ?_ rfl ?_ ⟨ps, tail, ?_, hclose, ?_⟩
      · show (8 : Int) ≤ p.bytes.length
        omega
      · show (0 : Int) < p.bytes.length
        omega
      · show (p.bytes.length : Int) ≤ U.length
        omega
      · exact hpre.drop _
      · show (U ++ V).drop (Int.toNat p.bytes.length) = _
        rw [hstream, Int.toNat_natCast, List.drop_left]
      · have hpayload : window.drop 8 = p.payload ++ more := by
          rw [← hmore, p.payload_eq, List.drop_append_of_le_length (by omega)]
        rw [← hresult, storePackets, storePackets, List.foldl_cons]
        simp only [hpayload, p.processPacket_eq]

/-- A handshake the parser accepts, without the identification byte. -/
structure WireHandshake (w : Nat) (hs : Hshake) where
  body : List UInt8
  unused : List UInt8
  size : body.length < 256
  read : readHandshakePacket body = some (hs, unused)
  endianness : hs.endianness = 0
  pointerSize : hs.pointerSize.toNat * 8 = w

/-- The length byte and what it counts. -/
def WireHandshake.bytes (h : WireHandshake w hs) : List UInt8 :=
  UInt8.ofNat h.body.length :: h.body

theorem regular_readHandshakePacket : Regular readHandshakePacket :=
  regular_readByte.bind fun _ => regular_readByte.bind fun _ => regular_readByte.bind fun _ =>
    (regular_takeBytes _).bind fun _ => regular_readByte.bind fun _ =>
      regular_readByte.bind fun _ => Regular.pure _

/-- The loop starts behind the handshake. -/
theorem readBinaryDataStart_running (origin : Str) (rd : Rd w) (h : WireHandshake w hs) {mem stream : List UInt8}
    (hmem : mem.length = bufferSize * 2)
    (k : Delivery h.bytes.length (bufferSize - 1) (bufferSize - 1) (h.bytes ++ stream))
    (Inv : Option (ParseState w) → List UInt8 → Prop)
    (hinv : Inv (some (initialState rd hs)) stream) :
    ∃ c, readBinaryDataStart rd mem k.first k.input = some (hs, c) ∧ c.halted = false ∧
      c.input = k.input ∧
      (binaryLoop origin hs).Running Inv c (k.first.drop h.bytes.length) := by
  obtain ⟨hfirst, hstream⟩ := k.unread_eq rfl
  have hle := k.first_le
  set tail := k.first.drop h.bytes.length with htail
  have hbytes : h.bytes.length = h.body.length + 1 := List.length_cons
  have hlen : k.first.length = h.body.length + 1 + tail.length := by
    rw [hfirst, List.length_append, hbytes]
  have hmem' : mem.length = 8192 := hmem
  have hle' : k.first.length ≤ 4095 := hle
  -- the memory with the first chunk in it
  have hstore : storeAt mem 1 k.first
      = (mem.take 1 ++ [UInt8.ofNat h.body.length]) ++ h.body ++ tail ++
        mem.drop (1 + k.first.length) := by
    rw [storeAt, hfirst]
    simp [WireHandshake.bytes]
  have hfront : (mem.take 1 ++ [UInt8.ofNat h.body.length]).length = 2 := by
    simp [hmem']
  have hdataLen : (k.first.headD 0).toNat = h.body.length := by
    rw [hfirst, WireHandshake.bytes, List.cons_append, List.headD_cons, UInt8.toNat_ofNat']
    exact Nat.mod_eq_of_lt h.size
  have hread : readHandshakePacket ((storeAt mem 1 k.first).drop 2)
      = some (hs, h.unused ++ (tail ++ mem.drop (1 + k.first.length))) := by
    rw [hstore, List.append_assoc, List.append_assoc, List.drop_left' hfront]
    exact regular_readHandshakePacket.append h.read _
  refine ⟨{ mem := storeAt mem 1 k.first, ptr := 2 + h.body.length,
            n := k.first.length - (h.body.length + 1), state := some (initialState rd hs),
            input := k.input, halted := false }, ?_, rfl, rfl, ?_⟩
  · unfold readBinaryDataStart
    simp only [hdataLen]
    rw [if_neg (by omega), hread]
    simp only [Option.bind_eq_bind, Option.bind_some, h.endianness, h.pointerSize, and_self,
      if_true]
  · refine ⟨?_, ?_, ?_, ?_, k.offered, ?_⟩
    · show (storeAt mem 1 k.first).length = 8192
      rw [storeAt_length (by omega), hmem']
    · show (k.first.length : Int) - (h.body.length + 1) = tail.length
      omega
    · show 2 + h.body.length + tail.length ≤ 8192
      omega
    · show tail <+: (storeAt mem 1 k.first).drop (2 + h.body.length)
      rw [hstore, ← List.drop_drop, List.append_assoc, List.append_assoc, List.drop_left' hfront,
        List.drop_left]
      exact List.prefix_append _ _
    · show Inv _ (tail ++ unread k.input)
      rw [hstream]
      exact hinv

/-- **Chunking independence of the binary parser**: however the stream is
read, the loop ends with the trace data of its packets, one after the
other, and nothing behind them. -/
theorem readBinaryData_chunks (rd : ParsedStore w) (h : WireHandshake w hs)
    (ps : List (WirePacket w origin hs)) {tail : List UInt8} (hclose : Closing w origin hs tail) :
    ∃ st, storePackets (some (initialState rd.1 hs)) ps = some st ∧
      ∀ mem, mem.length = bufferSize * 2 →
        ∀ k : Delivery h.bytes.length (bufferSize - 1) (bufferSize - 1)
          (h.bytes ++ (ps.flatMap WirePacket.bytes ++ tail)), k.Uninterrupted →
        ∃ c st', readBinaryDataStart rd.1 mem k.first k.input = some (hs, c) ∧
          (binaryLoop origin hs).Ends c (some st') ∧ st'.rd = st.rd := by
  have hsound : (initialState rd.1 hs).Sound := ParseState.sound_none
    (rd.2.of_records _ _ _ rd.1.pinfo rd.1.minfo rd.1.comments rd.1.hinfo rd.1.files) rfl
  obtain ⟨st, hst, -⟩ := storePackets_sound hsound ps
  refine ⟨st, hst, fun mem hmem k hk => ?_⟩
  have hpending : Pending origin hs (some st.rd) (some (initialState rd.1 hs))
      (ps.flatMap WirePacket.bytes ++ tail) := ⟨ps, tail, rfl, hclose, by rw [hst]; rfl⟩
  obtain ⟨c, hstart, hhalt, hinput, hrun⟩ := readBinaryDataStart_running origin rd.1 h hmem k
    (Pending origin hs _) hpending
  have hrespects := binaryLoop_respects origin hs (some st.rd)
  obtain ⟨st', hends, hdone⟩ := hrespects.ends (hrun.holds hhalt) fun c' hc' =>
    PacketLoop.calm_of_data (hinput ▸ hk) hc'
  obtain ⟨st', rfl, hrd⟩ := Option.map_eq_some_iff.mp hdone
  exact ⟨c, st', hstart, hends, hrd⟩

/-! ## Staying inside the buffer -/

/-- What `read_generic_packet` makes of the header of a stream. A length
that is negative as an `int` is returned as it is. -/
def binaryKind (w : Nat) (origin : Str) (hs : Hshake) (s : List UInt8) : FrameKind :=
  match readHeader hs s with
  | none => .stop
  | some ((type, len), _) =>
      if isHandshake hs s then .stop
      else if (packetReader (w := w) origin hs type).isSome then
        if 0 < len.toInt then .whole len.toInt.toNat
        else if len.toInt = packetUnknown then .stop
        else .stuck
      else if 0 < len.toInt then .last len.toInt.toNat
      else .stop

/-- The streams the post-processor can take: 4097 bytes may be waiting when
`read()` is offered another 4095. -/
def BinaryFrames (w : Nat) (origin : Str) (hs : Hshake) : List UInt8 → Prop :=
  FramesOk 4097 8 (binaryKind w origin hs) fun _ => True

theorem binaryKind_eq (w : Nat) (origin : Str) {s rest : List UInt8} {type len : BitVec 32}
    (hheader : readHeader hs s = some ((type, len), rest)) (hnot : ¬ isHandshake hs s) :
    binaryKind w origin hs s =
      if (packetReader (w := w) origin hs type).isSome then
        if 0 < len.toInt then .whole len.toInt.toNat
        else if len.toInt = packetUnknown then .stop
        else .stuck
      else if 0 < len.toInt then .last len.toInt.toNat
      else .stop := by
  rw [binaryKind, hheader]
  simp only [if_neg hnot]

/-- A packet of a known type, by its length as an `int`. -/
theorem binaryLoop_known {st : Option (ParseState w)} {U V window : List UInt8} {len : Int}
    (hU : 8 ≤ U.length) (hpre : U <+: window) (hge : ¬ (U.length : Int) < len)
    (hkind : binaryKind w origin hs (U ++ V)
      = if 0 < len then .whole len.toNat else if len = packetUnknown then .stop else .stuck)
    (hframes : BinaryFrames w origin hs (U ++ V)) :
    (binaryLoop origin hs).Response (fun _ s => BinaryFrames w origin hs s) (fun _ => True)
      U V window { state := st, window, size := len } := by
  have hlength : (U ++ V).length = U.length + V.length := List.length_append
  by_cases hpos : 0 < len
  · rw [if_pos hpos] at hkind
    -- the frame is complete, so it is a whole packet with its header
    cases id hframes with
    | short h => omega
    | stop h => rw [hkind] at h; cases h
    | stuck h => rw [hkind] at h; cases h
    | last h => rw [hkind] at h; cases h
    | cut h hcut => rw [hkind] at h; cases h; omega
    | whole h hheader hlen hintact hrest =>
      rw [hkind] at h
      cases h
      refine .packet ?_ hpos ?_ rfl (hpre.drop _) hrest
      · show (8 : Int) ≤ len
        omega
      · show len ≤ U.length
        omega
  · rw [if_neg hpos] at hkind
    by_cases hunknown : len = packetUnknown
    · rw [hunknown]
      exact binaryLoop_unknown trivial
    · rw [if_neg hunknown] at hkind
      refine binaryLoop_wait (by omega) hunknown ?_ hframes fun _ => trivial
      cases id hframes with
      | short h => omega
      | stop h => rw [hkind] at h; cases h
      | stuck h hlen => omega
      | last h => rw [hkind] at h; cases h
      | cut h => rw [hkind] at h; cases h
      | whole h => rw [hkind] at h; cases h

/-- The bytes of a packet that is not complete yet fit the buffer. -/
theorem BinaryFrames.waiting {U V rest : List UInt8} {type len : BitVec 32} (hU : 8 ≤ U.length)
    (hheader : readHeader hs (U ++ V) = some ((type, len), rest))
    (hnot : ¬ isHandshake hs (U ++ V)) (hlt : (U.length : Int) < len.toInt)
    (hframes : BinaryFrames w origin hs (U ++ V)) : U.length ≤ 4097 := by
  have hlength : (U ++ V).length = U.length + V.length := List.length_append
  have hkind := binaryKind_eq w origin hheader hnot
  have hpos : 0 < len.toInt := by omega
  rw [if_pos hpos, if_pos hpos] at hkind
  cases hframes with
  | short h => omega
  | stop h => rw [hkind] at h; split at h <;> cases h
  | stuck h hlen => omega
  | last h hlen =>
    rw [hkind] at h
    split at h <;> cases h
    omega
  | cut h hcut hlen => omega
  | whole h hheader' hlen =>
    rw [hkind] at h
    split at h <;> cases h
    omega

/-- **The handler keeps the declared lengths in order.** -/
theorem binaryLoop_framesOk (w : Nat) (origin : Str) (hs : Hshake) :
    (binaryLoop (w := w) origin hs).Respects (fun _ s => BinaryFrames w origin hs s)
      (fun _ => True) := by
  intro st U V window hwindow hpre hframes
  show PacketLoop.Response _ _ _ _ _ _ (readGenericPacket origin hs st window U.length)
  by_cases hU : U.length < 8
  · rw [readGenericPacket_short hU]
    exact binaryLoop_wait (by decide) (by decide) (by omega) hframes fun _ => trivial
  obtain ⟨type, len, rest, hheader⟩ := readHeader_of_length hs
    (show 8 ≤ (U ++ V).length by rw [List.length_append]; omega)
  rw [readGenericPacket_eq (by omega) hpre hheader]
  split
  · exact binaryLoop_unknown trivial
  rename_i hnot
  split
  · rename_i hlt
    exact binaryLoop_wait (by decide) (by decide)
      (BinaryFrames.waiting (by omega) hheader hnot hlt hframes) hframes fun _ => trivial
  rename_i hge
  split
  · rename_i hknown
    have hkind := binaryKind_eq w origin hheader hnot
    rw [if_pos hknown] at hkind
    exact binaryLoop_known (by omega) hpre hge hkind hframes
  · exact binaryLoop_unknown trivial

/-- The handshake of a 64-bit little-endian process. -/
def sampleHandshake : Hshake :=
  { vmajor := 2, vminor := 0, arch := some ['x'], endianness := 0, pointerSize := 8 }

/-- As it is in the stream. -/
def sampleWireHandshake : WireHandshake 64 sampleHandshake where
  body := [2, 0, 1, 120, 0, 8]
  unused := []
  size := by decide
  read := rfl
  endianness := rfl
  pointerSize := rfl

/-- The registration of context 1 under the name `a`. -/
def samplePacket : WirePacket 64 [] sampleHandshake where
  bytes := [67, 84, 88, 82, 8, 0, 0, 0, 1, 0, 0, 0, 2, 0, 97, 0]
  type := protoContextRegistry
  payload := [1, 0, 0, 0, 2, 0, 97, 0]
  reader := do pure (.contextRegistry (← readPacketCR))
  data := .contextRegistry { id := 1, name := ['a'] }
  unused := []
  header := rfl
  size := by decide
  plain := by decide
  known := rfl
  read := rfl
  ids := trivial

/-- One packet and the next handshake, read in any way. -/
theorem readBinaryData_chunks_sample :
    ∃ st : ParseState 64,
      storePackets (some (initialState rdCreate sampleHandshake)) [samplePacket] = some st ∧
      ∀ mem, mem.length = bufferSize * 2 →
        ∀ k : Delivery sampleWireHandshake.bytes.length (bufferSize - 1) (bufferSize - 1)
          (sampleWireHandshake.bytes ++ ([samplePacket].flatMap WirePacket.bytes ++ [0xF0])),
        k.Uninterrupted →
        ∃ c st', readBinaryDataStart rdCreate mem k.first k.input = some (sampleHandshake, c) ∧
          (binaryLoop [] sampleHandshake).Ends c (some st') ∧ st'.rd = st.rd :=
  readBinaryData_chunks ⟨rdCreate, whole_rdCreate⟩ sampleWireHandshake [samplePacket]
    (.handshake (by decide))

end SpRtrace.Postproc
