/-
SpRtrace.Rtrace.ListenerTheorems — the packet loop of the pre-processor.

What `process_data` hands over is determined by the packets of its stream
(`processData_handsOver`), for every way the stream is read in which no
`read()` is interrupted while the received bytes overlap the front of the
buffer. An interruption at such a moment is the one that goes wrong: the
bytes have been moved and are then looked for at their old place.

Together with the post-processor's loop, `receiveBuffers_inBounds` says
when the two receive buffers are not left.
-/
import Mathlib
import SpRtrace.Postproc.ParseLoopTheorems
import SpRtrace.Rtrace.Listener

namespace SpRtrace.Rtrace

open SpRtrace.Common SpRtrace.Lib

variable {w : Nat} {env : ListenerEnv}

/-! ## Headers -/

theorem regular_readHeader : Regular readHeader :=
  regular_readDword.bind fun _ => regular_readDword.bind fun _ => Regular.pure _

theorem consumes_readHeader : Consumes readHeader 8 :=
  consumes_readDword.bind fun _ => consumes_readDword.bind fun _ => Consumes.pure _

theorem readHeader_of_length {bs : List UInt8} (h : 8 ≤ bs.length) :
    ∃ type len rest, readHeader bs = some ((type, len), rest) := by
  obtain ⟨a, ha⟩ := readDword_of_length (show 4 ≤ bs.length by omega)
  obtain ⟨b, hb⟩ := readDword_of_length (show 4 ≤ (bs.drop 4).length by
    rw [List.length_drop]; omega)
  exact ⟨a, b + 8, _, by simp only [readHeader, reader_bind, ha, hb, Option.bind_some]; rfl⟩

/-- The header is in the received bytes. -/
theorem readHeader_window {U V window rest : List UInt8} {h : BitVec 32 × BitVec 32}
    (hU : 8 ≤ U.length) (hpre : U <+: window) (hheader : readHeader (U ++ V) = some (h, rest)) :
    readHeader window = some (h, window.drop 8) := by
  refine regular_readHeader.eq_of_take consumes_readHeader hheader ?_
  rw [List.take_append_of_le_length hU]
  exact (List.take_prefix 8 U).trans hpre

/-! ## What the handler sees -/

theorem toSizeT_natCast (w n : Nat) : toSizeT w n = n := by
  rw [toSizeT, if_neg (by omega)]

/-- With fewer bytes than a header the handler waits. -/
theorem processPacket_short {st : Option (ListenerState w)} {window : List UInt8} {n : Nat}
    (hn : n < 8) : processPacket env st window n = { state := st, window, size := -1 } := by
  simp only [processPacket, toSizeT_natCast]
  rw [if_pos (by omega)]

/-- Otherwise the header of the remaining stream decides. -/
theorem processPacket_eq {st : Option (ListenerState w)} {U V window rest : List UInt8}
    {type len : BitVec 32} (hU : 8 ≤ U.length) (hpre : U <+: window)
    (hheader : readHeader (U ++ V) = some ((type, len), rest)) :
    processPacket env st window U.length =
      if (U.length : Int) < len.toNat then { state := st, window, size := -1 }
      else
        match st.bind fun st => dispatchPacket env st type window len.toNat with
        | none => { state := none, window, size := len.toInt }
        | some r =>
            { state := some r.state, window := r.window,
              size := if r.accepted then len.toInt else -1 } := by
  simp only [processPacket, toSizeT_natCast]
  rewrite [if_neg (by omega), readHeader_window hU hpre hheader]
  rfl

/-! ## What a packet does to the buffer -/

/-- The bytes behind an offset after a store before it. -/
theorem drop_storeAt {mem bytes : List UInt8} {off n : Nat} (hn : off + bytes.length ≤ n)
    (hlen : off + bytes.length ≤ mem.length) : (storeAt mem off bytes).drop n = mem.drop n := by
  have hfront : (mem.take off ++ bytes).length = off + bytes.length := by
    rw [List.length_append, List.length_take]
    omega
  rw [storeAt, List.drop_append, List.drop_eq_nil_of_le (by omega), List.nil_append, hfront,
    List.drop_drop]
  congr 1
  omega

/-- What the branches of `process_packet` do to the buffer; `written` is
what the packet is accepted under. -/
structure Harmless (written : Prop) (window : List UInt8) (len : Nat) (r : PacketResult w) :
    Prop where
  length : r.window.length = window.length
  drop : r.window.drop len = window.drop len
  accepted : written → r.accepted = true

theorem harmless_forward {written : Prop} (env : ListenerEnv) (st : ListenerState w)
    (window : List UInt8) (len : Nat) : Harmless written window len (forwardPacket env st window len) :=
  ⟨rfl, rfl, fun _ => rfl⟩

theorem harmless_outputSettings {st : ListenerState w} {window : List UInt8} {len : Nat}
    {r : PacketResult w} (h : processOutputSettings env st window len = some r) :
    Harmless (env.writes st.out.length = true) window len r := by
  simp only [processOutputSettings, Option.bind_eq_bind, Option.bind_eq_some_iff] at h
  obtain ⟨⟨dir, rest⟩, -, ⟨post, rest'⟩, -, dir', -, post', -, h⟩ := h
  dsimp only [writeData] at h
  split at h
  · obtain rfl := Option.some.inj h
    exact harmless_forward ..
  · rename_i heq
    obtain rfl := Option.some.inj h
    refine ⟨rfl, rfl, fun hwritten => ?_⟩
    rw [hwritten] at heq
    cases heq

/-- Only the time stamp of a process is written, into its packet. -/
theorem harmless_processInfo {written : Prop} {st : ListenerState w} {window : List UInt8}
    {len : Nat} {r : PacketResult w} (hlen : 20 ≤ len)
    (h : processProcessInfo env st window len = some r) : Harmless written window len r := by
  simp only [processProcessInfo, Option.bind_eq_bind, Option.bind_eq_some_iff] at h
  obtain ⟨⟨pid, rest₁⟩, hpid, ⟨secs, rest₂⟩, hsecs, ⟨usecs, rest₃⟩, husecs, h⟩ := h
  obtain rfl := Option.some.inj h
  dsimp only at hsecs husecs
  have h₁ := consumes_readDword _ _ _ hpid
  have h₂ := consumes_readDword _ _ _ hsecs
  have h₃ := consumes_readDword _ _ _ husecs
  rw [List.length_drop] at h₁
  split
  · refine ⟨?_, ?_, fun _ => rfl⟩
    · show (storeAt window 12 _).length = _
      rw [storeAt_length]
      simp only [List.length_append, writeDword_length]
      omega
    · show (storeAt window 12 _).drop len = _
      rw [drop_storeAt]
      · simp only [List.length_append, writeDword_length]
        omega
      · simp only [List.length_append, writeDword_length]
        omega
  · exact harmless_forward ..

theorem harmless_dispatch {st : ListenerState w} {type : BitVec 32} {window : List UInt8}
    {len : Nat} {r : PacketResult w} (hinfo : type = protoProcessInfo → 20 ≤ len)
    (h : dispatchPacket env st type window len = some r) :
    Harmless (type = protoOutputSettings → env.writes st.out.length = true) window len r := by
  unfold dispatchPacket at h
  split at h
  · rename_i htype
    have hsettings := harmless_outputSettings h
    exact ⟨hsettings.length, hsettings.drop, fun hwritten => hsettings.accepted (hwritten htype)⟩
  split at h
  · rename_i htype
    exact harmless_processInfo (hinfo htype) h
  split at h
  · simp only [processNewLibrary, Option.bind_eq_bind, Option.bind_eq_some_iff] at h
    obtain ⟨-, -, h⟩ := h
    obtain rfl := Option.some.inj h
    exact ⟨rfl, rfl, fun _ => rfl⟩
  split at h
  · simp only [processAttachment, Option.bind_eq_bind, Option.bind_eq_some_iff] at h
    obtain ⟨⟨name, rest⟩, -, -, -, -, -, h⟩ := h
    obtain rfl := Option.some.inj h
    exact harmless_forward ..
  · obtain rfl := Option.some.inj h
    exact harmless_forward ..

/-! ## Staying inside the buffer -/

/-- What `process_packet` makes of the header of a stream. -/
def listenerKind (s : List UInt8) : FrameKind :=
  match readHeader s with
  | none => .stop
  | some ((_, len), _) => if len.toNat = 0 then .stuck else .whole len.toNat

/-- A process information packet has its time stamp inside. -/
def listenerIntact (s : List UInt8) : Prop :=
  ∀ type len rest, readHeader s = some ((type, len), rest) → type = protoProcessInfo →
    20 ≤ len.toNat

/-- The streams the pre-processor can take: 4096 bytes may be waiting when
`read()` is offered another 4096. -/
def ListenerFrames : List UInt8 → Prop := FramesOk 4096 8 listenerKind listenerIntact

section Responses

variable {Inv : Option (ListenerState w) → List UInt8 → Prop}
  {Done : Option (ListenerState w) → Prop} {U V window : List UInt8}
  {st : Option (ListenerState w)}

/-- The handler reads on. -/
theorem listenerLoop_wait {size : Int} (hsize : size ≤ 0) (hroom : U.length ≤ 4096)
    (hinv : Inv st (U ++ V)) (hend : V = [] → Done st) :
    (listenerLoop w env).Response Inv Done U V window { state := st, window, size } := by
  refine .wait hsize rfl rfl ?_ hinv hend
  show U.length + 4096 ≤ 8192
  omega

/-- A complete packet of up to a buffer is taken. -/
theorem listenerLoop_packet {len : BitVec 32} {window' : List UInt8} (hheader : 8 ≤ len.toNat)
    (hlen : len.toNat ≤ 4097) (hfit : len.toNat ≤ U.length) (hpre : U <+: window)
    (hlength : window'.length = window.length)
    (hdrop : window'.drop len.toNat = window.drop len.toNat)
    (hinv : Inv st ((U ++ V).drop len.toNat)) :
    (listenerLoop w env).Response Inv Done U V window
      { state := st, window := window', size := len.toInt } := by
  have hint : len.toInt = len.toNat := BitVec.toInt_eq_toNat_of_lt (by omega)
  have htoNat : len.toInt.toNat = len.toNat := by rw [hint]; rfl
  refine .packet ?_ ?_ ?_ hlength ?_ ?_
  · show (8 : Int) ≤ len.toInt
    omega
  · show (0 : Int) < len.toInt
    omega
  · show len.toInt ≤ U.length
    omega
  · show U.drop len.toInt.toNat <+: window'.drop len.toInt.toNat
    rw [htoNat, hdrop]
    exact hpre.drop _
  · show Inv st ((U ++ V).drop len.toInt.toNat)
    rw [htoNat]
    exact hinv

end Responses

/-- When complete output settings are next, writing the handshake to the
output succeeds. -/
def HandshakeWritten (env : ListenerEnv) (c : LoopConf (Option (ListenerState w))) : Prop :=
  ∀ st len rest, c.state = some st →
    readHeader (c.mem.drop c.ptr) = some ((protoOutputSettings, len), rest) →
    8 ≤ c.n → (len.toNat : Int) ≤ c.n → env.writes st.out.length = true

/-- The same of the header of the remaining stream. -/
theorem HandshakeWritten.of_header {c : LoopConf (Option (ListenerState w))} {U V rest : List UInt8}
    {type len : BitVec 32} {st : ListenerState w} (h : HandshakeWritten env c) (hn : c.n = U.length)
    (hst : c.state = some st) (hU : 8 ≤ U.length) (hpre : U <+: c.mem.drop c.ptr)
    (hheader : readHeader (U ++ V) = some ((type, len), rest)) (hfit : len.toNat ≤ U.length) :
    type = protoOutputSettings → env.writes st.out.length = true := by
  rintro rfl
  exact h st len _ hst (readHeader_window hU hpre hheader) (by omega) (by omega)

/-- **The handler keeps the declared lengths in order.** -/
theorem listenerLoop_framesOk {c : LoopConf (Option (ListenerState w))}
    (hwritten : HandshakeWritten env c) :
    (listenerLoop w env).Answers (fun _ s => ListenerFrames s) (fun _ => True) c := by
  intro U hU
  obtain ⟨-, hn, -, hpre, -, hframes⟩ := hU
  rw [PacketLoop.handled, hn]
  generalize hV : unread c.input = V at hframes ⊢
  generalize hwindow : c.mem.drop c.ptr = window at hpre ⊢
  generalize hst : c.state = st at hframes ⊢
  show PacketLoop.Response _ _ _ _ _ _ (processPacket env st window U.length)
  by_cases hU : U.length < 8
  · rw [processPacket_short hU]
    exact listenerLoop_wait (by decide) (by omega) hframes fun _ => trivial
  have hlength : (U ++ V).length = U.length + V.length := List.length_append
  obtain ⟨type, len, rest, hheader⟩ := readHeader_of_length
    (show 8 ≤ (U ++ V).length by omega)
  have hkind : listenerKind (U ++ V)
      = if len.toNat = 0 then .stuck else .whole len.toNat := by rw [listenerKind, hheader]
  rw [processPacket_eq (by omega) hpre hheader]
  split
  · -- not complete: what is there fits
    rename_i hlt
    refine listenerLoop_wait (by decide) ?_ hframes fun _ => trivial
    rw [if_neg (by omega)] at hkind
    cases hframes with
    | short h => omega
    | stop h => rw [hkind] at h; cases h
    | stuck h => rw [hkind] at h; cases h
    | last h => rw [hkind] at h; cases h
    | cut h hcut hlen => omega
    | whole h hheader' hlen => rw [hkind] at h; cases h; omega
  rename_i hge
  by_cases hzero : len.toNat = 0
  · -- a length of zero is never taken
    rw [if_pos hzero] at hkind
    cases id hframes with
    | short h => omega
    | stop h => rw [hkind] at h; cases h
    | stuck h hlen hintact =>
      have hint : len.toInt ≤ 0 := by rw [BitVec.toInt_eq_toNat_of_lt (by omega)]; omega
      split
      · exact listenerLoop_wait hint (by omega) hframes fun _ => trivial
      · rename_i r hr
        obtain ⟨st', rfl, hr⟩ := Option.bind_eq_some_iff.mp hr
        have hharmless := harmless_dispatch (hintact _ _ _ hheader) hr
        have hdrop := hharmless.drop
        rw [hzero, List.drop_zero, List.drop_zero] at hdrop
        rw [if_pos (hharmless.accepted (hwritten.of_header hn hst (by omega) (hwindow ▸ hpre) hheader
          (by omega))), hdrop]
        exact listenerLoop_wait hint (by omega) hframes fun _ => trivial
    | last h => rw [hkind] at h; cases h
    | cut h => rw [hkind] at h; cases h
    | whole h => rw [hkind] at h; cases h
  · rw [if_neg hzero] at hkind
    cases hframes with
    | short h => omega
    | stop h => rw [hkind] at h; cases h
    | stuck h => rw [hkind] at h; cases h
    | last h => rw [hkind] at h; cases h
    | cut h hcut => rw [hkind] at h; cases h; omega
    | whole h hheader' hlen hintact hrest =>
      rw [hkind] at h
      cases h
      split
      · exact listenerLoop_packet hheader' hlen (by omega) hpre rfl rfl hrest
      · rename_i r hr
        obtain ⟨st', rfl, hr⟩ := Option.bind_eq_some_iff.mp hr
        have hharmless := harmless_dispatch (hintact _ _ _ hheader) hr
        rw [if_pos (hharmless.accepted (hwritten.of_header hn hst (by omega) (hwindow ▸ hpre) hheader
          (by omega)))]
        exact listenerLoop_packet hheader' hlen (by omega) hpre hharmless.length hharmless.drop
          hrest

/-! ## The start of the loop -/

/-- A handshake: the identification byte, the length byte and what that counts. -/
def handshakeBytes (body : List UInt8) : List UInt8 :=
  protoHsId :: UInt8.ofNat body.length :: body

def ListenerState.started (st : ListenerState w) (body : List UInt8) : ListenerState w :=
  { st with hsBuffer := handshakeBytes body, mmaps := [] }

/-- The loop starts behind the handshake. -/
theorem processDataStart_running (env : ListenerEnv) (st : ListenerState w)
    {body mem stream : List UInt8} (hbody : body.length < 256)
    (hmem : mem.length = bufferSize * 2)
    (k : Delivery (handshakeBytes body).length (bufferSize - 1) bufferSize
      (handshakeBytes body ++ stream))
    (Inv : Option (ListenerState w) → List UInt8 → Prop)
    (hinv : Inv (some (st.started body)) stream) :
    ∃ c, processDataStart st mem k.first k.input = some c ∧ c.halted = false ∧
      c.input = k.input ∧
      (listenerLoop w env).Running Inv c (k.first.drop (handshakeBytes body).length) := by
  obtain ⟨hfirst, hstream⟩ := k.unread_eq rfl
  have hle : k.first.length ≤ 4095 := k.first_le
  set tail := k.first.drop (handshakeBytes body).length
  have hbytes : (handshakeBytes body).length = body.length + 2 := rfl
  have hlen : k.first.length = body.length + 2 + tail.length := by
    rw [hfirst, List.length_append, hbytes]
  have hmem' : mem.length = 8192 := hmem
  have hbyte : (UInt8.ofNat body.length).toNat = body.length := by
    rw [UInt8.toNat_ofNat']
    exact Nat.mod_eq_of_lt hbody
  -- the memory with the first chunk in it
  have hstore : storeAt mem 0 k.first
      = handshakeBytes body ++ (tail ++ mem.drop k.first.length) := by
    rw [storeAt, hfirst]
    simp
  refine ⟨{ mem := storeAt mem 0 k.first, ptr := body.length + 2,
            n := k.first.length - (body.length + 2 : Nat), state := some (st.started body),
            input := k.input, halted := false }, ?_, rfl, rfl, ?_⟩
  · have hone : (storeAt mem 0 k.first)[1]? = some (UInt8.ofNat body.length) := by
      rw [hstore]
      rfl
    have htake : (storeAt mem 0 k.first).take (body.length + 2) = handshakeBytes body := by
      rw [hstore]
      exact List.take_left' hbytes
    unfold processDataStart
    simp only [hone, Option.bind_eq_bind, Option.bind_some, hbyte]
    rw [if_neg (by omega), htake]
    rfl
  · refine ⟨?_, ?_, ?_, ?_, k.offered, ?_⟩
    · show (storeAt mem 0 k.first).length = 8192
      rw [storeAt_length (by omega), hmem']
    · show (k.first.length : Int) - (body.length + 2 : Nat) = tail.length
      omega
    · show body.length + 2 + tail.length ≤ 8192
      omega
    · show tail <+: (storeAt mem 0 k.first).drop (body.length + 2)
      rw [hstore, List.drop_left' hbytes]
      exact List.prefix_append _ _
    · show Inv _ (tail ++ unread k.input)
      rw [hstream]
      exact hinv

/-! ## Well-formed packets -/

/-- What the listener takes from a packet. -/
inductive PacketKind
  | outputSettings (dir post : Str)
  | processInfo (pid secs : BitVec 32)
  | newLibrary
  | other

/-- The payload is what the listener expects of a packet type. -/
inductive PacketContent : BitVec 32 → List UInt8 → PacketKind → Prop
  | outputSettings {payload rest rest' : List UInt8} {dir post : Str}
      (hdir : readString pathMax payload = some (some dir, rest))
      (hpost : readString pathMax rest = some (some post, rest')) :
      PacketContent protoOutputSettings payload (.outputSettings dir post)
  | processInfo {payload rest rest' rest'' : List UInt8} {pid secs usecs : BitVec 32}
      (hpid : readDword payload = some (pid, rest)) (hsecs : readDword rest = some (secs, rest'))
      (husecs : readDword rest' = some (usecs, rest'')) :
      PacketContent protoProcessInfo payload (.processInfo pid secs)
  | newLibrary {payload rest : List UInt8} {path : Option Str}
      (hpath : readString pathMax payload = some (path, rest)) :
      PacketContent protoNewLibrary payload .newLibrary
  | attachment {payload rest rest' : List UInt8} {name : Str} {path : Option Str}
      (hname : readString pathMax payload = some (some name, rest))
      (hpath : readString pathMax rest = some (path, rest')) :
      PacketContent protoAttachment payload .other
  | other {type : BitVec 32} {payload : List UInt8}
      (htype : type ∉ [protoOutputSettings, protoProcessInfo, protoNewLibrary, protoAttachment]) :
      PacketContent type payload .other

/-- A packet of the stream: its length field is right, it is no longer than
a buffer, and its payload is what the listener expects. -/
structure ListenerPacket where
  bytes : List UInt8
  type : BitVec 32
  payload : List UInt8
  kind : PacketKind
  header : readHeader bytes = some ((type, BitVec.ofNat 32 bytes.length), payload)
  size : bytes.length ≤ bufferSize
  content : PacketContent type payload kind

/-- A packet with the time written over its time stamp. -/
def stamp (time : BitVec 32 × BitVec 32) (bytes : List UInt8) : List UInt8 :=
  storeAt bytes 12 (writeDword time.1 ++ writeDword time.2)

/-- What is to become of a packet: output settings are preceded by the
handshake, a process without time stamp gets one, a new library is
replaced by the memory maps, and all else is passed on. -/
def handOver (env : ListenerEnv) (st : ListenerState w) (p : ListenerPacket) : ListenerState w :=
  match p.kind with
  | .outputSettings dir post =>
      { st with
        outputDir := updateOption st.outputDir dir, postproc := updateOption st.postproc post,
        out := st.out ++ [st.hsBuffer, p.bytes] }
  | .processInfo pid secs =>
      { st with
        pid,
        out := st.out ++
          [if secs = 0 then stamp (env.timeofday st.out.length) p.bytes else p.bytes] }
  | .newLibrary => scanMmapData env st
  | .other => { st with out := st.out ++ [p.bytes] }

namespace ListenerPacket

variable (p : ListenerPacket)

theorem length_eq : p.bytes.length = 8 + p.payload.length := consumes_readHeader _ _ _ p.header

theorem toNat_length : (BitVec.ofNat 32 p.bytes.length).toNat = p.bytes.length := by
  have hsize : p.bytes.length ≤ 4096 := p.size
  rw [BitVec.toNat_ofNat]
  omega

theorem drop_append (more : List UInt8) : (p.bytes ++ more).drop 8 = p.payload ++ more := by
  have hlen := p.length_eq
  have hpayload := regular_readHeader.eq_of_take consumes_readHeader p.header
    (List.take_prefix 8 p.bytes)
  rw [p.header] at hpayload
  rw [List.drop_append_of_le_length (by omega), ← (Prod.mk.inj (Option.some.inj hpayload)).2]

theorem readHeader_append (rest : List UInt8) :
    readHeader (p.bytes ++ rest)
      = some ((p.type, BitVec.ofNat 32 p.bytes.length), p.payload ++ rest) :=
  regular_readHeader.append p.header rest

end ListenerPacket

/-! ## What is handed over -/

/-- Handing over a packet that stands alone in front of other bytes. -/
theorem forwardPacket_append (st : ListenerState w) (bytes more : List UInt8) :
    forwardPacket env st (bytes ++ more) bytes.length
      = { state := { st with out := st.out ++ [bytes] }, window := bytes ++ more,
          accepted := true } := by
  rw [forwardPacket, writeData, List.take_left]

theorem stamp_length (time : BitVec 32 × BitVec 32) {bytes : List UInt8}
    (h : 20 ≤ bytes.length) : (stamp time bytes).length = bytes.length := by
  refine storeAt_length ?_
  simp only [List.length_append, writeDword_length]
  omega

theorem stamp_append {time : BitVec 32 × BitVec 32} {bytes : List UInt8}
    (h : 20 ≤ bytes.length) (more : List UInt8) :
    storeAt (bytes ++ more) 12 (writeDword time.1 ++ writeDword time.2)
      = stamp time bytes ++ more := by
  have hlen : (writeDword time.1 ++ writeDword time.2).length = 8 := by simp
  simp only [storeAt, stamp, hlen]
  rw [List.take_append_of_le_length (by omega), List.drop_append_of_le_length (by omega)]
  simp only [List.append_assoc]

/-- The output settings are handed over behind the handshake. -/
theorem processOutputSettings_append (st : ListenerState w)
    (hwritten : env.writes st.out.length = true) {bytes payload rest rest' more : List UInt8} {dir post : Str}
    (hdrop : (bytes ++ more).drop 8 = payload ++ more)
    (hdir : readString pathMax payload = some (some dir, rest))
    (hpost : readString pathMax rest = some (some post, rest')) :
    processOutputSettings env st (bytes ++ more) bytes.length
      = some { state := { st with
                 outputDir := updateOption st.outputDir dir,
                 postproc := updateOption st.postproc post,
                 out := st.out ++ [st.hsBuffer, bytes] },
               window := bytes ++ more, accepted := true } := by
  have hdir' := (regular_readString pathMax).append hdir more
  have hpost' := (regular_readString pathMax).append hpost more
  simp only [processOutputSettings, hdrop, hdir', hpost', Option.bind_eq_bind, Option.bind_some,
    writeData, hwritten, forwardPacket_append]
  simp

/-- A process information packet gets its time stamp. -/
theorem processProcessInfo_append (env : ListenerEnv) (st : ListenerState w)
    {bytes payload rest rest' rest'' more : List UInt8} {pid secs usecs : BitVec 32}
    (hlen : 20 ≤ bytes.length) (hdrop : (bytes ++ more).drop 8 = payload ++ more)
    (hpid : readDword payload = some (pid, rest)) (hsecs : readDword rest = some (secs, rest'))
    (husecs : readDword rest' = some (usecs, rest'')) :
    ∃ bytes', bytes'.length = bytes.length ∧
      bytes' = (if secs = 0 then stamp (env.timeofday st.out.length) bytes else bytes) ∧
      processProcessInfo env st (bytes ++ more) bytes.length
        = some { state := { st with pid, out := st.out ++ [bytes'] }, window := bytes' ++ more,
                 accepted := true } := by
  have hpid' := regular_readDword.append hpid more
  have hsecs' := regular_readDword.append hsecs more
  have husecs' := regular_readDword.append husecs more
  refine ⟨_, ?_, rfl, ?_⟩
  · split
    · exact stamp_length _ hlen
    · rfl
  · simp only [processProcessInfo, hdrop, hpid', hsecs', husecs', Option.bind_eq_bind,
      Option.bind_some]
    split
    · rw [stamp_append hlen more, ← stamp_length (env.timeofday st.out.length) hlen,
        forwardPacket_append]
    · rw [forwardPacket_append]

/-- **A well-formed packet is handed over as it should be**, and what is
behind it in the buffer is left alone. -/
theorem dispatchPacket_append (st : ListenerState w) (p : ListenerPacket)
    (hwritten : p.type = protoOutputSettings → env.writes st.out.length = true)
    (more : List UInt8) :
    ∃ bytes', bytes'.length = p.bytes.length ∧
      dispatchPacket env st p.type (p.bytes ++ more) p.bytes.length
        = some { state := handOver env st p, window := bytes' ++ more, accepted := true } := by
  have hdrop := p.drop_append more
  have hplen := p.length_eq
  obtain ⟨bytes, type, payload, kind, hheader, hsize, content⟩ := p
  dsimp only at hdrop hplen ⊢
  cases content with
  | outputSettings hdir hpost =>
    refine ⟨bytes, rfl, ?_⟩
    rw [dispatchPacket, if_pos rfl,
      processOutputSettings_append st (hwritten rfl) hdrop hdir hpost]
    rfl
  | processInfo hpid hsecs husecs =>
    have h₁ := consumes_readDword _ _ _ hpid
    have h₂ := consumes_readDword _ _ _ hsecs
    have h₃ := consumes_readDword _ _ _ husecs
    obtain ⟨bytes', hlen, hbytes, heq⟩ := processProcessInfo_append env st
      (show 20 ≤ bytes.length by omega) hdrop hpid hsecs husecs
    refine ⟨bytes', hlen, ?_⟩
    rw [dispatchPacket, if_neg (by decide), if_pos rfl, heq, hbytes]
    rfl
  | newLibrary hpath =>
    refine ⟨bytes, rfl, ?_⟩
    have hpath' := (regular_readString pathMax).append hpath more
    rw [dispatchPacket, if_neg (by decide), if_neg (by decide), if_pos rfl, processNewLibrary,
      hdrop]
    simp only [hpath', Option.bind_eq_bind, Option.bind_some]
    rfl
  | attachment hname hpath =>
    refine ⟨bytes, rfl, ?_⟩
    have hname' := (regular_readString pathMax).append hname more
    have hpath' := (regular_readString pathMax).append hpath more
    rw [dispatchPacket, if_neg (by decide), if_neg (by decide), if_neg (by decide), if_pos rfl,
      processAttachment, hdrop]
    simp only [hname', hpath', Option.bind_eq_bind, Option.bind_some, forwardPacket_append]
    rfl
  | other htype =>
    refine ⟨bytes, rfl, ?_⟩
    simp only [List.mem_cons, List.not_mem_nil, or_false, not_or] at htype
    obtain ⟨h₁, h₂, h₃, h₄⟩ := htype
    rw [dispatchPacket, if_neg h₁, if_neg h₂, if_neg h₃, if_neg h₄, forwardPacket_append]
    rfl

/-- The invariant of the loop: handing over the packets that are still to
come leads to `result`. -/
def Awaiting (env : ListenerEnv) (result : ListenerState w) (st : Option (ListenerState w))
    (stream : List UInt8) : Prop :=
  ∃ (ps : List ListenerPacket) (st₀ : ListenerState w),
    st = some st₀ ∧ stream = ps.flatMap ListenerPacket.bytes ∧
    ps.foldl (handOver env) st₀ = result

/-- **One step of the loop keeps what the packets will amount to.** -/
theorem listenerLoop_answers {c : LoopConf (Option (ListenerState w))}
    (hwritten : HandshakeWritten env c) (result : ListenerState w) :
    (listenerLoop w env).Answers (Awaiting env result) (fun st => st = some result) c := by
  intro U hU
  obtain ⟨-, hn, -, hpre, -, hawait⟩ := hU
  rw [PacketLoop.handled, hn]
  generalize hV : unread c.input = V at hawait ⊢
  generalize hwindow : c.mem.drop c.ptr = window at hpre ⊢
  generalize hst : c.state = st at hawait ⊢
  obtain ⟨ps, st₀, rfl, hstream, hresult⟩ := id hawait
  show PacketLoop.Response _ _ _ _ _ _ (processPacket env (some st₀) window U.length)
  cases ps with
  | nil =>
    obtain ⟨rfl, rfl⟩ := List.append_eq_nil_iff.mp hstream
    rw [processPacket_short (by decide)]
    exact listenerLoop_wait (by decide) (by decide) hawait fun _ => congrArg some hresult
  | cons p ps =>
    rw [List.flatMap_cons] at hstream
    have hplen := p.length_eq
    have hpsize : p.bytes.length ≤ 4096 := p.size
    have hmore : V = [] → p.bytes.length ≤ U.length := fun hV => by
      have hlen := congrArg List.length hstream
      simp only [hV, List.append_nil, List.length_append] at hlen
      omega
    by_cases hU : U.length < 8
    · rw [processPacket_short hU]
      exact listenerLoop_wait (by decide) (by omega) hawait fun hV => by have := hmore hV; omega
    have hheader := p.readHeader_append (ps.flatMap ListenerPacket.bytes)
    rw [← hstream] at hheader
    rw [processPacket_eq (by omega) hpre hheader, p.toNat_length]
    split
    · exact listenerLoop_wait (by decide) (by omega) hawait fun hV => by have := hmore hV; omega
    · rename_i hge
      have hp : p.bytes <+: U :=
        List.prefix_of_prefix_length_le ⟨_, hstream.symm⟩ (List.prefix_append _ _) (by omega)
      obtain ⟨more, rfl⟩ := hp.trans hpre
      have hsettings := hwritten.of_header hn hst (by omega) (hwindow ▸ hpre) hheader
        (by rw [p.toNat_length]; omega)
      obtain ⟨bytes', hlen, heq⟩ := dispatchPacket_append st₀ p hsettings more
      simp only [Option.bind_some, heq, if_true]
      have hlen' : p.bytes.length = (BitVec.ofNat 32 p.bytes.length).toNat := p.toNat_length.symm
      refine listenerLoop_packet (by omega) (by omega) (by omega) hpre ?_ ?_
        ⟨ps, handOver env st₀ p, rfl, ?_, hresult⟩
      · rw [List.length_append, List.length_append, hlen]
      · rw [← hlen', List.drop_left, List.drop_left' hlen]
      · rw [← hlen', hstream, List.drop_left]

/-- **Stream fidelity of the pre-processor**: if no `read()` is interrupted
while the received bytes overlap the front of the buffer and the handshake
can be written, what is handed over is that of the packets, one after the
other, and every packet once. -/
theorem processData_handsOver {env : ListenerEnv} (st : ListenerState w)
    {body : List UInt8} (hbody : body.length < 256) (ps : List ListenerPacket)
    {mem : List UInt8} (hmem : mem.length = bufferSize * 2)
    (k : Delivery (handshakeBytes body).length (bufferSize - 1) bufferSize
      (handshakeBytes body ++ ps.flatMap ListenerPacket.bytes)) :
    ∃ c, processDataStart st mem k.first k.input = some c ∧
      ((∀ c', (listenerLoop w env).Reach c c' →
          (listenerLoop w env).Calm c' ∧ HandshakeWritten env c') →
        (listenerLoop w env).Ends c (some (ps.foldl (handOver env) (st.started body)))) := by
  have hawait : Awaiting env (ps.foldl (handOver env) (st.started body)) (some (st.started body))
      (ps.flatMap ListenerPacket.bytes) := ⟨ps, _, rfl, rfl, rfl⟩
  obtain ⟨c, hstart, hhalt, hinput, hrun⟩ := processDataStart_running env st hbody hmem k
    (Awaiting env _) hawait
  refine ⟨c, hstart, fun hruns => ?_⟩
  obtain ⟨st', hends, rfl⟩ := (hrun.holds hhalt).ends
    (fun c' hreach => listenerLoop_answers (hruns c' hreach).2 _) fun c' hreach => (hruns c' hreach).1
  exact hends

/-! ## A stream with two packets -/

/-- Writes succeed, and it is always the same time. -/
def sampleEnv : ListenerEnv where
  writes := fun _ => true
  timeofday := fun _ => (0, 0)
  maps := fun _ _ => []

def sampleState : ListenerState 64 where
  hsBuffer := []
  outputDir := none
  postproc := none
  pid := 0
  mmaps := []
  out := []

/-- The handshake of a 64-bit little-endian process, behind its length. -/
def sampleBody : List UInt8 := [2, 0, 1, 120, 0, 8]

def sampleSettings : ListenerPacket where
  bytes := [79, 67, 70, 71, 8, 0, 0, 0, 0, 0, 0, 0, 0, 0, 0, 0]
  type := protoOutputSettings
  payload := [0, 0, 0, 0, 0, 0, 0, 0]
  kind := .outputSettings [] []
  header := rfl
  size := by decide
  content := .outputSettings
    (show readString pathMax [0, 0, 0, 0, 0, 0, 0, 0] = some (some [], [0, 0, 0, 0]) from rfl) rfl

def sampleCall : ListenerPacket where
  bytes := [67, 65, 76, 76, 36, 0, 0, 0, 1, 0, 0, 0, 0, 0, 0, 0, 0, 0, 0, 0, 1, 0, 0, 0,
    6, 0, 109, 97, 108, 108, 111, 99, 64, 0, 0, 0, 16, 32, 96, 0, 0, 0, 0, 0]
  type := protoFunctionCall
  payload := [1, 0, 0, 0, 0, 0, 0, 0, 0, 0, 0, 0, 1, 0, 0, 0,
    6, 0, 109, 97, 108, 108, 111, 99, 64, 0, 0, 0, 16, 32, 96, 0, 0, 0, 0, 0]
  kind := .other
  header := rfl
  size := by decide
  content := .other (by decide)

/-- The handshake alone, an interruption, and the packets. -/
def sampleCalm : Delivery (handshakeBytes sampleBody).length (bufferSize - 1) bufferSize
    (handshakeBytes sampleBody ++ [sampleSettings, sampleCall].flatMap ListenerPacket.bytes) where
  first := handshakeBytes sampleBody
  input := [.interrupted, .data (sampleSettings.bytes ++ sampleCall.bytes)]
  whole := rfl
  lead_le := by decide
  first_le := by decide
  offered := by
    intro bytes hbytes
    simp only [List.mem_cons, reduceCtorEq, List.not_mem_nil, or_false, false_or,
      ReadResult.data.injEq] at hbytes
    rw [hbytes]
    decide

/-- An interruption with nothing received does no harm. -/
theorem processData_handsOver_calm :
    ∃ c, processDataStart sampleState (List.replicate 8192 0) sampleCalm.first sampleCalm.input
        = some c ∧
      (listenerLoop 64 sampleEnv).Ends c (some ([sampleSettings, sampleCall].foldl
        (handOver sampleEnv) (sampleState.started sampleBody))) := by
  obtain ⟨c, hstart, hends⟩ := @processData_handsOver 64 sampleEnv sampleState _
    (show sampleBody.length < 256 by decide) [sampleSettings, sampleCall] _
    (show (List.replicate 8192 (0 : UInt8)).length = bufferSize * 2 by decide +kernel) sampleCalm
  refine ⟨c, hstart, hends fun c' hreach => ⟨?_, fun _ _ _ _ _ _ _ => rfl⟩⟩
  have hbegin : (processDataStart sampleState (List.replicate 8192 0) sampleCalm.first
      sampleCalm.input).map (fun c => (c.ptr, c.n)) = some (8, 0) := by decide +kernel
  have hfirst : ((processDataStart sampleState (List.replicate 8192 0) sampleCalm.first
      sampleCalm.input).bind (listenerLoop 64 sampleEnv).step).map LoopConf.input
      = some [.data (sampleSettings.bytes ++ sampleCall.bytes)] := by decide +kernel
  rw [hstart] at hbegin hfirst
  obtain heq | ⟨c₁, hstep, hrest⟩ := Relation.ReflTransGen.cases_head hreach
  · rw [← heq]
    intro _ rest _
    have hn := (Prod.mk.inj (Option.some.inj hbegin))
    exact ⟨rfl, Or.inr (by rw [hn.1, hn.2]; decide)⟩
  · rw [Option.bind_some, hstep] at hfirst
    refine PacketLoop.calm_of_data ?_ hrest
    rw [Option.some.inj hfirst]
    simp

/-- The settings and most of the call, an interruption, and the rest. -/
def sampleInterrupted : Delivery (handshakeBytes sampleBody).length (bufferSize - 1) bufferSize
    (handshakeBytes sampleBody ++ [sampleSettings, sampleCall].flatMap ListenerPacket.bytes) where
  first := handshakeBytes sampleBody ++ sampleSettings.bytes ++ sampleCall.bytes.take 28
  input := [.interrupted, .data (sampleCall.bytes.drop 28)]
  whole := rfl
  lead_le := by decide
  first_le := by decide
  offered := by
    intro bytes hbytes
    simp only [List.mem_cons, reduceCtorEq, List.not_mem_nil, or_false, false_or,
      ReadResult.data.injEq] at hbytes
    rw [hbytes]
    decide

/-- An interruption while 28 bytes are waiting behind 24: the call is handed
over with four wrong bytes. -/
theorem processData_interrupted :
    ∃ c st', processDataStart sampleState (List.replicate 8192 0) sampleInterrupted.first
        sampleInterrupted.input = some c ∧
      (listenerLoop 64 sampleEnv).Ends c (some st') ∧
      st'.out ≠ ([sampleSettings, sampleCall].foldl (handOver sampleEnv)
        (sampleState.started sampleBody)).out := by
  have hstart : (processDataStart sampleState (List.replicate 8192 0) sampleInterrupted.first
      sampleInterrupted.input).isSome = true := by decide +kernel
  have hrun : (processDataStart sampleState (List.replicate 8192 0) sampleInterrupted.first
      sampleInterrupted.input).map (fun c =>
        (((listenerLoop 64 sampleEnv).run 8 c).halted,
          ((listenerLoop 64 sampleEnv).run 8 c).state.map ListenerState.out))
      = some (true, some [handshakeBytes sampleBody, sampleSettings.bytes,
          sampleCall.bytes.drop 24 |>.take 4 |>.append (sampleCall.bytes.drop 4)]) := by
    decide +kernel
  obtain ⟨c, hc⟩ := Option.isSome_iff_exists.mp hstart
  rw [hc] at hrun
  obtain ⟨hhalt, hout⟩ := Prod.mk.inj (Option.some.inj hrun)
  obtain ⟨st', hst', hout⟩ := Option.map_eq_some_iff.mp hout
  refine ⟨c, st', hc, ⟨_, PacketLoop.reach_run _ 8 c, hhalt, hst'⟩, ?_⟩
  rw [hout]
  decide

/-! ## Both receive buffers -/

/-- The pre-processor stays inside its buffer. -/
theorem processData_inBounds (st : ListenerState w)
    {body mem stream : List UInt8} (hbody : body.length < 256)
    (hmem : mem.length = bufferSize * 2) (hframes : ListenerFrames stream)
    (k : Delivery (handshakeBytes body).length (bufferSize - 1) bufferSize
      (handshakeBytes body ++ stream)) :
    ∃ c, processDataStart st mem k.first k.input = some c ∧
      ((∀ c', (listenerLoop w env).Reach c c' →
          (listenerLoop w env).Calm c' ∧ HandshakeWritten env c') →
        ∀ c', (listenerLoop w env).Reach c c' → (listenerLoop w env).InBounds c') := by
  obtain ⟨c, hstart, hhalt, -, hrun⟩ := processDataStart_running env st hbody hmem k
    (fun _ s => ListenerFrames s) hframes
  refine ⟨c, hstart, fun hruns c' hreach => ?_⟩
  exact (hrun.holds hhalt).run_inBounds
    (fun c' hreach => listenerLoop_framesOk (hruns c' hreach).2)
    (fun c' hreach => (hruns c' hreach).1.settles) hreach

/-- So does the post-processor, however its reads are interrupted: an
interruption ends its loop. -/
theorem readBinaryData_inBounds (origin : Str) {hs : Hshake} (rd : Rd w)
    (h : Postproc.WireHandshake w hs) {mem stream : List UInt8}
    (hmem : mem.length = Postproc.bufferSize * 2)
    (hframes : Postproc.BinaryFrames w origin hs stream)
    (k : Delivery h.bytes.length (Postproc.bufferSize - 1) (Postproc.bufferSize - 1)
      (h.bytes ++ stream)) :
    ∃ c, Postproc.readBinaryDataStart rd mem k.first k.input = some (hs, c) ∧
      ∀ c', (Postproc.binaryLoop origin hs).Reach c c' →
        (Postproc.binaryLoop origin hs).InBounds c' := by
  obtain ⟨c, hstart, hhalt, -, hrun⟩ := Postproc.readBinaryDataStart_running
    origin rd h hmem k (fun _ s => Postproc.BinaryFrames w origin hs s) hframes
  refine ⟨c, hstart, fun c' hreach => ?_⟩
  exact (hrun.holds hhalt).run_inBounds
    (fun c' _ => (Postproc.binaryLoop_framesOk w origin hs).answers c')
    (fun _ _ _ _ _ => .inr ⟨rfl, trivial⟩) hreach

/-- **The receive buffers stay in bounds** in every run on a stream whose
declared lengths are in order: in the pre-processor if no `read()` is
interrupted at a bad moment and the handshake can be written, and in the
post-processor always. -/
theorem receiveBuffers_inBounds (w : Nat) :
    (∀ (env : ListenerEnv) (st : ListenerState w) (body mem stream : List UInt8)
        (k : Delivery (handshakeBytes body).length (bufferSize - 1) bufferSize
          (handshakeBytes body ++ stream)),
      body.length < 256 → mem.length = bufferSize * 2 → ListenerFrames stream →
      ∃ c, processDataStart st mem k.first k.input = some c ∧
        ((∀ c', (listenerLoop w env).Reach c c' →
            (listenerLoop w env).Calm c' ∧ HandshakeWritten env c') →
          ∀ c', (listenerLoop w env).Reach c c' → (listenerLoop w env).InBounds c')) ∧
    (∀ (origin : Str) (hs : Hshake) (rd : Rd w) (h : Postproc.WireHandshake w hs)
        (mem stream : List UInt8)
        (k : Delivery h.bytes.length (Postproc.bufferSize - 1) (Postproc.bufferSize - 1)
          (h.bytes ++ stream)),
      mem.length = Postproc.bufferSize * 2 → Postproc.BinaryFrames w origin hs stream →
      ∃ c, Postproc.readBinaryDataStart rd mem k.first k.input = some (hs, c) ∧
        ∀ c', (Postproc.binaryLoop origin hs).Reach c c' →
          (Postproc.binaryLoop origin hs).InBounds c') :=
  ⟨fun _ st _ _ _ k hbody hmem hframes => processData_inBounds st hbody hmem hframes k,
    fun origin _ rd h _ _ k hmem hframes => readBinaryData_inBounds origin rd h hmem hframes k⟩

/-- The settings and the call of the sample stream. -/
def sampleStream : List UInt8 := sampleSettings.bytes ++ sampleCall.bytes

theorem listenerFrames_sampleStream : ListenerFrames sampleStream := by
  have hintact : ∀ {s rest : List UInt8} {type len : BitVec 32},
      readHeader s = some ((type, len), rest) → type ≠ protoProcessInfo → listenerIntact s :=
    fun hheader hne type' len' rest' hheader' htype => by
      rw [hheader] at hheader'
      cases hheader'
      exact absurd htype hne
  refine .whole (show listenerKind sampleStream = .whole 16 from rfl) (by decide) (by decide)
    (hintact (sampleSettings.readHeader_append _) (by decide)) ?_
  refine .whole (show listenerKind sampleCall.bytes = .whole 44 from rfl) (by decide) (by decide)
    (hintact sampleCall.header (by decide)) ?_
  exact .short (by decide)

theorem binaryFrames_sampleStream :
    Postproc.BinaryFrames 64 [] Postproc.sampleHandshake sampleStream := by
  refine .whole (show Postproc.binaryKind 64 [] Postproc.sampleHandshake sampleStream = .whole 16
    from rfl) (by decide) (by decide) trivial ?_
  refine .whole (show Postproc.binaryKind 64 [] Postproc.sampleHandshake sampleCall.bytes
    = .whole 44 from rfl) (by decide) (by decide) trivial ?_
  exact .short (by decide)

/-- The sample stream, read in any way without interruptions by the
pre-processor, and in any way by the post-processor. -/
theorem receiveBuffers_inBounds_sampleStream :
    (∀ k : Delivery (handshakeBytes sampleBody).length (bufferSize - 1) bufferSize
        (handshakeBytes sampleBody ++ sampleStream), k.Uninterrupted →
      ∃ c, processDataStart sampleState (List.replicate 8192 0) k.first k.input = some c ∧
        ∀ c', (listenerLoop 64 sampleEnv).Reach c c' → (listenerLoop 64 sampleEnv).InBounds c') ∧
    (∀ k : Delivery Postproc.sampleWireHandshake.bytes.length (Postproc.bufferSize - 1)
        (Postproc.bufferSize - 1) (Postproc.sampleWireHandshake.bytes ++ sampleStream),
      ∃ c, Postproc.readBinaryDataStart (rdCreate : Rd 64) (List.replicate 8192 0) k.first k.input
          = some (Postproc.sampleHandshake, c) ∧
        ∀ c', (Postproc.binaryLoop [] Postproc.sampleHandshake).Reach c c' →
          (Postproc.binaryLoop [] Postproc.sampleHandshake).InBounds c') := by
  have hmem : (List.replicate 8192 (0 : UInt8)).length = 8192 := List.length_replicate
  obtain ⟨hlistener, hbinary⟩ := receiveBuffers_inBounds 64
  refine ⟨fun k hk => ?_, fun k => hbinary [] Postproc.sampleHandshake rdCreate
    Postproc.sampleWireHandshake _ _ k hmem binaryFrames_sampleStream⟩
  obtain ⟨c, hstart, hbounds⟩ := hlistener sampleEnv sampleState sampleBody _ _ k (by decide) hmem
    listenerFrames_sampleStream
  refine ⟨c, hstart, hbounds fun c' hreach => ⟨?_, fun _ _ _ _ _ _ _ => rfl⟩⟩
  obtain ⟨c₁, hstart₁, -, hinput, -⟩ := processDataStart_running sampleEnv sampleState
    (show sampleBody.length < 256 by decide) hmem k (fun _ _ => True) trivial
  obtain rfl := Option.some.inj (hstart.symm.trans hstart₁)
  exact PacketLoop.calm_of_data (hinput ▸ hk) hreach

/-- A length field of 2^32 - 7 makes a packet of one byte. -/
theorem receiveBuffers_wrapped :
    ∃ c, processDataStart sampleState (List.replicate 8192 0)
        (handshakeBytes sampleBody ++ [67, 65, 76, 76, 0xF9, 0xFF, 0xFF, 0xFF]) [] = some c ∧
      ¬ (listenerLoop 64 sampleEnv).InBounds c := by
  have hsize : (processDataStart sampleState (List.replicate 8192 0)
      (handshakeBytes sampleBody ++ [67, 65, 76, 76, 0xF9, 0xFF, 0xFF, 0xFF]) []).map
        (fun c => (c.halted, ((listenerLoop 64 sampleEnv).handled c).size)) = some (false, 1) := by
    decide +kernel
  obtain ⟨c, hc, hpair⟩ := Option.map_eq_some_iff.mp hsize
  obtain ⟨hhalt, hsize⟩ := Prod.mk.inj hpair
  refine ⟨c, hc, fun hbounds => ?_⟩
  have hadvance := hbounds.advance hhalt (by rw [hsize]; decide)
  rw [hsize] at hadvance
  exact absurd hadvance (by decide)

end SpRtrace.Rtrace
