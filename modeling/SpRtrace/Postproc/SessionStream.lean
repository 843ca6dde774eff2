/-
SpRtrace.Postproc.SessionStream — a session on its way to the
post-processor.

What the tracing module writes goes through the pre-processor, which
replaces some packets (`handOver`): a new library by memory maps, and the
empty time stamp of the process by the time of day. `Delivers` says what
the post-processor reads in the place of a packet, and
`sendable_handsOver` that it reads that: the buffers that are handed over
for the packet are packets of the post-processor's stream with just these
data. The packets are `Sendable`: they fit into a buffer, their strings are
C strings, and their ids are those of the registries.
-/
import SpRtrace.Modules.SessionTheorems
import SpRtrace.Postproc.BinaryLog
import SpRtrace.Postproc.ParseBinaryTheorems
import SpRtrace.Rtrace.ListenerTheorems

namespace SpRtrace.Postproc

open SpRtrace.Lib SpRtrace.Common SpRtrace.Modules SpRtrace.Rtrace

variable {w : Nat} {origin : Str} {hs : Hshake}

/-! ## Packets of the stream -/

/-- A packet that both programs can take. The heap information is read
wrongly on 64-bit machines. -/
def SoundPacket : ModulePacket w → Prop
  | .resourceRegistry r => (r.id.setWidth 32).toNat ≤ 32
  | .contextRegistry c => (c.id.setWidth 32).toNat < 2 ^ 31
  | .functionCall c => c.resTypeId.toNat ≤ 32
  | .heapInfo _ => w = 32
  | _ => True

/-- The strings of a packet of the stream. -/
def StreamStrings : StreamPacket w → Prop
  | .packet p => StringsFit p ∧ SoundPacket p
  | .outputSettings outputDir postproc => Fits (some outputDir) ∧ Fits (some postproc)
  | .newLibrary library => Fits library

structure Sendable (packet : StreamPacket w) : Prop where
  strings : StreamStrings packet
  size : packet.bytes.length ≤ Modules.bufferSize

/-- What the post-processor reads in the place of a packet. -/
def Delivers (origin : Str) : StreamPacket w → List (PacketData w) → Prop
  | .outputSettings .., data => data = [.outputSettings]
  | .newLibrary _, data => ∃ maps : List (Mmap w), data = maps.map .memoryMap
  | .packet (.processInfo pid backtraceDepth procName), data =>
      ∃ tvSec tvUsec, data = [.processInfo
        { pid, backtraceDepth, name := some procName, tvSec, tvUsec, traceOrigin := some origin }]
  | .packet p, data => data = [packetData origin p]

/-! ## Reading a packet alone -/

theorem signExtend_small (hw : w = 32 ∨ w = 64) {v : BitVec 32} (h : v.toNat < 2 ^ 31) :
    v.signExtend w = v.setWidth w :=
  (signExtend_eq_setWidth_iff hw v).mpr (.inr h)

theorem toNat_setWidth_small (hw : w = 32 ∨ w = 64) (v : BitVec 32) : (v.setWidth w).toNat = v.toNat := by
  have := v.isLt
  rw [BitVec.toNat_setWidth, Nat.mod_eq_of_lt]
  rcases hw with rfl | rfl <;> omega

/-- The decoder of a packet reads its data from its payload. -/
theorem reads_packet (origin : Str) (hw : w = 32 ∨ w = 64) (hhs : hsCheckVersion hs 1 3 = true)
    {p : ModulePacket w} (hfit : StringsFit p) (hsound : SoundPacket p)
    (hsize : p.payload.length ≤ 4096) :
    ∃ reader, packetReader origin hs p.type = some reader ∧
      Reads reader p.payload (packetData origin p) := by
  cases p with
  | moduleInfo m => exact ⟨_, rfl, (reads_readPacketMI hfit).bind_pure (Reads.pure _)⟩
  | resourceRegistry r =>
    refine ⟨_, rfl, ?_⟩
    have hid : (r.id.setWidth 32).toNat < 2 ^ 31 := by
      have : (r.id.setWidth 32).toNat ≤ 32 := hsound
      omega
    have hread : Reads (packetReader origin hs protoResourceRegistry |>.get rfl)
        (writeResourceRegistry r) _ :=
      (reads_readPacketRR hhs hfit.1 hfit.2).bind_pure (Reads.pure _)
    rw [signExtend_small hw hid] at hread
    exact hread
  | processInfo pid depth name =>
    exact ⟨_, rfl, (reads_readPacketPI hhs origin pid depth hfit).bind_pure (Reads.pure _)⟩
  | heapInfo h =>
    obtain rfl : w = 32 := hsound
    exact ⟨_, rfl, (reads_readPacketHI h).bind_pure (Reads.pure _)⟩
  | attachment a => exact ⟨_, rfl, (reads_readPacketFILE hfit.1 hfit.2).bind_pure (Reads.pure _)⟩
  | contextRegistry c =>
    refine ⟨_, rfl, ?_⟩
    have hread : Reads (packetReader origin hs protoContextRegistry |>.get rfl)
        (spRtraceWriteContextRegistry c) _ := (reads_readPacketCR hfit).bind_pure (Reads.pure _)
    rw [signExtend_small hw hsound] at hread
    exact hread
  | functionCall c =>
    refine ⟨_, rfl, ?_⟩
    have hid : c.resTypeId.toNat < 2 ^ 31 := by
      have : c.resTypeId.toNat ≤ 32 := hsound
      omega
    have hread : Reads (packetReader origin hs protoFunctionCall |>.get rfl) (writeFcall c) _ :=
      (reads_readPacketFC (by omega) hfit).bind_pure (Reads.pure _)
    rw [signExtend_small hw hid] at hread
    exact hread
  | functionArgs args =>
    have hlen := hsize
    rw [ModulePacket.payload, Postproc.writeFargs_length] at hlen
    refine ⟨_, rfl, (reads_readPacketFA hfit ?_).bind_pure (Reads.pure _)⟩
    have hcount : args.length ≤ (args.map fun a => stringSize (some a.name) + stringSize a.value).sum := by
      rw [← List.length_map fun a : ModuleFarg => stringSize (some a.name) + stringSize a.value]
      refine List.length_le_sum_of_one_le _ fun i hi => ?_
      obtain ⟨a, -, rfl⟩ := List.mem_map.mp hi
      rw [stringSize]
      omega
    omega
  | backtrace frames =>
    have hlen := hsize
    rw [ModulePacket.payload, Postproc.writeBacktrace_length] at hlen
    have hcount : frames.length * 4 ≤ frames.length * (w / 8) := Nat.mul_le_mul_left _ (by omega)
    have hnat : (BitVec.ofNat 32 frames.length).toNat = frames.length := by
      rw [BitVec.toNat_ofNat]
      omega
    refine ⟨_, rfl, (reads_readPacketBT (by omega) ?_).bind_pure (Reads.pure _)⟩
    rw [signExtend_small hw (by omega), toNat_setWidth_small hw, hnat]

/-! ## Packets as the two programs see them -/

theorem protoPacket_size (type : BitVec 32) (payload : List UInt8) :
    (BitVec.ofNat 32 payload.length + 8 : BitVec 32)
      = BitVec.ofNat 32 (protoPacket type payload).length := by
  rw [Modules.protoPacket_length, Nat.add_comm, BitVec.ofNat_add]
  rfl

/-- The header that PACKET_START and PACKET_END write. -/
theorem reads_header (hmajor : 2 ≤ hs.vmajor.toNat) (type : BitVec 32) (payload : List UInt8) :
    readHeader hs (protoPacket type payload)
      = some ((type, BitVec.ofNat 32 (protoPacket type payload).length), payload) := by
  have hread : Reads (readHeader hs) (writeDword type ++ writeDword (BitVec.ofNat 32 payload.length))
      (type, BitVec.ofNat 32 payload.length + 8) := by
    rw [readHeader, if_neg (by omega)]
    exact (reads_readDword _).bind ((reads_readDword _).bind_pure (Reads.pure _))
  rw [← protoPacket_size]
  exact hread payload

theorem listenerHeader (type : BitVec 32) (payload : List UInt8) :
    Rtrace.readHeader (protoPacket type payload)
      = some ((type, BitVec.ofNat 32 (protoPacket type payload).length), payload) := by
  have hread : Reads Rtrace.readHeader
      (writeDword type ++ writeDword (BitVec.ofNat 32 payload.length))
      (type, BitVec.ofNat 32 payload.length + 8) :=
    (reads_readDword _).bind ((reads_readDword _).bind_pure (Reads.pure _))
  rw [← protoPacket_size]
  exact hread payload

/-- No known type begins like a handshake. -/
theorem known_plain {type : BitVec 32} {reader : Reader (PacketData w)}
    (h : packetReader origin hs type = some reader) : (writeDword type).head? ≠ some protoHsId := by
  have hmem : type ∈ [protoMemoryMap, protoContextRegistry, protoResourceRegistry, protoFunctionCall,
      protoBacktrace, protoFunctionArgs, protoProcessInfo, protoModuleInfo, protoHeapInfo,
      protoOutputSettings, protoAttachment] := by
    by_contra hnot
    simp only [List.mem_cons, List.not_mem_nil, or_false, not_or] at hnot
    simp [packetReader, hnot] at h
  have hall : ∀ type ∈ [protoMemoryMap, protoContextRegistry, protoResourceRegistry,
      protoFunctionCall, protoBacktrace, protoFunctionArgs, protoProcessInfo, protoModuleInfo,
      protoHeapInfo, protoOutputSettings, protoAttachment],
      (writeDword type).head? ≠ some protoHsId := by
    simp [writeDword, bytesLE, protoHsId, packetType, protoMemoryMap, protoContextRegistry,
      protoResourceRegistry, protoFunctionCall, protoBacktrace, protoFunctionArgs,
      protoProcessInfo, protoModuleInfo, protoHeapInfo, protoOutputSettings, protoAttachment]
  exact hall type hmem

/-- A packet of the post-processor's stream. -/
theorem exists_wirePacket (hmajor : 2 ≤ hs.vmajor.toNat) {type : BitVec 32}
    {payload unused : List UInt8} {reader : Reader (PacketData w)} {data : PacketData w}
    (hknown : packetReader origin hs type = some reader)
    (hread : reader payload = some (data, unused))
    (hsize : (protoPacket type payload).length ≤ Postproc.bufferSize) (hids : data.IdsInRange) :
    ∃ q : WirePacket w origin hs, q.bytes = protoPacket type payload ∧ q.data = data := by
  have hplain : ¬ isHandshake hs (protoPacket type payload) := by
    rintro ⟨-, hhead⟩
    refine known_plain hknown ?_
    rw [protoPacket, List.append_assoc, List.head?_append] at hhead
    cases hdword : (writeDword type).head? with
    | none =>
      have := congrArg List.length (List.head?_eq_none_iff.mp hdword)
      simp at this
    | some b => rwa [hdword, Option.some_or] at hhead
  exact ⟨⟨_, type, payload, reader, data, unused, reads_header hmajor type payload, hsize, hplain,
    hknown, hread, hids⟩, rfl, rfl⟩

theorem Reads.alone {α : Type} {reader : Reader α} {payload : List UInt8} {x : α}
    (h : Reads reader payload x) : reader payload = some (x, []) := by
  have hread := h []
  rwa [List.append_nil] at hread

theorem packetData_ids (hw : w = 32 ∨ w = 64) {p : ModulePacket w} (h : SoundPacket p) :
    (packetData origin p).IdsInRange := by
  cases p with
  | resourceRegistry r =>
    show ((r.id.setWidth 32).setWidth w).toNat ≤ 32
    rw [toNat_setWidth_small hw]
    exact h
  | functionCall c =>
    show (c.resTypeId.setWidth w).toNat ≤ 32
    rw [toNat_setWidth_small hw]
    exact h
  | _ => trivial

/-- `read_string` reads what `write_string` wrote, if it is short enough. -/
theorem reads_readString {s : Option Str} (h : Fits s) {size : Nat} (hsize : stringSize s < size + 2)
    (hpos : 0 < size) : Reads (readString size) (writeString s) (some (s.getD [])) := by
  cases s with
  | none =>
    intro rest
    have hread : Reads (readString size) (writeDword 0) (some []) := by
      have hword : Reads readWord (bytesLE 2 0) 0 := reads_readLE 2 0
      have hskip : Reads (takeBytes 2) (bytesLE 2 0) (bytesLE 2 0) := reads_takeBytes (bytesLE 2 0)
      have hbytes : writeDword 0 = bytesLE 2 0 ++ bytesLE 2 0 := rfl
      rw [hbytes]
      refine hword.bind ?_
      rw [if_neg (by omega), if_pos rfl]
      exact hskip.bind_pure (Reads.pure _)
    exact hread rest
  | some str =>
    obtain ⟨hstr, hlen⟩ := h
    set n := str.length + padding (2 + str.length) with hn
    have hpad : padding (2 + str.length) ≤ 3 := by
      rw [padding]
      omega
    have hbound : n < 256 ^ 2 ∧ n < size ∧ n ≠ 0 := by
      rw [stringSize] at hsize
      have hzero : str.length = 0 → padding (2 + str.length) = 2 := fun h => by rw [h]; rfl
      refine ⟨?_, by omega, by omega⟩
      rw [padding] at hn
      omega
    have hword : Reads readWord (bytesLE 2 n) n := by
      have := reads_readLE 2 n
      rwa [Nat.mod_eq_of_lt hbound.1] at this
    have hbody := reads_takeBytes (str.map byteOfChar ++ List.replicate (padding (2 + str.length)) 0)
    rw [List.length_append, List.length_map, List.length_replicate, ← hn] at hbody
    have hbytes : writeString (some str) = bytesLE 2 n ++
        (str.map byteOfChar ++ List.replicate (padding (2 + str.length)) 0) := by
      rw [writeString, List.append_assoc, show 2 + str.length + padding (2 + str.length) - 2 = n by omega]
    rw [hbytes]
    refine hword.bind ?_
    rw [if_neg (by omega), if_neg hbound.2.2]
    refine hbody.bind_pure ?_
    rw [cString_padded hstr]
    exact Reads.pure _

/-! ## What the pre-processor does with a packet -/

/-- The mappings that the pre-processor finds have names and packets that
are short enough. -/
def MapsFit (w : Nat) (env : ListenerEnv) : Prop :=
  ∀ k pid, ∀ line ∈ fgetsLines pathMax (env.maps k pid), ∀ map : Mmap w, mapsLine line = some map →
    Fits (some map.moduleName) ∧ (mmapPacket map).length ≤ Postproc.bufferSize

/-- What goes in front of a packet. -/
def leadBytes (hsBuffer : List UInt8) : StreamPacket w → List UInt8
  | .outputSettings .. => hsBuffer
  | _ => []

theorem reads_readPacketMM (hw : 8 ∣ w) {m : Mmap w} (h : Fits (some m.moduleName)) :
    Reads readPacketMM
      (writePointer m.fromAddr ++ writePointer m.toAddr ++ writeString (some m.moduleName)) m := by
  rw [List.append_assoc]
  exact (reads_readPointer hw _).bind ((reads_readPointer hw _).bind
    ((reads_readStringa h).bind_pure (Reads.pure _)))

/-- The memory maps of a scan. -/
theorem scanMmapLines_handed (origin : Str) (hw : w = 32 ∨ w = 64) (hmajor : 2 ≤ hs.vmajor.toNat) (env : ListenerEnv)
    {lines : List Str} (hfit : ∀ line ∈ lines, ∀ map : Mmap w, mapsLine line = some map →
      Fits (some map.moduleName) ∧ (mmapPacket map).length ≤ Postproc.bufferSize)
    (st : ListenerState w) :
    (scanMmapLines env lines st).hsBuffer = st.hsBuffer ∧
      ∃ (ps : List (WirePacket w origin hs)) (maps : List (Mmap w)),
        ps.map WirePacket.data = maps.map .memoryMap ∧
        (scanMmapLines env lines st).out.flatten = st.out.flatten ++ ps.flatMap WirePacket.bytes := by
  induction lines generalizing st with
  | nil => exact ⟨rfl, [], [], rfl, by simp [scanMmapLines]⟩
  | cons line lines ih =>
    have ih := fun st => ih (fun line hmem => hfit line (List.mem_cons_of_mem _ hmem)) st
    rw [scanMmapLines]
    split
    · exact ih st
    · rename_i map mmaps heq
      have hline : mapsLine line = some map := by
        simp only [Option.bind_eq_some_iff, Option.map_eq_some_iff, Prod.mk.injEq] at heq
        obtain ⟨map', hmap', mmaps', -, rfl, -⟩ := heq
        exact hmap'
      obtain ⟨hname, hsize⟩ := hfit line (by simp) map hline
      obtain ⟨q, hbytes, hdata⟩ : ∃ q : WirePacket w origin hs,
          q.bytes = mmapPacket map ∧ q.data = .memoryMap map :=
        exists_wirePacket hmajor rfl
          (Reads.alone ((reads_readPacketMM (by omega) hname).bind_pure (Reads.pure _))) hsize trivial
      dsimp only [writeData]
      split
      · rename_i st' hwrite
        obtain ⟨hbuffer, ps, maps, hps, hout⟩ := ih st'
        rw [← (Prod.mk.inj hwrite).1] at hbuffer hout
        refine ⟨?_, q :: ps, map :: maps, by simp [hdata, hps], ?_⟩
        · rw [← (Prod.mk.inj hwrite).1]
          exact hbuffer
        · rw [← (Prod.mk.inj hwrite).1, hout]
          simp [hbytes]
      · rename_i st' hwrite
        rw [← (Prod.mk.inj hwrite).1]
        exact ⟨rfl, [q], [map], by simp [hdata], by simp [hbytes]⟩

/-- The process information with its time stamp. -/
theorem stamp_processInfo (time : BitVec 32 × BitVec 32) (pid depth : BitVec 32) (name : Str) :
    stamp time (protoPacket protoProcessInfo (writeProcessInfo pid depth name))
      = protoPacket protoProcessInfo (writeDword pid ++ writeDword time.1 ++ writeDword time.2 ++
          writeDword depth ++ writeString (some name)) := by
  have hsame : (writeDword pid ++ writeDword time.1 ++ writeDword time.2 ++ writeDword depth ++
      writeString (some name)).length = (writeProcessInfo pid depth name).length := by
    simp [writeProcessInfo]
  have htake : ∀ front middle rest : List UInt8, front.length = 12 → middle.length = 8 →
      storeAt (front ++ (middle ++ rest)) 12 (writeDword time.1 ++ writeDword time.2)
        = front ++ (writeDword time.1 ++ writeDword time.2) ++ rest := by
    intro front middle rest hfront hmiddle
    have hpast : (front ++ middle).length = 20 := by simp [hfront, hmiddle]
    rw [storeAt, List.take_left' hfront, ← List.append_assoc front middle rest]
    exact congrArg _ (List.drop_left' (by simpa using hpast))
  rw [protoPacket, protoPacket, hsame, stamp]
  have hsplit : writeDword protoProcessInfo ++
      writeDword (BitVec.ofNat 32 (writeProcessInfo pid depth name).length) ++
        writeProcessInfo pid depth name
      = (writeDword protoProcessInfo ++
          writeDword (BitVec.ofNat 32 (writeProcessInfo pid depth name).length) ++ writeDword pid) ++
        ((writeDword 0 ++ writeDword 0) ++ (writeDword depth ++ writeString (some name))) := by
    simp [writeProcessInfo]
  rw [hsplit, htake _ _ _ (by simp) (by simp)]
  simp

theorem reads_stampedPI (hhs : hsCheckVersion hs 1 3 = true) (time : BitVec 32 × BitVec 32)
    (pid depth : BitVec 32) {name : Str} (h : Fits (some name)) :
    Reads (readPacketPI origin hs) (writeDword pid ++ writeDword time.1 ++ writeDword time.2 ++
        writeDword depth ++ writeString (some name))
      { pid, backtraceDepth := depth, name := some name, tvSec := time.1.toNat,
        tvUsec := time.2.toNat, traceOrigin := some origin } := by
  simp only [List.append_assoc]
  refine (reads_readDword _).bind ((reads_readDword _).bind ((reads_readDword _).bind ?_))
  rw [hsCheckVersion_mono hhs, if_pos rfl]
  exact (reads_readDword _).bind ((reads_readStringa h).bind_pure (Reads.pure _))

/-- What is handed over for `lp` are packets of the post-processor's
stream, with the data that `packet` delivers. -/
def HandsOver (origin : Str) (hs : Hshake) (packet : StreamPacket w) (lp : ListenerPacket) : Prop :=
  ∀ (env : ListenerEnv) (st : ListenerState w), MapsFit w env →
    (handOver env st lp).hsBuffer = st.hsBuffer ∧
    ∃ ps : List (WirePacket w origin hs), Delivers origin packet (ps.map WirePacket.data) ∧
      (handOver env st lp).out.flatten
        = st.out.flatten ++ leadBytes st.hsBuffer packet ++ ps.flatMap WirePacket.bytes

/-- A packet that is only passed on. -/
theorem passed_handsOver (origin : Str) (hw : w = 32 ∨ w = 64) (hhs : hsCheckVersion hs 1 3 = true)
    (hmajor : 2 ≤ hs.vmajor.toNat) {p : ModulePacket w} (h : Sendable (.packet p))
    (hnot : ∀ pid depth name, p ≠ .processInfo pid depth name)
    (hcontent : PacketContent p.type p.payload .other) :
    ∃ lp : ListenerPacket, lp.bytes = (StreamPacket.packet p).bytes ∧
      HandsOver origin hs (.packet p) lp := by
  have hsize : (protoPacket p.type p.payload).length ≤ 4096 := h.size
  have hpayload : p.payload.length ≤ 4096 := by
    rw [Modules.protoPacket_length] at hsize
    omega
  obtain ⟨reader, hknown, hread⟩ := reads_packet origin hw hhs h.strings.1 h.strings.2 hpayload
  obtain ⟨q, hbytes, hdata⟩ := exists_wirePacket hmajor hknown (Reads.alone hread) hsize
    (packetData_ids hw h.strings.2)
  refine ⟨⟨p.bytes, p.type, p.payload, .other, listenerHeader _ _, h.size, hcontent⟩, rfl,
    fun env st _ => ⟨rfl, [q], ?_, ?_⟩⟩
  · rw [List.map_singleton, hdata]
    cases p with
    | processInfo pid depth name => exact (hnot pid depth name rfl).elim
    | _ => rfl
  · simp [handOver, leadBytes, hbytes, ModulePacket.bytes]

theorem other_content {type : BitVec 32} (h : type ∈ [protoModuleInfo, protoResourceRegistry,
    protoContextRegistry, protoFunctionCall, protoFunctionArgs, protoBacktrace, protoHeapInfo])
    (payload : List UInt8) : PacketContent type payload .other := by
  have hall : ∀ type ∈ [protoModuleInfo, protoResourceRegistry, protoContextRegistry,
      protoFunctionCall, protoFunctionArgs, protoBacktrace, protoHeapInfo],
      type ∉ [protoOutputSettings, protoProcessInfo, protoNewLibrary, protoAttachment] := by
    simp [packetType, protoModuleInfo, protoResourceRegistry, protoContextRegistry,
      protoFunctionCall, protoFunctionArgs, protoBacktrace, protoHeapInfo, protoOutputSettings,
      protoProcessInfo, protoNewLibrary, protoAttachment]
  exact .other (hall type h)

/-- **One packet** that can be sent is handed over. -/
theorem sendable_handsOver (origin : Str) (hw : w = 32 ∨ w = 64) (hhs : hsCheckVersion hs 1 3 = true)
    (hmajor : 2 ≤ hs.vmajor.toNat) {packet : StreamPacket w} (h : Sendable packet) :
    ∃ lp : ListenerPacket, lp.bytes = packet.bytes ∧ HandsOver origin hs packet lp := by
  have hsize := h.size
  cases packet with
  | outputSettings dir post =>
    obtain ⟨hdir, hpost⟩ := h.strings
    have hsum : stringSize (some dir) + stringSize (some post) ≤ 4088 := by
      rw [StreamPacket.bytes, Modules.protoPacket_length, writeOutputSettings, List.length_append,
        writeString_length, writeString_length, Modules.bufferSize] at hsize
      omega
    have hread₁ : readString pathMax (writeOutputSettings (some dir) (some post))
        = some (some dir, writeString (some post)) :=
      reads_readString hdir (by rw [pathMax]; omega) (by decide) _
    have hread₂ : readString pathMax (writeString (some post)) = some (some post, []) :=
      Reads.alone (reads_readString hpost (by rw [pathMax]; omega) (by decide))
    obtain ⟨q, hbytes, hdata⟩ : ∃ q : WirePacket w origin hs,
        q.bytes = (StreamPacket.outputSettings dir post : StreamPacket w).bytes ∧
          q.data = .outputSettings := exists_wirePacket hmajor rfl rfl hsize trivial
    refine ⟨⟨_, _, _, .outputSettings dir post, listenerHeader _ _, hsize,
      .outputSettings hread₁ hread₂⟩, rfl, fun env st _ => ⟨rfl, [q], by simp [Delivers, hdata], ?_⟩⟩
    simp [handOver, leadBytes, hbytes, StreamPacket.bytes]
  | newLibrary library =>
    have hstring : stringSize library ≤ 4088 := by
      rw [StreamPacket.bytes, Modules.protoPacket_length, spRtraceWriteNewLibrary,
        writeString_length, Modules.bufferSize] at hsize
      omega
    have hread : readString pathMax (writeString library) = some (some (library.getD []), []) :=
      Reads.alone (reads_readString h.strings (by rw [pathMax]; omega) (by decide))
    refine ⟨⟨_, _, _, .newLibrary, listenerHeader _ _, hsize, .newLibrary hread⟩, rfl,
      fun env st hmaps => ?_⟩
    obtain ⟨hbuffer, ps, maps, hps, hout⟩ := scanMmapLines_handed origin hw hmajor env
      (hmaps st.out.length st.pid) st
    exact ⟨hbuffer, ps, ⟨maps, hps⟩, by simpa [leadBytes, handOver, scanMmapData] using hout⟩
  | packet p =>
    cases p with
    | processInfo pid depth name =>
      have hfit : Fits (some name) := h.strings.1
      have hread : readDword (writeProcessInfo pid depth name)
          = some (pid, writeDword 0 ++ (writeDword 0 ++ (writeDword depth ++ writeString (some name)))) := by
        simp only [writeProcessInfo, List.append_assoc]
        exact reads_readDword _ _
      refine ⟨⟨_, _, _, .processInfo pid 0, listenerHeader _ _, hsize,
        .processInfo hread (reads_readDword 0 _) (reads_readDword 0 _)⟩, rfl, fun env st _ => ?_⟩
      have hlen : (protoPacket protoProcessInfo (writeProcessInfo pid depth name)).length ≤ 4096 := hsize
      set time := env.timeofday st.out.length
      obtain ⟨q, hbytes, hdata⟩ := exists_wirePacket hmajor
        (show packetReader (w := w) origin hs protoProcessInfo = _ from rfl)
        (Reads.alone ((reads_stampedPI hhs time pid depth hfit).bind_pure (Reads.pure _)))
        (by
          rw [Modules.protoPacket_length] at hlen ⊢
          simpa [writeProcessInfo, Postproc.bufferSize] using hlen) trivial
      refine ⟨rfl, [q], ⟨_, _, by rw [List.map_singleton, hdata]⟩, ?_⟩
      show (st.out ++ [stamp time (protoPacket protoProcessInfo
        (writeProcessInfo pid depth name))]).flatten = _
      rw [stamp_processInfo, List.flatten_append]
      simp [leadBytes, hbytes]
    | heapInfo info =>
      exact passed_handsOver origin hw hhs hmajor h (by simp)
        (other_content (by simp [ModulePacket.type]) _)
    | attachment a =>
      obtain ⟨⟨hn, hp⟩, -⟩ := h.strings
      have hsum : stringSize a.name + stringSize (some a.path) ≤ 4088 := by
        simp only [StreamPacket.bytes, ModulePacket.bytes, Modules.protoPacket_length,
          ModulePacket.payload, spRtraceWriteAttachment, List.length_append, writeString_length,
          Modules.bufferSize] at hsize
        omega
      refine passed_handsOver origin hw hhs hmajor h (by simp) (.attachment
        (reads_readString hn (by rw [pathMax]; omega) (by decide) (writeString (some a.path)))
        (Reads.alone (reads_readString hp (by rw [pathMax]; omega) (by decide))))
    | moduleInfo m =>
      exact passed_handsOver origin hw hhs hmajor h (by simp)
        (other_content (by simp [ModulePacket.type]) _)
    | resourceRegistry r =>
      exact passed_handsOver origin hw hhs hmajor h (by simp)
        (other_content (by simp [ModulePacket.type]) _)
    | contextRegistry c =>
      exact passed_handsOver origin hw hhs hmajor h (by simp)
        (other_content (by simp [ModulePacket.type]) _)
    | functionCall c =>
      exact passed_handsOver origin hw hhs hmajor h (by simp)
        (other_content (by simp [ModulePacket.type]) _)
    | functionArgs args =>
      exact passed_handsOver origin hw hhs hmajor h (by simp)
        (other_content (by simp [ModulePacket.type]) _)
    | backtrace frames =>
      exact passed_handsOver origin hw hhs hmajor h (by simp)
        (other_content (by simp [ModulePacket.type]) _)

/-! ## Streams -/

/-- What the post-processor reads in the place of some packets. -/
def DeliversAll (origin : Str) (packets : List (StreamPacket w)) (data : List (PacketData w)) : Prop :=
  ∃ pieces, List.Forall₂ (Delivers origin) packets pieces ∧ data = pieces.flatten

/-- **Packets that can be sent are handed over**, one after the other. -/
theorem packets_handOver (origin : Str) (hw : w = 32 ∨ w = 64) (hhs : hsCheckVersion hs 1 3 = true)
    (hmajor : 2 ≤ hs.vmajor.toNat) {packets : List (StreamPacket w)}
    (h : ∀ packet ∈ packets, Sendable packet) :
    ∃ lps : List ListenerPacket, lps.flatMap ListenerPacket.bytes = packetBytes packets ∧
      ∀ (env : ListenerEnv) (st : ListenerState w), MapsFit w env →
        (∀ packet ∈ packets, leadBytes st.hsBuffer packet = []) →
        ∃ ps : List (WirePacket w origin hs), DeliversAll origin packets (ps.map WirePacket.data) ∧
          (lps.foldl (handOver env) st).out.flatten
            = st.out.flatten ++ ps.flatMap WirePacket.bytes := by
  induction packets with
  | nil => exact ⟨[], rfl, fun env st _ _ => ⟨[], ⟨[], .nil, rfl⟩, by simp⟩⟩
  | cons packet packets ih =>
    obtain ⟨lp, hbytes, hhand⟩ := sendable_handsOver origin hw hhs hmajor (h packet (by simp))
    obtain ⟨lps, hrest, hall⟩ := ih fun packet hmem => h packet (List.mem_cons_of_mem _ hmem)
    refine ⟨lp :: lps, by simp [packetBytes, hbytes, hrest], fun env st hmaps hlead => ?_⟩
    obtain ⟨hbuffer, ps, hdata, hout⟩ := hhand env st hmaps
    obtain ⟨qs, ⟨pieces, hpieces, hqs⟩, hout'⟩ := hall env (handOver env st lp) hmaps
      fun packet hmem => by rw [hbuffer]; exact hlead packet (List.mem_cons_of_mem _ hmem)
    rw [hlead packet (by simp), List.append_nil] at hout
    refine ⟨ps ++ qs, ⟨ps.map WirePacket.data :: pieces, .cons hdata hpieces, ?_⟩, ?_⟩
    · rw [List.map_append, hqs, List.flatten_cons]
    · rw [List.foldl_cons, hout', hout]
      simp

/-! ## The handshake -/

/-- The handshake as the post-processor reads it. -/
def sessionHshake (w : Nat) (arch : Str) : Hshake :=
  { vmajor := 2, vminor := 0, arch := some arch, endianness := 0, pointerSize := BitVec.ofNat 8 (w / 8) }

theorem reads_readByte (v : UInt8) : Reads readByte [v] (BitVec.ofNat 8 v.toNat) := by
  have hlt : v.toNat < 256 := UInt8.toNat_lt v
  have hbytes : bytesLE 1 v.toNat = [v] := by
    rw [bytesLE, bytesLE, Nat.mod_eq_of_lt hlt, UInt8.ofNat_toNat]
  have hread := reads_readLE 1 v.toNat
  rw [hbytes, pow_one, Nat.mod_eq_of_lt hlt] at hread
  exact hread.bind_pure (Reads.pure _)

theorem reads_handshake (hw : w = 32 ∨ w = 64) {arch : Str} (harch : CStr arch)
    (hlen : arch.length < 256) :
    Reads readHandshakePacket (handshakeFields w arch) (sessionHshake w arch) := by
  have hcount : (UInt8.ofNat arch.length).toNat = arch.length := by
    rw [UInt8.toNat_ofNat']
    exact Nat.mod_eq_of_lt hlen
  have htext : cString (arch.map byteOfChar) = arch := by
    simpa using cString_padded harch 0
  have hword : (UInt8.ofNat (w / 8)).toNat = w / 8 := by
    rcases hw with rfl | rfl <;> rfl
  have hfields : handshakeFields w arch = [protoVersionMajor] ++ ([protoVersionMinor] ++
      ([UInt8.ofNat arch.length] ++ (arch.map byteOfChar ++ ([0] ++ [UInt8.ofNat (w / 8)])))) := by
    simp [handshakeFields]
  have hbody : Reads (takeBytes arch.length) (arch.map byteOfChar) (arch.map byteOfChar) := by
    have := reads_takeBytes (arch.map byteOfChar)
    rwa [List.length_map] at this
  rw [hfields]
  refine (reads_readByte _).bind ((reads_readByte _).bind ((reads_readByte _).bind ?_))
  rw [hcount, BitVec.toNat_ofNat, Nat.mod_eq_of_lt (show arch.length < 2 ^ 8 from hlen)]
  refine hbody.bind ((reads_readByte _).bind ((reads_readByte _).bind_pure ?_))
  rw [htext, hword]
  exact Reads.pure _

/-- The handshake is one that both programs take, whatever it is filled up
with. -/
theorem writeHandshake_eq (hw : w = 32 ∨ w = 64) {arch : Str} (harch : CStr arch)
    (hlen : arch.length < 240) (mem : List UInt8) :
    ∃ h : WireHandshake w (sessionHshake w arch),
      writeHandshake w arch mem = handshakeBytes h.body ∧
      handshakeBytes h.body = protoHsId :: h.bytes := by
  have hlength := writeHandshake_length w arch mem
  set fields := handshakeFields w arch with hfields
  set fill := slice mem (2 + fields.length) (padding (2 + fields.length)) with hfill
  have hwrite : writeHandshake w arch mem = handshakeBytes (fields ++ fill) := by
    simp [writeHandshake, handshakeBytes, ← hfields, ← hfill]
  have hsize : (fields ++ fill).length < 256 := by
    rw [hwrite] at hlength
    simp only [handshakeBytes, List.length_cons] at hlength
    omega
  have hpointer : (sessionHshake w arch).pointerSize.toNat * 8 = w := by
    rcases hw with rfl | rfl <;> rfl
  exact ⟨⟨fields ++ fill, fill, hsize, reads_handshake hw harch (by omega) fill, rfl, hpointer⟩,
    hwrite, rfl⟩

end SpRtrace.Postproc
