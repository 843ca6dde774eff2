/-
SpRtrace.Postproc.ParseBinaryTheorems — what the encoders of the tracing
module write, the decoders of the post-processor read back.

Every decoder gets one `Reads` lemma against its encoder. It says what is
really read: the dwords that go into an `unsigned long` come out sign
extended. `RoundTrips` is the property one would like to have of every
packet, and `packet_roundTrips_iff` says of which packets it holds:

* heap information is written as dwords and read as pointers, so on a
  64-bit machine no such packet is read correctly;
* ids from 2^31 on change on a 64-bit machine;
* the packet length is a dword, so a payload of 2^32 bytes or more does
  not fit (only argument lists and backtraces get there).
-/
import Mathlib
import SpRtrace.Modules.Main
import SpRtrace.Postproc.ParseBinary

namespace SpRtrace.Postproc

open SpRtrace.Common SpRtrace.Lib SpRtrace.Modules

variable {w : Nat}

/-! ## Decoders against encoders -/

/-- The version dword holds the major number above the minor one. -/
theorem version_vmajor (vmajor vminor : BitVec 8) :
    ((vmajor.setWidth 32 <<< 16 ||| vminor.setWidth 32) >>> 16).setWidth 8 = vmajor := by
  ext i hi
  have hminor : vminor.getLsbD (16 + i) = false := BitVec.getLsbD_of_ge _ _ (by omega)
  simp [hminor]
  grind

theorem version_vminor (vmajor vminor : BitVec 8) :
    ((vmajor.setWidth 32 <<< 16 ||| vminor.setWidth 32) &&& 0xFFFF).setWidth 8 = vminor := by
  ext i hi
  have hmask : (0xFFFF : BitVec 32).getLsbD i = true := by
    have : ∀ j : Fin 8, (0xFFFF : BitVec 32).getLsbD j = true := by decide
    exact this ⟨i, hi⟩
  simp only [BitVec.getElem_setWidth, BitVec.getLsbD_and, BitVec.getLsbD_or,
    BitVec.getLsbD_shiftLeft, BitVec.getLsbD_setWidth, hmask]
  grind

theorem reads_readPacketMI {m : RtraceModule} (h : Fits m.name) :
    Reads readPacketMI (writeModuleInfo m)
      { id := m.id, vmajor := m.vmajor, vminor := m.vminor, name := m.name.getD [] } := by
  simp only [writeModuleInfo, List.append_assoc]
  refine (reads_readDword _).bind ((reads_readDword _).bind ((reads_readStringa h).bind_pure ?_))
  rw [version_vmajor, version_vminor]
  exact Reads.pure _

theorem reads_readPacketRR {hs : Hshake} (hhs : hsCheckVersion hs 1 3 = true)
    {r : ModuleResource w} (ht : Fits r.type) (hd : Fits r.desc) :
    Reads (readPacketRR hs) (writeResourceRegistry r)
      ({ id := (r.id.setWidth 32).signExtend w, type := r.type.getD [], desc := r.desc.getD [],
         flags := r.flags, hide := false } : Resource w) := by
  simp only [writeResourceRegistry, List.append_assoc]
  refine (reads_readDword2long _).bind ?_
  rw [if_pos hhs]
  exact (reads_readDword _).bind
    ((reads_readStringa ht).bind ((reads_readStringa hd).bind_pure (Reads.pure _)))

theorem hsCheckVersion_mono {hs : Hshake} (h : hsCheckVersion hs 1 3 = true) :
    hsCheckVersion hs 1 2 = true := by
  simp only [hsCheckVersion, Bool.or_eq_true, Bool.and_eq_true, decide_eq_true_eq] at h ⊢
  omega

theorem reads_readPacketPI {hs : Hshake} (hhs : hsCheckVersion hs 1 3 = true) (origin : Str)
    (pid depth : BitVec 32) {name : Str} (h : Fits (some name)) :
    Reads (readPacketPI origin hs) (writeProcessInfo pid depth name)
      { pid, backtraceDepth := depth, name := some name, tvSec := 0, tvUsec := 0,
        traceOrigin := some origin } := by
  simp only [writeProcessInfo, List.append_assoc]
  refine (reads_readDword _).bind ((reads_readDword _).bind ((reads_readDword _).bind ?_))
  rw [if_pos (hsCheckVersion_mono hhs)]
  exact (reads_readDword _).bind ((reads_readStringa h).bind_pure (Reads.pure _))

theorem reads_readPacketFILE {a : ModuleAttachment} (hn : Fits a.name) (hp : Fits (some a.path)) :
    Reads readPacketFILE (spRtraceWriteAttachment a) { name := a.name.getD [], path := a.path } :=
  (reads_readStringa hn).bind ((reads_readStringa hp).bind_pure (Reads.pure _))

theorem reads_readPacketCR {c : ModuleContext w} (h : Fits c.name) :
    Reads readPacketCR (spRtraceWriteContextRegistry c)
      ({ id := (c.id.setWidth 32).signExtend w, name := c.name.getD [] } : Context w) :=
  (reads_readDword2long _).bind ((reads_readStringa h).bind_pure (Reads.pure _))

theorem reads_readPacketFC (hw : 8 ∣ w) {c : ModuleFcall w} (h : Fits c.name) :
    Reads readPacketFC (writeFcall c)
      ({ resType := c.resTypeId.signExtend w, context := c.context, timestamp := c.timestamp,
         type := c.type, name := c.name.getD [], resSize := c.resSize, resId := c.resId } :
        FcPacket w) := by
  simp only [writeFcall, List.append_assoc]
  exact (reads_readDword2long _).bind ((reads_readDword _).bind ((reads_readDword _).bind
    ((reads_readDword _).bind ((reads_readStringa h).bind ((reads_readDword _).bind
      ((reads_readPointer hw _).bind_pure (Reads.pure _)))))))

theorem reads_readFarg {a : ModuleFarg} (hn : Fits (some a.name)) (hv : Fits a.value) :
    Reads readFarg (writeString (some a.name) ++ writeString a.value)
      { name := a.name, value := a.value.getD [] } :=
  (reads_readStringa hn).bind ((reads_readStringa hv).bind_pure (Reads.pure _))

theorem reads_readPacketFA {args : List ModuleFarg}
    (h : ∀ a ∈ args, Fits (some a.name) ∧ Fits a.value) (hlen : args.length < 2 ^ 32) :
    Reads readPacketFA (writeFargs args)
      (args.map fun a => { name := a.name, value := a.value.getD [] }) := by
  refine (reads_readDword _).bind ?_
  rw [BitVec.toNat_ofNat, Nat.mod_eq_of_lt hlen]
  exact reads_repeatRead fun a ha => reads_readFarg (h a ha).1 (h a ha).2

theorem reads_readPacketBT (hw : 8 ∣ w) {frames : List (BitVec w)}
    (hlen : ((BitVec.ofNat 32 frames.length).signExtend w).toNat = frames.length) :
    Reads readPacketBT (writeBacktrace frames) frames := by
  refine (reads_readDword2long _).bind ?_
  rw [hlen]
  have hread : Reads (repeatRead readPointer frames.length) (frames.flatMap writePointer)
      (frames.map id) := reads_repeatRead fun v _ => reads_readPointer hw v
  rwa [List.map_id] at hread

/-- With 32-bit pointers the heap ends are dwords on both sides. -/
theorem reads_readPacketHI (h : HeapInfo 32) :
    Reads readPacketHI (writeHeapInfo h)
      { heapBottom := h.heapBottom, heapTop := h.heapEnd, lowestBlock := 0, highestBlock := 0,
        arena := h.arena, ordblks := h.ordblks, smblks := h.smblks, hblks := h.hblks,
        hblkhd := h.hblkhd, usmblks := h.usmblks, fsmblks := h.fsmblks, uordblks := h.uordblks,
        fordblks := h.fordblks, keepcost := h.keepcost } := by
  have hptr : ∀ v : BitVec 32, Reads readPointer (writeDword v) v :=
    reads_readPointer (by decide)
  simp only [writeHeapInfo, List.append_assoc, BitVec.setWidth_eq]
  exact (hptr _).bind ((hptr _).bind ((reads_readDword _).bind ((reads_readDword _).bind
    ((reads_readDword _).bind ((reads_readDword _).bind ((reads_readDword _).bind
    ((reads_readDword _).bind ((reads_readDword _).bind ((reads_readDword _).bind
    ((reads_readDword _).bind ((reads_readDword _).bind_pure (Reads.pure _))))))))))))

/-- The heap packet reader takes two pointers and ten dwords. -/
theorem readPacketHI_length {bs rest : List UInt8} {h : Hinfo w}
    (hread : readPacketHI bs = some (h, rest)) : 2 * (w / 8) + 40 ≤ bs.length := by
  have hsize : Consumes (readPacketHI : Reader (Hinfo w))
      (w / 8 + (w / 8 + (4 + (4 + (4 + (4 + (4 + (4 + (4 + (4 + (4 + (4 + 0)))))))))))) :=
    consumes_readPointer.bind fun _ => consumes_readPointer.bind fun _ =>
      consumes_readDword.bind fun _ => consumes_readDword.bind fun _ =>
      consumes_readDword.bind fun _ => consumes_readDword.bind fun _ =>
      consumes_readDword.bind fun _ => consumes_readDword.bind fun _ =>
      consumes_readDword.bind fun _ => consumes_readDword.bind fun _ =>
      consumes_readDword.bind fun _ => consumes_readDword.bind fun _ => Consumes.pure _
  have := hsize bs h rest hread
  omega

/-! ## The round trip of a packet -/

/-- The data of a packet as the post-processor should have it: NULL
strings are empty and dwords are zero extended. -/
def packetData (origin : Str) : ModulePacket w → PacketData w
  | .moduleInfo m =>
      .moduleInfo { id := m.id, vmajor := m.vmajor, vminor := m.vminor, name := m.name.getD [] }
  | .resourceRegistry r =>
      .resourceRegistry { id := (r.id.setWidth 32).setWidth w, type := r.type.getD [],
                          desc := r.desc.getD [], flags := r.flags, hide := false }
  | .processInfo pid backtraceDepth procName =>
      .processInfo { pid, backtraceDepth, name := some procName, tvSec := 0, tvUsec := 0,
                     traceOrigin := some origin }
  | .heapInfo h =>
      .heapInfo { heapBottom := h.heapBottom, heapTop := h.heapEnd, lowestBlock := 0,
                  highestBlock := 0, arena := h.arena, ordblks := h.ordblks, smblks := h.smblks,
                  hblks := h.hblks, hblkhd := h.hblkhd, usmblks := h.usmblks,
                  fsmblks := h.fsmblks, uordblks := h.uordblks, fordblks := h.fordblks,
                  keepcost := h.keepcost }
  | .attachment a => .attachment { name := a.name.getD [], path := a.path }
  | .contextRegistry c =>
      .contextRegistry { id := (c.id.setWidth 32).setWidth w, name := c.name.getD [] }
  | .functionCall c =>
      .functionCall { resType := c.resTypeId.setWidth w, context := c.context,
                      timestamp := c.timestamp, type := c.type, name := c.name.getD [],
                      resSize := c.resSize, resId := c.resId }
  | .functionArgs args =>
      .functionArgs (args.map fun a => { name := a.name, value := a.value.getD [] })
  | .backtrace frames => .backtrace frames

/-- The strings of a packet are C strings that their length fields can hold. -/
def StringsFit : ModulePacket w → Prop
  | .moduleInfo m => Fits m.name
  | .resourceRegistry r => Fits r.type ∧ Fits r.desc
  | .processInfo _ _ procName => Fits (some procName)
  | .heapInfo _ => True
  | .attachment a => Fits a.name ∧ Fits (some a.path)
  | .contextRegistry c => Fits c.name
  | .functionCall c => Fits c.name
  | .functionArgs args => ∀ a ∈ args, Fits (some a.name) ∧ Fits a.value
  | .backtrace _ => True

/-- Whatever is behind the packet, the decoder of its type returns its data
and stays inside the length in the header; and the packet keeps the
alignment of the stream. -/
def RoundTrips (origin : Str) (hs : Hshake) (p : ModulePacket w) : Prop :=
  (∃ reader, packetReader origin hs p.type = some reader ∧
    ∀ rest, ∃ rest', reader (p.payload ++ rest) = some (packetData origin p, rest') ∧
      (p.payload ++ rest).length ≤ p.storedLength + rest'.length) ∧
  4 ∣ p.bytes.length

/-- A dword that sign extension leaves alone. -/
def KeepsSign (w : Nat) (v : BitVec 32) : Prop := w = 32 ∨ v.toNat < 2 ^ 31

/-- The packets that the two programs agree on. -/
def Agreed : ModulePacket w → Prop
  | .resourceRegistry r => KeepsSign w (r.id.setWidth 32)
  | .contextRegistry c => KeepsSign w (c.id.setWidth 32)
  | .functionCall c => KeepsSign w c.resTypeId
  | .heapInfo _ => w = 32
  | .functionArgs args =>
      4 + (args.map fun a => stringSize (some a.name) + stringSize a.value).sum < 2 ^ 32
  | .backtrace frames => 4 + frames.length * (w / 8) < 2 ^ 32
  | _ => True

/-- On a 64-bit machine exactly the ids below 2^31 survive `read_dword2long`. -/
theorem signExtend_eq_setWidth_iff (hw : w = 32 ∨ w = 64) (v : BitVec 32) :
    v.signExtend w = v.setWidth w ↔ KeepsSign w v := by
  have hmsb : v.msb = false ↔ v.toNat < 2 ^ 31 := BitVec.msb_eq_false_iff_two_mul_lt.trans (by omega)
  cases hw with
  | inl hw =>
    subst hw
    exact iff_of_true (by simp) (Or.inl rfl)
  | inr hw =>
    subst hw
    rw [KeepsSign, or_iff_right (by decide), ← hmsb]
    cases hv : v.msb with
    | false => exact iff_of_true (BitVec.signExtend_eq_setWidth_of_msb_false hv) rfl
    | true =>
      refine iff_of_false (fun heq => ?_) (by simp)
      have := congrArg BitVec.toNat heq
      rw [BitVec.toNat_signExtend, hv, if_pos rfl, BitVec.toNat_setWidth] at this
      omega

/-- The round trip of a packet whose payload is read exactly. -/
theorem roundTrips_iff_of_reads {origin : Str} {hs : Hshake} {p : ModulePacket w}
    {reader : Reader (PacketData w)} {x : PacketData w}
    (hreader : packetReader origin hs p.type = some reader) (hread : Reads reader p.payload x)
    (halign : 4 ∣ p.bytes.length) :
    RoundTrips origin hs p ↔ x = packetData origin p ∧ p.payload.length < 2 ^ 32 := by
  have hstored : p.storedLength = p.payload.length % 2 ^ 32 := BitVec.toNat_ofNat ..
  constructor
  · rintro ⟨⟨reader', hreader', h⟩, -⟩
    obtain rfl : reader = reader' := Option.some.inj (hreader.symm.trans hreader')
    obtain ⟨rest', hx, hlen⟩ := h []
    obtain ⟨hdata, rfl⟩ := Prod.mk.inj (Option.some.inj ((hread []).symm.trans hx))
    rw [List.append_nil, List.length_nil, hstored] at hlen
    exact ⟨hdata, by omega⟩
  · rintro ⟨rfl, hlen⟩
    refine ⟨⟨reader, hreader, fun rest => ⟨rest, hread rest, ?_⟩⟩, halign⟩
    rw [List.length_append, hstored, Nat.mod_eq_of_lt hlen]

/-- A packet whose data is read exactly only has to fit its length field. -/
theorem roundTrips_iff_length {origin : Str} {hs : Hshake} {p : ModulePacket w}
    {reader : Reader (PacketData w)} (hreader : packetReader origin hs p.type = some reader)
    (hread : Reads reader p.payload (packetData origin p)) (halign : 4 ∣ p.bytes.length) :
    RoundTrips origin hs p ↔ p.payload.length < 2 ^ 32 := by
  rw [roundTrips_iff_of_reads hreader hread halign]
  exact and_iff_right rfl

/-! ## Sizes -/

theorem writeFargs_length (args : List ModuleFarg) :
    (writeFargs args).length
      = 4 + (args.map fun a => stringSize (some a.name) + stringSize a.value).sum := by
  simp [writeFargs, List.length_flatMap]

theorem writeBacktrace_length (frames : List (BitVec w)) :
    (writeBacktrace frames).length = 4 + frames.length * (w / 8) := by
  simp [writeBacktrace, List.length_flatMap]

theorem four_dvd_bytes (hw : w = 32 ∨ w = 64) (p : ModulePacket w) : 4 ∣ p.bytes.length := by
  have hstr := four_dvd_stringSize
  have hword : 4 ∣ w / 8 := by omega
  suffices hpayload : 4 ∣ p.payload.length by
    simp only [ModulePacket.bytes, protoPacket, List.length_append, writeDword_length]
    omega
  cases p with
  | moduleInfo m =>
    have := hstr m.name
    simp only [ModulePacket.payload, writeModuleInfo, List.length_append, writeDword_length,
      writeString_length]
    omega
  | resourceRegistry r =>
    have := hstr r.type
    have := hstr r.desc
    simp only [ModulePacket.payload, writeResourceRegistry, List.length_append, writeDword_length,
      writeString_length]
    omega
  | processInfo pid depth name =>
    have := hstr (some name)
    simp only [ModulePacket.payload, writeProcessInfo, List.length_append, writeDword_length,
      writeString_length]
    omega
  | heapInfo h =>
    simp only [ModulePacket.payload, writeHeapInfo, List.length_append, writeDword_length]
    decide
  | attachment a =>
    have := hstr a.name
    have := hstr (some a.path)
    simp only [ModulePacket.payload, spRtraceWriteAttachment, List.length_append,
      writeString_length]
    omega
  | contextRegistry c =>
    have := hstr c.name
    simp only [ModulePacket.payload, spRtraceWriteContextRegistry, List.length_append,
      writeDword_length, writeString_length]
    omega
  | functionCall c =>
    have := hstr c.name
    simp only [ModulePacket.payload, writeFcall, List.length_append, writeDword_length,
      writeString_length, writePointer_length]
    omega
  | functionArgs args =>
    have hargs : 4 ∣ (args.map fun a => stringSize (some a.name) + stringSize a.value).sum := by
      refine List.dvd_sum fun n hn => ?_
      obtain ⟨a, -, rfl⟩ := List.mem_map.mp hn
      exact Nat.dvd_add (hstr _) (hstr _)
    rw [ModulePacket.payload, writeFargs_length]
    omega
  | backtrace frames =>
    rw [ModulePacket.payload, writeBacktrace_length]
    exact Nat.dvd_add (by decide) (Dvd.dvd.mul_left hword _)

/-! ## Where the programs agree -/

/-- A reader of a known type that returns the data of a packet, in front of
nothing. -/
theorem RoundTrips.reads_alone {origin : Str} {hs : Hshake} {p : ModulePacket w}
    {reader : Reader (PacketData w)} (h : RoundTrips origin hs p)
    (hreader : packetReader origin hs p.type = some reader) :
    ∃ rest, reader p.payload = some (packetData origin p, rest) := by
  obtain ⟨⟨reader', hreader', hread⟩, -⟩ := h
  obtain rfl : reader = reader' := Option.some.inj (hreader.symm.trans hreader')
  obtain ⟨rest, hx, -⟩ := hread []
  rw [List.append_nil] at hx
  exact ⟨rest, hx⟩

/-- An argument packet that is read back has a count that fits its dword. -/
theorem roundTrips_functionArgs_iff (hw : w = 32 ∨ w = 64) {origin : Str} {hs : Hshake}
    {args : List ModuleFarg} (hfit : ∀ a ∈ args, Fits (some a.name) ∧ Fits a.value) :
    RoundTrips origin hs (.functionArgs args : ModulePacket w)
      ↔ (writeFargs args).length < 2 ^ 32 := by
  have hiff : args.length < 2 ^ 32 → (RoundTrips origin hs (.functionArgs args : ModulePacket w)
      ↔ (writeFargs args).length < 2 ^ 32) := fun hlen =>
    roundTrips_iff_length rfl
      ((reads_readPacketFA hfit hlen).bind_pure (Reads.pure _)) (four_dvd_bytes hw _)
  constructor
  · intro h
    obtain ⟨rest, hread⟩ := h.reads_alone rfl
    obtain ⟨as, rest', hread, has⟩ := reader_bind_eq_some hread
    obtain ⟨argc, mid, hargc, hread⟩ := reader_bind_eq_some hread
    have hlen := repeatRead_length hread
    have has : as = args.map fun a => { name := a.name, value := a.value.getD [] } := by
      injection (Prod.mk.inj (Option.some.inj has)).1
    rw [has, List.length_map] at hlen
    exact (hiff (hlen ▸ argc.isLt)).mp h
  · intro h
    have hcount : args.length ≤ (writeFargs args).length := by
      rw [writeFargs_length]
      have hle := List.length_le_sum_of_one_le
        (args.map fun a => stringSize (some a.name) + stringSize a.value) (by
          intro n hn
          obtain ⟨a, -, rfl⟩ := List.mem_map.mp hn
          rw [stringSize]
          omega)
      rw [List.length_map] at hle
      omega
    exact (hiff (by omega)).mpr h

theorem roundTrips_backtrace_iff (hw : w = 32 ∨ w = 64) {origin : Str} {hs : Hshake}
    {frames : List (BitVec w)} :
    RoundTrips origin hs (.backtrace frames) ↔ (writeBacktrace frames).length < 2 ^ 32 := by
  have hiff : ((BitVec.ofNat 32 frames.length).signExtend w).toNat = frames.length →
      (RoundTrips origin hs (.backtrace frames) ↔ (writeBacktrace frames).length < 2 ^ 32) :=
    fun hlen => roundTrips_iff_length rfl
      ((reads_readPacketBT (by omega) hlen).bind_pure (Reads.pure _)) (four_dvd_bytes hw _)
  constructor
  · intro h
    obtain ⟨rest, hread⟩ := h.reads_alone rfl
    obtain ⟨addrs, rest', hread, haddrs⟩ := reader_bind_eq_some hread
    obtain ⟨nframes, mid, hnframes, hread⟩ := reader_bind_eq_some hread
    have hlen := repeatRead_length hread
    have haddrs : addrs = frames := by
      injection (Prod.mk.inj (Option.some.inj haddrs)).1
    -- the count that is read is the sign extended one
    have hcount : nframes = (BitVec.ofNat 32 frames.length).signExtend w := by
      have hdword := reads_readDword2long (w := w) (BitVec.ofNat 32 frames.length)
        (frames.flatMap writePointer)
      exact (Prod.mk.inj (Option.some.inj (hnframes.symm.trans hdword))).1
    rw [haddrs, hcount] at hlen
    exact (hiff hlen.symm).mp h
  · intro h
    have hlen := writeBacktrace_length frames
    have hcount : frames.length < 2 ^ 29 ∨ w = 32 ∧ frames.length < 2 ^ 30 := by
      cases hw with
      | inl hw => subst hw; omega
      | inr hw => subst hw; omega
    have hword : (BitVec.ofNat 32 frames.length).toNat = frames.length := by
      rw [BitVec.toNat_ofNat]; omega
    have hsign := (signExtend_eq_setWidth_iff hw (BitVec.ofNat 32 frames.length)).mpr
      (Or.inr (by omega))
    refine (hiff ?_).mpr h
    rw [hsign, BitVec.toNat_setWidth, hword]
    refine Nat.mod_eq_of_lt (Nat.lt_of_lt_of_le ?_ (Nat.pow_le_pow_right (by decide)
      (show 32 ≤ w by omega)))
    omega

/-- Heap information only gets through with 32-bit pointers: otherwise the
reader asks for more bytes than there are. -/
theorem roundTrips_heapInfo_iff (hw : w = 32 ∨ w = 64) {origin : Str} {hs : Hshake}
    {h : HeapInfo w} : RoundTrips origin hs (.heapInfo h) ↔ w = 32 := by
  cases hw with
  | inl hw =>
    subst hw
    have hiff : RoundTrips origin hs (.heapInfo h) ↔ (writeHeapInfo h).length < 2 ^ 32 :=
      roundTrips_iff_length rfl ((reads_readPacketHI h).bind_pure (Reads.pure _))
        (four_dvd_bytes (Or.inl rfl) _)
    exact iff_of_true (hiff.mpr (by simp [writeHeapInfo])) rfl
  | inr hw =>
    subst hw
    refine iff_of_false (fun hround => ?_) (by decide)
    obtain ⟨rest, hread⟩ := hround.reads_alone rfl
    obtain ⟨hi, rest', hread, -⟩ := reader_bind_eq_some hread
    have hlen := readPacketHI_length hread
    simp [ModulePacket.payload, writeHeapInfo] at hlen

/-- A packet with one dword that is widened. -/
theorem roundTrips_iff_keepsSign (hw : w = 32 ∨ w = 64) {origin : Str} {hs : Hshake}
    {p : ModulePacket w} {reader : Reader (PacketData w)} {v : BitVec 32}
    (make : BitVec w → PacketData w) (hmake : Function.Injective make)
    (hreader : packetReader origin hs p.type = some reader)
    (hread : Reads reader p.payload (make (v.signExtend w)))
    (hdata : packetData origin p = make (v.setWidth w)) (hlen : p.payload.length < 2 ^ 32) :
    RoundTrips origin hs p ↔ KeepsSign w v := by
  rw [roundTrips_iff_of_reads hreader hread (four_dvd_bytes hw p), hdata, hmake.eq_iff,
    signExtend_eq_setWidth_iff hw]
  exact and_iff_left hlen

/-- **The round trip of the binary protocol**: with 4 and with 8 byte
pointers, exactly the agreed packets are decoded to what was encoded. -/
theorem packet_roundTrips_iff (hw : w = 32 ∨ w = 64) (origin : Str) {hs : Hshake}
    (hhs : hsCheckVersion hs 1 3 = true) (p : ModulePacket w) (hfit : StringsFit p) :
    RoundTrips origin hs p ↔ Agreed p := by
  have halign := four_dvd_bytes hw p
  cases p with
  | moduleInfo m =>
    have hlen := stringSize_le hfit
    have hiff : RoundTrips origin hs (.moduleInfo m) ↔ (writeModuleInfo m).length < 2 ^ 32 :=
      roundTrips_iff_length rfl ((reads_readPacketMI hfit).bind_pure (Reads.pure _)) halign
    refine iff_of_true (hiff.mpr ?_) trivial
    simp only [writeModuleInfo, List.length_append, writeDword_length,
      writeString_length]
    omega
  | resourceRegistry r =>
    have ht := stringSize_le hfit.1
    have hd := stringSize_le hfit.2
    refine roundTrips_iff_keepsSign hw (fun id => .resourceRegistry
      { id, type := r.type.getD [], desc := r.desc.getD [], flags := r.flags, hide := false })
      (fun a b hab => ?_) rfl
      ((reads_readPacketRR hhs hfit.1 hfit.2).bind_pure (Reads.pure _)) rfl ?_
    · injection hab with hab
      exact (Resource.mk.inj hab).1
    · simp only [ModulePacket.payload, writeResourceRegistry, List.length_append,
        writeDword_length, writeString_length]
      omega
  | processInfo pid depth name =>
    have hlen := stringSize_le (s := some name) hfit
    have hiff : RoundTrips origin hs (.processInfo pid depth name)
        ↔ (writeProcessInfo pid depth name).length < 2 ^ 32 :=
      roundTrips_iff_length rfl
        ((reads_readPacketPI hhs origin pid depth hfit).bind_pure (Reads.pure _)) halign
    refine iff_of_true (hiff.mpr ?_) trivial
    simp only [writeProcessInfo, List.length_append, writeDword_length,
      writeString_length]
    omega
  | heapInfo h => exact roundTrips_heapInfo_iff hw
  | attachment a =>
    have hn := stringSize_le hfit.1
    have hp := stringSize_le hfit.2
    have hiff : RoundTrips origin hs (.attachment a)
        ↔ (spRtraceWriteAttachment a).length < 2 ^ 32 :=
      roundTrips_iff_length rfl
        ((reads_readPacketFILE hfit.1 hfit.2).bind_pure (Reads.pure _)) halign
    refine iff_of_true (hiff.mpr ?_) trivial
    simp only [spRtraceWriteAttachment, List.length_append,
      writeString_length]
    omega
  | contextRegistry c =>
    have hlen := stringSize_le hfit
    refine roundTrips_iff_keepsSign hw
      (fun id => .contextRegistry { id, name := c.name.getD [] })
      (fun a b hab => ?_) rfl ((reads_readPacketCR hfit).bind_pure (Reads.pure _)) rfl ?_
    · injection hab with hab
      exact (Context.mk.inj hab).1
    · simp only [ModulePacket.payload, spRtraceWriteContextRegistry, List.length_append,
        writeDword_length, writeString_length]
      omega
  | functionCall c =>
    have hlen := stringSize_le hfit
    refine roundTrips_iff_keepsSign hw (fun resType => .functionCall
      { resType, context := c.context, timestamp := c.timestamp, type := c.type,
        name := c.name.getD [], resSize := c.resSize, resId := c.resId })
      (fun a b hab => ?_) rfl
      ((reads_readPacketFC (by omega) hfit).bind_pure (Reads.pure _)) rfl ?_
    · injection hab with hab
      exact (FcPacket.mk.inj hab).1
    · simp only [ModulePacket.payload, writeFcall, List.length_append, writeDword_length,
        writeString_length, writePointer_length]
      omega
  | functionArgs args =>
    rw [Agreed, ← writeFargs_length]
    exact roundTrips_functionArgs_iff hw hfit
  | backtrace frames =>
    rw [Agreed, ← writeBacktrace_length]
    exact roundTrips_backtrace_iff hw

/-- The handshake of a tracing module on x86_64. -/
def sampleHshake : Hshake :=
  { vmajor := 2, vminor := 0, arch := some "x86_64".toList, endianness := 0, pointerSize := 8 }

/-- The resource of the memory module is read back on 64-bit machines. -/
theorem packet_roundTrips_iff_memory :
    RoundTrips [] sampleHshake (.resourceRegistry
      { id := 1, type := some "memory".toList, desc := some "memory allocation in bytes".toList,
        flags := 0 } : ModulePacket 64) := by
  refine (packet_roundTrips_iff (Or.inr rfl) [] (by decide) _ ?_).mpr (Or.inr (by decide))
  exact ⟨⟨by simp [CStr], by decide⟩, ⟨by simp [CStr], by decide⟩⟩

/-- Heap information of a 64-bit process is not. -/
theorem heapInfo_not_roundTrips :
    ¬ RoundTrips [] sampleHshake (.heapInfo
      { heapBottom := 0x602000, heapEnd := 0x623000, arena := 135168, ordblks := 1, smblks := 0,
        hblks := 0, hblkhd := 0, usmblks := 0, fsmblks := 0, uordblks := 656, fordblks := 134512,
        keepcost := 134512 } : ModulePacket 64) := by
  rw [roundTrips_heapInfo_iff (Or.inr rfl)]
  decide

end SpRtrace.Postproc
