/-
SpRtrace.Pagemap.PageflagsTheorems — what a lookup in the pageflags file
finds.

A file is a sequence of sections, one for every area in the order of
writing. Each of the three walks over the headers has one lemma about a
sequence of sections: writing extends it (`cutKpageflagsRange_eq`), the
scan replaces the records of one section (`scanAddressRange_eq`), a lookup
finds the section of its area (`lookupFrom_found`). A lookup that finds
none goes on to the end of the file and reads a header there
(`lookupFrom_absent`), so `pageflags_lookup_iff` holds for written areas
only.
-/
import SpRtrace.Pagemap.Pageflags

namespace SpRtrace.Pagemap

open SpRtrace.Lib SpRtrace.Common

/-! ## Structures in memory -/

@[simp] theorem PageflagsHeader.bytes_length (h : PageflagsHeader) :
    h.bytes.length = sizeofHeader := by
  simp [PageflagsHeader.bytes, sizeofHeader]

@[simp] theorem PageflagsData.bytes_length (d : PageflagsData) : d.bytes.length = sizeofData := by
  simp [PageflagsData.bytes, sizeofData]

theorem reads_zeros (n : Nat) :
    Reads (takeBytes n) (List.replicate n 0) (List.replicate n 0) := by
  have h := reads_takeBytes (List.replicate n 0)
  rwa [List.length_replicate] at h

theorem reads_readHeader (h : PageflagsHeader) : Reads readHeader h.bytes h := by
  refine (reads_readPointer (by decide) h.fromAddr).bind ?_
  refine (reads_readPointer (by decide) h.toAddr).bind ?_
  refine (reads_readDword h.size).bind ?_
  exact (reads_zeros 4).bind_pure (Reads.pure _)

theorem reads_readData (d : PageflagsData) : Reads readData d.bytes d := by
  refine (reads_readDword d.info).bind ?_
  refine (reads_zeros 4).bind ?_
  refine (reads_readPointer (by decide) d.kflags).bind ?_
  refine (reads_readDword d.kcount).bind ?_
  exact (reads_zeros 4).bind_pure (Reads.pure _)

theorem Reads.exact {α : Type} {p : Reader α} {bs : List UInt8} {a : α} (h : Reads p bs a) :
    p bs = some (a, []) := by
  have := h []
  rwa [List.append_nil] at this

/-! ## Sections -/

variable {pageSize : Nat}

/-- A memory area, from one page boundary to another. -/
structure MemArea (pageSize : Nat) where
  fromAddr : BitVec 64
  toAddr : BitVec 64
  le : fromAddr.toNat ≤ toAddr.toNat
  fromAligned : pageSize ∣ fromAddr.toNat
  toAligned : pageSize ∣ toAddr.toNat

def MemArea.pages (a : MemArea pageSize) : Nat :=
  (a.toAddr.toNat - a.fromAddr.toNat) / pageSize

/-- The area is that between two addresses. -/
def MemArea.Is (a : MemArea pageSize) (fromAddr toAddr : BitVec 64) : Prop :=
  a.fromAddr = fromAddr ∧ a.toAddr = toAddr

instance (a : MemArea pageSize) (fromAddr toAddr : BitVec 64) :
    Decidable (a.Is fromAddr toAddr) :=
  inferInstanceAs (Decidable (_ ∧ _))

def MemArea.header (a : MemArea pageSize) : PageflagsHeader :=
  { fromAddr := a.fromAddr, toAddr := a.toAddr, size := BitVec.ofNat 32 (a.pages * sizeofData) }

/-- The size of the records fits into the header. -/
def MemArea.Fits (a : MemArea pageSize) : Prop := a.pages * sizeofData < 2 ^ 32

/-- An area with a record for every page. -/
structure PageSection (pageSize : Nat) where
  area : MemArea pageSize
  records : List PageflagsData
  length : records.length = area.pages

def PageSection.bytes (s : PageSection pageSize) : List UInt8 :=
  s.area.header.bytes ++ s.records.flatMap PageflagsData.bytes

def sectionsFile (secs : List (PageSection pageSize)) : List UInt8 :=
  secs.flatMap PageSection.bytes

@[simp] theorem sectionsFile_nil : sectionsFile ([] : List (PageSection pageSize)) = [] := rfl

@[simp] theorem sectionsFile_cons (s : PageSection pageSize) (secs : List (PageSection pageSize)) :
    sectionsFile (s :: secs) = s.bytes ++ sectionsFile secs := rfl

@[simp] theorem sectionsFile_append (secs secs' : List (PageSection pageSize)) :
    sectionsFile (secs ++ secs') = sectionsFile secs ++ sectionsFile secs' :=
  List.flatMap_append

theorem records_length (records : List PageflagsData) :
    (records.flatMap PageflagsData.bytes).length = records.length * sizeofData := by
  simp [List.length_flatMap]

theorem PageSection.bytes_length (s : PageSection pageSize) :
    s.bytes.length = sizeofHeader + s.area.pages * sizeofData := by
  rw [PageSection.bytes, List.length_append, PageflagsHeader.bytes_length, records_length, s.length]

theorem MemArea.header_size {a : MemArea pageSize} (h : a.Fits) :
    a.header.size.toNat = a.pages * sizeofData := by
  rw [MemArea.header, BitVec.toNat_ofNat, Nat.mod_eq_of_lt h]

/-! ## Writing -/

/-- The records that are written for an area. -/
def cutRecords (src : PageSource) (a : MemArea pageSize) : List PageflagsData :=
  (List.range' (a.fromAddr.toNat / pageSize) a.pages).map (cutRecord src)

def cutSection (src : PageSource) (a : MemArea pageSize) : PageSection pageSize where
  area := a
  records := cutRecords src a
  length := by rw [cutRecords, List.length_map, List.length_range']

/-- Both ends of an area are page boundaries. -/
theorem MemArea.pages_eq (hpos : 0 < pageSize) (a : MemArea pageSize) :
    a.toAddr.toNat / pageSize - a.fromAddr.toNat / pageSize = a.pages := by
  obtain ⟨k, hk⟩ := a.fromAligned
  obtain ⟨m, hm⟩ := a.toAligned
  rw [MemArea.pages, hk, hm, ← Nat.mul_sub, Nat.mul_div_cancel_left _ hpos,
    Nat.mul_div_cancel_left _ hpos, Nat.mul_div_cancel_left _ hpos]

/-- Writing an area adds its section. -/
theorem cutKpageflagsRange_eq (hpos : 0 < pageSize) (src : PageSource) (a : MemArea pageSize)
    (file : List UInt8) :
    cutKpageflagsRange pageSize src a.fromAddr a.toAddr ⟨file, file.length⟩
      = ⟨file ++ (cutSection src a).bytes, (file ++ (cutSection src a).bytes).length⟩ := by
  have hsub : (a.toAddr - a.fromAddr).toNat = a.toAddr.toNat - a.fromAddr.toNat :=
    BitVec.toNat_sub_of_le a.le
  have hrecords : (List.range' (a.fromAddr.toNat / pageSize) a.pages).flatMap
      (fun i => (cutRecord src i).bytes) = (cutRecords src a).flatMap PageflagsData.bytes := by
    rw [cutRecords, List.flatMap_map]
  have hwrite := Fd.write_end file a.header.bytes
  rw [← List.length_append] at hwrite
  unfold cutKpageflagsRange
  simp only [hsub, MemArea.pages_eq hpos]
  show (List.range' _ _).foldl _ ((Fd.mk file file.length).write a.header.bytes) = _
  rw [hwrite, Fd.write_each, hrecords, List.append_assoc]
  rfl

/-! ## Scanning -/

/-- The header of a section is read at its start. -/
theorem read_section (s : PageSection pageSize) (rest : List UInt8) :
    readHeader (s.bytes ++ rest)
      = some (s.area.header, s.records.flatMap PageflagsData.bytes ++ rest) := by
  rw [PageSection.bytes, List.append_assoc]
  exact reads_readHeader s.area.header _

/-- One step of the search. -/
theorem findHeader_step (s : PageSection pageSize) (pre post : List UInt8)
    (fromAddr toAddr : BitVec 64) :
    findHeader fromAddr toAddr ⟨pre ++ s.bytes ++ post, pre.length⟩ =
      if s.area.Is fromAddr toAddr then
        some ⟨pre ++ s.bytes ++ post, pre.length + sizeofHeader⟩
      else
        findHeader fromAddr toAddr
          ⟨pre ++ s.bytes ++ post, pre.length + sizeofHeader + s.area.header.size.toNat⟩ := by
  have hread : (Fd.mk (pre ++ s.bytes ++ post) pre.length).read sizeofHeader
      = (s.area.header.bytes, ⟨pre ++ s.bytes ++ post, pre.length + sizeofHeader⟩) := by
    have h := Fd.read_at pre s.area.header.bytes
      (s.records.flatMap PageflagsData.bytes ++ post)
    rw [PageflagsHeader.bytes_length] at h
    simpa [PageSection.bytes] using h
  have hheader : readHeader ((Fd.mk (pre ++ s.bytes ++ post) pre.length).read sizeofHeader).1
      = some (s.area.header, []) := by
    rw [hread]
    exact Reads.exact (reads_readHeader _)
  rw [findHeader]
  split
  next hnone => exact absurd (hnone.symm.trans hheader) (by simp)
  next header rest hsome =>
    obtain ⟨rfl, -⟩ := Prod.mk.inj (Option.some.inj (hsome.symm.trans hheader))
    rw [hread]
    rfl

/-- The search ends behind the header of the first section that has the
area. -/
theorem findHeader_found {l r : List (PageSection pageSize)} {s : PageSection pageSize}
    {fromAddr toAddr : BitVec 64} (hfits : ∀ s' ∈ l, s'.area.Fits)
    (hskip : ∀ s' ∈ l, ¬ s'.area.Is fromAddr toAddr) (hs : s.area.Is fromAddr toAddr)
    (pre : List UInt8) :
    findHeader fromAddr toAddr ⟨pre ++ sectionsFile (l ++ s :: r), pre.length⟩
      = some ⟨pre ++ sectionsFile (l ++ s :: r),
          pre.length + (sectionsFile l).length + sizeofHeader⟩ := by
  induction l generalizing pre with
  | nil =>
    have h := findHeader_step s pre (sectionsFile r) fromAddr toAddr
    rw [if_pos hs, List.append_assoc] at h
    exact h
  | cons s' l ih =>
    have hrest := ih (fun t ht => hfits t (List.mem_cons_of_mem _ ht))
      (fun t ht => hskip t (List.mem_cons_of_mem _ ht)) (pre ++ s'.bytes)
    have hstep := findHeader_step s' pre (sectionsFile (l ++ s :: r)) fromAddr toAddr
    have hnext : pre.length + sizeofHeader + s'.area.header.size.toNat
        = (pre ++ s'.bytes).length := by
      rw [MemArea.header_size (hfits s' (List.mem_cons_self ..)), List.length_append,
        PageSection.bytes_length]
      omega
    rw [if_neg (hskip s' (List.mem_cons_self ..)), hnext, hrest] at hstep
    rw [List.cons_append, sectionsFile_cons, sectionsFile_cons, ← List.append_assoc, hstep]
    simp only [List.length_append, Nat.add_assoc]

/-- One record is completed in place. -/
theorem scanPage_eq (pageSize : Nat) (src : PageSource) (addr : Nat) (d : PageflagsData) (pre post : List UInt8) :
    scanPage pageSize src ⟨pre ++ d.bytes ++ post, pre.length⟩ addr =
      some ⟨pre ++ (scanRecord pageSize src addr d).bytes ++ post, pre.length + sizeofData⟩ := by
  have hread := Fd.read_at pre d.bytes post
  rw [PageflagsData.bytes_length] at hread
  have hback : pre.length + sizeofData - sizeofData = pre.length := Nat.add_sub_cancel ..
  have hwrite := Fd.write_at pre post
    (show (scanRecord pageSize src addr d).bytes.length = d.bytes.length by simp)
  rw [PageflagsData.bytes_length] at hwrite
  unfold scanPage
  rw [hread, Reads.exact (reads_readData d)]
  simp only [Fd.seek, hback, hwrite]

/-- The records of the area are completed one after the other. -/
theorem scanPages_eq (pageSize : Nat) (src : PageSource) {addrs : List Nat} {records : List PageflagsData}
    (hlen : addrs.length = records.length) (pre post : List UInt8) :
    ∃ pos, addrs.foldlM (scanPage pageSize src)
        ⟨pre ++ records.flatMap PageflagsData.bytes ++ post, pre.length⟩
      = some ⟨pre ++ (List.zipWith (scanRecord pageSize src) addrs records).flatMap
          PageflagsData.bytes ++ post, pos⟩ := by
  induction addrs generalizing records pre with
  | nil =>
    obtain rfl : records = [] := List.length_eq_zero_iff.mp hlen.symm
    exact ⟨_, rfl⟩
  | cons addr addrs ih =>
    cases records with
    | nil => exact absurd hlen (by simp)
    | cons d records =>
      have hstep := scanPage_eq pageSize src addr d pre
        (records.flatMap PageflagsData.bytes ++ post)
      obtain ⟨pos, hrest⟩ := ih (Nat.succ.inj hlen)
        (pre ++ (scanRecord pageSize src addr d).bytes)
      refine ⟨pos, ?_⟩
      rw [List.length_append, PageflagsData.bytes_length] at hrest
      simp only [List.append_assoc] at hstep hrest ⊢
      rw [List.foldlM_cons, List.flatMap_cons, List.append_assoc, hstep]
      simpa using hrest

theorem pageAddrs_length (hpos : 0 < pageSize) (a : MemArea pageSize) :
    (pageAddrs pageSize a.fromAddr.toNat a.toAddr.toNat).length = a.pages := by
  obtain ⟨k, hk⟩ := a.fromAligned
  obtain ⟨m, hm⟩ := a.toAligned
  rw [pageAddrs, List.length_range', MemArea.pages, hk, hm, ← Nat.mul_sub,
    Nat.mul_div_cancel_left _ hpos, Nat.add_sub_assoc hpos, Nat.mul_add_div hpos,
    Nat.div_eq_of_lt (Nat.sub_lt hpos Nat.one_pos), Nat.add_zero]

/-- A call of `scan_address_range` for an area. -/
structure AreaScan (pageSize : Nat) where
  area : MemArea pageSize
  src : PageSource
  rights : Str

/-- The scan completes the records of the area. -/
def AreaScan.Completes (scan : AreaScan pageSize) (a : MemArea pageSize) : Prop :=
  scan.area.Is a.fromAddr a.toAddr ∧ isPrivateWritable scan.rights = true

instance (scan : AreaScan pageSize) (a : MemArea pageSize) : Decidable (scan.Completes a) :=
  inferInstanceAs (Decidable (_ ∧ _))

def AreaScan.records (scan : AreaScan pageSize) (a : MemArea pageSize)
    (records : List PageflagsData) : List PageflagsData :=
  if scan.Completes a then
    List.zipWith (scanRecord pageSize scan.src)
      (pageAddrs pageSize a.fromAddr.toNat a.toAddr.toNat) records
  else records

def PageSection.scanned (hpos : 0 < pageSize) (scan : AreaScan pageSize)
    (s : PageSection pageSize) : PageSection pageSize where
  area := s.area
  records := scan.records s.area s.records
  length := by
    unfold AreaScan.records
    split
    · rw [List.length_zipWith, pageAddrs_length hpos, s.length, Nat.min_self]
    · exact s.length

theorem PageSection.scanned_of_not (hpos : 0 < pageSize) {scan : AreaScan pageSize}
    {s : PageSection pageSize} (h : ¬ scan.Completes s.area) : s.scanned hpos scan = s := by
  cases s
  simp [PageSection.scanned, AreaScan.records, h]

/-- The sections have different areas. -/
def Distinct (areas : List (MemArea pageSize)) : Prop :=
  areas.Pairwise fun a a' => ¬ a'.Is a.fromAddr a.toAddr

theorem MemArea.Is.symm {a a' : MemArea pageSize} (h : a.Is a'.fromAddr a'.toAddr) :
    a'.Is a.fromAddr a.toAddr :=
  ⟨h.1.symm, h.2.symm⟩

/-- The only element of a list that has its area. -/
theorem distinct_split {γ : Type*} {area : γ → MemArea pageSize} {xs : List γ}
    (hd : Distinct (xs.map area)) {x : γ} (hx : x ∈ xs) :
    ∃ l r, xs = l ++ x :: r ∧
      ∀ y ∈ l ++ r, ¬ (area y).Is (area x).fromAddr (area x).toAddr := by
  obtain ⟨l, r, rfl⟩ := List.append_of_mem hx
  refine ⟨l, r, rfl, fun y hy => ?_⟩
  rw [Distinct, List.map_append, List.map_cons, List.pairwise_append, List.pairwise_cons] at hd
  obtain ⟨-, ⟨hright, -⟩, hleft⟩ := hd
  rcases List.mem_append.mp hy with hy | hy
  · intro h
    exact hleft (area y) (List.mem_map_of_mem hy) (area x) (List.mem_cons_self ..) h.symm
  · exact hright (area y) (List.mem_map_of_mem hy)

theorem map_scanned_of_not (hpos : 0 < pageSize) {scan : AreaScan pageSize}
    {secs : List (PageSection pageSize)} (h : ∀ s ∈ secs, ¬ scan.Completes s.area) :
    secs.map (PageSection.scanned hpos scan) = secs := by
  have hsame : ∀ s ∈ secs, s.scanned hpos scan = id s := fun s hs =>
    PageSection.scanned_of_not hpos (h s hs)
  rw [List.map_congr_left hsame, List.map_id]

/-- **A scan completes the records of its area and no others.** -/
theorem scanAddressRange_eq (hpos : 0 < pageSize) {secs : List (PageSection pageSize)}
    (hd : Distinct (secs.map PageSection.area)) (hfits : ∀ s ∈ secs, s.area.Fits)
    {scan : AreaScan pageSize} (hscan : ∃ s ∈ secs, s.area = scan.area) (pos : Nat) :
    ∃ pos', scanAddressRange pageSize scan.src scan.area.fromAddr scan.area.toAddr scan.rights
        ⟨sectionsFile secs, pos⟩
      = some ⟨sectionsFile (secs.map (PageSection.scanned hpos scan)), pos'⟩ := by
  unfold scanAddressRange
  by_cases hrights : isPrivateWritable scan.rights = true
  · obtain ⟨s, hs, harea⟩ := hscan
    obtain ⟨l, r, rfl, hother⟩ := distinct_split hd hs
    rw [harea] at hother
    have hl : l.map (PageSection.scanned hpos scan) = l := map_scanned_of_not hpos fun t ht h =>
      hother t (List.mem_append_left _ ht) h.1.symm
    have hr : r.map (PageSection.scanned hpos scan) = r := map_scanned_of_not hpos fun t ht h =>
      hother t (List.mem_append_right _ ht) h.1.symm
    have hthis : scan.Completes s.area := by rw [harea]; exact ⟨⟨rfl, rfl⟩, hrights⟩
    have hs' : (s.scanned hpos scan).records = List.zipWith (scanRecord pageSize scan.src)
        (pageAddrs pageSize scan.area.fromAddr.toNat scan.area.toAddr.toNat) s.records := by
      show scan.records s.area s.records = _
      rw [AreaScan.records, if_pos hthis, harea]
    have hfind := findHeader_found (r := r) (fun t ht => hfits t (List.mem_append_left _ ht))
      (fun t ht => hother t (List.mem_append_left _ ht))
      (show s.area.Is scan.area.fromAddr scan.area.toAddr by rw [harea]; exact ⟨rfl, rfl⟩) []
    have hlen : (pageAddrs pageSize scan.area.fromAddr.toNat scan.area.toAddr.toNat).length
        = s.records.length := by rw [pageAddrs_length hpos, s.length, harea]
    obtain ⟨pos', hpages⟩ := scanPages_eq pageSize scan.src hlen
      (sectionsFile l ++ s.area.header.bytes) (sectionsFile r)
    have hbytes : sectionsFile (l ++ s :: r) = sectionsFile l ++ s.area.header.bytes ++
        s.records.flatMap PageflagsData.bytes ++ sectionsFile r := by
      simp [PageSection.bytes]
    have hbytes' : sectionsFile (l ++ s.scanned hpos scan :: r) = sectionsFile l ++
        s.area.header.bytes ++ (s.scanned hpos scan).records.flatMap PageflagsData.bytes ++
        sectionsFile r := by
      simp [PageSection.bytes, PageSection.scanned]
    refine ⟨pos', ?_⟩
    have hseek : ([] : List UInt8).length + (sectionsFile l).length + sizeofHeader
        = (sectionsFile l ++ s.area.header.bytes).length := by simp
    rw [hseek] at hfind
    rw [List.map_append, List.map_cons, hl, hr, hbytes', hs', ← hpages, ← hbytes, hrights]
    show (findHeader _ _ ⟨[] ++ sectionsFile (l ++ s :: r), ([] : List UInt8).length⟩).bind _ = _
    rw [hfind]
    rfl
  · refine ⟨pos, ?_⟩
    rw [map_scanned_of_not hpos fun s _ h => hrights h.2, Bool.eq_false_iff.mpr hrights]
    rfl

/-! ## Looking up -/

/-- One step of a lookup. -/
theorem lookupFrom_step {s : PageSection pageSize} (hfits : s.area.Fits) (pre post : List UInt8)
    {size : Nat} (hsize : (pre ++ s.bytes).length ≤ size) (fromAddr toAddr : BitVec 64) :
    lookupFrom (pre ++ s.bytes ++ post) size fromAddr toAddr pre.length =
      if s.area.Is fromAddr toAddr then
        { examined := [pre.length], result := .data (pre.length + sizeofHeader) }
      else
        let rest := lookupFrom (pre ++ s.bytes ++ post) size fromAddr toAddr
          (pre ++ s.bytes).length
        { rest with examined := pre.length :: rest.examined } := by
  have hread : readHeader ((pre ++ s.bytes ++ post).drop pre.length)
      = some (s.area.header, s.records.flatMap PageflagsData.bytes ++ post) := by
    rw [List.append_assoc, List.drop_left]
    exact read_section s post
  have hnext : pre.length + (s.area.header.size.toNat + sizeofHeader)
      = (pre ++ s.bytes).length := by
    rw [MemArea.header_size hfits, List.length_append, PageSection.bytes_length]
    omega
  have hin : s.area.header.size.toNat + sizeofHeader + pre.length ≤ size := by omega
  rw [lookupFrom, hread]
  simp only [dif_pos hin, hnext]
  rfl

/-- A lookup finds the first section of the area. -/
theorem lookupFrom_found {l r : List (PageSection pageSize)} {s : PageSection pageSize}
    {fromAddr toAddr : BitVec 64} (hfits : ∀ t ∈ l ++ s :: r, t.area.Fits)
    (hskip : ∀ t ∈ l, ¬ t.area.Is fromAddr toAddr) (hs : s.area.Is fromAddr toAddr)
    (pre beyond : List UInt8) :
    let size := (pre ++ sectionsFile (l ++ s :: r)).length
    let found := lookupFrom (pre ++ sectionsFile (l ++ s :: r) ++ beyond) size fromAddr toAddr
      pre.length
    found.result = .data (pre.length + (sectionsFile l).length + sizeofHeader) ∧
      ∀ offset ∈ found.examined, offset + sizeofHeader ≤ size := by
  induction l generalizing pre with
  | nil =>
    intro size found
    have hsize : (pre ++ s.bytes).length ≤ size := by
      simp only [size, List.nil_append, sectionsFile_cons, List.length_append]
      omega
    have hfound : found = { examined := [pre.length], result := .data (pre.length + sizeofHeader) } := by
      have h := lookupFrom_step (hfits s (by simp)) pre (sectionsFile r ++ beyond) hsize
        fromAddr toAddr
      rw [if_pos hs] at h
      simpa [found] using h
    have hheader := s.bytes_length
    rw [hfound]
    refine ⟨rfl, fun offset hoffset => ?_⟩
    rw [List.mem_singleton.mp hoffset]
    rw [List.length_append] at hsize
    omega
  | cons t l ih =>
    intro size found
    have hrest := ih (fun u hu => hfits u (List.mem_cons_of_mem _ hu))
      (fun u hu => hskip u (List.mem_cons_of_mem _ hu)) (pre ++ t.bytes)
    have hsize : (pre ++ t.bytes).length ≤ size := by
      simp only [size, List.cons_append, sectionsFile_cons, List.length_append]
      omega
    have hfound := lookupFrom_step (hfits t (by simp)) pre (sectionsFile (l ++ s :: r) ++ beyond)
      hsize fromAddr toAddr
    rw [if_neg (hskip t (List.mem_cons_self ..))] at hfound
    have hheader := t.bytes_length
    have hbytes : pre ++ sectionsFile (t :: l ++ s :: r) ++ beyond
        = pre ++ t.bytes ++ (sectionsFile (l ++ s :: r) ++ beyond) := by simp
    have hlen : size = (pre ++ t.bytes ++ sectionsFile (l ++ s :: r)).length := by
      simp only [size, List.cons_append, sectionsFile_cons, List.append_assoc]
    rw [← hlen, List.append_assoc (pre ++ t.bytes)] at hrest
    obtain ⟨hresult, hexamined⟩ := hrest
    simp only [found, hbytes, hfound]
    refine ⟨?_, ?_⟩
    · rw [hresult, sectionsFile_cons, List.length_append, List.length_append]
      simp only [Nat.add_assoc]
    · intro offset hoffset
      rcases List.mem_cons.mp hoffset with rfl | hoffset
      · rw [List.length_append] at hsize
        omega
      · exact hexamined offset hoffset

/-- **A lookup that finds nothing examines what is behind the file.** -/
theorem lookupFrom_absent {secs : List (PageSection pageSize)} {fromAddr toAddr : BitVec 64}
    (hfits : ∀ t ∈ secs, t.area.Fits) (hskip : ∀ t ∈ secs, ¬ t.area.Is fromAddr toAddr)
    (pre beyond : List UInt8) :
    (pre ++ sectionsFile secs).length ∈
      (lookupFrom (pre ++ sectionsFile secs ++ beyond) (pre ++ sectionsFile secs).length fromAddr
        toAddr pre.length).examined := by
  induction secs generalizing pre with
  | nil =>
    rw [lookupFrom]
    simp only [sectionsFile_nil, List.append_nil]
    split
    · exact List.mem_singleton_self _
    next header rest _ =>
      have hout : ¬ header.size.toNat + sizeofHeader + pre.length ≤ pre.length := by
        rw [sizeofHeader]
        omega
      rw [dif_neg hout]
      exact List.mem_singleton_self _
  | cons t secs ih =>
    have hrest := ih (fun u hu => hfits u (List.mem_cons_of_mem _ hu))
      (fun u hu => hskip u (List.mem_cons_of_mem _ hu)) (pre ++ t.bytes)
    have hsize : (pre ++ t.bytes).length ≤ (pre ++ sectionsFile (t :: secs)).length := by
      simp only [sectionsFile_cons, List.length_append]
      omega
    have hfound := lookupFrom_step (hfits t (by simp)) pre (sectionsFile secs ++ beyond)
      hsize fromAddr toAddr
    rw [if_neg (hskip t (List.mem_cons_self ..))] at hfound
    have hbytes : pre ++ sectionsFile (t :: secs) ++ beyond
        = pre ++ t.bytes ++ (sectionsFile secs ++ beyond) := by simp
    have hlen : (pre ++ sectionsFile (t :: secs)).length
        = (pre ++ t.bytes ++ sectionsFile secs).length := by simp
    rw [hbytes, hfound]
    refine List.mem_cons_of_mem _ ?_
    rw [hlen, ← List.append_assoc]
    exact hrest

/-! ## The file -/

/-- A call of `cut_kpageflags_range` for an area. -/
structure AreaCut (pageSize : Nat) where
  area : MemArea pageSize
  src : PageSource

/-- The file after its areas were written and then scanned. -/
def pageflagsFile (cuts : List (AreaCut pageSize)) (scans : List (AreaScan pageSize)) : Option Fd :=
  scans.foldlM
    (fun fd scan =>
      scanAddressRange pageSize scan.src scan.area.fromAddr scan.area.toAddr scan.rights fd)
    (cuts.foldl
      (fun fd cut => cutKpageflagsRange pageSize cut.src cut.area.fromAddr cut.area.toAddr fd)
      ⟨[], 0⟩)

/-- The records of an area: what was written, completed by the scans of
the area. -/
def AreaCut.finalRecords (scans : List (AreaScan pageSize)) (cut : AreaCut pageSize) :
    List PageflagsData :=
  scans.foldl (fun records scan => scan.records cut.area records) (cutRecords cut.src cut.area)

/-- What a lookup is expected to do. -/
structure LookupCorrect (cuts : List (AreaCut pageSize)) (scans : List (AreaScan pageSize))
    (file : List UInt8) (fromAddr toAddr : BitVec 64) : Prop where
  inside : ∀ offset ∈ (getPageflagsData pageSize file fromAddr toAddr).examined,
    offset + sizeofHeader ≤ file.length
  found : ∀ cut ∈ cuts, cut.area.Is fromAddr toAddr →
    (cut.finalRecords scans).length = cut.area.pages ∧
    ∃ offset, (getPageflagsData pageSize file fromAddr toAddr).result = .data offset ∧
      slice file offset (cut.area.pages * sizeofData)
        = (cut.finalRecords scans).flatMap PageflagsData.bytes
  absent : (∀ cut ∈ cuts, ¬ cut.area.Is fromAddr toAddr) →
    (getPageflagsData pageSize file fromAddr toAddr).result = .null

def scannedSections (hpos : 0 < pageSize) (scans : List (AreaScan pageSize))
    (secs : List (PageSection pageSize)) : List (PageSection pageSize) :=
  secs.map fun s => scans.foldl (fun s scan => s.scanned hpos scan) s

theorem foldl_scanned_area (hpos : 0 < pageSize) (scans : List (AreaScan pageSize))
    (s : PageSection pageSize) :
    (scans.foldl (fun s scan => s.scanned hpos scan) s).area = s.area := by
  induction scans generalizing s with
  | nil => rfl
  | cons scan scans ih => exact ih (s.scanned hpos scan)

theorem foldl_scanned_records (hpos : 0 < pageSize) (scans : List (AreaScan pageSize))
    (s : PageSection pageSize) :
    (scans.foldl (fun s scan => s.scanned hpos scan) s).records
      = scans.foldl (fun records scan => scan.records s.area records) s.records := by
  induction scans generalizing s with
  | nil => rfl
  | cons scan scans ih => exact ih (s.scanned hpos scan)

theorem scannedSections_areas (hpos : 0 < pageSize) (scans : List (AreaScan pageSize))
    (secs : List (PageSection pageSize)) :
    (scannedSections hpos scans secs).map PageSection.area = secs.map PageSection.area := by
  rw [scannedSections, List.map_map]
  exact List.map_congr_left fun s _ => foldl_scanned_area hpos scans s

/-- Writing the areas. -/
theorem cuts_eq (hpos : 0 < pageSize) (cuts : List (AreaCut pageSize)) (file : List UInt8) :
    cuts.foldl
        (fun fd cut => cutKpageflagsRange pageSize cut.src cut.area.fromAddr cut.area.toAddr fd)
        ⟨file, file.length⟩
      = ⟨file ++ sectionsFile (cuts.map fun cut => cutSection cut.src cut.area),
          (file ++ sectionsFile (cuts.map fun cut => cutSection cut.src cut.area)).length⟩ := by
  induction cuts generalizing file with
  | nil => simp
  | cons cut cuts ih =>
    rw [List.foldl_cons, cutKpageflagsRange_eq hpos, ih, List.map_cons, sectionsFile_cons,
      List.append_assoc]

/-- Scanning them. -/
theorem scans_eq (hpos : 0 < pageSize) {scans : List (AreaScan pageSize)}
    {secs : List (PageSection pageSize)} (hd : Distinct (secs.map PageSection.area))
    (hfits : ∀ s ∈ secs, s.area.Fits)
    (hscans : ∀ scan ∈ scans, scan.area ∈ secs.map PageSection.area) (pos : Nat) :
    ∃ pos', scans.foldlM
        (fun fd scan =>
          scanAddressRange pageSize scan.src scan.area.fromAddr scan.area.toAddr scan.rights fd)
        ⟨sectionsFile secs, pos⟩
      = some ⟨sectionsFile (scannedSections hpos scans secs), pos'⟩ := by
  induction scans generalizing secs pos with
  | nil => exact ⟨pos, by simp [scannedSections]⟩
  | cons scan scans ih =>
    obtain ⟨pos₁, hscan⟩ := scanAddressRange_eq hpos hd hfits
      (List.mem_map.mp (hscans scan (List.mem_cons_self ..))) pos
    have hareas : (secs.map (PageSection.scanned hpos scan)).map PageSection.area
        = secs.map PageSection.area := List.map_map.trans (List.map_congr_left fun _ _ => rfl)
    obtain ⟨pos₂, hrest⟩ := ih
      (show Distinct ((secs.map (PageSection.scanned hpos scan)).map PageSection.area) by
        rw [hareas]; exact hd)
      (by
        intro s hs
        obtain ⟨t, ht, rfl⟩ := List.mem_map.mp hs
        exact hfits t ht)
      (by
        intro scan' hscan'
        rw [hareas]
        exact hscans scan' (List.mem_cons_of_mem _ hscan')) pos₁
    refine ⟨pos₂, ?_⟩
    rw [List.foldlM_cons, hscan]
    refine hrest.trans ?_
    rw [scannedSections, scannedSections, List.map_map]
    rfl

/-- **The pageflags file.** Areas are written and some of them scanned,
all below the size that a header can hold. A lookup does what is expected
of it exactly if its area is one of those that were written. -/
theorem pageflags_lookup_iff (hpos : 0 < pageSize) {cuts : List (AreaCut pageSize)}
    (hd : Distinct (cuts.map AreaCut.area)) (hfits : ∀ cut ∈ cuts, cut.area.Fits)
    {scans : List (AreaScan pageSize)}
    (hscans : ∀ scan ∈ scans, scan.area ∈ cuts.map AreaCut.area) :
    ∃ fd, pageflagsFile cuts scans = some fd ∧ ∀ fromAddr toAddr,
      LookupCorrect cuts scans fd.bytes fromAddr toAddr ↔
        ∃ cut ∈ cuts, cut.area.Is fromAddr toAddr := by
  set written := cuts.map fun cut => cutSection cut.src cut.area with hwritten
  set secs := scannedSections hpos scans written with hsecs
  have hareas : written.map PageSection.area = cuts.map AreaCut.area :=
    List.map_map.trans (List.map_congr_left fun _ _ => rfl)
  have hwfits : ∀ s ∈ written, s.area.Fits := by
    intro s hs
    obtain ⟨cut, hcut, rfl⟩ := List.mem_map.mp hs
    exact hfits cut hcut
  have hsecsareas : secs.map PageSection.area = cuts.map AreaCut.area :=
    (scannedSections_areas hpos scans written).trans hareas
  have hsfits : ∀ s ∈ secs, s.area.Fits := by
    intro s hs
    obtain ⟨t, ht, rfl⟩ := List.mem_map.mp hs
    rw [foldl_scanned_area]
    exact hwfits t ht
  obtain ⟨pos, hrun⟩ := scans_eq hpos (by rw [hareas]; exact hd) hwfits
    (show ∀ scan ∈ scans, scan.area ∈ written.map PageSection.area by rw [hareas]; exact hscans)
    (sectionsFile written).length
  refine ⟨⟨sectionsFile secs, pos⟩, ?_, ?_⟩
  · have hcut := cuts_eq hpos cuts []
    rw [List.nil_append, ← hwritten] at hcut
    unfold pageflagsFile
    exact (congrArg (fun fd => scans.foldlM _ fd) hcut).trans hrun
  intro fromAddr toAddr
  -- a lookup starts at the front of the mapping
  have hlookup : getPageflagsData pageSize (sectionsFile secs) fromAddr toAddr
      = lookupFrom ([] ++ sectionsFile secs ++
          List.replicate ((pageSize - (sectionsFile secs).length % pageSize) % pageSize) 0)
          ([] ++ sectionsFile secs).length fromAddr toAddr ([] : List UInt8).length := rfl
  constructor
  · intro hcorrect
    by_contra hnone
    have hskip : ∀ s ∈ secs, ¬ s.area.Is fromAddr toAddr := by
      intro s hs his
      have hmem : s.area ∈ cuts.map AreaCut.area := by
        rw [← hsecsareas]
        exact List.mem_map_of_mem hs
      obtain ⟨cut, hcut, harea⟩ := List.mem_map.mp hmem
      exact hnone ⟨cut, hcut, by rw [harea]; exact his⟩
    have hend : (sectionsFile secs).length + sizeofHeader ≤ (sectionsFile secs).length :=
      hcorrect.inside _ (by rw [hlookup]; exact lookupFrom_absent hsfits hskip [] _)
    rw [sizeofHeader] at hend
    omega
  · rintro ⟨cut, hcut, his⟩
    have hsec : ∃ s ∈ secs, s.area = cut.area ∧ s.records = cut.finalRecords scans := by
      refine ⟨_, List.mem_map_of_mem (List.mem_map_of_mem hcut), foldl_scanned_area .., ?_⟩
      exact foldl_scanned_records hpos scans (cutSection cut.src cut.area)
    obtain ⟨s, hs, hsarea, hsrecords⟩ := hsec
    have hsis : s.area.Is fromAddr toAddr := by rw [hsarea]; exact his
    obtain ⟨l, r, hsplit, hother⟩ := distinct_split (by rw [hsecsareas]; exact hd) hs
    rw [hsis.1, hsis.2] at hother
    have hfound := lookupFrom_found (l := l) (r := r) (by rw [← hsplit]; exact hsfits)
      (fun t ht => hother t (List.mem_append_left _ ht)) hsis []
      (List.replicate ((pageSize - (sectionsFile secs).length % pageSize) % pageSize) 0)
    rw [← hsplit] at hfound
    obtain ⟨hresult, hexamined⟩ := hfound
    refine ⟨hexamined, ?_, fun habsent => absurd his (habsent cut hcut)⟩
    -- the area is written once, so any cut that has it is this one
    intro cut' hcut' his'
    have hsame : cut' = cut := by
      obtain ⟨l', r', hsplit', hother'⟩ := distinct_split hd hcut
      rw [hsplit', List.mem_append, List.mem_cons] at hcut'
      rcases hcut' with hl | rfl | hr
      · exact absurd (show _ ∧ _ from ⟨his'.1.trans his.1.symm, his'.2.trans his.2.symm⟩)
          (hother' cut' (List.mem_append_left _ hl))
      · rfl
      · exact absurd (show _ ∧ _ from ⟨his'.1.trans his.1.symm, his'.2.trans his.2.symm⟩)
          (hother' cut' (List.mem_append_right _ hr))
    rw [hsame, ← hsrecords, ← hsarea]
    refine ⟨s.length, _, hresult, ?_⟩
    have hbytes : sectionsFile secs = sectionsFile l ++ s.area.header.bytes ++
        s.records.flatMap PageflagsData.bytes ++ sectionsFile r := by
      rw [hsplit]
      simp [PageSection.bytes]
    have hstart : ([] : List UInt8).length + (sectionsFile l).length + sizeofHeader
        = (sectionsFile l ++ s.area.header.bytes).length := by simp
    have hsize : s.area.pages * sizeofData
        = (s.records.flatMap PageflagsData.bytes).length := by rw [records_length, s.length]
    have hslice := Fd.read_at (sectionsFile l ++ s.area.header.bytes)
      (s.records.flatMap PageflagsData.bytes) (sectionsFile r)
    show slice (sectionsFile secs) _ _ = _
    rw [hbytes, hstart, hsize]
    exact congrArg Prod.fst hslice

/-! ## A file of one page -/

/-- The page at 0x1000. -/
def samplePage : MemArea 4096 where
  fromAddr := 0x1000
  toAddr := 0x2000
  le := by decide
  fromAligned := by decide
  toAligned := by decide

def emptySource : PageSource :=
  { pagemap := fun _ => 0, kpage := fun _ => 0, isZeroPage := fun _ => true }

theorem samplePage_fits : samplePage.Fits := by
  have hpages : samplePage.pages = 1 := by decide
  rw [MemArea.Fits, hpages]
  decide

def pairPages : MemArea 4096 where
  fromAddr := 0x5000
  toAddr := 0x7000
  le := by decide
  fromAligned := by decide
  toAligned := by decide

theorem pairPages_fits : pairPages.Fits := by
  have hpages : pairPages.pages = 2 := by decide
  rw [MemArea.Fits, hpages]
  decide

/-- A page of memory that three processes have mapped. -/
def sharedSource : PageSource :=
  { pagemap := fun _ => 7, kpage := fun _ => 3, isZeroPage := fun _ => false }

def sampleCuts : List (AreaCut 4096) := [⟨samplePage, emptySource⟩, ⟨pairPages, sharedSource⟩]

/-- The first page is not writable at the time of the scan. -/
def sampleScans : List (AreaScan 4096) :=
  [⟨pairPages, sharedSource, "rw-p".toList⟩, ⟨samplePage, sharedSource, "r--p".toList⟩]

/-- Two areas are written, one of them is completed by a scan, and both are
found. -/
theorem pageflags_lookup_iff_areas :
    ∃ fd, pageflagsFile sampleCuts sampleScans = some fd ∧ ∀ cut ∈ sampleCuts,
      LookupCorrect sampleCuts sampleScans fd.bytes cut.area.fromAddr cut.area.toAddr := by
  have hdistinct : Distinct (sampleCuts.map AreaCut.area) :=
    .cons (by decide) (List.pairwise_singleton ..)
  have hfits : ∀ cut ∈ sampleCuts, cut.area.Fits := by
    intro cut hcut
    rcases List.mem_pair.mp hcut with rfl | rfl
    · exact samplePage_fits
    · exact pairPages_fits
  have hscans : ∀ scan ∈ sampleScans, scan.area ∈ sampleCuts.map AreaCut.area := by
    intro scan hscan
    rcases List.mem_pair.mp hscan with rfl | rfl <;> simp [sampleCuts]
  obtain ⟨fd, hfile, hiff⟩ := pageflags_lookup_iff (by decide) hdistinct hfits hscans
  exact ⟨fd, hfile, fun cut hcut => (hiff _ _).mpr ⟨cut, hcut, rfl, rfl⟩⟩

/-- A lookup of another page examines a header at the end of the file. -/
theorem pageflags_lookup_missing :
    ∃ fd, pageflagsFile [⟨samplePage, emptySource⟩] [] = some fd ∧ fd.bytes.length = 48 ∧
      48 ∈ (getPageflagsData 4096 fd.bytes 0x3000 0x4000).examined := by
  have hcut := cuts_eq (by decide) [AreaCut.mk samplePage emptySource] []
  set secs := [cutSection emptySource samplePage] with hsecs
  have hlen : (sectionsFile secs).length = 48 := by
    have hpages : samplePage.pages = 1 := by decide
    have harea : (cutSection emptySource samplePage).area = samplePage := rfl
    rw [hsecs, sectionsFile_cons, sectionsFile_nil, List.append_nil, PageSection.bytes_length,
      harea, hpages]
    decide
  refine ⟨⟨sectionsFile secs, _⟩, congrArg some hcut, hlen, ?_⟩
  have habsent := lookupFrom_absent
    (show ∀ s ∈ secs, s.area.Fits by
      intro s hs
      rw [List.mem_singleton.mp hs]
      exact samplePage_fits)
    (show ∀ s ∈ secs, ¬ s.area.Is 0x3000 0x4000 by
      intro s hs
      rw [List.mem_singleton.mp hs]
      decide) [] (List.replicate ((4096 - (sectionsFile secs).length % 4096) % 4096) 0)
  rw [List.nil_append, hlen] at habsent
  exact habsent

end SpRtrace.Pagemap
