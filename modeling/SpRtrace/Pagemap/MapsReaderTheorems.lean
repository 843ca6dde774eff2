/-
SpRtrace.Pagemap.MapsReaderTheorems — when the reader of the maps file is
right.

The buffer holds one chunk at a time, and what is parsed are the parts of
chunks that end with a newline (`parseMaps_eq`). They belong to the lines
one by one (`lastParts_lines`), so the callback gets every line exactly
if these parts are read as their lines are, and the terminator fits
behind every chunk (`parseMaps_iff`).
-/
import Mathlib
import SpRtrace.Pagemap.MapsReader

namespace SpRtrace.Pagemap

open SpRtrace.Lib SpRtrace.Common

/-! ## Places of the buffer -/

theorem getElem?_at (a x b : Str) (y : Char) :
    (a ++ (x ++ y :: b))[a.length + x.length]? = some y := by
  rw [← List.append_assoc, List.getElem?_append_right (by simp)]
  simp

theorem storeCell_at (a x b : Str) (y c : Char) :
    storeCell (a ++ (x ++ y :: b)) (a.length + x.length) c = some (a ++ (x ++ c :: b)) := by
  rw [storeCell, if_pos (by simp)]
  simp

/-- The search ends at the first character that is looked for, or at the
terminator. -/
theorem strnchr_spec (a x b : Str) (y c : Char) {size : Nat}
    (hx : ∀ z ∈ x, z ≠ c ∧ z ≠ '\x00') (hsize : x.length ≤ size) (hy : y = c ∨ y = '\x00') :
    strnchr (a ++ (x ++ y :: b)) c a.length size
      = some (if y = c then some (a.length + x.length) else none) := by
  induction x generalizing a size with
  | nil =>
    have hget := getElem?_at a [] b y
    rw [List.length_nil, Nat.add_zero] at hget
    cases size with
    | zero => simp only [strnchr, hget, Option.bind_eq_bind, Option.bind_some]; rfl
    | succ size =>
      simp only [strnchr, hget, Option.bind_eq_bind, Option.bind_some]
      split
      · rfl
      · rename_i hne
        rw [if_pos (hy.resolve_left hne)]
  | cons z x ih =>
    obtain ⟨⟨hzc, hzNul⟩, hx⟩ := List.forall_mem_cons.mp hx
    obtain ⟨size, rfl⟩ : ∃ n, size = n + 1 := ⟨size - 1, by simp at hsize; omega⟩
    have hget := getElem?_at a [] (x ++ y :: b) z
    rw [List.length_nil, Nat.add_zero, List.nil_append] at hget
    have hnext := ih (a ++ [z]) hx (by simpa using hsize)
    rw [List.append_assoc, List.length_append, List.length_singleton, List.singleton_append,
      ← List.cons_append] at hnext
    simp only [strnchr, hget, Option.bind_eq_bind, Option.bind_some, if_neg hzc, if_neg hzNul,
      List.cons_append]
    rw [List.cons_append] at hnext
    rw [hnext, List.length_cons, Nat.add_assoc, Nat.add_comm 1]

theorem stringAt_spec {a x b : Str} (hx : '\x00' ∉ x) :
    stringAt (a ++ (x ++ '\x00' :: b)) a.length = x := by
  rw [stringAt, List.drop_left, List.takeWhile_append_of_pos, List.takeWhile_cons_of_neg]
  · exact List.append_nil x
  · simp
  · intro c hc
    simpa using fun h : c = '\x00' => hx (h ▸ hc)

/-! ## One record -/

theorem cutAt_append {c : Char} {front back : Str} (hc : c ∉ front) :
    cutAt c (front ++ c :: back) = some (front, back) := by
  have hfront : ∀ z ∈ front, decide (z ≠ c) = true := fun z hz =>
    decide_eq_true fun h => hc (h ▸ hz)
  have htake : (front ++ c :: back).takeWhile (· ≠ c) = front := by
    rw [List.takeWhile_append_of_pos hfront, List.takeWhile_cons_of_neg (by simp), List.append_nil]
  have hdrop : (front ++ c :: back).dropWhile (· ≠ c) = c :: back := by
    rw [List.dropWhile_append_of_pos hfront, List.dropWhile_cons_of_neg (by simp)]
  rw [cutAt, if_pos (by simp), htake, hdrop, List.tail_cons]

theorem cutAt_not_mem {c : Char} {text : Str} (h : c ∉ text) : cutAt c text = none := if_neg h

/-- The search in a string that ends at its terminator. -/
theorem strnchr_cut {a front back b : Str} {c : Char} {size : Nat}
    (hfront : c ∉ front) (hNul : '\x00' ∉ front) (hsize : front.length ≤ size) :
    strnchr (a ++ ((front ++ c :: back) ++ '\x00' :: b)) c a.length size
      = some (some (a.length + front.length)) := by
  have h := strnchr_spec a front (back ++ '\x00' :: b) c c
    (fun z hz => ⟨fun e => hfront (e ▸ hz), fun e => hNul (e ▸ hz)⟩) hsize (.inl rfl)
  rw [if_pos rfl] at h
  rw [List.append_assoc, List.cons_append]
  exact h

theorem strnchr_none {a text b : Str} {c : Char} {size : Nat} (hc : c ≠ '\x00')
    (htext : c ∉ text) (hNul : '\x00' ∉ text) (hsize : text.length ≤ size) :
    strnchr (a ++ (text ++ '\x00' :: b)) c a.length size = some none := by
  have h := strnchr_spec a text b '\x00' c
    (fun z hz => ⟨fun e => htext (e ▸ hz), fun e => hNul (e ▸ hz)⟩) hsize (.inr rfl)
  rw [if_neg (Ne.symm hc)] at h
  exact h

/-- The terminator is stored behind the first part of a string. -/
theorem storeCell_cut (a front back b : Str) (c : Char) :
    storeCell (a ++ ((front ++ c :: back) ++ '\x00' :: b)) (a.length + front.length) '\x00'
      = some ((a ++ (front ++ ['\x00'])) ++ (back ++ '\x00' :: b)) := by
  rw [List.append_assoc, List.cons_append, storeCell_at]
  simp

theorem cut_length (a front : Str) :
    a.length + front.length + 1 = (a ++ (front ++ ['\x00'])).length := by
  simp [Nat.add_assoc]

/-- A string in the buffer is parsed as a record. -/
theorem parseRecord_spec {a text b : Str} (htext : '\x00' ∉ text) :
    ∃ text', parseRecord (a ++ (text ++ '\x00' :: b)) a.length (text.length + 1)
        = some (a ++ (text' ++ '\x00' :: b), recordOf text) ∧ text'.length = text.length := by
  unfold parseRecord recordOf
  simp only [Option.bind_eq_bind]
  by_cases hminus : '-' ∈ text
  · obtain ⟨fromText, text₁, rfl, hfrom⟩ := List.eq_append_cons_of_mem hminus
    rw [List.mem_append, List.mem_cons, not_or, not_or] at htext
    obtain ⟨hfromNul, -, hNul₁⟩ := htext
    rw [strnchr_cut hfrom hfromNul (by simp; omega), cutAt_append hfrom]
    simp only [Option.bind_some, storeCell_cut, cut_length]
    obtain ⟨a₁, ha₁⟩ : ∃ a₁, a ++ (fromText ++ ['\x00']) = a₁ := ⟨_, rfl⟩
    have hlen₁ : a₁.length = a.length + fromText.length + 1 := by rw [← ha₁, cut_length]
    rw [ha₁]
    by_cases hblank : ' ' ∈ text₁
    · obtain ⟨toText, text₂, rfl, hto⟩ := List.eq_append_cons_of_mem hblank
      rw [List.mem_append, List.mem_cons, not_or, not_or] at hNul₁
      obtain ⟨htoNul, -, hNul₂⟩ := hNul₁
      rw [strnchr_cut hto htoNul (by simp; omega), cutAt_append hto]
      simp only [Option.bind_some, storeCell_cut, cut_length]
      obtain ⟨a₂, ha₂⟩ : ∃ a₂, a₁ ++ (toText ++ ['\x00']) = a₂ := ⟨_, rfl⟩
      have hlen₂ : a₂.length = a₁.length + toText.length + 1 := by rw [← ha₂, cut_length]
      rw [ha₂]
      by_cases hblank₂ : ' ' ∈ text₂
      · obtain ⟨rights, text₃, rfl, hrights⟩ := List.eq_append_cons_of_mem hblank₂
        rw [List.mem_append, List.mem_cons, not_or, not_or] at hNul₂
        obtain ⟨hrightsNul, -, -⟩ := hNul₂
        rw [strnchr_cut hrights hrightsNul (by simp; omega), cutAt_append hrights]
        simp only [Option.bind_some, storeCell_cut]
        have hfromAt : a₂ ++ (rights ++ ['\x00']) ++ (text₃ ++ '\x00' :: b)
            = a ++ (fromText ++ '\x00' :: (toText ++ '\x00' :: (rights ++ '\x00' ::
              (text₃ ++ '\x00' :: b)))) := by
          rw [← ha₂, ← ha₁]
          simp
        have htoAt : a₂ ++ (rights ++ ['\x00']) ++ (text₃ ++ '\x00' :: b)
            = a₁ ++ (toText ++ '\x00' :: (rights ++ '\x00' :: (text₃ ++ '\x00' :: b))) := by
          rw [← ha₂]
          simp
        have hrightsAt : a₂ ++ (rights ++ ['\x00']) ++ (text₃ ++ '\x00' :: b)
            = a₂ ++ (rights ++ '\x00' :: (text₃ ++ '\x00' :: b)) := by simp
        refine ⟨fromText ++ '\x00' :: (toText ++ '\x00' :: (rights ++ '\x00' :: text₃)), ?_,
          by simp⟩
        rw [Option.some.injEq, Prod.mk.injEq]
        constructor
        · rw [hfromAt]
          simp
        · rw [hfromAt, stringAt_spec hfromNul, ← hfromAt, htoAt, stringAt_spec htoNul, ← htoAt,
            hrightsAt, stringAt_spec hrightsNul]
      · rw [strnchr_none (by decide) hblank₂ hNul₂ (by simp; omega), cutAt_not_mem hblank₂]
        refine ⟨fromText ++ '\x00' :: (toText ++ '\x00' :: text₂), ?_, by simp⟩
        rw [← ha₂, ← ha₁]
        simp
    · rw [strnchr_none (by decide) hblank hNul₁ (by simp; omega), cutAt_not_mem hblank]
      refine ⟨fromText ++ '\x00' :: text₁, ?_, by simp⟩
      rw [← ha₁]
      simp
  · rw [strnchr_none (by decide) hminus htext (by omega), cutAt_not_mem hminus]
    exact ⟨text, rfl, rfl⟩

/-! ## One chunk -/

/-- The strings of a text that end with a newline. -/
def endedLines (text : Str) : List Str := (text.splitOn '\n').dropLast

theorem endedLines_cons {front back : Str} (h : '\n' ∉ front) :
    endedLines (front ++ '\n' :: back) = front :: endedLines back := by
  rw [endedLines, List.splitOn_append_cons_self, List.splitOn_eq_singleton h,
    List.singleton_append, List.dropLast_cons_of_ne_nil (List.splitOn_ne_nil _ _), endedLines]

theorem endedLines_of_not_mem {text : Str} (h : '\n' ∉ text) : endedLines text = [] := by
  rw [endedLines, List.splitOn_eq_singleton h]
  rfl

theorem parseLines_spec {a text b : Str} {fuel : Nat} (htext : '\x00' ∉ text)
    (hfuel : text.length < fuel) :
    ∃ parsed, parseLines (a.length + text.length) fuel (a ++ (text ++ '\x00' :: b)) a.length
        = some parsed ∧ parsed.records = (endedLines text).filterMap recordOf ∧
      parsed.buffer.length = (a ++ (text ++ '\x00' :: b)).length ∧
      parsed.nparsed ≤ a.length + text.length := by
  induction fuel generalizing a text with
  | zero => omega
  | succ fuel ih =>
    unfold parseLines
    rw [Nat.add_sub_cancel_left]
    simp only [Option.bind_eq_bind]
    by_cases hnewline : '\n' ∈ text
    · obtain ⟨front, back, rfl, hfront⟩ := List.eq_append_cons_of_mem hnewline
      rw [List.mem_append, List.mem_cons, not_or, not_or] at htext
      obtain ⟨hfrontNul, -, hbackNul⟩ := htext
      rw [strnchr_cut hfront hfrontNul (by simp)]
      simp only [Option.bind_some]
      rw [List.append_assoc, List.cons_append, storeCell_at]
      simp only [Option.bind_some]
      obtain ⟨front', hrecord, hlen⟩ := parseRecord_spec (a := a) (b := back ++ '\x00' :: b) hfrontNul
      rw [show a.length + front.length + 1 - a.length = front.length + 1 by omega, hrecord]
      simp only [Option.bind_some]
      obtain ⟨parsed, hparsed, hrecords, hbuffer, hnparsed⟩ :=
        ih (a := a ++ (front' ++ ['\x00'])) hbackNul (by simp at hfuel; omega)
      have hpos : (a ++ (front' ++ ['\x00'])).length = a.length + front.length + 1 := by
        rw [← cut_length, hlen]
      have htotal : (a ++ (front' ++ ['\x00'])).length + back.length
          = a.length + (front ++ '\n' :: back).length := by
        rw [hpos]
        simp
        omega
      rw [htotal, hpos] at hparsed
      rw [htotal] at hnparsed
      refine ⟨{ parsed with records := (recordOf front).toList ++ parsed.records }, ?_, ?_, ?_,
        hnparsed⟩
      · rw [show a ++ (front' ++ '\x00' :: (back ++ '\x00' :: b))
          = a ++ (front' ++ ['\x00']) ++ (back ++ '\x00' :: b) by simp, hparsed]
        rfl
      · rw [endedLines_cons hfront, List.filterMap_cons, hrecords]
        cases recordOf front <;> rfl
      · simp only [hbuffer, List.length_append, List.length_cons, hlen]
        simp
        omega
    · rw [strnchr_none (by decide) hnewline htext le_rfl, endedLines_of_not_mem hnewline]
      exact ⟨_, rfl, rfl, rfl, Nat.le_add_right _ _⟩

/-! ## All chunks -/

/-- **What the callback is given**: the records in the parts of chunks that
end with a newline; a chunk that fills the buffer leaves no room for the
terminator. -/
theorem parseMaps_eq {buffer : Str} {chunks : List Str} (hbuffer : buffer.length = mapsBufferSize)
    (hfits : ∀ chunk ∈ chunks, chunk.length ≤ mapsBufferSize)
    (hNul : ∀ chunk ∈ chunks, '\x00' ∉ chunk) :
    parseMaps buffer chunks
      = if ∀ chunk ∈ chunks, chunk.length < mapsBufferSize then
          some ((lastParts chunks).filterMap recordOf)
        else none := by
  induction chunks generalizing buffer with
  | nil => rfl
  | cons chunk chunks ih =>
    obtain ⟨hfit, hfits⟩ := List.forall_mem_cons.mp hfits
    obtain ⟨hchunkNul, hNul⟩ := List.forall_mem_cons.mp hNul
    have hstored : storeCells buffer 0 chunk = some (chunk ++ buffer.drop chunk.length) := by
      rw [storeCells_eq (by omega), patch]
      simp
    simp only [parseMaps, hstored, Option.bind_eq_bind, Option.bind_some, Nat.add_zero, parseBuffer]
    by_cases hlt : chunk.length < mapsBufferSize
    · obtain ⟨y, b, hdrop⟩ : ∃ y b, buffer.drop chunk.length = y :: b :=
        List.exists_cons_of_ne_nil (List.drop_eq_nil_iff.not.mpr (by omega))
      have hstore := storeCell_at [] chunk b y '\x00'
      obtain ⟨parsed, hparsed, hrecords, hlen, hnparsed⟩ :=
        parseLines_spec (a := []) (b := b) hchunkNul (Nat.lt_succ_self chunk.length)
      rw [List.nil_append, List.nil_append, List.length_nil, Nat.zero_add] at hstore
      simp only [List.nil_append, List.length_nil, Nat.zero_add] at hparsed hnparsed
      rw [hdrop, hstore]
      simp only [Option.bind_some, hparsed]
      have hsize : parsed.buffer.length = mapsBufferSize := by
        have := congrArg List.length hdrop
        rw [List.length_drop, List.length_cons] at this
        rw [hlen]
        simp
        omega
      rw [copyCells_eq (Nat.zero_le _) (by omega)]
      have hmoved : (patch parsed.buffer 0
          (slice parsed.buffer parsed.nparsed (chunk.length - parsed.nparsed))).length
          = mapsBufferSize := by
        rw [patch_length (by rw [slice_length (by omega)]; omega), hsize]
      have hrest := ih hmoved hfits hNul
      simp only [Option.bind_some, hrest, List.forall_mem_cons, hlt, true_and]
      split
      · simp only [Option.bind_some, hrecords, lastParts, List.flatMap_cons, List.filterMap_append]
        rfl
      · rfl
    · have hlast : storeCell (chunk ++ buffer.drop chunk.length) chunk.length '\x00' = none := by
        rw [storeCell, if_neg]
        simp
        omega
      rw [hlast, if_neg fun h => hlt (h chunk List.mem_cons_self)]
      rfl

/-! ## Lines and their last parts -/

theorem hexDigits_plain : ∀ c ∈ "0123456789abcdef".toList,
    c ∉ ['-', ' ', '\n', '\x00'] ∧ isDigitOf 16 c = true ∧
      hexStep 0 c = BitVec.ofNat 64 ((digitVal c).getD 0) ∧ (digitVal c).getD 0 < 16 :=
  List.all_iff_forall_prop.mp (by decide)

theorem MapsLine.text_plain (line : MapsLine) : ∀ c ∈ line.text, c ∉ ['\n', '\x00'] := by
  have hdigits : ∀ c ∈ "0123456789abcdef".toList, c ∉ ['\n', '\x00'] := fun c hc =>
    fun hmem => (hexDigits_plain c hc).1 (List.mem_of_mem_drop (i := 2) hmem)
  intro c hc
  simp only [MapsLine.text, List.mem_append, List.mem_cons] at hc
  rcases hc with hc | rfl | hc | rfl | hc | rfl | hc
  · exact hdigits c (line.from_hex c hc)
  · decide
  · exact hdigits c (line.to_hex c hc)
  · decide
  · exact fun hmem => line.rights_plain c hc (List.mem_cons_of_mem _ hmem)
  · decide
  · exact line.rest_plain c hc

theorem mapsText_cons (line : MapsLine) (lines : List MapsLine) :
    mapsText (line :: lines) = line.text ++ '\n' :: mapsText lines := by
  simp [mapsText]

/-- Texts are equal up to the first newline and behind it. -/
theorem eq_of_newline {front front' back back' : Str} (hfront : '\n' ∉ front)
    (hfront' : '\n' ∉ front') (h : front ++ '\n' :: back = front' ++ '\n' :: back') :
    front = front' ∧ back = back' := by
  have hcut : cutAt '\n' (front ++ '\n' :: back) = some (front, back) := cutAt_append hfront
  rw [h, cutAt_append hfront', Option.some.injEq, Prod.mk.injEq] at hcut
  exact ⟨hcut.1.symm, hcut.2.symm⟩

/-- The parts of one chunk, behind a text without a newline. -/
theorem endedLines_lines {chunk rest front : Str} {parts : List Str} {lines : List MapsLine}
    (hfront : '\n' ∉ front) (h : front ++ (chunk ++ rest) = mapsText lines)
    (hrest : ∀ {front : Str} {lines : List MapsLine}, '\n' ∉ front →
      front ++ rest = mapsText lines →
      List.Forall₂ (fun line part => part <:+ line.text) lines parts) :
    List.Forall₂ (fun line part => part <:+ line.text) lines (endedLines chunk ++ parts) := by
  obtain ⟨n, hn⟩ : ∃ n, chunk.length = n := ⟨_, rfl⟩
  induction n using Nat.strong_induction_on generalizing chunk front lines with
  | _ n ih =>
    by_cases hnewline : '\n' ∈ chunk
    · have hnil : '\n' ∉ ([] : Str) := List.not_mem_nil
      obtain ⟨part, chunk', rfl, hpart⟩ := List.eq_append_cons_of_mem hnewline
      have hfull : '\n' ∉ front ++ part := by
        rw [List.mem_append, not_or]
        exact ⟨hfront, hpart⟩
      have htext : (front ++ part) ++ '\n' :: (chunk' ++ rest) = mapsText lines := by
        rw [← h]
        simp
      cases lines with
      | nil => simp [mapsText] at htext
      | cons line lines =>
        rw [mapsText_cons] at htext
        obtain ⟨hline, hlines⟩ := eq_of_newline hfull
          (fun hmem => line.text_plain _ hmem (by simp)) htext
        rw [endedLines_cons hpart, List.cons_append]
        exact .cons ⟨front, hline⟩
          (ih chunk'.length (by rw [← hn]; simp; omega) hnil hlines rfl)
    · rw [endedLines_of_not_mem hnewline, List.nil_append]
      have hall : '\n' ∉ front ++ chunk := by
        rw [List.mem_append, not_or]
        exact ⟨hfront, hnewline⟩
      exact hrest hall (by rw [List.append_assoc, h])

/-- The parts belong to the lines one by one, and each is the end of its
line. -/
theorem lastParts_lines {chunks : List Str} {front : Str} {lines : List MapsLine}
    (hfront : '\n' ∉ front) (h : front ++ chunks.flatten = mapsText lines) :
    List.Forall₂ (fun line part => part <:+ line.text) lines (lastParts chunks) := by
  induction chunks generalizing front lines with
  | nil =>
    cases lines with
    | nil => exact .nil
    | cons line lines =>
      rw [List.flatten_nil, List.append_nil, mapsText_cons] at h
      exact absurd (h ▸ by simp) hfront
  | cons chunk chunks ih =>
    rw [List.flatten_cons] at h
    exact endedLines_lines hfront h ih

/-! ## Numbers -/

/-- A digit takes the place of the four bits that were shifted in. -/
theorem shiftLeft_or_digit (value : BitVec 64) {d : Nat} (hd : d < 16) :
    value <<< 4 ||| BitVec.ofNat 64 d = BitVec.ofNat 64 (value.toNat * 16 + d) := by
  have hand : value <<< 4 &&& BitVec.ofNat 64 d = 0#64 := by
    refine BitVec.eq_of_getLsbD_eq fun i hi => ?_
    rw [BitVec.getLsbD_and, BitVec.getLsbD_shiftLeft, BitVec.getLsbD_ofNat]
    by_cases hlow : i < 4
    · simp [hlow]
    · have hbit : d.testBit i = false := by
        have hpow : (2 : Nat) ^ 4 ≤ 2 ^ i :=
          Nat.pow_le_pow_right (by decide) (Nat.le_of_not_lt hlow)
        exact Nat.testBit_lt_two_pow (Nat.lt_of_lt_of_le hd hpow)
      simp [hbit]
  rw [← BitVec.add_eq_or_of_and_eq_zero _ _ hand]
  refine BitVec.eq_of_toNat_eq ?_
  rw [BitVec.toNat_add, BitVec.toNat_shiftLeft, BitVec.toNat_ofNat, BitVec.toNat_ofNat,
    Nat.shiftLeft_eq]
  omega

theorem hexStep_digit (value : BitVec 64) {c : Char} (hc : c ∈ "0123456789abcdef".toList) :
    hexStep value c = BitVec.ofNat 64 (value.toNat * 16 + (digitVal c).getD 0) := by
  obtain ⟨-, -, hzero, hd⟩ := hexDigits_plain c hc
  have hstep : hexStep value c = value <<< 4 ||| hexStep 0 c := by simp [hexStep]
  rw [hstep, hzero, shiftLeft_or_digit value hd]

theorem str2hex_digits {digits : Str} (h : ∀ c ∈ digits, c ∈ "0123456789abcdef".toList) :
    str2hex digits = BitVec.ofNat 64 (digitsValue 16 digits) := by
  have hfold : ∀ n : Nat, digits.foldl hexStep (BitVec.ofNat 64 n)
      = BitVec.ofNat 64 (digits.foldl (fun acc c => acc * 16 + (digitVal c).getD 0) n) := by
    induction digits with
    | nil => exact fun _ => rfl
    | cons c digits ih =>
      obtain ⟨hc, hdigits⟩ := List.forall_mem_cons.mp h
      intro n
      rw [List.foldl_cons, List.foldl_cons, ← ih hdigits, hexStep_digit _ hc]
      congr 1
      refine BitVec.eq_of_toNat_eq ?_
      simp only [BitVec.toNat_ofNat]
      omega
  exact hfold 0

theorem MapsLine.recordOf_text (line : MapsLine) : recordOf line.text = some line.record := by
  have hminus : '-' ∉ line.fromText := fun h =>
    (hexDigits_plain _ (line.from_hex _ h)).1 (by simp)
  have hto : ' ' ∉ line.toText := fun h => (hexDigits_plain _ (line.to_hex _ h)).1 (by simp)
  have hrights : ' ' ∉ line.rights := fun h => line.rights_plain _ h (by simp)
  simp only [recordOf, MapsLine.text, cutAt_append hminus, cutAt_append hto, cutAt_append hrights,
    Option.bind_eq_bind, Option.bind_some, str2hex_digits line.from_hex, str2hex_digits line.to_hex]
  rfl

/-! ## The file -/

theorem filterMap_eq_iff {lines : List MapsLine} {parts : List Str}
    (hlen : lines.length = parts.length) :
    parts.filterMap recordOf = lines.map MapsLine.record ↔
      List.Forall₂ (fun line part => recordOf part = some line.record) lines parts := by
  induction lines generalizing parts with
  | nil =>
    obtain rfl := List.length_eq_zero_iff.mp hlen.symm
    simp
  | cons line lines ih =>
    cases parts with
    | nil => cases hlen
    | cons part parts =>
      rw [List.forall₂_cons, ← ih (Nat.succ.inj hlen), List.map_cons]
      cases hrecord : recordOf part with
      | none =>
        -- the other parts are too few
        rw [List.filterMap_cons_none hrecord]
        refine iff_of_false (fun heq => ?_) (by simp)
        have hshort := List.length_filterMap_le recordOf parts
        have := congrArg List.length heq
        rw [List.length_cons, List.length_map] at this
        rw [List.length_cons, List.length_cons] at hlen
        omega
      | some record => simp [List.filterMap_cons_some hrecord]

/-- **The maps file is read line by line** exactly if no chunk fills the
buffer, and for every line its part behind the last boundary of chunks
inside of it has the same addresses and the same rights. -/
theorem parseMaps_iff {buffer : Str} {chunks : List Str} {lines : List MapsLine}
    (hbuffer : buffer.length = mapsBufferSize) (hchunks : Chunks (mapsText lines) chunks) :
    parseMaps buffer chunks = some (lines.map MapsLine.record) ↔
      (∀ chunk ∈ chunks, chunk.length < mapsBufferSize) ∧
        List.Forall₂ (fun line part => recordOf part = recordOf line.text) lines
          (lastParts chunks) := by
  have hNul : ∀ chunk ∈ chunks, '\x00' ∉ chunk := by
    intro chunk hchunk hmem
    have htext : '\x00' ∈ mapsText lines := by
      rw [← hchunks.flatten]
      exact List.mem_flatten_of_mem hchunk hmem
    simp only [mapsText, List.mem_flatten, List.mem_map] at htext
    obtain ⟨_, ⟨line, -, rfl⟩, hmem⟩ := htext
    rcases List.mem_append.mp hmem with hmem | hmem
    · exact line.text_plain _ hmem (by simp)
    · revert hmem
      decide
  have hnil : '\n' ∉ ([] : Str) := List.not_mem_nil
  have hlen := (lastParts_lines hnil hchunks.flatten).length_eq
  simp only [parseMaps_eq hbuffer hchunks.fits hNul, MapsLine.recordOf_text]
  split
  · rename_i hlt
    rw [Option.some.injEq, filterMap_eq_iff hlen]
    exact (and_iff_right hlt).symm
  · rename_i hfull
    exact iff_of_false (by simp) fun h => hfull h.1

/-! ## Two ways to read a file -/

def sampleLine : MapsLine where
  fromText := "1000".toList
  toText := "2000".toList
  rights := "r-xp".toList
  rest := "00000000 08:01 7 /lib/a".toList
  from_hex := List.all_iff_forall_prop.mp (by decide)
  to_hex := List.all_iff_forall_prop.mp (by decide)
  rights_plain := List.all_iff_forall_prop.mp (by decide)
  rest_plain := List.all_iff_forall_prop.mp (by decide)

/-- A line without a name. -/
def anonymousLine : MapsLine where
  fromText := "7f0000000000".toList
  toText := "7f0000021000".toList
  rights := "rw-p".toList
  rest := "00000000 00:00 0".toList
  from_hex := List.all_iff_forall_prop.mp (by decide)
  to_hex := List.all_iff_forall_prop.mp (by decide)
  rights_plain := List.all_iff_forall_prop.mp (by decide)
  rest_plain := List.all_iff_forall_prop.mp (by decide)

/-- A file of three lines, read in two chunks of whole lines. -/
def lineChunks : List Str := [mapsText [sampleLine, anonymousLine], mapsText [sampleLine]]

/-- The file of one line in two chunks. -/
def cutChunks : List Str :=
  ["1000-20".toList, "00 r-xp 00000000 08:01 7 /lib/a\n".toList]

theorem chunks_of {text : Str} {chunks : List Str} (hflatten : chunks.flatten = text)
    (h : chunks.all (fun chunk => chunk ≠ [] ∧ chunk.length < mapsBufferSize) = true) :
    Chunks text chunks where
  flatten := hflatten
  nonempty chunk hchunk := by
    have := List.all_eq_true.mp h chunk hchunk
    exact (of_decide_eq_true this).1
  fits chunk hchunk := by
    have := List.all_eq_true.mp h chunk hchunk
    exact (of_decide_eq_true this).2.le

/-- Chunks of whole lines are read. -/
theorem parseMaps_iff_lines :
    parseMaps (List.replicate mapsBufferSize ' ') lineChunks
      = some [sampleLine.record, anonymousLine.record, sampleLine.record] :=
  (parseMaps_iff List.length_replicate
    (show Chunks (mapsText [sampleLine, anonymousLine, sampleLine]) lineChunks from
      chunks_of (by decide) (by decide))).mpr
    ⟨by decide, .cons (by decide) (.cons (by decide) (.cons (by decide) .nil))⟩

/-- Of the line that is cut the callback gets the end, with the offset for
the rights. -/
theorem parseMaps_cut : Chunks (mapsText [sampleLine]) cutChunks ∧
    (parseMaps (List.replicate mapsBufferSize ' ') cutChunks).map (List.map MapsRecord.rights)
      = some ["00000000".toList] ∧ sampleLine.record.rights = "r-xp".toList := by
  refine ⟨chunks_of (by decide) (by decide), ?_, rfl⟩
  rw [parseMaps_eq List.length_replicate (by decide) (by decide)]
  decide

end SpRtrace.Pagemap
