/-
SpRtrace.Timeline.TimestampTheorems — which timestamps are read back from
their text.

The parser is followed from right to left. `AtEnd` says which part of the
text is in front of the place the parser has come to; a field takes the
last colon and what stands behind it off that part (`parseField_colon`).
The three lemmas `fromString_hours`, `fromString_minutes` and
`fromString_seconds` are one for each number of fields.
-/
import SpRtrace.Library.RoundTrip
import SpRtrace.Timeline.Timestamp

namespace SpRtrace.Timeline.Timestamp

open SpRtrace.Lib SpRtrace.Common SpRtrace.Library SpRtrace.Postproc

variable {w : Nat}

/-! ## Numbers -/

theorem showInt_natCast (n : Nat) : showInt (n : Int) = printPadded 0 n := by
  rw [showInt, if_neg (by omega), printPadded, Int.toNat_natCast]
  simp

theorem showPadded_natCast (width n : Nat) : showPadded width (n : Int) = printPadded width n := by
  rw [showPadded, showInt_natCast, printPadded, printPadded]
  simp

theorem printPadded_ne_nil (width n : Nat) : printPadded width n ≠ [] := by
  simp [printPadded, printNat_ne_nil]

theorem atoi_printPadded (hw : 32 ≤ w) (width : Nat) {n : Nat} (hlt : n < 2 ^ 31) :
    atoi w (printPadded width n) = BitVec.ofNat 32 n := by
  have hscan := scanConv_dec_printPadded hw width hlt (stops_nil (isDigitOf 10))
  rw [List.append_nil] at hscan
  rw [atoi, hscan]

theorem Fields.of_natCast (n : Nat) :
    Fields.of (n : Int) =
      { hours := ((n / 1000 / 60 / 60 : Nat) : Int), minutes := ((n / 1000 / 60 % 60 : Nat) : Int),
        seconds := ((n / 1000 % 60 : Nat) : Int), msecs := ((n % 1000 : Nat) : Int) } := by
  rw [Fields.of]
  norm_cast

/-! ## Fields from the right -/

/-- The parser has come to the end of `body`, which is the front part of
the text. -/
structure AtEnd (w : Nat) (text body : Str) (p : Parsed) : Prop where
  take_eq : text.take (p.lpos + 1) = body
  small : p.lpos + 1 < 2 ^ w

theorem before_pos {pos : Nat} (hpos : 0 < pos) (hlt : pos < 2 ^ w) : before w pos = pos - 1 := by
  have hsum : pos + (2 ^ w - 1) = pos - 1 + 2 ^ w := by omega
  rw [before, hsum, Nat.add_mod_right, Nat.mod_eq_of_lt (by omega)]

/-- In front of a place the text is what it was. -/
theorem atEnd_before {text front rest : Str} (htext : text = front ++ rest) (hfront : front ≠ [])
    (hlen : text.length < npos w) (timestamp shift : BitVec 32) :
    AtEnd w text front { timestamp, lpos := before w front.length, shift } := by
  have hpos : 0 < front.length := List.length_pos_of_ne_nil hfront
  have hle : front.length ≤ text.length := by rw [htext, List.length_append]; omega
  have hlt : front.length + 1 < 2 ^ w := by rw [npos] at hlen; omega
  have hlpos : before w front.length + 1 = front.length := by
    rw [before_pos hpos (by omega)]
    omega
  refine ⟨?_, by simp only [hlpos]; omega⟩
  simp only [hlpos]
  rw [htext, List.take_left]

/-- The last colon and the number behind it. -/
theorem parseField_colon {text front field rest : Str} {p : Parsed} (unit : BitVec 32)
    (htext : text = front ++ rest) (hlen : text.length < npos w)
    (hp : AtEnd w text (front ++ ':' :: field) p) (hfield : ':' ∉ field) :
    parseField w text unit p =
      { timestamp := p.timestamp + unit * atoi w field, lpos := before w front.length,
        shift := p.shift * 60 } := by
  have hrfind : rfind w text ':' p.lpos = front.length := by
    rw [rfind, hp.take_eq, strrchr_append front hfield]
  have hne : front.length ≠ npos w := by
    rw [htext, List.length_append] at hlen
    omega
  have hsubstr : substr text (front.length + 1) (p.lpos - front.length) = field := by
    have hcount : p.lpos - front.length = p.lpos + 1 - (front.length + 1) := by omega
    have hdrop : front ++ ':' :: field = (front ++ [':']) ++ field := by simp
    rw [substr, hcount, ← List.drop_take, hp.take_eq, hdrop]
    exact List.drop_left' (by simp)
  simp only [parseField, hrfind, ne_eq, hne, not_false_eq_true, if_true, hsubstr]

/-- No colon is left. -/
theorem parseField_none {text body : Str} {p : Parsed} (unit : BitVec 32)
    (hp : AtEnd w text body p) (hbody : ':' ∉ body) : parseField w text unit p = p := by
  have hrfind : rfind w text ':' p.lpos = npos w := by
    have hall : ∀ c ∈ body.reverse, decide (c ≠ ':') = true := by
      intro c hc
      rw [decide_eq_true_iff]
      rintro rfl
      exact hbody (List.mem_reverse.mp hc)
    rw [rfind, hp.take_eq, strrchr, List.dropWhile_eq_nil_iff.mpr hall]
  simp [parseField, hrfind]

/-- The number in front. -/
theorem substr_atEnd {text body : Str} {p : Parsed} (hp : AtEnd w text body p) :
    substr text 0 ((p.lpos + 1) % 2 ^ w) = body := by
  rw [substr, List.drop_zero, Nat.mod_eq_of_lt hp.small, hp.take_eq]

/-! ## The fraction -/

/-- A text with a fraction behind it or without one. -/
def withFraction (body : Str) : Option Str → Str
  | some frac => body ++ '.' :: frac
  | none => body

/-- What is read of the fraction. -/
def fractionValue (w : Nat) (frac : Option Str) : BitVec 32 := frac.elim 0 (atoi w)

theorem idxOf?_append_cons {c : Char} {front : Str} (h : c ∉ front) (rest : Str) :
    (front ++ c :: rest).idxOf? c = some front.length := by
  induction front with
  | nil => simp [List.idxOf?_cons]
  | cons d front ih =>
    have hd : (d == c) = false := by
      rw [beq_eq_false_iff_ne]
      rintro rfl
      exact h (List.mem_cons_self ..)
    have hfront : c ∉ front := fun hc => h (List.mem_cons_of_mem _ hc)
    rw [List.cons_append, List.idxOf?_cons, hd, ih hfront]
    simp

/-- The fraction is read, and the parser comes to its point. -/
theorem parseFraction_atEnd {body : Str} {frac : Option Str} (hbody : body ≠ [])
    (hpoint : '.' ∉ body) (hlen : (withFraction body frac).length < npos w) :
    ∃ p, parseFraction w (withFraction body frac) = p ∧ p.timestamp = fractionValue w frac ∧
      p.shift = 1000 ∧ AtEnd w (withFraction body frac) body p := by
  cases frac with
  | none =>
    have hfind : find w body '.' = npos w := by
      rw [find, List.idxOf?_eq_none_iff.mpr hpoint, Option.getD_none]
    refine ⟨{ timestamp := 0, lpos := body.length, shift := 1000 },
      by simp [parseFraction, withFraction, hfind], rfl, rfl, ?_, ?_⟩
    · exact List.take_of_length_le (Nat.le_succ _)
    · rw [withFraction, npos] at hlen
      simp only
      omega
  | some frac =>
    rw [withFraction] at hlen ⊢
    have hfind : find w (body ++ '.' :: frac) '.' = body.length := by
      rw [find, idxOf?_append_cons hpoint, Option.getD_some]
    have hne : body.length ≠ npos w := by
      rw [List.length_append] at hlen
      omega
    have hsubstr : substr (body ++ '.' :: frac) (body.length + 1)
        ((body ++ '.' :: frac).length - body.length - 1) = frac := by
      have hdrop : (body ++ '.' :: frac).drop (body.length + 1) = frac := by
        rw [← List.drop_drop, List.drop_left]
        rfl
      rw [substr, hdrop]
      exact List.take_of_length_le (by simp)
    refine ⟨{ timestamp := atoi w frac, lpos := before w body.length, shift := 1000 }, ?_, rfl, rfl,
      atEnd_before rfl hbody hlen _ _⟩
    simp only [parseFraction, hfind, ne_eq, hne, not_false_eq_true, if_true, hsubstr]

/-! ## Whole texts -/

structure FieldText (field : Str) : Prop where
  ne : field ≠ []
  colon : ':' ∉ field
  point : '.' ∉ field

theorem fieldText_printPadded (width n : Nat) : FieldText (printPadded width n) :=
  ⟨printPadded_ne_nil width n, not_mem_printPadded (by decide) width n,
    not_mem_printPadded (by decide) width n⟩

theorem fromString_seconds {s : Str} {frac : Option Str} (hs : FieldText s)
    (hlen : (withFraction s frac).length < npos w) :
    fromString w (withFraction s frac) = fractionValue w frac + 1000 * atoi w s := by
  obtain ⟨p, hp, hfrac, hshift, hend⟩ := parseFraction_atEnd hs.ne hs.point hlen
  simp only [fromString, hp, parseField_none _ hend hs.colon, substr_atEnd hend, hfrac, hshift]

theorem fromString_minutes {m s : Str} {frac : Option Str} (hm : FieldText m) (hs : FieldText s)
    (hlen : (withFraction (m ++ ':' :: s) frac).length < npos w) :
    fromString w (withFraction (m ++ ':' :: s) frac)
      = fractionValue w frac + 1000 * atoi w s + 1000 * 60 * atoi w m := by
  have hpoint : '.' ∉ m ++ ':' :: s := by simp [hm.point, hs.point]
  obtain ⟨p, hp, hfrac, hshift, hend⟩ := parseFraction_atEnd (by simp) hpoint hlen
  obtain ⟨rest, hrest⟩ : ∃ rest, withFraction (m ++ ':' :: s) frac = m ++ rest := by
    cases frac with
    | none => exact ⟨_, rfl⟩
    | some frac => exact ⟨_, List.append_assoc ..⟩
  have hfield := parseField_colon 1000 hrest hlen hend hs.colon
  have hend' := atEnd_before hrest hm.ne hlen (p.timestamp + 1000 * atoi w s) (p.shift * 60)
  simp only [fromString, hp, hfield, parseField_none _ hend' hm.colon, substr_atEnd hend']
  rw [hfrac, hshift]

theorem fromString_hours {h m s : Str} {frac : Option Str} (hh : FieldText h) (hm : FieldText m)
    (hs : FieldText s) (hlen : (withFraction (h ++ ':' :: m ++ ':' :: s) frac).length < npos w) :
    fromString w (withFraction (h ++ ':' :: m ++ ':' :: s) frac)
      = fractionValue w frac + 1000 * atoi w s + 1000 * 60 * atoi w m
        + 1000 * 60 * 60 * atoi w h := by
  have hpoint : '.' ∉ h ++ ':' :: m ++ ':' :: s := by simp [hh.point, hm.point, hs.point]
  obtain ⟨p, hp, hfrac, hshift, hend⟩ := parseFraction_atEnd (by simp) hpoint hlen
  obtain ⟨rest, hrest⟩ : ∃ rest, withFraction (h ++ ':' :: m ++ ':' :: s) frac
      = (h ++ ':' :: m) ++ rest := by
    cases frac with
    | none => exact ⟨_, rfl⟩
    | some frac => exact ⟨_, List.append_assoc ..⟩
  have hrest' : withFraction (h ++ ':' :: m ++ ':' :: s) frac = h ++ (':' :: m ++ rest) := by
    rw [hrest, List.append_assoc]
  have hseconds := parseField_colon 1000 hrest hlen hend hs.colon
  have hend' := atEnd_before hrest (by simp) hlen (p.timestamp + 1000 * atoi w s) (p.shift * 60)
  have hminutes := parseField_colon (1000 * 60) hrest' hlen hend' hm.colon
  have hend'' := atEnd_before hrest' hh.ne hlen
    (p.timestamp + 1000 * atoi w s + 1000 * 60 * atoi w m) (p.shift * 60 * 60)
  simp only [fromString, hp, hseconds, hminutes, substr_atEnd hend'']
  rw [hfrac, hshift]

/-! ## The two formats -/

/-- The zeros that are taken off leave a smaller number. -/
theorem trimZeros_natCast (decimal m : Nat) :
    ∃ width m' : Nat, trimZeros decimal (m : Int) = (width, (m' : Int)) ∧ width ≤ decimal ∧
      m' ≤ m ∧ (m ≠ 0 → 0 < decimal → (m' = m ↔ m % 10 ≠ 0)) := by
  induction decimal generalizing m with
  | zero => exact ⟨0, m, rfl, le_rfl, le_rfl, fun _ h => absurd h (by simp)⟩
  | succ decimal ih =>
    have hmod : (m : Int).tmod 10 = ((m % 10 : Nat) : Int) := by norm_cast
    have hdiv : (m : Int).tdiv 10 = ((m / 10 : Nat) : Int) := by norm_cast
    by_cases hm : m % 10 = 0
    · obtain ⟨width, m', htrim, hwidth, hle, -⟩ := ih (m / 10)
      refine ⟨width, m', ?_, by omega, by omega, fun hne _ => ?_⟩
      · rw [trimZeros, hmod, hdiv, if_pos (by omega), htrim]
      · simp only [hm, not_true_eq_false, ne_eq, iff_false]
        omega
    · refine ⟨decimal + 1, m, ?_, le_rfl, le_rfl, fun _ _ => by simp [hm]⟩
      rw [trimZeros, hmod, if_neg (by omega)]

theorem printPadded_short {width n : Nat} (hwidth : width ≤ 3) (h : n < 2 ^ 31) :
    (printPadded width n).length ≤ 13 := by
  have hten : n < 10 ^ 10 := by omega
  have hlen := printPadded_length width (by decide) hten
  omega

theorem short_npos (hw : 32 ≤ w) {n : Nat} (h : n < 2 ^ 31) : n < npos w := by
  have hpow : 2 ^ 32 ≤ 2 ^ w := Nat.pow_le_pow_right (by decide) hw
  rw [npos]
  omega

/-- The fields as they are added up by the parser. -/
theorem fields_sum (x : BitVec 32) (n : Nat) :
    x + 1000 * BitVec.ofNat 32 (n / 1000 % 60) + 1000 * 60 * BitVec.ofNat 32 (n / 1000 / 60 % 60)
        + 1000 * 60 * 60 * BitVec.ofNat 32 (n / 1000 / 60 / 60)
      = x + BitVec.ofNat 32 (n - n % 1000) := by
  have hvalue : n - n % 1000 = 1000 * (n / 1000 % 60) + 1000 * 60 * (n / 1000 / 60 % 60)
      + 1000 * 60 * 60 * (n / 1000 / 60 / 60) := by omega
  rw [hvalue]
  simp only [BitVec.ofNat_add, BitVec.ofNat_mul, BitVec.add_assoc]
  rfl

/-- **A timestamp is read back from its full text.** -/
theorem fromString_toString (hw : 32 ≤ w) {n : Nat} (h : n < 2 ^ 31) :
    fromString w (toString (n : Int) 3) = BitVec.ofNat 32 n := by
  have htext : toString (n : Int) 3 = withFraction (printPadded 2 (n / 1000 / 60 / 60) ++ ':' ::
      printPadded 2 (n / 1000 / 60 % 60) ++ ':' :: printPadded 2 (n / 1000 % 60))
      (some (printPadded 3 (n % 1000))) := by
    simp only [toString, Fields.of_natCast, Nat.sub_self, Function.iterate_zero, id_eq,
      showPadded_natCast]
    simp [withFraction]
  have hlen : (toString (n : Int) 3).length < 2 ^ 31 := by
    have hshort : ∀ width ≤ 3, ∀ m ≤ n, (printPadded width m).length ≤ 13 :=
      fun width hwidth m hm => printPadded_short hwidth (lt_of_le_of_lt hm h)
    have hhours := hshort 2 (by decide) (n / 1000 / 60 / 60) (by omega)
    have hminutes := hshort 2 (by decide) (n / 1000 / 60 % 60) (by omega)
    have hseconds := hshort 2 (by decide) (n / 1000 % 60) (by omega)
    have hmsecs := hshort 3 (by decide) (n % 1000) (by omega)
    rw [htext]
    simp only [withFraction, List.length_append, List.length_cons]
    omega
  have hshort := short_npos hw hlen
  rw [htext] at hshort ⊢
  rw [fromString_hours (fieldText_printPadded ..) (fieldText_printPadded ..)
    (fieldText_printPadded ..) hshort, fractionValue, Option.elim_some,
    atoi_printPadded hw _ (by omega), atoi_printPadded hw _ (by omega),
    atoi_printPadded hw _ (by omega), atoi_printPadded hw _ (by omega), fields_sum,
    ← BitVec.ofNat_add]
  congr 1
  omega

/-- What an offset has in front of the point. -/
def offsetBody (n : Nat) : Str :=
  if n / 1000 / 60 / 60 ≠ 0 then
    printPadded 0 (n / 1000 / 60 / 60) ++ ':' :: printPadded 2 (n / 1000 / 60 % 60)
      ++ ':' :: printPadded 2 (n / 1000 % 60)
  else if n / 1000 / 60 % 60 ≠ 0 then
    printPadded 0 (n / 1000 / 60 % 60) ++ ':' :: printPadded 2 (n / 1000 % 60)
  else printPadded 0 (n / 1000 % 60)

theorem offsetToString_body (n : Nat) :
    offsetToString (n : Int) = withFraction (offsetBody n)
      (if n % 1000 = 0 then none
        else some (showPadded (trimZeros 3 ((n % 1000 : Nat) : Int)).1
          (trimZeros 3 ((n % 1000 : Nat) : Int)).2)) := by
  have hne : ∀ m : Nat, ((m : Int) ≠ 0) ↔ m ≠ 0 := fun m => by omega
  have hbody : offsetToString (n : Int) = offsetBody n
      ++ if n % 1000 ≠ 0 then '.' :: showPadded (trimZeros 3 ((n % 1000 : Nat) : Int)).1
          (trimZeros 3 ((n % 1000 : Nat) : Int)).2 else [] := by
    simp only [offsetToString, offsetBody, Fields.of_natCast, hne, showBehind, showInt_natCast,
      showPadded_natCast]
    generalize trimZeros 3 ((n % 1000 : Nat) : Int) = trimmed
    by_cases hms : n % 1000 = 0
    · by_cases hh : n / 1000 / 60 / 60 = 0
      · by_cases hm : n / 1000 / 60 % 60 = 0 <;> simp [hms, hh, hm]
      · simp [hms, hh]
    · by_cases hh : n / 1000 / 60 / 60 = 0
      · by_cases hm : n / 1000 / 60 % 60 = 0 <;> simp [hms, hh, hm]
      · simp [hms, hh]
  rw [hbody]
  by_cases hm : n % 1000 = 0
  · simp [hm, withFraction]
  · simp [hm, withFraction]

/-- What is in front of the point is read back. -/
theorem fromString_offsetBody (hw : 32 ≤ w) {n : Nat} (h : n < 2 ^ 31) (frac : Option Str)
    (hlen : (withFraction (offsetBody n) frac).length < npos w) :
    fromString w (withFraction (offsetBody n) frac)
      = fractionValue w frac + BitVec.ofNat 32 (n - n % 1000) := by
  have hsum := fields_sum (fractionValue w frac) n
  unfold offsetBody at hlen ⊢
  split at hlen
  next hh =>
    rw [if_pos hh, fromString_hours (fieldText_printPadded ..) (fieldText_printPadded ..)
      (fieldText_printPadded ..) hlen, atoi_printPadded hw _ (by omega),
      atoi_printPadded hw _ (by omega), atoi_printPadded hw _ (by omega), hsum]
  next hh =>
    rw [if_neg hh]
    rw [not_not] at hh
    rw [hh] at hsum
    split at hlen
    next hm =>
      rw [if_pos hm, fromString_minutes (fieldText_printPadded ..) (fieldText_printPadded ..) hlen,
        atoi_printPadded hw _ (by omega), atoi_printPadded hw _ (by omega), ← hsum]
      simp
    next hm =>
      rw [if_neg hm, fromString_seconds (fieldText_printPadded ..) hlen,
        atoi_printPadded hw _ (by omega), ← hsum, not_not.mp hm]
      simp

theorem offsetToString_length {n : Nat} (h : n < 2 ^ 31) :
    (offsetToString (n : Int)).length < 2 ^ 31 := by
  have hshort : ∀ width ≤ 3, ∀ m ≤ n, (printPadded width m).length ≤ 13 :=
    fun width hwidth m hm => printPadded_short hwidth (lt_of_le_of_lt hm h)
  have hhours := hshort 0 (by decide) (n / 1000 / 60 / 60) (by omega)
  have hminutes := hshort 0 (by decide) (n / 1000 / 60 % 60) (by omega)
  have hminutes' := hshort 2 (by decide) (n / 1000 / 60 % 60) (by omega)
  have hseconds := hshort 0 (by decide) (n / 1000 % 60) (by omega)
  have hseconds' := hshort 2 (by decide) (n / 1000 % 60) (by omega)
  have hbody : (offsetBody n).length ≤ 50 := by
    unfold offsetBody
    split
    · simp only [List.length_append, List.length_cons]
      omega
    · split
      · simp only [List.length_append, List.length_cons]
        omega
      · omega
  obtain ⟨width, m', htrim, hwidth, hle, -⟩ := trimZeros_natCast 3 (n % 1000)
  have hmsecs := hshort width hwidth m' (by omega)
  rw [offsetToString_body, htrim]
  split
  · rw [withFraction]
    omega
  · simp only [withFraction, showPadded_natCast, List.length_append, List.length_cons]
    omega

/-- **What is read back from the text of an offset**: the zeros that were
taken off the milliseconds are missing. -/
theorem fromString_offsetToString (hw : 32 ≤ w) {n : Nat} (h : n < 2 ^ 31) :
    fromString w (offsetToString (n : Int))
      = BitVec.ofNat 32 ((trimZeros 3 ((n % 1000 : Nat) : Int)).2.toNat + (n - n % 1000)) := by
  have hlen := short_npos hw (offsetToString_length h)
  rw [offsetToString_body] at hlen ⊢
  rw [fromString_offsetBody hw h _ hlen, BitVec.ofNat_add]
  congr 1
  obtain ⟨width, m', htrim, -, hle, -⟩ := trimZeros_natCast 3 (n % 1000)
  rw [htrim, Int.toNat_natCast]
  split
  next hm =>
    rw [show m' = 0 by omega]
    rfl
  next hm =>
    rw [showPadded_natCast, fractionValue, Option.elim_some, atoi_printPadded hw _ (by omega)]

/-- **Which timestamps make the round trip**: all of them with the full
text, and with the text of an offset those whose milliseconds are zero or
do not end in a zero. -/
theorem timestamp_roundTrip (hw : 32 ≤ w) {t : Int} (hpos : 0 ≤ t) (hlt : t < 2 ^ 31) :
    fromString w (toString t 3) = BitVec.ofInt 32 t ∧
      (fromString w (offsetToString t) = BitVec.ofInt 32 t ↔ t % 1000 = 0 ∨ t % 10 ≠ 0) := by
  obtain ⟨n, rfl⟩ := Int.eq_ofNat_of_zero_le hpos
  have hn : n < 2 ^ 31 := by omega
  rw [BitVec.ofInt_natCast, fromString_toString hw hn, fromString_offsetToString hw hn]
  refine ⟨rfl, ?_⟩
  obtain ⟨width, m', htrim, -, hle, hsame⟩ := trimZeros_natCast 3 (n % 1000)
  rw [htrim, Int.toNat_natCast]
  have hcast : BitVec.ofNat 32 (m' + (n - n % 1000)) = BitVec.ofNat 32 n ↔ m' = n % 1000 := by
    have hread : m' + (n - n % 1000) < 2 ^ 32 := by omega
    have hthis : n < 2 ^ 32 := by omega
    rw [← BitVec.toNat_inj, BitVec.toNat_ofNat, BitVec.toNat_ofNat, Nat.mod_eq_of_lt hread,
      Nat.mod_eq_of_lt hthis]
    omega
  rw [hcast]
  by_cases hm : n % 1000 = 0
  · omega
  · rw [hsame hm (by decide)]
    omega

theorem timestamp_roundTrip_second :
    fromString 64 (toString 61000 3) = BitVec.ofInt 32 61000 ∧
      (fromString 64 (offsetToString 61000) = BitVec.ofInt 32 61000 ↔
        (61000 : Int) % 1000 = 0 ∨ (61000 : Int) % 10 ≠ 0) :=
  timestamp_roundTrip (by decide) (by decide) (by decide)

/-- Half a second is written as `0.5` and read as 5 milliseconds. -/
theorem timestamp_half :
    offsetToString 500 = "0.5".toList ∧ fromString 64 (offsetToString 500) = 5 := by
  decide

end SpRtrace.Timeline.Timestamp
