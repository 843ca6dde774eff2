/-
SpRtrace.Lib.StdioTheorems — printed text is scanned back.

The scanner is cut at the directives. There is one rule per conversion:
in front of any rest that does not go on with the conversion's own
characters, `scanConv` reads exactly what was printed and leaves the rest
(`scanConv_dec_printInt`, `scanConv_hexLong_printNat`, `scanConv_word`,
`scanConv_except`, …). `sscanf_conv` chains them along a format. What
follows the printed piece is part of every rule, because `%d` goes on
through any digit and `%s` through anything but white space.

`fgetsLines_flatten` is the same for lines: a text put together from
newline-terminated lines that fit the buffer is read back as these lines.
-/
import Mathlib
import SpRtrace.Lib.Stdio

namespace SpRtrace.Lib

variable {w : Nat}

/-! ## Runs of characters -/

/-- The text does not begin with a character satisfying `p`. -/
def Stops (p : Char → Bool) (s : List Char) : Prop := ∀ c ∈ s.head?, p c = false

instance (p : Char → Bool) : (s : List Char) → Decidable (Stops p s)
  | [] => .isTrue fun _ hc => nomatch hc
  | c :: _ => decidable_of_iff (p c = false)
      ⟨fun h _ hd => Option.some.inj hd ▸ h, fun h => h c rfl⟩

@[simp] theorem stops_nil (p : Char → Bool) : Stops p [] := by simp [Stops]

@[simp] theorem stops_cons (p : Char → Bool) (c : Char) (s : List Char) :
    Stops p (c :: s) ↔ p c = false := by simp [Stops]

theorem takeWhile_run {p : Char → Bool} {run rest : List Char} (hrun : ∀ c ∈ run, p c = true)
    (hrest : Stops p rest) : (run ++ rest).takeWhile p = run := by
  rw [List.takeWhile_append_of_pos hrun]
  cases rest with
  | nil => simp
  | cons c rest => rw [List.takeWhile_cons_of_neg (by simpa using hrest), List.append_nil]

theorem dropWhile_run {p : Char → Bool} {run rest : List Char} (hrun : ∀ c ∈ run, p c = true)
    (hrest : Stops p rest) : (run ++ rest).dropWhile p = rest := by
  rw [List.dropWhile_append_of_pos hrun]
  cases rest with
  | nil => rfl
  | cons c rest => rw [List.dropWhile_cons_of_neg (by simpa using hrest)]

theorem dropWhile_of_stops {p : Char → Bool} {s : List Char} (h : Stops p s) :
    s.dropWhile p = s := by
  simpa using dropWhile_run (p := p) (List.forall_mem_nil _) h

theorem skipSpace_of_stops {s : List Char} (h : Stops isSpace s) : skipSpace s = s :=
  dropWhile_of_stops h

@[simp] theorem skipSpace_blank (s : List Char) : skipSpace (' ' :: s) = skipSpace s := by
  rw [skipSpace, skipSpace, List.dropWhile_cons_of_pos (by decide)]

@[simp] theorem skipSpace_cons {c : Char} (h : isSpace c = false) (s : List Char) :
    skipSpace (c :: s) = c :: s := skipSpace_of_stops (by simpa using h)

/-- White space in front is skipped, through to what follows if there is
nothing else. -/
theorem skipSpace_append (s t : List Char) :
    skipSpace (s ++ t) = if skipSpace s = [] then skipSpace t else skipSpace s ++ t := by
  simp only [skipSpace, List.dropWhile_append, List.isEmpty_iff]
  split <;> simp_all

/-! ## Digits -/

theorem digitVal_digitChar {d : Nat} (h : d < 16) : digitVal d.digitChar = some d := by
  interval_cases d <;> rfl

theorem isDigitOf_digitChar {base d : Nat} (hb : base ≤ 16) (h : d < base) :
    isDigitOf base d.digitChar = true := by
  simp [isDigitOf, digitVal_digitChar (by omega : d < 16), h]

theorem isDigitOf_of_mem_printNat {base : Nat} (h1 : 1 < base) (hb : base ≤ 16) (n : Nat) :
    ∀ c ∈ printNat base n, isDigitOf base c = true := by
  induction n using Nat.strongRecOn with
  | _ n ih =>
    intro c hc
    rw [printNat, Nat.toDigits_eq_if h1] at hc
    split at hc
    · rename_i hlt
      rw [List.mem_singleton.mp hc]
      exact isDigitOf_digitChar hb hlt
    · rename_i hge
      rcases List.mem_append.mp hc with hc | hc
      · exact ih (n / base) (Nat.div_lt_self (by omega) h1) c hc
      · rw [List.mem_singleton.mp hc]
        exact isDigitOf_digitChar hb (Nat.mod_lt _ (by omega))

theorem digitsValue_snoc (base : Nat) (ds : List Char) (c : Char) :
    digitsValue base (ds ++ [c]) = digitsValue base ds * base + (digitVal c).getD 0 := by
  simp [digitsValue]

/-- A printed number has the value of the number. -/
theorem digitsValue_printNat {base : Nat} (h1 : 1 < base) (hb : base ≤ 16) (n : Nat) :
    digitsValue base (printNat base n) = n := by
  induction n using Nat.strongRecOn with
  | _ n ih =>
    rw [printNat, Nat.toDigits_eq_if h1]
    split
    · rename_i hlt
      simp [digitsValue, digitVal_digitChar (by omega : n < 16)]
    · rename_i hge
      have hmod : n % base < 16 := lt_of_lt_of_le (Nat.mod_lt _ (by omega)) hb
      have hdiv := ih (n / base) (Nat.div_lt_self (by omega) h1)
      rw [digitsValue_snoc, digitVal_digitChar hmod, Option.getD_some]
      rw [printNat] at hdiv
      rw [hdiv, Nat.mul_comm, Nat.div_add_mod]

theorem digitsValue_zeros (base k : Nat) (ds : List Char) :
    digitsValue base (List.replicate k '0' ++ ds) = digitsValue base ds := by
  have hz : (digitVal '0').getD 0 = 0 := by decide
  induction k with
  | zero => rfl
  | succ k ih => simpa [digitsValue, List.replicate_succ, hz] using ih

theorem printNat_ne_nil (base n : Nat) : printNat base n ≠ [] := Nat.toDigits_ne_nil

/-- A digit is neither white space nor a sign. -/
theorem digit_plain {base : Nat} {c : Char} (h : isDigitOf base c = true) :
    isSpace c = false ∧ c ≠ '-' ∧ c ≠ '+' ∧ c ≠ 'x' ∧ c ≠ 'X' := by
  have hc : ∀ d : Char, digitVal d = none → c ≠ d := by
    rintro d hd rfl
    simp [isDigitOf, hd] at h
  have hsp : isSpace c = false := by
    rw [isSpace]
    simp only [Bool.or_eq_false_iff, decide_eq_false_iff_not]
    refine ⟨⟨⟨⟨⟨?_, ?_⟩, ?_⟩, ?_⟩, ?_⟩, ?_⟩ <;> exact hc _ (by decide)
  exact ⟨hsp, hc _ (by decide), hc _ (by decide), hc _ (by decide), hc _ (by decide)⟩

/-! ## Numbers -/

theorem scanDigits_run {base : Nat} {make : Nat → ScanArg w} {ds rest : List Char} (hne : ds ≠ [])
    (hds : ∀ c ∈ ds, isDigitOf base c = true) (hrest : Stops (isDigitOf base) rest) :
    scanDigits base make (ds ++ rest) = .ok (make (digitsValue base ds)) rest := by
  rw [scanDigits, takeWhile_run hds hrest, dropWhile_run hds hrest]
  cases ds with
  | nil => exact absurd rfl hne
  | cons d ds => rfl

theorem scanSign_of_digit {base : Nat} {c : Char} (h : isDigitOf base c = true) (s : List Char) :
    scanSign (c :: s) = (false, c :: s) := by
  obtain ⟨-, hm, hp, -, -⟩ := digit_plain h
  unfold scanSign
  split <;> simp_all

/-- A number without sign, behind nothing that a hexadecimal mark could
be taken for. -/
theorem scanNumber_run {base : Nat} {mark : List Char → List Char}
    {make : Bool → Nat → ScanArg w} {ds rest : List Char} (hne : ds ≠ [])
    (hds : ∀ c ∈ ds, isDigitOf base c = true) (hrest : Stops (isDigitOf base) rest)
    (hmark : mark (ds ++ rest) = ds ++ rest) :
    scanNumber base mark make (ds ++ rest) = .ok (make false (digitsValue base ds)) rest := by
  cases ds with
  | nil => exact absurd rfl hne
  | cons d ds =>
    have hd := hds d (by simp)
    have hskip : skipSpace (d :: ds ++ rest) = d :: (ds ++ rest) :=
      skipSpace_cons (digit_plain hd).1 _
    unfold scanNumber
    rw [hskip]
    simp only [scanSign_of_digit hd]
    rw [List.cons_append] at hmark
    rw [hmark, ← List.cons_append]
    exact scanDigits_run hne hds hrest

theorem scanHexMark_eq {s : List Char} (h : ∀ x ∈ s[1]?, x ≠ 'x' ∧ x ≠ 'X') :
    scanHexMark s = s := by
  unfold scanHexMark
  split
  · rename_i x s
    have hx := h x (by simp)
    rw [if_neg (by simp [hx.1, hx.2])]
  · rfl

/-- What may follow a hexadecimal number: no digit and no x. -/
def hexGoesOn (c : Char) : Bool := isDigitOf 16 c || c = 'x' || c = 'X'

theorem scanHexMark_printNat {n : Nat} {rest : List Char} (hrest : Stops hexGoesOn rest) :
    scanHexMark (printNat 16 n ++ rest) = printNat 16 n ++ rest := by
  apply scanHexMark_eq
  intro x hx
  cases hds : printNat 16 n with
  | nil => exact absurd hds (printNat_ne_nil 16 n)
  | cons d ds =>
    rw [hds] at hx
    cases ds with
    | nil =>
      cases rest with
      | nil => simp at hx
      | cons c rest =>
        obtain rfl : c = x := by simpa using hx
        have hgo : (isDigitOf 16 c = false ∧ c ≠ 'x') ∧ c ≠ 'X' := by
          simpa [hexGoesOn] using hrest
        exact ⟨hgo.1.2, hgo.2⟩
    | cons e ds =>
      obtain rfl : e = x := by simpa using hx
      have he := isDigitOf_of_mem_printNat (by decide) (le_refl 16) n e (by rw [hds]; simp)
      exact (digit_plain he).2.2.2

theorem stops_digit_of_hex {rest : List Char} (h : Stops hexGoesOn rest) :
    Stops (isDigitOf 16) rest := by
  intro c hc
  have := h c hc
  simp only [hexGoesOn, Bool.or_eq_false_iff] at this
  exact this.1.1

theorem scanConv_dec_run (hw : 32 ≤ w) {ds rest : List Char} {n : Nat} (hne : ds ≠ [])
    (hds : ∀ c ∈ ds, isDigitOf 10 c = true) (hn : digitsValue 10 ds = n) (hlt : n < 2 ^ 31)
    (hrest : Stops (isDigitOf 10) rest) :
    scanConv (w := w) .dec (ds ++ rest) = .ok (.int (BitVec.ofNat 32 n)) rest := by
  have hpow : (2 : Int) ^ 31 ≤ 2 ^ (w - 1) := pow_le_pow_right₀ (by norm_num) (by omega)
  have hmin : min (n : Int) (2 ^ (w - 1) - 1) = n := min_eq_left (by omega)
  rw [scanConv, scanNumber_run hne hds hrest rfl, hn]
  simp [strtolInt, hmin]

/-- %d of a number below 2^31, whatever zeros stand in front of it. -/
theorem scanConv_dec_printPadded (hw : 32 ≤ w) (width : Nat) {n : Nat} (hlt : n < 2 ^ 31)
    {rest : List Char} (hrest : Stops (isDigitOf 10) rest) :
    scanConv (w := w) .dec (printPadded width n ++ rest) = .ok (.int (BitVec.ofNat 32 n)) rest := by
  refine scanConv_dec_run hw ?_ ?_ ?_ hlt hrest
  · simp [printPadded, printNat_ne_nil]
  · intro c hc
    rcases List.mem_append.mp hc with hc | hc
    · rw [(List.mem_replicate.mp hc).2]; decide
    · exact isDigitOf_of_mem_printNat (by decide) (by decide) n c hc
  · rw [printPadded, digitsValue_zeros, digitsValue_printNat (by decide) (by decide)]

/-- **%d reads any printed `int` back.** -/
theorem scanConv_dec_printInt (hw : 32 ≤ w) (v : BitVec 32) {rest : List Char}
    (hrest : Stops (isDigitOf 10) rest) :
    scanConv (w := w) .dec (printInt v ++ rest) = .ok (.int v) rest := by
  have hlt := BitVec.toInt_lt (x := v)
  have hge := BitVec.le_toInt (x := v)
  unfold printInt
  split
  · rename_i hneg
    have hpow : (2 : Int) ^ 31 ≤ 2 ^ (w - 1) := pow_le_pow_right₀ (by norm_num) (by omega)
    have hmax : max (v.toInt : Int) (-2 ^ (w - 1)) = v.toInt := by
      apply max_eq_left; norm_num at hge; omega
    rw [scanConv, scanNumber, List.cons_append, skipSpace_cons (by decide)]
    simp only [scanSign, id]
    rw [scanDigits_run (printNat_ne_nil _ _)
      (isDigitOf_of_mem_printNat (by decide) (by decide) _) hrest,
      digitsValue_printNat (by decide) (by decide)]
    have habs : -((v.toInt.natAbs : Nat) : Int) = v.toInt := by omega
    rw [strtolInt, if_pos rfl, habs, hmax, BitVec.ofInt_toInt]
  · rename_i hpos
    have hn : v.toInt.toNat < 2 ^ 31 := by norm_num at hlt; omega
    rw [scanConv_dec_run hw (printNat_ne_nil _ _)
      (isDigitOf_of_mem_printNat (by decide) (by decide) _)
      (digitsValue_printNat (by decide) (by decide) _) hn hrest]
    have hv : BitVec.ofNat 32 v.toInt.toNat = v := by
      rw [← BitVec.ofInt_natCast, Int.toNat_of_nonneg (by omega), BitVec.ofInt_toInt]
    rw [hv]

theorem scanNumber_hex {make : Bool → Nat → ScanArg w} (n : Nat) {rest : List Char}
    (hrest : Stops hexGoesOn rest) :
    scanNumber 16 scanHexMark make (printNat 16 n ++ rest) = .ok (make false n) rest := by
  rw [scanNumber_run (printNat_ne_nil _ _)
    (isDigitOf_of_mem_printNat (by decide) (le_refl 16) n) (stops_digit_of_hex hrest)
    (scanHexMark_printNat hrest), digitsValue_printNat (by decide) (le_refl 16)]

theorem strtoul_of_lt {n : Nat} (h : n < 2 ^ w) : strtoul w false n = BitVec.ofNat w n := by
  rw [strtoul, if_neg (by omega), if_neg (by decide)]

/-- **%lx reads a printed word back.** -/
theorem scanConv_hexLong_printNat (v : BitVec w) {rest : List Char}
    (hrest : Stops hexGoesOn rest) :
    scanConv (w := w) .hexLong (printNat 16 v.toNat ++ rest) = .ok (.long v) rest := by
  rw [scanConv, scanNumber_hex _ hrest, strtoul_of_lt v.isLt, BitVec.ofNat_toNat, BitVec.setWidth_eq]

/-- **%x reads a printed `unsigned int` back.** -/
theorem scanConv_hex_printNat (hw : 32 ≤ w) (v : BitVec 32) {rest : List Char}
    (hrest : Stops hexGoesOn rest) :
    scanConv (w := w) .hex (printNat 16 v.toNat ++ rest) = .ok (.int v) rest := by
  have hlt : v.toNat < 2 ^ w := lt_of_lt_of_le v.isLt (Nat.pow_le_pow_right (by decide) hw)
  rw [scanConv, scanNumber_hex _ hrest, strtoul_of_lt hlt]
  have : (BitVec.ofNat w v.toNat).setWidth 32 = v := by
    apply BitVec.eq_of_toNat_eq
    rw [BitVec.toNat_setWidth, BitVec.toNat_ofNat, Nat.mod_eq_of_lt hlt, Nat.mod_eq_of_lt v.isLt]
  rw [this]

/-! ## Strings -/

theorem scanText_run {size : Nat} {p : Char → Bool} {run rest : List Char} (hne : run ≠ [])
    (hrun : ∀ c ∈ run, p c = true) (hrest : Stops p rest) (hlen : run.length < size) :
    scanText (w := w) size p (run ++ rest) = .ok (.text run) rest := by
  simp only [scanText, takeWhile_run hrun hrest, dropWhile_run hrun hrest]
  rw [if_neg hne, if_neg (by omega)]

/-- A run that is too long is written behind the end of its buffer. -/
theorem scanText_overflow {size : Nat} {p : Char → Bool} {run rest : List Char} (hne : run ≠ [])
    (hrun : ∀ c ∈ run, p c = true) (hrest : Stops p rest) (hlen : size ≤ run.length) :
    scanText (w := w) size p (run ++ rest) = .overflow := by
  simp only [scanText, takeWhile_run hrun hrest]
  rw [if_neg hne, if_pos hlen]

/-- %s reads a word up to the white space behind it. -/
theorem scanConv_word {size : Nat} {run rest : List Char} (hne : run ≠ [])
    (hrun : ∀ c ∈ run, isSpace c = false) (hrest : Stops (!isSpace ·) rest)
    (hlen : run.length < size) :
    scanConv (w := w) (.word size) (run ++ rest) = .ok (.text run) rest := by
  cases run with
  | nil => exact absurd rfl hne
  | cons c run =>
    rw [scanConv, List.cons_append, skipSpace_cons (hrun c (by simp)), ← List.cons_append]
    exact scanText_run hne (fun d hd => by simp [hrun d hd]) hrest hlen

theorem scanConv_word_overflow {size : Nat} {run rest : List Char} (hne : run ≠ [])
    (hrun : ∀ c ∈ run, isSpace c = false) (hrest : Stops (!isSpace ·) rest)
    (hlen : size ≤ run.length) : scanConv (w := w) (.word size) (run ++ rest) = .overflow := by
  cases run with
  | nil => exact absurd rfl hne
  | cons c run =>
    rw [scanConv, List.cons_append, skipSpace_cons (hrun c (by simp)), ← List.cons_append]
    exact scanText_overflow hne (fun d hd => by simp [hrun d hd]) hrest hlen

/-- %[^…] reads up to the first stop character. -/
theorem scanConv_except {stop : List Char} {size : Nat} {run rest : List Char} (hne : run ≠ [])
    (hrun : ∀ c ∈ run, c ∉ stop) (hrest : Stops (· ∉ stop) rest) (hlen : run.length < size) :
    scanConv (w := w) (.except stop size) (run ++ rest) = .ok (.text run) rest := by
  cases run with
  | nil => exact absurd rfl hne
  | cons c run =>
    rw [List.cons_append, scanConv, ← List.cons_append]
    exact scanText_run hne (fun d hd => by simp [hrun d hd]) (by simpa using hrest) hlen

theorem scanConv_except_overflow {stop : List Char} {size : Nat} {run rest : List Char}
    (hne : run ≠ []) (hrun : ∀ c ∈ run, c ∉ stop) (hrest : Stops (· ∉ stop) rest)
    (hlen : size ≤ run.length) : scanConv (w := w) (.except stop size) (run ++ rest) = .overflow := by
  cases run with
  | nil => exact absurd rfl hne
  | cons c run =>
    rw [List.cons_append, scanConv, ← List.cons_append]
    exact scanText_overflow hne (fun d hd => by simp [hrun d hd]) (by simpa using hrest) hlen

/-! ## Formats -/

@[simp] theorem sscanf_nil (s : List Char) :
    sscanf w [] s = some { values := [], eof := false } := rfl

@[simp] theorem sscanf_space (fmt : List Directive) (s : List Char) :
    sscanf w (.space :: fmt) s = sscanf w fmt (skipSpace s) := rfl

@[simp] theorem sscanf_lit (c : Char) (fmt : List Directive) (s : List Char) :
    sscanf w (.lit c :: fmt) (c :: s) = sscanf w fmt s := by simp [sscanf]

theorem sscanf_lit_ne {c d : Char} (h : c ≠ d) (fmt : List Directive) (s : List Char) :
    sscanf w (.lit c :: fmt) (d :: s) = some { values := [], eof := false } := by
  simp [sscanf, h]

theorem sscanf_conv {k : Conv} {fmt : List Directive} {s rest : List Char} {v : ScanArg w}
    (h : scanConv k s = .ok v rest) :
    sscanf w (.conv k :: fmt) s
      = (sscanf w fmt rest).map fun r => { r with values := v :: r.values } := by
  rw [sscanf, h]

theorem sscanf_overflow {k : Conv} {s : List Char} (h : scanConv (w := w) k s = .overflow)
    (fmt : List Directive) : sscanf w (.conv k :: fmt) s = none := by
  rw [sscanf, h]

/-! ## What was scanned -/

/-- A run that was read satisfies its condition, fits its buffer and is the
front of the input. -/
theorem scanText_ok {size : Nat} {p : Char → Bool} {s t rest : List Char}
    (h : scanText (w := w) size p s = .ok (.text t) rest) :
    t ≠ [] ∧ (∀ c ∈ t, p c = true) ∧ t.length < size ∧ t <+: s := by
  simp only [scanText] at h
  split at h
  · cases h
  · rename_i hne
    split at h
    · cases h
    · rename_i hlen
      obtain rfl := ScanArg.text.inj (ScanStep.ok.inj h).1
      exact ⟨hne, fun c hc => List.mem_takeWhile_imp hc, not_le.mp hlen, List.takeWhile_prefix p⟩

theorem scanConv_word_ok {size : Nat} {s t rest : List Char}
    (h : scanConv (w := w) (.word size) s = .ok (.text t) rest) :
    t ≠ [] ∧ (∀ c ∈ t, isSpace c = false) ∧ t.length < size := by
  rw [scanConv] at h
  split at h
  · cases h
  · obtain ⟨hne, hrun, hlen, -⟩ := scanText_ok h
    exact ⟨hne, fun c hc => by simpa using hrun c hc, hlen⟩

theorem scanConv_except_ok {stop : List Char} {size : Nat} {s t rest : List Char}
    (h : scanConv (w := w) (.except stop size) s = .ok (.text t) rest) :
    t ≠ [] ∧ (∀ c ∈ t, c ∉ stop) ∧ t.length < size ∧ t <+: s := by
  cases s with
  | nil => cases h
  | cons c s =>
    rw [scanConv] at h
    obtain ⟨hne, hrun, hlen, hpre⟩ := scanText_ok h
    exact ⟨hne, fun d hd => by simpa using hrun d hd, hlen, hpre⟩

/-- What is read behind white space does not start with any. -/
theorem stops_of_skipped {s t : List Char} (h : t <+: skipSpace s) : Stops isSpace t := by
  obtain ⟨u, hu⟩ := h
  cases t with
  | nil => simp
  | cons c t =>
    have hhead := List.head?_dropWhile_not isSpace s
    rw [show s.dropWhile isSpace = c :: (t ++ u) from hu.symm] at hhead
    simpa using hhead

/-- The first value comes from the first conversion. -/
theorem sscanf_conv_values {k : Conv} {fmt : List Directive} {s : List Char} {r : ScanResult w}
    {v : ScanArg w} {vs : List (ScanArg w)} (h : sscanf w (.conv k :: fmt) s = some r)
    (hv : r.values = v :: vs) :
    ∃ rest r', scanConv k s = .ok v rest ∧ sscanf w fmt rest = some r' ∧ r'.values = vs := by
  rw [sscanf] at h
  split at h
  · rename_i v' rest hok
    obtain ⟨r', hr', rfl⟩ := Option.map_eq_some_iff.mp h
    obtain ⟨rfl, rfl⟩ := List.cons.inj hv
    exact ⟨rest, r', hok, hr', rfl⟩
  · obtain rfl := Option.some.inj h
    cases hv
  · obtain rfl := Option.some.inj h
    cases hv
  · cases h

/-- A value behind a literal character was read behind that character. -/
theorem sscanf_lit_values {c : Char} {fmt : List Directive} {s : List Char} {r : ScanResult w}
    {v : ScanArg w} {vs : List (ScanArg w)} (h : sscanf w (.lit c :: fmt) s = some r)
    (hv : r.values = v :: vs) : ∃ rest, s = c :: rest ∧ sscanf w fmt rest = some r := by
  cases s with
  | nil =>
    obtain rfl := Option.some.inj h
    cases hv
  | cons d s =>
    rw [sscanf] at h
    split at h
    · rename_i hc
      exact ⟨s, by rw [hc], h⟩
    · obtain rfl := Option.some.inj h
      cases hv

/-! ## Input that fits every buffer -/

def Conv.bufferSize : Conv → Option Nat
  | .word size => some size
  | .except _ size => some size
  | _ => none

/-- A step that succeeds leaves at most `limit` characters. -/
def ScanStep.Leaves (limit : Nat) (r : ScanStep w) : Prop :=
  ∀ v rest, r = .ok v rest → rest.length ≤ limit

theorem leaves_ok {limit : Nat} (v : ScanArg w) {rest : List Char} (h : rest.length ≤ limit) :
    (ScanStep.ok v rest).Leaves limit := by
  intro v' rest' hr
  obtain ⟨-, rfl⟩ : v = v' ∧ rest = rest' := by simpa using hr
  exact h

theorem skipSpace_length (s : List Char) : (skipSpace s).length ≤ s.length :=
  (List.dropWhile_sublist _).length_le

theorem scanSign_length (s : List Char) : (scanSign s).2.length ≤ s.length := by
  unfold scanSign
  split <;> simp

theorem scanHexMark_length (s : List Char) : (scanHexMark s).length ≤ s.length := by
  unfold scanHexMark
  split
  · split
    · simp only [List.length_cons]; omega
    · exact le_refl _
  · exact le_refl _

theorem scanNumber_leaves (base : Nat) {mark : List Char → List Char}
    (hmark : ∀ t, (mark t).length ≤ t.length) (make : Bool → Nat → ScanArg w) (s : List Char) :
    scanNumber base mark make s ≠ .overflow ∧ (scanNumber base mark make s).Leaves s.length := by
  have hskip := skipSpace_length s
  unfold scanNumber scanDigits
  split
  · exact ⟨by simp, by simp [ScanStep.Leaves]⟩
  · rename_i c t ht
    rw [ht] at hskip
    simp only
    split
    · exact ⟨by simp, by simp [ScanStep.Leaves]⟩
    · refine ⟨by simp, leaves_ok _ ?_⟩
      exact (List.dropWhile_sublist _).length_le.trans
        ((hmark _).trans ((scanSign_length _).trans hskip))

theorem scanText_leaves (size : Nat) (p : Char → Bool) (s : List Char) :
    (scanText (w := w) size p s).Leaves s.length := by
  simp only [scanText]
  split
  · simp [ScanStep.Leaves]
  · split
    · simp [ScanStep.Leaves]
    · exact leaves_ok _ (List.dropWhile_sublist _).length_le

theorem scanText_in_buffer {size : Nat} {p : Char → Bool} {s : List Char}
    (h : (s.takeWhile p).length < size) : scanText (w := w) size p s ≠ .overflow := by
  simp only [scanText]
  split
  · simp
  · rw [if_neg (by omega)]
    simp

/-- A conversion consumes a part of its input. -/
theorem scanConv_leaves (k : Conv) (s : List Char) : (scanConv (w := w) k s).Leaves s.length := by
  cases k with
  | dec => rw [scanConv]; exact (scanNumber_leaves _ (fun _ => le_refl _) _ _).2
  | hex => rw [scanConv]; exact (scanNumber_leaves _ scanHexMark_length _ _).2
  | hexLong => rw [scanConv]; exact (scanNumber_leaves _ scanHexMark_length _ _).2
  | word size =>
    have hskip := skipSpace_length s
    rw [scanConv]
    split
    · simp [ScanStep.Leaves]
    · rename_i c t ht
      rw [ht] at hskip
      exact fun v rest hr => (scanText_leaves _ _ _ v rest hr).trans hskip
  | char =>
    cases s with
    | nil => simp [scanConv, ScanStep.Leaves]
    | cons c s => exact leaves_ok _ (by simp)
  | except stop size =>
    cases s with
    | nil => simp [scanConv, ScanStep.Leaves]
    | cons c s => exact scanText_leaves _ _ _

/-- %s stays in its buffer if the word that comes next does. -/
theorem scanConv_word_in_buffer {size : Nat} {s : List Char}
    (h : ((skipSpace s).takeWhile (!isSpace ·)).length < size) :
    scanConv (w := w) (.word size) s ≠ .overflow := by
  rw [scanConv]
  split
  · simp
  · rename_i c t ht
    rw [ht] at h
    exact scanText_in_buffer h

/-- Every conversion stays in a buffer that is longer than the input. -/
theorem scanConv_in_buffer (k : Conv) {s : List Char} (h : ∀ n ∈ k.bufferSize, s.length < n) :
    scanConv (w := w) k s ≠ .overflow := by
  have hrun : ∀ (p : Char → Bool) (t : List Char), (t.takeWhile p).length ≤ t.length :=
    fun p t => (List.takeWhile_sublist _).length_le
  cases k with
  | dec => rw [scanConv]; exact (scanNumber_leaves _ (fun _ => le_refl _) _ _).1
  | hex => rw [scanConv]; exact (scanNumber_leaves _ scanHexMark_length _ _).1
  | hexLong => rw [scanConv]; exact (scanNumber_leaves _ scanHexMark_length _ _).1
  | word size =>
    exact scanConv_word_in_buffer
      (lt_of_le_of_lt ((hrun _ _).trans (skipSpace_length s)) (h size rfl))
  | char => cases s <;> simp [scanConv]
  | except stop size =>
    cases s with
    | nil => simp [scanConv]
    | cons c s => exact scanText_in_buffer (lt_of_le_of_lt (hrun _ _) (h size rfl))

/-- A conversion that stays in its buffer, in front of a format that does. -/
theorem sscanf_conv_fits {k : Conv} {fmt : List Directive} {s : List Char}
    (hno : scanConv (w := w) k s ≠ .overflow)
    (hrest : ∀ v rest, scanConv (w := w) k s = .ok v rest → ∃ r, sscanf w fmt rest = some r) :
    ∃ r, sscanf w (.conv k :: fmt) s = some r := by
  simp only [sscanf]
  split
  · rename_i v rest hok
    obtain ⟨r, hr⟩ := hrest v rest hok
    exact ⟨_, by rw [hr]; rfl⟩
  · exact ⟨_, rfl⟩
  · exact ⟨_, rfl⟩
  · rename_i hov
    exact absurd hov hno

/-- **A scan of a text shorter than every buffer of the format stays in
bounds.** -/
theorem sscanf_fits {fmt : List Directive} {s : List Char}
    (h : ∀ k, .conv k ∈ fmt → ∀ n ∈ k.bufferSize, s.length < n) :
    ∃ r, sscanf w fmt s = some r := by
  induction fmt generalizing s with
  | nil => exact ⟨_, rfl⟩
  | cons d fmt ih =>
    have hfmt : ∀ t : List Char, t.length ≤ s.length → ∃ r, sscanf w fmt t = some r :=
      fun t ht => ih fun k hk n hn => lt_of_le_of_lt ht (h k (by simp [hk]) n hn)
    cases d with
    | space => exact hfmt _ (List.dropWhile_sublist _).length_le
    | lit c =>
      cases s with
      | nil => exact ⟨_, rfl⟩
      | cons e s =>
        simp only [sscanf]
        split
        · exact hfmt _ (by simp)
        · exact ⟨_, rfl⟩
    | conv k =>
      exact sscanf_conv_fits (scanConv_in_buffer k (h k (by simp)))
        fun v rest hok => hfmt rest (scanConv_leaves k s v rest hok)

/-! ## Lines -/

/-- A line as `fgets` with room for `limit` characters returns it. -/
def IsLine (limit : Nat) (line : List Char) : Prop :=
  ∃ body, line = body ++ ['\n'] ∧ '\n' ∉ body ∧ line.length ≤ limit

theorem fgetsFrom_line {limit : Nat} (rest : List Char) :
    ∀ {body : List Char} {left : Nat} {acc : List Char}, '\n' ∉ body → body.length < left →
      fgetsFrom limit left acc (body ++ '\n' :: rest)
        = (acc ++ body ++ ['\n']) :: fgetsFrom limit limit [] rest
  | [], left, acc, _, _ => by simp [fgetsFrom]
  | c :: body, left, acc, hno, hlen => by
      have hc : c ≠ '\n' := fun e => hno (by simp [e])
      have hlen' : body.length + 1 < left := by simpa using hlen
      rw [List.cons_append, fgetsFrom, if_neg (by simp only [hc, false_or]; omega),
        fgetsFrom_line rest (fun h => hno (by simp [h])) (by omega)]
      simp

/-- **Lines that fit the buffer are read back as they are.** -/
theorem fgetsLines_flatten {size : Nat} {lines : List (List Char)}
    (h : ∀ line ∈ lines, IsLine (size - 1) line) : fgetsLines size lines.flatten = lines := by
  unfold fgetsLines
  induction lines with
  | nil => simp [fgetsFrom]
  | cons line lines ih =>
    obtain ⟨body, rfl, hno, hlen⟩ := h line (by simp)
    have hlen' : body.length < size - 1 := by simp at hlen; omega
    rw [List.flatten_cons, List.append_assoc, List.singleton_append,
      fgetsFrom_line _ hno hlen', ih fun l hl => h l (by simp [hl])]
    rfl

/-- What `fgets` returns with the buffer full or a newline at the end. -/
def IsChunk (limit : Nat) (line : List Char) : Prop :=
  IsLine limit line ∨ (line.length = limit ∧ '\n' ∉ line)

/-- What `fgets` returns at the end of a file without a newline. -/
def IsPart (limit : Nat) (line : List Char) : Prop :=
  line ≠ [] ∧ line.length < limit ∧ '\n' ∉ line

/-- The results of successive calls of `fgets`. -/
def IsChunks (limit : Nat) : List (List Char) → Prop
  | [] => True
  | line :: lines => (IsChunk limit line ∨ (IsPart limit line ∧ lines = [])) ∧ IsChunks limit lines

theorem fgetsFrom_full {limit : Nat} (rest : List Char) :
    ∀ {body : List Char} {left : Nat} {acc : List Char}, '\n' ∉ body → body.length = left →
      body ≠ [] → fgetsFrom limit left acc (body ++ rest)
        = (acc ++ body) :: fgetsFrom limit limit [] rest
  | [c], left, acc, hno, hlen, _ => by
      have hleft : left ≤ 1 := le_of_eq hlen.symm
      rw [List.cons_append, fgetsFrom, if_pos (Or.inr hleft), List.nil_append]
  | c :: d :: body, left, acc, hno, hlen, _ => by
      have hc : c ≠ '\n' := fun e => hno (by simp [e])
      have hlen' : (d :: body).length = left - 1 := by rw [← hlen]; rfl
      have hmany : ¬ left ≤ 1 := by rw [← hlen]; simp
      rw [List.cons_append, fgetsFrom, if_neg (not_or.mpr ⟨hc, hmany⟩),
        fgetsFrom_full rest (fun h => hno (List.mem_cons_of_mem _ h)) hlen' (by simp)]
      simp

theorem fgetsFrom_part {limit : Nat} :
    ∀ {body : List Char} {left : Nat} {acc : List Char}, '\n' ∉ body → body.length < left →
      acc ++ body ≠ [] → fgetsFrom limit left acc body = [acc ++ body]
  | [], left, acc, _, _, hne => by
      rw [List.append_nil] at hne ⊢
      rw [fgetsFrom, if_neg hne]
  | c :: body, left, acc, hno, hlen, _ => by
      have hc : c ≠ '\n' := fun e => hno (by simp [e])
      have hlen' : body.length + 1 < left := by simpa using hlen
      rw [fgetsFrom, if_neg (by simp only [hc, false_or]; omega),
        fgetsFrom_part (fun h => hno (by simp [h])) (by omega) (by simp)]
      simp

/-- **What `fgets` returned is read back as it is.** -/
theorem fgetsLines_chunks {size : Nat} (hsize : 1 < size) {lines : List (List Char)}
    (h : IsChunks (size - 1) lines) : fgetsLines size lines.flatten = lines := by
  unfold fgetsLines
  induction lines with
  | nil => simp [fgetsFrom]
  | cons line lines ih =>
    obtain ⟨hline, hlines⟩ := h
    rw [List.flatten_cons]
    rcases hline with (⟨body, rfl, hno, hlen⟩ | ⟨hlen, hno⟩) | ⟨⟨hne, hlen, hno⟩, rfl⟩
    · have hlen' : body.length < size - 1 := by simp at hlen; omega
      rw [List.append_assoc, List.singleton_append, fgetsFrom_line _ hno hlen', ih hlines]
      rfl
    · have hne : line ≠ [] := by
        rintro rfl
        rw [List.length_nil] at hlen
        omega
      rw [fgetsFrom_full _ hno hlen hne, ih hlines]
      rfl
    · rw [List.flatten_nil, List.append_nil]
      exact fgetsFrom_part hno hlen hne

theorem fgetsFrom_isChunks {limit : Nat} (hlimit : 0 < limit) (text : List Char) :
    ∀ {left : Nat} {acc : List Char}, '\n' ∉ acc → acc.length + left = limit → 0 < left →
      IsChunks limit (fgetsFrom limit left acc text) := by
  induction text with
  | nil =>
    intro left acc hno hlen hpos
    rw [fgetsFrom]
    split
    · trivial
    next hne => exact ⟨Or.inr ⟨⟨hne, by omega, hno⟩, rfl⟩, trivial⟩
  | cons c text ih =>
    intro left acc hno hlen hpos
    rw [fgetsFrom]
    split
    next hend =>
      refine ⟨Or.inl ?_, ih (by simp) (by simp) hlimit⟩
      by_cases hc : c = '\n'
      · refine Or.inl ⟨acc, by rw [hc], hno, ?_⟩
        rw [List.length_append, List.length_singleton]
        omega
      · have hleft : left ≤ 1 := hend.resolve_left hc
        refine Or.inr ⟨?_, ?_⟩
        · rw [List.length_append, List.length_singleton]
          omega
        · simp [hno, Ne.symm hc]
    next hgo =>
      obtain ⟨hc, hleft⟩ := not_or.mp hgo
      exact ih (by simp [hno, Ne.symm hc]) (by simp; omega) (by omega)

theorem fgetsLines_isChunks {size : Nat} (hsize : 1 < size) (text : List Char) :
    IsChunks (size - 1) (fgetsLines size text) :=
  fgetsFrom_isChunks (by omega) text (by simp) (by simp) (by omega)

/-- Some of the chunks of a file are those of another one. -/
theorem IsChunks.sublist {limit : Nat} {lines lines' : List (List Char)}
    (hsub : lines'.Sublist lines) (h : IsChunks limit lines) : IsChunks limit lines' := by
  induction hsub with
  | slnil => exact h
  | cons line _ ih => exact ih h.2
  | cons_cons line hsub ih =>
    refine ⟨?_, ih h.2⟩
    rcases h.1 with hchunk | ⟨hpart, rfl⟩
    · exact Or.inl hchunk
    · exact Or.inr ⟨hpart, List.sublist_nil.mp hsub⟩

/-- Chunks may be replaced by complete ones. -/
theorem IsChunks.map {limit : Nat} {lines : List (List Char)} {f : List Char → List Char}
    (hf : ∀ line ∈ lines, f line = line ∨ IsChunk limit (f line)) (h : IsChunks limit lines) :
    IsChunks limit (lines.map f) := by
  induction lines with
  | nil => trivial
  | cons line lines ih =>
    refine ⟨?_, ih (fun l hl => hf l (List.mem_cons_of_mem _ hl)) h.2⟩
    rcases hf line (List.mem_cons_self ..) with hsame | hchunk
    · rw [hsame]
      rcases h.1 with hchunk | ⟨hpart, rfl⟩
      · exact Or.inl hchunk
      · exact Or.inr ⟨hpart, rfl⟩
    · exact Or.inl hchunk

/-! ## Buffers -/

theorem bufferText_of_not_mem {buf : List Char} (h : '\x00' ∉ buf) : bufferText buf = buf :=
  List.takeWhile_eq_self_iff.mpr fun c hc => by
    rw [decide_eq_true_eq]
    rintro rfl
    exact h hc

/-- A string that is as long as its buffer has no NUL. -/
theorem bufferText_eq_self_of_length {buf : List Char} (h : buf.length ≤ (bufferText buf).length) :
    '\x00' ∉ buf := by
  have hself : bufferText buf = buf :=
    (List.takeWhile_prefix _).eq_of_length (Nat.le_antisymm (List.takeWhile_prefix _).length_le h)
  intro hmem
  have hnul := List.takeWhile_eq_self_iff.mp hself _ hmem
  simp at hnul

/-! ## Formats -/

theorem printFormat_length {s t : List Char} (h : printFormat s = some t) :
    t.length ≤ s.length := by
  induction s using printFormat.induct generalizing t with
  | case1 s ih =>
    rw [printFormat] at h
    obtain ⟨u, hu, rfl⟩ := Option.map_eq_some_iff.mp h
    have := ih hu
    simp only [List.length_cons]
    omega
  | case2 s hs => simp [printFormat] at h
  | case3 c s h₁ h₂ ih =>
    rw [printFormat] at h
    · obtain ⟨u, hu, rfl⟩ := Option.map_eq_some_iff.mp h
      have := ih hu
      simp only [List.length_cons]
      omega
    · exact h₁
    · exact h₂
  | case4 =>
    obtain rfl := Option.some.inj h
    exact Nat.le_refl _

/-- A format prints itself if and only if it has no percent sign. -/
theorem printFormat_eq_self (s : List Char) : printFormat s = some s ↔ '%' ∉ s := by
  induction s using printFormat.induct with
  | case1 s ih =>
    simp only [List.mem_cons, true_or, not_true_eq_false, iff_false]
    intro h
    rw [printFormat] at h
    obtain ⟨u, hu, hcons⟩ := Option.map_eq_some_iff.mp h
    have hlen := printFormat_length hu
    have := congrArg List.length hcons
    simp only [List.length_cons] at this
    omega
  | case2 s hs => simp [printFormat]
  | case3 c s h₁ h₂ ih =>
    have hc : '%' ≠ c := fun hc => h₂ hc.symm
    have hstep : printFormat (c :: s) = (printFormat s).map (c :: ·) := by
      rw [printFormat]
      · exact h₁
      · exact h₂
    simp [hstep, hc, ih]
  | case4 => simp [printFormat]

end SpRtrace.Lib
