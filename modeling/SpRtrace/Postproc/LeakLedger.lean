/-
SpRtrace.Postproc.LeakLedger — what a program still owes, as an account of
its allocations and releases.

A ledger has an entry for each pair that was allocated and not released:
the allocation, and for a reference counted resource the number of
references. It is the state of the program, one event at a time, where the
reference semantics of `LeakSpec` looks back at the whole history of a
pair. The two agree (`keptCalls_ledger`) on histories where an allocation
finds no entry of its pair, unless the resource counts references
(`Ledger.Takes`).

The tracing modules are verified against the ledger alone: an event of a
module is one step of it, and a run is the fold of the steps.
-/
import SpRtrace.Postproc.LeakSpec

namespace SpRtrace.Postproc

section LeakLedger

variable {κ ε ι : Type}

/-- The allocation that is owed for each pair, with its references. -/
abbrev Ledger (κ ι : Type) := ι → Option (κ × Nat)

/-- Nothing is owed. -/
def Ledger.empty : Ledger κ ι := fun _ => none

/-- The entry of a pair behind an allocation. -/
def Ledger.allocated (counted : Bool) (c : κ) : Option (κ × Nat) → κ × Nat
  | none => (c, 1)
  | some (a, n) => if counted then (a, n + 1) else (c, 1)

/-- The entry of a pair behind a release. -/
def Ledger.released (counted : Bool) : Option (κ × Nat) → Option (κ × Nat)
  | none => none
  | some (a, n) => if counted ∧ n ≠ 1 then some (a, n - 1) else none

variable [DecidableEq ι] (kind : κ → CallKind) (key : κ → ι) (counted : ι → Bool)

/-- One event. -/
def Ledger.step (l : Ledger κ ι) (c : κ) : Ledger κ ι :=
  match kind c with
  | .alloc => Function.update l (key c) (some (Ledger.allocated (counted (key c)) c (l (key c))))
  | .free => Function.update l (key c) (Ledger.released (counted (key c)) (l (key c)))
  | .other => l

def Ledger.run (l : Ledger κ ι) (calls : List κ) : Ledger κ ι := calls.foldl (Ledger.step kind key counted) l

/-- The ledger can take the event: what is allocated has no entry, or is
reference counted. -/
def Ledger.Takes (l : Ledger κ ι) (c : κ) : Prop :=
  kind c ≠ .other ∧ (kind c = .alloc → counted (key c) = false → l (key c) = none)

/-- The ledger can take the events, one after the other. -/
def Ledger.TakesAll (l : Ledger κ ι) : List κ → Prop
  | [] => True
  | c :: calls => Ledger.Takes kind key counted l c ∧ TakesAll (Ledger.step kind key counted l c) calls

variable {kind key counted} {l : Ledger κ ι}

@[simp] theorem Ledger.run_nil : Ledger.run kind key counted l [] = l := rfl

@[simp] theorem Ledger.run_cons (c : κ) (calls : List κ) : Ledger.run kind key counted l (c :: calls)
    = Ledger.run kind key counted (Ledger.step kind key counted l c) calls := rfl

theorem Ledger.run_append (calls more : List κ) : Ledger.run kind key counted l (calls ++ more)
    = Ledger.run kind key counted (Ledger.run kind key counted l calls) more :=
  List.foldl_append ..

theorem Ledger.takesAll_append {calls more : List κ} :
    Ledger.TakesAll kind key counted l (calls ++ more) ↔ Ledger.TakesAll kind key counted l calls ∧
      Ledger.TakesAll kind key counted (Ledger.run kind key counted l calls) more := by
  induction calls generalizing l with
  | nil => simp [Ledger.TakesAll]
  | cons c calls ih => simp [Ledger.TakesAll, ih, and_assoc]

/-! ## One event -/

theorem Ledger.step_alloc {c : κ} (h : kind c = .alloc) : Ledger.step kind key counted l c
    = Function.update l (key c) (some (Ledger.allocated (counted (key c)) c (l (key c)))) := by
  simp [Ledger.step, h]

theorem Ledger.step_free {c : κ} (h : kind c = .free) : Ledger.step kind key counted l c
    = Function.update l (key c) (Ledger.released (counted (key c)) (l (key c))) := by
  simp [Ledger.step, h]

/-- A new entry. -/
theorem Ledger.step_alloc_new {c : κ} (h : kind c = .alloc) (hnew : l (key c) = none) :
    Ledger.step kind key counted l c = Function.update l (key c) (some (c, 1)) := by
  rw [Ledger.step_alloc h, hnew]
  rfl

/-- The entry of an uncounted pair goes. -/
theorem Ledger.step_free_uncounted {c : κ} (h : kind c = .free) (hcount : counted (key c) = false) :
    Ledger.step kind key counted l c = Function.update l (key c) none := by
  rw [Ledger.step_free h, hcount]
  cases hentry : l (key c) <;> simp [Ledger.released]

theorem Ledger.step_other_key {c : κ} {k : ι} (h : key c ≠ k) :
    Ledger.step kind key counted l c k = l k := by
  unfold Ledger.step
  cases kind c <;> simp [Function.update_of_ne (Ne.symm h)]

/-- The ledger of the events with other names. -/
theorem Ledger.run_map (event : κ → ε) {kind : ε → CallKind} {key : ε → ι} (calls : List κ) (k : ι) :
    Ledger.run kind key counted Ledger.empty (calls.map event) k
      = (Ledger.run (kind ∘ event) (key ∘ event) counted Ledger.empty calls k).map fun e => (event e.1, e.2) := by
  induction calls using List.reverseRecOn generalizing k with
  | nil => rfl
  | append_singleton calls c ih =>
    rw [List.map_append, List.map_singleton, Ledger.run_append, Ledger.run_append]
    simp only [Ledger.run_cons, Ledger.run_nil]
    by_cases hk : key (event c) = k
    · subst hk
      unfold Ledger.step
      rw [Function.comp_apply, Function.comp_apply]
      cases kind (event c) with
      | other => simp [ih]
      | alloc =>
        cases hentry : Ledger.run (kind ∘ event) (key ∘ event) counted Ledger.empty calls (key (event c)) <;>
          simp [ih, hentry, Ledger.allocated]
        split <;> rfl
      | free =>
        cases hentry : Ledger.run (kind ∘ event) (key ∘ event) counted Ledger.empty calls (key (event c)) <;>
          simp [ih, hentry, Ledger.released]
    · have hk' : (key ∘ event) c ≠ k := hk
      rw [Ledger.step_other_key hk, Ledger.step_other_key hk', ih]

theorem Ledger.takesAll_of_map (event : κ → ε) {kind : ε → CallKind} {key : ε → ι} {calls : List κ}
    (h : Ledger.TakesAll kind key counted Ledger.empty (calls.map event)) :
    Ledger.TakesAll (kind ∘ event) (key ∘ event) counted Ledger.empty calls := by
  induction calls using List.reverseRecOn with
  | nil => trivial
  | append_singleton calls c ih =>
    rw [List.map_append, Ledger.takesAll_append] at h
    obtain ⟨hcalls, ⟨hkind, hnew⟩, -⟩ := h
    refine Ledger.takesAll_append.mpr ⟨ih hcalls, ⟨hkind, fun hk hct => ?_⟩, trivial⟩
    have hnone := hnew hk hct
    rw [Ledger.run_map] at hnone
    exact Option.map_eq_none_iff.mp hnone

/-! ## The ledger and the reference semantics -/

/-- The history of a pair and its entry say the same. -/
structure KeyState.Owes (kind : κ → CallKind) (counted : Bool) (calls : List κ) (s : KeyState κ)
    (entry : Option (κ × Nat)) : Prop where
  live : s.live = (entry.map Prod.fst).toList
  refs : counted = true → ∀ a n, entry = some (a, n) → s.refs = n ∧ 1 ≤ n
  dropped : ∀ c, c ∈ s.dropped ↔ c ∈ calls ∧ entry.map Prod.fst ≠ some c

/-- An allocation of the pair. -/
theorem KeyState.Owes.alloc {ct : Bool} {calls : List κ} {s : KeyState κ} {entry : Option (κ × Nat)} {c : κ}
    (h : s.Owes kind ct calls entry) (hnew : c ∉ calls) (hk : kind c = .alloc)
    (htakes : ct = false → entry = none) (hmem : ∀ e, entry = some e → e.1 ∈ calls) :
    (keyStep ct kind s c).Owes kind ct (calls ++ [c]) (some (Ledger.allocated ct c entry)) := by
  obtain ⟨hlive, hrefs, hdropped⟩ := h
  cases entry with
  | none =>
    have hlive : s.live = [] := hlive
    cases ct <;> simp only [keyStep, uncountedStep, countedStep, hk, hlive, Bool.false_eq_true, if_false,
      if_true, Ledger.allocated] <;> constructor <;> grind
  | some e =>
    obtain ⟨a, n⟩ := e
    obtain rfl : ct = true := by cases ct <;> simp_all
    have hlive : s.live = [a] := hlive
    obtain ⟨hrefs, hpos⟩ := hrefs rfl a n rfl
    have hmem := hmem (a, n) rfl
    simp only [keyStep, countedStep, hk, hlive, if_true, Ledger.allocated]
    constructor <;> grind

/-- A release of the pair. -/
theorem KeyState.Owes.free {ct : Bool} {calls : List κ} {s : KeyState κ} {entry : Option (κ × Nat)} {c : κ}
    (h : s.Owes kind ct calls entry) (hnew : c ∉ calls) (hk : kind c = .free)
    (hmem : ∀ e, entry = some e → e.1 ∈ calls) :
    (keyStep ct kind s c).Owes kind ct (calls ++ [c]) (Ledger.released ct entry) := by
  obtain ⟨hlive, hrefs, hdropped⟩ := h
  cases entry with
  | none =>
    have hlive : s.live = [] := hlive
    cases ct <;> simp only [keyStep, uncountedStep, countedStep, hk, hlive, Bool.false_eq_true, if_false,
      if_true, Ledger.released] <;> constructor <;> grind
  | some e =>
    obtain ⟨a, n⟩ := e
    have hlive : s.live = [a] := hlive
    have hmem := hmem (a, n) rfl
    cases ct with
    | false =>
      simp only [keyStep, uncountedStep, hk, hlive, Bool.false_eq_true, if_false, Ledger.released, false_and]
      constructor <;> grind
    | true =>
      obtain ⟨hrefs, hpos⟩ := hrefs rfl a n rfl
      by_cases hn : n = 1
      · simp only [keyStep, countedStep, hk, hlive, hrefs, hn, if_true, Ledger.released, ne_eq, not_true,
          and_false, if_false]
        constructor <;> grind
      · simp only [keyStep, countedStep, hk, hlive, hrefs, hn, if_true, Ledger.released, ne_eq, not_false_iff,
          and_true, if_false]
        constructor <;> grind

/-- An entry is an allocation that was made. -/
theorem Ledger.run_mem (calls : List κ) (k : ι) {e : κ × Nat}
    (he : Ledger.run kind key counted Ledger.empty calls k = some e) :
    e.1 ∈ calls ∧ key e.1 = k ∧ kind e.1 = .alloc := by
  induction calls using List.reverseRecOn generalizing e with
  | nil => cases he
  | append_singleton calls c ih =>
    rw [Ledger.run_append, Ledger.run_cons, Ledger.run_nil] at he
    by_cases hk : key c = k
    · subst hk
      cases hkind : kind c with
      | other =>
        simp only [Ledger.step, hkind] at he
        simp [ih he]
      | alloc =>
        rw [Ledger.step_alloc hkind, Function.update_self] at he
        obtain rfl := Option.some.inj he
        cases hentry : Ledger.run kind key counted Ledger.empty calls (key c) with
        | none => simp [Ledger.allocated, hkind]
        | some e =>
          obtain ⟨a, n⟩ := e
          have ih := ih hentry
          cases hct : counted (key c) <;> simp [Ledger.allocated, ih, hkind]
      | free =>
        rw [Ledger.step_free hkind, Function.update_self] at he
        cases hentry : Ledger.run kind key counted Ledger.empty calls (key c) with
        | none => simp [hentry, Ledger.released] at he
        | some e' =>
          obtain ⟨a, n⟩ := e'
          have ih := ih hentry
          rw [hentry, Ledger.released] at he
          split at he
          · obtain rfl := Option.some.inj he
            simp [ih]
          · cases he
    · rw [Ledger.step_other_key hk] at he
      simp [ih he]

/-- **Every pair's history** says what the ledger says. -/
theorem keyRun_owes {calls : List κ} (hnd : calls.Nodup)
    (htakes : Ledger.TakesAll kind key counted Ledger.empty calls) (k : ι) :
    (keyRun kind key counted calls k).Owes kind (counted k) (calls.filter fun c => key c = k)
      (Ledger.run kind key counted Ledger.empty calls k) := by
  induction calls using List.reverseRecOn with
  | nil => exact ⟨rfl, nofun, by simp [KeyState.init]⟩
  | append_singleton calls c ih =>
    have hnd' := List.nodup_append.mp hnd
    obtain ⟨htakes, htake, -⟩ := Ledger.takesAll_append.mp htakes
    have ih := ih hnd'.1 htakes
    rw [Ledger.run_append, Ledger.run_cons, Ledger.run_nil]
    by_cases hk : key c = k
    · subst hk
      have hnew : c ∉ calls.filter fun d => key d = key c := fun hm =>
        hnd'.2.2 c (List.mem_of_mem_filter hm) c (by simp) rfl
      have hmem : ∀ e, Ledger.run kind key counted Ledger.empty calls (key c) = some e →
          e.1 ∈ calls.filter fun d => key d = key c := by
        intro e he
        have hrun := Ledger.run_mem calls (key c) he
        simpa using ⟨hrun.1, hrun.2.1⟩
      have hcalls : ((calls ++ [c]).filter fun d => key d = key c)
          = (calls.filter fun d => key d = key c) ++ [c] := by simp
      rw [keyRun_snoc_self, hcalls]
      cases hkind : kind c with
      | other => exact absurd hkind htake.1
      | alloc =>
        rw [Ledger.step_alloc hkind, Function.update_self]
        exact ih.alloc hnew hkind (htake.2 hkind) hmem
      | free =>
        rw [Ledger.step_free hkind, Function.update_self]
        exact ih.free hnew hkind hmem
    · rw [keyRun_snoc_ne kind key counted calls hk, Ledger.step_other_key hk]
      simpa [hk] using ih

/-- **What is kept is what is owed.** -/
theorem mem_keptCalls_ledger [DecidableEq κ] {calls : List κ} (hnd : calls.Nodup)
    (htakes : Ledger.TakesAll kind key counted Ledger.empty calls) (c : κ) :
    c ∈ keptCalls kind key counted calls ↔
      ∃ n, Ledger.run kind key counted Ledger.empty calls (key c) = some (c, n) := by
  have howes := keyRun_owes hnd htakes (key c)
  have hentry : ∀ e : Option (κ × Nat), e.map Prod.fst = some c ↔ ∃ n, e = some (c, n) := by
    rintro (_ | ⟨a, n⟩) <;> simp
  rw [← hentry, keptCalls, List.mem_filter, decide_eq_true_eq, howes.dropped]
  constructor
  · rintro ⟨hc, hkept⟩
    by_contra hne
    exact hkept ⟨by simpa using hc, hne⟩
  · intro heq
    obtain ⟨n, hn⟩ := (hentry _).mp heq
    exact ⟨(Ledger.run_mem calls (key c) hn).1, fun hdropped => hdropped.2 heq⟩

/-- **The events that are kept** are those of the ledger of the events, one
for each pair. -/
theorem keptCalls_ledger [DecidableEq κ] (event : κ → ε) {kind : ε → CallKind} {key : ε → ι}
    {calls : List κ} (hnd : calls.Nodup)
    (htakes : Ledger.TakesAll kind key counted Ledger.empty (calls.map event)) :
    ((keptCalls (kind ∘ event) (key ∘ event) counted calls).map (key ∘ event)).Nodup ∧
      ∀ e, e ∈ (keptCalls (kind ∘ event) (key ∘ event) counted calls).map event ↔
        ∃ n, Ledger.run kind key counted Ledger.empty (calls.map event) (key e) = some (e, n) := by
  have hmem := mem_keptCalls_ledger hnd (Ledger.takesAll_of_map event htakes)
  constructor
  · refine (hnd.filter _).map_on fun c hc d hd heq => ?_
    obtain ⟨n, hn⟩ := (hmem c).mp hc
    obtain ⟨m, hm⟩ := (hmem d).mp hd
    rw [heq, hm] at hn
    exact (congrArg Prod.fst (Option.some.inj hn)).symm
  · intro e
    simp only [List.mem_map, hmem, Ledger.run_map]
    constructor
    · rintro ⟨c, ⟨n, hn⟩, rfl⟩
      exact ⟨n, Option.map_eq_some_iff.mpr ⟨(c, n), hn, rfl⟩⟩
    · rintro ⟨n, hn⟩
      obtain ⟨⟨c, m⟩, hc, heq⟩ := Option.map_eq_some_iff.mp hn
      obtain ⟨rfl, rfl⟩ := Prod.mk.inj heq
      have hkey := (Ledger.run_mem calls _ hc).2.1
      exact ⟨c, ⟨m, hkey ▸ hc⟩, rfl⟩

/-! ## The pairs that are owed -/

/-- The ledger has entries for the pairs of `s`. -/
def Ledger.Holds (l : Ledger κ ι) (s : Finset ι) : Prop := ∀ k, (l k).isSome ↔ k ∈ s

omit [DecidableEq ι] in
theorem Ledger.empty_holds : (Ledger.empty : Ledger κ ι).Holds ∅ := fun k => by simp [Ledger.empty]

/-- The pairs that are owed behind an event, without reference counting. -/
def owedAfter (kind : κ → CallKind) (key : κ → ι) (s : Finset ι) (c : κ) : Finset ι :=
  match kind c with
  | .alloc => insert (key c) s
  | .free => s.erase (key c)
  | .other => s

/-- The event allocates nothing that is owed. -/
def IsNew (kind : κ → CallKind) (key : κ → ι) (s : Finset ι) (c : κ) : Prop :=
  kind c ≠ .other ∧ (kind c = .alloc → key c ∉ s)

/-- None of the events does. -/
def AllNew (kind : κ → CallKind) (key : κ → ι) (s : Finset ι) : List κ → Prop
  | [] => True
  | c :: calls => IsNew kind key s c ∧ AllNew kind key (owedAfter kind key s c) calls

theorem Ledger.Holds.step {s : Finset ι} {c : κ} (h : l.Holds s) (hcount : counted (key c) = false)
    (hnew : IsNew kind key s c) : Ledger.Takes kind key counted l c ∧
      (Ledger.step kind key counted l c).Holds (owedAfter kind key s c) := by
  have hnone : key c ∉ s → l (key c) = none := fun hk => by
    rw [← Option.not_isSome_iff_eq_none, h]
    exact hk
  refine ⟨⟨hnew.1, fun hk _ => hnone (hnew.2 hk)⟩, fun k => ?_⟩
  cases hk : kind c with
  | other => exact absurd hk hnew.1
  | alloc =>
    rw [Ledger.step_alloc_new hk (hnone (hnew.2 hk)), Function.update_apply]
    have hkeep := h k
    by_cases heq : k = key c <;> simp [owedAfter, hk, heq, ← hkeep]
  | free =>
    rw [Ledger.step_free_uncounted hk hcount, Function.update_apply]
    have hkeep := h k
    by_cases heq : k = key c <;> simp [owedAfter, hk, heq, ← hkeep]

/-- **A run of events without reference counting.** -/
theorem Ledger.Holds.run {s : Finset ι} {calls : List κ} (h : l.Holds s)
    (hcount : ∀ c ∈ calls, counted (key c) = false) (hnew : AllNew kind key s calls) :
    Ledger.TakesAll kind key counted l calls ∧
      (Ledger.run kind key counted l calls).Holds (calls.foldl (owedAfter kind key) s) := by
  induction calls generalizing l s with
  | nil => exact ⟨trivial, h⟩
  | cons c calls ih =>
    obtain ⟨htakes, hstep⟩ := h.step (hcount c (by simp)) hnew.1
    obtain ⟨htakesAll, hrun⟩ := ih hstep (fun c hc => hcount c (List.mem_cons_of_mem _ hc)) hnew.2
    exact ⟨⟨htakes, htakesAll⟩, hrun⟩

theorem allNew_append {s : Finset ι} {calls more : List κ} : AllNew kind key s (calls ++ more) ↔
    AllNew kind key s calls ∧ AllNew kind key (calls.foldl (owedAfter kind key) s) more := by
  induction calls generalizing s with
  | nil => simp [AllNew]
  | cons c calls ih => simp [AllNew, ih, and_assoc]

/-! ## What a program has -/

variable {η : Type} [DecidableEq η] {name : η → ι}

/-- The events take a program that has `o` to one that has `o'`; `name`
gives the pair of each thing. -/
structure Accounts (kind : κ → CallKind) (key : κ → ι) (name : η → ι) (o : Finset η) (events : List κ)
    (o' : Finset η) : Prop where
  new : AllNew kind key (o.image name) events
  after : events.foldl (owedAfter kind key) (o.image name) = o'.image name

omit [DecidableEq η] in
theorem Accounts.nil (o : Finset η) : Accounts kind key name o [] o := ⟨trivial, rfl⟩

omit [DecidableEq η] in
theorem Accounts.append {o o' o'' : Finset η} {events more : List κ} (h : Accounts kind key name o events o')
    (h' : Accounts kind key name o' more o'') : Accounts kind key name o (events ++ more) o'' := by
  refine ⟨allNew_append.mpr ⟨h.new, h.after.symm ▸ h'.new⟩, ?_⟩
  rw [List.foldl_append, h.after, h'.after]

/-- Something new. -/
theorem Accounts.alloc {o : Finset η} {c : κ} {x : η} (hkind : kind c = .alloc) (hkey : key c = name x)
    (hnew : x ∉ o) (hinj : ∀ y ∈ o, name y = name x → y = x) :
    Accounts kind key name o [c] (insert x o) := by
  refine ⟨⟨⟨by simp [hkind], fun _ hmem => ?_⟩, trivial⟩, by simp [owedAfter, hkind, hkey, Finset.image_insert]⟩
  rw [hkey] at hmem
  obtain ⟨y, hy, heq⟩ := Finset.mem_image.mp hmem
  exact hnew (hinj y hy heq ▸ hy)

/-- Something is given back. -/
theorem Accounts.free {o : Finset η} {c : κ} {x : η} (hkind : kind c = .free) (hkey : key c = name x)
    (hinj : ∀ y ∈ o, name y = name x → y = x) : Accounts kind key name o [c] (o.erase x) := by
  refine ⟨⟨⟨by simp [hkind], by simp [hkind]⟩, trivial⟩, ?_⟩
  have hafter : owedAfter kind key (o.image name) c = (o.image name).erase (name x) := by
    simp [owedAfter, hkind, hkey]
  rw [List.foldl_cons, List.foldl_nil, hafter]
  ext k
  simp only [Finset.mem_erase, Finset.mem_image]
  constructor
  · rintro ⟨hk, y, hy, rfl⟩
    exact ⟨y, ⟨fun heq => hk (by rw [heq]), hy⟩, rfl⟩
  · rintro ⟨y, ⟨hne, hy⟩, rfl⟩
    exact ⟨fun heq => hne (hinj y hy heq), y, hy, rfl⟩

end LeakLedger

end SpRtrace.Postproc
