/-
SpRtrace.Lib.PacketLoop — a loop that cuts a byte stream into packets
inside one receive buffer.

The loop keeps a cursor `ptr` and a count `n` of received bytes. A handler
looks at the memory behind the cursor and returns how far to advance;
when it cannot, the received bytes are moved to the front of the buffer
and `read()` is offered the room behind them. An interrupted `read()` is
tried again without resetting the cursor, or ends the loop.

The loop is a machine with one step for each packet and for each `read()`.
`Respects` is what a handler owes to an invariant on (state, remaining
stream), where the remaining stream is what has been received but not
consumed and what has not been read yet. `Respects.holds` lifts that to
whole runs, `Respects.inBounds` says that the buffer is never left, and
`Respects.ends` that the loop ends with the stream consumed. How the
stream was cut into reads is no part of the invariant. `FramesOk` is the
condition on the declared lengths of a stream under which such a loop
stays inside its buffer.
-/
import Mathlib

namespace SpRtrace.Lib

/-! ## The machine -/

/-- What a `read()` gives; behind the last result it gives end of file. -/
inductive ReadResult
  | data (bytes : List UInt8)
  | interrupted
  deriving DecidableEq

/-- What a handler leaves behind: its state, the memory from the cursor on
and how far to advance the cursor. -/
structure Handled (σ : Type) where
  state : σ
  window : List UInt8
  size : Int

structure PacketLoop (σ : Type) where
  /-- the size of the buffer -/
  capacity : Nat
  /-- the size `read()` is offered -/
  room : Nat
  /-- the least size of a packet -/
  header : Nat
  handle : σ → List UInt8 → Int → Handled σ
  /-- the handler results that end the loop -/
  stops : Int → Bool
  /-- whether an interrupted `read()` is tried again -/
  retries : Bool

structure LoopConf (σ : Type) where
  mem : List UInt8
  ptr : Nat
  n : Int
  state : σ
  input : List ReadResult
  halted : Bool

variable {σ : Type}

/-- `memmove` of `n` bytes to the front of the memory. -/
def moveFront (mem : List UInt8) (src n : Nat) : List UInt8 :=
  (mem.drop src).take n ++ mem.drop n

/-- `bytes` stored at an offset. -/
def storeAt (mem : List UInt8) (off : Nat) (bytes : List UInt8) : List UInt8 :=
  mem.take off ++ bytes ++ mem.drop (off + bytes.length)

namespace PacketLoop

variable (L : PacketLoop σ)

def handled (c : LoopConf σ) : Handled σ := L.handle c.state (c.mem.drop c.ptr) c.n

def memAfter (c : LoopConf σ) : List UInt8 := c.mem.take c.ptr ++ (L.handled c).window

/-- One packet, or one `read()`. -/
def step (c : LoopConf σ) : Option (LoopConf σ) :=
  if c.halted then none
  else
    let r := L.handled c
    let mem := L.memAfter c
    if 0 < r.size then
      some { c with state := r.state, mem, ptr := c.ptr + r.size.toNat, n := c.n - r.size }
    else if L.stops r.size then some { c with state := r.state, mem, halted := true }
    else
      let mem := moveFront mem c.ptr c.n.toNat
      match c.input with
      | [] => some { c with state := r.state, mem, halted := true }
      | .data bytes :: rest =>
          some { mem := storeAt mem c.n.toNat bytes, ptr := 0, n := c.n + bytes.length,
                 state := r.state, input := rest, halted := false }
      | .interrupted :: rest =>
          if L.retries then some { c with state := r.state, mem, input := rest }
          else some { c with state := r.state, mem, halted := true }

def Reach : LoopConf σ → LoopConf σ → Prop :=
  Relation.ReflTransGen fun c c' => L.step c = some c'

def Ends (c : LoopConf σ) (st : σ) : Prop :=
  ∃ c', L.Reach c c' ∧ c'.halted = true ∧ c'.state = st

/-- A number of steps, or fewer if the loop ends. -/
def run : Nat → LoopConf σ → LoopConf σ
  | 0, c => c
  | n + 1, c =>
      match L.step c with
      | some c' => run n c'
      | none => c

/-- The next step moves the received bytes and reads. -/
def Reading (c : LoopConf σ) : Prop :=
  c.halted = false ∧ (L.handled c).size ≤ 0 ∧ L.stops (L.handled c).size = false

/-- What the next step does to the buffer is harmless: the count is not
negative, a packet takes at least its header, and the regions given to
`memmove` and `read()` lie inside the buffer. -/
structure InBounds (c : LoopConf σ) : Prop where
  retained : 0 ≤ c.n
  advance : c.halted = false → 0 < (L.handled c).size → (L.header : Int) ≤ (L.handled c).size
  moved : L.Reading c → c.ptr + c.n ≤ L.capacity
  offered : L.Reading c → c.n + L.room ≤ L.capacity

/-- What the handler keeps of its state, a run keeps. -/
theorem Reach.state_invariant {L : PacketLoop σ} {c c' : LoopConf σ} (h : L.Reach c c')
    (I : σ → Prop) (hI : ∀ st window n, I st → I (L.handle st window n).state) (hc : I c.state) :
    I c'.state := by
  induction h with
  | refl => exact hc
  | @tail c₁ c₂ _ hstep ih =>
    have hnext : I (L.handled c₁).state := hI _ _ _ ih
    unfold step at hstep
    split at hstep
    · cases hstep
    simp only at hstep
    split at hstep
    · obtain rfl := Option.some.inj hstep
      exact hnext
    split at hstep
    · obtain rfl := Option.some.inj hstep
      exact hnext
    split at hstep
    · obtain rfl := Option.some.inj hstep
      exact hnext
    · obtain rfl := Option.some.inj hstep
      exact hnext
    · split at hstep <;> obtain rfl := Option.some.inj hstep <;> exact hnext

/-! ## Determinism -/

theorem step_of_halted {c : LoopConf σ} (h : c.halted = true) : L.step c = none := by
  unfold step
  rw [if_pos h]

/-- A halted run goes nowhere. -/
theorem Reach.eq_of_halted {c c' : LoopConf σ} (h : L.Reach c c') (hc : c.halted = true) :
    c' = c := by
  induction h with
  | refl => rfl
  | tail _ hstep ih =>
    rw [ih, L.step_of_halted hc] at hstep
    cases hstep

/-- Two runs from the same place, one of them to the end: the other is on
the way there. -/
theorem Reach.to_halted {c c₁ c₂ : LoopConf σ} (h₁ : L.Reach c c₁) (h₂ : L.Reach c c₂)
    (hhalt : c₂.halted = true) : L.Reach c₁ c₂ := by
  induction h₁ with
  | refl => exact h₂
  | tail _ hstep ih =>
    obtain heq | ⟨mid, hmid, htail⟩ := Relation.ReflTransGen.cases_head ih
    · rw [heq, L.step_of_halted hhalt] at hstep
      cases hstep
    · obtain rfl := Option.some.inj (hstep.symm.trans hmid)
      exact htail

theorem reach_run (n : Nat) (c : LoopConf σ) : L.Reach c (L.run n c) := by
  induction n generalizing c with
  | zero => exact .refl
  | succ n ih =>
    rw [run]
    cases hstep : L.step c with
    | some c' => exact .head hstep (ih c')
    | none => exact .refl

/-- The loop ends in one state only. -/
theorem Ends.unique {c : LoopConf σ} {st st' : σ} (h : L.Ends c st) (h' : L.Ends c st') :
    st = st' := by
  obtain ⟨c₁, hreach₁, hhalt₁, rfl⟩ := h
  obtain ⟨c₂, hreach₂, hhalt₂, rfl⟩ := h'
  have hreach := Reach.to_halted L hreach₁ hreach₂ hhalt₂
  rw [Reach.eq_of_halted L hreach hhalt₁]

end PacketLoop

/-! ## Memory -/

theorem moveFront_eq {mem U : List UInt8} {src : Nat} (h : U <+: mem.drop src) :
    moveFront mem src U.length = U ++ mem.drop U.length := by
  rw [moveFront, List.prefix_iff_eq_take.mp h]
  simp

theorem length_le_of_prefix_drop {mem U : List UInt8} {src : Nat} (h : U <+: mem.drop src) :
    U.length ≤ mem.length := by
  have := h.length_le
  rw [List.length_drop] at this
  omega

@[simp] theorem moveFront_length {mem U : List UInt8} {src : Nat} (h : U <+: mem.drop src) :
    (moveFront mem src U.length).length = mem.length := by
  have := length_le_of_prefix_drop h
  rw [moveFront_eq h, List.length_append, List.length_drop]
  omega

/-- What was moved is at the front, and what was read behind it. -/
theorem prefix_storeAt {mem U : List UInt8} {src : Nat} (h : U <+: mem.drop src)
    (bytes : List UInt8) :
    U ++ bytes <+: storeAt (moveFront mem src U.length) U.length bytes := by
  rw [storeAt, moveFront_eq h, List.take_left]
  exact List.prefix_append _ _

theorem storeAt_length {mem bytes : List UInt8} {off : Nat} (h : off + bytes.length ≤ mem.length) :
    (storeAt mem off bytes).length = mem.length := by
  simp only [storeAt, List.length_append, List.length_take, List.length_drop]
  omega

/-- Moving leaves the received bytes where they are unless they overlap the
place they are moved to. -/
theorem prefix_moveFront {mem U : List UInt8} {src : Nat} (h : U <+: mem.drop src)
    (hapart : src = 0 ∨ U.length ≤ src) : U <+: (moveFront mem src U.length).drop src := by
  rw [moveFront_eq h]
  cases hapart with
  | inl hzero =>
    rw [hzero, List.drop_zero]
    exact List.prefix_append _ _
  | inr hle =>
    rw [List.drop_append, List.drop_eq_nil_of_le hle, List.nil_append, List.drop_drop,
      Nat.add_sub_cancel' hle]
    exact h

/-! ## Invariants of runs -/

/-- The bytes that are still to be read. -/
def unread : List ReadResult → List UInt8
  | [] => []
  | .data bytes :: rest => bytes ++ unread rest
  | .interrupted :: rest => unread rest

/-- Every `read()` gives something, and no more than it was offered. -/
def Offered (room : Nat) (input : List ReadResult) : Prop :=
  ∀ bytes, .data bytes ∈ input → 0 < bytes.length ∧ bytes.length ≤ room

theorem Offered.tail {room : Nat} {r : ReadResult} {input : List ReadResult}
    (h : Offered room (r :: input)) : Offered room input :=
  fun bytes hbytes => h bytes (List.mem_cons_of_mem _ hbytes)

/-- A stream as it is read: a first `read()` with the whole lead of the
stream, and the results of the further ones. -/
structure Delivery (lead firstRoom room : Nat) (stream : List UInt8) where
  first : List UInt8
  input : List ReadResult
  whole : first ++ unread input = stream
  lead_le : lead ≤ first.length
  first_le : first.length ≤ firstRoom
  offered : Offered room input

/-- No `read()` of the delivery was interrupted. -/
def Delivery.Uninterrupted {lead firstRoom room : Nat} {stream : List UInt8}
    (k : Delivery lead firstRoom room stream) : Prop := .interrupted ∉ k.input

/-- What the first read leaves of the stream. -/
theorem Delivery.unread_eq {lead firstRoom room : Nat} {front body : List UInt8}
    (k : Delivery lead firstRoom room (front ++ body)) (hlead : lead = front.length) :
    k.first = front ++ k.first.drop lead ∧ k.first.drop lead ++ unread k.input = body := by
  have hpre : front <+: k.first := by
    refine List.prefix_of_prefix_length_le ?_ ⟨_, k.whole⟩ (hlead ▸ k.lead_le)
    exact List.prefix_append _ _
  obtain ⟨tail, htail⟩ := hpre
  have hwhole := k.whole
  rw [← htail, List.append_assoc, List.append_cancel_left_eq] at hwhole
  subst hlead
  rw [← htail, List.drop_left]
  exact ⟨rfl, hwhole⟩

namespace PacketLoop

variable (L : PacketLoop σ) (Inv : σ → List UInt8 → Prop) (Done : σ → Prop)

/-- What a handler may do that sees the received bytes `U` while `V` is
still unread: take a packet and leave the bytes behind it alone, end the
loop, or wait for more bytes. -/
inductive Response (U V window : List UInt8) (r : Handled σ) : Prop
  | packet (hheader : (L.header : Int) ≤ r.size) (hpos : 0 < r.size) (hfit : r.size ≤ U.length)
      (hlen : r.window.length = window.length)
      (hrest : U.drop r.size.toNat <+: r.window.drop r.size.toNat)
      (hinv : Inv r.state ((U ++ V).drop r.size.toNat))
  | stop (hsize : r.size ≤ 0) (hstop : L.stops r.size = true) (hdone : Done r.state)
  | wait (hsize : r.size ≤ 0) (hstop : L.stops r.size = false) (hwindow : r.window = window)
      (hroom : U.length + L.room ≤ L.capacity) (hinv : Inv r.state (U ++ V))
      (hend : V = [] → Done r.state)

/-- The handler keeps an invariant on its state and the remaining stream,
whatever part of the stream it sees and whatever is behind that part. -/
def Respects : Prop :=
  ∀ st U V window, window.length ≤ L.capacity → U <+: window → Inv st (U ++ V) →
    L.Response Inv Done U V window (L.handle st window U.length)

structure Running (c : LoopConf σ) (U : List UInt8) : Prop where
  mem : c.mem.length = L.capacity
  n : c.n = U.length
  fit : c.ptr + U.length ≤ L.capacity
  window : U <+: c.mem.drop c.ptr
  input : Offered L.room c.input
  inv : Inv c.state (U ++ unread c.input)

/-- The invariant of the loop. -/
structure Holds (c : LoopConf σ) : Prop where
  retained : 0 ≤ c.n
  running : c.halted = false → ∃ U, L.Running Inv c U
  done : c.halted = true → Done c.state

/-- The next `read()` is not interrupted at a bad moment: with the received
bytes overlapping the front of the buffer. -/
def Calm (c : LoopConf σ) : Prop :=
  L.Reading c → ∀ rest, c.input = .interrupted :: rest →
    L.retries = true ∧ (c.ptr = 0 ∨ c.n ≤ c.ptr)

/-- An interruption may also end the loop, if it can end there. -/
def Settles (c : LoopConf σ) : Prop :=
  L.Reading c → ∀ rest, c.input = .interrupted :: rest →
    L.retries = true ∧ (c.ptr = 0 ∨ c.n ≤ c.ptr) ∨ L.retries = false ∧ Done (L.handled c).state

/-- In this state the handler does what it may. -/
def Answers (c : LoopConf σ) : Prop :=
  ∀ U, L.Running Inv c U →
    L.Response Inv Done U (unread c.input) (c.mem.drop c.ptr) (L.handled c)

variable {L Inv Done}

/-- A step makes at most one `read()`. -/
theorem step_input {c c' : LoopConf σ} (hstep : L.step c = some c') : c'.input <:+ c.input := by
  unfold PacketLoop.step at hstep
  dsimp only at hstep
  split at hstep
  · cases hstep
  split at hstep
  · obtain rfl := Option.some.inj hstep
    exact List.suffix_rfl
  split at hstep
  · obtain rfl := Option.some.inj hstep
    exact List.suffix_rfl
  split at hstep
  next hinput =>
    obtain rfl := Option.some.inj hstep
    exact List.suffix_rfl
  next bytes rest hinput =>
    obtain rfl := Option.some.inj hstep
    rw [hinput]
    exact List.suffix_cons _ _
  next rest hinput =>
    split at hstep
    · obtain rfl := Option.some.inj hstep
      rw [hinput]
      exact List.suffix_cons _ _
    · obtain rfl := Option.some.inj hstep
      exact List.suffix_rfl

/-- Without interruptions there is no bad moment. -/
theorem calm_of_data {c c' : LoopConf σ} (hdata : .interrupted ∉ c.input)
    (hreach : L.Reach c c') : L.Calm c' := by
  have hsuffix : c'.input <:+ c.input := by
    induction hreach with
    | refl => exact List.suffix_rfl
    | tail _ hstep ih => exact (step_input hstep).trans ih
  intro _ rest hrest
  exact absurd (hsuffix.subset (hrest ▸ List.mem_cons_self)) hdata

theorem Calm.settles {c : LoopConf σ} (h : L.Calm c) : L.Settles Done c :=
  fun hreading rest hinput => .inl (h hreading rest hinput)

theorem Respects.answers (hresp : L.Respects Inv Done) (c : LoopConf σ) :
    L.Answers Inv Done c := by
  intro U h
  rw [handled, h.n]
  refine hresp _ _ _ _ ?_ h.window h.inv
  rw [List.length_drop, h.mem]
  omega

theorem Running.holds {c : LoopConf σ} {U : List UInt8} (h : L.Running Inv c U)
    (hhalt : c.halted = false) : L.Holds Inv Done c :=
  ⟨by rw [h.n]; exact Int.natCast_nonneg _, fun _ => ⟨U, h⟩,
    fun hc => by rw [hhalt] at hc; cases hc⟩

/-- A handler that waits has not touched the memory. -/
theorem memAfter_eq {c : LoopConf σ} (h : (L.handled c).window = c.mem.drop c.ptr) :
    L.memAfter c = c.mem := by
  rw [memAfter, h, List.take_append_drop]

/-- The state behind a packet. -/
theorem Running.packet {c : LoopConf σ} {U : List UInt8} (h : L.Running Inv c U)
    (hpos : 0 < (L.handled c).size) (hfit : (L.handled c).size ≤ U.length)
    (hlen : (L.handled c).window.length = (c.mem.drop c.ptr).length)
    (hrest : U.drop (L.handled c).size.toNat <+:
      (L.handled c).window.drop (L.handled c).size.toNat)
    (hinv : Inv (L.handled c).state ((U ++ unread c.input).drop (L.handled c).size.toNat)) :
    L.Running Inv
      { c with state := (L.handled c).state, mem := L.memAfter c,
               ptr := c.ptr + (L.handled c).size.toNat, n := c.n - (L.handled c).size }
      (U.drop (L.handled c).size.toNat) := by
  have hptr : c.ptr ≤ c.mem.length := by have := h.fit; have := h.mem; omega
  have htake : (c.mem.take c.ptr).length = c.ptr := by rw [List.length_take]; omega
  refine ⟨?_, ?_, ?_, ?_, h.input, ?_⟩
  · show (L.memAfter c).length = L.capacity
    rw [memAfter, List.length_append, htake, hlen, List.length_drop, ← h.mem]
    omega
  · show c.n - (L.handled c).size = _
    rw [h.n, List.length_drop]
    omega
  · show c.ptr + (L.handled c).size.toNat + _ ≤ _
    have := h.fit
    rw [List.length_drop]
    omega
  · show _ <+: (L.memAfter c).drop (c.ptr + (L.handled c).size.toNat)
    rwa [memAfter, ← List.drop_drop, List.drop_left' htake]
  · rwa [List.drop_append_of_le_length (by omega)] at hinv

/-- The state behind a `read()`. -/
theorem Running.read {c : LoopConf σ} {U bytes : List UInt8} {rest : List ReadResult} {st : σ}
    (h : L.Running Inv c U) (hinput : c.input = .data bytes :: rest)
    (hroom : U.length + L.room ≤ L.capacity) (hinv : Inv st (U ++ unread c.input)) :
    L.Running Inv
      { mem := storeAt (moveFront c.mem c.ptr c.n.toNat) c.n.toNat bytes, ptr := 0,
        n := c.n + bytes.length, state := st, input := rest, halted := false } (U ++ bytes) := by
  have hn : c.n.toNat = U.length := by rw [h.n]; rfl
  have hbytes := h.input bytes (by rw [hinput]; exact List.mem_cons_self)
  have hinput' := h.input
  rw [hinput] at hinv hinput'
  rw [hn, h.n]
  refine ⟨?_, ?_, ?_, prefix_storeAt h.window bytes, hinput'.tail, ?_⟩
  · show (storeAt _ _ _).length = _
    rw [storeAt_length, moveFront_length h.window, h.mem]
    rw [moveFront_length h.window, h.mem]
    omega
  · simp
  · show 0 + _ ≤ _
    rw [List.length_append]
    omega
  · rw [List.append_assoc]
    exact hinv

/-- The state behind an interrupted `read()`. -/
theorem Running.interrupted {c : LoopConf σ} {U : List UInt8} {rest : List ReadResult} {st : σ}
    (h : L.Running Inv c U) (hinput : c.input = .interrupted :: rest)
    (hapart : c.ptr = 0 ∨ c.n ≤ c.ptr) (hinv : Inv st (U ++ unread c.input)) :
    L.Running Inv
      { c with state := st, mem := moveFront c.mem c.ptr c.n.toNat, input := rest } U := by
  have hn : c.n.toNat = U.length := by rw [h.n]; rfl
  have hinput' := h.input
  rw [hinput] at hinv hinput'
  rw [hn]
  refine ⟨?_, h.n, h.fit, ?_, hinput'.tail, hinv⟩
  · show (moveFront _ _ _).length = _
    rw [moveFront_length h.window, h.mem]
  · refine prefix_moveFront h.window (hapart.imp_right fun hle => ?_)
    rw [h.n] at hle
    exact Int.ofNat_le.mp hle

/-- One step keeps the invariant. -/
theorem Holds.step {c c' : LoopConf σ} (h : L.Holds Inv Done c) (hanswers : L.Answers Inv Done c)
    (hsettles : L.Settles Done c) (hstep : L.step c = some c') : L.Holds Inv Done c' := by
  unfold PacketLoop.step at hstep
  split at hstep
  · cases hstep
  rename_i hhalt
  have hhalt : c.halted = false := by simpa using hhalt
  obtain ⟨U, hU⟩ := h.running hhalt
  have hn := h.retained
  cases hanswers U hU with
  | packet hheader hpos hfit hlen hrest hinv =>
    simp only [if_pos hpos] at hstep
    obtain rfl := Option.some.inj hstep
    have hrun := hU.packet hpos hfit hlen hrest hinv
    refine ⟨?_, fun _ => ⟨_, hrun⟩, fun hc => ?_⟩
    · rw [hrun.n]; exact Int.natCast_nonneg _
    · rw [hhalt] at hc; cases hc
  | stop hsize hstop hdone =>
    simp only [if_neg (show ¬ 0 < (L.handled c).size by omega), if_pos hstop] at hstep
    obtain rfl := Option.some.inj hstep
    exact ⟨hn, (fun hc => by cases hc), fun _ => hdone⟩
  | wait hsize hstop hwindow hroom hinv hend =>
    have hreading : L.Reading c := ⟨hhalt, hsize, hstop⟩
    simp only [if_neg (show ¬ 0 < (L.handled c).size by omega), hstop, Bool.false_eq_true,
      if_false, memAfter_eq hwindow] at hstep
    split at hstep
    next hinput =>
      obtain rfl := Option.some.inj hstep
      rw [hinput] at hend
      exact ⟨hn, (fun hc => by cases hc), fun _ => hend rfl⟩
    next bytes rest hinput =>
      obtain rfl := Option.some.inj hstep
      have hrun := hU.read hinput hroom hinv
      refine ⟨?_, fun _ => ⟨_, hrun⟩, fun hc => by cases hc⟩
      rw [hrun.n]; exact Int.natCast_nonneg _
    next rest hinput =>
      rcases hsettles hreading rest hinput with ⟨hretries, hapart⟩ | ⟨hretries, hdone⟩
      · rw [if_pos hretries] at hstep
        obtain rfl := Option.some.inj hstep
        refine ⟨hn, fun _ => ⟨U, hU.interrupted hinput hapart hinv⟩, fun hc => ?_⟩
        rw [hhalt] at hc; cases hc
      · rw [hretries] at hstep
        obtain rfl := Option.some.inj hstep
        exact ⟨hn, (fun hc => by cases hc), fun _ => hdone⟩

/-- **Runs keep the invariant.** -/
theorem Holds.run {c c' : LoopConf σ} (h : L.Holds Inv Done c)
    (hanswers : ∀ c', L.Reach c c' → L.Answers Inv Done c')
    (hsettles : ∀ c', L.Reach c c' → L.Settles Done c') (hreach : L.Reach c c') :
    L.Holds Inv Done c' := by
  induction hreach with
  | refl => exact h
  | tail hreach hstep ih => exact ih.step (hanswers _ hreach) (hsettles _ hreach) hstep

theorem Holds.inBounds {c : LoopConf σ} (h : L.Holds Inv Done c)
    (hanswers : L.Answers Inv Done c) : L.InBounds c := by
  refine ⟨h.retained, fun hhalt hpos => ?_, fun hreading => ?_, fun hreading => ?_⟩
  · obtain ⟨U, hU⟩ := h.running hhalt
    cases hanswers U hU with
    | packet hheader => exact hheader
    | stop hsize => omega
    | wait hsize => omega
  · obtain ⟨U, hU⟩ := h.running hreading.1
    have := hU.fit
    rw [hU.n]
    omega
  · obtain ⟨U, hU⟩ := h.running hreading.1
    obtain ⟨-, hsize, hstop⟩ := hreading
    cases hanswers U hU with
    | packet _ hpos => omega
    | stop _ hstop' => rw [hstop] at hstop'; cases hstop'
    | wait _ _ _ hroom => rw [hU.n]; omega

/-- **Runs stay inside the buffer.** -/
theorem Holds.run_inBounds {c c' : LoopConf σ} (h : L.Holds Inv Done c)
    (hanswers : ∀ c', L.Reach c c' → L.Answers Inv Done c')
    (hsettles : ∀ c', L.Reach c c' → L.Settles Done c') (hreach : L.Reach c c') : L.InBounds c' :=
  (h.run hanswers hsettles hreach).inBounds (hanswers c' hreach)

/-! ## The end of a run -/

/-- What is left to do: bytes to consume and reads to make. -/
def work (c : LoopConf σ) : Nat :=
  if c.halted then 0 else 1 + c.n.toNat + (unread c.input).length + c.input.length

/-- Every step of a running loop is work done. -/
theorem Holds.progress {c : LoopConf σ} (h : L.Holds Inv Done c)
    (hanswers : L.Answers Inv Done c) (hcalm : L.Calm c) (hhalt : c.halted = false) :
    ∃ c', L.step c = some c' ∧ work c' < work c := by
  obtain ⟨U, hU⟩ := h.running hhalt
  have hwork : work c = 1 + c.n.toNat + (unread c.input).length + c.input.length := by
    rw [work, hhalt]; rfl
  have hn := hU.n
  unfold PacketLoop.step
  simp only [hhalt, Bool.false_eq_true, if_false]
  cases hanswers U hU with
  | packet hheader hpos hfit hlen hrest hinv =>
    rw [if_pos hpos]
    refine ⟨_, rfl, ?_⟩
    simp only [work, hhalt, Bool.false_eq_true, if_false]
    omega
  | stop hsize hstop hdone =>
    rw [if_neg (show ¬ 0 < (L.handled c).size by omega), if_pos hstop]
    refine ⟨_, rfl, ?_⟩
    rw [hwork, work, if_pos rfl]
    omega
  | wait hsize hstop hwindow hroom hinv hend =>
    rw [if_neg (show ¬ 0 < (L.handled c).size by omega),
      if_neg (show ¬ L.stops (L.handled c).size = true by rw [hstop]; decide)]
    cases hinput : c.input with
    | nil =>
      refine ⟨_, rfl, ?_⟩
      rw [hwork, work, if_pos rfl]
      omega
    | cons r rest =>
      cases r with
      | data bytes =>
        refine ⟨_, rfl, ?_⟩
        rw [hwork, hinput]
        simp only [work, Bool.false_eq_true, if_false, unread, List.length_append,
          List.length_cons]
        omega
      | interrupted =>
        obtain ⟨hretries, -⟩ := hcalm ⟨hhalt, hsize, hstop⟩ rest hinput
        simp only [hretries, if_true]
        refine ⟨_, rfl, ?_⟩
        rw [hwork, hinput]
        simp only [work, Bool.false_eq_true, if_false, unread, List.length_cons]
        omega

/-- **Every run comes to an end**, with everything the invariant promises. -/
theorem Holds.ends {c : LoopConf σ} (h : L.Holds Inv Done c)
    (hanswers : ∀ c', L.Reach c c' → L.Answers Inv Done c')
    (hcalm : ∀ c', L.Reach c c' → L.Calm c') : ∃ st, L.Ends c st ∧ Done st := by
  induction hwork : work c using Nat.strongRecOn generalizing c with
  | _ k ih =>
    cases hhalt : c.halted with
    | true => exact ⟨c.state, ⟨c, .refl, hhalt, rfl⟩, h.done hhalt⟩
    | false =>
      obtain ⟨c₁, hstep, hless⟩ := h.progress (hanswers c .refl) (hcalm c .refl) hhalt
      obtain ⟨st, ⟨c', hreach, hc'⟩, hdone⟩ := ih _ (hwork ▸ hless)
        (h.step (hanswers c .refl) (hcalm c .refl).settles hstep)
        (fun c' hc' => hanswers c' (.head hstep hc'))
        (fun c' hc' => hcalm c' (.head hstep hc')) rfl
      exact ⟨st, ⟨c', .head hstep hreach, hc'⟩, hdone⟩

theorem Respects.ends (hresp : L.Respects Inv Done) {c : LoopConf σ} (h : L.Holds Inv Done c)
    (hcalm : ∀ c', L.Reach c c' → L.Calm c') : ∃ st, L.Ends c st ∧ Done st :=
  h.ends (fun c' _ => hresp.answers c') hcalm

end PacketLoop

/-! ## Declared lengths -/

/-- What the header at the front of a stream makes of it: the loop ends, it
waits whatever comes, or there is a packet of a declared length, the last
one or not. -/
inductive FrameKind
  | stop
  | stuck
  | last (k : Nat)
  | whole (k : Nat)

/-- A stream whose declared lengths are those of packets that fit: what can
pile up in the buffer is at most `bound` bytes, and every packet has its
header and leaves its neighbours alone. -/
inductive FramesOk (bound header : Nat) (kind : List UInt8 → FrameKind)
    (intact : List UInt8 → Prop) : List UInt8 → Prop
  | short {s : List UInt8} (h : s.length < header) : FramesOk bound header kind intact s
  | stop {s : List UInt8} (h : kind s = .stop) : FramesOk bound header kind intact s
  | stuck {s : List UInt8} (h : kind s = .stuck) (hlen : s.length ≤ bound) (hintact : intact s) :
      FramesOk bound header kind intact s
  | last {s : List UInt8} {k : Nat} (h : kind s = .last k)
      (hlen : k ≤ bound + 1 ∨ s.length ≤ bound) : FramesOk bound header kind intact s
  | cut {s : List UInt8} {k : Nat} (h : kind s = .whole k) (hcut : s.length < k)
      (hlen : s.length ≤ bound) : FramesOk bound header kind intact s
  | whole {s : List UInt8} {k : Nat} (h : kind s = .whole k) (hheader : header ≤ k)
      (hlen : k ≤ bound + 1) (hintact : intact s)
      (hrest : FramesOk bound header kind intact (s.drop k)) : FramesOk bound header kind intact s

end SpRtrace.Lib
