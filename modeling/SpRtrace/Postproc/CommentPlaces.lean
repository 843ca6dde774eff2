/-
SpRtrace.Postproc.CommentPlaces — where the comments come out.

A log and what is written of it are lists of marks: calls, by the two
numbers `compare_calls` looks at, and comments. `commentPlaces` lists the
comments with the calls before them. The writer decides by index alone:
a comment waits for the first call whose index is above all indices up to
its own (`interleave_places`).

`writeTraceCalls_places_iff` says when that is the right place, whatever
calls were removed: the sort must not exchange two calls with a comment
between them, and in front of a comment that stands before all calls no
call may have an index below one.
-/
import SpRtrace.Postproc.CommentTheorems

namespace SpRtrace.Postproc

open SpRtrace.Lib SpRtrace.Common SpRtrace.Library

variable {w : Nat}

/-! ## Marks -/

/-- The timestamp and the index of a call. -/
abbrev CallKey := BitVec 32 × BitVec 32

/-- A call or a comment, of a log or of the output. -/
inductive Mark
  | call (key : CallKey)
  | comment (text : Str)
  deriving DecidableEq, Repr

def Mark.key? : Mark → Option CallKey
  | .call key => some key
  | .comment _ => none

def markKeys (marks : List Mark) : List CallKey := marks.filterMap Mark.key?

def lineMark (w : Nat) (line : Str) : Option Mark :=
  match lineEvent w line with
  | some (.call call) => some (.call (call.timestamp, call.index))
  | some (.record .comment _) => some (.comment line)
  | _ => none

def logMarks (w : Nat) (text : Str) : List Mark :=
  (fgetsLines 4096 text).tail.filterMap (lineMark w)

/-- What the sort looks at of a stored call. -/
def fcallKey (rd : Rd w) (call : Nat) : Option CallKey :=
  (rd.fcall call).map fun c => (c.data.timestamp, c.data.index)

def storeKeys (rd : Rd w) : List CallKey := rd.calls.filterMap (fcallKey rd)

/-- The mark of a piece of the output. -/
def pieceMark (rd : Rd w) : Piece → Option Mark
  | .call call _ => (fcallKey rd call).map .call
  | .comment text => some (.comment text)
  | _ => none

def pieceMarks (rd : Rd w) (pieces : List Piece) : List Mark := pieces.filterMap (pieceMark rd)

/-- The comments, each with the calls before it; `seen` are those before
the first mark. -/
def commentPlaces : List CallKey → List Mark → List (Str × List CallKey)
  | _, [] => []
  | seen, .call key :: marks => commentPlaces (seen ++ [key]) marks
  | seen, .comment text :: marks => (text, seen) :: commentPlaces seen marks

/-- **Comment placement**: the calls that are left are written, every
comment of the log is written, and of the calls that are left the same
ones come before it in the log and in the output. -/
structure CommentsPlaced (log : List Mark) (left : List CallKey) (output : List Mark) : Prop where
  calls : markKeys output = left
  comments : List.Forall₂ (fun p q => printFormat q.1 = some p.1 ∧
    ∀ key ∈ left, key ∈ p.2 ↔ key ∈ q.2) (commentPlaces [] output) (commentPlaces [] log)

theorem commentPlaces_append (seen : List CallKey) (marks marks' : List Mark) :
    commentPlaces seen (marks ++ marks')
      = commentPlaces seen marks ++ commentPlaces (seen ++ markKeys marks) marks' := by
  induction marks generalizing seen with
  | nil => simp [commentPlaces, markKeys]
  | cons mark marks ih =>
    cases mark with
    | call key =>
      have hkeys : markKeys (.call key :: marks) = key :: markKeys marks := rfl
      rw [List.cons_append, commentPlaces, commentPlaces, ih, hkeys, List.append_assoc]
      rfl
    | comment text =>
      have hkeys : markKeys (.comment text :: marks) = markKeys marks := rfl
      rw [List.cons_append, commentPlaces, commentPlaces, ih, hkeys, List.cons_append]

/-- The comments in a row have the same place. -/
theorem commentPlaces_comments (seen : List CallKey) (texts : List Str) :
    commentPlaces seen (texts.map .comment) = texts.map fun text => (text, seen) := by
  induction texts with
  | nil => rfl
  | cons text texts ih => rw [List.map_cons, commentPlaces, ih, List.map_cons]

/-- The place of a comment is a first part of the calls. -/
theorem commentPlaces_front {seen : List CallKey} {marks : List Mark} {p : Str × List CallKey}
    (hp : p ∈ commentPlaces seen marks) : p.2 <+: seen ++ markKeys marks := by
  induction marks generalizing seen with
  | nil => cases hp
  | cons mark marks ih =>
    cases mark with
    | call key =>
      have hrest := ih hp
      rwa [List.append_assoc] at hrest
    | comment text =>
      rcases List.mem_cons.mp hp with rfl | hp
      · exact List.prefix_append _ _
      · exact ih hp

/-- It has the calls that were seen at the start. -/
theorem commentPlaces_seen {seen : List CallKey} {marks : List Mark} {p : Str × List CallKey}
    (hp : p ∈ commentPlaces seen marks) : seen <+: p.2 := by
  induction marks generalizing seen with
  | nil => cases hp
  | cons mark marks ih =>
    cases mark with
    | call key => exact (List.prefix_append _ _).trans (ih hp)
    | comment text =>
      rcases List.mem_cons.mp hp with rfl | hp
      · exact List.prefix_rfl
      · exact ih hp

/-! ## The comments of the reader -/

/-- The comments behind a call with the given index, as the reader stores
them. -/
def markComments : BitVec 32 → List Mark → List Comment
  | _, [] => []
  | _, .call key :: marks => markComments key.2 marks
  | index, .comment text :: marks => { index, text } :: markComments index marks

theorem commentRecords_eq (w : Nat) (index : BitVec 32) (lines : List Str) :
    commentRecords w index lines = markComments index (lines.filterMap (lineMark w)) := by
  induction lines generalizing index with
  | nil => rfl
  | cons line lines ih =>
    rw [commentRecords]
    split
    · rename_i call hcall
      have hmark : lineMark w line = some (.call (call.timestamp, call.index)) := by
        rw [lineMark, hcall]
      rw [List.filterMap_cons_some hmark, markComments]
      exact ih _
    · rename_i line' hcomment
      have hmark : lineMark w line = some (.comment line) := by
        rw [lineMark, hcomment]
      rw [List.filterMap_cons_some hmark, markComments, ih]
    · rename_i hother₁ hother₂
      have hmark : lineMark w line = none := by
        unfold lineMark
        split
        · rename_i call hcall
          exact absurd hcall (hother₁ call)
        · rename_i line' hcomment
          exact absurd hcomment (hother₂ line')
        · rfl
      rw [List.filterMap_cons_none hmark]
      exact ih _

theorem logComments_eq (w : Nat) (text : Str) :
    logComments w text = markComments 0 (logMarks w text) := commentRecords_eq ..

def lastIndex (index : BitVec 32) (keys : List CallKey) : BitVec 32 :=
  (keys.getLast?.map Prod.snd).getD index

/-- A stored comment has the text of its mark and the index of the last
call before it. -/
theorem markComments_places (start : BitVec 32) :
    ∀ (seen : List CallKey) (marks : List Mark),
      List.Forall₂ (fun (c : Comment) p => c.text = p.1 ∧ c.index = lastIndex start p.2)
        (markComments (lastIndex start seen) marks) (commentPlaces seen marks)
  | _, [] => .nil
  | seen, .call key :: marks => by
      have hlast : lastIndex start (seen ++ [key]) = key.2 := by simp [lastIndex]
      rw [markComments, commentPlaces, ← hlast]
      exact markComments_places start (seen ++ [key]) marks
  | seen, .comment text :: marks => .cons ⟨rfl, rfl⟩ (markComments_places start seen marks)

/-- The index of a stored comment is the one at the start or that of a call. -/
theorem markComments_index {c : Comment} :
    ∀ {index : BitVec 32} {marks : List Mark}, c ∈ markComments index marks →
      c.index = index ∨ ∃ key ∈ markKeys marks, c.index = key.2
  | _, [], hc => by cases hc
  | index, .call key :: marks, hc => by
      have hkeys : markKeys (.call key :: marks) = key :: markKeys marks := rfl
      rw [hkeys]
      rcases markComments_index (show c ∈ markComments key.2 marks from hc) with h | ⟨key', hkey', h⟩
      · exact .inr ⟨key, by simp, h⟩
      · exact .inr ⟨key', by simp [hkey'], h⟩
  | index, .comment text :: marks, hc => by
      rcases List.mem_cons.mp hc with rfl | hc
      · exact .inl rfl
      · have hrest := markComments_index (show c ∈ markComments index marks from hc)
        exact hrest

/-- With increasing indices no earlier comment waits longer than a later
one, but for comments before all calls. -/
theorem markComments_pairwise {m : Int} :
    ∀ (index : BitVec 32) (marks : List Mark),
      (index.toInt ≤ m ∨ ∀ key ∈ markKeys marks, index.toInt < key.2.toInt) →
      (markKeys marks).Pairwise (fun k k' => k.2.toInt < k'.2.toInt) →
      (markComments index marks).Pairwise fun c c' => c.index.toInt ≤ max m c'.index.toInt
  | _, [], _, _ => .nil
  | index, .call key :: marks, _, hinc => by
      obtain ⟨hfirst, hrest⟩ := List.pairwise_cons.mp
        (show (key :: markKeys marks).Pairwise fun k k' => k.2.toInt < k'.2.toInt from hinc)
      exact markComments_pairwise key.2 marks (.inr hfirst) hrest
  | index, .comment text :: marks, h, hinc => by
      refine List.pairwise_cons.mpr ⟨fun c' hc' => ?_, markComments_pairwise index marks h hinc⟩
      have hindex := markComments_index hc'
      rcases h with hle | hlt
      · exact hle.trans (le_max_left _ _)
      · rcases hindex with heq | ⟨key, hkey, heq⟩
        · rw [heq]
          exact le_max_right _ _
        · rw [heq]
          exact (hlt key hkey).le.trans (le_max_right _ _)

/-! ## Where the writer puts a comment -/

/-- The comments with the calls that are written before them: a comment
waits while the indices are not above those up to its own, `m` at least. -/
def placesFrom (keys : List CallKey) : Int → List Comment → List (Str × List CallKey)
  | _, [] => []
  | m, c :: cs =>
      let m := max m c.index.toInt
      (c.text, keys.takeWhile fun key => decide (key.2.toInt ≤ m)) :: placesFrom keys m cs

theorem placesFrom_append (keys : List CallKey) (m : Int) (cs cs' : List Comment) :
    placesFrom keys m (cs ++ cs') = placesFrom keys m cs
      ++ placesFrom keys (cs.foldl (fun m c => max m c.index.toInt) m) cs' := by
  induction cs generalizing m with
  | nil => rfl
  | cons c cs ih => rw [List.cons_append, placesFrom, placesFrom, ih, List.cons_append, List.foldl_cons]

/-- Comments below the first index do not wait. -/
theorem placesFrom_below {key : CallKey} (keys : List CallKey) {m : Int} {cs : List Comment}
    (hm : m < key.2.toInt) (hcs : ∀ c ∈ cs, c.index.toInt < key.2.toInt) :
    placesFrom (key :: keys) m cs = cs.map fun c => (c.text, []) := by
  induction cs generalizing m with
  | nil => rfl
  | cons c cs ih =>
    have hmax : max m c.index.toInt < key.2.toInt := max_lt hm (hcs c (by simp))
    rw [placesFrom, List.map_cons, ih hmax fun c' hc' => hcs c' (by simp [hc']),
      List.takeWhile_cons_of_neg (by simpa using max_lt_iff.mp hmax)]

/-- If the first comment waits, all of them do. -/
theorem placesFrom_above {key : CallKey} (keys : List CallKey) {m : Int} {cs : List Comment}
    (hcs : ∀ c ∈ cs.head?, key.2.toInt ≤ max m c.index.toInt) :
    placesFrom (key :: keys) m cs = (placesFrom keys m cs).map fun p => (p.1, key :: p.2) := by
  induction cs generalizing m with
  | nil => rfl
  | cons c cs ih =>
    have hkey : key.2.toInt ≤ max m c.index.toInt := hcs c (by simp)
    rw [placesFrom, placesFrom, List.map_cons, ih fun _ _ => hkey.trans (le_max_left _ _),
      List.takeWhile_cons_of_pos (by simpa using le_max_iff.mp hkey)]

theorem foldl_max_lt {m top : Int} {cs : List Comment} (hm : m < top)
    (hcs : ∀ c ∈ cs, c.index.toInt < top) : cs.foldl (fun m c => max m c.index.toInt) m < top := by
  induction cs generalizing m with
  | nil => exact hm
  | cons c cs ih => exact ih (max_lt hm (hcs c (by simp))) fun c' hc' => hcs c' (by simp [hc'])

/-- What a call does: the comments in front that are below its index come
before it, the others wait. -/
theorem placesFrom_cons (key : CallKey) (keys : List CallKey) {m : Int} {cs : List Comment}
    (hm : ∀ c ∈ cs.head?, m ≤ c.index.toInt) :
    ∃ m', (∀ c ∈ (cs.dropWhile fun c => decide (c.index.toInt < key.2.toInt)).head?,
        m' ≤ c.index.toInt) ∧
      placesFrom (key :: keys) m cs
        = (cs.takeWhile fun c => decide (c.index.toInt < key.2.toInt)).map (fun c => (c.text, []))
          ++ (placesFrom keys m' (cs.dropWhile fun c => decide (c.index.toInt < key.2.toInt))).map
            fun p => (p.1, key :: p.2) := by
  set front := cs.takeWhile fun c => decide (c.index.toInt < key.2.toInt) with hfront
  set waiting := cs.dropWhile fun c => decide (c.index.toInt < key.2.toInt) with hwaiting
  have hsplit : cs = front ++ waiting := (List.takeWhile_append_dropWhile ..).symm
  have hbelow : ∀ c ∈ front, c.index.toInt < key.2.toInt := fun c hc => by
    simpa using List.mem_takeWhile_imp hc
  have habove : ∀ c ∈ waiting.head?, key.2.toInt ≤ c.index.toInt := by
    intro c hc
    have hnot := List.head?_dropWhile_not (fun c => decide (c.index.toInt < key.2.toInt)) cs
    rw [← hwaiting, Option.mem_def.mp hc] at hnot
    simpa using hnot
  cases hcase : front with
  | nil =>
    have hcs : cs = waiting := by rw [hsplit, hcase, List.nil_append]
    refine ⟨m, fun c hc => hm c (hcs ▸ hc), ?_⟩
    rw [hcs, List.map_nil, List.nil_append]
    exact placesFrom_above keys fun c hc => (habove c hc).trans (le_max_right _ _)
  | cons c₀ front' =>
    have hlt : m < key.2.toInt := by
      have hfirst := hm c₀ (by rw [hsplit, hcase]; simp)
      exact hfirst.trans_lt (hbelow c₀ (by rw [hcase]; simp))
    refine ⟨front.foldl (fun m c => max m c.index.toInt) m, fun c hc => ?_, ?_⟩
    · exact (foldl_max_lt hlt hbelow).le.trans (habove c hc)
    · rw [← hcase]
      conv_lhs => rw [hsplit]
      rw [placesFrom_append, placesFrom_below keys hlt hbelow, placesFrom_above keys fun c hc =>
        (habove c hc).trans (le_max_right _ _)]

/-- With the indices of a log every comment waits for itself alone. -/
theorem placesFrom_eq (keys : List CallKey) {m : Int} {cs : List Comment}
    (h : cs.Pairwise fun c c' => c.index.toInt ≤ max m c'.index.toInt) :
    placesFrom keys m cs = cs.map fun c =>
      (c.text, keys.takeWhile fun key => decide (key.2.toInt ≤ max m c.index.toInt)) := by
  induction cs generalizing m with
  | nil => rfl
  | cons c cs ih =>
    obtain ⟨hc, hcs⟩ := List.pairwise_cons.mp h
    have hmore : cs.Pairwise fun c₁ c₂ =>
        c₁.index.toInt ≤ max (max m c.index.toInt) c₂.index.toInt :=
      hcs.imp fun h₁ => h₁.trans (max_le_max (le_max_left _ _) (le_refl _))
    rw [placesFrom, ih hmore, List.map_cons]
    congr 1
    refine List.map_congr_left fun c' hc' => ?_
    -- the maximum with the index in front is reached by the later comment
    rw [max_assoc, max_left_comm, max_eq_right (hc c' hc')]

theorem pieceMarks_append (rd : Rd w) (ps qs : List Piece) :
    pieceMarks rd (ps ++ qs) = pieceMarks rd ps ++ pieceMarks rd qs := List.filterMap_append

theorem pieceMarks_comments (rd : Rd w) (texts : List Str) :
    pieceMarks rd (texts.map Piece.comment) = texts.map Mark.comment := by
  induction texts with
  | nil => rfl
  | cons text texts ih =>
    rw [List.map_cons, List.map_cons, ← ih]
    rfl

/-- The block of a call has the limit and the mark of the call. -/
theorem callBlock_shape {rd : Rd w} {clock : Nat → BitVec 32} {call : Nat} {b : Block}
    (h : callBlock rd clock call = some b) :
    ∃ c, rd.fcall call = some c ∧ b.limit = some c.data.index.toInt ∧
      pieceMarks rd b.pieces = [.call (c.data.timestamp, c.data.index)] := by
  simp only [callBlock, Option.bind_eq_bind, Option.bind_eq_some_iff, Option.some.injEq] at h
  obtain ⟨c, hc, record, -, text, -, rfl⟩ := h
  refine ⟨c, hc, rfl, ?_⟩
  have hkey : fcallKey rd call = some (c.data.timestamp, c.data.index) := by rw [fcallKey, hc]; rfl
  have hmark : pieceMark rd (.call call text)
      = some (.call (c.data.timestamp, c.data.index)) := by
    rw [pieceMark, hkey]
    rfl
  rw [pieceMarks, List.filterMap_cons_some hmark]
  cases c.args <;> rfl

/-- The blocks of a call: the first one waits for the comments and has the
mark of the call, a backtrace has neither. -/
theorem plainBlocks_shape {rd : Rd w} {clock : Nat → BitVec 32} {call : Nat} {blocks : List Block}
    (h : plainBlocks rd clock call = some blocks) :
    ∃ key b others, fcallKey rd call = some key ∧ blocks = b :: others ∧
      b.limit = some key.2.toInt ∧ pieceMarks rd b.pieces = [.call key] ∧
      ∀ b' ∈ others, b'.limit = none ∧ pieceMarks rd b'.pieces = [] := by
  simp only [plainBlocks, Option.bind_eq_bind, Option.bind_eq_some_iff] at h
  obtain ⟨b, hb, c, hc, h⟩ := h
  obtain ⟨c', hc', hlimit, hmarks⟩ := callBlock_shape hb
  obtain rfl := Option.some.inj (hc.symm.trans hc')
  have hkey : fcallKey rd call = some (c.data.timestamp, c.data.index) := by rw [fcallKey, hc]; rfl
  cases htrace : c.trace with
  | none =>
    rw [htrace] at h
    obtain rfl := Option.some.inj h
    exact ⟨_, _, _, hkey, rfl, hlimit, hmarks, by simp⟩
  | some trace =>
    rw [htrace] at h
    simp only [Option.bind_eq_some_iff, Option.some.injEq] at h
    obtain ⟨p, hp, rfl⟩ := h
    refine ⟨_, _, _, hkey, rfl, hlimit, hmarks, fun b' hb' => ?_⟩
    simp only [writeTrace, Option.bind_eq_bind, Option.bind_eq_some_iff, Option.some.injEq] at hp
    obtain ⟨t, -, text, -, rfl⟩ := hp
    rw [List.mem_singleton.mp hb']
    exact ⟨rfl, rfl⟩

/-- Blocks without a limit and without marks do not count. -/
theorem interleave_unmarked {rd : Rd w} {others blocks : List Block} {comment rest : List Comment}
    {pieces : List Piece} (hothers : ∀ b ∈ others, b.limit = none ∧ pieceMarks rd b.pieces = [])
    (h : interleave comment (others ++ blocks) = some (pieces, rest)) :
    ∃ pieces', interleave comment blocks = some (pieces', rest) ∧
      pieceMarks rd pieces = pieceMarks rd pieces' := by
  induction others generalizing pieces with
  | nil => exact ⟨pieces, h, rfl⟩
  | cons b others ih =>
    obtain ⟨hlimit, hmarks⟩ := hothers b (by simp)
    simp only [List.cons_append, interleave, Block.comments, hlimit, Option.bind_eq_bind,
      Option.bind_some, Option.bind_eq_some_iff, Prod.exists, Option.some.injEq,
      Prod.mk.injEq] at h
    obtain ⟨pieces₁, rest₁, hrest, rfl, rfl⟩ := h
    obtain ⟨pieces', hrest', hmarks'⟩ := ih (fun b' hb' => hothers b' (by simp [hb'])) hrest
    refine ⟨pieces', hrest', ?_⟩
    rw [List.nil_append, pieceMarks_append, hmarks, hmarks', List.nil_append]

theorem placesFrom_nil (m : Int) (cs : List Comment) :
    placesFrom [] m cs = cs.map fun c => (c.text, []) := by
  induction cs generalizing m with
  | nil => rfl
  | cons c cs ih => rw [placesFrom, ih, List.map_cons, List.takeWhile_nil]

theorem markKeys_comments (texts : List Str) : markKeys (texts.map .comment) = [] := by
  induction texts with
  | nil => rfl
  | cons text texts ih => exact ih

/-- Comments that are printed in a row. -/
theorem printed_places (seen : List CallKey) {cs : List Comment} {texts : List Str}
    (h : (cs.mapM fun c => printFormat c.text) = some texts) :
    List.Forall₂ (fun p q => printFormat q.1 = some p.1 ∧ p.2 = seen ++ q.2)
      (texts.map fun text => (text, seen)) (cs.map fun c => (c.text, ([] : List CallKey))) := by
  rw [List.forall₂_map_left_iff, List.forall₂_map_right_iff]
  exact (mapM_eq_some_iff.mp h).flip.imp fun text c hc => ⟨hc, (List.append_nil seen).symm⟩

/-- **Where the writer puts the comments**: each in front of the first call
whose index is above its own and those before it. -/
theorem interleave_places {rd : Rd w} {clock : Nat → BitVec 32} {top : Int} :
    ∀ (seen : List CallKey) {calls : List Nat} {groups : List (List Block)} {keys : List CallKey}
      {m : Int} {cs : List Comment} {pieces : List Piece} {rest : List Comment},
      List.Forall₂ (fun call blocks => plainBlocks rd clock call = some blocks) calls groups →
      List.Forall₂ (fun call key => fcallKey rd call = some key) calls keys →
      (∀ c ∈ cs, c.index.toInt < top) → (∀ c ∈ cs.head?, m ≤ c.index.toInt) →
      interleave cs (groups.flatten ++ [{ limit := some top, pieces := [] }]) = some (pieces, rest) →
      List.Forall₂ (fun p q => printFormat q.1 = some p.1 ∧ p.2 = seen ++ q.2)
        (commentPlaces seen (pieceMarks rd pieces)) (placesFrom keys m cs) ∧
      markKeys (pieceMarks rd pieces) = keys
  | seen, [], _, _, m, cs, pieces, rest, .nil, .nil, htop, _, h => by
      rw [List.flatten_nil, List.nil_append, interleave_one] at h
      have hall : (cs.takeWhile fun c => decide (c.index.toInt < top)) = cs :=
        List.takeWhile_eq_self_iff.mpr fun c hc => by simpa using htop c hc
      simp only [Block.comments, writeComments_eq, hall, Option.map_map, Option.map_eq_some_iff,
        Function.comp_apply, List.append_nil, Prod.mk.injEq] at h
      obtain ⟨texts, htexts, rfl, -⟩ := h
      rw [pieceMarks_comments, commentPlaces_comments, placesFrom_nil]
      exact ⟨printed_places seen htexts, markKeys_comments texts⟩
  | seen, call :: calls, _, _, m, cs, pieces, rest, .cons hblocks hgroups, .cons hkey hkeys, htop,
      hm, h => by
      rename_i groups' key keys'
      obtain ⟨key', b, others, hkey', rfl, hlimit, hmarks, hothers⟩ := plainBlocks_shape hblocks
      obtain rfl := Option.some.inj (hkey.symm.trans hkey')
      rw [List.flatten_cons, List.append_assoc, List.cons_append, interleave, Block.comments,
        hlimit] at h
      simp only [writeComments_eq, Option.bind_eq_bind, Option.bind_eq_some_iff,
        Option.map_eq_some_iff, Prod.exists, Option.some.injEq, Prod.mk.injEq] at h
      obtain ⟨_, _, ⟨texts, htexts, rfl, rfl⟩, pieces', rest', hmore, rfl, rfl⟩ := h
      obtain ⟨pieces'', hmore', hmarks'⟩ := interleave_unmarked hothers hmore
      obtain ⟨m', hm', hplaces⟩ := placesFrom_cons key keys' hm
      obtain ⟨hrest, hkeysRest⟩ := interleave_places (seen ++ [key]) hgroups hkeys
        (fun c hc => htop c ((List.dropWhile_sublist _).subset hc)) hm' hmore'
      have hpieces : pieceMarks rd (texts.map Piece.comment ++ b.pieces ++ pieces')
          = texts.map Mark.comment ++ .call key :: pieceMarks rd pieces'' := by
        rw [pieceMarks_append, pieceMarks_append, pieceMarks_comments, hmarks, hmarks',
          List.append_assoc]
        rfl
      rw [hpieces, hplaces, commentPlaces_append, commentPlaces_comments, markKeys_comments,
        List.append_nil, commentPlaces]
      refine ⟨List.rel_append (printed_places seen htexts) ?_, ?_⟩
      · rw [List.forall₂_map_right_iff]
        exact hrest.imp fun p q hpq => ⟨hpq.1, by rw [hpq.2, List.append_assoc]; rfl⟩
      · rw [markKeys, List.filterMap_append, ← markKeys, markKeys_comments, List.nil_append]
        show key :: markKeys (pieceMarks rd pieces'') = _
        rw [hkeysRest]

/-! ## Which comes first -/

section Order

variable {α : Type} {a b : α}

/-- Of two entries one comes first. -/
theorem pair_sublist_total {l : List α} (ha : a ∈ l) (hb : b ∈ l) (hne : a ≠ b) :
    [a, b].Sublist l ∨ [b, a].Sublist l := by
  induction l with
  | nil => cases ha
  | cons c l ih =>
    rcases List.mem_cons.mp ha with rfl | ha'
    · have hb' : b ∈ l := (List.mem_cons.mp hb).resolve_left (Ne.symm hne)
      exact .inl ((List.singleton_sublist.mpr hb').cons_cons a)
    · rcases List.mem_cons.mp hb with rfl | hb'
      · exact .inr ((List.singleton_sublist.mpr ha').cons_cons b)
      · exact (ih ha' hb').imp (·.cons c) (·.cons c)

/-- Without repetition only one of them does. -/
theorem pair_sublist_asymm {l : List α} (hnd : l.Nodup) (hab : [a, b].Sublist l) :
    ¬ [b, a].Sublist l := by
  induction l with
  | nil => cases hab
  | cons c l ih =>
    obtain ⟨hc, hl⟩ := List.nodup_cons.mp hnd
    intro hba
    cases hab with
    | cons _ hab =>
      cases hba with
      | cons _ hba => exact ih hl hab hba
      | cons_cons _ hba => exact hc (hab.subset (by simp))
    | cons_cons _ hab =>
      cases hba with
      | cons _ hba => exact hc (hba.subset (by simp))
      | cons_cons _ hba => exact hc (List.singleton_sublist.mp hab)

/-- What is taken from the front comes before what is not. -/
theorem pair_sublist_takeWhile {l : List α} {p : α → Bool} (ha : a ∈ l.takeWhile p) (hb : b ∈ l)
    (hnot : b ∉ l.takeWhile p) : [a, b].Sublist l := by
  have hsplit : l.takeWhile p ++ l.dropWhile p = l := List.takeWhile_append_dropWhile
  have hb' : b ∈ l.dropWhile p := by
    rw [← hsplit] at hb
    exact (List.mem_append.mp hb).resolve_left hnot
  rw [← hsplit]
  exact (List.singleton_sublist.mpr ha).append (List.singleton_sublist.mpr hb')

/-- An entry that is not taken from the front is the one that stops the
taking, or comes behind it. -/
theorem takeWhile_stops {l : List α} {p : α → Bool} (ha : a ∈ l) (hnot : a ∉ l.takeWhile p) :
    ∃ b ∈ l, p b = false ∧ (a = b ∨ [b, a].Sublist l) := by
  have hsplit : l.takeWhile p ++ l.dropWhile p = l := List.takeWhile_append_dropWhile
  have ha' : a ∈ l.dropWhile p := by
    rw [← hsplit] at ha
    exact (List.mem_append.mp ha).resolve_left hnot
  have hstop := List.head?_dropWhile_not p l
  cases hrest : l.dropWhile p with
  | nil => rw [hrest] at ha'; cases ha'
  | cons b rest =>
    have hb : p b = false := by simpa [hrest] using hstop
    have hsub : (b :: rest).Sublist l := by rw [← hrest]; exact List.dropWhile_sublist p
    refine ⟨b, hsub.subset (by simp), hb, ?_⟩
    rw [hrest] at ha'
    rcases List.mem_cons.mp ha' with rfl | ha'
    · exact .inl rfl
    · exact .inr (((List.singleton_sublist.mpr ha').cons_cons b).trans hsub)

end Order

/-! ## When the place is right -/

/-- The index of the first call if it is in front of all comments, and
otherwise the one the reader starts with. -/
def firstIndex : List Mark → Int
  | .call key :: _ => key.2.toInt
  | _ => 0

/-- A comment stands before all calls. -/
def Leading (marks : List Mark) : Prop := ∃ text, marks.head? = some (.comment text)

theorem Leading.firstIndex {marks : List Mark} (h : Leading marks) : firstIndex marks = 0 := by
  obtain ⟨text, hhead⟩ := h
  cases marks with
  | nil => rfl
  | cons mark marks =>
    rw [List.head?_cons, Option.some.injEq] at hhead
    rw [hhead]
    rfl

/-- The calls that are written before a comment at the given place. -/
def writtenBefore (marks : List Mark) (left place : List CallKey) : List CallKey :=
  left.takeWhile fun key => decide (key.2.toInt ≤ max (firstIndex marks) (lastIndex 0 place).toInt)

/-- Calls in front of a comment that stands before all calls have a positive
index, and two calls with a comment between them are in the order of the
log. -/
structure InPlace (marks : List Mark) (left : List CallKey) : Prop where
  leading : Leading marks → ∀ key ∈ left.head?, 0 < key.2.toInt
  inOrder : ∀ p ∈ commentPlaces [] marks, ∀ key ∈ left, ∀ key' ∈ left,
    key ∈ p.2 → key' ∉ p.2 → [key, key'].Sublist left

section Places

variable {marks : List Mark} {p : Str × List CallKey}

/-- The places of a log with increasing indices: what is before the comment
has an index up to the last one, what is behind it has a greater one. -/
theorem commentPlaces_index (hinc : (markKeys marks).Pairwise fun k k' => k.2.toInt < k'.2.toInt)
    (hp : p ∈ commentPlaces [] marks) {key : CallKey} (hkey : key ∈ markKeys marks) :
    (key ∈ p.2 → key.2.toInt ≤ (lastIndex 0 p.2).toInt) ∧
    (key ∉ p.2 → p.2 ≠ [] → (lastIndex 0 p.2).toInt < key.2.toInt) := by
  obtain ⟨behind, hsplit⟩ := commentPlaces_front hp
  rw [List.nil_append] at hsplit
  rw [← hsplit] at hinc hkey
  obtain ⟨hbefore, -, hacross⟩ := List.pairwise_append.mp hinc
  cases hlast : p.2.getLast? with
  | none =>
    have hnil : p.2 = [] := List.getLast?_eq_none_iff.mp hlast
    rw [hnil]
    exact ⟨fun hmem => absurd hmem List.not_mem_nil, fun _ hne => absurd rfl hne⟩
  | some last =>
    have hindex : lastIndex 0 p.2 = last.2 := by rw [lastIndex, hlast]; rfl
    rw [hindex]
    refine ⟨fun hmem => ?_, fun hnot _ => ?_⟩
    · obtain ⟨front, hfront⟩ := List.getLast?_eq_some_iff.mp hlast
      rw [hfront] at hmem hbefore
      rcases List.mem_append.mp hmem with hmem | hmem
      · exact ((List.pairwise_append.mp hbefore).2.2 key hmem last (by simp)).le
      · rw [List.mem_singleton.mp hmem]
    · exact hacross last (List.mem_of_getLast? hlast) key
        ((List.mem_append.mp hkey).resolve_left hnot)

/-- Without a comment before all calls every place has the first call. -/
theorem commentPlaces_started (h : ¬ Leading marks)
    (hinc : (markKeys marks).Pairwise fun k k' => k.2.toInt < k'.2.toInt)
    (hp : p ∈ commentPlaces [] marks) :
    p.2 ≠ [] ∧ firstIndex marks ≤ (lastIndex 0 p.2).toInt := by
  cases marks with
  | nil => cases hp
  | cons mark marks =>
    cases mark with
    | comment text => exact absurd ⟨text, rfl⟩ h
    | call key =>
      have hmem : key ∈ p.2 := by
        obtain ⟨more, hmore⟩ := commentPlaces_seen (show p ∈ commentPlaces [key] marks from hp)
        rw [← hmore]
        simp
      exact ⟨List.ne_nil_of_mem hmem,
        (commentPlaces_index hinc hp (by simp [markKeys, Mark.key?])).1 hmem⟩

/-- **When the comments come out in their places.** -/
theorem writtenBefore_iff (hinc : (markKeys marks).Pairwise fun k k' => k.2.toInt < k'.2.toInt)
    {left : List CallKey} (hleft : ∀ key ∈ left, key ∈ markKeys marks) (hnd : left.Nodup) :
    (∀ p ∈ commentPlaces [] marks, ∀ key ∈ left, key ∈ writtenBefore marks left p.2 ↔ key ∈ p.2) ↔
      InPlace marks left := by
  have hwritten : ∀ {p : Str × List CallKey} {key : CallKey}, key ∈ writtenBefore marks left p.2 →
      key.2.toInt ≤ max (firstIndex marks) (lastIndex 0 p.2).toInt := fun hmem => by
    simpa using List.mem_takeWhile_imp hmem
  constructor
  · intro h
    refine ⟨fun ⟨text, hhead⟩ key hkey => ?_, fun p hp key hk key' hk' hbefore hbehind => ?_⟩
    · -- the first call would be written before the first comment
      obtain ⟨marks', rfl⟩ : ∃ marks', marks = .comment text :: marks' := by
        cases marks with
        | nil => cases hhead
        | cons mark marks' => exact ⟨marks', by rw [Option.some.inj hhead]⟩
      by_contra hnot
      obtain ⟨left', rfl⟩ : ∃ left', left = key :: left' := by
        cases left with
        | nil => cases hkey
        | cons k left' => exact ⟨left', by rw [Option.some.inj hkey]⟩
      have hplace := h (text, []) (List.mem_cons_self ..) key (by simp)
      have hmem : key ∈ writtenBefore (.comment text :: marks') (key :: left') [] := by
        rw [writtenBefore, List.takeWhile_cons_of_pos]
        · simp
        · simpa [firstIndex, lastIndex] using not_lt.mp hnot
      exact absurd (hplace.mp hmem) List.not_mem_nil
    · exact pair_sublist_takeWhile ((h p hp key hk).mpr hbefore) hk'
        fun hmem => hbehind ((h p hp key' hk').mp hmem)
  · intro ⟨hleading, horder⟩ p hp key hk
    have hindex := commentPlaces_index hinc hp (hleft key hk)
    constructor
    · intro hmem
      by_contra hbehind
      have hle := hwritten hmem
      by_cases hlead : Leading marks
      · -- the comment waits for index 1, and that is the first call that is written
        have hzero := hlead.firstIndex
        have hmax : max (firstIndex marks) (lastIndex 0 p.2).toInt ≤ 0 := by
          by_cases hnil : p.2 = []
          · rw [hzero, hnil]
            decide
          · have hgt := hindex.2 hbehind hnil
            omega
        cases left with
        | nil => cases hk
        | cons first left =>
          have hpos := hleading hlead first (by simp)
          have hgt : ¬ first.2.toInt ≤ max (firstIndex marks) (lastIndex 0 p.2).toInt :=
            not_le.mpr (hmax.trans_lt hpos)
          rw [writtenBefore, List.takeWhile_cons_of_neg (decide_eq_false hgt ▸ Bool.false_ne_true)]
            at hmem
          cases hmem
      · obtain ⟨hne, hfirst⟩ := commentPlaces_started hlead hinc hp
        have hgt := hindex.2 hbehind hne
        omega
    · intro hbefore
      by_contra hnot
      -- what stops the writing is behind the comment
      obtain ⟨key', hk', hstop, hkey'⟩ := takeWhile_stops hk hnot
      have hgt : (lastIndex 0 p.2).toInt < key'.2.toInt := by
        have : max (firstIndex marks) (lastIndex 0 p.2).toInt < key'.2.toInt := by
          simpa using hstop
        omega
      have hbehind' : key' ∉ p.2 := fun hmem => by
        have := (commentPlaces_index hinc hp (hleft key' hk')).1 hmem
        omega
      rcases hkey' with rfl | hkey'
      · exact hbehind' hbefore
      · exact pair_sublist_asymm hnd hkey' (horder p hp key hk key' hk' hbefore hbehind')

/-- No comment in front waits for less. -/
theorem firstIndex_le (hinc : (markKeys marks).Pairwise fun k k' => k.2.toInt < k'.2.toInt) :
    ∀ c ∈ (markComments 0 marks).head?, firstIndex marks ≤ c.index.toInt := by
  intro c hc
  cases marks with
  | nil => cases hc
  | cons mark rest =>
    cases mark with
    | comment text =>
      obtain rfl := Option.some.inj hc
      exact le_refl 0
    | call key =>
      have hmem : c ∈ markComments key.2 rest := List.mem_of_mem_head? hc
      rcases markComments_index hmem with heq | ⟨key', hkey', heq⟩
      · exact (congrArg BitVec.toInt heq).ge
      · rw [heq]
        exact ((List.pairwise_cons.mp hinc).1 key' hkey').le

/-- What the writer does with the comments of the reader. -/
theorem placesFrom_markComments (left : List CallKey)
    (hinc : (markKeys marks).Pairwise fun k k' => k.2.toInt < k'.2.toInt) :
    placesFrom left (firstIndex marks) (markComments 0 marks)
      = (commentPlaces [] marks).map fun p => (p.1, writtenBefore marks left p.2) := by
  have hpairwise : (markComments 0 marks).Pairwise fun c c' =>
      c.index.toInt ≤ max (firstIndex marks) c'.index.toInt := by
    cases marks with
    | nil => exact .nil
    | cons mark rest =>
      cases mark with
      | comment text => exact markComments_pairwise 0 _ (.inl (le_refl 0)) hinc
      | call key => exact markComments_pairwise key.2 rest (.inl (le_refl _)) hinc.of_cons
  rw [placesFrom_eq left hpairwise]
  refine forall₂_map_eq (markComments_places 0 [] marks) fun c p hc => ?_
  rw [writtenBefore, hc.1, hc.2]

/-- The output has the comments in their places exactly if they are in
place. -/
theorem commentsPlaced_iff (hinc : (markKeys marks).Pairwise fun k k' => k.2.toInt < k'.2.toInt)
    {left : List CallKey} (hleft : ∀ key ∈ left, key ∈ markKeys marks) (hnd : left.Nodup)
    {output : List Mark} (hcalls : markKeys output = left)
    (hout : List.Forall₂ (fun p q => printFormat q.1 = some p.1 ∧ p.2 = [] ++ q.2)
      (commentPlaces [] output) (placesFrom left (firstIndex marks) (markComments 0 marks))) :
    CommentsPlaced marks left output ↔ InPlace marks left := by
  rw [placesFrom_markComments left hinc, List.forall₂_map_right_iff] at hout
  rw [← writtenBefore_iff hinc hleft hnd]
  constructor
  · intro h q hq key hkey
    obtain ⟨p, -, ⟨-, hwritten⟩, -, hplaced⟩ :=
      forall₂_mem_right (List.Forall₂.mp (fun _ _ => And.intro) hout h.comments) hq
    rw [← hplaced key hkey, hwritten, List.nil_append]
  · intro h
    refine ⟨hcalls, forall₂_imp_mem hout fun p hp q hq hpq => ⟨hpq.1, fun key hkey => ?_⟩⟩
    rw [hpq.2]
    exact h q hq key hkey

end Places

/-! ## From the log to the store -/

namespace LogState

def keys (a : LogState w) : List CallKey := (a.done ++ a.pend).map LogCall.key

theorem setLastArgs_keys (args : List Farg) :
    ∀ calls : List (LogCall w), (setLastArgs args calls).map LogCall.key = calls.map LogCall.key
  | [] => rfl
  | [_] => rfl
  | c :: d :: calls => by
      rw [setLastArgs, List.map_cons, setLastArgs_keys args (d :: calls)]
      rfl

theorem settle_keys (a : LogState w) (frames : List (Frame w)) : (a.settle frames).keys = a.keys := by
  have hpend : (a.pend.map fun c => { c with frames := some (sharedFrames a.done frames) }).map
      LogCall.key = a.pend.map LogCall.key := by
    rw [List.map_map]
    rfl
  simp only [keys, settle, List.append_nil, List.map_append, hpend]

@[simp] theorem flushArgs_keys (a : LogState w) : a.flushArgs.keys = a.keys := by
  unfold flushArgs
  split
  · rfl
  · simp only [keys, List.map_append, setLastArgs_keys]

@[simp] theorem flushBacktrace_keys (a : LogState w) : a.flushBacktrace.keys = a.keys := by
  unfold flushBacktrace
  split
  · exact settle_keys a a.bt
  · rfl

@[simp] theorem settleEmpty_keys (a : LogState w) : a.settleEmpty.keys = a.keys := by
  unfold settleEmpty
  split
  · rfl
  · exact settle_keys a []

@[simp] theorem endGroup_keys (a : LogState w) : a.endGroup.keys = a.keys := by
  unfold endGroup
  split
  · rfl
  · exact settle_keys a a.bt

theorem addRecord_keys (junk : Nat → Context w) (a : LogState w) (line : Str) (rec : Record w) :
    (a.addRecord junk line rec).keys = a.keys := by
  unfold addRecord
  cases rec with
  | resource res =>
    simp only
    split <;> rfl
  | _ => rfl

/-- What a line adds to the calls. -/
theorem step_keys (junk : Nat → Context w) (a : LogState w) {line : Str} {ev : LogEvent w}
    (hev : lineEvent w line = some ev) :
    (a.step junk ev).keys = a.keys ++ markKeys (lineMark w line).toList := by
  cases ev with
  | skip => simp [step, lineMark, hev, markKeys]
  | blank => simp [step, lineMark, hev, markKeys]
  | frame frame =>
    have hkeep : (a.step junk (.frame frame)).keys = a.keys := by
      unfold step
      simp only
      split <;> rfl
    simp [hkeep, lineMark, hev, markKeys]
  | arg arg =>
    have hkeep : (a.step junk (.arg arg)).keys = a.keys := by
      unfold step
      simp only
      split <;> rfl
    simp [hkeep, lineMark, hev, markKeys]
  | call call =>
    have hadd : ∀ b : LogState w,
        (b.addCall call).keys = b.keys ++ [(call.timestamp, call.index)] := fun b => by
      simp [keys, addCall, LogCall.key]
    simp [step, hadd, lineMark, hev, markKeys, Mark.key?]
  | record rec line' =>
    have hkeep : (a.step junk (.record rec line')).keys = a.keys := by
      rw [step, addRecord_keys, settleEmpty_keys, flushBacktrace_keys, flushArgs_keys]
    have hmark : markKeys (lineMark w line).toList = [] := by
      unfold lineMark
      rw [hev]
      cases rec <;> rfl
    rw [hkeep, hmark, List.append_nil]

/-- The calls of a run. -/
theorem run_keys (junk : Nat → Context w) {lines : List Str} {evs : List (LogEvent w)}
    (hevs : List.Forall₂ (fun line ev => lineEvent w line = some ev) lines evs) (a : LogState w) :
    (a.run junk evs).keys = a.keys ++ markKeys (lines.filterMap (lineMark w)) := by
  induction hevs generalizing a with
  | nil => simp [run, markKeys]
  | @cons line ev lines evs hev _ ih =>
    have hrest := ih (a.step junk ev)
    rw [step_keys junk a hev, List.append_assoc] at hrest
    have hmarks : (line :: lines).filterMap (lineMark w)
        = (lineMark w line).toList ++ lines.filterMap (lineMark w) := by
      cases hmark : lineMark w line <;> simp [hmark]
    rw [hmarks, markKeys, List.filterMap_append]
    exact hrest

end LogState

/-- The key of a stored call is that of the call of the log. -/
theorem fcallKey_of_view {rd : Rd w} {call : Nat} {v : LogCall w} (h : callView rd call = some v) :
    fcallKey rd call = some v.key := by
  obtain ⟨c, res, frames, hc, -, -, rfl⟩ := callView_eq_some.mp h
  rw [fcallKey, hc]
  rfl

/-- Where every call has a key, the keys are those of the calls. -/
theorem filterMap_of_forall₂ {α β : Type} {f : α → Option β} {l : List α} {r : List β}
    (h : List.Forall₂ (fun a b => f a = some b) l r) : l.filterMap f = r := by
  induction h with
  | nil => rfl
  | cons hab _ ih => rw [List.filterMap_cons_some hab, ih]

/-- **The reader sorts the calls of the log.** -/
theorem readTextData_keys {mktime : List (BitVec 32) → Int} {junk : Nat → Context w} {text : Str}
    {rd : Rd w} (h : readTextData mktime junk rdCreate text = some rd) :
    dlistSort compareKeys (markKeys (logMarks w text)) = some (storeKeys rd) := by
  rcases readTextData_log h with ⟨hnil, rfl⟩ |
    ⟨header, lines, rd₀, evs, st, done, hlines, -, hevs, hsort, rfl, hshows⟩
  · rw [logMarks, hnil]
    rfl
  · have hkeys : (textLog junk rd₀ evs).keys = markKeys (logMarks w text) := by
      rw [textLog, LogState.finish, LogState.endGroup_keys, LogState.flushArgs_keys,
        LogState.run_keys junk hevs, logMarks, hlines]
      rfl
    have hdone : (textLog junk rd₀ evs).done.map LogCall.key = markKeys (logMarks w text) := by
      rw [← hkeys, LogState.keys, textLog, LogState.finish_pend, List.append_nil]
    have hstore : storeKeys st.rd = done.map LogCall.key := by
      have hcalls := hshows.calls
      rw [show ({ textLog junk rd₀ evs with done } : LogState w).pend = [] from
        LogState.finish_pend _, List.append_nil] at hcalls
      refine filterMap_of_forall₂ ?_
      rw [List.forall₂_map_right_iff]
      exact hcalls.imp fun c v hv => fcallKey_of_view hv
    rw [hstore, ← hdone, dlistSort_map, show (fun a b : LogCall w => compareKeys a.key b.key)
      = compareLogCalls from rfl, hsort]
    rfl

/-- Calls with rising indices are no more than there are indices. -/
theorem readTextData_counted {mktime : List (BitVec 32) → Int} {junk : Nat → Context w} {text : Str}
    {rd : Rd w} (h : readTextData mktime junk rdCreate text = some rd) (hwhole : rd.Whole)
    (hinc : (markKeys (logMarks w text)).Pairwise fun k k' => k.2.toInt < k'.2.toInt) :
    rd.Counted := by
  have hnd : ((markKeys (logMarks w text)).map Prod.snd).Nodup :=
    List.pairwise_map.mpr (hinc.imp fun {k k'} hlt heq => by rw [heq] at hlt; omega)
  have hlen := hnd.length_le_card
  rw [List.length_map, ← FinEnum.card_eq_fintypeCard, FinEnum.card_bitVec,
    (dlistSort_perm (readTextData_keys h)).length_eq.symm] at hlen
  have hcalls : (storeKeys rd).length = rd.calls.length := by
    have hkeys : List.Forall₂ (fun c k => fcallKey rd c = some k) rd.calls (storeKeys rd) := by
      rw [storeKeys]
      have hlive := hwhole.call_live
      generalize rd.calls = calls at hlive
      induction calls with
      | nil => exact .nil
      | cons c calls ih =>
        obtain ⟨x, hx⟩ := hlive c (by simp)
        have hkey : fcallKey rd c = some (x.data.timestamp, x.data.index) := by
          rw [fcallKey, hx, Option.map_some]
        rw [List.filterMap_cons_some hkey]
        exact .cons hkey (ih fun d hd => hlive d (by simp [hd]))
    exact hkeys.length_eq.symm
  exact hwhole.toLinked.counted (hcalls ▸ hlen)

/-- Removals take some of the calls. -/
theorem Removal.storeKeys {rd rd' : Rd w} (hint : rd.Integrity) (h : Removal rd rd') :
    (Postproc.storeKeys rd').Sublist (Postproc.storeKeys rd) := by
  obtain ⟨-, hsub, hsame⟩ := h.left hint
  have heq : Postproc.storeKeys rd' = rd'.calls.filterMap (fcallKey rd) := by
    refine List.filterMap_congr fun c hc => ?_
    rw [fcallKey, fcallKey, hsame c hc]
  rw [heq]
  exact hsub.filterMap _

/-! ## Logs that are in order -/

/-- A difference that fits is not cut. -/
theorem toInt_sub_of_close {a b : BitVec 32} (hab : (a.toNat : Int) - b.toNat < 2 ^ 31)
    (hba : (b.toNat : Int) - a.toNat < 2 ^ 31) : (a - b).toInt = (a.toNat : Int) - b.toNat := by
  have ha := a.isLt
  have hb := b.isLt
  rw [BitVec.toInt_eq_toNat_cond, BitVec.toNat_sub]
  split <;> omega

/-- **The sort leaves a log in order**, if the indices are positive and no
two timestamps are 2^31 milliseconds apart. -/
theorem dlistSort_inOrder {keys : List CallKey}
    (hinc : keys.Pairwise fun k k' => k.2.toInt < k'.2.toInt)
    (htime : keys.Pairwise fun k k' => k.1.toNat ≤ k'.1.toNat)
    (hpos : ∀ k ∈ keys, 0 < k.2.toInt)
    (hclose : ∀ k ∈ keys, ∀ k' ∈ keys, (k.1.toNat : Int) - k'.1.toNat < 2 ^ 31) :
    dlistSort compareKeys keys = some keys := by
  have hboth : keys.Pairwise fun k k' => k.2.toInt < k'.2.toInt ∧ k.1.toNat ≤ k'.1.toNat :=
    hinc.and htime
  have hindex : ∀ k ∈ keys, k.2.toInt = k.2.toNat := fun k hk => by
    have := hpos k hk
    rw [BitVec.toInt_eq_toNat_cond] at this ⊢
    split at this <;> omega
  -- whatever is compared, the one in front is less
  have hcompare : ∀ k ∈ keys, ∀ k' ∈ keys, k.2.toInt < k'.2.toInt → k.1.toNat ≤ k'.1.toNat →
      compareKeys k k' < 0 ∧ 0 < compareKeys k' k := by
    intro k hk k' hk' hlt hle
    have hi := hindex k hk
    have hi' := hindex k' hk'
    have hb := k'.2.toInt_lt
    unfold compareKeys
    by_cases heq : k.1 = k'.1
    · rw [if_pos heq, if_pos heq.symm, toInt_sub_of_close (by omega) (by omega),
        toInt_sub_of_close (by omega) (by omega)]
      omega
    · have hne : k.1.toNat ≠ k'.1.toNat := fun h => heq (BitVec.eq_of_toNat_eq h)
      have hc := hclose k hk k' hk'
      have hc' := hclose k' hk' k hk
      rw [if_neg heq, if_neg (Ne.symm heq), toInt_sub_of_close hc hc', toInt_sub_of_close hc' hc]
      omega
  have hself : ∀ k : CallKey, compareKeys k k = 0 := fun k => by
    simp [compareKeys]
  have hord : OrdersBy compareKeys (fun k : CallKey => k.2.toInt) keys := by
    intro k hk k' hk'
    show (compareKeys k k' ≤ 0 ↔ k.2.toInt ≤ k'.2.toInt) ∧
      (compareKeys k k' < 0 ↔ k.2.toInt < k'.2.toInt)
    by_cases heq : k = k'
    · rw [heq, hself]
      simp
    rcases pair_sublist_total hk hk' heq with hside | hside
    · obtain ⟨hlt, hle⟩ := hboth.forall_sublist hside
      have := hcompare k hk k' hk' hlt hle
      omega
    · obtain ⟨hlt, hle⟩ := hboth.forall_sublist hside
      have := hcompare k' hk' k hk hlt hle
      omega
  exact dlistSort_strict hord .rfl hinc

/-! ## Comment placement -/

/-- The plain writer is the interleaving of the calls of the store. -/
theorem writeTraceCalls_plain {rd : Rd w} {opts : WriterOptions} {clock : Nat → BitVec 32}
    {pieces : List Piece} (hplain : opts.compress = false)
    (h : writeTraceCalls rd opts clock = some pieces) :
    ∃ groups rest, List.Forall₂ (fun call blocks => plainBlocks rd clock call = some blocks)
        rd.calls groups ∧
      interleave rd.comments (groups.flatten ++ [lastBlock w]) = some (pieces, rest) := by
  rw [writeTraceCalls_eq, callBlocks, if_neg (by simp [hplain])] at h
  simp only [Option.bind_eq_bind, Option.bind_eq_some_iff, Option.map_eq_some_iff,
    Option.some.injEq] at h
  obtain ⟨_, ⟨groups, hgroups, rfl⟩, ⟨_, rest⟩, hinter, rfl⟩ := h
  exact ⟨groups, rest, mapM_eq_some_iff.mp hgroups, hinter⟩

/-- All calls that are written have keys. -/
theorem storeKeys_of_blocks {rd : Rd w} {clock : Nat → BitVec 32} {groups : List (List Block)}
    (h : List.Forall₂ (fun call blocks => plainBlocks rd clock call = some blocks)
      rd.calls groups) :
    List.Forall₂ (fun call key => fcallKey rd call = some key) rd.calls (storeKeys rd) := by
  rw [storeKeys]
  generalize rd.calls = calls at h
  induction h with
  | nil => exact .nil
  | cons hblocks _ ih =>
    obtain ⟨key, b, others, hkey, -⟩ := plainBlocks_shape hblocks
    rw [List.filterMap_cons_some hkey]
    exact .cons hkey ih

/-- The comments of the output have their places. -/
theorem commentPlaces_texts (rd : Rd w) (seen : List CallKey) (pieces : List Piece) :
    (commentPlaces seen (pieceMarks rd pieces)).map Prod.fst = commentTexts pieces := by
  induction pieces generalizing seen with
  | nil => rfl
  | cons p pieces ih =>
    cases p with
    | comment text => exact congrArg (text :: ·) (ih seen)
    | call call text =>
      cases hkey : fcallKey rd call with
      | none =>
        rw [pieceMarks, List.filterMap_cons_none (by rw [pieceMark, hkey]; rfl)]
        exact ih seen
      | some key =>
        rw [pieceMarks, List.filterMap_cons_some (by rw [pieceMark, hkey]; rfl)]
        exact ih (seen ++ [key])
    | args text => exact ih seen
    | summary leakCount leakSize => exact ih seen
    | trace trace text => exact ih seen

/-- The condition for comment placement: what is written is defined, the
last comments are visible, a call in front of a comment that stands before
all calls has a positive index, and the sort leaves calls with a comment
between them in their order. -/
structure PlacesHold (text : Str) (rd : Rd w) (opts : WriterOptions) (clock : Nat → BitVec 32) :
    Prop where
  formats : ∀ c ∈ logComments w text, ∃ t, printFormat c.text = some t
  visible : w = 32 → ∀ c ∈ logComments w text, c.index ≠ 2147483647
  writable : Writable rd opts clock
  leading : Leading (logMarks w text) → ∀ key ∈ (storeKeys rd).head?, 0 < key.2.toInt
  inOrder : ∀ sorted, dlistSort compareKeys (markKeys (logMarks w text)) = some sorted →
    ∀ p ∈ commentPlaces [] (logMarks w text), ∀ key ∈ storeKeys rd, ∀ key' ∈ storeKeys rd,
      key ∈ p.2 → key' ∉ p.2 → [key, key'].Sublist sorted

/-- The order of the sort is the order of the calls that are left. -/
theorem inPlace_iff {marks : List Mark} {left sorted : List CallKey} (hsub : left.Sublist sorted)
    (hnd : sorted.Nodup) : InPlace marks left ↔
      (Leading marks → ∀ key ∈ left.head?, 0 < key.2.toInt) ∧
      ∀ p ∈ commentPlaces [] marks, ∀ key ∈ left, ∀ key' ∈ left, key ∈ p.2 → key' ∉ p.2 →
        [key, key'].Sublist sorted := by
  constructor
  · intro h
    exact ⟨h.leading, fun p hp key hk key' hk' hin hout =>
      (h.inOrder p hp key hk key' hk' hin hout).trans hsub⟩
  · intro ⟨hleading, horder⟩
    refine ⟨hleading, fun p hp key hk key' hk' hin hout => ?_⟩
    have hne : key ≠ key' := fun heq => hout (heq ▸ hin)
    refine (pair_sublist_total hk hk' hne).resolve_right fun hswap => ?_
    exact pair_sublist_asymm hnd (horder p hp key hk key' hk' hin hout) (hswap.trans hsub)

/-- **Comment placement**: whatever calls were removed, every comment comes
out behind the calls that precede it in the log and before those that
follow it, exactly if the condition holds. -/
theorem writeTraceCalls_places_iff (hw : w = 32 ∨ w = 64) {mktime : List (BitVec 32) → Int}
    {junk : Nat → Context w} {text : Str} {rd rd' : Rd w}
    (hread : readTextData mktime junk rdCreate text = some rd)
    (hinc : (markKeys (logMarks w text)).Pairwise fun k k' => k.2.toInt < k'.2.toInt)
    (hremoval : Removal rd rd') {opts : WriterOptions} (hplain : opts.compress = false)
    (clock : Nat → BitVec 32) :
    (∃ pieces, writeTraceCalls rd' opts clock = some pieces ∧
      CommentsPlaced (logMarks w text) (storeKeys rd') (pieceMarks rd' pieces)) ↔
    PlacesHold text rd' opts clock := by
  have hw' : 32 ≤ w := by omega
  obtain ⟨hwhole, hsize⟩ := readTextLines_whole hread
  have hint := hwhole.integrity (readTextData_counted hread hwhole hinc)
  have hint' := (hremoval.left hint).1
  have hpos : 0 < rd'.ftraces.size := by rw [hremoval.kept.2, hsize]; decide
  have hcomments : rd'.comments = logComments w text :=
    hremoval.kept.1.trans (readTextData_comments hread)
  -- the calls that are left, and the order of the sort
  have hsort := readTextData_keys hread
  have hsub := hremoval.storeKeys hint
  have hperm := dlistSort_perm hsort
  have hnd : (storeKeys rd).Nodup :=
    hperm.nodup_iff.mpr (hinc.imp fun {k k'} hlt heq => by rw [heq] at hlt; omega)
  have hleft : ∀ key ∈ storeKeys rd', key ∈ markKeys (logMarks w text) := fun key hkey =>
    hperm.mem_iff.mp (hsub.subset hkey)
  have hplaced : ∀ {pieces}, writeTraceCalls rd' opts clock = some pieces →
      visibleComments w (logComments w text) = logComments w text →
      (CommentsPlaced (logMarks w text) (storeKeys rd') (pieceMarks rd' pieces) ↔
        InPlace (logMarks w text) (storeKeys rd')) := by
    intro pieces hwrite hvisible
    obtain ⟨groups, rest, hgroups, hinter⟩ := writeTraceCalls_plain hplain hwrite
    rw [hcomments, logComments_eq] at hinter
    have htop : ∀ c ∈ markComments 0 (logMarks w text), c.index.toInt < 2 ^ (w - 1) - 1 := by
      intro c hc
      rw [logComments_eq, visibleComments, List.takeWhile_eq_self_iff] at hvisible
      simpa using hvisible c hc
    obtain ⟨hplaces, hkeys⟩ := interleave_places [] hgroups (storeKeys_of_blocks hgroups) htop
      (firstIndex_le hinc) hinter
    exact commentsPlaced_iff hinc hleft (hsub.nodup hnd) hkeys hplaces
  constructor
  · intro h
    obtain ⟨pieces, hwrite, hplace⟩ := h
    obtain ⟨blocks, hblocks, htexts, -⟩ := writeTraceCalls_spec hw' hwrite
    have hmarks := markComments_places 0 [] (logMarks w text)
    rw [show lastIndex 0 [] = 0 from rfl, ← logComments_eq] at hmarks
    -- as many comments as there are, so all of them are visible
    have hvisible : visibleComments w (logComments w text) = logComments w text := by
      have hlen := (mapM_eq_some_iff.mp htexts).length_eq
      rw [hcomments, ← commentPlaces_texts rd' [], List.length_map, hplace.comments.length_eq,
        ← hmarks.length_eq] at hlen
      exact (List.takeWhile_prefix _).eq_of_length hlen
    obtain ⟨hleading, horder⟩ := (inPlace_iff hsub hnd).mp ((hplaced hwrite hvisible).mp hplace)
    refine
      { formats := fun c hc => ?_, visible := (visibleComments_eq_self hw _).mp hvisible
        writable := (callBlocks_total hint' hpos).mp ⟨blocks, hblocks⟩, leading := hleading
        inOrder := fun sorted hsorted => ?_ }
    · obtain ⟨q, hq, htext, -⟩ := forall₂_mem_left hmarks hc
      obtain ⟨p, -, hprint, -⟩ := forall₂_mem_right hplace.comments hq
      exact ⟨p.1, htext ▸ hprint⟩
    · rw [← Option.some.inj (hsort.symm.trans hsorted)]
      exact horder
  · intro h
    have hvisible := (visibleComments_eq_self hw _).mpr h.visible
    obtain ⟨blocks, hblocks⟩ := (callBlocks_total hint' hpos).mpr h.writable
    have hprint : ∀ c ∈ visibleComments w rd'.comments, ∃ t, printFormat c.text = some t := by
      rw [hcomments, hvisible]
      exact h.formats
    obtain ⟨pieces, hwrite⟩ := writeTraceCalls_total hw' hblocks hprint
    exact ⟨pieces, hwrite, (hplaced hwrite hvisible).mpr
      ((inPlace_iff hsub hnd).mpr ⟨h.leading, h.inOrder _ hsort⟩)⟩

/-- In a log that is in order it is enough that the output is defined and
the last comments are visible. -/
theorem placesHold_inOrder {text : Str} {rd : Rd w} {opts : WriterOptions} {clock : Nat → BitVec 32}
    (hinc : (markKeys (logMarks w text)).Pairwise fun k k' => k.2.toInt < k'.2.toInt)
    (htime : (markKeys (logMarks w text)).Pairwise fun k k' => k.1.toNat ≤ k'.1.toNat)
    (hpos : ∀ k ∈ markKeys (logMarks w text), 0 < k.2.toInt)
    (hclose : ∀ k ∈ markKeys (logMarks w text), ∀ k' ∈ markKeys (logMarks w text),
      (k.1.toNat : Int) - k'.1.toNat < 2 ^ 31)
    (hleft : ∀ key ∈ storeKeys rd, key ∈ markKeys (logMarks w text)) :
    PlacesHold text rd opts clock ↔
      (∀ c ∈ logComments w text, ∃ t, printFormat c.text = some t) ∧
      (w = 32 → ∀ c ∈ logComments w text, c.index ≠ 2147483647) ∧ Writable rd opts clock := by
  refine ⟨fun h => ⟨h.formats, h.visible, h.writable⟩, fun ⟨hformats, hvisible, hwritable⟩ =>
    ⟨hformats, hvisible, hwritable, fun _ key hkey => ?_, fun sorted hsorted p hp key hk key' hk'
      hin hout => ?_⟩⟩
  · exact hpos key (hleft key (List.mem_of_mem_head? hkey))
  · obtain rfl := Option.some.inj ((dlistSort_inOrder hinc htime hpos hclose).symm.trans hsorted)
    obtain ⟨behind, hsplit⟩ := commentPlaces_front hp
    rw [List.nil_append] at hsplit
    have hmem := hleft key' hk'
    rw [← hsplit] at hmem ⊢
    exact (List.singleton_sublist.mpr hin).append
      (List.singleton_sublist.mpr ((List.mem_append.mp hmem).resolve_left hout))

/-- A log with a comment before each of its two calls. -/
def placesLog : Str :=
  ("version=2.0, \n<1> : memory (heap)\n## a\n1. malloc(8) = 0x10\n\t0x20\n\n" ++
    "## b\n2. free(0x10)\n\t0x20\n\n").toList

/-- The comments come out where they were. -/
theorem writeTraceCalls_places_iff_placesLog : ∃ rd : Rd 64,
    readTextData (fun _ => 0) (fun _ => ⟨0, []⟩) rdCreate placesLog = some rd ∧
    ∃ pieces, writeTraceCalls rd plainOptions (fun _ => 0) = some pieces ∧
      CommentsPlaced (logMarks 64 placesLog) (storeKeys rd) (pieceMarks rd pieces) := by
  have heval : (readTextData (fun _ => 0) (fun _ => ⟨0, []⟩) (rdCreate : Rd 64) placesLog).map
      (fun rd => (callBlocks rd plainOptions (fun _ => 0)).isSome) = some true := by
    decide +kernel
  have hmarks : logMarks 64 placesLog = [.comment "## a\n".toList, .call (0, 1),
      .comment "## b\n".toList, .call (0, 2)] := by
    decide +kernel
  have hcomments : logComments 64 placesLog = [{ index := 0, text := "## a\n".toList },
      { index := 1, text := "## b\n".toList }] := by
    rw [logComments_eq, hmarks]
    rfl
  have hkeys : markKeys (logMarks 64 placesLog) = [(0, 1), (0, 2)] := by
    rw [hmarks]
    rfl
  obtain ⟨rd, hread, hblocks⟩ := Option.map_eq_some_iff.mp heval
  obtain ⟨hwhole, hsize⟩ := readTextLines_whole hread
  have hinc : (markKeys (logMarks 64 placesLog)).Pairwise fun k k' => k.2.toInt < k'.2.toInt := by
    rw [hkeys]
    decide
  have hint := hwhole.integrity (readTextData_counted hread hwhole hinc)
  have hwritable := (callBlocks_total hint (by rw [hsize]; decide)).mp
    (Option.isSome_iff_exists.mp hblocks)
  refine ⟨rd, hread, (writeTraceCalls_places_iff (.inr rfl) hread hinc (.refl rd) rfl _).mpr ?_⟩
  refine (placesHold_inOrder hinc ?_ ?_ ?_ ?_).mpr ⟨?_, by simp, hwritable⟩
  · rw [hkeys]
    decide
  · simp only [hkeys, List.mem_cons, List.not_mem_nil, or_false, forall_eq_or_imp, forall_eq]
    decide
  · simp only [hkeys, List.mem_cons, List.not_mem_nil, or_false, forall_eq_or_imp, forall_eq]
    decide
  · exact fun key hkey => (dlistSort_perm (readTextData_keys hread)).mem_iff.mp hkey
  · rw [hcomments]
    intro c hc
    refine ⟨c.text, (printFormat_eq_self _).mpr ?_⟩
    revert c
    decide

/-- A log with a comment before a call with index 0. -/
def zeroLog : Str := "version=2.0, \n<1> : memory (heap)\n## a\n0. free(0x10)\n\t0x20\n\n".toList

/-- The comment is written behind the call. -/
theorem writeTraceCalls_places_zeroLog : ∃ rd : Rd 64,
    readTextData (fun _ => 0) (fun _ => ⟨0, []⟩) rdCreate zeroLog = some rd ∧
    logMarks 64 zeroLog = [.comment "## a\n".toList, .call (0, 0)] ∧
    (writeTraceCalls rd plainOptions (fun _ => 0)).map (pieceMarks rd)
      = some [.call (0, 0), .comment "## a\n".toList] ∧
    ¬ ∃ pieces, writeTraceCalls rd plainOptions (fun _ => 0) = some pieces ∧
      CommentsPlaced (logMarks 64 zeroLog) (storeKeys rd) (pieceMarks rd pieces) := by
  have heval : (readTextData (fun _ => 0) (fun _ => ⟨0, []⟩) (rdCreate : Rd 64) zeroLog).map
      (fun rd => ((writeTraceCalls rd plainOptions (fun _ => 0)).map (pieceMarks rd),
        storeKeys rd)) = some (some [.call (0, 0), .comment "## a\n".toList], [(0, 0)]) := by
    decide +kernel
  have hmarks : logMarks 64 zeroLog = [.comment "## a\n".toList, .call (0, 0)] := by
    decide +kernel
  obtain ⟨rd, hread, hpair⟩ := Option.map_eq_some_iff.mp heval
  obtain ⟨hwrite, hkeys⟩ := Prod.mk.inj hpair
  refine ⟨rd, hread, hmarks, hwrite, fun ⟨pieces, hpieces, hplaced⟩ => ?_⟩
  rw [hpieces] at hwrite
  have hfirst := hplaced.comments
  rw [hmarks, Option.some.inj hwrite] at hfirst
  have hmem := (List.forall₂_cons.mp hfirst).1.2 (0, 0) (by rw [hkeys]; simp)
  exact absurd (hmem.mp (by simp)) List.not_mem_nil

end SpRtrace.Postproc
