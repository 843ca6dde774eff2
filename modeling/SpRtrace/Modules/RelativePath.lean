/-
SpRtrace.Modules.RelativePath — the path of an attachment,
`calc_relative_path` of `src/modules/sp_rtrace_main.c`.

The common part of the two paths is found character by character. The
ways up are then counted by the slashes behind the first character of the
directory that differs, so a slash that differs itself is not counted:
that is the case where a component of the directory begins the one of the
file and is not the last one (`partialMatch`). In all other cases the
path leads back to the file (`attachmentPath_resolves_iff`), as long as
it fits in the buffer of `sp_rtrace_write_attachment`.

Strings are lists of characters without their terminator. `realpath` is a
parameter: what it leaves in its buffer, and whether it succeeded.
-/
import Mathlib
import SpRtrace.Library.Formatter

namespace SpRtrace.Modules

open SpRtrace.Common SpRtrace.Lib SpRtrace.Library

/-! ## The code -/

/-- The pointers and the counter of the search for the common part. -/
structure PathMatch where
  ptrFrom : Str
  ptrTo : Str
  ptrMatch : Option Str
  depthMatch : Int
deriving DecidableEq

/-- The search for the common part; `none` goes on behind the terminators
of equal strings. -/
def matchPaths : Str → Str → Option Str → Int → Option PathMatch
  | [], [], _, _ => none
  | c :: ptrFrom, d :: ptrTo, ptrMatch, depthMatch =>
      if c = d then
        if d = '/' then matchPaths ptrFrom ptrTo (some ptrTo) (depthMatch + 1)
        else matchPaths ptrFrom ptrTo ptrMatch depthMatch
      else some { ptrFrom := c :: ptrFrom, ptrTo := d :: ptrTo, ptrMatch, depthMatch }
  | ptrFrom, ptrTo, ptrMatch, depthMatch => some { ptrFrom, ptrTo, ptrMatch, depthMatch }

/-- `while (*ptr_from++)`: the depth, and what is left at `ptr_from - 1`. -/
def countDepth : Str → Int → Int × Str
  | [], depth => (depth, [])
  | _ :: ptrFrom, depth =>
      countDepth ptrFrom (if ptrFrom.head? = some '/' then depth + 1 else depth)

def calcRelativePath (realpath : Str → Str × Bool) (source : Option Str) (target : Str) :
    Option Str :=
  let (pathTo, toOk) := realpath target
  match source with
  | none => some pathTo
  | some source =>
      let (pathFrom, fromOk) := realpath source
      if !toOk || !fromOk then some pathTo
      else
        match matchPaths pathFrom pathTo none (-1) with
        | none => none
        | some found =>
            let (ptrMatch, depthMatch, depth) :=
              if found.ptrFrom = [] ∧ found.ptrTo.head? = some '/' then
                (some found.ptrTo.tail, found.depthMatch + 1, 0)
              else (found.ptrMatch, found.depthMatch, 1)
            if depthMatch ≤ 0 then some pathTo
            else
              let (depth, last) := countDepth found.ptrFrom depth
              let depth := if last.head? = some '/' then depth - 1 else depth
              match ptrMatch with
              | none => none
              | some rest => some ((List.replicate depth.toNat "../".toList).flatten ++ rest)

/-- The path in the packet of `sp_rtrace_write_attachment`; `none` is a
memory error, as when the path does not fit in its buffer. -/
def attachmentPath (realpath : Str → Str × Bool) (outputDir : Option Str) (file : Str) :
    Option Str :=
  match calcRelativePath realpath outputDir file with
  | none => none
  | some path => if path.length < pathMax then some path else none

/-! ## Paths -/

/-- A component of a path without links. -/
structure IsComponent (c : Str) : Prop where
  nonempty : c ≠ []
  no_slash : '/' ∉ c
  not_here : c ≠ ['.']
  not_up : c ≠ ['.', '.']

instance (c : Str) : Decidable (IsComponent c) :=
  decidable_of_iff (c ≠ [] ∧ '/' ∉ c ∧ c ≠ ['.'] ∧ c ≠ ['.', '.'])
    ⟨fun h => ⟨h.1, h.2.1, h.2.2.1, h.2.2.2⟩,
      fun h => ⟨h.nonempty, h.no_slash, h.not_here, h.not_up⟩⟩

/-- An absolute path in normal form. -/
structure NormalPath where
  components : List Str
  valid : ∀ c ∈ components, IsComponent c

/-- A slash and a component, for each. -/
def pathText (components : List Str) : Str := (components.map (List.cons '/')).flatten

def NormalPath.text (path : NormalPath) : Str :=
  if path.components = [] then ['/'] else pathText path.components

/-- One component of a path that is followed. -/
def followComponent (dir : List Str) (c : Str) : List Str :=
  if c = [] ∨ c = ['.'] then dir
  else if c = ['.', '.'] then dir.dropLast
  else dir ++ [c]

/-- The components that a relative path leads to from a directory. -/
def follow (dir : List Str) (path : Str) : List Str :=
  (path.splitOn '/').foldl followComponent dir

/-- The path is the absolute path of the file, or leads there from the
directory. -/
def ResolvesBack (dir file : NormalPath) (path : Str) : Prop :=
  path = file.text ∨ (path.head? ≠ some '/' ∧ follow dir.components path = file.components)

/-- The components that the paths have in common, and the others. -/
def splitCommon : List Str → List Str → List Str × List Str × List Str
  | c :: cs, d :: ds =>
      if c = d then
        let (common, up, down) := splitCommon cs ds
        (c :: common, up, down)
      else ([], c :: cs, d :: ds)
  | cs, ds => ([], cs, ds)

/-- A component of the directory that is not its last one begins the
component of the file. -/
def partialMatch : List Str → List Str → Bool
  | c :: _ :: _, d :: _ => c.isPrefixOf d
  | _, _ => false

/-- The path leads back and fits. -/
def PathFits (dir file : NormalPath) : Prop :=
  match splitCommon dir.components file.components with
  | ([], _, _) => True
  | (_ :: _, up, down) =>
      partialMatch up down = false ∧
        3 * up.length + (pathText down).length ≤ pathMax

/-! ## The common part -/

theorem pathText_cons (c : Str) (components : List Str) :
    pathText (c :: components) = '/' :: (c ++ pathText components) := by
  simp [pathText]

theorem pathText_append (cs ds : List Str) : pathText (cs ++ ds) = pathText cs ++ pathText ds := by
  simp [pathText]

theorem matchPaths_slash (s t : Str) (m : Option Str) (d : Int) :
    matchPaths ('/' :: s) ('/' :: t) m d = matchPaths s t (some t) (d + 1) := by
  simp [matchPaths]

/-- A part without a slash. -/
theorem matchPaths_part {p : Str} (hp : '/' ∉ p) (s t : Str) (m : Option Str) (d : Int) :
    matchPaths (p ++ s) (p ++ t) m d = matchPaths s t m d := by
  induction p with
  | nil => rfl
  | cons c p ih =>
    rw [List.mem_cons, not_or] at hp
    rw [List.cons_append, List.cons_append, matchPaths, if_pos rfl, if_neg (Ne.symm hp.1), ih hp.2]

/-- The components in common. -/
theorem matchPaths_common {common : List Str} (hvalid : ∀ c ∈ common, IsComponent c) (s t : Str)
    (m : Option Str) (d : Int) :
    ∃ m', matchPaths (pathText common ++ s) (pathText common ++ t) m d
      = matchPaths s t m' (d + common.length) := by
  induction common generalizing m d with
  | nil => exact ⟨m, by simp [pathText]⟩
  | cons c common ih =>
    obtain ⟨m', hm⟩ := ih (fun x hx => hvalid x (List.mem_cons_of_mem _ hx))
      (some (c ++ (pathText common ++ t))) (d + 1)
    refine ⟨m', ?_⟩
    rw [pathText_cons, List.cons_append, List.cons_append, List.append_assoc, List.append_assoc,
      matchPaths_slash, matchPaths_part (hvalid c List.mem_cons_self).no_slash, hm, List.length_cons]
    congr 1
    omega

theorem countDepth_eq (s : Str) (depth : Int) :
    countDepth s depth = (depth + (s.tail.count '/' : Nat), []) := by
  induction s generalizing depth with
  | nil => simp [countDepth]
  | cons c s ih =>
    rw [countDepth, ih, List.tail_cons]
    cases s with
    | nil => simp
    | cons d s =>
      simp only [List.head?_cons, Option.some.injEq, List.tail_cons, List.count_cons, beq_iff_eq]
      split
      · simp only [Prod.mk.injEq, and_true]
        omega
      · simp

theorem count_pathText {components : List Str} (hvalid : ∀ c ∈ components, IsComponent c) :
    (pathText components).count '/' = components.length := by
  induction components with
  | nil => rfl
  | cons c components ih =>
    rw [pathText_cons, List.count_cons_self, List.count_append,
      List.count_eq_zero.mpr (hvalid c List.mem_cons_self).no_slash,
      ih fun x hx => hvalid x (List.mem_cons_of_mem _ hx), Nat.zero_add, List.length_cons]

/-- How many ways up are written. -/
def waysUp (up down : List Str) : Nat := if partialMatch up down then up.length - 1 else up.length

theorem countDepth_component {u : Str} {us : List Str} (hu : '/' ∉ u) (hne : u ≠ [])
    (hus : ∀ c ∈ us, IsComponent c) :
    countDepth (u ++ pathText us) 1 = (((us.length + 1 : Nat) : Int), []) := by
  obtain ⟨c, u, rfl⟩ := List.exists_cons_of_ne_nil hne
  have hcount : u.count '/' = 0 := List.count_eq_zero.mpr fun h => hu (List.mem_cons_of_mem _ h)
  rw [countDepth_eq, List.cons_append, List.tail_cons, List.count_append, hcount,
    count_pathText hus]
  simp [Int.add_comm]

/-- Two components that differ: where the search stops, and what is counted
from there. The slash behind a component that begins the other one is the
first difference. -/
theorem matchPaths_component {u e : Str} (hu : '/' ∉ u) (he : '/' ∉ e) (hne : u ≠ e)
    {us : List Str} (hus : ∀ c ∈ us, IsComponent c) (es : List Str) (m : Option Str) (d : Int) :
    ∃ s t, matchPaths (u ++ pathText us) (e ++ pathText es) m d = some ⟨s, t, m, d⟩ ∧
      ¬ (s = [] ∧ t.head? = some '/') ∧
      countDepth s 1 = (((waysUp (u :: us) (e :: es) : Nat) : Int), []) := by
  induction u generalizing e with
  | nil =>
    obtain ⟨x, e, rfl⟩ := List.exists_cons_of_ne_nil (Ne.symm hne)
    have hx : x ≠ '/' := fun h => he (h ▸ List.mem_cons_self)
    refine ⟨pathText us, x :: e ++ pathText es, ?_, fun h => hx (by simpa using h.2), ?_⟩
    · cases us with
      | nil => rfl
      | cons v us =>
        rw [List.nil_append, pathText_cons, List.cons_append, matchPaths, if_neg (Ne.symm hx)]
    · cases us with
      | nil => rfl
      | cons v us =>
        have hv : v.count '/' = 0 := List.count_eq_zero.mpr (hus v List.mem_cons_self).no_slash
        rw [pathText_cons, countDepth_eq, List.tail_cons, List.count_append, hv,
          count_pathText fun c hc => hus c (List.mem_cons_of_mem _ hc)]
        simp [waysUp, partialMatch, List.isPrefixOf, Int.add_comm]
  | cons c u ih =>
    rw [List.mem_cons, not_or] at hu
    cases e with
    | nil =>
      refine ⟨c :: u ++ pathText us, pathText es, ?_, fun h => by simp at h, ?_⟩
      · cases es with
        | nil => rfl
        | cons v es =>
          rw [List.nil_append, pathText_cons, List.cons_append, matchPaths, if_neg (Ne.symm hu.1)]
      · rw [countDepth_component (by simp [hu]) (by simp) hus]
        cases us <;> rfl
    | cons x e =>
      rw [List.mem_cons, not_or] at he
      by_cases hcx : c = x
      · subst hcx
        obtain ⟨s, t, hmatch, hstop, hcount⟩ := ih hu.2 he.2 (fun h => hne (by rw [h]))
        refine ⟨s, t, ?_, hstop, hcount.trans ?_⟩
        · rw [List.cons_append, List.cons_append, matchPaths, if_pos rfl, if_neg (Ne.symm hu.1),
            hmatch]
        · have hways : waysUp ((c :: u) :: us) ((c :: e) :: es) = waysUp (u :: us) (e :: es) := by
            cases us <;> simp [waysUp, partialMatch, List.isPrefixOf]
          rw [hways]
      · refine ⟨c :: u ++ pathText us, x :: e ++ pathText es, ?_, fun h => by simp at h, ?_⟩
        · rw [List.cons_append, List.cons_append, matchPaths, if_neg hcx]
        · rw [countDepth_component (by simp [hu]) (by simp) hus]
          have hways : waysUp ((c :: u) :: us) ((x :: e) :: es) = us.length + 1 := by
            cases us <;> simp [waysUp, partialMatch, List.isPrefixOf, hcx]
          rw [hways]

/-! ## What is written -/

theorem splitCommon_append (dir file : List Str) :
    (splitCommon dir file).1 ++ (splitCommon dir file).2.1 = dir ∧
      (splitCommon dir file).1 ++ (splitCommon dir file).2.2 = file := by
  fun_induction splitCommon dir file with
  | case1 cs d ds common up down heq ih =>
    rw [heq] at ih
    exact ⟨congrArg (d :: ·) ih.1, congrArg (d :: ·) ih.2⟩
  | case2 c cs d ds hne => exact ⟨rfl, rfl⟩
  | case3 cs ds _ => exact ⟨rfl, rfl⟩

/-- The components behind the common ones differ. -/
theorem splitCommon_differ {dir file common up down : List Str} {c d : Str}
    (h : splitCommon dir file = (common, c :: up, d :: down)) : c ≠ d := by
  fun_induction splitCommon dir file generalizing common with
  | case1 cs d' ds common' up' down' heq ih =>
    rw [heq] at ih
    simp only [Prod.mk.injEq] at h
    exact ih (by rw [h.2.1, h.2.2])
  | case2 c' cs d' ds hne =>
    simp only [Prod.mk.injEq, List.cons.injEq] at h
    rw [← h.2.1.1, ← h.2.2.1]
    exact hne
  | case3 cs ds hno =>
    simp only [Prod.mk.injEq] at h
    exact (hno c up d down h.2.1 h.2.2).elim

/-- The path from a directory to a file. -/
def relativeText (up down : List Str) : Str :=
  (List.replicate (waysUp up down) "../".toList).flatten ++ (pathText down).tail

/-- `realpath` of paths that are normal. -/
def sameRealpath (path : Str) : Str × Bool := (path, true)

theorem NormalPath.text_of_ne {path : NormalPath} (h : path.components ≠ []) :
    path.text = pathText path.components := if_neg h

/-- The directory contains the file. -/
theorem calcRelativePath_inside {dir file rest : Str} {m : Option Str} {d : Int} (hd : 0 ≤ d)
    (h : matchPaths dir file none (-1) = some ⟨[], '/' :: rest, m, d⟩) :
    calcRelativePath sameRealpath (some dir) file = some rest := by
  have hpos : ¬ d + 1 ≤ 0 := by omega
  simp [calcRelativePath, sameRealpath, h, hpos, countDepth]

/-- The directory does not contain the file. -/
theorem calcRelativePath_beside {dir file s t rest : Str} {d : Int} {n : Nat}
    (h : matchPaths dir file none (-1) = some ⟨s, t, some rest, d⟩)
    (hstop : ¬ (s = [] ∧ t.head? = some '/')) (hcount : countDepth s 1 = ((n : Int), [])) :
    calcRelativePath sameRealpath (some dir) file
      = some (if d ≤ 0 then file else (List.replicate n "../".toList).flatten ++ rest) := by
  simp only [calcRelativePath, sameRealpath, h, if_neg hstop, hcount, Bool.not_true, Bool.or_self,
    Bool.false_eq_true, if_false, List.head?_nil, reduceCtorEq, Int.toNat_natCast]
  split <;> rfl

/-- What is written: the absolute path if nothing is in common. -/
theorem calcRelativePath_eq {dir file : NormalPath} {common up down : List Str}
    (hsplit : splitCommon dir.components file.components = (common, up, down)) (hdown : down ≠ []) :
    calcRelativePath sameRealpath (some dir.text) file.text
      = some (if common = [] then file.text else relativeText up down) := by
  obtain ⟨hdir, hfile⟩ := splitCommon_append dir.components file.components
  rw [hsplit] at hdir hfile
  obtain ⟨e, es, rfl⟩ := List.exists_cons_of_ne_nil hdown
  have hvalid : ∀ c ∈ common, IsComponent c := fun c hc =>
    file.valid c (hfile ▸ List.mem_append_left _ hc)
  have he : IsComponent e := file.valid e (hfile ▸ List.mem_append_right _ List.mem_cons_self)
  have hto : file.text = pathText common ++ '/' :: (e ++ pathText es) := by
    rw [NormalPath.text_of_ne (by rw [← hfile]; simp), ← hfile, pathText_append, pathText_cons]
  cases up with
  | nil =>
    cases common with
    | nil =>
      -- the root directory
      obtain ⟨x, e', hx⟩ := List.exists_cons_of_ne_nil he.nonempty
      have hne : x ≠ '/' := fun h => he.no_slash (by rw [hx, h]; exact List.mem_cons_self)
      have hroot : dir.text = ['/'] := if_pos hdir.symm
      have hmatch : matchPaths dir.text file.text none (-1)
          = some ⟨[], x :: e' ++ pathText es, some (x :: e' ++ pathText es), 0⟩ := by
        rw [hroot, hto, hx]
        exact matchPaths_slash [] (x :: e' ++ pathText es) none (-1)
      rw [calcRelativePath_beside hmatch (fun h => hne (by simpa using h.2)) (n := 1) rfl]
      rfl
    | cons c common =>
      obtain ⟨m', hm⟩ := matchPaths_common hvalid [] ('/' :: (e ++ pathText es)) none (-1)
      have hfrom : dir.text = pathText (c :: common) ++ [] := by
        rw [NormalPath.text_of_ne (by rw [← hdir]; simp), ← hdir, List.append_nil, List.append_nil]
      rw [← hfrom, ← hto] at hm
      rw [calcRelativePath_inside (by simp) hm, if_neg (List.cons_ne_nil c common), relativeText,
        pathText_cons]
      rfl
  | cons u us =>
    have hu : ∀ c ∈ u :: us, IsComponent c := fun c hc =>
      dir.valid c (hdir ▸ List.mem_append_right _ hc)
    have hfrom : dir.text = pathText common ++ '/' :: (u ++ pathText us) := by
      rw [NormalPath.text_of_ne (by rw [← hdir]; simp), ← hdir, pathText_append, pathText_cons]
    obtain ⟨m', hm⟩ := matchPaths_common hvalid ('/' :: (u ++ pathText us))
      ('/' :: (e ++ pathText es)) none (-1)
    obtain ⟨s, t, hmatch, hstop, hcount⟩ := matchPaths_component
      (hu u List.mem_cons_self).no_slash he.no_slash (splitCommon_differ hsplit)
      (fun c hc => hu c (List.mem_cons_of_mem _ hc)) es (some (e ++ pathText es)) (-1 + common.length + 1)
    rw [← hfrom, ← hto, matchPaths_slash, hmatch] at hm
    have hzero : -1 + (common.length : Int) + 1 ≤ 0 ↔ common = [] := by
      rw [← List.length_eq_zero_iff]
      omega
    rw [calcRelativePath_beside hm hstop hcount, relativeText, pathText_cons]
    simp only [hzero, List.tail_cons]

/-! ## Where it leads -/

theorem splitOn_component {c : Str} (hc : '/' ∉ c) (rest : Str) :
    (c ++ '/' :: rest).splitOn '/' = c :: rest.splitOn '/' := by
  rw [List.splitOn_append_cons_self, List.splitOn_eq_singleton hc, List.singleton_append]

theorem splitOn_pathText {e : Str} {es : List Str} (hvalid : ∀ c ∈ e :: es, IsComponent c) :
    (e ++ pathText es).splitOn '/' = e :: es := by
  induction es generalizing e with
  | nil =>
    rw [show pathText [] = [] from rfl, List.append_nil]
    exact List.splitOn_eq_singleton (hvalid e List.mem_cons_self).no_slash
  | cons d es ih =>
    rw [pathText_cons, splitOn_component (hvalid e List.mem_cons_self).no_slash,
      ih fun c hc => hvalid c (List.mem_cons_of_mem _ hc)]

theorem splitOn_relative {e : Str} {es : List Str} (hvalid : ∀ c ∈ e :: es, IsComponent c) (n : Nat) :
    ((List.replicate n "../".toList).flatten ++ (e ++ pathText es)).splitOn '/'
      = List.replicate n ['.', '.'] ++ e :: es := by
  induction n with
  | zero => exact splitOn_pathText hvalid
  | succ n ih =>
    have hup : '/' ∉ ['.', '.'] := by decide
    rw [List.replicate_succ, List.flatten_cons, List.append_assoc, List.replicate_succ,
      List.cons_append, ← ih]
    exact splitOn_component hup _

theorem foldl_up (dir : List Str) (n : Nat) :
    (List.replicate n ['.', '.']).foldl followComponent dir = dir.take (dir.length - n) := by
  induction n generalizing dir with
  | zero => simp
  | succ n ih =>
    have hup : followComponent dir ['.', '.'] = dir.dropLast := by simp [followComponent]
    rw [List.replicate_succ, List.foldl_cons, hup, ih, List.dropLast_eq_take, List.length_take,
      List.take_take]
    congr 1
    omega

theorem foldl_down {down : List Str} (hvalid : ∀ c ∈ down, IsComponent c) (dir : List Str) :
    down.foldl followComponent dir = dir ++ down := by
  induction down generalizing dir with
  | nil => simp
  | cons c down ih =>
    have hc := hvalid c List.mem_cons_self
    have hdown : followComponent dir c = dir ++ [c] := by
      simp [followComponent, hc.nonempty, hc.not_here, hc.not_up]
    rw [List.foldl_cons, hdown, ih fun x hx => hvalid x (List.mem_cons_of_mem _ hx),
      List.append_assoc, List.singleton_append]

/-- The directory without the ways up, and the components down. -/
theorem follow_relativeText {dir up down : List Str} (hvalid : ∀ c ∈ down, IsComponent c)
    (hdown : down ≠ []) :
    follow dir (relativeText up down) = dir.take (dir.length - waysUp up down) ++ down := by
  obtain ⟨e, es, rfl⟩ := List.exists_cons_of_ne_nil hdown
  rw [follow, relativeText, pathText_cons, List.tail_cons, splitOn_relative hvalid,
    List.foldl_append, foldl_up, foldl_down hvalid]

theorem relativeText_head (up : List Str) {down : List Str} (hvalid : ∀ c ∈ down, IsComponent c)
    (hdown : down ≠ []) : (relativeText up down).head? ≠ some '/' := by
  obtain ⟨e, es, rfl⟩ := List.exists_cons_of_ne_nil hdown
  have he := hvalid e List.mem_cons_self
  obtain ⟨x, e', rfl⟩ := List.exists_cons_of_ne_nil he.nonempty
  have hx : x ≠ '/' := fun h => he.no_slash (h ▸ List.mem_cons_self)
  rw [relativeText, pathText_cons, List.tail_cons]
  cases waysUp up ((x :: e') :: es) with
  | zero => simpa using hx
  | succ n =>
    rw [List.replicate_succ, List.flatten_cons]
    simp

theorem relativeText_length (up : List Str) {down : List Str} (hdown : down ≠ []) :
    (relativeText up down).length + 1 = 3 * waysUp up down + (pathText down).length := by
  obtain ⟨e, es, rfl⟩ := List.exists_cons_of_ne_nil hdown
  rw [relativeText, pathText_cons, List.tail_cons, List.length_append, List.length_cons,
    List.length_flatten, List.map_replicate, List.sum_replicate]
  simp
  omega

/-- The ways up lead to the common part if none is missing. -/
theorem take_ways (common : List Str) {up down : List Str} :
    (common ++ up).take ((common ++ up).length - waysUp up down) = common ↔
      partialMatch up down = false := by
  unfold waysUp
  cases hpartial : partialMatch up down with
  | false => simp
  | true =>
    have hup : 2 ≤ up.length := by
      cases up with
      | nil => cases hpartial
      | cons u us =>
        cases us with
        | nil => cases hpartial
        | cons v us => simp
    refine iff_of_false (fun heq => ?_) (by simp)
    have hlen := congrArg List.length heq
    rw [List.length_take, List.length_append, if_pos rfl] at hlen
    omega

/-- **Attachment paths lead back to the file** from the output directory,
or are absolute, exactly if no component of the directory that is not its
last one begins the component of the file beside it, and the path fits in
its buffer. -/
theorem attachmentPath_resolves_iff {dir file : NormalPath}
    (hout : ¬ file.components <+: dir.components) (hlength : file.text.length < pathMax) :
    (∃ path, attachmentPath sameRealpath (some dir.text) file.text = some path ∧
      ResolvesBack dir file path) ↔ PathFits dir file := by
  obtain ⟨hdir, hfile⟩ := splitCommon_append dir.components file.components
  obtain ⟨⟨common, up, down⟩, hsplit⟩ : ∃ parts, splitCommon dir.components file.components = parts :=
    ⟨_, rfl⟩
  rw [hsplit] at hdir hfile
  simp only at hdir hfile
  have hdown : down ≠ [] := by
    rintro rfl
    rw [List.append_nil] at hfile
    exact hout (hfile ▸ hdir ▸ List.prefix_append common up)
  have hvalid : ∀ c ∈ down, IsComponent c := fun c hc =>
    file.valid c (hfile ▸ List.mem_append_right _ hc)
  rw [attachmentPath, calcRelativePath_eq hsplit hdown, PathFits, hsplit]
  cases common with
  | nil =>
    rw [if_pos rfl]
    exact iff_of_true ⟨file.text, if_pos hlength, .inl rfl⟩ trivial
  | cons c common =>
    rw [if_neg (List.cons_ne_nil c common)]
    have hhead := relativeText_head up hvalid hdown
    have hlen := relativeText_length up hdown
    have habsolute : file.text.head? = some '/' := by
      rw [NormalPath.text_of_ne (by rw [← hfile]; simp), ← hfile]
      rfl
    have hresolves : ResolvesBack dir file (relativeText up down) ↔
        partialMatch up down = false := by
      rw [← take_ways (c :: common), ← List.append_cancel_right_eq _ down, hdir, hfile,
        ← follow_relativeText hvalid hdown]
      constructor
      · rintro (habs | ⟨-, hleads⟩)
        · exact absurd (habs ▸ habsolute) hhead
        · exact hleads
      · exact fun hleads => .inr ⟨hhead, hleads⟩
    have hways : partialMatch up down = false → waysUp up down = up.length := fun hno => by
      rw [waysUp, hno]
      rfl
    constructor
    · intro h
      obtain ⟨path, hpath, hback⟩ := h
      simp only at hpath
      split at hpath
      · rename_i hfits
        obtain rfl := Option.some.inj hpath
        have hno := hresolves.mp hback
        refine ⟨hno, ?_⟩
        have := hways hno
        omega
      · cases hpath
    · intro h
      obtain ⟨hno, hfits⟩ := h
      have := hways hno
      exact ⟨relativeText up down, if_pos (by omega), hresolves.mpr hno⟩

/-! ## Two directories -/

/-- The directory `/a/b/c`. -/
def outputDir : NormalPath where
  components := ["a".toList, "b".toList, "c".toList]
  valid := by decide

/-- The file `/a/d`. -/
def plainFile : NormalPath where
  components := ["a".toList, "d".toList]
  valid := by decide

/-- The file `/a/bx`. -/
def partialFile : NormalPath where
  components := ["a".toList, "bx".toList]
  valid := by decide

/-- The path of `/a/d` leads back to it. -/
theorem attachmentPath_resolves_plain :
    ∃ path, attachmentPath sameRealpath (some outputDir.text) plainFile.text = some path ∧
      ResolvesBack outputDir plainFile path :=
  (attachmentPath_resolves_iff (by decide) (by decide)).mpr ⟨by decide, by decide⟩

/-- `b` begins `bx`: the path from `/a/b/c` is `../bx`, which is in `/a/b`. -/
theorem attachmentPath_partial : ¬ partialFile.components <+: outputDir.components ∧
    partialFile.text.length < pathMax ∧
    attachmentPath sameRealpath (some outputDir.text) partialFile.text = some "../bx".toList ∧
    ¬ ResolvesBack outputDir partialFile "../bx".toList := by
  refine ⟨by decide, by decide, by decide, ?_⟩
  rintro (habs | ⟨-, hleads⟩)
  · revert habs
    decide
  · revert hleads
    decide

end SpRtrace.Modules
