import Cs416.Rufs.Layout
import Mathlib.Data.List.DropRight

/-!
# Paths

A C string is the list of its bytes, without the terminator. `tokens` is what successive
calls of `strtok(_, "/")` return, and `dirname` and `basename` are the POSIX functions on an
absolute path (for two leading slashes and nothing else POSIX leaves `dirname` a choice
between `/` and `//`; both name the root here).

`TreePath` is the kind of path FUSE hands over: `/` followed by non-empty components, none of
them `.` or `..`. The lemmas say that `tokens`, `dirname` and `basename` take such a path apart
into its components, its parent and its last component.
-/

namespace Rufs

/-- The byte `/`. -/
abbrev slash : UInt8 := 47

/-- `PATH_MAX` -/
abbrev pathMax : ℕ := 4096

/-- The tokens between slashes. -/
def tokens (p : List UInt8) : List Name := (p.splitOn slash).filter (· ≠ [])

/-- A path without its trailing slashes. -/
def stripSlashes (p : List UInt8) : List UInt8 := p.rdropWhile (· == slash)

/-- `dirname`, of an absolute path. -/
def dirname (p : List UInt8) : List UInt8 :=
  let q := stripSlashes ((stripSlashes p).rdropWhile (· != slash))
  if q = [] then [slash] else q

/-- `basename`, of an absolute path. -/
def basename (p : List UInt8) : Name :=
  let q := (stripSlashes p).rtakeWhile (· != slash)
  if q = [] then [slash] else q

theorem dirname_length_le (p : List UInt8) : (dirname p).length ≤ max 1 p.length := by
  unfold dirname
  dsimp only
  split
  · exact le_max_left _ _
  · refine le_max_of_le_right ?_
    exact (List.rdropWhile_prefix _ _).length_le.trans
      ((List.rdropWhile_prefix _ _).length_le.trans (List.rdropWhile_prefix _ _).length_le)

/-- An absolute path in a C string shorter than `PATH_MAX`. -/
structure CPath where
  bytes : List UInt8
  absolute : bytes.head? = some slash
  noNul : (0 : UInt8) ∉ bytes
  short : bytes.length < pathMax

theorem CPath.dirname_short (p : CPath) : (dirname p.bytes).length < pathMax :=
  (dirname_length_le p.bytes).trans_lt (max_lt (by decide) p.short)

/-! ### Paths made of components -/

/-- A path component: `.` and `..` are resolved before a path reaches the file system. -/
structure IsName (c : Name) : Prop where
  ne_nil : c ≠ []
  no_slash : slash ∉ c
  no_nul : (0 : UInt8) ∉ c
  ne_dot : c ≠ [46]
  ne_dotdot : c ≠ [46, 46]

/-- Each component behind a slash. -/
def render (comps : List Name) : List UInt8 := comps.flatMap (slash :: ·)

/-- The path with these components. -/
def pathBytes (comps : List Name) : List UInt8 := if comps = [] then [slash] else render comps

/-- An absolute path made of components. -/
structure TreePath where
  comps : List Name
  names : ∀ c ∈ comps, IsName c
  short : (pathBytes comps).length < pathMax

theorem render_concat (comps : List Name) (c : Name) :
    render (comps ++ [c]) = render comps ++ slash :: c := by
  rw [render, List.flatMap_append, List.flatMap_singleton]
  rfl

theorem noNul_render {comps : List Name} (h : ∀ c ∈ comps, IsName c) :
    (0 : UInt8) ∉ render comps := by
  intro h0
  obtain ⟨c, hc, hmem⟩ := List.mem_flatMap.mp h0
  rcases List.mem_cons.mp hmem with h1 | h1
  · exact absurd h1 (by decide)
  · exact (h c hc).no_nul h1

/-- A path of components is an absolute C string. -/
def TreePath.toCPath (p : TreePath) : CPath where
  bytes := pathBytes p.comps
  absolute := by
    unfold pathBytes
    cases p.comps with
    | nil => rfl
    | cons c cs => rfl
  noNul := by
    unfold pathBytes
    split
    · decide
    · exact noNul_render p.names
  short := p.short

/-! ### Taking a path apart -/

theorem tokens_render {comps : List Name} (h : ∀ c ∈ comps, IsName c) :
    tokens (render comps) = comps := by
  induction comps using List.reverseRecOn with
  | nil => rfl
  | append_singleton comps c ih =>
    have hc : IsName c := h c (by simp)
    have hcs : ∀ d ∈ comps, IsName d := fun d hd => h d (List.mem_append_left _ hd)
    unfold tokens at ih ⊢
    rw [render_concat, List.splitOn_append_cons_self, List.filter_append, ih hcs,
      List.splitOn_eq_singleton hc.no_slash]
    simp [hc.ne_nil]

/-- What is read backwards from the end of `l/c`, up to the slash. -/
theorem rtakeWhile_concat_slash (l : List UInt8) {c : Name} (hc : slash ∉ c) :
    (l ++ slash :: c).rtakeWhile (· != slash) = c := by
  induction c using List.reverseRecOn with
  | nil => exact List.rtakeWhile_concat_neg _ _ _ (by simp)
  | append_singleton c x ih =>
    have hx : x ≠ slash := fun h => hc (by simp [h])
    have hc' : slash ∉ c := fun h => hc (List.mem_append_left _ h)
    rw [← List.cons_append, ← List.append_assoc,
      List.rtakeWhile_concat_pos _ _ _ (by simpa using hx), ih hc']

theorem rdropWhile_concat_slash (l : List UInt8) {c : Name} (hc : slash ∉ c) :
    (l ++ slash :: c).rdropWhile (· != slash) = l ++ [slash] := by
  have happ := List.rdropWhile_append_rtakeWhile (p := (· != slash)) (l := l ++ slash :: c)
  rw [rtakeWhile_concat_slash l hc] at happ
  refine List.append_cancel_right (happ.trans ?_)
  rw [List.append_assoc]
  rfl

/-- A rendered path does not end in a slash. -/
theorem stripSlashes_render {comps : List Name} (h : ∀ c ∈ comps, IsName c) :
    stripSlashes (render comps) = render comps := by
  induction comps using List.reverseRecOn with
  | nil => rfl
  | append_singleton comps c _ =>
    have hc : IsName c := h c (by simp)
    rw [render_concat]
    obtain ⟨c', x, rfl⟩ := List.eq_nil_or_concat c |>.resolve_left hc.ne_nil
    have hx : x ≠ slash := fun he => hc.no_slash (by simp [he])
    rw [List.concat_eq_append, ← List.cons_append, ← List.append_assoc]
    exact List.rdropWhile_concat_neg _ _ _ (by simpa using hx)

theorem names_concat {comps : List Name} {c : Name} (h : ∀ d ∈ comps, IsName d)
    (hc : IsName c) : ∀ d ∈ comps ++ [c], IsName d := by
  intro d hd
  rcases List.mem_append.mp hd with hd | hd
  · exact h d hd
  · rwa [List.mem_singleton.mp hd]

theorem stripSlashes_concat {comps : List Name} {c : Name} (h : ∀ d ∈ comps, IsName d)
    (hc : IsName c) : stripSlashes (render comps ++ slash :: c) = render comps ++ slash :: c := by
  rw [← render_concat]
  exact stripSlashes_render (names_concat h hc)

theorem pathBytes_concat (comps : List Name) (c : Name) :
    pathBytes (comps ++ [c]) = render comps ++ slash :: c := by
  rw [pathBytes, if_neg (by simp), render_concat]

theorem dirname_concat {comps : List Name} {c : Name} (h : ∀ d ∈ comps, IsName d)
    (hc : IsName c) : dirname (pathBytes (comps ++ [c])) = pathBytes comps := by
  -- the slash in front of the last component goes as well
  have hparent : stripSlashes (render comps ++ [slash]) = render comps := by
    rw [stripSlashes, List.rdropWhile_concat_pos _ _ _ (by simp)]
    exact stripSlashes_render h
  rw [dirname, pathBytes_concat, stripSlashes_concat h hc, rdropWhile_concat_slash _ hc.no_slash, hparent, pathBytes]
  cases comps with
  | nil => rfl
  | cons d ds => rfl

theorem basename_concat {comps : List Name} {c : Name} (h : ∀ d ∈ comps, IsName d)
    (hc : IsName c) : basename (pathBytes (comps ++ [c])) = c := by
  rw [basename, pathBytes_concat, stripSlashes_concat h hc, rtakeWhile_concat_slash _ hc.no_slash]
  exact if_neg hc.ne_nil

end Rufs
