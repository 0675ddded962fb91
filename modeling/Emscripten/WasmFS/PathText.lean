-- SUMMARY: Path resolution on the characters of a path, as the code reads them; it takes the same way as on the segments.
import Mathlib.Data.List.DropRight
import Emscripten.WasmFS.WorkingDirectory

/-!
# The text of a path

The code walks a `std::string_view`: it drops the slashes at the end, then one segment after the
other with the slashes before it. The functions of this module do just that. What they find is what
their namesakes of `Path` find, which are given the segments.
-/

namespace WasmFS

variable {path : Path}

namespace PathText

open Path (Follow IsSegment segments)

/-- Skip any leading '/' of a segment. -/
def skip (path : Path) : Path := path.dropWhile (· == '/')

/-- The characters before the first slash. -/
def segment (path : Path) : Name := path.takeWhile (· != '/')

/-- What is left from the first slash on. -/
def beyond (path : Path) : Path := path.dropWhile (· != '/')

/-- Ignore trailing '/'. -/
def trim (path : Path) : Path := path.rdropWhile (· == '/')

theorem beyond_suffix (path : Path) : beyond path <:+ path := List.dropWhile_suffix _

theorem skip_suffix (path : Path) : skip path <:+ path := List.dropWhile_suffix _

theorem segment_append_beyond (path : Path) : segment path ++ beyond path = path :=
  List.takeWhile_append_dropWhile

theorem not_mem_segment (path : Path) : '/' ∉ segment path := by
  intro h
  simpa using List.mem_takeWhile_imp h

/-- What is left after the leading slashes begins with another character. -/
theorem segment_skip_ne_nil (h : skip path ≠ []) : segment (skip path) ≠ [] := by
  obtain ⟨c, rest, heq⟩ := List.exists_cons_of_ne_nil h
  have hhead := List.head_dropWhile_not (fun x => x == '/') h
  have hc : (c != '/') = true := by
    have hcons : (skip path).head h = c := by simp [heq]
    unfold skip at hcons
    rw [hcons] at hhead
    simpa using hhead
  have hcons : segment (c :: rest) = c :: segment rest := List.takeWhile_cons_of_pos hc
  rw [heq, hcons]
  exact List.cons_ne_nil _ _

theorem beyond_lt (h : '/' ∈ skip path) : (beyond (skip path)).length < path.length := by
  have hseg := List.length_pos_of_ne_nil (segment_skip_ne_nil (List.ne_nil_of_mem h))
  have hlen := congrArg List.length (segment_append_beyond (skip path))
  have hle := (skip_suffix path).length_le
  rw [List.length_append] at hlen
  omega

/-- The loop of `doParseParent` over what is left of the path. -/
def walk (follow : Follow) (path : Path) (curr : FileId) (recursions : Nat) :
    Sys (FileId × Name × Nat) :=
  let left := skip path
  if _h : '/' ∈ left then do
    let (child, recursions) ← Path.getChild follow curr (segment left) recursions
    Prog.failIf ((← getKind child) ≠ .directory) .ENOTDIR
    walk follow (beyond left) child recursions
  else do
    admitBackend (← getBackend curr)
    pure (curr, left, recursions)
termination_by path.length
decreasing_by exact beyond_lt _h

def doParseParent (follow : Follow) (path : Path) (curr : FileId) (recursions : Nat) :
    Sys (FileId × Name × Nat) := do
  Prog.failIf (path = []) .ENOENT
  if path.head? = some '/' then
    let root ← Prog.gets fun s => s.rootDirectory
    admitBackend (← getBackend root)
    let path := trim path.tail
    if path = [] then pure (root, dot, recursions) else walk follow path root recursions
  else
    let path := trim path
    if path = [] then pure (curr, dot, recursions) else walk follow path curr recursions

/-- The loop in `getChild` over the chain of links. -/
def follow : Nat → Follow
  | 0 => fun _ _ _ => Prog.crash
  | fuel + 1 => fun dir child recursions => do
    if (← getKind child) ≠ .symlink then pure (child, recursions)
    else
      Prog.failIf (MAX_RECURSIONS < recursions + 1) .ELOOP
      let target ← Prog.gets fun s => (s.file child).target
      Prog.failIf (target = []) .ENOENT
      let (parent, leaf, recursions) ← doParseParent (follow fuel) target dir (recursions + 1)
      let (next, recursions) ← Path.getChild (follow fuel) parent leaf recursions
      follow fuel dir next recursions

def followLinks : Follow := follow (MAX_RECURSIONS + 1)

/-- `path::parseParent`. -/
def parseParent (path : Path) (basefd : Int) : Sys (FileId × Name) := do
  let baseDir ← Path.base path basefd
  let (parent, leaf, _) ← doParseParent followLinks path baseDir 0
  pure (parent, leaf)

/-- `path::parseFile`. -/
def parseFile (path : Path) (basefd : Int) (links : Follow) : Sys FileId := do
  let baseDir ← Path.base path basefd
  let (parent, leaf, recursions) ← doParseParent followLinks path baseDir 0
  let (file, _) ← Path.getChild links parent leaf recursions
  pure file

/-! ## The text and the segments -/

theorem segments_skip (path : Path) : segments (skip path) = segments path := by
  induction path with
  | nil => rfl
  | cons c path ih =>
    by_cases hc : c = '/'
    · subst hc
      rw [Path.segments_slash, ← ih]
      rfl
    · have hskip : skip (c :: path) = c :: path := by
        unfold skip
        exact List.dropWhile_cons_of_neg (by simpa using hc)
      rw [hskip]

theorem segments_trim (path : Path) : segments (trim path) = segments path := by
  induction path using List.reverseRecOn with
  | nil => rfl
  | append_singleton path c ih =>
    by_cases hc : c = '/'
    · subst hc
      have htrim : trim (path ++ ['/']) = trim path :=
        List.rdropWhile_concat_pos _ _ _ (beq_self_eq_true '/')
      rw [htrim, ih, Path.segments_append_slash]
      exact (List.append_nil _).symm
    · have htrim : trim (path ++ [c]) = path ++ [c] :=
        List.rdropWhile_concat_neg _ _ _ (by simpa using hc)
      rw [htrim]

/-- The path ends in a character that is not a slash. -/
def EndsInName (path : Path) : Prop := ∃ h : path ≠ [], path.getLast h ≠ '/'

theorem endsInName_trim (h : trim path ≠ []) : EndsInName (trim path) := by
  refine ⟨h, ?_⟩
  have hlast : ¬ ((trim path).getLast h == '/') = true :=
    List.rdropWhile_last_not (· == '/') path h
  simpa using hlast

theorem EndsInName.suffix {rest : Path} (h : EndsInName path) (hs : rest <:+ path) (hne : rest ≠ []) :
    EndsInName rest := by
  obtain ⟨hp, hlast⟩ := h
  refine ⟨hne, ?_⟩
  rw [hs.getLast hne]
  exact hlast

theorem EndsInName.skip_ne_nil (h : EndsInName path) : skip path ≠ [] := by
  obtain ⟨hp, hlast⟩ := h
  intro hnil
  have hall := List.dropWhile_eq_nil_iff.mp hnil _ (List.getLast_mem hp)
  exact hlast (by simpa using hall)

/-- The first segment of a path with a slash behind it. -/
theorem segments_of_mem (h : '/' ∈ skip path) :
    segments path = segment (skip path) :: segments (beyond (skip path)) := by
  have hne := segment_skip_ne_nil (List.ne_nil_of_mem h)
  have hseg : IsSegment (segment (skip path)) := ⟨hne, not_mem_segment _⟩
  have hbeyond : beyond (skip path) ≠ [] := by
    intro hnil
    have happ := segment_append_beyond (skip path)
    rw [hnil, List.append_nil] at happ
    exact not_mem_segment _ (happ ▸ h)
  obtain ⟨c, rest, heq⟩ := List.exists_cons_of_ne_nil hbeyond
  have hc : c = '/' := by
    have hhead := List.head_dropWhile_not (fun x => x != '/') hbeyond
    have hcons : (beyond (skip path)).head hbeyond = c := by simp [heq]
    unfold beyond at hcons
    rw [hcons] at hhead
    simpa using hhead
  subst hc
  calc segments path
      = segments (segment (skip path) ++ '/' :: rest) := by
        rw [← segments_skip, ← heq, segment_append_beyond]
    _ = segment (skip path) :: segments (beyond (skip path)) := by
        rw [Path.segments_append_slash, Path.segments_segment hseg, heq, Path.segments_slash]
        rfl

theorem segments_of_not_mem (hne : skip path ≠ []) (h : '/' ∉ skip path) : segments path = [skip path] := by
  rw [← segments_skip]
  exact Path.segments_segment ⟨hne, h⟩

theorem EndsInName.segments_ne_nil (h : EndsInName path) : segments path ≠ [] := by
  by_cases hmem : '/' ∈ skip path
  · rw [segments_of_mem hmem]
    exact List.cons_ne_nil _ _
  · rw [segments_of_not_mem h.skip_ne_nil hmem]
    exact List.cons_ne_nil _ _

/-- The loop takes the way through the segments. -/
theorem walk_eq (follow : Follow) (h : EndsInName path) (curr : FileId) (recursions : Nat) :
    walk follow path curr recursions = Path.walk follow (segments path) curr recursions := by
  induction path, curr, recursions using walk.induct with
  | case1 path curr recursions left hmem ih =>
    have hne : beyond (skip path) ≠ [] := by
      intro hnil
      have happ := segment_append_beyond (skip path)
      rw [hnil, List.append_nil] at happ
      have hleft : '/' ∈ skip path := hmem
      exact not_mem_segment _ (happ ▸ hleft)
    have hrest : EndsInName (beyond (skip path)) :=
      h.suffix ((beyond_suffix _).trans (skip_suffix path)) hne
    obtain ⟨next, rest, hsegs⟩ := List.exists_cons_of_ne_nil hrest.segments_ne_nil
    have ih := fun child recursions => ih child recursions hrest
    rw [walk, dif_pos hmem, segments_of_mem hmem]
    rw [hsegs] at ih ⊢
    refine bind_congr fun ⟨child, recursions⟩ => ?_
    refine bind_congr fun kind => ?_
    refine bind_congr fun _ => ?_
    exact ih child recursions
  | case2 path curr recursions left hmem =>
    rw [walk, dif_neg hmem, segments_of_not_mem h.skip_ne_nil hmem]
    rfl

theorem doParseParent_eq (follow : Follow) (path : Path) (curr : FileId) (recursions : Nat) :
    doParseParent follow path curr recursions = Path.doParseParent follow path curr recursions := by
  have htrim : ∀ (path : Path) (curr : FileId),
      (if trim path = [] then (pure (curr, dot, recursions) : Sys (FileId × Name × Nat))
        else walk follow (trim path) curr recursions) =
      Path.walk follow (segments path) curr recursions := by
    intro path curr
    rw [← segments_trim]
    split
    · next hnil =>
        rw [hnil]
        rfl
    · next hne => exact walk_eq follow (endsInName_trim hne) curr recursions
  unfold doParseParent Path.doParseParent
  refine bind_congr fun _ => ?_
  split
  · next hslash =>
      cases path with
      | nil => cases hslash
      | cons c path =>
        cases hslash
        refine bind_congr fun root => ?_
        refine bind_congr fun b => ?_
        refine bind_congr fun _ => ?_
        rw [Path.segments_slash]
        exact htrim path root
  · exact htrim path curr

theorem follow_eq (fuel : Nat) : follow fuel = Path.follow fuel := by
  induction fuel with
  | zero => rfl
  | succ fuel ih =>
    funext dir child recursions
    unfold follow Path.follow
    simp only [ih, doParseParent_eq]

theorem parseParent_eq (path : Path) (basefd : Int) :
    parseParent path basefd = Path.parseParent path basefd := by
  unfold parseParent Path.parseParent followLinks Path.followLinks
  simp only [follow_eq, doParseParent_eq]

theorem parseFile_eq (path : Path) (basefd : Int) (links : Follow) :
    parseFile path basefd links = Path.parseFile path basefd links := by
  unfold parseFile Path.parseFile Path.doParseFile followLinks Path.followLinks
  simp only [follow_eq, doParseParent_eq]

end PathText

end WasmFS
