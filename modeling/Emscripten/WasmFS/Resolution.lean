-- SUMMARY: Path resolution against its reference: a fold over the segments in which a link is replaced by its target.
import Emscripten.Lib.Costed
import Emscripten.WasmFS.PathText

/-!
# The reference resolution

The reference knows nothing of base descriptors, counters or nested calls. It holds a directory and
the names that are still ahead, takes one name after the other, and puts the names of a link's
target in the place of the link. Following a link costs one unit.

The code follows the reference within a budget of `MAX_RECURSIONS` links, for every tree and every
graph of links.
-/

namespace WasmFS

open Costed

/-! ## The reference -/

/-- What a resolution sees of a file system. -/
structure NameSpace (F : Type) where
  root : F
  /-- The directory that a file is in. A file that has been unlinked is in none. -/
  above : F → Option F
  binding : F → Name → Option F
  /-- The target of a symbolic link. -/
  target : F → Option Path
  isDir : F → Bool
  /-- The backend of a file may refuse to be used. -/
  mayUse : F → Except Errno Unit
  root_above : above root = some root

/-- Where a resolution stops: at the place of the last name, at what the last name leads to, or at
the end of the chain of links that starts there. -/
inductive Mode
  | parent
  | noFollow
  | follow
deriving DecidableEq, Repr

inductive Found (F : Type)
  | slot (dir : F) (leaf : Name)
  | file (f : F)
deriving DecidableEq, Repr

namespace Path

/-- The names of a path. A path of slashes only names its base, as "." does. -/
def names (path : Path) : List Name := if segments path = [] then [dot] else segments path

end Path

namespace NameSpace

variable {F : Type} (v : NameSpace F)

/-- The names in a directory. One that has been unlinked has none, not even "." and "..". -/
def find (dir : F) (name : Name) : Option F :=
  match v.above dir with
  | none => none
  | some parent =>
    if name = dot then some dir
    else if name = dotDot then some parent
    else v.binding dir name

/-- A resolution reads a path from a directory, looks a name up in a directory, or has found a file
in a directory; in each case with the names that are ahead behind it. -/
inductive Config (F : Type)
  | read (dir : F) (path : Path) (ahead : List Name)
  | look (dir : F) (ahead : List Name)
  | met (dir child : F) (ahead : List Name)

/-- The move of the reference resolution. -/
def next (mode : Mode) : Config F → Move (Config F) (Except Errno (Found F))
  | .read dir path ahead =>
    if path = [] then .halt (.error .ENOENT)
    else .free (.look (if path.head? = some '/' then v.root else dir) (path.names ++ ahead))
  | .look dir [] => .halt (.ok (.file dir))
  | .look dir (name :: ahead) =>
    match v.mayUse dir with
    | .error e => .halt (.error e)
    | .ok () =>
      if mode = .parent ∧ ahead = [] then .halt (.ok (.slot dir name))
      else match v.find dir name with
        | none => .halt (.error .ENOENT)
        | some child =>
          match v.mayUse child with
          | .error e => .halt (.error e)
          | .ok () => .free (.met dir child ahead)
  | .met dir child ahead =>
    match v.target child with
    -- a link is replaced by its target, read from the directory the link is in
    | some target =>
      if mode = .noFollow ∧ ahead = [] then .halt (.ok (.file child))
      else .pay (.read dir target ahead)
    | none =>
      if ahead = [] then .halt (.ok (.file child))
      else if v.isDir child then .free (.look child ahead)
      else .halt (.error .ENOTDIR)

end NameSpace

/-! ## The file system as a namespace -/

/-- What a directory lists has the directory as its parent, and the root is its own parent. -/
structure FS.ParentsAgree (s : FS) : Prop where
  entry : ∀ d n f, (s.file d).entries.lookup n = some f → (s.file f).parent = some d
  root : (s.file s.rootDirectory).parent = some s.rootDirectory

theorem FS.TreeSound.parentsAgree {s : FS} (h : s.TreeSound) : s.ParentsAgree where
  entry d n f hf := h.linked.entry_parent d n f (h.linked.lookup_iff.mp hf)
  root := h.linked.root_parent

theorem Reachable.parentsAgree {s : FS} (h : Reachable s) : s.ParentsAgree := h.sound.tree.parentsAgree

/-- `WasmFS::admitBackend` of the backend of `f`. -/
def FS.admits (s : FS) (f : FileId) : Except Errno Unit :=
  match (s.file f).backend with
  | none => .ok ()
  | some (.memory _) => .ok ()
  | some b => s.env.acquireProfileOperation b

def FS.nameSpace (s : FS) (h : s.ParentsAgree) : NameSpace FileId where
  root := s.rootDirectory
  above d := (s.file d).parent
  binding d n :=
    match (s.file d).dcache.lookup n with
    | some e => some e.file
    | none => (s.file d).entries.lookup n
  target f := if (s.file f).kind = .symlink then some (s.file f).target else none
  isDir f := decide ((s.file f).kind = .directory)
  mayUse := s.admits
  root_above := h.root

/-- The directory that `path` is read from. An absolute path does not look at `basefd`. -/
def FS.start (s : FS) (path : Path) (basefd : Int) : Except Errno FileId :=
  if path.head? = some '/' then (s.admits s.rootDirectory).map fun _ => s.rootDirectory
  else if basefd = AT_FDCWD then (s.admits s.cwd).map fun _ => s.cwd
  else match s.getEntry basefd with
    | none => .error .EBADF
    | some o =>
      match s.admits (s.openFile o).file with
      | .error e => .error e
      | .ok () =>
        if (s.file (s.openFile o).file).kind = .directory then .ok (s.openFile o).file
        else .error .ENOTDIR

/-- The reference resolution of a path ends with `r`, after `k` links. -/
def FS.Resolves (s : FS) (h : s.ParentsAgree) (mode : Mode) (path : Path) (basefd : Int) (k : Nat)
    (r : Except Errno (Found FileId)) : Prop :=
  match s.start path basefd with
  | .error e => k = 0 ∧ r = .error e
  | .ok dir => Halts ((s.nameSpace h).next mode) (.read dir path []) k r

namespace PathText

/-- The three ways in which the code resolves a path. -/
def resolve (mode : Mode) (path : Path) (basefd : Int) : Sys (Found FileId) :=
  match mode with
  | .parent => do
    let (dir, leaf) ← parseParent path basefd
    pure (.slot dir leaf)
  | .noFollow => do
    let file ← parseFile path basefd Path.noFollow
    pure (.file file)
  | .follow => do
    let file ← parseFile path basefd followLinks
    pure (.file file)

end PathText

/-! ## The code follows the reference -/

variable (path : Path) (basefd : Int) {links : Follow}

namespace Path

variable {s : FS} {mode : Mode}

theorem admit_apply {α : Type} (f : FileId) (k : Sys α) :
    (do admitBackend (← getBackend f); k) s =
      match s.admits f with
      | .ok () => k s
      | .error e => some (s, .error e) := by
  change (admitBackend (s.file f).backend >>= fun _ => k) s = _
  have huse : admitBackend (s.file f).backend s = some (s, s.admits f) := by
    unfold admitBackend FS.admits
    cases (s.file f).backend with
    | none => rfl
    | some b => cases b <;> rfl
  cases hr : s.admits f with
  | ok _ => exact Prog.bind_of_ok (hr ▸ huse)
  | error e => exact Prog.bind_of_error (hr ▸ huse)

theorem base_apply : base path basefd s = some (s, s.start path basefd) := by
  unfold base FS.start
  split
  · refine (Prog.gets_bind_apply _ _ _).trans ((admit_apply _ _).trans ?_)
    cases s.admits s.rootDirectory <;> rfl
  · unfold getBaseDir
    split
    · refine (Prog.gets_bind_apply _ _ _).trans ((admit_apply _ _).trans ?_)
      cases s.admits s.cwd <;> rfl
    · refine (Prog.gets_bind_apply _ _ _).trans ?_
      cases s.getEntry basefd with
      | none => rfl
      | some o =>
        refine (Prog.gets_bind_apply _ _ _).trans ((admit_apply _ _).trans ?_)
        cases hadm : s.admits (s.openFile o).file with
        | error e => simp [hadm]
        | ok _ =>
          simp only [hadm]
          refine (Prog.gets_bind_apply _ _ _).trans ((Prog.failIf_bind_apply _).trans ?_)
          by_cases hkind : (s.file (s.openFile o).file).kind = .directory
          · simp [hkind]
          · simp [hkind]

/-- A lookup reads. -/
theorem find_apply (h : s.ParentsAgree) (d : FileId) (n : Name) :
    Directory.getChild d n s = some (s, .ok ((s.nameSpace h).find d n)) := by
  unfold Directory.getChild NameSpace.find
  have habove : (s.nameSpace h).above d = (s.file d).parent := rfl
  rw [habove]
  cases (s.file d).parent with
  | none => rfl
  | some p =>
    have hbinding : (s.nameSpace h).binding d n =
        (match (s.file d).dcache.lookup n with
          | some e => some e.file
          | none => (s.file d).entries.lookup n) := rfl
    simp only [hbinding]
    split
    · rfl
    · split
      · rfl
      · cases (s.file d).dcache.lookup n with
        | some e => rfl
        | none =>
          cases hc : (s.file d).entries.lookup n with
          | none => simp [FS.memoryGetChild, hc]
          | some c =>
            -- the child names `d` as its parent already
            have hsame : s.cacheChild d n c .normal = s := by
              have hnot : ¬ (DCacheKind.normal = .mount ∨
                  (s.file d).maintainsFileIdentity = false) := by
                unfold File.maintainsFileIdentity
                decide
              unfold FS.cacheChild
              rw [if_neg hnot]
              exact s.setParent_eq_self c (h.entry d n c hc)
            simp [FS.memoryGetChild, hc, hsame]

/-- The program follows the reference, having followed `paid` links. -/
def Follows {α : Type} (h : s.ParentsAgree) (mode : Mode) (c : NameSpace.Config FileId) (paid : Nat) (m : Sys α)
    (count : α → Nat) (Q : α → NameSpace.Config FileId → Prop) : Prop :=
  Within ((s.nameSpace h).next mode) MAX_RECURSIONS .ELOOP s c paid m count Q

section Follows

variable {α β : Type} {h : s.ParentsAgree} {c c' : NameSpace.Config FileId} {paid : Nat} {m : Sys α}
  {count : α → Nat} {Q : α → NameSpace.Config FileId → Prop}

theorem Follows.used {f : FileId} (hb : paid ≤ MAX_RECURSIONS)
    (hrefused : ∀ e, s.admits f = .error e → (s.nameSpace h).next mode c = .halt (.error e))
    (hok : s.admits f = .ok () → Follows h mode c paid m count Q) :
    Follows h mode c paid (do admitBackend (← getBackend f); m) count Q := by
  cases hr : s.admits f with
  | ok _ =>
    refine Within.of_eq ?_ (hok hr)
    rw [admit_apply, hr]
  | error e =>
    refine Within.of_eq ?_ (Within.failed (e := e) hb (hrefused e hr))
    rw [admit_apply, hr]
    rfl

theorem Follows.failIf {p : Prop} [Decidable p] {e : Errno} {k : Unit → Sys α} (hb : paid ≤ MAX_RECURSIONS)
    (hfail : p → (s.nameSpace h).next mode c = .halt (.error e))
    (hok : ¬ p → Follows h mode c paid (k ()) count Q) :
    Follows h mode c paid (Prog.failIf p e >>= k) count Q := by
  by_cases hp : p
  · refine Within.of_eq ?_ (Within.failed (e := e) hb (hfail hp))
    rw [Prog.failIf_bind_apply, if_pos hp]
    rfl
  · refine Within.of_eq ?_ (hok hp)
    rw [Prog.failIf_bind_apply, if_neg hp]

/-- When at least `low` links have been counted, the way of following links that `getChild` is
given follows the reference from what was found with `ahead` behind it, and gets to what `Q` says. -/
def FollowsLinks (h : s.ParentsAgree) (mode : Mode) (links : Follow) (low : Nat) (ahead : List Name)
    (Q : FileId → NameSpace.Config FileId → Prop) : Prop :=
  ∀ dir child recursions, low ≤ recursions → recursions ≤ MAX_RECURSIONS →
    Follows h mode (.met dir child ahead) recursions (links dir child recursions) Prod.snd
      fun p => Q p.1

theorem follows_getChild {low : Nat} {ahead : List Name} {Q : FileId → NameSpace.Config FileId → Prop}
    (hlinks : FollowsLinks h mode links low ahead Q) (hmode : mode = .parent → ahead ≠ []) {dir : FileId}
    {name : Name} (hlow : low ≤ paid) (hb : paid ≤ MAX_RECURSIONS) :
    Follows h mode (.look dir (name :: ahead)) paid (getChild links dir name paid) Prod.snd
      fun p => Q p.1 := by
  have hmode : ¬ (mode = .parent ∧ ahead = []) := fun hm => hmode hm.1 hm.2
  refine Follows.used hb (fun e he => ?_) fun hdir => ?_
  · have huse : (s.nameSpace h).mayUse dir = .error e := he
    simp only [NameSpace.next, huse]
  have hdir : (s.nameSpace h).mayUse dir = .ok () := hdir
  refine Within.of_eq (Prog.bind_of_ok (find_apply h dir name)) ?_
  cases hfind : (s.nameSpace h).find dir name with
  | none =>
    refine Within.failed hb ?_
    simp only [NameSpace.next, hdir, if_neg hmode, hfind]
  | some child =>
    refine Follows.used hb (fun e he => ?_) fun hchild => ?_
    · have huse : (s.nameSpace h).mayUse child = .error e := he
      simp only [NameSpace.next, hdir, if_neg hmode, hfind, huse]
    · have hchild : (s.nameSpace h).mayUse child = .ok () := hchild
      have hmove : (s.nameSpace h).next mode (.look dir (name :: ahead)) = .free (.met dir child ahead) := by
        simp only [NameSpace.next, hdir, if_neg hmode, hfind, hchild]
      exact Within.ahead (.one_free hmove) (hlinks dir child paid hlow hb)

/-- At the end of a chain of links: the file is not a link. -/
def AtEnd (s : FS) (ahead : List Name) (f : FileId) (c : NameSpace.Config FileId) : Prop :=
  (s.file f).kind ≠ .symlink ∧ ∃ dir, c = .met dir f ahead

theorem target_of_ne {f : FileId} (hf : (s.file f).kind ≠ .symlink) : (s.nameSpace h).target f = none :=
  if_neg hf

/-- The loop goes down to the last of the names. -/
theorem follows_walk {low : Nat}
    (hlinks : ∀ ahead, ahead ≠ [] → FollowsLinks h mode links low ahead (AtEnd s ahead)) (name : Name)
    (names ahead : List Name) : ∀ {curr : FileId} {paid : Nat}, low ≤ paid → paid ≤ MAX_RECURSIONS →
      Follows h mode (.look curr (name :: names ++ ahead)) paid (walk links (name :: names) curr paid)
        (fun p => p.2.2) fun p c => c = .look p.1 (p.2.1 :: ahead) ∧ s.admits p.1 = .ok () := by
  induction names generalizing name with
  | nil =>
    intro curr paid hlow hb
    refine Follows.used hb (fun e he => ?_) fun hcurr => ?_
    · have huse : (s.nameSpace h).mayUse curr = .error e := he
      simp only [NameSpace.next, List.cons_append, huse]
    · exact Within.here rfl hb ⟨rfl, hcurr⟩
  | cons second names ih =>
    intro curr paid hlow hb
    have hne : second :: names ++ ahead ≠ [] := List.cons_ne_nil _ _
    refine Within.bind (follows_getChild (hlinks _ hne) (fun _ => hne) hlow hb) ?_
    intro ⟨child, recursions⟩ c' hend hmore hb
    obtain ⟨hkind, dir, rfl⟩ := hend
    refine Within.of_eq (Prog.gets_bind_apply _ _ _) ?_
    have hnone : (s.nameSpace h).target child = none := target_of_ne hkind
    refine Follows.failIf hb (fun hdir => ?_) fun hdir => ?_
    · have hnot : (s.nameSpace h).isDir child = false := decide_eq_false hdir
      simp [NameSpace.next, hnone, hnot]
    · have hyes : (s.nameSpace h).isDir child = true := decide_eq_true (not_not.mp hdir)
      have hmove : (s.nameSpace h).next mode (.met dir child (second :: names ++ ahead)) =
          .free (.look child (second :: names ++ ahead)) := by
        simp [NameSpace.next, hnone, hyes]
      exact Within.ahead (.one_free hmove) (ih second (hlow.trans hmore) hb)

theorem segments_ne_nil {path : Path} (hne : path ≠ []) (hslash : path.head? ≠ some '/') :
    segments path ≠ [] := by
  obtain ⟨c, rest, rfl⟩ := List.exists_cons_of_ne_nil hne
  have hskip : PathText.skip (c :: rest) = c :: rest := by
    apply List.dropWhile_cons_of_neg
    simpa using hslash
  by_cases hmem : '/' ∈ PathText.skip (c :: rest)
  · rw [PathText.segments_of_mem hmem]
    exact List.cons_ne_nil _ _
  · rw [PathText.segments_of_not_mem (by rw [hskip]; exact hne) hmem]
    exact List.cons_ne_nil _ _

/-- The place of the last name, in a directory that may be used. -/
def AtSlot (s : FS) (ahead : List Name) (p : FileId × Name × Nat) (c : NameSpace.Config FileId) : Prop :=
  c = .look p.1 (p.2.1 :: ahead) ∧ s.admits p.1 = .ok ()

theorem follows_doParseParent {low : Nat}
    (hlinks : ∀ ahead, ahead ≠ [] → FollowsLinks h mode links low ahead (AtEnd s ahead)) (path : Path)
    (ahead : List Name) {curr : FileId} (hlow : low ≤ paid) (hb : paid ≤ MAX_RECURSIONS) :
    Follows h mode (.read curr path ahead) paid (doParseParent links path curr paid) (fun p => p.2.2)
      (AtSlot s ahead) := by
  refine Follows.failIf hb (fun hnil => ?_) fun hne => ?_
  · simp [NameSpace.next, hnil]
  by_cases hslash : path.head? = some '/'
  · have hmove : (s.nameSpace h).next mode (.read curr path ahead) =
        .free (.look s.rootDirectory (path.names ++ ahead)) := by
      simp only [NameSpace.next, if_neg hne, if_pos hslash]
      rfl
    refine Within.ahead (.one_free hmove) ?_
    refine Within.of_eq ((congrFun (if_pos hslash) s).trans (Prog.gets_bind_apply _ _ _)) ?_
    obtain ⟨first, rest, hnames⟩ : ∃ first rest, path.names = first :: rest := by
      unfold names
      split
      · exact ⟨dot, [], rfl⟩
      · exact List.exists_cons_of_ne_nil ‹_›
    refine Follows.used hb (fun e he => ?_) fun hroot => ?_
    · have huse : (s.nameSpace h).mayUse s.rootDirectory = .error e := he
      simp only [hnames, NameSpace.next, List.cons_append, huse]
    unfold names at hnames ⊢
    cases hsegs : segments path with
    | nil => exact Within.here rfl hb ⟨rfl, hroot⟩
    | cons name names => exact follows_walk hlinks name names ahead hlow hb
  · have hsegs := segments_ne_nil hne hslash
    have hmove : (s.nameSpace h).next mode (.read curr path ahead) =
        .free (.look curr (segments path ++ ahead)) := by
      simp [NameSpace.next, if_neg hne, if_neg hslash, names, hsegs]
    refine Within.ahead (.one_free hmove) ?_
    refine Within.of_eq (congrFun (if_neg hslash) s) ?_
    obtain ⟨name, names, hnames⟩ := List.exists_cons_of_ne_nil hsegs
    rw [hnames]
    exact follows_walk hlinks name names ahead hlow hb

/-- The loop over a chain of links. The fuel and the links counted so far are together above the
limit, so that the fuel lasts. -/
theorem followsLinks_follow (fuel : Nat) : ∀ (low : Nat) (ahead : List Name), MAX_RECURSIONS < fuel + low →
    mode = .follow ∨ ahead ≠ [] → FollowsLinks h mode (follow fuel) low ahead (AtEnd s ahead) := by
  induction fuel with
  | zero =>
    intro low ahead hfuel _ dir child recursions hlow hb
    omega
  | succ fuel ih =>
    intro low ahead hfuel hahead dir child recursions hlow hb
    refine Within.of_eq (Prog.gets_bind_apply _ _ _) ?_
    by_cases hkind : (s.file child).kind = .symlink
    · have hmode : ¬ (mode = .noFollow ∧ ahead = []) := by
        rintro ⟨rfl, rfl⟩
        obtain hf | hf := hahead
        · cases hf
        · exact hf rfl
      have htarget : (s.nameSpace h).target child = some (s.file child).target := if_pos hkind
      have hmove : (s.nameSpace h).next mode (.met dir child ahead) =
          .pay (.read dir (s.file child).target ahead) := by
        simp only [NameSpace.next, htarget, if_neg hmode]
      refine Within.of_eq (congrFun (if_neg (not_not.mpr hkind)) s) ?_
      by_cases hlimit : MAX_RECURSIONS < recursions + 1
      · -- one link too many
        refine .inr (.inr ⟨1, _, ?_, hlimit, .one_pay hmove⟩)
        rw [Prog.failIf_bind_apply, if_pos hlimit]
      refine Within.of_eq ((Prog.failIf_bind_apply s).trans (if_neg hlimit)) ?_
      refine Within.of_eq (Prog.gets_bind_apply _ _ _) ?_
      have hb : recursions + 1 ≤ MAX_RECURSIONS := Nat.not_lt.mp hlimit
      refine Within.ahead (.one_pay hmove) ?_
      refine Follows.failIf hb (fun hnil => ?_) fun hne => ?_
      · simp [NameSpace.next, hnil]
      -- from here on one more link is counted, which makes up for the fuel
      have hfuel : MAX_RECURSIONS < fuel + (recursions + 1) := by omega
      refine Within.bind (follows_doParseParent (fun rest hrest => ih _ rest hfuel (.inr hrest))
        (s.file child).target ahead (Nat.le_refl _) hb) ?_
      intro ⟨parent, leaf, counted⟩ c' ⟨hslot, _⟩ hmore hb
      subst hslot
      have hparent : mode = .parent → ahead ≠ [] := by
        rintro rfl
        exact hahead.resolve_left nofun
      refine Within.bind (follows_getChild (ih _ ahead hfuel hahead) hparent hmore hb) ?_
      intro ⟨next, counted'⟩ c' hend hmore' hb
      -- what was found is no link, so that the loop ends
      refine Within.of_eq ?_ (Within.here rfl hb hend)
      obtain ⟨fuel, rfl⟩ : ∃ n, fuel = n + 1 := ⟨fuel - 1, by omega⟩
      exact (Prog.gets_bind_apply _ _ _).trans (congrFun (if_pos hend.1) s)
    · refine Within.of_eq (congrFun (if_pos hkind) s) ?_
      exact Within.here rfl hb ⟨hkind, dir, rfl⟩

end Follows

/-! ## Whole resolutions -/

section Result

variable {α : Type} {m : FileId → Sys α} {count : α → Nat} {value : α → Found FileId}
  {Q : α → NameSpace.Config FileId → Prop}

/-- What the reference says of a resolution: its result within the limit of links, and `ELOOP`
beyond it, in particular where the reference does not end. -/
def Agrees (h : s.ParentsAgree) (mode : Mode) (path : Path) (basefd : Int) (r : Except Errno (Found FileId)) :
    Prop :=
  (∀ k r', s.Resolves h mode path basefd k r' →
    r = if k ≤ MAX_RECURSIONS then r' else .error .ELOOP) ∧
  ((∀ k r', ¬ s.Resolves h mode path basefd k r') → r = .error .ELOOP)

theorem resolves_from_base {h : s.ParentsAgree}
    (hm : ∀ dir, Follows h mode (.read dir path []) 0 (m dir) count Q)
    (hQ : ∀ a c, Q a c → (s.nameSpace h).next mode c = .halt (.ok (value a))) :
    ∃ r, (do let dir ← base path basefd; let a ← m dir; pure (value a)) s = some (s, r) ∧
      Agrees h mode path basefd r := by
  unfold Agrees FS.Resolves
  cases hstart : s.start path basefd with
  | error e =>
    refine ⟨.error e, Prog.bind_of_error ((base_apply path basefd).trans (by rw [hstart])), ?_, ?_⟩
    · rintro k r' ⟨rfl, rfl⟩
      rfl
    · intro hnever
      exact absurd ⟨rfl, rfl⟩ (hnever 0 (.error e))
  | ok dir =>
    obtain ⟨r, hrun, hagrees⟩ := Within.result (hm dir) hQ
    refine ⟨r.map value, ?_, hagrees.1, fun hnever => ?_⟩
    · refine (Prog.bind_of_ok ((base_apply path basefd).trans (by rw [hstart]))).trans ?_
      cases r with
      | ok a => exact Prog.bind_of_ok hrun
      | error e => exact Prog.bind_of_error hrun
    · rw [hagrees.2 hnever]
      rfl

end Result

end Path

namespace PathText

variable {s : FS}

/-- Resolve the path from a directory, on its segments. -/
def find (links : Path.Follow) (path : Path) (dir : FileId) : Sys (FileId × Nat) := do
  let p ← Path.doParseParent Path.followLinks path dir 0
  Path.getChild links p.1 p.2.1 p.2.2

theorem resolve_parent :
    resolve .parent path basefd = (do
      let dir ← Path.base path basefd
      let p ← Path.doParseParent Path.followLinks path dir 0
      pure (.slot p.1 p.2.1)) := by
  simp only [resolve, parseParent_eq, Path.parseParent, bind_assoc]
  rfl

theorem parseFile_eq_find (links : Path.Follow) :
    (do let file ← parseFile path basefd links; pure (.file file)) = (do
      let dir ← Path.base path basefd
      let f ← find links path dir
      pure (Found.file f.1)) := by
  simp only [parseFile_eq, Path.parseFile, Path.doParseFile, find, bind_assoc]
  rfl

theorem resolve_noFollow :
    resolve .noFollow path basefd = (do
      let dir ← Path.base path basefd
      let f ← find Path.noFollow path dir
      pure (.file f.1)) :=
  parseFile_eq_find path basefd Path.noFollow

theorem resolve_follow :
    resolve .follow path basefd = (do
      let dir ← Path.base path basefd
      let f ← find Path.followLinks path dir
      pure (.file f.1)) := by
  have hlinks : followLinks = Path.followLinks := follow_eq _
  rw [← parseFile_eq_find, ← hlinks]
  rfl

theorem resolve_agrees (h : s.ParentsAgree) (mode : Mode) (path : Path) (basefd : Int) :
    ∃ r, resolve mode path basefd s = some (s, r) ∧ Path.Agrees h mode path basefd r := by
  have hlinks : ∀ ahead, mode = .follow ∨ ahead ≠ [] →
      Path.FollowsLinks h mode Path.followLinks 0 ahead (Path.AtEnd s ahead) := fun ahead =>
    Path.followsLinks_follow _ 0 ahead (Nat.lt_succ_self _)
  have hparse : ∀ dir, Path.Follows h mode (.read dir path []) 0
      (Path.doParseParent Path.followLinks path dir 0) (fun p => p.2.2) (Path.AtSlot s []) := fun dir =>
    Path.follows_doParseParent (fun ahead hne => hlinks ahead (.inr hne)) path [] (Nat.le_refl 0)
      (Nat.zero_le _)
  cases mode with
  | parent =>
    rw [resolve_parent]
    refine Path.resolves_from_base path basefd hparse ?_
    rintro ⟨dir, leaf, recursions⟩ c ⟨rfl, hdir⟩
    have huse : (s.nameSpace h).mayUse dir = .ok () := hdir
    simp only [NameSpace.next, huse, and_self, if_true]
  | noFollow =>
    have hfind : ∀ dir, Path.Follows h .noFollow (.read dir path []) 0 (find Path.noFollow path dir)
        Prod.snd (fun p c => ∃ dir, c = .met dir p.1 []) := by
      intro dir
      refine Costed.Within.bind (hparse dir) ?_
      rintro ⟨parent, leaf, recursions⟩ c ⟨rfl, -⟩ hlow hb
      have hlast : Path.FollowsLinks h .noFollow Path.noFollow 0 []
          (fun f c => ∃ dir, c = .met dir f []) :=
        fun dir child recursions _ hb => Costed.Within.here rfl hb ⟨dir, rfl⟩
      exact Path.follows_getChild hlast nofun hlow hb
    rw [resolve_noFollow]
    refine Path.resolves_from_base path basefd hfind ?_
    rintro ⟨f, recursions⟩ c ⟨dir, rfl⟩
    cases htarget : (s.nameSpace h).target f with
    | none => simp [NameSpace.next, htarget]
    | some target => simp [NameSpace.next, htarget]
  | follow =>
    have hfind : ∀ dir, Path.Follows h .follow (.read dir path []) 0 (find Path.followLinks path dir)
        Prod.snd (fun p => Path.AtEnd s [] p.1) := by
      intro dir
      refine Costed.Within.bind (hparse dir) ?_
      rintro ⟨parent, leaf, recursions⟩ c ⟨rfl, -⟩ hlow hb
      exact Path.follows_getChild (hlinks [] (.inl rfl)) nofun hlow hb
    rw [resolve_follow]
    refine Path.resolves_from_base path basefd hfind ?_
    rintro ⟨f, recursions⟩ c ⟨hkind, dir, rfl⟩
    have hnone : (s.nameSpace h).target f = none := Path.target_of_ne hkind
    simp only [NameSpace.next, hnone, if_true]

/-- A path is read through its segments and whether it is absolute. -/
theorem resolve_congr {path path' : Path} (hhead : path.head? = some '/' ↔ path'.head? = some '/')
    (hnil : path = [] ↔ path' = []) (hsegs : Path.segments path = Path.segments path') (mode : Mode)
    (basefd : Int) : resolve mode path basefd = resolve mode path' basefd := by
  have hbase : Path.base path basefd = Path.base path' basefd := by
    unfold Path.base
    simp only [hhead]
  have hparse : ∀ follow dir recursions, Path.doParseParent follow path dir recursions =
      Path.doParseParent follow path' dir recursions := by
    intro follow dir recursions
    have hfail : (Prog.failIf (path = []) .ENOENT : Sys Unit) = Prog.failIf (path' = []) .ENOENT := by
      unfold Prog.failIf
      simp only [hnil]
    unfold Path.doParseParent
    simp only [hhead, hfail, hsegs]
  cases mode with
  | parent => simp only [resolve_parent, hbase, hparse]
  | noFollow => simp only [resolve_noFollow, find, hbase, hparse]
  | follow => simp only [resolve_follow, find, hbase, hparse]

theorem resolve_trailing_slash (mode : Mode) {path : Path} (hne : path ≠ []) (basefd : Int) :
    resolve mode (path ++ ['/']) basefd = resolve mode path basefd := by
  refine resolve_congr ?_ ?_ ?_ mode basefd
  · cases path with
    | nil => exact absurd rfl hne
    | cons c path => rfl
  · simp [hne]
  · rw [Path.segments_append_slash]
    exact List.append_nil _

theorem resolve_repeated_slash (mode : Mode) (p q : Path) (basefd : Int) :
    resolve mode (p ++ '/' :: '/' :: q) basefd = resolve mode (p ++ '/' :: q) basefd := by
  refine resolve_congr ?_ ?_ ?_ mode basefd
  · cases p with
    | nil => simp
    | cons c p => simp
  · simp
  · rw [Path.segments_append_slash, Path.segments_append_slash, Path.segments_slash]

/-- For every tree and every graph of links, a resolution of a path returns and leaves the state as it
is; its result is that of the reference if the reference follows at most `MAX_RECURSIONS` links, and
`ELOOP` otherwise. Slashes that are repeated or at the end change nothing. -/
theorem path_resolution {s : FS} (h : s.ParentsAgree) (mode : Mode) (path : Path) (basefd : Int) :
    (∃ r, resolve mode path basefd s = some (s, r) ∧ Path.Agrees h mode path basefd r) ∧
      (path ≠ [] → resolve mode (path ++ ['/']) basefd = resolve mode path basefd) ∧
      ∀ p q, path = p ++ '/' :: q → resolve mode (p ++ '/' :: '/' :: q) basefd = resolve mode path basefd := by
  refine ⟨resolve_agrees h mode path basefd, fun hne => resolve_trailing_slash mode hne basefd, ?_⟩
  rintro p q rfl
  exact resolve_repeated_slash mode p q basefd

/-- The working directory is "/tmp", which has been removed. -/
def removed : FS :=
  ((FS.init 0 .quiet).after (.chdir "/tmp".toList)).after (.unlinkat AT_FDCWD "/tmp".toList AT_REMOVEDIR)

theorem reachable_removed : Reachable removed := by
  refine Reachable.after (Reachable.after (.init 0 .quiet) 3 _ ?_ ?_) 3 _ ?_ ?_
  · decide
  · decide
  · decide
  · decide

/-- A slash behind the name of a device is accepted, and a directory that has been removed does not
have "." any more. -/
theorem slash_accepted_dot_missing :
    (¬ ∀ (s : FS), s.ParentsAgree → ∀ (path : Path) (basefd : Int) (f : FileId),
      resolve .follow (path ++ ['/']) basefd s = some (s, .ok (.file f)) → (s.file f).kind = .directory) ∧
    ¬ ∀ (s : FS), s.ParentsAgree → (s.file s.cwd).kind = .directory →
      resolve .follow dot AT_FDCWD s = some (s, .ok (.file s.cwd)) := by
  constructor
  · intro hall
    have hstdin : (resolve .follow ("/dev/stdin".toList ++ ['/']) AT_FDCWD (FS.init 0 .quiet)).map Prod.snd =
        some (.ok (.file 0)) := by
      rw [resolve_follow]
      decide +kernel
    have hagree := (Reachable.init 0 .quiet).parentsAgree
    obtain ⟨r, hrun, -⟩ := resolve_agrees hagree .follow ("/dev/stdin".toList ++ ['/']) AT_FDCWD
    rw [hrun] at hstdin
    cases Option.some.inj hstdin
    exact absurd (hall _ hagree _ _ _ hrun) (by decide)
  · intro hall
    have hdot : (resolve .follow dot AT_FDCWD removed).map Prod.snd = some (.error .ENOENT) := by
      rw [resolve_follow]
      decide
    rw [hall removed reachable_removed.parentsAgree (by decide)] at hdot
    cases hdot

/-- A root directory with a link "loop" to itself and a link "up" to "dev/..". -/
def looped : FS :=
  ((FS.init 0 .quiet).after (.symlinkat "loop".toList AT_FDCWD "/loop".toList)).after
    (.symlinkat "dev/..".toList AT_FDCWD "/up".toList)

theorem reachable_looped : Reachable looped := by
  refine Reachable.after (Reachable.after (.init 0 .quiet) 3 _ ?_ ?_) 3 _ ?_ ?_
  · decide
  · decide
  · decide
  · decide

theorem path_resolution_looped :
    (resolve .follow "/loop/x".toList AT_FDCWD looped).map Prod.snd = some (.error .ELOOP) ∧
      (∃ r, resolve .follow "/up/dev/".toList AT_FDCWD looped = some (looped, r) ∧
        Path.Agrees reachable_looped.parentsAgree .follow "/up/dev/".toList AT_FDCWD r) ∧
      resolve .follow ("/up/dev/".toList ++ ['/']) AT_FDCWD looped =
        resolve .follow "/up/dev/".toList AT_FDCWD looped := by
  obtain ⟨hresult, htrailing, -⟩ :=
    path_resolution reachable_looped.parentsAgree .follow "/up/dev/".toList AT_FDCWD
  refine ⟨?_, hresult, congrFun (htrailing (by decide)) looped⟩
  rw [resolve_follow]
  decide +kernel

end PathText

end WasmFS
