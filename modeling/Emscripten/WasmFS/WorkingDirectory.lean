-- SUMMARY: The path that getcwd returns, and when resolving it leads back to the working directory.
import Emscripten.WasmFS.Consistent

/-!
# The path of the working directory

`getcwd` climbs the parent pointers and asks each parent for the name of its child. A
`MemoryDirectory` knows the names of its own entries only, so that a mounted directory
has no name and leaves an empty segment in the path. `Named` are the directories whose
every name on the way up is found; their paths lead back to them.
-/

namespace WasmFS

open Prog

/-! ## The syscall -/

/-- `MemoryDirectory::getName`: the mounts are not among the entries. -/
def FS.memoryGetName (s : FS) (d file : FileId) : Name :=
  match (s.file d).entries.find? fun e => e.2 = file with
  | some e => e.1
  | none => []

/-- `Directory::Handle::getName`. -/
def FS.getName (s : FS) (d file : FileId) : Name :=
  if (s.file d).maintainsFileIdentity then s.memoryGetName d file
  else match s.findInDCache d file with
    | some e => e.1
    | none => []

/-- The loop of `__syscall_getcwd`, above the path that it has collected. -/
def getcwdLoop : Nat → FileId → Path → Sys Path
  | 0, _, _ => Prog.crash
  | fuel + 1, curr, result => do
    if curr = (← Prog.gets fun s => s.rootDirectory) then pure result
    else
      admitFile curr
      match ← getParent curr with
      -- The working directory or one of its ancestors has been unlinked.
      | none => Prog.fail .ENOENT
      | some parent =>
        let name ← Prog.gets fun s => s.getName parent curr
        getcwdLoop fuel parent ('/' :: (name ++ result))

/-- `__syscall_getcwd`, where `buf` says whether there is a buffer: the path it stores and
the length it returns. -/
def getcwd (buf : Bool) (size : Nat) : Sys (Path × Nat) := do
  Prog.failIf (buf = false ∧ 0 < size) .EFAULT
  Prog.failIf (buf = true ∧ size = 0) .EINVAL
  let curr ← Prog.gets fun s => s.cwd
  -- The root may be refused too.
  admitFile curr
  let result ← getcwdLoop ((← Prog.gets fun s => s.nextFile) + 1) curr []
  let result := if result = [] then ['/'] else result
  let len := result.length + 1
  Prog.failIf (size < len) .ERANGE
  pure (result, len)

/-! ## Names are segments -/

namespace Path

def IsSegment (n : Name) : Prop := n ≠ [] ∧ '/' ∉ n

theorem isSegment_dot : IsSegment dot := ⟨by decide, by decide⟩

theorem not_mem_of_mem_splitOn (path : Path) : ∀ n ∈ path.splitOn '/', '/' ∉ n := by
  induction path with
  | nil => simp
  | cons c path ih =>
    intro n hn
    rw [List.splitOn_cons_eq_if_modifyHead] at hn
    split at hn
    · rcases List.mem_cons.mp hn with rfl | hn
      · exact List.not_mem_nil
      · exact ih n hn
    · next hc =>
        obtain ⟨first, rest, heq⟩ := List.exists_cons_of_ne_nil (List.splitOn_ne_nil '/' path)
        rw [heq, List.modifyHead_cons] at hn
        rcases List.mem_cons.mp hn with rfl | hn
        · intro hmem
          rcases List.mem_cons.mp hmem with rfl | hmem
          · exact hc (beq_self_eq_true '/')
          · exact ih first (heq ▸ List.mem_cons_self) hmem
        · exact ih n (heq ▸ List.mem_cons_of_mem first hn)

theorem isSegment_of_mem {path : Path} : ∀ n ∈ segments path, IsSegment n := by
  intro n hn
  obtain ⟨hmem, hne⟩ := List.mem_filter.mp hn
  exact ⟨of_decide_eq_true hne, not_mem_of_mem_splitOn path n hmem⟩

theorem segments_append_slash (p q : Path) : segments (p ++ '/' :: q) = segments p ++ segments q := by
  unfold segments
  rw [List.splitOn_append_cons_self, List.filter_append]

theorem segments_slash (q : Path) : segments ('/' :: q) = segments q := segments_append_slash [] q

theorem segments_segment {n : Name} (hn : IsSegment n) : segments n = [n] := by
  unfold segments
  rw [List.splitOn_eq_singleton hn.2]
  exact List.filter_eq_self.mpr (by simpa using hn.1)

/-- The absolute path through `names`. -/
def ofNames (names : List Name) : Path := names.flatMap fun n => '/' :: n

theorem ofNames_cons (n : Name) (names : List Name) : ofNames (n :: names) = '/' :: (n ++ ofNames names) :=
  List.flatMap_cons ..

theorem ofNames_append (names names' : List Name) :
    ofNames (names ++ names') = ofNames names ++ ofNames names' := List.flatMap_append ..

/-- A path through names leads through these names. -/
theorem segments_ofNames {names : List Name} (h : ∀ n ∈ names, IsSegment n) :
    segments (ofNames names) = names := by
  induction names with
  | nil => rfl
  | cons n names ih =>
    have hn := segments_segment (h n List.mem_cons_self)
    rw [ofNames_cons, segments_slash]
    cases names with
    | nil =>
      change segments (n ++ []) = [n]
      rw [List.append_nil, hn]
    | cons m names =>
      have hrest := ih fun x hx => h x (List.mem_cons_of_mem n hx)
      rw [ofNames_cons, segments_slash] at hrest
      rw [ofNames_cons, segments_append_slash, hn, hrest]
      rfl

/-- The walk ends at a segment of its path, or at ".". -/
theorem ensures_walk (follow : Follow) (path : List Name) (hpath : ∀ n ∈ path, IsSegment n) :
    ∀ (curr : FileId) (recursions : Nat),
      Ensures (fun _ => True) (walk follow path curr recursions) (fun p => IsSegment p.2.1) := by
  have hany : ∀ {α : Type} (m : Sys α), Ensures (fun _ => True) m (fun _ => True) := by
    intro α m
    refine .of_preserves fun s _ s' r _ => ?_
    cases r with
    | ok _ => exact trivial
    | error _ => exact trivial
  induction path with
  | nil =>
    intro curr recursions
    exact .pure isSegment_dot
  | cons segment rest ih =>
    intro curr recursions
    cases rest with
    | nil =>
      exact .bind (hany _) fun _ _ => .bind (hany _) fun _ _ => .pure (hpath segment List.mem_cons_self)
    | cons next rest =>
      exact .bind (hany _) fun p _ => .bind (hany _) fun _ _ => .bind (hany _) fun _ _ =>
        ih (fun n hn => hpath n (List.mem_cons_of_mem segment hn)) p.1 p.2

theorem isSegment_of_leads {s : FS} {path : Path} {dirfd : Int} {d : FileId} {n : Name}
    (h : s.Leads path dirfd d n) : IsSegment n := by
  obtain ⟨base, s₁, _, h⟩ := bind_ok_iff.mp h
  obtain ⟨⟨parent, leaf, recursions⟩, s₂, h, heq⟩ := bind_ok_iff.mp h
  cases heq
  obtain ⟨_, s₃, _, h⟩ := bind_ok_iff.mp h
  split at h
  · obtain ⟨_, s₄, _, h⟩ := bind_ok_iff.mp h
    obtain ⟨_, s₅, _, h⟩ := bind_ok_iff.mp h
    obtain ⟨_, s₆, _, h⟩ := bind_ok_iff.mp h
    exact (ensures_walk _ _ isSegment_of_mem _ _ s₆ trivial _ _ h).2
  · exact (ensures_walk _ _ isSegment_of_mem _ _ s₃ trivial _ _ h).2

end Path

/-! ## What holds of every state -/

/-- The entries of all directories are named by segments, and the root is a directory of
a memory backend. -/
structure FS.WellNamed (s : FS) : Prop where
  names : ∀ d n f, (n, f) ∈ s.tree.entries d → Path.IsSegment n
  root : ∃ m, (s.file s.rootDirectory).backend = some (.memory m)

section Invariant

variable {s s' : FS}

theorem wellNamed_init (root : Nat) (env : Env) : (FS.init root env).WellNamed where
  names d n f h := by
    rw [init_entries] at h
    split at h
    · have hall : ∀ p ∈ [("dev".toList, 4), ("tmp".toList, 8)], p.1 ≠ [] ∧ '/' ∉ p.1 := by decide
      exact hall _ h
    · exact absurd h List.not_mem_nil
  root := ⟨root, rfl⟩

/-- The root keeps its backend where the files keep theirs. -/
theorem FS.WellNamed.keepRoot (h : s.WellNamed) (hs : s.TreeSound)
    (hroot : s'.rootDirectory = s.rootDirectory)
    (hbackend : ∀ f, f < s.nextFile → (s'.file f).backend = (s.file f).backend) :
    ∃ m, (s'.file s'.rootDirectory).backend = some (.memory m) := by
  obtain ⟨m, hm⟩ := h.root
  refine ⟨m, ?_⟩
  rw [hroot]
  exact (hbackend _ hs.within.root_lt).trans hm

/-- The names of the entries after a call are old ones, or the one its path ends with. -/
theorem FS.WellNamed.call (h : s.WellNamed) (hs : s.TreeSound) {c : Call} (heffect : c.Effect s s') :
    s'.WellNamed := by
  cases heffect with
  | kept hkept =>
    refine ⟨?_, h.keepRoot hs (congrArg Tree.root hkept.tree) hkept.backend⟩
    rw [hkept.tree]
    exact h.names
  | grown path dirfd d n f hlead hgrown =>
    have hn := Path.isSegment_of_leads hlead
    rcases hgrown.tree with htree | htree
    · refine ⟨fun D m g hg => ?_, h.keepRoot hs (congrArg Tree.root htree) hgrown.backend⟩
      rw [htree, Tree.insertChild, Tree.setEntries_entries] at hg
      split at hg
      · rcases List.mem_append.mp hg with hg | hg
        · exact h.names d m g hg
        · cases List.mem_singleton.mp hg
          exact hn
      · exact h.names D m g hg
    · refine ⟨fun D m g hg => ?_, h.keepRoot hs (congrArg Tree.root htree) hgrown.backend⟩
      rw [htree] at hg
      exact h.names D m g hg
  | removed d n f hc hedit _ htree =>
    refine ⟨fun D m g hg => ?_, h.keepRoot hs hedit.root hedit.table.backend⟩
    rw [htree] at hg
    unfold Tree.removeChild at hg
    split at hg
    · exact h.names D m g hg
    · exact h.names D m g ((hs.linked.removeEntry_entries D m g).mp hg).1
  | renamed P a f Q b R hc hR hedit _ hmoved =>
    refine ⟨fun D m g hg => ?_, h.keepRoot hs hedit.root hedit.table.backend⟩
    rcases (hmoved.entries D m g).mp hg with ⟨_, rfl, _⟩ | ⟨hold, _⟩
    · cases c with
      | renameat olddirfd oldpath newdirfd newpath => exact Path.isSegment_of_leads hc.2.1
      | _ => exact hc.elim
    · exact h.names D m g hold
  | entered f _ _ hs => exact hs ▸ ⟨h.names, h.root⟩

theorem FS.WellNamed.step (h : s.WellNamed) (hs : s.Sound) (hstep : Step s s') : s'.WellNamed := by
  cases hstep with
  | call c _ r _ hr => exact h.call hs.tree (hs.call hr).2
  | expire d hd => exact ⟨fun D m g hg => h.names D m g (FS.mem_expire_entries hg).2, h.root⟩
  | other _ hsame =>
    have hkept := hsame.keepsTree
    refine ⟨?_, h.keepRoot hs.tree hsame.rootDirectory fun f _ => hsame.backend f⟩
    rw [hkept.tree]
    exact h.names

theorem Reachable.wellNamed (h : Reachable s) : s.WellNamed := by
  obtain ⟨root, env, hrun⟩ := h
  have hboth : s.Sound ∧ s.WellNamed := by
    induction hrun with
    | refl => exact ⟨sound_init root env, wellNamed_init root env⟩
    | tail _ hstep ih => exact ⟨ih.1.step hstep, ih.2.step ih.1 hstep⟩
  exact hboth.2

end Invariant

/-! ## Walking down -/

/-- The backend of the file admits an operation. -/
def FS.Admits (s : FS) (f : FileId) : Prop := admitFile f s = some (s, .ok ())

/-- The names lead from the directory `d` down to `f`, through directories that admit
operations. -/
def FS.Descends (s : FS) (d : FileId) : List Name → FileId → Prop
  | [], f => f = d
  | n :: names, f => ∃ c, s.tree.child d n = some c ∧ s.Admits c ∧ (s.file c).kind = .directory ∧
      FS.Descends s c names f

section Descent

variable {s : FS} {d e f : FileId} {n : Name} {names : List Name}

theorem getKind_eq (f : FileId) (s : FS) : getKind f s = some (s, .ok (s.file f).kind) := rfl

theorem FS.Admits.bind (h : s.Admits f) {α : Type} (k : Unit → Sys α) :
    (getBackend f >>= fun b => admitBackend b >>= k) s = k () s :=
  bind_of_ok (m := admitBackend (s.file f).backend) h

theorem FS.Descends.snoc (h : s.Descends d names e) (hchild : s.tree.child e n = some f)
    (hallow : s.Admits f) (hdir : (s.file f).kind = .directory) : s.Descends d (names ++ [n]) f := by
  induction names generalizing d with
  | nil =>
    cases h
    exact ⟨f, hchild, hallow, hdir, rfl⟩
  | cons m names ih =>
    obtain ⟨c, hc, hallowc, hdirc, hrest⟩ := h
    exact ⟨c, hc, hallowc, hdirc, ih hrest⟩

/-- The descent without its last name. -/
theorem FS.Descends.last (h : s.Descends d (names ++ [n]) f) (hd : s.Admits d) :
    ∃ e, s.Descends d names e ∧ s.Admits e ∧ s.tree.child e n = some f ∧ s.Admits f ∧
      (s.file f).kind = .directory := by
  induction names generalizing d with
  | nil =>
    obtain ⟨c, hc, hallow, hdir, rfl⟩ := h
    exact ⟨d, rfl, hd, hc, hallow, hdir⟩
  | cons m names ih =>
    obtain ⟨c, hc, hallow, hdir, hrest⟩ := h
    obtain ⟨e, hdesc, hlast⟩ := ih hrest hallow
    exact ⟨e, ⟨c, hc, hallow, hdir, hdesc⟩, hlast⟩

namespace Path

/-- A directory is found under its name, whichever way links are followed. -/
theorem getChild_directory (h : s.TreeSound) (hd : s.Admits d) (hchild : s.tree.child d n = some f)
    (hf : s.Admits f) (hdir : (s.file f).kind = .directory) (fuel : Nat) (recursions : Nat) :
    getChild (follow (fuel + 1)) d n recursions s = some (s, .ok (f, recursions)) := by
  have hget : Directory.getChild d n s = some (s, .ok (some f)) := hchild ▸ getChild_eq h d n
  refine (hd.bind _).trans ((bind_of_ok hget).trans ((hf.bind _).trans ?_))
  refine (bind_of_ok (getKind_eq f s)).trans ?_
  rw [if_pos (by rw [hdir]; decide)]
  rfl

/-- The walk down to the last name. -/
theorem walk_descends (h : s.TreeSound) (leaf : Name) (recursions : Nat) : ∀ {d : FileId},
    s.Descends d names e → s.Admits d →
      walk followLinks (names ++ [leaf]) d recursions s = some (s, .ok (e, leaf, recursions)) := by
  induction names with
  | nil =>
    intro d hdesc hd
    obtain rfl : e = d := hdesc
    exact hd.bind _
  | cons n names ih =>
    intro d hdesc hd
    obtain ⟨c, hc, hallow, hdir, hrest⟩ := hdesc
    have hfound := getChild_directory h hd hc hallow hdir MAX_RECURSIONS recursions
    obtain ⟨next, rest, heq⟩ : ∃ next rest, names ++ [leaf] = next :: rest :=
      List.exists_cons_of_ne_nil (by simp)
    have hwalk : walk followLinks (n :: (names ++ [leaf])) d recursions =
        (getChild followLinks d n recursions >>= fun p => getKind p.1 >>= fun k =>
          Prog.failIf (k ≠ .directory) .ENOTDIR >>= fun _ =>
            walk followLinks (names ++ [leaf]) p.1 p.2) := by
      rw [heq]
      rfl
    rw [List.cons_append, hwalk]
    refine (bind_of_ok hfound).trans ((bind_of_ok (getKind_eq c s)).trans ?_)
    rw [failIf_bind_apply, if_neg (by rw [hdir]; decide)]
    exact ih hrest hallow

/-- The absolute path through names leads where they descend to. -/
theorem parseFile_ofNames (h : s.TreeSound) (hroot : s.Admits s.rootDirectory)
    (hsegments : ∀ n ∈ names, IsSegment n) (hdesc : s.Descends s.rootDirectory names f) :
    parseFile (if ofNames names = [] then ['/'] else ofNames names) AT_FDCWD followLinks s =
      some (s, .ok f) := by
  have hbase : ∀ path : Path, path.head? = some '/' →
      base path AT_FDCWD s = some (s, .ok s.rootDirectory) := by
    intro path hpath
    unfold base
    rw [if_pos hpath]
    exact hroot.bind _
  have hparent : ∀ path : Path, path.head? = some '/' →
      doParseParent followLinks path s.rootDirectory 0 s =
        walk followLinks (segments path) s.rootDirectory 0 s := by
    intro path hpath
    have hne : path ≠ [] := by
      rintro rfl
      cases hpath
    unfold doParseParent
    rw [failIf_bind_apply, if_neg hne, if_pos hpath]
    exact hroot.bind _
  have hfile : ∀ (path : Path) (e : FileId) (leaf : Name), path.head? = some '/' →
      walk followLinks (segments path) s.rootDirectory 0 s = some (s, .ok (e, leaf, 0)) →
      s.Admits e → s.tree.child e leaf = some f → s.Admits f → (s.file f).kind = .directory →
      parseFile path AT_FDCWD followLinks s = some (s, .ok f) := by
    intro path e leaf hpath hwalk he hchild hf hdir
    refine (bind_of_ok (hbase path hpath)).trans ?_
    refine (bind_of_ok ((hparent path hpath).trans hwalk)).trans ?_
    exact bind_of_ok (getChild_directory h he hchild hf hdir MAX_RECURSIONS 0)
  rcases List.eq_nil_or_concat names with rfl | ⟨names, leaf, rfl⟩
  · obtain rfl : f = s.rootDirectory := hdesc
    exact hfile ['/'] s.rootDirectory dot rfl rfl hroot (Tree.child_dot h.linked.root_parent) hroot
      h.root_dir
  · rw [List.concat_eq_append] at hsegments hdesc ⊢
    obtain ⟨e, hdesc, he, hchild, hf, hdir⟩ := hdesc.last hroot
    have hhead : (ofNames (names ++ [leaf])).head? = some '/' := by
      cases names with
      | nil => rfl
      | cons n names => rfl
    have hne : ofNames (names ++ [leaf]) ≠ [] := by
      intro hnil
      rw [hnil] at hhead
      cases hhead
    rw [if_neg hne]
    refine hfile _ e leaf hhead ?_ he hchild hf hdir
    rw [segments_ofNames hsegments]
    exact walk_descends h leaf 0 hdesc hroot

end Path

/-! ## Climbing up -/

/-- The directory is the root, or an entry of a named directory, under a name of its own
that no other mount hides. -/
inductive FS.Named (s : FS) : FileId → Prop
  | root : s.Named s.rootDirectory
  | entry (d : FileId) (n : Name) (f : FileId) (hd : s.Named d) (h : (n, f) ∈ (s.file d).entries)
      (hn : n ≠ dot ∧ n ≠ dotDot) (hhides : ∀ e, (s.file d).dcache.lookup n = some e → e.file = f) :
      s.Named f

theorem FS.getName_entry (h : s.tree.Linked) (hmem : (n, f) ∈ s.tree.entries d) : s.getName d f = n := by
  have hfound : ((s.file d).entries.find? fun e => e.2 = f) = some (n, f) := by
    cases hfind : (s.file d).entries.find? fun e => e.2 = f with
    | none => exact absurd (decide_eq_true rfl) (List.find?_eq_none.mp hfind (n, f) hmem)
    | some p =>
      have hp : p.2 = f := by simpa using List.find?_some hfind
      have hin := List.mem_of_find?_eq_some hfind
      exact congrArg some (List.inj_on_of_nodup_map (h.files_nodup d) hin hmem hp)
  unfold FS.getName FS.memoryGetName
  rw [hfound]
  exact if_pos rfl

theorem FS.child_entry (h : s.tree.Linked) (hmem : (n, f) ∈ s.tree.entries d)
    (hn : n ≠ dot ∧ n ≠ dotDot) (hhides : ∀ e, s.tree.mount d n = some e → e.file = f)
    (hd : s.tree.parent d ≠ none) : s.tree.child d n = some f := by
  refine (Tree.child_eq_some hn.1 hn.2).mpr ⟨hd, ?_⟩
  cases hm : s.tree.mount d n with
  | none => exact .inr ⟨rfl, h.lookup_iff.mpr hmem⟩
  | some e => exact .inl ⟨e, rfl, hhides e hm⟩

theorem FS.Named.parent_ne_none (h : s.tree.Linked) (hnamed : s.Named f) : s.tree.parent f ≠ none := by
  cases hnamed with
  | root => rw [show s.tree.parent s.rootDirectory = some s.rootDirectory from h.root_parent]; simp
  | entry d n _ _ hmem _ _ => rw [h.entry_parent d n f hmem]; simp

theorem getcwdLoop_root (fuel : Nat) (result : Path) :
    getcwdLoop (fuel + 1) s.rootDirectory result s = some (s, .ok result) := by
  unfold getcwdLoop
  rw [gets_bind_apply, if_pos rfl]
  rfl

/-- One round of the loop, below the root. -/
theorem getcwdLoop_round (hne : f ≠ s.rootDirectory) (fuel : Nat) (result : Path) :
    getcwdLoop (fuel + 1) f result s = (admitFile f >>= fun _ => match (s.file f).parent with
      | none => Prog.fail .ENOENT
      | some d => getcwdLoop fuel d ('/' :: (s.getName d f ++ result))) s := by
  conv_lhs => unfold getcwdLoop
  rw [gets_bind_apply, if_neg hne]
  change Prog.seq _ _ s = Prog.seq _ _ s
  unfold Prog.seq
  cases hallow : admitFile f s with
  | none => rfl
  | some p =>
    obtain ⟨s₁, r⟩ := p
    obtain ⟨rfl, _⟩ := reads_admitFile f _ _ hallow
    cases r with
    | error _ => rfl
    | ok _ =>
      change (match (s₁.file f).parent with
        | none => Prog.fail .ENOENT
        | some parent => (Prog.gets fun s => s.getName parent f) >>= fun name =>
          getcwdLoop fuel parent ('/' :: (name ++ result)) : Sys Path) s₁ = _
      cases (s₁.file f).parent with
      | none => rfl
      | some d => rfl

/-- The loop collects the names that lead down to where it started. -/
theorem getcwdLoop_named (hs : s.TreeSound) (hw : s.WellNamed) (hnamed : s.Named f) :
    ∀ {fuel : Nat} {result p : Path} {s' : FS}, getcwdLoop fuel f result s = some (s', .ok p) →
      s' = s ∧ ∃ names, (∀ n ∈ names, Path.IsSegment n) ∧ p = Path.ofNames names ++ result ∧
        ((s.file f).kind = .directory → s.Descends s.rootDirectory names f) := by
  induction hnamed with
  | root =>
    intro fuel result p s' hr
    cases fuel with
    | zero => cases hr
    | succ fuel =>
      rw [getcwdLoop_root] at hr
      cases hr
      exact ⟨rfl, [], fun n hn => absurd hn List.not_mem_nil, rfl, fun _ => rfl⟩
  | entry d n f hd hmem hn hhides ih =>
    intro fuel result p s' hr
    cases fuel with
    | zero => cases hr
    | succ fuel =>
      have hl := hs.linked
      have hne : f ≠ s.rootDirectory := by
        rintro rfl
        exact hl.root_entry d n hmem
      have hp : (s.file f).parent = some d := hl.entry_parent d n f hmem
      rw [getcwdLoop_round hne, hp] at hr
      obtain ⟨_, s₁, hallow, hr⟩ := bind_ok_iff.mp hr
      obtain ⟨rfl, _⟩ := reads_admitFile f _ _ hallow
      simp only [FS.getName_entry hl hmem] at hr
      obtain ⟨hs', names, hsegments, hp, hdesc⟩ := ih hr
      have hdir : (s₁.file d).kind = .directory := by
        by_contra hkind
        have hempty := (hs.leaf d hkind).1
        change (n, f) ∈ s₁.tree.entries d at hmem
        rw [hempty] at hmem
        cases hmem
      refine ⟨hs', names ++ [n], ?_, ?_, fun hkind => ?_⟩
      · intro m hm
        rcases List.mem_append.mp hm with hm | hm
        · exact hsegments m hm
        · cases List.mem_singleton.mp hm
          exact hw.names d n f hmem
      · rw [hp, Path.ofNames_append, List.append_assoc]
        congr 1
        rw [Path.ofNames_cons]
        simp [Path.ofNames]
      · exact (hdesc hdir).snoc (FS.child_entry hl hmem hn hhides (hd.parent_ne_none hl)) hallow hkind

end Descent

/-- Whenever `getcwd` succeeds in a named working directory, its path leads back. -/
theorem getcwd_resolves {s s' : FS} (h : Reachable s) (hnamed : s.Named s.cwd) {buf : Bool}
    {size len : Nat} {p : Path} (hr : getcwd buf size s = some (s', .ok (p, len))) :
    s' = s ∧ Path.parseFile p AT_FDCWD Path.followLinks s = some (s, .ok s.cwd) := by
  obtain ⟨_, hr⟩ := failIf_bind_ok_iff.mp hr
  obtain ⟨_, hr⟩ := failIf_bind_ok_iff.mp hr
  obtain ⟨curr, s₁, hcurr, hr⟩ := bind_ok_iff.mp hr
  cases hcurr
  obtain ⟨_, s₂, hallow, hr⟩ := bind_ok_iff.mp hr
  obtain ⟨rfl, _⟩ := reads_admitFile _ _ _ hallow
  obtain ⟨next, s₃, hnext, hr⟩ := bind_ok_iff.mp hr
  cases hnext
  obtain ⟨result, s₄, hloop, hr⟩ := bind_ok_iff.mp hr
  have hs := h.sound.tree
  obtain ⟨rfl, names, hsegments, hp, hdesc⟩ := getcwdLoop_named hs h.wellNamed hnamed hloop
  rw [List.append_nil] at hp
  subst hp
  obtain ⟨_, hr⟩ := failIf_bind_ok_iff.mp hr
  cases hr
  obtain ⟨m, hm⟩ := h.wellNamed.root
  have hroot : s'.Admits s'.rootDirectory := by
    change admitBackend (s'.file s'.rootDirectory).backend s' = _
    rw [hm]
    rfl
  exact ⟨rfl, Path.parseFile_ofNames hs hroot hsegments (hdesc hs.cwd_dir.2)⟩

/-- A new instance whose working directory is "/tmp". -/
def inTmp : FS := (FS.init 0 Env.quiet).after (.chdir "/tmp".toList)

theorem getcwd_resolves_tmp : inTmp.Named inTmp.cwd ∧
    getcwd true 5 inTmp = some (inTmp, .ok ("/tmp".toList, 5)) ∧
      Path.parseFile "/tmp".toList AT_FDCWD Path.followLinks inTmp = some (inTmp, .ok 8) := by
  have hreach : Reachable inTmp := (Reachable.init 0 Env.quiet).after 1 _ rfl (by decide)
  have hnamed : inTmp.Named 8 :=
    .entry 3 "tmp".toList 8 .root (by decide) (by decide) fun e he => by cases he
  have hrun : getcwd true 5 inTmp = some (inTmp, .ok ("/tmp".toList, 5)) := rfl
  exact ⟨hnamed, hrun, (getcwd_resolves hreach hnamed hrun).2⟩

/-- The instance of `withMount`, in the mounted directory. -/
def inMount : FS := withMount.after (.chdir "/m".toList)

theorem reachable_inMount : Reachable inMount := reachable_withMount.after 2 _ rfl (by decide)

/-- The mounted directory has no name: its path is that of the directory above it. -/
theorem getcwd_of_mount : ¬ ∀ (s s' : FS) (buf : Bool) (size len : Nat) (p : Path), Reachable s →
    getcwd buf size s = some (s', .ok (p, len)) →
      s' = s ∧ Path.parseFile p AT_FDCWD Path.followLinks s = some (s, .ok s.cwd) := by
  intro hall
  have hrun : getcwd true 10 inMount = some (inMount, .ok ("/".toList, 2)) := rfl
  have hroot : Path.parseFile "/".toList AT_FDCWD Path.followLinks inMount = some (inMount, .ok 3) := rfl
  obtain ⟨_, hcwd⟩ := hall inMount inMount true 10 2 "/".toList reachable_inMount hrun
  rw [hroot] at hcwd
  have hne : (3 : FileId) = inMount.cwd := by
    simpa using hcwd
  exact absurd hne (by decide)

end WasmFS
