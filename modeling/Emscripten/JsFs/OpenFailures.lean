-- SUMMARY: What a failing `open` or `createPipe` leaves behind, and when that is nothing.
import Mathlib.Data.List.Find
import Emscripten.JsFs.Opening

/-!
# Failing opens

`open` makes and truncates its file before it has a descriptor, and registers the stream
before the device is opened; `createPipe` registers one end before the other. Where one of
the later steps throws, what was done before stays.
-/

namespace JsFs

open Prog

/-! ## What a program sees of a state -/

/-- The same node, with the same bytes where it is a file. -/
def Node.SameAs (nd nd' : Node) : Prop :=
  nd'.parent = nd.parent ∧ nd'.name = nd.name ∧ nd'.perm = nd.perm ∧ nd'.mount = nd.mount ∧
    nd'.mounted = nd.mounted ∧
      (nd'.data = nd.data ∨ nd.isFile = true ∧ nd'.isFile = true ∧ nd'.bytes = nd.bytes)

theorem Node.SameAs.refl {nd : Node} : nd.SameAs nd := ⟨rfl, rfl, rfl, rfl, rfl, .inl rfl⟩

/-- The streams, the tree and the files are as they were. Names of pipes are not in the tree. -/
structure FS.Unchanged [Build] (s s' : FS) : Prop where
  stream : ∀ fd, s'.getStream fd = s.getStream fd
  shared : ∀ fd st, s.getStream fd = some st → s'.shared st.shared = s.shared st.shared
  node : ∀ n < s.nextInode, (s.node n).SameAs (s'.node n)
  lookup : ∀ parent < s.nextInode, parent ≠ s.pipefsRoot → ∀ name,
    s'.hashLookup parent name = s.hashLookup parent name
  root : s'.root = s.root
  mount : s'.mount = s.mount
  currentPath : s'.currentPath = s.currentPath

variable {s : FS} {path : Path} {flags : Flags} {n : NodeId}

theorem FS.Unchanged.refl [Build] : s.Unchanged s :=
  ⟨fun _ => rfl, fun _ _ _ => rfl, fun _ _ => .refl, fun _ _ _ _ => rfl, rfl, rfl, rfl⟩

/-- A descriptor that `nextfd` returns is free. -/
theorem nextfd_free {fd : Nat} (h : s.nextfd = .ok fd) : s.getStream fd = none := by
  have hfirst : ∀ k fd₀, s.firstFree k fd₀ = some fd → s.getStream fd = none := by
    intro k
    induction k with
    | zero => intro fd₀ h; cases h
    | succ k ih =>
      intro fd₀ h
      unfold FS.firstFree at h
      split at h
      · next hfree =>
          cases h
          exact Option.isNone_iff_eq_none.mp hfree
      · exact ih _ h
  unfold FS.nextfd at h
  split at h
  · next fd' hfd =>
      cases h
      exact hfirst _ _ hfd
  · cases h

/-! ## The parts of `open` -/

/-- The state with a file emptied. -/
def FS.emptied (s : FS) (n : NodeId) (f : FileData) : FS :=
  s.setNode n { s.node n with data := .file (f.resizeFileStorage 0) }

theorem checkNode_created (n : NodeId) (flags : Flags) (s : FS) : checkNode n true flags s =
    if Has flags O_DIRECTORY ∧ ¬ (s.node n).isDir then some (s, .error .ENOTDIR)
    else some (s, .ok ()) := by
  unfold checkNode
  simp only [gets_bind_apply, id_eq, failIf_bind_apply]
  split
  · rfl
  · simp [doIf]

/-- The checks of a node that was found pass. -/
structure FS.Passes (s : FS) (n : NodeId) (flags : Flags) : Prop where
  dir : ¬ (Has flags O_DIRECTORY ∧ ¬ (s.node n).isDir)
  may : s.mayOpen n flags = none

theorem checkNode_of_passes (h : s.Passes n flags) : checkNode n false flags s =
    doIf (Has flags O_TRUNC) (doTruncate n 0) s := by
  unfold checkNode
  simp only [gets_bind_apply, id_eq, failIf_bind_apply, h.dir, if_false, h.may]
  simp [doIf, throwIf]

theorem checkNode_of_not_passes (h : ¬ s.Passes n flags) :
    ∃ e, checkNode n false flags s = some (s, .error e) := by
  unfold checkNode
  simp only [gets_bind_apply, id_eq, failIf_bind_apply]
  split
  · exact ⟨.ENOTDIR, rfl⟩
  · next hdir =>
      cases hmay : s.mayOpen n flags with
      | none => exact absurd ⟨hdir, hmay⟩ h
      | some e => exact ⟨e, rfl⟩

theorem doTruncate_cases (n : NodeId) (s : FS) : (∃ e, doTruncate n 0 s = some (s, .error e)) ∨
    ∃ f, (s.node n).data = .file f ∧ s.nodePermissions n (some ['w']) = none ∧
      doTruncate n 0 s = some (s.emptied n f, .ok ()) := by
  unfold doTruncate
  rw [gets_bind_apply]
  cases hdata : (s.node n).data with
  | file f =>
    cases hperm : s.nodePermissions n (some ['w']) with
    | none => exact .inr ⟨f, rfl, rfl, by simp only [id_eq, hdata, hperm]; rfl⟩
    | some e => exact .inl ⟨e, by simp only [id_eq, hdata, hperm]; rfl⟩
  | _ => exact .inl ⟨_, by simp only [id_eq, hdata]; rfl⟩

/-- The table with the new stream in it. -/
def FS.registered (s : FS) (n : NodeId) (path : Path) (flags : Flags) (fd : Nat) : FS :=
  (s.newShared ⟨streamFlags flags, 0⟩).setStream fd (some ⟨n, path, true, s.nextShared, .memfs⟩)

variable {e : Errno} {f : FileData} {s₁ : FS}

theorem registerStream_full {path : Path} (hp : s.pathOf n = some path) (hfd : s.nextfd = .error e)
    (flags : Flags) : registerStream n flags s = some (s, .error e) := by
  have hget : getPath n s = some (s, .ok path) := by simp [getPath, hp]
  unfold registerStream
  rw [bind_of_ok hget]
  apply bind_of_error
  rw [createStream_apply, hfd]

theorem registerStream_free {path : Path} {fd : Nat} (hp : s.pathOf n = some path)
    (hfd : s.nextfd = .ok fd) (flags : Flags) : registerStream n flags s =
      (openStream fd n >>= fun _ => pure fd) (s.registered n path flags fd) := by
  have hget : getPath n s = some (s, .ok path) := by simp [getPath, hp]
  have hcreate : createStream n path (streamFlags flags) true .memfs s =
      some (s.registered n path flags fd, .ok fd) := by
    rw [createStream_apply, hfd]
    rfl
  unfold registerStream
  rw [bind_of_ok hget, bind_of_ok hcreate]

theorem openStream_plain (h : (s.node n).isChrdev = false) (fd : Nat) :
    openStream fd n s = some (s, .ok ()) := by
  unfold Node.isChrdev at h
  unfold openStream
  rw [gets_bind_apply]
  cases hdata : (s.node n).data with
  | chrdev rdev => simp [hdata] at h
  | _ => simp only [id_eq, hdata]; rfl

/-- A device that cannot be opened. -/
def FS.DeviceFails (s : FS) (rdev : Nat) : Prop :=
  ∀ d, s.devices rdev = some d → d.openError ≠ none

/-- The stream of a device is in the table, whether its `open` throws or not. -/
theorem openStream_device {rdev fd : Nat} {st : Stream} (hdata : (s.node n).data = .chrdev rdev)
    (hst : s.getStream fd = some st) : ∃ s' r, openStream fd n s = some (s', r) ∧
      (s'.getStream fd).isSome ∧ (r = .ok () ↔ ¬ s.DeviceFails rdev) := by
  unfold openStream
  rw [gets_bind_apply]
  simp only [id_eq, hdata]
  cases hdev : s.devices rdev with
  | none =>
    refine ⟨s, .error .TypeError, rfl, by simp [hst], ?_⟩
    simp [FS.DeviceFails, hdev]
  | some d =>
    refine ⟨s.setStream fd ((s.getStream fd).map fun st => { st with stream_ops := .device rdev }),
      d.openError.elim (.ok ()) .error, ?_, ?_, ?_⟩
    · simp only [modify_bind_apply]
      cases d.openError <;> rfl
    · simp [FS.getStream_setStream, hst]
    · cases herr : d.openError <;> simp [FS.DeviceFails, hdev, herr]

/-! ## A late failure -/

section Failures

variable [Build]

/-- The call throws after it has changed something: there is no descriptor left for a file it has
made or emptied, a directory was asked for and a file made, or a device does not open. -/
inductive FS.LateFailure (s : FS) (path : Path) (flags : Flags) : Prop
  | notDir (n : NodeId) (s₁ : FS) (h : s.Opens path flags n true s₁) (hdir : Has flags O_DIRECTORY)
  | made (n : NodeId) (s₁ : FS) (h : s.Opens path flags n true s₁) (hends : (s₁.pathOf n).isSome)
      (e : Errno) (hfull : s.nextfd = .error e)
  | emptied (n : NodeId) (h : s.Opens path flags n false s) (hpass : s.Passes n flags)
      (htrunc : Has flags O_TRUNC) (f : FileData) (hf : (s.node n).data = .file f)
      (hw : s.nodePermissions n (some ['w']) = none) (hbytes : f.bytes ≠ [])
      (hends : (s.pathOf n).isSome) (e : Errno) (hfull : s.nextfd = .error e)
  | device (n : NodeId) (h : s.Opens path flags n false s) (rdev : Nat)
      (hdev : (s.node n).data = .chrdev rdev) (hpass : s.Passes n (s.openFlags n flags))
      (hends : (s.pathOf n).isSome) (fd : Nat) (hfd : s.nextfd = .ok fd) (hfails : s.DeviceFails rdev)

/-- A name more in a directory is seen. -/
theorem grow_changed {parent : NodeId} (hs : s.Allocated) (hp : parent < s.nextInode)
    (hdir : (s.node parent).isDir = true) (name : Name) (data : Data) (perm : Mode) :
    ¬ s.Unchanged (s.grow parent name data perm) := by
  intro h
  have hnode := (h.node parent hp).2.2.2.2.2
  have hbelow := hs.child parent hp
  rw [grow_node hp, if_neg (Nat.ne_of_lt hp), if_pos rfl] at hnode
  unfold Node.isDir at hdir
  cases hdata : (s.node parent).data with
  | dir c =>
    have hc : (s.node parent).contents = c := by simp [Node.contents, hdata]
    rw [hc] at hnode hbelow
    rcases hnode with he | ⟨hf, _⟩
    · simp only [Node.setContents, hdata, Data.dir.injEq] at he
      exact hbelow.set_ne name he
    · simp [Node.isFile, hdata] at hf
  | _ => simp [hdata] at hdir

/-- The directory a node is made in. -/
theorem FS.Opens.made_changed (hs : s.Allocated) (h : s.Opens path flags n true s₁) : ¬ s.Unchanged s₁ := by
  cases h with
  | made p parent h hcreat hdir hmakes =>
    refine grow_changed hs (hs.lookupParent hmakes.lookup) ?_ _ _ _
    have hmay := hmakes.may
    unfold FS.mayCreate at hmay
    split at hmay
    · next hd => exact hd
    · cases hmay

theorem FS.Opens.path_ne {created : Bool} (h : s.Opens path flags n created s₁) : path ≠ [] := by
  rintro rfl
  have hnone : s.target [] flags = .error .ENOENT := rfl
  cases h with
  | found p n h hexcl => rw [hnone] at h; cases h
  | made p parent h hcreat hdir hmakes => rw [hnone] at h; cases h

theorem FS.Opens.made_node (hs : s.Allocated) (h : s.Opens path flags n true s₁) :
    (s₁.node n).data = .file .empty ∧ s₁.streams = s.streams := by
  cases h with
  | made p parent h hcreat hdir hmakes =>
    rw [grow_node (hs.lookupParent hmakes.lookup), if_pos rfl]
    exact ⟨rfl, rfl⟩

omit [Build] in
theorem nextfd_congr {s' : FS} (h : s'.streams = s.streams) : s'.nextfd = s.nextfd := by
  have hfirst : ∀ k fd, s'.firstFree k fd = s.firstFree k fd := by
    intro k
    induction k with
    | zero => exact fun _ => rfl
    | succ k ih =>
      intro fd
      unfold FS.firstFree
      rw [ih (fd + 1)]
      unfold FS.getStream
      rw [h]
  unfold FS.nextfd
  rw [hfirst]

omit [Build] in
/-- The rest of `open`, where no descriptor is left. -/
theorem openAs_full {created : Bool} {s₂ : FS} (mode : Mode)
    (hcheck : checkNode n created flags s₁ = some (s₂, .ok ())) (hends : (s₂.pathOf n).isSome)
    (hfull : s₂.nextfd = .error e) : openAs n created flags mode s₁ = some (s₂, .error e) := by
  obtain ⟨p, hp⟩ := Option.isSome_iff_exists.mp hends
  unfold openAs
  rw [bind_of_ok hcheck]
  exact bind_of_error (registerStream_full hp hfull flags)

omit [Build] in
theorem emptied_links (n m : NodeId) (f : FileData) :
    ((s.emptied n f).node m).parent = (s.node m).parent ∧
      ((s.emptied n f).node m).name = (s.node m).name ∧
        ((s.emptied n f).node m).mount = (s.node m).mount := by
  simp only [FS.emptied, FS.setNode, Function.update_apply]
  split
  · next he => exact he ▸ ⟨rfl, rfl, rfl⟩
  · exact ⟨rfl, rfl, rfl⟩

omit [Build] in
/-- The path of a node does not depend on what is in the files. -/
theorem pathOf_emptied (n m : NodeId) (f : FileData) : (s.emptied n f).pathOf m = s.pathOf m := by
  have hclimb : ∀ k m p, (s.emptied n f).climb k m p = s.climb k m p := by
    intro k
    induction k with
    | zero => exact fun _ _ => rfl
    | succ k ih =>
      intro m p
      unfold FS.climb FS.isRoot
      rw [(emptied_links n m f).1, (emptied_links n m f).2.1, (emptied_links n m f).2.2, ih]
      rfl
  exact hclimb _ _ _

omit [Build] in
theorem doTruncate_file (hf : (s.node n).data = .file f) (hw : s.nodePermissions n (some ['w']) = none) :
    doTruncate n 0 s = some (s.emptied n f, .ok ()) := by
  unfold doTruncate
  rw [gets_bind_apply]
  simp only [id_eq, hf, hw]
  rfl

omit [Build] in
theorem emptied_changed [Build] (hn : n < s.nextInode) (hf : (s.node n).data = .file f) (hbytes : f.bytes ≠ []) :
    ¬ s.Unchanged (s.emptied n f) := by
  intro h
  have hzero : (f.resizeFileStorage 0).bytes = [] := by
    rw [FileData.bytes_resizeFileStorage, ← List.length_eq_zero_iff]
    exact ByteSeq.length_resize (0 : UInt8) 0 f.bytes
  have hdata : ((s.emptied n f).node n).data = .file (f.resizeFileStorage 0) := by
    simp [FS.emptied, FS.setNode]
  rcases (h.node n hn).2.2.2.2.2 with he | ⟨_, _, he⟩
  · rw [hdata, hf] at he
    rw [Data.file.inj he] at hzero
    exact hbytes hzero
  · unfold Node.bytes at he
    rw [hdata, hf] at he
    exact hbytes (he.symm.trans hzero)

omit [Build] in
/-- A device's flags lose `O_TRUNC`. -/
theorem openFlags_device {rdev : Nat} (h : (s.node n).data = .chrdev rdev) (flags : Flags) :
    ¬ Has (s.openFlags n flags) O_TRUNC := by
  have hdev : (s.node n).isChrdev = true := by simp [Node.isChrdev, h]
  unfold FS.openFlags
  rw [if_pos hdev]
  simp [Has, BitVec.and_assoc]

omit [Build] in
theorem openFlags_plain (h : (s.node n).isChrdev = false) (flags : Flags) :
    s.openFlags n flags = flags := by
  simp [FS.openFlags, h]

theorem late_failure_changes (hs : s.Allocated) (mode : Mode) (h : s.LateFailure path flags) :
    ∃ s' e, «open» path flags mode s = some (s', .error e) ∧ ¬ s.Unchanged s' := by
  cases h with
  | notDir n s₁ h hdir =>
    obtain ⟨hdata, _⟩ := h.made_node hs
    refine ⟨s₁, .ENOTDIR, ?_, h.made_changed hs⟩
    rw [open_of_opens h.path_ne h, openFlags_plain (by simp [Node.isChrdev, hdata])]
    unfold openAs
    apply bind_of_error
    rw [checkNode_created, if_pos ⟨hdir, by simp [Node.isDir, hdata]⟩]
  | made n s₁ h hends e hfull =>
    obtain ⟨hdata, hstreams⟩ := h.made_node hs
    rw [open_of_opens h.path_ne h, openFlags_plain (by simp [Node.isChrdev, hdata])]
    by_cases hdir : Has flags O_DIRECTORY
    · refine ⟨s₁, .ENOTDIR, ?_, h.made_changed hs⟩
      unfold openAs
      apply bind_of_error
      rw [checkNode_created, if_pos ⟨hdir, by simp [Node.isDir, hdata]⟩]
    · refine ⟨s₁, e, openAs_full mode ?_ hends ((nextfd_congr hstreams).trans hfull), h.made_changed hs⟩
      rw [checkNode_created, if_neg fun h => hdir h.1]
  | emptied n h hpass htrunc f hf hw hbytes hends e hfull =>
    rw [open_of_opens h.path_ne h, openFlags_plain (by simp [Node.isChrdev, hf])]
    have hsame : (s.emptied n f).nextfd = s.nextfd := nextfd_congr rfl
    have hfull₁ : (s.emptied n f).nextfd = .error e := by rw [hsame, hfull]
    refine ⟨s.emptied n f, e, openAs_full mode ?_ (by rwa [pathOf_emptied]) hfull₁,
      emptied_changed (h.allocated hs).2.1 hf hbytes⟩
    rw [checkNode_of_passes hpass, doIf, if_pos htrunc]
    exact doTruncate_file hf hw
  | device n h rdev hdev hpass hends fd hfd hfails =>
    obtain ⟨p, hp⟩ := Option.isSome_iff_exists.mp hends
    have hcheck : checkNode n false (s.openFlags n flags) s = some (s, .ok ()) := by
      rw [checkNode_of_passes hpass, doIf, if_neg (openFlags_device hdev flags)]
      rfl
    have hstream : (s.registered n p (s.openFlags n flags) fd).getStream fd =
        some ⟨n, p, true, s.nextShared, .memfs⟩ := by
      simp [FS.registered, FS.getStream_setStream]
    have hdev' : ((s.registered n p (s.openFlags n flags) fd).node n).data = .chrdev rdev := hdev
    obtain ⟨s', r, hopen, hsome, hr⟩ := openStream_device hdev' hstream
    have hthrows : ∃ e, r = .error e := by
      cases r with
      | error e => exact ⟨e, rfl⟩
      | ok a => exact absurd hfails (hr.mp rfl)
    obtain ⟨e, rfl⟩ := hthrows
    refine ⟨s', e, ?_, fun hu => ?_⟩
    · rw [open_of_opens h.path_ne h]
      unfold openAs
      rw [bind_of_ok hcheck]
      apply bind_of_error
      rw [registerStream_free hp hfd]
      exact bind_of_error hopen
    · rw [hu.stream fd, nextfd_free hfd] at hsome
      cases hsome

omit [Build] in
/-- How registering fails: no descriptor is left, and nothing has happened, or the node is a device. -/
theorem registerStream_error {s' : FS} (h : registerStream n flags s = some (s', .error e)) :
    (s.pathOf n).isSome ∧
      (s' = s ∧ s.nextfd = .error e ∨
        ∃ rdev fd, (s.node n).data = .chrdev rdev ∧ s.nextfd = .ok fd ∧ s.DeviceFails rdev) := by
  cases hp : s.pathOf n with
  | none =>
    have hcrash : registerStream n flags s = none := by
      unfold registerStream
      change seq (getPath n) _ s = none
      unfold seq getPath
      rw [hp]
      rfl
    rw [hcrash] at h
    cases h
  | some p =>
    refine ⟨rfl, ?_⟩
    cases hfd : s.nextfd with
    | error e' =>
      rw [registerStream_full hp hfd] at h
      cases h
      exact .inl ⟨rfl, rfl⟩
    | ok fd =>
      rw [registerStream_free hp hfd] at h
      have hstream : (s.registered n p flags fd).getStream fd =
          some ⟨n, p, true, s.nextShared, .memfs⟩ := by
        simp [FS.registered, FS.getStream_setStream]
      rcases bind_error_iff.mp h with hopen | ⟨_, _, _, hpure⟩
      · cases hdev : (s.registered n p flags fd).node n |>.isChrdev with
        | false =>
          rw [openStream_plain hdev] at hopen
          cases hopen
        | true =>
          unfold Node.isChrdev at hdev
          split at hdev
          · next rdev hdata =>
              obtain ⟨_, r, hrun, _, hr⟩ := openStream_device hdata hstream
              rw [hopen] at hrun
              cases hrun
              refine .inr ⟨rdev, fd, hdata, rfl, Classical.byContradiction fun hno => ?_⟩
              cases hr.mpr hno
          · cases hdev
      · cases hpure

/-- An empty file is emptied. -/
theorem unchanged_emptied (hf : (s.node n).data = .file f) (hbytes : f.bytes = []) :
    s.Unchanged (s.emptied n f) where
  stream _ := rfl
  shared _ _ _ := rfl
  node m _ := by
    simp only [FS.emptied, FS.setNode, Function.update_apply]
    split
    · next he =>
        subst he
        refine ⟨rfl, rfl, rfl, rfl, rfl, .inr ⟨by simp [Node.isFile, hf], rfl, ?_⟩⟩
        simp [Node.bytes, hf, hbytes, ByteSeq.resize]
    · exact .refl
  lookup parent _ _ name := by
    unfold FS.hashLookup FS.Named
    simp only [(emptied_links n _ f).1, (emptied_links n _ f).2.1]
    rfl
  root := rfl
  mount := rfl
  currentPath := rfl

theorem unchanged_of_not_late (hs : s.Allocated) (hno : ¬ s.LateFailure path flags) {mode : Mode}
    {s' : FS} {e : Errno} (h : «open» path flags mode s = some (s', .error e)) : s.Unchanged s' := by
  rcases open_cases path flags mode s with ⟨e', he⟩ | ⟨n, created, s₁, hopens, he⟩
  · rw [he] at h
    cases h
    exact .refl
  rw [he] at h
  unfold openAs at h
  cases created with
  | true =>
    -- A file was made, so every failure is a late one.
    refine absurd ?_ hno
    obtain ⟨hdata, hstreams⟩ := hopens.made_node hs
    rw [openFlags_plain (by simp [Node.isChrdev, hdata])] at h
    by_cases hdir : Has flags O_DIRECTORY
    · exact .notDir n s₁ hopens hdir
    · have hcheck : checkNode n true flags s₁ = some (s₁, .ok ()) := by
        rw [checkNode_created, if_neg fun h => hdir h.1]
      rw [bind_of_ok hcheck] at h
      rcases bind_error_iff.mp h with hreg | ⟨_, _, _, hrest⟩
      · obtain ⟨hends, ⟨_, hfull⟩ | ⟨rdev, _, hdev, _⟩⟩ := registerStream_error hreg
        · exact .made n s₁ hopens hends e ((nextfd_congr hstreams).symm.trans hfull)
        · rw [hdata] at hdev
          cases hdev
      · cases hrest
  | false =>
    cases hopens with
    | found p n hl hexcl =>
    have hopens : s.Opens path flags n false s := .found p n hl hexcl
    by_cases hpass : s.Passes n (s.openFlags n flags)
    · have hcheck := checkNode_of_passes hpass
      by_cases htrunc : Has (s.openFlags n flags) O_TRUNC
      · rw [doIf, if_pos htrunc] at hcheck
        rcases doTruncate_cases n s with ⟨e', he'⟩ | ⟨f, hf, hw, hrun⟩
        · rw [bind_of_error (hcheck.trans he')] at h
          cases h
          exact .refl
        · rw [bind_of_ok (hcheck.trans hrun)] at h
          have hflags := openFlags_plain (n := n) (s := s) (by simp [Node.isChrdev, hf]) flags
          rw [hflags] at htrunc hpass
          rcases bind_error_iff.mp h with hreg | ⟨_, _, _, hrest⟩
          · obtain ⟨hends, ⟨rfl, hfull⟩ | ⟨rdev, _, hdev, _⟩⟩ := registerStream_error hreg
            · by_cases hbytes : f.bytes = []
              · exact unchanged_emptied hf hbytes
              · have hsame : (s.emptied n f).nextfd = s.nextfd := nextfd_congr rfl
                rw [pathOf_emptied] at hends
                rw [hsame] at hfull
                exact absurd (.emptied n hopens hpass htrunc f hf hw hbytes hends e hfull) hno
            · simp [FS.emptied, FS.setNode] at hdev
          · cases hrest
      · have hrun : checkNode n false (s.openFlags n flags) s = some (s, .ok ()) := by
          rw [hcheck, doIf, if_neg htrunc]
          rfl
        rw [bind_of_ok hrun] at h
        rcases bind_error_iff.mp h with hreg | ⟨_, _, _, hrest⟩
        · obtain ⟨hends, ⟨rfl, _⟩ | ⟨rdev, fd, hdev, hfd, hfails⟩⟩ := registerStream_error hreg
          · exact .refl
          · exact absurd (.device n hopens rdev hdev hpass hends fd hfd hfails) hno
        · cases hrest
    · obtain ⟨e', he'⟩ := checkNode_of_not_passes hpass
      rw [bind_of_error he'] at h
      cases h
      exact .refl

/-! ## Pipes -/

omit [Build] in
/-- No descriptor is free. -/
theorem nextfd_error_iff : (∃ e, s.nextfd = .error e) ↔
    ∀ fd ≤ MAX_OPEN_FDS, (s.getStream fd).isSome := by
  have hfirst : ∀ k fd, s.firstFree k fd = none ↔ ∀ i, fd ≤ i → i < fd + k → (s.getStream i).isSome := by
    intro k
    induction k with
    | zero => exact fun fd => ⟨fun _ i hle hlt => absurd hlt (Nat.not_lt.mpr hle), fun _ => rfl⟩
    | succ k ih =>
      intro fd
      unfold FS.firstFree
      split
      · next hfree =>
          refine ⟨fun h => (nomatch h), fun h => ?_⟩
          have hsome := h fd (Nat.le_refl fd) (by omega)
          rw [Option.isNone_iff_eq_none.mp hfree] at hsome
          cases hsome
      · next htaken =>
          rw [ih]
          refine ⟨fun h i hle hlt => ?_, fun h i hle hlt => h i (by omega) (by omega)⟩
          rcases Nat.eq_or_lt_of_le hle with rfl | hlt'
          · simpa [Option.isSome_iff_ne_none] using htaken
          · exact h i hlt' (by omega)
  have hall := hfirst (MAX_OPEN_FDS + 1) 0
  unfold FS.nextfd
  constructor
  · rintro ⟨e, he⟩ fd hle
    split at he
    · cases he
    · next hnone => exact hall.mp hnone fd (Nat.zero_le fd) (by omega)
  · intro h
    rw [hall.mpr fun i _ hlt => h i (by omega)]
    exact ⟨.EMFILE, rfl⟩

/-- The two nodes of a pipe are made. -/
def FS.pipeNodes (s : FS) (rName wName : Name) : FS :=
  let s := { s with nextPipe := s.nextPipe + 2 }
  (s.createNode (some s.pipefsRoot) rName .fifo 0).createNode (some s.pipefsRoot) wName .fifo 0

/-- The state with a stream of a pipe in the table. -/
def FS.pipeStream (s : FS) (n : NodeId) (name : Name) (flags : Flags) (fd : Nat) : FS :=
  (s.newShared ⟨flags, 0⟩).setStream fd (some ⟨n, name, false, s.nextShared, .pipe⟩)

/-- `createPipe`, up to the streams. -/
theorem createPipe_apply (s : FS) : ∃ rName wName, PIPEFS.createPipe s =
    (createStream s.nextInode rName O_RDONLY false .pipe >>= fun readable_fd =>
      createStream (s.nextInode + 1) wName O_WRONLY false .pipe >>= fun writable_fd =>
        pure (readable_fd, writable_fd)) (s.pipeNodes rName wName) :=
  ⟨_, _, rfl⟩

omit [Build] in
theorem createNode_node [Build] {n : NodeId} (hn : n < s.nextInode) (p : Option NodeId) (name : Name)
    (data : Data) (perm : Mode) : (s.createNode p name data perm).node n = s.node n :=
  Function.update_of_ne (Nat.ne_of_lt hn) _ _

/-- A node outside a directory is not found in it. -/
theorem hashLookup_createNode (hs : ∀ h, ∀ n ∈ s.nameTable h, n < s.nextInode) {p parent : NodeId}
    (hne : parent ≠ p) (name nm : Name) (data : Data) (perm : Mode) :
    (s.createNode (some p) name data perm).hashLookup parent nm = s.hashLookup parent nm := by
  have hold : ∀ n < s.nextInode, (s.createNode (some p) name data perm).Named parent nm n ↔
      s.Named parent nm n := fun n hn => by
    unfold FS.Named
    rw [createNode_node hn]
  have hnew : ¬ (s.createNode (some p) name data perm).Named parent nm s.nextInode := by
    intro h
    have hp : ((s.createNode (some p) name data perm).node s.nextInode).parent = p := by
      simp [FS.createNode, FS.hashAddNode, FS.setChain, FS.setNode]
    exact hne (h.1.symm.trans hp)
  have hchain : ∀ h, (s.createNode (some p) name data perm).nameTable h = s.nameTable h ∨
      (s.createNode (some p) name data perm).nameTable h = s.nextInode :: s.nameTable h := by
    intro h
    simp only [FS.createNode, FS.hashAddNode, FS.setChain, FS.setNode, Function.update_apply]
    split
    · next he => exact .inr (by rw [he])
    · exact .inl rfl
  have hfind : (s.nameTable (hashName parent nm)).find?
      (fun n => (s.createNode (some p) name data perm).Named parent nm n) =
        s.hashLookup parent nm :=
    List.find?_congr fun n hn => decide_eq_decide.mpr (hold n (hs _ n hn))
  have hlook : (s.createNode (some p) name data perm).hashLookup parent nm =
      ((s.createNode (some p) name data perm).nameTable (hashName parent nm)).find?
        fun n => (s.createNode (some p) name data perm).Named parent nm n := rfl
  rw [hlook]
  rcases hchain (hashName parent nm) with h | h
  · rw [h, hfind]
  · rw [h, List.find?_cons_of_neg (by simpa using hnew), hfind]

/-- The nodes of a pipe are in no directory of the tree. -/
theorem unchanged_pipeNodes (hs : s.Allocated) (rName wName : Name) :
    s.Unchanged (s.pipeNodes rName wName) where
  stream _ := rfl
  shared _ _ _ := rfl
  node n hn := by
    have hsame : (s.pipeNodes rName wName).node n = s.node n :=
      (createNode_node (s := FS.createNode _ _ _ _ _) (Nat.lt_succ_of_lt hn) _ _ _ _).trans
        (createNode_node hn _ _ _ _)
    rw [hsame]
    exact .refl
  lookup parent _ hne name := by
    have hchain : ∀ h, ∀ n ∈ (({ s with nextPipe := s.nextPipe + 2 } : FS).createNode
        (some s.pipefsRoot) rName .fifo 0).nameTable h, n < s.nextInode + 1 := by
      intro h n hn
      rcases mem_hashAddNode hn with rfl | hn
      · exact Nat.lt_succ_self _
      · exact Nat.lt_succ_of_lt (hs.chain h n hn)
    unfold FS.pipeNodes
    exact (hashLookup_createNode hchain hne _ _ _ _).trans (hashLookup_createNode hs.chain hne _ _ _ _)
  root := rfl
  mount := rfl
  currentPath := rfl

/-- Just one descriptor is free. -/
def FS.OneFree (s : FS) : Prop :=
  ∃ fd, s.nextfd = .ok fd ∧ ∀ fd' ≤ MAX_OPEN_FDS, fd' ≠ fd → (s.getStream fd').isSome

omit [Build] in
theorem createStream_free {fd : Nat} (h : s.nextfd = .ok fd) (n : NodeId) (name : Name) (flags : Flags) :
    createStream n name flags false .pipe s = some (s.pipeStream n name flags fd, .ok fd) := by
  rw [createStream_apply, h]
  rfl

omit [Build] in
theorem createStream_full (h : s.nextfd = .error e) (n : NodeId) (name : Name) (flags : Flags) :
    createStream n name flags false .pipe s = some (s, .error e) := by
  rw [createStream_apply, h]

omit [Build] in
/-- The stream takes the last descriptor where just one was free. -/
theorem oneFree_iff {fd : Nat} (h : s.nextfd = .ok fd) (n : NodeId) (name : Name) (flags : Flags) :
    s.OneFree ↔ ∃ e, (s.pipeStream n name flags fd).nextfd = .error e := by
  have htable : ∀ fd', (s.pipeStream n name flags fd).getStream fd' =
      if fd' = fd then some ⟨n, name, false, s.nextShared, .pipe⟩ else s.getStream fd' :=
    fun fd' => FS.getStream_setStream _ _ _ _
  rw [nextfd_error_iff]
  constructor
  · rintro ⟨fd', h', hall⟩ fd'' hle
    rw [h] at h'
    cases h'
    rw [htable]
    split
    · rfl
    · next hne => exact hall fd'' hle hne
  · intro hall
    refine ⟨fd, h, fun fd' hle hne => ?_⟩
    have htaken := hall fd' hle
    rwa [htable, if_neg hne] at htaken

/-- `createPipe` leaves one end open where there was one descriptor for it, and only there. -/
theorem createPipe_unchanged_iff (hs : s.Allocated) :
    (∀ s' e, PIPEFS.createPipe s = some (s', .error e) → s.Unchanged s') ↔ ¬ s.OneFree := by
  obtain ⟨rName, wName, happly⟩ := createPipe_apply s
  have hu := unchanged_pipeNodes hs rName wName
  have hstreams : (s.pipeNodes rName wName).streams = s.streams := rfl
  have hnext : (s.pipeNodes rName wName).nextfd = s.nextfd := nextfd_congr hstreams
  rw [happly]
  cases hfd : s.nextfd with
  | error e =>
    rw [bind_of_error (createStream_full (hnext.trans hfd) s.nextInode rName O_RDONLY)]
    refine ⟨fun _ ⟨fd, hok, _⟩ => ?_, fun _ s' e' h => ?_⟩
    · rw [hfd] at hok
      cases hok
    · cases h
      exact hu
  | ok fd =>
    rw [bind_of_ok (createStream_free (hnext.trans hfd) s.nextInode rName O_RDONLY)]
    have hone : s.OneFree ↔ ∃ e, ((s.pipeNodes rName wName).pipeStream s.nextInode rName O_RDONLY
        fd).nextfd = .error e := by
      rw [← oneFree_iff (hnext.trans hfd)]
      unfold FS.OneFree
      rw [hnext]
      rfl
    rw [hone]
    cases hfd₂ : ((s.pipeNodes rName wName).pipeStream s.nextInode rName O_RDONLY fd).nextfd with
    | error e =>
      refine ⟨fun hall => ?_, fun hno => absurd ⟨e, rfl⟩ hno⟩
      -- The end for reading is in the table, and stays there.
      have hleft := (hall _ e (bind_of_error (createStream_full hfd₂ _ wName O_WRONLY))).stream fd
      rw [nextfd_free hfd] at hleft
      simp [FS.pipeStream, FS.getStream_setStream] at hleft
    | ok fd₂ =>
      rw [bind_of_ok (createStream_free hfd₂ _ wName O_WRONLY)]
      exact ⟨fun _ ⟨e, he⟩ => (nomatch he), fun _ s' e h => (nomatch h)⟩

/-- A failing `open` leaves everything as it was unless its failure is a late one, a failing
`createPipe` unless just one descriptor was free. -/
theorem failing_open_unchanged (s : FS) (hs : s.Allocated) (path : Path) (flags : Flags) (mode : Mode) :
    ((∀ s' e, «open» path flags mode s = some (s', .error e) → s.Unchanged s') ↔
      ¬ s.LateFailure path flags) ∧
    ((∀ s' e, PIPEFS.createPipe s = some (s', .error e) → s.Unchanged s') ↔ ¬ s.OneFree) := by
  refine ⟨⟨fun hall hlate => ?_, fun hno s' e => unchanged_of_not_late hs hno⟩,
    createPipe_unchanged_iff hs⟩
  obtain ⟨s', e, hopen, hchanged⟩ := late_failure_changes hs mode hlate
  exact hchanged (hall s' e hopen)

end Failures

section Examples

attribute [local instance] Build.caseSensitive

theorem failing_open_unchanged_missing : ∃ s' e,
    «open» ['f'] O_RDWR 0 FS.initial = some (s', .error e) ∧ FS.initial.Unchanged s' := by
  have hmissing : FS.initial.target ['f'] O_RDWR = .ok ⟨['/', 'f'], none⟩ := by decide
  have hcreat : ¬ Has O_RDWR O_CREAT := by decide
  have hno : ∀ n created s₁, ¬ FS.initial.Opens ['f'] O_RDWR n created s₁ := by
    intro n created s₁ h
    cases h with
    | found p n h hexcl =>
      rw [hmissing] at h
      cases h
    | made p parent h hc hdir hmakes => exact hcreat hc
  have hlate : ¬ FS.initial.LateFailure ['f'] O_RDWR := by
    intro h
    cases h with
    | notDir n s₁ h hdir => exact hno _ _ _ h
    | made n s₁ h hends e hfull => exact hno _ _ _ h
    | emptied n h hpass htrunc f hf hw hbytes hends e hfull => exact hno _ _ _ h
    | device n h rdev hdev hpass hends fd hfd hfails => exact hno _ _ _ h
  have hthrows : ∃ e, «open» ['f'] O_RDWR 0 FS.initial = some (FS.initial, .error e) := by
    rcases open_cases ['f'] O_RDWR 0 FS.initial with h | ⟨n, created, s₁, h, _⟩
    · exact h
    · exact absurd h (hno n created s₁)
  obtain ⟨e, he⟩ := hthrows
  exact ⟨FS.initial, e, he, (failing_open_unchanged FS.initial allocated_initial ['f'] O_RDWR 0).1.mpr
    hlate _ e he⟩

/-- A directory is asked for and a file is made. -/
theorem open_leaves_file : ∃ s', «open» ['f'] (O_CREAT ||| O_DIRECTORY) 0o666 FS.initial =
    some (s', .error .ENOTDIR) ∧ FS.initial.lookupNode 0 ['f'] = .error .ENOENT ∧
      s'.lookupNode 0 ['f'] = .ok 2 ∧ ¬ FS.initial.Unchanged s' := by
  have hrun : («open» ['f'] (O_CREAT ||| O_DIRECTORY) 0o666 FS.initial).map (fun (s', r) =>
      (r, FS.initial.lookupNode 0 ['f'], s'.lookupNode 0 ['f'], s'.hashLookup 0 ['f'])) =
      some (.error .ENOTDIR, .error .ENOENT, .ok 2, some 2) := by decide
  obtain ⟨⟨s', r⟩, hopen, hobs⟩ := Option.map_eq_some_iff.mp hrun
  simp only [Prod.mk.injEq] at hobs
  obtain ⟨rfl, hbefore, hafter, hhash⟩ := hobs
  have hnone : FS.initial.hashLookup 0 ['f'] = none := by decide
  refine ⟨s', hopen, hbefore, hafter, fun hu => ?_⟩
  have hsame := hu.lookup 0 (Nat.zero_lt_succ 1) (by decide) ['f']
  rw [hhash, hnone] at hsame
  cases hsame

end Examples

end JsFs
