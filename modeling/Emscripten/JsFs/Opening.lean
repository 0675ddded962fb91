-- SUMMARY: What `open` does, part by part: the node it finds or makes, the truncation, and the stream it registers.
import Emscripten.JsFs.Allocated

/-!
# Opening

The parts of `open` as equations: which node it works on and in which state, what its checks
leave, and what registering the stream does.
-/

namespace JsFs

open Prog

variable [Build] {s : FS} {path : Path} {flags : Flags}

/-! ## The node -/

/-- A new node for a path, in the directory `parent`. -/
structure FS.Makes (s : FS) (path : Path) (parent : NodeId) : Prop where
  lookup : s.lookupParent path = .ok parent
  name : Path.basename path ≠ []
  plain : ¬ (Path.basename path = dot ∨ Path.basename path = dotDot)
  may : s.mayCreate parent (Path.basename path) = none

theorem mknod_of_makes {parent : NodeId} (h : s.Makes path parent) {type : NodeType} {data : Data}
    (hd : type.data = some data) (perm : Mode) : mknod path type perm s =
      some (s.grow parent (Path.basename path) data perm, .ok s.nextInode) := by
  unfold mknod
  rw [bind_of_ok (query_of_eq h.lookup)]
  simp only [failIf_bind_apply, gets_bind_apply, h.name, h.plain, if_false]
  rw [h.may]
  unfold MEMFS.mknod
  rw [hd]
  exact createNode_apply parent _ data perm s

theorem mknod_refused (h : ∀ parent, ¬ s.Makes path parent) (type : NodeType) (perm : Mode) :
    ∃ e, mknod path type perm s = some (s, .error e) := by
  unfold mknod
  cases hp : s.lookupParent path with
  | error e => exact ⟨e, bind_of_error (query_of_eq hp)⟩
  | ok parent =>
    rw [bind_of_ok (query_of_eq hp)]
    simp only [failIf_bind_apply, gets_bind_apply]
    split
    · exact ⟨.EINVAL, rfl⟩
    · next hname =>
        split
        · exact ⟨.EEXIST, rfl⟩
        · next hplain =>
            cases hmay : s.mayCreate parent (Path.basename path) with
            | none => exact absurd ⟨hp, hname, hplain, hmay⟩ (h parent)
            | some e => exact ⟨e, rfl⟩

/-- The node `open` works on, whether it is made now, and the state it is in then. -/
inductive FS.Opens (s : FS) (path : Path) (flags : Flags) : NodeId → Bool → FS → Prop
  | found (p : Path) (n : NodeId) (h : s.target path flags = .ok ⟨p, some n⟩)
      (hexcl : ¬ (Has flags O_CREAT ∧ Has flags O_EXCL)) : s.Opens path flags n false s
  | made (p : Path) (parent : NodeId) (h : s.target path flags = .ok ⟨p, none⟩)
      (hcreat : Has flags O_CREAT) (hdir : path.getLast? ≠ some '/') (hmakes : s.Makes p parent) :
      s.Opens path flags s.nextInode true
        (s.grow parent (Path.basename p) (.file .empty) S_IRWXUGO)

variable {n : NodeId} {s₁ : FS}

theorem openNode_of_opens {created : Bool} (h : s.Opens path flags n created s₁) :
    openNode path flags s = some (s₁, .ok (n, created)) := by
  unfold openNode
  cases h with
  | found p n h hexcl =>
    rw [bind_of_ok (query_of_eq h)]
    simp [failIf_bind_apply, hexcl]
  | made p parent h hcreat hdir hmakes =>
    rw [bind_of_ok (query_of_eq h)]
    simp only [hcreat, if_true, failIf_bind_apply, hdir, if_false]
    rw [bind_of_ok (mknod_of_makes hmakes rfl S_IRWXUGO)]
    rfl

theorem openNode_refused (h : ∀ n created s₁, ¬ s.Opens path flags n created s₁) :
    ∃ e, openNode path flags s = some (s, .error e) := by
  unfold openNode
  cases ht : s.target path flags with
  | error e => exact ⟨e, bind_of_error (query_of_eq ht)⟩
  | ok l =>
    rw [bind_of_ok (query_of_eq ht)]
    obtain ⟨p, _ | n⟩ := l
    · simp only
      split
      · next hcreat =>
          rw [failIf_bind_apply]
          split
          · exact ⟨.EISDIR, rfl⟩
          · next hdir =>
              have hno : ∀ parent, ¬ s.Makes p parent := fun parent hm =>
                h _ _ _ (.made p parent ht hcreat hdir hm)
              obtain ⟨e, he⟩ := mknod_refused hno .file S_IRWXUGO
              exact ⟨e, bind_of_error he⟩
      · exact ⟨.ENOENT, rfl⟩
    · simp only [failIf_bind_apply]
      split
      · exact ⟨.EEXIST, rfl⟩
      · next hexcl => exact absurd (.found p n ht hexcl) (h n false s)

/-- What `open` does with the node it works on. -/
def openAs (n : NodeId) (created : Bool) (flags : Flags) (mode : Mode) : Sys Nat := do
  checkNode n created flags
  let fd ← registerStream n flags
  doIf created (chmodNode n (mode &&& S_IRWXUGO))
  pure fd

theorem open_of_opens (hpath : path ≠ []) {created : Bool} (h : s.Opens path flags n created s₁) (mode : Mode) :
    «open» path flags mode s = openAs n created (s₁.openFlags n flags) mode s₁ := by
  unfold JsFs.open
  rw [failIf_bind_apply, if_neg hpath, bind_of_ok (openNode_of_opens h)]
  rfl

/-- Either no node is opened, and nothing happens, or the call goes on with the node. -/
theorem open_cases (path : Path) (flags : Flags) (mode : Mode) (s : FS) :
    (∃ e, «open» path flags mode s = some (s, .error e)) ∨
      ∃ n created s₁, s.Opens path flags n created s₁ ∧
        «open» path flags mode s = openAs n created (s₁.openFlags n flags) mode s₁ := by
  by_cases hpath : path = []
  · refine .inl ⟨.ENOENT, ?_⟩
    unfold JsFs.open
    rw [failIf_bind_apply, if_pos hpath]
  by_cases hopens : ∃ n created s₁, s.Opens path flags n created s₁
  · obtain ⟨n, created, s₁, h⟩ := hopens
    exact .inr ⟨n, created, s₁, h, open_of_opens hpath h mode⟩
  · obtain ⟨e, he⟩ := openNode_refused fun n created s₁ h => hopens ⟨n, created, s₁, h⟩
    refine .inl ⟨e, ?_⟩
    unfold JsFs.open
    rw [failIf_bind_apply, if_neg hpath, bind_of_error he]

/-! ## What is kept -/

/-- The files that were there are files, with the bytes they had, or with none. -/
structure FS.Cut (s s' : FS) : Prop where
  nextInode : s.nextInode ≤ s'.nextInode
  file : ∀ n < s.nextInode, (s.node n).isFile = true → (s'.node n).isFile = true ∧
    ((s'.node n).bytes = (s.node n).bytes ∨ (s'.node n).bytes = [])

namespace FS.Cut

omit [Build] in
theorem of_node {s' : FS} (hn : s'.nextInode = s.nextInode)
    (h : ∀ n, (s'.node n).data = (s.node n).data) : s.Cut s' where
  nextInode := Nat.le_of_eq hn.symm
  file n _ hf := by
    unfold Node.isFile Node.bytes at *
    rw [h n]
    exact ⟨hf, .inl rfl⟩

instance : IsPreorder FS FS.Cut where
  refl _ := of_node rfl fun _ => rfl
  trans s t u h h' := by
    refine ⟨Nat.le_trans h.nextInode h'.nextInode, fun n hn hf => ?_⟩
    obtain ⟨hf₁, hb₁⟩ := h.file n hn hf
    obtain ⟨hf₂, hb₂⟩ := h'.file n (Nat.lt_of_lt_of_le hn h.nextInode) hf₁
    refine ⟨hf₂, ?_⟩
    rcases hb₂ with hb₂ | hb₂
    · rw [hb₂]
      exact hb₁
    · exact .inr hb₂

omit [Build] in
theorem grow_isFile_bytes {nd : Node} (c : DirObject) :
    (nd.setContents c).isFile = nd.isFile ∧ (nd.setContents c).bytes = nd.bytes := by
  refine ⟨?_, bytes_setContents nd c⟩
  cases h : nd.data <;> simp [Node.setContents, Node.isFile, h]

theorem grow {parent : NodeId} (hp : parent < s.nextInode) (name : Name) (data : Data) (perm : Mode) :
    s.Cut (s.grow parent name data perm) := by
  refine ⟨Nat.le_succ _, fun n hn hf => ?_⟩
  rw [grow_node hp, if_neg (Nat.ne_of_lt hn)]
  split
  · next he =>
      subst he
      obtain ⟨hfile, hbytes⟩ := @grow_isFile_bytes (s.node n) ((s.node n).contents.set name s.nextInode)
      exact ⟨hfile.trans hf, .inl hbytes⟩
  · exact ⟨hf, .inl rfl⟩

omit [Build] in
theorem doTruncate (n : NodeId) : Within FS.Cut (doTruncate n 0) := by
  refine .bind_gets fun s => ?_
  split
  · exact .fail
  · next f hf =>
      refine .bind (within_throwIf _) fun _ => .modify fun t => ⟨Nat.le_refl _, fun m _ hm => ?_⟩
      simp only [FS.setNode, Function.update_apply]
      split
      · refine ⟨rfl, .inr ?_⟩
        change (f.resizeFileStorage 0).bytes = []
        rw [FileData.bytes_resizeFileStorage, ← List.length_eq_zero_iff]
        exact ByteSeq.length_resize (0 : UInt8) 0 f.bytes
      · exact ⟨hm, .inl rfl⟩
  · exact .fail

omit [Build] in
theorem checkNode (n : NodeId) (created : Bool) (flags : Flags) :
    Within FS.Cut (checkNode n created flags) := by
  refine .bind .gets fun t => .bind .failIf fun _ => ?_
  exact .bind (within_doIf fun _ => within_throwIf _) fun _ => within_doIf fun _ => doTruncate n

omit [Build] in
theorem of_nodesKept {s' : FS} (h : s.NodesKept s') : s.Cut s' :=
  of_node h.nextInode fun n => by rw [h.node]

omit [Build] in
theorem registerStream (n : NodeId) (flags : Flags) : Within FS.Cut (registerStream n flags) := by
  refine .bind (within_getPath n) fun path => ?_
  refine .bind ((keeps_createStream n _ _ _ _).mono fun _ _ => of_nodesKept) fun fd => ?_
  exact .bind ((keeps_openStream fd n).mono fun _ _ => of_nodesKept) fun _ => .pure

omit [Build] in
theorem chmodNode (n : NodeId) (mode : Mode) : Within FS.Cut (chmodNode n mode) := by
  refine .modify fun t => of_node rfl fun m => ?_
  simp only [FS.setNode, Function.update_apply]
  split
  · next he => rw [he]
  · rfl

omit [Build] in
theorem openAs (n : NodeId) (created : Bool) (flags : Flags) (mode : Mode) :
    Within FS.Cut (openAs n created flags mode) := by
  refine .bind (checkNode n created flags) fun _ => .bind (registerStream n flags) fun fd => ?_
  exact .bind (within_doIf fun _ => chmodNode n _) fun _ => .pure

end FS.Cut

/-- The node was made before, or is made now. -/
theorem FS.Opens.allocated {created : Bool} (h : s.Opens path flags n created s₁) (hs : s.Allocated) :
    s₁.Allocated ∧ n < s₁.nextInode ∧ s.Cut s₁ := by
  cases h with
  | found p n h hexcl => exact ⟨hs, hs.lookupPath h rfl, refl_of _ _⟩
  | made p parent h hcreat hdir hmakes =>
    have hp := hs.lookupParent hmakes.lookup
    exact ⟨hs.grow hp _ _ _ fun _ h => (nomatch h), Nat.lt_succ_self _, .grow hp _ _ _⟩

omit [Build] in
theorem allocated_checkNode (n : NodeId) (created : Bool) (flags : Flags) :
    Within (Keeps FS.Allocated) (checkNode n created flags) := by
  refine .bind .gets fun t => .bind .failIf fun _ => ?_
  exact .bind (within_doIf fun _ => within_throwIf _) fun _ => within_doIf fun _ => allocated_doTruncate n 0

omit [Build] in
theorem allocated_registerStream (hn : n < s.nextInode) (flags : Flags) :
    Leads (Keeps FS.Allocated) s (registerStream n flags) := by
  have hread : Reads s (getPath n) fun _ => True := by
    intro s' r h
    obtain ⟨path, _, he⟩ := Option.map_eq_some_iff.mp h
    cases he
    exact ⟨rfl, fun _ _ => trivial⟩
  refine .read hread fun path _ => .bind (allocated_createStream hn _ _ _ _) fun s₁ fd _ => ?_
  exact .bind ((allocated_openStream fd n).leads s₁) fun _ _ _ => .pure

omit [Build] in
theorem allocated_openAs (hn : n < s.nextInode) (created : Bool) (flags : Flags) (mode : Mode) :
    Leads (Keeps FS.Allocated) s (openAs n created flags mode) := by
  refine .bind ((allocated_checkNode n created flags).leads s) fun s₁ _ h₁ => ?_
  have hn₁ : n < s₁.nextInode :=
    Nat.lt_of_lt_of_le hn (FS.Cut.checkNode n created flags s s₁ _ h₁).nextInode
  refine .bind (allocated_registerStream hn₁ flags) fun s₂ fd _ => ?_
  refine .bind ((within_doIf fun _ => ?_ : Within (Keeps FS.Allocated) _).leads s₂) fun _ _ _ => .pure
  exact .modify fun t ht => ht.setNode n rfl rfl (.inl rfl)

/-- Where the identities were in order they are, and files that were there are at most emptied. -/
def FS.Cuts (s s' : FS) : Prop := s.Allocated → s'.Allocated ∧ s.Cut s'

instance : IsPreorder FS FS.Cuts where
  refl _ hs := ⟨hs, refl_of _ _⟩
  trans _ _ _ h h' hs := by
    obtain ⟨hs₁, hcut⟩ := h hs
    obtain ⟨hs₂, hcut'⟩ := h' hs₁
    exact ⟨hs₂, trans_of _ hcut hcut'⟩

theorem cuts_open (path : Path) (flags : Flags) (mode : Mode) :
    Within FS.Cuts («open» path flags mode) := by
  intro s s' r h hs
  rcases open_cases path flags mode s with ⟨e, he⟩ | ⟨n, created, s₁, hopens, he⟩
  · rw [he] at h
    cases h
    exact ⟨hs, refl_of _ _⟩
  · obtain ⟨hs₁, hn, hcut⟩ := hopens.allocated hs
    rw [he] at h
    exact ⟨allocated_openAs hn _ _ _ _ _ h hs₁,
      trans_of _ hcut (FS.Cut.openAs n created _ mode s₁ s' r h)⟩

omit [Build] in
theorem cuts_of_nodesKept {α : Type} {m : Sys α} (ha : Within (Keeps FS.Allocated) m)
    (hn : Within FS.NodesKept m) : Within FS.Cuts m :=
  fun s s' r h hs => ⟨ha s s' r h hs, FS.Cut.of_nodesKept (hn s s' r h)⟩

omit [Build] in
theorem cuts_close (fd : Nat) : Within FS.Cuts (fd_close fd) :=
  cuts_of_nodesKept (.bind (within_query _) fun _ => allocated_closeStream fd)
    (.bind (within_query _) fun _ => .modify fun _ => ⟨rfl, rfl⟩)

omit [Build] in
theorem cuts_dup (fd : Nat) : Within FS.Cuts (JsFs.dup fd) :=
  cuts_of_nodesKept (allocated_dup fd) (.bind (within_query _) fun st => keeps_dupStream st none)

end JsFs
