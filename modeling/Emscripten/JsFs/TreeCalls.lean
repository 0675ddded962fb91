-- SUMMARY: The calls on the tree, and what each can do to the state: one case for every way it ends.
import Emscripten.JsFs.Opening

/-!
# Calls on the tree

A call that makes, removes or moves a node, or mounts, unmounts or enters a directory,
either leaves the state or changes it in one way. The cases say what was asked before.
-/

namespace JsFs

open Prog

inductive TreeCall
  | mknod (path : Path) (type : NodeType) (perm : Mode)
  | mkdir (path : Path) (mode : Mode)
  | symlink (oldpath newpath : Path)
  | unlink (path : Path)
  | rmdir (path : Path)
  | rename (old_path new_path : Path)
  | mount (mountpoint : Path)
  | unmount (mountpoint : Path)
  | chdir (path : Path)
deriving DecidableEq

variable [Build]

def TreeCall.run : TreeCall → Sys Unit
  | .mknod path type perm => do let _ ← JsFs.mknod path type perm
  | .mkdir path mode => do let _ ← JsFs.mkdir path mode
  | .symlink oldpath newpath => do let _ ← JsFs.symlink oldpath newpath
  | .unlink path => JsFs.unlink path
  | .rmdir path => JsFs.rmdir path
  | .rename old_path new_path => JsFs.rename old_path new_path
  | .mount mountpoint => JsFs.mount mountpoint
  | .unmount mountpoint => JsFs.unmount mountpoint
  | .chdir path => JsFs.chdir path

variable {s s' : FS}

/-! ## Lookups of one name -/

theorem lookupNode_ok_iff {parent n : NodeId} {name : Name} : s.lookupNode parent name = .ok n ↔
    s.mayLookup parent = none ∧ s.hashLookup parent name = some n := by
  unfold FS.lookupNode
  cases s.mayLookup parent with
  | some e => simp
  | none => cases s.hashLookup parent name <;> simp

omit [Build] in
theorem isDir_of_mayLookup {dir : NodeId} (h : s.mayLookup dir = none) : (s.node dir).isDir = true := by
  unfold FS.mayLookup at h
  split at h
  · next hdir => exact hdir
  · cases h

theorem isDir_of_lookupNode {parent n : NodeId} {name : Name} (h : s.lookupNode parent name = .ok n) :
    (s.node parent).isDir = true := isDir_of_mayLookup (lookupNode_ok_iff.mp h).1

theorem hashLookup_some {parent n : NodeId} {name : Name} (h : s.hashLookup parent name = some n) :
    n ∈ s.nameTable (hashName parent name) ∧ s.Named parent name n := by
  unfold FS.hashLookup at h
  exact ⟨List.mem_of_find?_eq_some h, of_decide_eq_true (List.find?_some h :)⟩

omit [Build] in
/-- Permission for `x` and another: the directory may be searched. -/
theorem mayLookup_of_nodePermissions {dir : NodeId} (hdir : (s.node dir).isDir = true)
    (h : s.nodePermissions dir (some ['w', 'x']) = none) : s.mayLookup dir = none := by
  unfold FS.mayLookup
  unfold FS.nodePermissions at h ⊢
  rw [if_pos hdir]
  split
  · rfl
  · next hperm =>
      rw [if_neg hperm] at h
      by_cases hx : Has (s.node dir).perm S_IXUGO <;> simp [hx] at h ⊢

/-- Where a name may be made there is none like it. -/
theorem free_of_mayCreate {dir : NodeId} {name : Name} (h : s.mayCreate dir name = none) :
    (s.node dir).isDir = true ∧ s.hashLookup dir name = none := by
  unfold FS.mayCreate at h
  split at h
  · next hdir =>
      refine ⟨hdir, ?_⟩
      split at h
      · cases h
      · next hl =>
          have hmay := mayLookup_of_nodePermissions hdir h
          cases hfound : s.hashLookup dir name with
          | none => rfl
          | some n =>
            rw [lookupNode_ok_iff.mpr ⟨hmay, hfound⟩] at hl
            cases hl
  · cases h

/-! ## Deletion -/

/-- What `mayDelete` asks of the node it finds. -/
structure FS.Deletable (s : FS) (dir : NodeId) (name : Name) (isdir : Bool) (n : NodeId) : Prop where
  found : s.lookupNode dir name = .ok n
  may : s.nodePermissions dir (some ['w', 'x']) = none
  kind : (s.node n).isDir = isdir
  inner : isdir = true → s.isRoot n = false ∧ ∃ path, s.pathOf n = some path ∧ path ≠ s.currentPath

theorem reads_mayDelete (dir : NodeId) (name : Name) (isdir : Bool) (s : FS) :
    Reads s (mayDelete dir name isdir) fun e => e = none → ∃ n, s.Deletable dir name isdir n := by
  intro s' r h
  unfold mayDelete at h
  split at h
  · cases h
    exact ⟨rfl, fun e he hnone => by cases he; cases hnone⟩
  · next n hn =>
      split at h
      · cases h
        exact ⟨rfl, fun e he hnone => by cases he; cases hnone⟩
      · next hmay =>
          split at h
          · next hisdir =>
              split at h
              · next hdir =>
                  split at h
                  · cases h
                    exact ⟨rfl, fun e he hnone => by cases he; cases hnone⟩
                  · next hroot =>
                      obtain ⟨path, hpath, hr⟩ := Option.map_eq_some_iff.mp h
                      cases hr
                      refine ⟨rfl, fun e he hnone => ⟨n, hn, hmay, hdir.trans hisdir.symm, fun _ => ?_⟩⟩
                      cases he
                      refine ⟨Bool.eq_false_iff.mpr hroot, path, hpath, fun hcwd => ?_⟩
                      rw [if_pos hcwd] at hnone
                      cases hnone
              · cases h
                exact ⟨rfl, fun e he hnone => by cases he; cases hnone⟩
          · next hisdir =>
              cases h
              refine ⟨rfl, fun e he hnone => ⟨n, hn, hmay, ?_, fun hd => absurd hd hisdir⟩⟩
              cases he
              have hfile : (s.node n).isDir = false := by
                cases hdir : (s.node n).isDir with
                | false => rfl
                | true => simp [hdir] at hnone
              exact hfile.trans (Bool.eq_false_iff.mpr hisdir).symm

/-- `mayDelete`, and what it returns is thrown. -/
theorem reads_throwMayDelete (dir : NodeId) (name : Name) (isdir : Bool) (s : FS) :
    Reads s (mayDelete dir name isdir >>= throwIf) fun _ => ∃ n, s.Deletable dir name isdir n :=
  (reads_mayDelete dir name isdir s).bind fun e he =>
    (reads_throwIf e s).conseq fun _ hnone => he hnone

/-! ## Renaming -/

/-- What `rename` asks before it moves the node `old`, with the node at the new name. -/
structure FS.Renames (s : FS) (old_path new_path : Path) (old_dir old new_dir : NodeId)
    (new_node : Option NodeId) : Prop where
  oldDir : s.lookupParent old_path = .ok old_dir
  newDir : s.lookupParent new_path = .ok new_dir
  mount : (s.node old_dir).mount = (s.node new_dir).mount
  oldNode : s.lookupNode old_dir (Path.basename old_path) = .ok old
  below : notBelow s.currentPath old_path (Path.dirname new_path) = true
  above : notBelow s.currentPath new_path (Path.dirname old_path) = true
  newNode : MEMFS.lookupNew s new_dir (Path.basename new_path) = new_node
  ne : new_node ≠ some old
  deleteOld : s.Deletable old_dir (Path.basename old_path) (s.node old).isDir old
  deleteNew : ∀ n, new_node = some n →
    s.Deletable new_dir (Path.basename new_path) (s.node old).isDir n
  create : new_node = none → s.mayCreate new_dir (Path.basename new_path) = none
  busy : (s.node old).mounted = none ∧ ∀ n, new_node = some n → (s.node n).mounted = none

theorem lookupNew_some {dir n : NodeId} {name : Name} (h : MEMFS.lookupNew s dir name = some n) :
    s.lookupNode dir name = .ok n := by
  unfold MEMFS.lookupNew at h
  cases hl : s.lookupNode dir name with
  | error e =>
    rw [hl] at h
    cases h
  | ok m =>
    rw [hl] at h
    cases h
    rfl

theorem reads_mayReplace (new_dir : NodeId) (new_name : Name) (isdir : Bool)
    (new_node : Option NodeId) (s : FS) :
    Reads s (mayReplace new_dir new_name isdir new_node >>= throwIf) fun _ =>
      (∀ n, new_node = some n → ∃ m, s.Deletable new_dir new_name isdir m) ∧
        (new_node = none → s.mayCreate new_dir new_name = none) := by
  unfold mayReplace
  cases new_node with
  | some n =>
    exact (reads_throwMayDelete new_dir new_name isdir s).conseq fun _ h =>
      ⟨fun _ _ => h, fun hn => nomatch hn⟩
  | none =>
    refine Reads.bind (Q := fun e => e = s.mayCreate new_dir new_name) (.gets rfl) fun e he => ?_
    refine (reads_throwIf e s).conseq fun _ hnone => ⟨fun _ hn => (nomatch hn), fun _ => ?_⟩
    exact he.symm.trans hnone

/-- What the questions of a rename say when it goes on. -/
theorem reads_mayRename {old_dir old_node new_dir : NodeId} {old_name new_name : Name}
    {new_node : Option NodeId} :
    Reads s (mayRename old_dir old_name old_node new_dir new_name new_node) fun _ =>
      (∃ n, s.Deletable old_dir old_name (s.node old_node).isDir n) ∧
      (∀ n, new_node = some n → ∃ m, s.Deletable new_dir new_name (s.node old_node).isDir m) ∧
      (new_node = none → s.mayCreate new_dir new_name = none) ∧
      (s.node old_node).mounted = none ∧ ∀ n, new_node = some n → (s.node n).mounted = none := by
  intro s' r h
  have herror {e : Errno} : ∀ a : Unit, Except.error e = .ok a → False := by
    rintro _ ⟨⟩
  unfold mayRename at h
  rw [gets_bind_apply] at h
  rw [← bind_assoc] at h
  rcases (reads_throwMayDelete old_dir old_name _ s).bind_cases h with
    ⟨e, rfl, rfl⟩ | ⟨_, hold, _, h⟩
  · exact ⟨rfl, fun a ha => (herror a ha).elim⟩
  rw [← bind_assoc] at h
  rcases (reads_mayReplace new_dir new_name _ new_node s).bind_cases h with
    ⟨e, rfl, rfl⟩ | ⟨_, ⟨hnew, hcreate⟩, _, h⟩
  · exact ⟨rfl, fun a ha => (herror a ha).elim⟩
  rw [gets_bind_apply, failIf_bind_apply] at h
  split at h
  · cases h
    exact ⟨rfl, fun a ha => (herror a ha).elim⟩
  · next hbusy =>
      have hfree : (s.node old_node).mounted = none ∧
          ∀ n, new_node = some n → (s.node n).mounted = none := by
        simp only [Bool.or_eq_true, not_or, Bool.not_eq_true] at hbusy
        refine ⟨by simpa [Node.isMountpoint] using hbusy.1, fun n hn => ?_⟩
        have h₂ := hbusy.2
        rw [hn] at h₂
        simpa [Node.isMountpoint] using h₂
      rw [gets_bind_apply] at h
      unfold doIf at h
      split at h
      · cases hperm : s.nodePermissions old_dir (some ['w']) with
        | some e =>
          rw [hperm] at h
          cases h
          exact ⟨rfl, fun a ha => (herror a ha).elim⟩
        | none =>
          rw [hperm] at h
          cases h
          exact ⟨rfl, fun _ _ => ⟨hold, hnew, hcreate, hfree⟩⟩
      · cases h
        exact ⟨rfl, fun _ _ => ⟨hold, hnew, hcreate, hfree⟩⟩

theorem FS.Deletable.eq_of_found {dir n m : NodeId} {name : Name} {isdir : Bool}
    (h : s.Deletable dir name isdir m) (hn : s.lookupNode dir name = .ok n) : m = n :=
  Except.ok.inj (h.found.symm.trans hn)

/-- A rename ends early and changes nothing, or it gets to the move. -/
theorem rename_cases {old_path new_path : Path} {r : Except Errno Unit}
    (h : rename old_path new_path s = some (s', r)) :
    s' = s ∨ ∃ old_dir old new_dir new_node,
      s.Renames old_path new_path old_dir old new_dir new_node ∧
        moveNode old new_dir (Path.basename new_path) s = some (s', r) := by
  unfold rename at h
  rcases (reads_query _ s).bind_cases h with ⟨e, rfl, rfl⟩ | ⟨old_dir, hold_dir, _, h⟩
  · exact .inl rfl
  rcases (reads_query _ s).bind_cases h with ⟨e, rfl, rfl⟩ | ⟨new_dir, hnew_dir, _, h⟩
  · exact .inl rfl
  rw [gets_bind_apply, failIf_bind_apply] at h
  split at h
  · cases h
    exact .inl rfl
  next hmount =>
  rcases (reads_query _ s).bind_cases h with ⟨e, rfl, rfl⟩ | ⟨old, hold, _, h⟩
  · exact .inl rfl
  simp only [gets_bind_apply, failIf_bind_apply] at h
  split at h
  · cases h
    exact .inl rfl
  next hbelow =>
  split at h
  · cases h
    exact .inl rfl
  next habove =>
  split at h
  · cases h
    exact .inl rfl
  next hne =>
  rcases reads_mayRename.bind_cases h with ⟨e, rfl, rfl⟩ | ⟨_, ⟨hdelete, hreplace, hcreate, hbusy⟩, _, h⟩
  · exact .inl rfl
  refine .inr ⟨old_dir, old, new_dir, _, ⟨hold_dir, hnew_dir, by simpa using hmount, hold,
    by simpa using hbelow, by simpa using habove, rfl, hne, ?_, fun n hn => ?_, hcreate, hbusy⟩, h⟩
  · obtain ⟨n, hn⟩ := hdelete
    have he := hn.eq_of_found hold
    exact he ▸ hn
  · obtain ⟨m, hm⟩ := hreplace n hn
    have he := hm.eq_of_found (lookupNew_some hn)
    exact he ▸ hm

/-! ## The move -/

/-- Both nodes leave the name table, and the one that is moved comes back under its new name. -/
def FS.move (s : FS) (old new_dir : NodeId) (new_name : Name) (new_node : Option NodeId) : FS :=
  let s := s.hashRemoveNode old
  let s := match new_node with
    | some n => s.hashRemoveNode n
    | none => s
  let s := MEMFS.rewire s old new_dir new_name
  let s := s.setNode old { s.node old with parent := new_dir }
  s.hashAddNode old

omit [Build] in
theorem find?_erase_of_ne {α : Type} [DecidableEq α] {p : α → Bool} {a : α} {l : List α}
    (h : l.find? p ≠ some a) : (l.erase a).find? p = l.find? p := by
  induction l with
  | nil => rfl
  | cons b l ih =>
    rw [List.erase_cons]
    split
    · next hb =>
        have he : b = a := by simpa using hb
        subst he
        rw [List.find?_cons] at h ⊢
        split
        · next hp => simp [hp] at h
        · rfl
    · rw [List.find?_cons] at h
      rw [List.find?_cons, List.find?_cons]
      split
      · rfl
      · next hp =>
          rw [hp] at h
          exact ih h

/-- A node out of the name table, which was not the one that is looked for. -/
theorem lookupNew_hashRemoveNode {old dir : NodeId} {name : Name}
    (h : MEMFS.lookupNew s dir name ≠ some old) :
    MEMFS.lookupNew (s.hashRemoveNode old) dir name = MEMFS.lookupNew s dir name := by
  have hfind : s.mayLookup dir = none →
      (s.hashRemoveNode old).hashLookup dir name = s.hashLookup dir name := by
    intro hmay
    unfold FS.hashLookup FS.hashRemoveNode FS.setChain
    simp only [Function.update_apply]
    split
    · next he =>
        rw [← he]
        refine find?_erase_of_ne fun hfound => h ?_
        unfold MEMFS.lookupNew
        rw [lookupNode_ok_iff.mpr ⟨hmay, hfound⟩]
        rfl
    · rfl
  have hmay : (s.hashRemoveNode old).mayLookup dir = s.mayLookup dir := rfl
  unfold MEMFS.lookupNew FS.lookupNode
  rw [hmay]
  split
  · rfl
  · next hnone => rw [hfind hnone]

/-- The move fails where a directory that is replaced is not empty, and is done otherwise. -/
theorem moveNode_apply {old new_dir : NodeId} {new_name : Name} {new_node : Option NodeId}
    (hnew : MEMFS.lookupNew s new_dir new_name = new_node) (hne : new_node ≠ some old) :
    moveNode old new_dir new_name s =
      if ∃ n, new_node = some n ∧ (s.node old).isDir = true ∧ (s.node n).contents.isEmpty = false then
        some ((s.hashRemoveNode old).hashAddNode old, .error .ENOTEMPTY)
      else some (s.move old new_dir new_name new_node, .ok ()) := by
  have hlook : MEMFS.lookupNew (s.hashRemoveNode old) new_dir new_name = new_node := by
    rw [lookupNew_hashRemoveNode (by rw [hnew]; exact hne), hnew]
  unfold moveNode
  rw [modify_bind_apply]
  cases new_node with
  | none =>
    rw [if_neg (by simp)]
    refine (attempt_of (t := MEMFS.rewire (s.hashRemoveNode old) old new_dir new_name)
      (r := .ok ()) ?_).trans rfl
    unfold MEMFS.rename
    rw [gets_bind_apply, hlook]
    rfl
  | some n =>
    by_cases hfull : (s.node old).isDir = true ∧ (s.node n).contents.isEmpty = false
    · rw [if_pos ⟨n, rfl, hfull⟩]
      refine (attempt_of (t := s.hashRemoveNode old) (r := .error .ENOTEMPTY) ?_).trans rfl
      unfold MEMFS.rename
      rw [gets_bind_apply, hlook]
      have hfull' : (s.node old).isDir = true ∧ ¬ (s.node n).contents.isEmpty = true :=
        ⟨hfull.1, by simp [hfull.2]⟩
      exact bind_of_error ((failIf_bind_apply _).trans (if_pos hfull'))
    · rw [if_neg (by rintro ⟨m, hm, hfull'⟩; cases hm; exact hfull hfull')]
      refine (attempt_of (t := MEMFS.rewire ((s.hashRemoveNode old).hashRemoveNode n) old new_dir
        new_name) (r := .ok ()) ?_).trans rfl
      unfold MEMFS.rename
      rw [gets_bind_apply, hlook]
      have hpass : ¬ ((s.node old).isDir = true ∧ ¬ (s.node n).contents.isEmpty = true) := by
        rintro ⟨hdir, hne'⟩
        exact hfull ⟨hdir, by simpa using hne'⟩
      exact bind_of_ok ((failIf_bind_apply _).trans (if_neg hpass))

/-! ## What a call does -/

/-- The path a call makes a node for. -/
def TreeCall.made : TreeCall → Option Path
  | .mknod path _ _ | .mkdir path _ | .symlink _ path => some path
  | _ => none

/-- The path a call removes, and whether it is to be that of a directory. -/
def TreeCall.removed : TreeCall → Option (Path × Bool)
  | .unlink path => some (path, false)
  | .rmdir path => some (path, true)
  | _ => none

/-- The options `mount` and `unmount` look up with. -/
def FS.mountpointOpts : FS.LookupOpts := { FS.LookupOpts.default with follow_mount := false }

/-- The mounts that go with a mount. -/
def FS.below (s : FS) (m : MountId) : List MountId := s.getMounts (s.nextMount + 1) [m]

/-- The mounts a call destroys. -/
def FS.unmounted (s : FS) : TreeCall → List MountId
  | .unmount path => match s.lookupPath path mountpointOpts with
    | .ok ⟨_, some n⟩ => (s.node n).mounted.elim [] s.below
    | _ => []
  | _ => []

/-- The ways a call changes the state. -/
inductive FS.TreeStep (s : FS) : TreeCall → FS → Prop
  | same (c : TreeCall) (hc : s.unmounted c = []) : s.TreeStep c s
  | grown {c : TreeCall} {path : Path} (hc : c.made = some path) {parent : NodeId}
      (hp : s.lookupParent path = .ok parent) (hmay : s.mayCreate parent (Path.basename path) = none)
      (data : Data) (perm : Mode) (hdata : ∀ o, data = .dir o → o = ⟨[], none⟩) :
      s.TreeStep c (s.grow parent (Path.basename path) data perm)
  | removed {c : TreeCall} {path : Path} {isdir : Bool} (hc : c.removed = some (path, isdir))
      {parent n : NodeId} (hp : s.lookupParent path = .ok parent)
      (hn : s.Deletable parent (Path.basename path) isdir n) (hbusy : (s.node n).mounted = none)
      (hempty : isdir = true → (s.node n).contents.isEmpty = true) :
      s.TreeStep c ((s.deleteChild parent (Path.basename path)).hashRemoveNode n)
  | readded {old_path new_path : Path} {old_dir old new_dir : NodeId} {new_node : Option NodeId}
      (h : s.Renames old_path new_path old_dir old new_dir new_node) :
      s.TreeStep (.rename old_path new_path) ((s.hashRemoveNode old).hashAddNode old)
  | moved {old_path new_path : Path} {old_dir old new_dir : NodeId} {new_node : Option NodeId}
      (h : s.Renames old_path new_path old_dir old new_dir new_node)
      (hempty : ∀ n, new_node = some n → (s.node old).isDir = true →
        (s.node n).contents.isEmpty = true) :
      s.TreeStep (.rename old_path new_path) (s.move old new_dir (Path.basename new_path) new_node)
  | mounted {mountpoint path : Path} {n : NodeId}
      (hl : s.lookupPath mountpoint mountpointOpts = .ok ⟨path, some n⟩)
      (hfree : (s.node n).mounted = none) (hdir : (s.node n).isDir = true) :
      s.TreeStep (.mount mountpoint) (s.addMount path n)
  | unmounted {mountpoint path : Path} {n : NodeId} {m : MountId}
      (hl : s.lookupPath mountpoint mountpointOpts = .ok ⟨path, some n⟩)
      (hm : (s.node n).mounted = some m) : s.TreeStep (.unmount mountpoint) (s.removeMount n m)
  | entered {path current : Path} {n : NodeId}
      (hl : s.lookupPath path { FS.LookupOpts.default with follow := true } = .ok ⟨current, some n⟩)
      (hdir : (s.node n).isDir = true) :
      s.TreeStep (.chdir path) { s with currentPath := current }

variable {r : Except Errno Unit}

omit [Build] in
theorem data_of_type {type : NodeType} {data : Data} (h : type.data = some data) (o : DirObject)
    (ho : data = .dir o) : o = ⟨[], none⟩ := by
  subst ho
  cases type <;> cases h
  rfl

omit [Build] in
/-- A call whose value is dropped. -/
theorem run_of_ignored {α : Type} {m : Sys α} (h : (do let _ ← m : Sys Unit) s = some (s', r)) :
    ∃ r', m s = some (s', r') := by
  cases r with
  | ok u =>
    obtain ⟨a, s₁, hm, hk⟩ := bind_ok_iff.mp h
    cases hk
    exact ⟨.ok a, hm⟩
  | error e =>
    rcases bind_error_iff.mp h with hm | ⟨a, s₁, hm, hk⟩
    · exact ⟨.error e, hm⟩
    · cases hk

variable {path : Path} {c : TreeCall}

theorem unmounted_of_made (hc : c.made = some path) : s.unmounted c = [] := by
  cases c <;> first | rfl | cases hc

theorem mknod_step (hc : c.made = some path) (type : NodeType) (perm : Mode) {r : Except Errno NodeId}
    (h : mknod path type perm s = some (s', r)) : s.TreeStep c s' := by
  by_cases hmakes : ∃ parent, s.Makes path parent
  · obtain ⟨parent, hm⟩ := hmakes
    cases hd : type.data with
    | some data =>
      rw [mknod_of_makes hm hd perm] at h
      cases h
      exact .grown hc hm.lookup hm.may data perm (data_of_type hd)
    | none =>
      unfold mknod MEMFS.mknod at h
      rw [bind_of_ok (query_of_eq hm.lookup)] at h
      simp only [failIf_bind_apply, gets_bind_apply, hm.name, hm.plain, if_false, hm.may, hd] at h
      cases h
      exact .same c (unmounted_of_made hc)
  · obtain ⟨e, he⟩ := mknod_refused (fun parent hm => hmakes ⟨parent, hm⟩) type perm
    rw [he] at h
    cases h
    exact .same c (unmounted_of_made hc)

theorem symlink_step {oldpath newpath : Path} (hc : c.made = some newpath) {r : Except Errno NodeId}
    (h : symlink oldpath newpath s = some (s', r)) : s.TreeStep c s' := by
  unfold symlink at h
  rw [gets_bind_apply, failIf_bind_apply] at h
  split at h
  · cases h
    exact .same c (unmounted_of_made hc)
  rcases (reads_query _ s).bind_cases h with ⟨e, rfl, rfl⟩ | ⟨parent, hparent, _, h⟩
  · exact .same c (unmounted_of_made hc)
  rw [gets_bind_apply] at h
  rcases (reads_throwIf _ s).bind_cases h with ⟨e, rfl, rfl⟩ | ⟨_, hmay, _, h⟩
  · exact .same c (unmounted_of_made hc)
  unfold MEMFS.symlink at h
  rw [createNode_apply] at h
  cases h
  exact .grown hc hparent hmay _ _ fun o ho => nomatch ho

theorem unlink_step (h : unlink path s = some (s', r)) : s.TreeStep (.unlink path) s' := by
  unfold unlink at h
  rcases (reads_query _ s).bind_cases h with ⟨e, rfl, rfl⟩ | ⟨parent, hparent, _, h⟩
  · exact .same _ rfl
  rcases (reads_query _ s).bind_cases h with ⟨e, rfl, rfl⟩ | ⟨n, hn, _, h⟩
  · exact .same _ rfl
  rw [← bind_assoc] at h
  rcases (reads_throwMayDelete parent (Path.basename path) false s).bind_cases h with
    ⟨e, rfl, rfl⟩ | ⟨_, ⟨m, hm⟩, _, h⟩
  · exact .same _ rfl
  obtain rfl := hm.eq_of_found hn
  rw [gets_bind_apply, failIf_bind_apply] at h
  split at h
  · cases h
    exact .same _ rfl
  next hbusy =>
  cases h
  exact .removed rfl hparent hm (by simpa [Node.isMountpoint] using hbusy) fun hd => nomatch hd

theorem rmdir_step (h : rmdir path s = some (s', r)) : s.TreeStep (.rmdir path) s' := by
  unfold rmdir at h
  rcases (reads_query _ s).bind_cases h with ⟨e, rfl, rfl⟩ | ⟨parent, hparent, _, h⟩
  · exact .same _ rfl
  rcases (reads_query _ s).bind_cases h with ⟨e, rfl, rfl⟩ | ⟨n, hn, _, h⟩
  · exact .same _ rfl
  rw [← bind_assoc] at h
  rcases (reads_throwMayDelete parent (Path.basename path) true s).bind_cases h with
    ⟨e, rfl, rfl⟩ | ⟨_, ⟨m, hm⟩, _, h⟩
  · exact .same _ rfl
  obtain rfl := hm.eq_of_found hn
  rw [gets_bind_apply, failIf_bind_apply] at h
  split at h
  · cases h
    exact .same _ rfl
  next hbusy =>
  unfold MEMFS.rmdir at h
  rw [bind_assoc, bind_of_ok (query_of_eq hn)] at h
  simp only [bind_assoc] at h
  rw [gets_bind_apply, failIf_bind_apply] at h
  split at h
  · cases h
    exact .same _ rfl
  next hempty =>
  cases h
  exact .removed rfl hparent hm (by simpa [Node.isMountpoint] using hbusy) fun _ => by
    simpa using hempty

theorem rename_step {old_path new_path : Path} (h : rename old_path new_path s = some (s', r)) :
    s.TreeStep (.rename old_path new_path) s' := by
  rcases rename_cases h with rfl | ⟨old_dir, old, new_dir, new_node, hr, hmove⟩
  · exact .same _ rfl
  rw [moveNode_apply hr.newNode hr.ne] at hmove
  split at hmove
  · cases hmove
    exact .readded hr
  · next hfull =>
      cases hmove
      refine .moved hr fun n hn hdir => ?_
      cases hempty : (s.node n).contents.isEmpty with
      | true => rfl
      | false => exact absurd ⟨n, hn, hdir, hempty⟩ hfull

theorem reads_lookupMountpoint (path : Path) (s : FS) : Reads s (lookupMountpoint path) fun p =>
    s.lookupPath path FS.mountpointOpts = .ok ⟨p.1, some p.2⟩ := by
  unfold lookupMountpoint
  refine (reads_query _ s).bind fun l hl => ?_
  obtain ⟨path', _ | n⟩ := l
  · exact .fail
  · exact .pure hl

theorem mount_step {mountpoint : Path} (h : mount mountpoint s = some (s', r)) :
    s.TreeStep (.mount mountpoint) s' := by
  unfold mount at h
  rw [failIf_bind_apply] at h
  split at h
  · cases h
    exact .same _ rfl
  rcases (reads_lookupMountpoint mountpoint s).bind_cases h with ⟨e, rfl, rfl⟩ | ⟨⟨path, n⟩, hl, _, h⟩
  · exact .same _ rfl
  simp only [gets_bind_apply, failIf_bind_apply] at h
  split at h
  · cases h
    exact .same _ rfl
  next hfree =>
  split at h
  · cases h
    exact .same _ rfl
  next hdir =>
  cases h
  exact .mounted hl (by simpa [Node.isMountpoint] using hfree) (by simpa using hdir)

theorem lookupMountpoint_of_error {e : Errno} (h : s.lookupPath path FS.mountpointOpts = .error e) :
    lookupMountpoint path s = some (s, .error e) := by
  unfold lookupMountpoint
  exact bind_of_error (query_of_eq h)

theorem lookupMountpoint_of_ok {l : FS.Lookup} (h : s.lookupPath path FS.mountpointOpts = .ok l) :
    lookupMountpoint path s =
      some (s, l.node.elim (.error .ENOENT) fun n => .ok (l.path, n)) := by
  unfold lookupMountpoint
  rw [bind_of_ok (query_of_eq h)]
  obtain ⟨path', _ | n⟩ := l <;> rfl

theorem unmount_step {mountpoint : Path} (h : unmount mountpoint s = some (s', r)) :
    s.TreeStep (.unmount mountpoint) s' := by
  have hun : s.unmounted (.unmount mountpoint) = match s.lookupPath mountpoint FS.mountpointOpts with
    | .ok ⟨_, some n⟩ => (s.node n).mounted.elim [] s.below
    | _ => [] := rfl
  unfold unmount at h
  cases hl : s.lookupPath mountpoint FS.mountpointOpts with
  | error e =>
    rw [bind_of_error (lookupMountpoint_of_error hl)] at h
    cases h
    exact .same _ (by rw [hun, hl])
  | ok l =>
    obtain ⟨path, _ | n⟩ := l
    · rw [bind_of_error (lookupMountpoint_of_ok hl)] at h
      cases h
      exact .same _ (by rw [hun, hl])
    · rw [bind_of_ok (lookupMountpoint_of_ok hl)] at h
      dsimp only at h
      rw [gets_bind_apply] at h
      cases hm : (s.node n).mounted with
      | none =>
        rw [hm] at h
        cases h
        exact .same _ (by rw [hun, hl]; simp [hm])
      | some m =>
        rw [hm] at h
        cases h
        exact .unmounted hl hm

theorem chdir_step (h : chdir path s = some (s', r)) : s.TreeStep (.chdir path) s' := by
  unfold chdir at h
  rcases (reads_query _ s).bind_cases h with ⟨e, rfl, rfl⟩ | ⟨⟨current, _ | n⟩, hl, _, h⟩
  · exact .same _ rfl
  · cases h
    exact .same _ rfl
  · dsimp only at h
    rw [gets_bind_apply, failIf_bind_apply] at h
    split at h
    · cases h
      exact .same _ rfl
    next hdir =>
    rw [gets_bind_apply] at h
    rcases (reads_throwIf _ s).bind_cases h with ⟨e, rfl, rfl⟩ | ⟨_, _, _, h⟩
    · exact .same _ rfl
    cases h
    exact .entered hl (by simpa using hdir)

/-- Every call that comes back did one of these. -/
theorem tree_step (h : c.run s = some (s', r)) : s.TreeStep c s' := by
  cases c with
  | mknod path type perm =>
    obtain ⟨r', h'⟩ := run_of_ignored h
    exact mknod_step rfl type perm h'
  | mkdir path mode =>
    obtain ⟨r', h'⟩ := run_of_ignored h
    exact mknod_step rfl .dir _ h'
  | symlink oldpath newpath =>
    obtain ⟨r', h'⟩ := run_of_ignored h
    exact symlink_step rfl h'
  | unlink path => exact unlink_step h
  | rmdir path => exact rmdir_step h
  | rename old_path new_path => exact rename_step h
  | mount mountpoint => exact mount_step h
  | unmount mountpoint => exact unmount_step h
  | chdir path => exact chdir_step h

end JsFs
