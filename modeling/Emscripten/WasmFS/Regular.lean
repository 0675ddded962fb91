-- SUMMARY: Positions, requests and memory files in every state of an instance that also does I/O.
import Emscripten.WasmFS.Runs
import Emscripten.WasmFS.Transfer

/-!
# Regular states

What the data files of an instance, the requests that reached them and the positions of
the open descriptions look like in every state: an invariant of all calls, those of the
tree and those of `Transfer`.
-/

namespace WasmFS

open Prog

/-- The contract of `DataFile`: an access is no longer than what was asked for, and a
size is an `off_t`. -/
structure Env.Documented (env : Env) : Prop where
  getSize : ∀ f n, env.getSize f = .ok n → (n : Int) ≤ OFF_MAX
  write : ∀ f bytes offset n, env.write f bytes offset = .ok n → n ≤ bytes.length
  read : ∀ f len offset bytes, env.read f len offset = .ok bytes → bytes.length ≤ len

/-- The range of the request is one of an `off_t`. -/
def DataRequest.InRange : DataRequest → Prop
  | .read _ len offset => 0 ≤ offset ∧ offset + len ≤ OFF_MAX
  | .write _ bytes offset => 0 ≤ offset ∧ offset + bytes.length ≤ OFF_MAX
  | .setSize _ size => 0 ≤ size ∧ size ≤ OFF_MAX

/-- A file that holds bytes in memory is a seekable data file of a memory backend. -/
def File.Regular (x : File) : Prop := ∀ buffer, x.data = .memory buffer →
  x.kind = .dataFile ∧ x.seekable = true ∧ (∃ n, x.backend = some (.memory n)) ∧
    buffer.length ≤ SSIZE_MAX

/-- Requests that may have reached the files: at least those within an `off_t`. -/
structure Requests where
  allowed : DataRequest → Prop
  of_inRange : ∀ q, q.InRange → allowed q

structure FS.Regular (W : Requests) (s : FS) : Prop where
  env : s.env.Documented
  requests : ∀ q ∈ s.requests, W.allowed q
  position : ∀ o, 0 ≤ (s.openFile o).position ∧ (s.openFile o).position ≤ OFF_MAX
  file : ∀ f, (s.file f).Regular

variable {W : Requests}

/-! ## Updates -/

variable (d : FileId) (n : Name) (b : Option Backend) (mode : Nat) (path : Path) (f : FileId) (o : OpenId)
   {x : File}

section Updates

variable {s : FS}

theorem FS.Regular.modifyFile (h : s.Regular W) (f : FileId) {g : File → File}
    (hg : (g (s.file f)).Regular) : (s.modifyFile f g).Regular W where
  env := h.env
  requests := h.requests
  position := h.position
  file x := by
    rw [FS.modifyFile_file]
    split
    · exact hg
    · exact h.file x

theorem FS.Regular.addFile (h : s.Regular W) (hx : x.Regular) : (s.addFile x).Regular W where
  env := h.env
  requests := h.requests
  position := h.position
  file f := by
    rw [FS.addFile_file]
    split
    · exact hx
    · exact h.file f

theorem FS.Regular.modifyOpen (h : s.Regular W) (o : OpenId) {g : OpenFileState → OpenFileState}
    (hg : 0 ≤ (g (s.openFile o)).position ∧ (g (s.openFile o)).position ≤ OFF_MAX) :
    (s.modifyOpen o g).Regular W where
  env := h.env
  requests := h.requests
  file := h.file
  position x := by
    change 0 ≤ (Function.update s.openFile o (g (s.openFile o)) x).position ∧ _
    rw [Function.update_apply]
    split
    · next hx => simpa [FS.modifyOpen, hx] using hg
    · next hx => simpa [FS.modifyOpen, hx] using h.position x

theorem FS.Regular.addOpen (h : s.Regular W) {x : OpenFileState} (hx : x.position = 0) :
    (s.addOpen x).Regular W where
  env := h.env
  requests := h.requests
  file := h.file
  position o := by
    change 0 ≤ (Function.update s.openFile s.nextOpen x o).position ∧
      (Function.update s.openFile s.nextOpen x o).position ≤ OFF_MAX
    rw [Function.update_apply]
    split
    · rw [hx]
      exact ⟨Int.le_refl 0, by decide⟩
    · exact h.position o

theorem FS.Regular.requested (h : s.Regular W) {q : DataRequest} (hq : W.allowed q) :
    (s.requested q).Regular W where
  env := h.env
  position := h.position
  file := h.file
  requests p hp := by
    rcases List.mem_cons.mp hp with rfl | hp
    · exact hq
    · exact h.requests p hp

theorem FS.Regular.logged (h : s.Regular W) (log : List FileEvent) : (s.logged log).Regular W :=
  ⟨h.env, h.requests, h.position, h.file⟩

theorem FS.Regular.setParent (h : s.Regular W) (f : FileId) (p : Option FileId) :
    (s.setParent f p).Regular W := h.modifyFile f (h.file f)

theorem FS.Regular.updateMTime (h : s.Regular W) (f : FileId) : (s.updateMTime f).Regular W :=
  h.modifyFile f (h.file f)

/-! ### Directories -/

theorem FS.Regular.memoryRemoveChild (h : s.Regular W) (d : FileId) (n : Name) :
    (s.memoryRemoveChild d n).Regular W := by
  unfold FS.memoryRemoveChild
  split
  · exact h
  · next c _ => exact (h.setParent c none).modifyFile d ((h.setParent c none).file d)

theorem FS.Regular.memoryInsertChild (h : s.Regular W) (d : FileId) (n : Name) (c : FileId) :
    (s.memoryInsertChild d n c).Regular W := h.modifyFile d (h.file d)

theorem FS.Regular.memoryInsertMove (h : s.Regular W) (d : FileId) (n : Name) (f oldParent : FileId) :
    (s.memoryInsertMove d n f oldParent).Regular W :=
  ((h.modifyFile oldParent (g := fun x => { x with
    entries := Assoc.dropFirst Prod.snd f x.entries }) (h.file oldParent)).memoryRemoveChild d
      n).memoryInsertChild d n f

theorem FS.Regular.dcacheInsert (h : s.Regular W) (d : FileId) (n : Name) (e : DCacheEntry) :
    (s.dcacheInsert d n e).Regular W := by
  refine h.modifyFile d ?_
  split
  · exact h.file d
  · exact h.file d

theorem FS.Regular.dcacheErase (h : s.Regular W) (d : FileId) (n : Name) :
    (s.dcacheErase d n).Regular W := h.modifyFile d (h.file d)

theorem FS.Regular.cacheChild (h : s.Regular W) (d : FileId) (n : Name) (c : FileId) (k : DCacheKind) :
    (s.cacheChild d n c k).Regular W := by
  unfold FS.cacheChild
  split
  · exact (h.dcacheInsert d n ⟨k, c⟩).setParent c (some d)
  · exact h.setParent c (some d)

theorem regular_newDataFile (now : Nat) : (newDataFile b mode now).Regular := by
  intro buffer hbuffer
  unfold newDataFile at hbuffer ⊢
  simp only [] at hbuffer
  split at hbuffer
  · next n =>
      cases hbuffer
      exact ⟨rfl, rfl, ⟨n, rfl⟩, Nat.zero_le _⟩
  · cases hbuffer

/-- A file that is no memory file. -/
theorem File.regular_of_data (h : ∀ buffer, x.data ≠ .memory buffer) : x.Regular :=
  fun buffer hbuffer => absurd hbuffer (h buffer)

/-! ### The descriptor table -/

theorem FS.Regular.growTable (h : s.Regular W) (fd : Nat) : (s.growTable fd).Regular W :=
  ⟨h.env, h.requests, h.position, h.file⟩

theorem FS.Regular.putSlot (h : s.Regular W) (fd : Nat) (o : Option OpenId) :
    (s.putSlot fd o).Regular W :=
  ⟨h.env, h.requests, h.position, h.file⟩

theorem FS.Regular.addUses (h : s.Regular W) (o : OpenId) (n : Int) : (s.addUses o n).Regular W :=
  h.modifyOpen o (h.position o)

theorem FS.Regular.dropEntry (h : s.Regular W) (o : OpenId) : (s.dropEntry o).Regular W :=
  (h.modifyFile (s.openFile o).file (h.file _)).addUses o (-1)

theorem FS.Regular.setEntry (h : s.Regular W) (fd : Nat) (o : Option OpenId) :
    (s.setEntry fd o).1.Regular W := by
  have hgrown := h.growTable fd
  unfold FS.setEntry
  cases o with
  | none =>
    simp only []
    split
    · exact hgrown.putSlot fd none
    · next old _ => exact (hgrown.dropEntry old).putSlot fd none
  | some x =>
    simp only []
    split
    · exact (hgrown.addUses x 1).putSlot fd (some x)
    · next old _ => exact ((hgrown.addUses x 1).dropEntry old).putSlot fd (some x)

theorem FS.Regular.detachFrom (keep : FS → OpenId → Bool) (n : Nat) :
    ∀ (fd : Nat) {s : FS}, s.Regular W → (FS.detachFrom keep n fd s).1.Regular W := by
  induction n with
  | zero => exact fun _ _ h => h
  | succ n ih =>
    intro fd s h
    refine ih (fd + 1) ?_
    split
    · split
      · exact h
      · exact h.setEntry fd none
    · exact h.setEntry fd none

end Updates

/-! ## The tree syscalls -/

section Tree

/-- A program that acts on the state by regular updates. -/
theorem preserves_of_step {α : Type} {I : FS → Prop} {prog : Sys α}
    (h : ∀ s s' r, I s → prog s = some (s', r) → I s') : Preserves I prog := by
  intro s hs s' r hr
  cases r with
  | ok _ => exact h s s' _ hs hr
  | error _ => exact h s s' _ hs hr

theorem regular_admitBackend : Preserves (FS.Regular W) (admitBackend b) :=
  Reads.preserves fun _ => reads_admitBackend b

theorem regular_admitFile : Preserves (FS.Regular W) (admitFile f) :=
  Reads.preserves fun _ => reads_admitFile f

theorem regular_getChild : Preserves (FS.Regular W) (Directory.getChild d n) := by
  refine preserves_of_step fun s s' r hs hr => ?_
  unfold Directory.getChild at hr
  split at hr
  · cases hr; exact hs
  · split at hr
    · cases hr; exact hs
    · split at hr
      · cases hr; exact hs
      · split at hr
        · cases hr; exact hs
        · split at hr
          · cases hr; exact hs
          · cases hr; exact hs.cacheChild d n _ .normal

namespace Path

theorem regular_getChild {follow : Follow} (hfollow : ∀ d c n, Preserves (FS.Regular W) (follow d c n))
    (d : FileId) (n : Name) (r : Nat) : Preserves (FS.Regular W) (getChild follow d n r) := by
  refine .bind .gets fun _ => .bind (regular_admitBackend _) fun _ => ?_
  refine .bind (WasmFS.regular_getChild d n) fun found => ?_
  cases found with
  | none => exact .fail
  | some c => exact .bind .gets fun _ => .bind (regular_admitBackend _) fun _ => hfollow d c r

theorem regular_walk {follow : Follow} (hfollow : ∀ d c n, Preserves (FS.Regular W) (follow d c n))
    (names : List Name) : ∀ d r, Preserves (FS.Regular W) (walk follow names d r) := by
  induction names with
  | nil => exact fun d r => .pure
  | cons n rest ih =>
    intro d r
    cases rest with
    | nil => exact .bind .gets fun _ => .bind (regular_admitBackend _) fun _ => .pure
    | cons m rest =>
      exact .bind (regular_getChild hfollow d n r) fun p => .bind .gets fun _ =>
        .bind .failIf fun _ => ih p.1 p.2

theorem regular_doParseParent {follow : Follow}
    (hfollow : ∀ d c n, Preserves (FS.Regular W) (follow d c n)) (path : Path) (d : FileId) (r : Nat) :
    Preserves (FS.Regular W) (doParseParent follow path d r) := by
  refine .bind .failIf fun _ => .ite ?_ (regular_walk hfollow _ d r)
  exact .bind .gets fun root => .bind .gets fun _ => .bind (regular_admitBackend _) fun _ =>
    regular_walk hfollow _ root r

theorem regular_follow (fuel : Nat) : ∀ d c n, Preserves (FS.Regular W) (follow fuel d c n) := by
  induction fuel with
  | zero => exact fun d c n => .crash
  | succ fuel ih =>
    intro d c n
    refine .bind .gets fun _ => .ite .pure (.bind .failIf fun _ => .bind .gets fun target => ?_)
    refine .bind .failIf fun _ => .bind (regular_doParseParent ih target d (n + 1)) fun p => ?_
    exact .bind (regular_getChild ih p.1 p.2.1 p.2.2) fun q => ih d q.1 q.2

theorem regular_getBaseDir (fd : Int) : Preserves (FS.Regular W) (getBaseDir fd) := by
  refine .ite (.bind .gets fun _ => .bind .gets fun _ => .bind (regular_admitBackend _) fun _ => .pure) ?_
  refine .bind .gets fun found => ?_
  cases found with
  | none => exact .fail
  | some o =>
    exact .bind .gets fun _ => .bind .gets fun _ => .bind (regular_admitBackend _) fun _ =>
      .bind .gets fun _ => .bind .failIf fun _ => .pure

theorem regular_base (fd : Int) : Preserves (FS.Regular W) (base path fd) :=
  .ite (.bind .gets fun _ => .bind .gets fun _ => .bind (regular_admitBackend _) fun _ => .pure)
    (regular_getBaseDir fd)

theorem regular_parseParent (fd : Int) : Preserves (FS.Regular W) (parseParent path fd) :=
  .bind (regular_base path fd) fun d => .bind (regular_doParseParent (regular_follow _) path d 0)
    fun _ => .pure

theorem regular_doParseFile {links : Follow} (hlinks : ∀ d c n, Preserves (FS.Regular W) (links d c n))
    (path : Path) (d : FileId) : Preserves (FS.Regular W) (doParseFile links path d) :=
  .bind (regular_doParseParent (regular_follow _) path d 0) fun p =>
    .bind (regular_getChild hlinks p.1 p.2.1 p.2.2) fun _ => .pure

theorem regular_parseFile (fd : Int) : Preserves (FS.Regular W) (parseFile path fd followLinks) :=
  .bind (regular_base path fd) fun d => regular_doParseFile (regular_follow _) path d

theorem regular_getFileFrom : Preserves (FS.Regular W) (getFileFrom d path) :=
  .bind .gets fun _ => .bind (regular_admitBackend _) fun _ =>
    regular_doParseFile (regular_follow _) path d

end Path

/-! ### The descriptor table -/

theorem regular_close : Preserves (FS.Regular W) (DataFile.close o) :=
  preserves_of_step fun s s' r hs hr => by
    cases hr
    exact hs.logged _

theorem regular_setSize {f : FileId} {size : Int} (h : 0 ≤ size ∧ size ≤ OFF_MAX) :
    Preserves (FS.Regular W) (DataFile.setSize f size) := by
  refine preserves_of_step fun s s' r hs hr => ?_
  have hreq : (s.requested (.setSize f size)).Regular W := hs.requested (W.of_inRange _ h)
  unfold DataFile.setSize at hr
  dsimp only at hr
  split at hr
  · next buffer hdata =>
      split at hr
      · cases hr; exact hreq
      · next hle =>
          cases hr
          refine hreq.modifyFile f fun b hb => ?_
          obtain ⟨hkind, hseek, hbackend, hlen⟩ := hs.file f buffer hdata
          refine ⟨hkind, hseek, hbackend, ?_⟩
          cases hb
          have hmax : size.toNat ≤ SSIZE_MAX := by
            have := Int.not_lt.mp hle
            omega
          unfold ByteSeq.resize
          rw [List.length_append, List.length_take, List.length_replicate]
          omega
  · cases hr; exact hreq
  · cases hr; exact hreq

theorem regular_create (flags : Nat) : Preserves (FS.Regular W) (OpenFileState.create f flags) := by
  refine preserves_of_step fun s s' r hs hr => ?_
  unfold OpenFileState.create at hr
  split at hr
  · split at hr
    · cases hr; exact hs
    · cases hr; exact (hs.addOpen rfl).logged _
  · cases hr; exact hs.addOpen rfl
  · cases hr; exact hs.addOpen rfl

theorem regular_setEntry (fd : Nat) (o : Option OpenId) : Preserves (FS.Regular W) (setEntry fd o) :=
  preserves_of_step fun s s' r hs hr => by
    cases hr
    exact hs.setEntry fd o

theorem regular_takeEntry (start : Nat) (o : OpenId) : Preserves (FS.Regular W) (takeEntry start o) := by
  refine preserves_of_step fun s s' r hs hr => ?_
  unfold takeEntry at hr
  split at hr
  · cases hr; exact hs.setEntry _ _
  · cases hr; exact hs

theorem regular_closeIgnored (o : Option OpenId) : Preserves (FS.Regular W) (closeIgnored o) := by
  cases o with
  | none => exact .pure
  | some o => exact (regular_close o).attempt fun _ => .pure

theorem regular_abandonOpenFile : Preserves (FS.Regular W) (abandonOpenFile o) :=
  .bind .gets fun _ => .ite (regular_close o) .pure

theorem regular_installOpenFile : Preserves (FS.Regular W) (installOpenFile o) := by
  refine (regular_takeEntry 0 o).attempt fun r => ?_
  cases r with
  | ok fd => exact .pure
  | error e => exact .bind (regular_abandonOpenFile o) fun _ => .fail

theorem regular_fetch (fd : Int) : Preserves (FS.Regular W) (fetch fd) :=
  Reads.preserves fun s => reads_fetch fd s

theorem regular_dup (fd : Int) : Preserves (FS.Regular W) (dup fd) :=
  .bind (regular_fetch fd) fun o => regular_takeEntry 0 o

theorem regular_dup3 (oldfd newfd : Int) (flags : Nat) : Preserves (FS.Regular W) (dup3 oldfd newfd flags) := by
  refine .bind .failIf fun _ => .bind .failIf fun _ => .bind (regular_fetch oldfd) fun o => ?_
  refine .bind .failIf fun _ => .bind .gets fun replaced => .bind ?_ fun _ => ?_
  · cases replaced with
    | none => exact .pure
    | some x => exact Reads.preserves fun _ => reads_admitOpenFile x
  · exact .bind (regular_setEntry _ _) fun c => .bind (regular_closeIgnored c) fun _ => .pure

theorem regular_dup2 (oldfd newfd : Int) : Preserves (FS.Regular W) (dup2 oldfd newfd) :=
  .ite (.bind (regular_fetch oldfd) fun _ => .pure) (regular_dup3 oldfd newfd 0)

theorem regular_fcntlDupFd (fd arg : Int) : Preserves (FS.Regular W) (fcntlDupFd fd arg) :=
  .bind (regular_fetch fd) fun o => .bind .failIf fun _ => regular_takeEntry arg.toNat o

theorem regular_wasiAdmitOpenFile : Preserves (FS.Regular W) (wasiAdmitOpenFile o) := by
  refine Preserves.attempt (Reads.preserves fun _ => reads_admitOpenFile o) fun r => ?_
  cases r with
  | ok _ => exact .pure
  | error _ => exact .fail

theorem regular_fdClose (fd : Int) : Preserves (FS.Regular W) (fdClose fd) := by
  refine .bind .gets fun found => ?_
  cases found with
  | none => exact .fail
  | some o =>
    refine .bind (regular_wasiAdmitOpenFile o) fun _ => .bind (regular_setEntry _ _) fun c => ?_
    cases c with
    | none => exact .pure
    | some c => exact regular_close c

theorem regular_makePipe : Preserves (FS.Regular W) makePipe := by
  refine preserves_of_step fun s s' r hs hr => ?_
  cases hr
  have hs' : FS.Regular W { s with pipe := Function.update s.pipe s.nextPipe [], nextPipe := s.nextPipe + 1 } :=
    ⟨hs.env, hs.requests, hs.position, hs.file⟩
  have hpipe : ∀ mode now, (newPipeFile mode s.nextPipe now).Regular := fun mode now =>
    File.regular_of_data fun buffer hbuffer => by cases hbuffer
  exact (hs'.addFile (hpipe _ _)).addFile (hpipe _ _)

theorem regular_pipe2 (flags : Nat) : Preserves (FS.Regular W) (pipe2 flags) := by
  have habandon : ∀ o, Preserves (FS.Regular W)
      (Prog.attempt (abandonOpenFile o) fun _ => (pure () : Sys Unit)) := fun o =>
    (regular_abandonOpenFile o).attempt fun _ => .pure
  refine .bind .failIf fun _ => .bind regular_makePipe fun p => .bind (regular_create _ _) fun r => ?_
  refine .bind (regular_create _ _) fun w => (regular_takeEntry 0 r).attempt fun installed => ?_
  cases installed with
  | error e => exact .bind (habandon r) fun _ => .bind (habandon w) fun _ => .fail
  | ok fd =>
    refine (regular_takeEntry 0 w).attempt fun installed => ?_
    cases installed with
    | ok _ => exact .pure
    | error e =>
      exact .bind (regular_setEntry _ _) fun c => .bind (regular_closeIgnored c) fun _ =>
        .bind (habandon w) fun _ => .fail

theorem regular_closeAll (os : List OpenId) : Preserves (FS.Regular W) (closeAll os) := by
  induction os with
  | nil => exact .pure
  | cons o rest ih => exact .bind ((regular_close o).attempt fun _ => .pure) fun _ => ih

theorem regular_detachAll : Preserves (FS.Regular W) detachAll :=
  .bind .gets fun _ => .bind (.modify fun _ hs => hs.detachFrom _ _ 0) fun _ => regular_closeAll _

theorem regular_detachBackend : Preserves (FS.Regular W) (detachBackend b) :=
  .bind .gets fun _ => .bind (.modify fun _ hs => hs.detachFrom _ _ 0) fun _ => regular_closeAll _

/-! ### Files and directories -/

theorem regular_insertNew (hx : x.Regular) : Preserves (FS.Regular W) (Directory.insertNew d n x) :=
  preserves_of_step fun s s' r hs hr => by
    cases hr
    exact (((hs.addFile hx).memoryInsertChild d n _).cacheChild d n _ .normal).updateMTime d

/-- One of the `insert…` methods. -/
theorem regular_insert {insert : Sys (Option FileId)} {x : FS → File} (hx : ∀ s, (x s).Regular)
    (hinsert : ∀ s, insert s =
      if (s.file d).parent = none then some (s, .ok none)
      else (Directory.insertNew d n (x s) >>= fun c => pure (some c)) s) : Preserves (FS.Regular W) insert := by
  intro s hs s' r hr
  rw [hinsert] at hr
  split at hr
  · cases hr; exact hs
  · exact Preserves.bind (regular_insertNew d n (hx s)) (fun _ => .pure) s hs s' r hr

theorem regular_insertDataFile : Preserves (FS.Regular W) (Directory.insertDataFile d n mode) :=
  regular_insert d n (fun _ => regular_newDataFile _ _ _) fun _ => rfl

theorem regular_insertDirectory : Preserves (FS.Regular W) (Directory.insertDirectory d n mode) :=
  regular_insert d n (x := fun s => newDirectory (s.file d).backend mode s.env.now)
    (fun _ => File.regular_of_data fun _ hb => by cases hb) fun _ => rfl

theorem regular_insertSymlink (target : Path) : Preserves (FS.Regular W) (Directory.insertSymlink d n target) :=
  regular_insert d n (x := fun s => newSymlink (s.file d).backend target s.env.now)
    (fun _ => File.regular_of_data fun _ hb => by cases hb) fun _ => rfl

theorem regular_createFile : Preserves (FS.Regular W) (createFile b mode) := by
  refine preserves_of_step fun s s' r hs hr => ?_
  unfold createFile at hr
  split at hr
  · cases hr; exact hs.addFile (regular_newDataFile _ _ _)
  · split at hr
    · cases hr; exact hs.addFile (regular_newDataFile _ _ _)
    · cases hr; exact hs
  · cases hr

theorem regular_createDirectory : Preserves (FS.Regular W) (createDirectory b mode) := by
  have hdir : ∀ b now, (newDirectory b mode now).Regular := fun _ _ =>
    File.regular_of_data fun _ hb => by cases hb
  refine preserves_of_step fun s s' r hs hr => ?_
  unfold createDirectory at hr
  split at hr
  · cases hr; exact hs.addFile (hdir _ _)
  · split at hr
    · cases hr; exact hs.addFile (hdir _ _)
    · cases hr; exact hs
  · cases hr

theorem regular_mountChild (c : FileId) : Preserves (FS.Regular W) (Directory.mountChild d n c) := by
  refine preserves_of_step fun s s' r hs hr => ?_
  unfold Directory.mountChild at hr
  split at hr
  · cases hr; exact hs
  · cases hr; exact hs.cacheChild d n c .mount

theorem regular_removeChild : Preserves (FS.Regular W) (Directory.removeChild d n) := by
  refine preserves_of_step fun s s' r hs hr => ?_
  unfold Directory.removeChild at hr
  split at hr
  · cases hr; exact hs.dcacheErase d n
  · next c _ =>
      cases hr
      exact (((hs.memoryRemoveChild d n).setParent c none).dcacheErase d n).updateMTime d
  · cases hr; exact (hs.memoryRemoveChild d n).updateMTime d

theorem regular_insertMove : Preserves (FS.Regular W) (Directory.insertMove d n f) := by
  refine preserves_of_step fun s s' r hs hr => ?_
  unfold Directory.insertMove at hr
  split at hr
  · cases hr; exact hs
  · split at hr
    · cases hr
    · next oldParent _ =>
        have hmoved := hs.memoryInsertMove d n f oldParent
        simp only [] at hr
        cases hr
        refine ((FS.Regular.setParent ?_ f (some d)).updateMTime oldParent).updateMTime d
        split
        · exact hmoved
        · next a e _ =>
            have herased := hmoved.dcacheErase oldParent a
            split
            · exact herased.dcacheInsert d n e
            · next o _ =>
                exact (herased.setParent o.file none).modifyFile d ((herased.setParent o.file none).file d)

theorem regular_openNode (created : Option FileId) (flags : Nat) (mode : OpenReturnMode) :
    Preserves (FS.Regular W) (openNode created flags mode) := by
  cases created with
  | none => exact .fail
  | some f => exact .ite .pure (.bind (regular_create f flags) fun o => regular_installOpenFile o)

theorem regular_makeNode (b b' : Option Backend) : Preserves (FS.Regular W) (makeNode d n mode b b') := by
  refine .ite (regular_insertDataFile d n mode) (.bind (regular_createFile b mode) fun created => ?_)
  cases created with
  | none => exact .pure
  | some f => exact .bind (regular_mountChild d n f) fun _ => .pure

theorem regular_openNew (flags mode : Nat) (b : Option Backend) (returnMode : OpenReturnMode) :
    Preserves (FS.Regular W) (openNew d n flags mode b returnMode) :=
  .bind .failIf fun _ => .bind .gets fun _ => .bind .failIf fun _ => .bind .gets fun _ =>
    .bind .failIf fun _ => .bind .gets fun _ => .bind (regular_admitBackend _) fun _ =>
      .bind (regular_makeNode _ _ _ _ _) fun _ => regular_openNode _ _ _

theorem regular_openExisting (flags : Nat) : Preserves (FS.Regular W) (openExisting f flags) := by
  refine .bind .gets fun _ => .bind .failIf fun _ => .bind .failIf fun _ => .bind .gets fun _ => ?_
  refine .bind .failIf fun _ => .bind .failIf fun _ => .bind .failIf fun _ => ?_
  refine .bind (regular_create f flags) fun o => .ite (.ite ?_ (.ite ?_ ?_)) (regular_installOpenFile o)
  · exact .bind (regular_abandonOpenFile o) fun _ => .fail
  · exact .bind (regular_abandonOpenFile o) fun _ => .fail
  · refine (regular_setSize (by decide)).attempt fun r => ?_
    cases r with
    | ok _ => exact regular_installOpenFile o
    | error e =>
      exact .ite (.bind (regular_abandonOpenFile o) fun _ => .fail) (regular_installOpenFile o)

theorem regular_doOpen (flags mode : Nat) (b : Option Backend) (returnMode : OpenReturnMode) :
    Preserves (FS.Regular W) (doOpen d n flags mode b returnMode) := by
  refine .bind .failIf fun _ => .bind (regular_getChild d n) fun found => ?_
  cases found with
  | none => exact regular_openNew d n flags mode b returnMode
  | some c =>
    refine .bind (regular_admitFile c) fun _ => .bind .gets fun _ => .ite ?_ (regular_openExisting c flags)
    exact .bind .failIf fun _ => .bind .gets fun target =>
      .bind (Path.regular_getFileFrom d target) fun f => regular_openExisting f flags

theorem regular_openat (fd : Int) (path : Path) (flags mode : Nat) :
    Preserves (FS.Regular W) (openat fd path flags mode) := by
  refine .bind ?_ fun _ => .bind (Path.regular_parseParent path fd) fun p => regular_doOpen p.1 p.2 _ _ _ _
  exact .bind .failIf fun _ => .bind .failIf fun _ => .bind .failIf fun _ => .bind .failIf fun _ => .failIf

theorem regular_mknodat (fd : Int) (path : Path) (mode : Nat) :
    Preserves (FS.Regular W) (mknodat fd path mode) :=
  .bind .failIf fun _ => .bind .failIf fun _ => .bind (Path.regular_parseParent path fd) fun p =>
    regular_doOpen p.1 p.2 _ _ _ _

theorem regular_doMkdir (b : Option Backend) : Preserves (FS.Regular W) (doMkdir d n mode b) := by
  refine .bind .failIf fun _ => .bind (regular_getChild d n) fun found => ?_
  cases found with
  | some c => exact .bind (regular_admitFile c) fun _ => .fail
  | none =>
    refine .bind .gets fun _ => .bind .failIf fun _ => .bind .gets fun _ => ?_
    refine .bind (regular_admitBackend _) fun _ => .ite ?_ ?_
    · refine .bind (regular_insertDirectory _ _ _) fun created => ?_
      cases created with
      | none => exact .fail
      | some _ => exact .pure
    · refine .bind (regular_createDirectory _ _) fun created => ?_
      cases created with
      | none => exact .fail
      | some _ => exact .bind (regular_mountChild _ _ _) fun _ => .pure

theorem regular_symlinkat (target : Path) (fd : Int) (path : Path) :
    Preserves (FS.Regular W) (symlinkat target fd path) := by
  refine .bind (Path.regular_parseParent path fd) fun p => .bind .failIf fun _ => ?_
  refine .bind (regular_getChild p.1 p.2) fun found => ?_
  cases found with
  | some c => exact .bind (regular_admitFile c) fun _ => .fail
  | none =>
    refine .bind (regular_insertSymlink _ _ _) fun created => ?_
    cases created with
    | none => exact .fail
    | some _ => exact .pure

theorem regular_unlinkat (fd : Int) (path : Path) (flags : Nat) :
    Preserves (FS.Regular W) (unlinkat fd path flags) := by
  refine .bind .failIf fun _ => .bind .failIf fun _ => .bind (Path.regular_parseParent path fd) fun p => ?_
  refine .bind (regular_getChild p.1 p.2) fun found => ?_
  cases found with
  | none => exact .fail
  | some f =>
    exact .bind (Reads.preserves fun _ => reads_unlinkCheck p.1 f flags) fun _ =>
      regular_removeChild p.1 p.2

theorem regular_wasmfsUnmount : Preserves (FS.Regular W) (wasmfsUnmount path) := by
  refine .bind (Path.regular_parseParent path AT_FDCWD) fun p => .bind (regular_getChild p.1 p.2) fun found => ?_
  cases found with
  | none => exact .fail
  | some f =>
    exact .bind (Reads.preserves fun _ => reads_unmountCheck p.1 f) fun _ => regular_removeChild p.1 p.2

theorem regular_renameat (fd : Int) (path : Path) (fd' : Int) (path' : Path) :
    Preserves (FS.Regular W) (renameat fd path fd' path') := by
  refine .bind (Path.regular_parseParent path fd) fun p => .bind (Path.regular_parseParent path' fd') fun q => ?_
  refine .bind .failIf fun _ => .bind (regular_getChild p.1 p.2) fun oldFound => ?_
  refine .bind (regular_getChild q.1 q.2) fun newFile => ?_
  refine .bind (Reads.preserves fun _ => reads_admitFound oldFound) fun _ => ?_
  refine .bind (Reads.preserves fun _ => reads_admitFound newFile) fun _ => ?_
  cases oldFound with
  | none => exact .fail
  | some f =>
    exact .ite .pure (.bind (Reads.preserves fun _ => reads_renameCheck p.1 q.1 f newFile) fun _ =>
      regular_insertMove q.1 q.2 f)

theorem regular_doChdir : Preserves (FS.Regular W) (doChdir f) :=
  .bind .gets fun _ => .bind .failIf fun _ => .modify fun _ hs =>
    ⟨hs.env, hs.requests, hs.position, hs.file⟩

theorem regular_fchdir (fd : Int) : Preserves (FS.Regular W) (fchdir fd) := by
  refine .bind .gets fun found => ?_
  cases found with
  | none => exact .fail
  | some o => exact .bind .gets fun f => .bind (regular_admitFile f) fun _ => regular_doChdir f

theorem regular_discard {α : Type} {prog : Sys α} (h : Preserves (FS.Regular W) prog) :
    Preserves (FS.Regular W) (discard prog) :=
  .bind h fun _ => .pure

theorem regular_exec (c : Call) : Preserves (FS.Regular W) c.exec := by
  cases c with
  | openat fd path flags mode => exact regular_discard (regular_openat fd path flags mode)
  | mknodat fd path mode => exact regular_discard (regular_mknodat fd path mode)
  | wasmfsCreateFile path mode b =>
    exact regular_discard (.bind (Path.regular_parseParent path AT_FDCWD) fun p =>
      regular_doOpen p.1 p.2 _ _ _ _)
  | mkdirat fd path mode =>
    exact .bind (Path.regular_parseParent path fd) fun p => regular_doMkdir p.1 p.2 mode none
  | wasmfsCreateDirectory path mode b =>
    exact .bind (Path.regular_parseParent path AT_FDCWD) fun p => regular_doMkdir p.1 p.2 mode b
  | symlinkat target fd path => exact regular_symlinkat target fd path
  | unlinkat fd path flags => exact regular_unlinkat fd path flags
  | wasmfsUnmount path => exact regular_wasmfsUnmount path
  | renameat fd path fd' path' => exact regular_renameat fd path fd' path'
  | chdir path => exact .bind (Path.regular_parseFile path AT_FDCWD) fun f => regular_doChdir f
  | fchdir fd => exact regular_fchdir fd
  | dup fd => exact regular_discard (regular_dup fd)
  | dup2 oldfd newfd => exact regular_discard (regular_dup2 oldfd newfd)
  | dup3 oldfd newfd flags => exact regular_discard (regular_dup3 oldfd newfd flags)
  | fcntlDupFd fd arg => exact regular_discard (regular_fcntlDupFd fd arg)
  | fdClose fd => exact regular_fdClose fd
  | pipe2 flags => exact regular_discard (regular_pipe2 flags)
  | detachAll => exact regular_detachAll
  | detachBackend b => exact regular_detachBackend b

end Tree

end WasmFS
