-- SUMMARY: The effect of every call on a sound state.
import Emscripten.WasmFS.Effects

/-!
# The calls on sound states

From a sound state every call lands in a sound state, and has one of the effects of
`Call.Effect`. The files that are open afterwards were in any given closed set, or are
new.
-/

namespace WasmFS

open Prog

/-- The files of `K`, and those that are yet to come. -/
def FS.OrNew (s : FS) (K : FileId → Prop) (f : FileId) : Prop := K f ∨ s.nextFile ≤ f

variable {c : Call} {d : FileId} {s' : FS}

section Creating

variable {s : FS} {K : FileId → Prop} {d : FileId} {n : Name}

/-- The creation of a node: at most one child comes into the tree, and it is the file
that is returned. -/
theorem makeNode_cases (h : s.TreeSound) (hd : s.IsDir d) (hp : s.tree.parent d ≠ none)
    (hfree : s.tree.child d n = none) {mode : Nat} {backend parentBackend : Option Backend}
    {r : Except Errno (Option FileId)} (hr : makeNode d n mode backend parentBackend s = some (s', r)) :
    s.KeepsTable s' ∧ s.MayGrow d n s' ∧
      (r = .ok none ∨ r = .ok (some s.nextFile) ∧ s.nextFile < s'.nextFile) := by
  unfold makeNode at hr
  split at hr
  · exact insertBlank_cases h hd hfree (blank_newDataFile _ _ _) rfl hr
  · have hmade : ∀ s₁ r₁, createFile backend mode s = some (s₁, r₁) → _ := fun _ _ => createFile_cases
    change Prog.seq (createFile backend mode) _ s = _ at hr
    unfold Prog.seq at hr
    split at hr
    · cases hr
    · next s₁ e hrun =>
        rcases hmade s₁ _ hrun with ⟨_, hnone⟩ | ⟨_, _, _, hsome⟩
        · cases hnone
        · cases hsome
    · next s₁ created hrun =>
        rcases hmade s₁ _ hrun with ⟨rfl, hnone⟩ | ⟨x, hx, rfl, hsome⟩
        · cases hnone
          cases hr
          exact ⟨.refl _, h.mayGrow d n, .inl rfl⟩
        · cases hsome
          obtain ⟨s₂, hmount, htable, hsound, hgrown⟩ := mountNew_spec h hd hp hfree hx
          change Prog.seq (Directory.mountChild d n s.nextFile) _ _ = _ at hr
          unfold Prog.seq at hr
          rw [hmount] at hr
          cases hr
          exact ⟨(s.edits_addFile x).table.trans htable, ⟨hsound, .inr ⟨_, hgrown⟩⟩,
            .inr ⟨rfl, hgrown.lt⟩⟩

theorem lands_openNew (h : s.TreeSound) (hd : s.IsDir d) (hfree : s.tree.child d n = none)
    (flags mode : Nat) (backend : Option Backend) (returnMode : OpenReturnMode) :
    Lands (s.OrNew K) s (openNew d n flags mode backend returnMode) (s.MayGrow d n) := by
  have hG := h.mayGrow d n
  refine .reads .failIf hG fun _ _ _ => ?_
  refine .reads (Q := fun p => p = s.tree.parent d) (.gets rfl) hG fun p hp _ => ?_
  refine .reads .failIf hG fun _ hparent _ => ?_
  rw [hp] at hparent
  refine .reads (reads_getMode d) hG fun _ _ _ => .reads .failIf hG fun _ _ _ => ?_
  refine .reads (reads_getBackend d) hG fun parentBackend _ _ => ?_
  refine .reads (reads_admitBackend _) hG fun _ _ _ => ?_
  refine .bind (R := fun s' created => s.MayGrow d n s' ∧
    ∀ f, created = some f → f < s'.nextFile ∧ s.nextFile ≤ f) ?_ fun s' created hcreated => ?_
  · intro s' r hr
    obtain ⟨htable, hgrow, rfl | ⟨rfl, hlt⟩⟩ := makeNode_cases h hd hparent hfree hr
    · exact ⟨htable, hgrow, fun f hf => by cases hf⟩
    · refine ⟨htable, hgrow, fun f hf => ?_⟩
      cases hf
      exact ⟨hlt, Nat.le_refl _⟩
  · obtain ⟨hgrow, hfile⟩ := hcreated
    cases created with
    | none => exact .fail hgrow
    | some f =>
      obtain ⟨hlt, hnew⟩ := hfile f rfl
      exact .ite (fun _ => .pure hgrow) fun _ =>
        lands_openCreated (stable_mayGrow s d n) hgrow ⟨hlt, .inr hnew⟩ flags

/-- Opening below a directory of `K`: what is opened is in `K`, or new. -/
theorem lands_doOpen (h : s.TreeSound) (hK : s.Closed K) (hlt : ∀ f, K f → f < s.nextFile)
    (hd : Path.DirIn s K d) (flags mode : Nat) (backend : Option Backend)
    (returnMode : OpenReturnMode) :
    Lands (s.OrNew K) s (doOpen d n flags mode backend returnMode) (s.MayGrow d n) := by
  have hG := h.mayGrow d n
  refine .reads .failIf hG fun _ _ _ => ?_
  refine .reads (reads_getChild h d n) hG fun found hfound _ => ?_
  cases found with
  | none => exact lands_openNew h ⟨hlt d hd.1, hd.2⟩ hfound.symm flags mode backend returnMode
  | some child =>
    have hchild := hK.child d n child hd.1 hfound.symm
    refine .reads (reads_admitFile child) hG fun _ _ _ => ?_
    refine .reads (reads_getKind child) hG fun _ _ _ => .ite (fun _ => ?_) fun _ => ?_
    · refine .reads .failIf hG fun _ _ _ => ?_
      refine .reads (Q := fun _ => True) (.gets trivial) hG fun target _ _ => ?_
      refine .reads (Path.reads_getFileFrom h hK hd target) hG fun f hf _ => ?_
      exact lands_openExisting (stable_mayGrow s d n) hG ⟨hlt f hf, .inl hf⟩ flags
    · exact lands_openExisting (stable_mayGrow s d n) hG ⟨hlt child hchild, .inl hchild⟩ flags

end Creating

/-- What holds after a call that started in the sound state `s`. -/
def Call.After (c : Call) (s s' : FS) : Prop := s'.TreeSound ∧ c.Effect s s'

section Calls

variable {s : FS} {K : FileId → Prop}

theorem FS.TreeSound.after (h : s.TreeSound) (c : Call) : c.After s s := ⟨h, .kept (.refl s)⟩

theorem stable_after_of_kept (h : s.TreeSound) : ∀ u : FS, s.KeepsTree u → c.After s u :=
  fun _ hu => ⟨h.keep hu, .kept hu⟩

/-- A call that works on the table alone. -/
theorem lands_table (h : s.TreeSound) {α : Type} {prog : Sys α} (htree : TreeKept prog)
    (hslots : KeepsSlots prog) : Lands (s.OrNew K) s prog (c.After s) :=
  (Lands.keepsSlots (G := s.KeepsTree) (fun _ _ hu hk => hu.trans hk) (.refl s) htree hslots).mono
    (stable_after_of_kept h)

theorem FS.MayGrow.after {u : FS} {path : Path} {dirfd : Int} {n : Name} (h : s.MayGrow d n u)
    (hlead : s.Leads path dirfd d n) : c.After s u := by
  obtain ⟨hsound, hkept | ⟨f, hgrown⟩⟩ := h
  · exact ⟨hsound, .kept hkept⟩
  · exact ⟨hsound, .grown path dirfd d n f hlead hgrown⟩

/-- A call that parses a path and goes on from the place it leads to. -/
theorem lands_parse (h : s.TreeSound) (hK : s.Closed K) {path : Path} {dirfd : Int} {α : Type}
    {k : FileId × Name → Sys α} (hk : ∀ d n, Path.DirIn s K d → s.Leads path dirfd d n →
      Lands (s.OrNew K) s (k (d, n)) (c.After s)) :
    Lands (s.OrNew K) s (Path.parseParent path dirfd >>= k) (c.After s) := by
  refine .reads (Path.reads_parseParent h hK path dirfd) (h.after c) fun p hp hlead => ?_
  exact hk p.1 p.2 hp hlead

theorem lands_openat (h : s.TreeSound) (hK : s.Closed K) (hlt : ∀ f, K f → f < s.nextFile) (dirfd : Int)
    (path : Path) (flags mode : Nat) : Lands (s.OrNew K) s (openat dirfd path flags mode) (c.After s) := by
  have hG := h.after c
  refine .reads (Q := fun _ => True) ?_ hG fun _ _ _ => lands_parse h hK fun d n hd hlead => ?_
  · refine .bind .failIf fun _ _ => .bind .failIf fun _ _ => .bind .failIf fun _ _ => ?_
    exact .bind .failIf fun _ _ => Reads.failIf.conseq fun _ _ => trivial
  · exact (lands_doOpen h hK hlt hd flags mode none .fd).mono fun u hu => hu.after hlead

theorem lands_mknodat (h : s.TreeSound) (hK : s.Closed K) (hlt : ∀ f, K f → f < s.nextFile) (dirfd : Int)
    (path : Path) (mode : Nat) : Lands (s.OrNew K) s (mknodat dirfd path mode) (c.After s) := by
  have hG := h.after c
  refine .reads .failIf hG fun _ _ _ => .reads .failIf hG fun _ _ _ => ?_
  refine lands_parse h hK fun d n hd hlead => ?_
  exact (lands_doOpen h hK hlt hd _ mode none .nothing).mono fun u hu => hu.after hlead

theorem lands_wasmfsCreateFile (h : s.TreeSound) (hK : s.Closed K) (hlt : ∀ f, K f → f < s.nextFile)
    (path : Path) (mode : Nat) (backend : Option Backend) :
    Lands (s.OrNew K) s (wasmfsCreateFile path mode backend) (c.After s) := by
  refine lands_parse h hK fun d n hd hlead => ?_
  exact (lands_doOpen h hK hlt hd _ mode backend .fd).mono fun u hu => hu.after hlead

/-! ## Directories and links -/

/-- The creation of a directory, by the parent's backend or mounted. -/
theorem lands_doMkdir (h : s.TreeSound) (n : Name) (hd : s.IsDir d) (mode : Nat) (backend : Option Backend) :
    Lands (s.OrNew K) s (doMkdir d n mode backend) (s.MayGrow d n) := by
  have hG := h.mayGrow d n
  refine .reads .failIf hG fun _ _ _ => ?_
  refine .reads (reads_getChild h d n) hG fun found hfound _ => ?_
  cases found with
  | some child => exact .reads (reads_admitFile child) hG fun _ _ _ => .fail hG
  | none =>
    have hfree : s.tree.child d n = none := hfound.symm
    refine .reads (reads_getMode d) hG fun _ _ _ => .reads .failIf hG fun _ _ _ => ?_
    refine .reads (reads_getBackend d) hG fun parentBackend _ _ => ?_
    refine .reads (reads_admitBackend _) hG fun _ _ _ => .ite (fun _ => ?_) fun _ => ?_
    · refine .bind (R := fun s' _ => s.MayGrow d n s') ?_ fun s' created hgrow => ?_
      · intro s' r hr
        obtain ⟨htable, hgrow, rfl | ⟨rfl, _⟩⟩ :=
          insertBlank_cases h hd hfree (blank_newDirectory _ _ _) rfl hr
        · exact ⟨htable, hgrow⟩
        · exact ⟨htable, hgrow⟩
      · cases created with
        | none => exact .fail hgrow
        | some _ => exact .pure hgrow
    · refine .bind (R := fun s' created => (s' = s ∧ created = none) ∨
        ∃ x : File, x.Blank ∧ s' = s.addFile x ∧ created = some s.nextFile) ?_ fun s' created hmade => ?_
      · intro s' r hr
        rcases createDirectory_cases hr with ⟨rfl, rfl⟩ | ⟨x, hx, rfl, rfl⟩
        · exact ⟨.refl _, .inl ⟨rfl, rfl⟩⟩
        · exact ⟨(s.edits_addFile x).table, .inr ⟨x, hx, rfl, rfl⟩⟩
      · rcases hmade with ⟨rfl, rfl⟩ | ⟨x, hx, rfl, rfl⟩
        · exact .fail hG
        · refine .bind (R := fun s' _ => s.MayGrow d n s') ?_ fun s' _ hgrow => .pure hgrow
          intro s' r hr
          by_cases hp : s.tree.parent d = none
          · -- The directory is unlinked: what was made stays outside.
            have hnone : ((s.addFile x).file d).parent = none := by
              have htree := congrArg (fun t => t.parent d) (h.addFile hx).tree
              exact htree.trans hp
            unfold Directory.mountChild at hr
            rw [if_pos hnone] at hr
            cases hr
            exact ⟨.refl _, h.mayGrow_addFile hx d n⟩
          · obtain ⟨s₁, hrun, htable, hsound, hgrown⟩ := mountNew_spec h hd hp hfree hx
            rw [hrun] at hr
            cases hr
            exact ⟨htable, hsound, .inr ⟨_, hgrown⟩⟩

theorem lands_mkdirat (h : s.TreeSound) (hK : s.Closed K) (hlt : ∀ f, K f → f < s.nextFile) (dirfd : Int)
    (path : Path) (mode : Nat) : Lands (s.OrNew K) s (mkdirat dirfd path mode) (c.After s) := by
  refine lands_parse h hK fun d n hd hlead => ?_
  exact (lands_doMkdir h n ⟨hlt d hd.1, hd.2⟩ mode none).mono fun u hu => hu.after hlead

theorem lands_wasmfsCreateDirectory (h : s.TreeSound) (hK : s.Closed K) (hlt : ∀ f, K f → f < s.nextFile)
    (path : Path) (mode : Nat) (backend : Option Backend) :
    Lands (s.OrNew K) s (wasmfsCreateDirectory path mode backend) (c.After s) := by
  refine lands_parse h hK fun d n hd hlead => ?_
  exact (lands_doMkdir h n ⟨hlt d hd.1, hd.2⟩ mode backend).mono fun u hu => hu.after hlead

theorem lands_symlinkat (h : s.TreeSound) (hK : s.Closed K) (hlt : ∀ f, K f → f < s.nextFile) (target : Path)
    (newdirfd : Int) (linkpath : Path) :
    Lands (s.OrNew K) s (symlinkat target newdirfd linkpath) (c.After s) := by
  refine lands_parse h hK fun d n hd hlead => Lands.mono (G := s.MayGrow d n) ?_ fun u hu => hu.after hlead
  have hG := h.mayGrow d n
  refine .reads .failIf hG fun _ _ _ => ?_
  refine .reads (reads_getChild h d n) hG fun found hfound _ => ?_
  cases found with
  | some child => exact .reads (reads_admitFile child) hG fun _ _ _ => .fail hG
  | none =>
    refine .bind (R := fun s' _ => s.MayGrow d n s') ?_ fun s' created hgrow => ?_
    · intro s' r hr
      obtain ⟨htable, hgrow, rfl | ⟨rfl, _⟩⟩ := insertBlank_cases h ⟨hlt d hd.1, hd.2⟩ hfound.symm
        (blank_newSymlink _ _ _) rfl hr
      · exact ⟨htable, hgrow⟩
      · exact ⟨htable, hgrow⟩
    · cases created with
      | none => exact .fail hgrow
      | some _ => exact .pure hgrow

/-! ## Removal -/

theorem lands_removeChild (h : s.TreeSound) {n : Name} {f : FileId} (hremoves : c.Removes s d n f) :
    Lands (s.OrNew K) s (Directory.removeChild d n) (c.After s) := by
  refine .edit fun s' r hr => ?_
  obtain ⟨s₁, hrun, hedit, hsound, hnext, htree⟩ := h.removeChild d n
  rw [hrun] at hr
  cases hr
  exact ⟨hedit.table, hsound, .removed d n f hremoves hedit hnext htree⟩

theorem lands_unlinkat (h : s.TreeSound) (hK : s.Closed K) (dirfd : Int) (path : Path) (flags : Nat) :
    Lands (s.OrNew K) s (unlinkat dirfd path flags) ((Call.unlinkat dirfd path flags).After s) := by
  have hG := h.after (.unlinkat dirfd path flags)
  refine .reads .failIf hG fun _ _ _ => .reads .failIf hG fun _ _ _ => ?_
  refine lands_parse h hK fun d n _ hlead => ?_
  refine .reads (reads_getChild h d n) hG fun found hfound _ => ?_
  cases found with
  | none => exact .fail hG
  | some f =>
    refine .reads (reads_unlinkCheck d f flags) hG fun _ _ hcheck => ?_
    exact lands_removeChild h ⟨hlead, hfound.symm, hcheck⟩

theorem lands_wasmfsUnmount (h : s.TreeSound) (hK : s.Closed K) (path : Path) :
    Lands (s.OrNew K) s (wasmfsUnmount path) ((Call.wasmfsUnmount path).After s) := by
  have hG := h.after (.wasmfsUnmount path)
  refine lands_parse h hK fun d n _ hlead => ?_
  refine .reads (reads_getChild h d n) hG fun found hfound _ => ?_
  cases found with
  | none => exact .fail hG
  | some f =>
    refine .reads (reads_unmountCheck d f) hG fun _ _ hcheck => ?_
    exact lands_removeChild h ⟨hlead, hfound.symm, hcheck⟩

/-! ## Renaming -/

/-- What `renameat` does when it does not fail: nothing, where both names are of one file,
or one move. -/
theorem renameat_cases (h : s.TreeSound) (hK : s.Closed K) (hlt : ∀ f, K f → f < s.nextFile)
    {olddirfd newdirfd : Int} {oldpath newpath : Path} {r : Except Errno Unit}
    (hr : renameat olddirfd oldpath newdirfd newpath s = some (s', r)) :
    (∃ e, s' = s ∧ r = .error e) ∨
    ∃ P a Q b f, s.Leads oldpath olddirfd P a ∧ s.Leads newpath newdirfd Q b ∧
      Path.DirIn s K P ∧ Path.DirIn s K Q ∧ s.tree.child P a = some f ∧ r = .ok () ∧
      ((s' = s ∧ s.tree.child Q b = some f) ∨
        ((Call.renameat olddirfd oldpath newdirfd newpath).Renames s P a f Q b ∧
          ∃ R, s.tree.parent f = some R ∧ s.Edits s' ∧ s'.TreeSound ∧ s'.nextFile = s.nextFile ∧
            s.tree.Moved s'.tree R Q b f)) := by
  rcases Reads.bind_cases (Path.reads_parseParent h hK oldpath olddirfd) hr with
    herr | ⟨⟨P, a⟩, hP, hold, hr⟩
  · exact .inl herr
  rcases Reads.bind_cases (Path.reads_parseParent h hK newpath newdirfd) hr with
    herr | ⟨⟨Q, b⟩, hQ, hnew, hr⟩
  · exact .inl herr
  rcases Reads.bind_cases Reads.failIf hr with herr | ⟨_, _, _, hr⟩
  · exact .inl herr
  rcases Reads.bind_cases (reads_getChild h P a) hr with herr | ⟨oldFound, rfl, _, hr⟩
  · exact .inl herr
  rcases Reads.bind_cases (reads_getChild h Q b) hr with herr | ⟨newFile, rfl, _, hr⟩
  · exact .inl herr
  rcases Reads.bind_cases (reads_admitFound _) hr with herr | ⟨_, _, _, hr⟩
  · exact .inl herr
  rcases Reads.bind_cases (reads_admitFound _) hr with herr | ⟨_, _, _, hr⟩
  · exact .inl herr
  cases hf : s.tree.child P a with
  | none =>
    rw [hf] at hr
    cases hr
    exact .inl ⟨_, rfl, rfl⟩
  | some f =>
    rw [hf] at hr
    change (if s.tree.child Q b = some f then pure () else do
      renameCheck P Q f (s.tree.child Q b)
      Directory.insertMove Q b f : Sys Unit) s = _ at hr
    by_cases hsame : s.tree.child Q b = some f
    · rw [if_pos hsame] at hr
      cases hr
      exact .inr ⟨P, a, Q, b, f, hold, hnew, hP, hQ, hf, rfl, .inl ⟨rfl, hsame⟩⟩
    rw [if_neg hsame] at hr
    rcases Reads.bind_cases (reads_renameCheck P Q f _) hr with herr | ⟨_, hmovable, hcheck, hr⟩
    · exact .inl herr
    by_cases hp : s.tree.parent Q = none
    · unfold Directory.insertMove at hr
      rw [if_pos (show (s.file Q).parent = none from hp)] at hr
      cases hr
      exact .inl ⟨_, rfl, rfl⟩
    · cases hR : s.tree.parent f with
      | none =>
        unfold Directory.insertMove at hr
        rw [if_neg (show (s.file Q).parent ≠ none from hp),
          show (s.file f).parent = none from hR] at hr
        cases hr
      | some R =>
        obtain ⟨s₁, hrun, hedit, hsound, hnext, hmoved⟩ := h.insertMove (b := b) ⟨hlt Q hQ.1, hQ.2⟩
          hp hR (hlt f (hK.child P a f hP.1 hf)) hmovable.not_root hmovable.ne
        rw [hrun] at hr
        cases hr
        exact .inr ⟨P, a, Q, b, f, hold, hnew, hP, hQ, hf, rfl,
          .inr ⟨⟨hold, hnew, hf, hsame, hp, hcheck⟩, R, hR, hedit, hsound, hnext, hmoved⟩⟩

theorem lands_renameat (h : s.TreeSound) (hK : s.Closed K) (hlt : ∀ f, K f → f < s.nextFile)
    (olddirfd : Int) (oldpath : Path) (newdirfd : Int) (newpath : Path) :
    Lands (s.OrNew K) s (renameat olddirfd oldpath newdirfd newpath)
      ((Call.renameat olddirfd oldpath newdirfd newpath).After s) := by
  refine .edit fun s' r hr => ?_
  rcases renameat_cases h hK hlt hr with
    ⟨e, rfl, rfl⟩ | ⟨P, a, Q, b, f, _, _, _, _, _, _, ⟨rfl, _⟩ | ⟨hrenames, R, hR, hedit, hsound, hnext, hmoved⟩⟩
  · exact ⟨.refl s', h.after _⟩
  · exact ⟨.refl s', h.after _⟩
  · exact ⟨hedit.table, hsound, .renamed P a f Q b R hrenames hR hedit hnext hmoved⟩

/-! ## The working directory -/

theorem lands_doChdir (h : s.TreeSound) {f : FileId} (hf : f < s.nextFile) (henters : c.Enters s f) :
    Lands (s.OrNew K) s (doChdir f) (c.After s) := by
  refine .reads (reads_getKind f) (h.after c) fun kind hkind _ => ?_
  refine .reads .failIf (h.after c) fun _ hdir _ => .edit fun s' r hr => ?_
  have hisdir : (s.file f).kind = .directory := hkind ▸ not_not.mp hdir
  cases hr
  refine ⟨⟨Nat.le_refl _, fun _ _ => rfl, fun _ _ => rfl, rfl, fun _ => rfl, fun _ => rfl, rfl, rfl⟩, ?_,
    .entered f henters hisdir rfl⟩
  exact ⟨h.linked, h.within, h.leaf, h.root_dir, ⟨hf, hisdir⟩⟩

theorem lands_chdir (h : s.TreeSound) (hK : s.Closed K) (hlt : ∀ f, K f → f < s.nextFile)
    (path : Path) : Lands (s.OrNew K) s (chdir path) ((Call.chdir path).After s) := by
  refine .reads (Path.reads_parseFile h hK (Path.sensible_followLinks h hK.stays) path AT_FDCWD) (h.after _)
    fun f hf hparse => ?_
  exact lands_doChdir h (hlt f hf) hparse

theorem lands_fchdir (h : s.TreeSound) (hK : s.Closed K) (hlt : ∀ f, K f → f < s.nextFile)
    (fd : Int) : Lands (s.OrNew K) s (fchdir fd) ((Call.fchdir fd).After s) := by
  have hG := h.after (.fchdir fd)
  refine .reads (reads_getEntry fd) hG fun found hfound _ => ?_
  cases found with
  | none => exact .fail hG
  | some o =>
    refine .reads (Q := fun f => f = (s.openFile o).file) (.gets rfl) hG fun f hf _ => ?_
    refine .reads (reads_admitFile f) hG fun _ _ _ => ?_
    have hin : K f := hf ▸ hK.opened o (FS.mem_of_getEntry hfound.symm)
    exact lands_doChdir h (hlt f hin) ⟨o, hfound.symm, hf.symm⟩

/-! ## All calls -/

/-- Every call but `close` keeps the descriptors where it fails. -/
theorem lands_exec (h : s.TreeSound) (hK : s.Closed K) (hlt : ∀ f, K f → f < s.nextFile) (c : Call)
    (hc : ∀ fd, c ≠ .fdClose fd) : Lands (s.OrNew K) s c.exec (c.After s) := by
  cases c with
  | openat dirfd path flags mode => exact .discard (lands_openat h hK hlt dirfd path flags mode)
  | mknodat dirfd path mode => exact .discard (lands_mknodat h hK hlt dirfd path mode)
  | wasmfsCreateFile path mode backend =>
    exact .discard (lands_wasmfsCreateFile h hK hlt path mode backend)
  | mkdirat dirfd path mode => exact lands_mkdirat h hK hlt dirfd path mode
  | wasmfsCreateDirectory path mode backend =>
    exact lands_wasmfsCreateDirectory h hK hlt path mode backend
  | symlinkat target newdirfd linkpath => exact lands_symlinkat h hK hlt target newdirfd linkpath
  | unlinkat dirfd path flags => exact lands_unlinkat h hK dirfd path flags
  | wasmfsUnmount path => exact lands_wasmfsUnmount h hK path
  | renameat olddirfd oldpath newdirfd newpath =>
    exact lands_renameat h hK hlt olddirfd oldpath newdirfd newpath
  | chdir path => exact lands_chdir h hK hlt path
  | fchdir fd => exact lands_fchdir h hK hlt fd
  | dup fd => exact .discard (lands_table h (treeKept_dup fd) (keepsSlots_dup fd))
  | dup2 oldfd newfd =>
    exact .discard (lands_table h (treeKept_dup2 oldfd newfd) (keepsSlots_dup2 oldfd newfd))
  | dup3 oldfd newfd flags =>
    exact .discard (lands_table h (treeKept_dup3 oldfd newfd flags) (keepsSlots_dup3 oldfd newfd flags))
  | fcntlDupFd fd arg =>
    exact .discard (lands_table h (treeKept_fcntlDupFd fd arg) (keepsSlots_fcntlDupFd fd arg))
  | fdClose fd => exact absurd rfl (hc fd)
  | pipe2 flags =>
    exact .discard ((lands_pipe2 h (fun _ hf => .inr hf) (fun _ _ hu hk => hu.trans hk)
      (.refl s) flags).mono (stable_after_of_kept h))
  | detachAll => exact lands_table h treeKept_detachAll keepsSlots_detachAll
  | detachBackend backend =>
    exact lands_table h (treeKept_detachBackend backend) (keepsSlots_detachBackend backend)

/-- However a call ends, the accounts are in order and the tree is sound. -/
theorem exec_after (h : s.TreeSound) (hK : s.Closed K) (hlt : ∀ f, K f → f < s.nextFile)
    {m : Int → Option OpenId} (hm : Slots (s.OrNew K) m nothing s) {r : Except Errno Unit}
    (hr : c.exec s = some (s', r)) : c.After s s' ∧ ∃ m', Slots (s.OrNew K) m' nothing s' := by
  by_cases hclose : ∃ fd, c = .fdClose fd
  · obtain ⟨fd, rfl⟩ := hclose
    have hkept := treeKept_fdClose fd s s (.refl s) s' r hr
    have hslots := slots_fdClose (s.OrNew K) m fd s hm s' r hr
    cases r with
    | ok _ => exact ⟨stable_after_of_kept h s' hkept, _, hslots⟩
    | error e =>
      rcases hslots with hslots | ⟨hslots, _⟩
      · exact ⟨stable_after_of_kept h s' hkept, _, hslots⟩
      · exact ⟨stable_after_of_kept h s' hkept, _, hslots⟩
  · obtain ⟨hafter, hslots⟩ := lands_exec h hK hlt c (fun fd hc => hclose ⟨fd, hc⟩) m hm s' r hr
    cases r with
    | ok _ => exact ⟨hafter, hslots⟩
    | error _ => exact ⟨hafter, _, hslots⟩

end Calls

end WasmFS
