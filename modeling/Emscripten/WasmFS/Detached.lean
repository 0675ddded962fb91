-- SUMMARY: Unmounted directories over whole runs: when the working directory can never be at or below one.
import Emscripten.WasmFS.Ancestry

/-!
# Detached mounts

`wasmfs_unmount` refuses a mount that the working directory is at or below, but the
directory it detaches stays alive as long as a descriptor or another directory leads to
it. A run is watched for the directories it has detached. As long as no descriptor is
used to go back to one of them, the working directory stays apart from all of them.
-/

namespace WasmFS

open Chain Prog

/-! ## Watched runs -/

/-- The mounts that an unmount takes out of a dcache. -/
def Call.Detaches (c : Call) (s s' : FS) (m : FileId) : Prop :=
  match c with
  | .wasmfsUnmount _ => ∃ d n e, s.tree.mount d n = some e ∧ e.file = m ∧ s'.tree.mount d n = none
  | _ => False

/-- The file is neither one of `D` nor below one. -/
def FS.Outside (s : FS) (D : Set FileId) (f : FileId) : Prop := ∀ m ∈ D, ¬ s.tree.Below m f

/-- What may be asked of the calls of a run: a property of the call, of the state it starts
in and of what has been detached by then. -/
abbrev CallPolicy := Call → FS → Set FileId → Prop

/-- Runs, and the mounts they have detached. -/
inductive Watched (W : CallPolicy) : FS → Set FileId → Prop
  | init (root : Nat) (env : Env) : Watched W (FS.init root env) ∅
  | call {s : FS} {D : Set FileId} (h : Watched W s D) (c : Call) (s' : FS) (r : Except Errno Unit)
      (hsettled : s.Settled) (hallowed : W c s D) (hr : c.exec s = some (s', r)) :
      Watched W s' (D ∪ {m | c.Detaches s s' m})
  | expire {s : FS} {D : Set FileId} (h : Watched W s D) (d : FileId) (hd : ¬ s.Held d) :
      Watched W (s.expire d) D
  | other {s : FS} {D : Set FileId} (h : Watched W s D) (s' : FS) (hsame : s.SameNames s') :
      Watched W s' D

/-- Any call. -/
def CallPolicy.any : CallPolicy := fun _ _ _ => True

/-- The call does not lead back to what has been detached: `fchdir` does not enter it, a
rename does not take the working directory there and moves no detached mount, and the
mount that an unmount detaches is not among the entries of a directory as well. -/
def CallPolicy.apart : CallPolicy := fun c s D =>
  match c with
  | .fchdir fd => ∀ o, s.getEntry fd = some o → s.Outside D (s.openFile o).file
  | .renameat .. => ∀ P a f Q b, c.Renames s P a f Q b →
      f ∉ D ∧ (s.tree.Below f s.cwd → s.Outside D Q)
  | .wasmfsUnmount _ => ∀ d n f e, c.Removes s d n f → s.tree.mount d n = some e →
      f = e.file ∧ s.tree.NoEntry f
  | _ => True

variable {d E : FileId} {t : Tree}

section Watching

variable {W : CallPolicy} {s s' : FS} {D : Set FileId} {f m : FileId} {c : Call}

/-- Every state an instance reaches is one of a watched run, and the other way round. -/
theorem Watched.reachable (h : Watched W s D) : Reachable s := by
  induction h with
  | init root env => exact .init root env
  | call _ c _ r hsettled _ hr ih => exact ih.step (.call c _ r hsettled hr)
  | expire _ d hd ih => exact ih.step (.expire d hd)
  | other _ _ hsame ih => exact ih.step (.other _ hsame)

/-! ## Apart from the detached mounts -/

/-- No name leads to a detached mount, and the working directory is not at or below one. -/
structure FS.Parted (s : FS) (D : Set FileId) : Prop where
  lt : ∀ m ∈ D, m < s.nextFile
  not_root : ∀ m ∈ D, m ≠ s.rootDirectory
  noEntry : ∀ m ∈ D, s.tree.NoEntry m
  noMount : ∀ m ∈ D, s.tree.NoMount m
  cwd : s.Outside D s.cwd

/-- Names do not lead from outside to a detached mount. -/
theorem FS.Parted.stays (h : s.Parted D) (hs : s.TreeSound) : s.Stays (s.Outside D) where
  root m hm hbelow := h.not_root m hm (hs.linked.eq_root_of_below hbelow)
  child d n f hd hf m hm hbelow := by
    cases hp : s.tree.parent d with
    | none =>
      rw [Tree.child_eq_none_of_parent hp] at hf
      cases hf
    | some p =>
      by_cases hdot : n = dot
      · rw [hdot, Tree.child_dot hp] at hf
        exact hd m hm (Option.some.inj hf ▸ hbelow)
      by_cases hdots : n = dotDot
      · rw [hdots, Tree.child_dotDot hp] at hf
        exact hd m hm (.head hp (Option.some.inj hf ▸ hbelow))
      obtain ⟨_, ⟨e, he, rfl⟩ | ⟨_, hlook⟩⟩ := (Tree.child_eq_some hdot hdots).mp hf
      · refine hd m hm (Tree.below_of_parent (hs.linked.mount_parent d n e he) ?_ hbelow)
        exact h.noMount m hm d n e he
      · have hmem := hs.linked.lookup_iff.mp hlook
        refine hd m hm (Tree.below_of_parent (.inl (hs.linked.entry_parent d n f hmem)) ?_ hbelow)
        rintro rfl
        exact h.noEntry f hm d n hmem

/-- `chdir` enters no detached mount. -/
theorem FS.Parted.parseFile (h : s.Parted D) (hs : s.TreeSound) {path : Path}
    (hpath : Path.parseFile path AT_FDCWD Path.followLinks s = some (s, .ok f)) : s.Outside D f := by
  have hK := h.stays hs
  have hbase : Reads s (Path.base path AT_FDCWD) (fun d => Path.DirIn s (s.Outside D) d) := by
    refine .ite (fun _ => ?_) fun _ => .ite (fun _ => ?_) fun hne => absurd rfl hne
    · refine .bind (Q := fun root => root = s.rootDirectory) (.gets rfl) fun root hroot => ?_
      refine .bind (Q := fun _ => True) (.gets trivial) fun b _ => ?_
      exact .bind (reads_admitBackend b) fun _ _ => .pure (hroot ▸ ⟨hK.root, hs.root_dir⟩)
    · refine .bind (Q := fun cwd => cwd = s.cwd) (.gets rfl) fun cwd hcwd => ?_
      refine .bind (Q := fun _ => True) (.gets trivial) fun b _ => ?_
      exact .bind (reads_admitBackend b) fun _ _ => .pure (hcwd ▸ ⟨h.cwd, hs.cwd_dir.2⟩)
  have hfile := Reads.bind hbase fun d hd =>
    Path.reads_doParseFile hs hK (Path.sensible_followLinks hs hK) path hd
  exact (hfile _ _ hpath).2 f rfl

/-! ### Steps -/

/-- What an unmount checks before it looks for the working directory. -/
structure FS.Unmountable (s : FS) (d f : FileId) : Prop where
  admits : s.Admits f
  not_root : f ≠ s.rootDirectory
  dir : (s.file f).kind = .directory
  backend : (s.file d).backend ≠ (s.file f).backend

/-- The rest of the check. -/
theorem unmountCheck_eq (h : s.Unmountable d f) : unmountCheck d f s =
    match s.cwdIsAtOrBelow f (s.nextFile + 1) s.cwd with
    | none => none
    | some below => some (s, if below = true then .error .EBUSY else .ok ()) := by
  have hdir : ¬ (s.file f).kind ≠ .directory := fun hne => hne h.dir
  refine (bind_of_ok h.admits).trans ?_
  refine (gets_bind_apply _ _ s).trans ?_
  rw [failIf_bind_apply, if_neg h.not_root]
  refine (bind_of_ok (getKind_eq f s)).trans ?_
  rw [failIf_bind_apply, if_neg hdir]
  refine (gets_bind_apply _ _ s).trans ((gets_bind_apply _ _ s).trans ?_)
  rw [failIf_bind_apply, if_neg h.backend]
  refine (gets_bind_apply _ _ s).trans ?_
  cases s.cwdIsAtOrBelow f (s.nextFile + 1) s.cwd with
  | none => rfl
  | some below => exact failIf_apply _ _ s

theorem FS.Unmountable.of_check (h : unmountCheck d f s = some (s, .ok ())) : s.Unmountable d f := by
  obtain ⟨_, s₁, hallow, h⟩ := bind_ok_iff.mp h
  obtain ⟨rfl, _⟩ := reads_admitFile f _ _ hallow
  obtain ⟨root, s₂, hroot, h⟩ := bind_ok_iff.mp h
  cases hroot
  obtain ⟨hnot, h⟩ := failIf_bind_ok_iff.mp h
  obtain ⟨kind, s₃, hkind, h⟩ := bind_ok_iff.mp h
  cases hkind
  obtain ⟨hdir, h⟩ := failIf_bind_ok_iff.mp h
  obtain ⟨b, s₄, hb, h⟩ := bind_ok_iff.mp h
  cases hb
  obtain ⟨b', s₅, hb', h⟩ := bind_ok_iff.mp h
  cases hb'
  exact ⟨hallow, hnot, not_not.mp hdir, (failIf_bind_ok_iff.mp h).1⟩

/-- An unmount that passes its checks has the working directory elsewhere. -/
theorem unmountCheck_ok (hs : s.TreeSound) (hends : s.ChainsEnd) (h : unmountCheck d f s = some (s, .ok ())) :
    ¬ s.tree.Below f s.cwd := by
  obtain ⟨below, hrun, hiff⟩ := FS.cwdIsAtOrBelow_spec hs (hends.endsIn hs s.cwd) f
  rw [unmountCheck_eq (.of_check h), hrun] at h
  intro hbelow
  rw [hiff.mpr hbelow] at h
  cases h

/-- An unmount fails with `EBUSY` exactly when the working directory is at or below the
mount. -/
theorem unmountCheck_busy_iff (hs : s.TreeSound) (hends : s.ChainsEnd) (h : s.Unmountable d f) :
    unmountCheck d f s = some (s, .error .EBUSY) ↔ s.tree.Below f s.cwd := by
  obtain ⟨below, hrun, hiff⟩ := FS.cwdIsAtOrBelow_spec hs (hends.endsIn hs s.cwd) f
  rw [unmountCheck_eq h, hrun, ← hiff]
  cases below with
  | false => simp
  | true => simp

theorem Tree.Linked.of_removeChild_entries (h : t.Linked) {n k : Name}
    (hk : (k, f) ∈ (t.removeChild d n).entries E) : (k, f) ∈ t.entries E := by
  unfold Tree.removeChild at hk
  split at hk
  · exact hk
  · exact ((h.removeEntry_entries E k f).mp hk).1

theorem Tree.of_removeChild_mount {n k : Name} {e : DCacheEntry} (hk : (t.removeChild d n).mount E k = some e) :
    t.mount E k = some e ∧ ¬ (E = d ∧ k = n) := by
  unfold Tree.removeChild at hk
  split at hk
  · rw [Tree.setMount_mount] at hk
    split at hk
    · cases hk
    · next hne => exact ⟨hk, hne⟩
  · next hnone =>
      rw [Tree.removeEntry_mount] at hk
      refine ⟨hk, ?_⟩
      rintro ⟨rfl, rfl⟩
      rw [hnone] at hk
      cases hk

theorem Tree.removeChild_mount_of_ne {n k : Name} (hne : ¬ (E = d ∧ k = n)) :
    (t.removeChild d n).mount E k = t.mount E k := by
  unfold Tree.removeChild
  split
  · rw [Tree.setMount_mount, if_neg hne]
  · rw [Tree.removeEntry_mount]

/-- Fewer names and fewer pointers. -/
theorem FS.Parted.shrink (h : s.Parted D) (hnext : s.nextFile ≤ s'.nextFile)
    (hroot : s'.rootDirectory = s.rootDirectory) (hcwd : s.Outside D s'.cwd)
    (hparents : Clears s.tree.parent s'.tree.parent)
    (hentries : ∀ d n f, (n, f) ∈ s'.tree.entries d → (n, f) ∈ s.tree.entries d)
    (hmounts : ∀ d n e, s'.tree.mount d n = some e → s.tree.mount d n = some e) : s'.Parted D where
  lt m hm := Nat.lt_of_lt_of_le (h.lt m hm) hnext
  not_root m hm := hroot ▸ h.not_root m hm
  noEntry m hm d n hmem := h.noEntry m hm d n (hentries d n m hmem)
  noMount m hm d n e he := h.noMount m hm d n e (hmounts d n e he)
  cwd m hm hbelow := hcwd m hm (hparents.reaches hbelow)

/-- New names, pointers turned to places outside. -/
theorem FS.Parted.turn (h : s.Parted D) (hnext : s.nextFile ≤ s'.nextFile)
    (hroot : s'.rootDirectory = s.rootDirectory) (hcwd : s'.cwd = s.cwd) {q : FileId}
    (hparents : Attaches s.tree.parent s'.tree.parent f q) (hf : f ∉ D)
    (hentries : ∀ d n g, (n, g) ∈ s'.tree.entries d → (n, g) ∈ s.tree.entries d ∨ g = f)
    (hmounts : ∀ d n e, s'.tree.mount d n = some e → s.tree.mount d n = some e ∨ e.file = f)
    (hmove : s.tree.Below f s.cwd → s.Outside D q) : s'.Parted D where
  lt m hm := Nat.lt_of_lt_of_le (h.lt m hm) hnext
  not_root m hm := hroot ▸ h.not_root m hm
  noEntry m hm d n hmem := by
    rcases hentries d n m hmem with hold | rfl
    · exact h.noEntry m hm d n hold
    · exact hf hm
  noMount m hm d n e he := by
    rcases hmounts d n e he with hold | hfile
    · exact h.noMount m hm d n e hold
    · rintro rfl
      exact hf (hfile ▸ hm)
  cwd m hm hbelow := by
    rw [Tree.Below, hcwd] at hbelow
    rcases hparents.reaches hbelow with hold | ⟨hcf, hqm⟩
    · exact h.cwd m hm hold
    · exact hmove hcf m hm hqm

/-- More directories are detached. -/
theorem FS.Parted.add (h : s.Parted D) {E : Set FileId} (hE : ∀ m ∈ E, m < s.nextFile ∧
    m ≠ s.rootDirectory ∧ s.tree.NoEntry m ∧ s.tree.NoMount m ∧ ¬ s.tree.Below m s.cwd) :
    s.Parted (D ∪ E) where
  lt m hm := hm.elim (h.lt m) fun he => (hE m he).1
  not_root m hm := hm.elim (h.not_root m) fun he => (hE m he).2.1
  noEntry m hm := hm.elim (h.noEntry m) fun he => (hE m he).2.2.1
  noMount m hm := hm.elim (h.noMount m) fun he => (hE m he).2.2.2.1
  cwd m hm := hm.elim (h.cwd m) fun he => (hE m he).2.2.2.2

theorem FS.Parted.add_none (h : s.Parted D) {E : Set FileId} (hE : ∀ m, m ∉ E) : s.Parted (D ∪ E) :=
  h.add fun m hm => absurd hm (hE m)

/-- Where no mount goes, none is detached. -/
theorem Call.not_detaches (hmounts : ∀ d n e, s.tree.mount d n = some e → s'.tree.mount d n ≠ none)
    (m : FileId) : ¬ c.Detaches s s' m := by
  intro hm
  cases c with
  | wasmfsUnmount path =>
    obtain ⟨d, n, e, he, _, hnone⟩ := hm
    exact hmounts d n e he hnone
  | _ => exact hm

/-- What an unmount detaches is the mount that it has checked. -/
theorem FS.Parted.removed (h : s.Parted D) (hs : s.TreeSound) (hends : s.ChainsEnd)
    (hallowed : CallPolicy.apart c s D) {n : Name} (hc : c.Removes s d n f) (hedit : s.Edits s')
    (htree : s'.tree = s.tree.removeChild d n) : s'.Parted (D ∪ {m | c.Detaches s s' m}) := by
  have hentries : ∀ E m g, (m, g) ∈ s'.tree.entries E → (m, g) ∈ s.tree.entries E := by
    rw [htree]
    exact fun E m g => hs.linked.of_removeChild_entries
  have hmounts : ∀ E m e, s'.tree.mount E m = some e →
      s.tree.mount E m = some e ∧ ¬ (E = d ∧ m = n) := by
    intro E m e he
    rw [htree] at he
    exact Tree.of_removeChild_mount he
  have hclears : Clears s.tree.parent s'.tree.parent := htree ▸ s.tree.clears_removeChild d n
  have hbase : s'.Parted D := h.shrink hedit.table.nextFile hedit.root (hedit.cwd ▸ h.cwd) hclears
    hentries fun E m e he => (hmounts E m e he).1
  refine hbase.add fun m hm => ?_
  cases c with
  | wasmfsUnmount path =>
    obtain ⟨d', n', e, he, rfl, hnone⟩ := hm
    have hplace : d' = d ∧ n' = n := by
      by_contra hne
      rw [htree, Tree.removeChild_mount_of_ne hne, he] at hnone
      cases hnone
    obtain ⟨rfl, rfl⟩ := hplace
    obtain ⟨rfl, hno⟩ := hallowed d' n' f e hc he
    have hcheck := hc.2.2
    refine ⟨Nat.lt_of_lt_of_le (hs.within.mount_lt d' n' e he) hedit.table.nextFile, ?_,
      fun E m hmem => hno E m (hentries E m _ hmem), ?_, fun hbelow => ?_⟩
    · rw [hedit.root]
      exact (FS.Unmountable.of_check hcheck).not_root
    · intro E m e' he' hfile
      obtain ⟨hold, hne⟩ := hmounts E m e' he'
      exact hne (hs.linked.mount_unique E d' m n' e' e hold he hfile)
    · rw [hedit.cwd] at hbelow
      exact unmountCheck_ok hs hends hcheck (hclears.reaches hbelow)
  | _ => exact hm.elim

/-- A call that is apart from the detached mounts keeps the working directory apart. -/
theorem FS.Parted.call (h : s.Parted D) (hs : s.TreeSound) (hends : s.ChainsEnd)
    (hallowed : CallPolicy.apart c s D) (heffect : c.Effect s s') :
    s'.Parted (D ∪ {m | c.Detaches s s' m}) := by
  cases heffect with
  | kept hkept =>
    refine FS.Parted.add_none ?_ fun m => Call.not_detaches (fun d n e he => ?_) m
    · refine h.shrink hkept.nextFile (congrArg Tree.root hkept.tree) (hkept.cwd ▸ h.cwd)
        (fun g => .inl (by rw [hkept.tree])) ?_ ?_
      · rw [hkept.tree]
        exact fun _ _ _ => id
      · rw [hkept.tree]
        exact fun _ _ _ => id
    · rw [hkept.tree, he]
      simp
  | grown path dirfd d n f _ hgrown =>
    have hmounts : ∀ E m e, s'.tree.mount E m = some e → s.tree.mount E m = some e ∨ e.file = f := by
      intro E m e he
      rcases hgrown.tree with htree | htree
      · rw [htree] at he
        exact .inl he
      · rw [htree, Tree.mountChild, Tree.setMount_mount] at he
        split at he
        · exact .inr (congrArg DCacheEntry.file (Option.some.inj he)).symm
        · exact .inl he
    have hentries : ∀ E m g, (m, g) ∈ s'.tree.entries E → (m, g) ∈ s.tree.entries E ∨ g = f := by
      intro E m g hg
      rcases hgrown.tree with htree | htree
      · rw [htree, Tree.insertChild, Tree.setEntries_entries] at hg
        split at hg
        · next heq =>
            rcases List.mem_append.mp hg with hg | hg
            · exact .inl (heq ▸ hg)
            · exact .inr (congrArg Prod.snd (List.mem_singleton.mp hg))
        · exact .inl hg
      · rw [htree] at hg
        exact .inl hg
    have hfresh : ∀ {g}, g < s.nextFile → g ≠ f := fun hlt heq =>
      Nat.not_lt.mpr hgrown.fresh (heq ▸ hlt)
    have hroot : s'.rootDirectory = s.rootDirectory := by
      rcases hgrown.tree with htree | htree
      · exact congrArg Tree.root htree
      · exact congrArg Tree.root htree
    refine FS.Parted.add_none ?_ fun m => Call.not_detaches (fun E m e he => ?_) m
    · refine h.turn hgrown.nextFile hroot hgrown.cwd (hgrown.attaches hs)
        (fun hm => hfresh (h.lt f hm) rfl) hentries hmounts fun hbelow => ?_
      exact absurd (hs.within.eq_of_below hgrown.fresh hbelow) (hfresh hs.cwd_dir.1)
    · rcases hgrown.tree with htree | htree
      · rw [htree]
        exact ne_of_eq_of_ne he (by simp)
      · rw [htree, Tree.mountChild, Tree.setMount_mount]
        split
        · simp
        · exact ne_of_eq_of_ne he (by simp)
  | removed d n f hc hedit _ htree => exact h.removed hs hends hallowed hc hedit htree
  | renamed P a f Q b R hc _ hedit _ hmoved =>
    have hmove := hc.movable
    have hpolicy : f ∉ D ∧ (s.tree.Below f s.cwd → s.Outside D Q) := by
      cases c with
      | renameat olddirfd oldpath newdirfd newpath => exact hallowed P a f Q b hc
      | _ => exact hc.elim
    refine FS.Parted.add_none ?_ fun m hm => ?_
    · refine h.turn hedit.table.nextFile hedit.root hedit.cwd
        (hmoved.attaches (hmove.climbs.not_below hs.linked hmove.not_root)) hpolicy.1 ?_ ?_ hpolicy.2
      · intro E m g hg
        rcases (hmoved.entries E m g).mp hg with ⟨_, _, rfl⟩ | ⟨hold, _⟩
        · exact .inr rfl
        · exact .inl hold
      · intro E m e he
        rcases hmoved.mount with ⟨_, hsame⟩ | ⟨a', e', _, hfile, hmounts⟩
        · exact .inl (hsame E m ▸ he)
        · rw [hmounts] at he
          split at he
          · exact .inr (Option.some.inj he ▸ hfile)
          · split at he
            · cases he
            · exact .inl he
    · cases c with
      | renameat olddirfd oldpath newdirfd newpath => exact hm
      | _ => exact hc.elim
  | entered f hc _ heq =>
    subst heq
    refine FS.Parted.add_none ?_ fun m => Call.not_detaches (fun d n e he => ?_) m
    · refine h.shrink (Nat.le_refl _) rfl ?_ (fun g => .inl rfl) (fun _ _ _ => id) fun _ _ _ => id
      cases c with
      | chdir path => exact h.parseFile hs hc
      | fchdir fd =>
        obtain ⟨o, ho, rfl⟩ := hc
        exact hallowed o ho
      | _ => exact hc.elim
    · exact ne_of_eq_of_ne he (by simp)

theorem FS.Parted.expire (h : s.Parted D) (d : FileId) : (s.expire d).Parted D :=
  h.shrink (Nat.le_refl _) rfl h.cwd (s.clears_expire d) (fun _ _ _ hg => (FS.mem_expire_entries hg).2)
    fun _ _ _ he => (FS.of_expire_mount he).2

theorem FS.Parted.other (h : s.Parted D) (hsame : s.SameNames s') : s'.Parted D := by
  have htree := hsame.keepsTree.tree
  refine h.shrink (Nat.le_of_eq hsame.nextFile.symm) hsame.rootDirectory (hsame.cwd ▸ h.cwd)
    (fun g => .inl (by rw [htree])) ?_ ?_
  · rw [htree]
    exact fun _ _ _ => id
  · rw [htree]
    exact fun _ _ _ => id

/-- In every watched run whose calls are apart, the working directory stays apart. -/
theorem Watched.parted (h : Watched .apart s D) : s.Parted D := by
  induction h with
  | init root env =>
    exact ⟨fun _ hm => hm.elim, fun _ hm => hm.elim, fun _ hm => hm.elim, fun _ hm => hm.elim,
      fun _ hm => hm.elim⟩
  | call hrun c _ _ _ hallowed hr ih =>
    have hreach := hrun.reachable
    exact ih.call hreach.sound.tree hreach.chainsEnd hallowed (hreach.sound.call hr).2
  | expire _ d _ ih => exact ih.expire d
  | other _ _ hsame ih => exact ih.other hsame

end Watching

/-- In every run whose calls do not lead back to what has been detached, the working
directory is at or below no detached mount; and an unmount of a mount fails with `EBUSY`
exactly when the working directory is at or below it. -/
theorem cwd_outside_detached {s : FS} {D : Set FileId} (h : Watched .apart s D) :
    s.Outside D s.cwd ∧ ∀ (path : Path) (d : FileId) (n : Name) (f : FileId),
      s.Leads path AT_FDCWD d n → s.tree.child d n = some f → s.Unmountable d f →
        (wasmfsUnmount path s = some (s, .error .EBUSY) ↔ s.tree.Below f s.cwd) := by
  have hs := h.reachable.sound.tree
  refine ⟨h.parted.cwd, fun path d n f hlead hchild hf => ?_⟩
  rw [← unmountCheck_busy_iff hs h.reachable.chainsEnd hf]
  have hrun : wasmfsUnmount path s =
      (unmountCheck d f >>= fun _ => Directory.removeChild d n) s := by
    have hget : Directory.getChild d n s = some (s, .ok (some f)) := hchild ▸ getChild_eq hs d n
    exact (bind_of_ok hlead).trans (bind_of_ok hget)
  rw [hrun]
  obtain ⟨s₁, hremove, _⟩ := hs.removeChild d n
  refine ⟨fun hbusy => ?_, fun hbusy => bind_of_error hbusy⟩
  rcases bind_error_iff.mp hbusy with herr | ⟨_, s₂, hok, herr⟩
  · exact herr
  · obtain ⟨rfl, _⟩ := reads_unmountCheck d f _ _ hok
    rw [hremove] at herr
    cases herr

/-! ### Runs of given calls -/

theorem Watched.after {W : CallPolicy} {s : FS} {D : Set FileId} (h : Watched W s D) (depth : Nat)
    (c : Call) (hallowed : W c s D) (hrun : (c.exec s).isSome = true) (hsettled : s.SettledWithin depth) :
    Watched W (s.after c) (D ∪ {m | c.Detaches s (s.after c) m}) := by
  obtain ⟨⟨s', r⟩, heq⟩ := Option.isSome_iff_exists.mp hrun
  have hafter : s.after c = s' := by
    unfold FS.after
    rw [heq]
  rw [hafter]
  exact h.call c s' r (h.reachable.sound.tree.settled hsettled) hallowed heq

/-- The instance of `withMount`, in the mounted directory: unmounting it fails. -/
theorem cwd_outside_detached_busy :
    wasmfsUnmount "/m".toList inMount = some (inMount, .error .EBUSY) := by
  have hmounted := (Watched.init (W := .apart) 0 Env.quiet).after 1 mountCall trivial rfl (by decide)
  have hin := hmounted.after 2 (.chdir "/m".toList) trivial rfl (by decide)
  have hlead : inMount.Leads "/m".toList AT_FDCWD 3 "m".toList := rfl
  have hf : inMount.Unmountable 3 9 := ⟨rfl, by decide, rfl, by decide⟩
  exact ((cwd_outside_detached hin).2 "/m".toList 3 "m".toList 9 hlead rfl hf).mpr (.refl _)

/-- `fchdir` goes back to a directory that has been unmounted. -/
theorem fchdir_enters_detached : ¬ ∀ (s : FS) (D : Set FileId), Watched .any s D →
    s.Outside D s.cwd ∧ ∀ (path : Path) (d : FileId) (n : Name) (f : FileId),
      s.Leads path AT_FDCWD d n → s.tree.child d n = some f → s.Unmountable d f →
        (wasmfsUnmount path s = some (s, .error .EBUSY) ↔ s.tree.Below f s.cwd) := by
  intro hall
  have hmounted := (Watched.init (W := .any) 0 Env.quiet).after 1 mountCall trivial rfl (by decide)
  have hopened := hmounted.after 2 (.openat AT_FDCWD "/m".toList O_RDONLY 0) trivial rfl (by decide)
  have hdetached := hopened.after 2 (.wasmfsUnmount "/m".toList) trivial rfl (by decide)
  have hentered := hdetached.after 2 (.fchdir 3) trivial rfl (by decide)
  refine (hall _ _ hentered).1 9 (.inl (.inr ?_)) (.refl 9)
  exact ⟨3, "m".toList, ⟨.mount, 9⟩, rfl, rfl, rfl⟩

end WasmFS
